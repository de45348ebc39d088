import Mathlib.Data.List.Perm.Basic
import Mathlib.Data.List.Perm.Lattice

/-!
# The live blocks of a heap

`malloc`, `realloc` and `free` on the blocks of a heap, by number. Freeing a block that is not live is
undefined. What is live is counted as a list up to permutation, so an operation says what it adds to and
takes from the rest.
-/

namespace Heaps

/-- The number of the next block, and the blocks that are allocated and not freed. -/
structure Mem where
  next : Nat
  live : List Nat

/-- No block has been given out that is yet to come. -/
def Mem.Bounded (M : Mem) : Prop := ∀ b ∈ M.live, b < M.next

/-- In addition, no block is live twice. -/
structure Mem.Sound (M : Mem) : Prop where
  nodup : M.live.Nodup
  lt : M.Bounded

/-- A pointer: null, or to a block. -/
abbrev Ptr := Option Nat

/-- The pointer from `malloc` or `calloc`, which succeeds if `ok`. -/
def malloc (ok : Bool) (M : Mem) : Ptr × Mem :=
  if ok then (some M.next, ⟨M.next + 1, M.next :: M.live⟩) else (none, M)

def free (p : Ptr) (M : Mem) : Option Mem :=
  match p with
  | none => some M
  | some b => if b ∈ M.live then some { M with live := M.live.erase b } else none

/-- `realloc`: the new block replaces the old one; a null pointer says that nothing has changed. -/
def realloc (ok : Bool) (p : Ptr) (M : Mem) : Option (Ptr × Mem) :=
  if ok then do
    let M ← free p M
    some (malloc true M)
  else some (none, M)

/-- One allocation after the other. -/
def mallocAll (oks : List Bool) (M : Mem) : List Ptr × Mem :=
  match oks with
  | [] => ([], M)
  | ok :: oks =>
    let (p, M) := malloc ok M
    let (ps, M) := mallocAll oks M
    (p :: ps, M)

def freeAll (ps : List Ptr) (M : Mem) : Option Mem :=
  match ps with
  | [] => some M
  | p :: ps => do
    let M ← free p M
    freeAll ps M

/-- One more reference to an object that is alive; `live` has an object as often as there are references
to it, and `free` drops one. -/
def incref (b : Nat) (M : Mem) : Option Mem :=
  if b ∈ M.live then some { M with live := b :: M.live } else none

/-- A use of what a pointer points to. -/
def access (p : Ptr) (M : Mem) : Option Unit :=
  match p with
  | none => none
  | some b => if b ∈ M.live then some () else none

/-- The blocks behind pointers. -/
def blocks (ps : List Ptr) : List Nat := ps.filterMap id

@[simp] theorem blocks_nil : blocks [] = [] := rfl

theorem blocks_cons (p : Ptr) (ps : List Ptr) : blocks (p :: ps) = p.toList ++ blocks ps := by
  cases p <;> rfl

theorem blocks_append (ps qs : List Ptr) : blocks (ps ++ qs) = blocks ps ++ blocks qs :=
  List.filterMap_append

theorem blocks_map_some (l : List Nat) : blocks (l.map some) = l := by
  rw [blocks, List.filterMap_map]
  exact List.filterMap_some

/-- Setting an entry of a list changes the blocks that it stands for, and no others. -/
theorem flatMap_set_perm {α : Type} (f : α → List Nat) {l : List α} {i : Nat} {a : α}
    (h : l[i]? = some a) :
    ∃ rest, (l.flatMap f).Perm (f a ++ rest) ∧ ∀ b, ((l.set i b).flatMap f).Perm (f b ++ rest) := by
  induction l generalizing i with
  | nil => exact absurd h (by simp)
  | cons x l ih =>
    cases i with
    | zero =>
      obtain rfl : x = a := Option.some.inj h
      exact ⟨l.flatMap f, List.Perm.refl _, fun _ => List.Perm.refl _⟩
    | succ i =>
      obtain ⟨rest, hperm, hset⟩ := ih h
      refine ⟨f x ++ rest, ?_, fun b => ?_⟩
      · exact (hperm.append_left _).trans (List.perm_append_comm_assoc ..)
      · exact ((hset b).append_left _).trans (List.perm_append_comm_assoc ..)

/-! ## What an operation adds and takes -/

section Ops

variable {M : Mem} {p : Ptr} {ps : List Ptr} {rest : List Nat}

theorem malloc_live (ok : Bool) (M : Mem) :
    (malloc ok M).2.live = (malloc ok M).1.toList ++ M.live := by
  cases ok <;> rfl

theorem malloc_eq_none {ok : Bool} {M' : Mem} (h : malloc ok M = (p, M')) :
    p = none ↔ ok = false := by
  cases ok <;> obtain ⟨rfl, -⟩ := Prod.mk.inj h <;> simp

theorem malloc_bounded (ok : Bool) (h : M.Bounded) : (malloc ok M).2.Bounded := by
  cases ok with
  | false => exact h
  | true =>
    intro b hb
    rcases List.mem_cons.mp hb with rfl | hb
    · exact Nat.lt_succ_self _
    · exact Nat.lt_succ_of_lt (h b hb)

theorem malloc_sound (ok : Bool) (h : M.Sound) : (malloc ok M).2.Sound := by
  cases ok with
  | false => exact h
  | true =>
    refine ⟨?_, malloc_bounded true h.lt⟩
    exact List.nodup_cons.mpr ⟨fun hmem => Nat.lt_irrefl _ (h.lt _ hmem), h.nodup⟩

/-- Freeing a live block leaves the others. -/
theorem free_spec (h : M.live.Perm (p.toList ++ rest)) :
    ∃ M', free p M = some M' ∧ M'.live.Perm rest ∧ M'.next = M.next := by
  cases p with
  | none => exact ⟨M, rfl, h, rfl⟩
  | some b =>
    have hmem : b ∈ M.live := h.mem_iff.mpr List.mem_cons_self
    refine ⟨{ M with live := M.live.erase b }, if_pos hmem, ?_, rfl⟩
    have hperm := h.erase b
    rwa [Option.toList_some, List.singleton_append, List.erase_cons_head] at hperm

theorem free_bounded {M' : Mem} (hM : M.Bounded) (h : free p M = some M') : M'.Bounded := by
  cases p with
  | none => exact Option.some.inj h ▸ hM
  | some b =>
    unfold free at h
    simp only at h
    split_ifs at h
    obtain rfl := Option.some.inj h
    exact fun b' hb' => hM b' (List.mem_of_mem_erase hb')

theorem free_sound {M' : Mem} (hM : M.Sound) (h : free p M = some M') : M'.Sound := by
  refine ⟨?_, free_bounded hM.lt h⟩
  cases p with
  | none => exact Option.some.inj h ▸ hM.nodup
  | some b =>
    unfold free at h
    simp only at h
    split_ifs at h
    obtain rfl := Option.some.inj h
    exact hM.nodup.erase b

/-- A `realloc` that succeeds replaces the block. -/
theorem realloc_spec (h : M.live.Perm (p.toList ++ rest)) :
    ∃ q M', realloc true p M = some (some q, M') ∧ M'.live.Perm (q :: rest) := by
  obtain ⟨M', hfree, hlive, -⟩ := free_spec h
  refine ⟨M'.next, ⟨M'.next + 1, M'.next :: M'.live⟩, ?_, hlive.cons _⟩
  unfold realloc
  rw [if_pos rfl, hfree]
  rfl

theorem realloc_sound {ok : Bool} {q : Ptr} {M' : Mem} (hM : M.Sound)
    (h : realloc ok p M = some (q, M')) : M'.Sound := by
  cases ok with
  | false =>
    obtain ⟨-, rfl⟩ := Prod.mk.inj (Option.some.inj h)
    exact hM
  | true =>
    obtain ⟨M1, hfree, h⟩ := Option.bind_eq_some_iff.mp h
    have hmalloc := malloc_sound true (free_sound hM hfree)
    rwa [Option.some.inj h] at hmalloc

theorem incref_of_mem {b : Nat} (h : b ∈ M.live) :
    incref b M = some { M with live := b :: M.live } := if_pos h

theorem access_of_mem {b : Nat} (h : b ∈ M.live) : access (some b) M = some () := if_pos h

theorem mallocAll_live (oks : List Bool) (M : Mem) :
    (mallocAll oks M).2.live.Perm (blocks (mallocAll oks M).1 ++ M.live) := by
  induction oks generalizing M with
  | nil => exact List.Perm.refl _
  | cons ok oks ih =>
    have hih := ih (malloc ok M).2
    rw [malloc_live] at hih
    show (mallocAll oks (malloc ok M).2).2.live.Perm
      (blocks ((malloc ok M).1 :: (mallocAll oks (malloc ok M).2).1) ++ M.live)
    rw [blocks_cons]
    refine hih.trans ?_
    rw [← List.append_assoc]
    exact List.Perm.append_right _ List.perm_append_comm

theorem mallocAll_sound (oks : List Bool) (h : M.Sound) : (mallocAll oks M).2.Sound := by
  induction oks generalizing M with
  | nil => exact h
  | cons ok oks ih => exact ih (malloc_sound ok h)

/-- The allocations that succeed are those that give a block. -/
theorem mallocAll_isSome (oks : List Bool) (M : Mem) :
    (mallocAll oks M).1.map Option.isSome = oks := by
  induction oks generalizing M with
  | nil => rfl
  | cons ok oks ih =>
    refine congrArg₂ List.cons ?_ (ih _)
    cases ok <;> rfl

/-- Freeing all pointers leaves what else is live. -/
theorem freeAll_spec (h : M.live.Perm (blocks ps ++ rest)) :
    ∃ M', freeAll ps M = some M' ∧ M'.live.Perm rest := by
  induction ps generalizing M with
  | nil => exact ⟨M, rfl, h⟩
  | cons p ps ih =>
    rw [blocks_cons, List.append_assoc] at h
    obtain ⟨M1, hfree, hlive, -⟩ := free_spec h
    obtain ⟨M', hrest, hlive'⟩ := ih hlive
    refine ⟨M', ?_, hlive'⟩
    show (free p M).bind (freeAll ps) = _
    rw [hfree, Option.bind_some, hrest]

theorem freeAll_bounded {M' : Mem} (hM : M.Bounded) (h : freeAll ps M = some M') : M'.Bounded := by
  induction ps generalizing M with
  | nil => exact Option.some.inj h ▸ hM
  | cons p ps ih =>
    obtain ⟨M1, hfree, h⟩ := Option.bind_eq_some_iff.mp h
    exact ih (free_bounded hM hfree) h

theorem freeAll_sound {M' : Mem} (hM : M.Sound) (h : freeAll ps M = some M') : M'.Sound := by
  induction ps generalizing M with
  | nil => exact Option.some.inj h ▸ hM
  | cons p ps ih =>
    obtain ⟨M1, hfree, h⟩ := Option.bind_eq_some_iff.mp h
    exact ih (free_sound hM hfree) h

end Ops

end Heaps
