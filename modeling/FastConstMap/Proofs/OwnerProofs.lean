import FastConstMap.Install
import FastConstMap.Lib.Runs

/-!
# Proofs: who holds the memory of a Python object

Each piece of memory has one holder, the object or a call of `__init__`, until its holder frees it.
-/

namespace FastConstMap

open Runs

variable {τ : Type}

/-! ## Who holds what -/

/-- The piece of memory that the pointers of a map lead to. -/
def Storage.id : Storage → Option Nat
  | .heap id => some id
  | _ => none

/-- The storage that a call has to hand on or to free. -/
def InitCall.held : InitCall τ → Storage
  | .built _ st => st
  | .refused st => st
  | _ => .null

/-- No pointer into a buffer of another object. -/
def Storage.Owned (st : Storage) : Prop := ∀ exporter, st ≠ .buffer exporter

/-- What the object holds while Python has it. -/
def World.objectHolds (s : World τ) : Option Nat :=
  if s.life = .live then s.obj.storage.id else none

/-- What the object (`none`) and the calls hold. -/
def World.holds (s : World τ) : Option Nat → Option Nat
  | none => s.objectHolds
  | some c => (s.calls c).held.id

/-- Only memory from `malloc` was freed, each piece once, and each piece that was not freed has one
holder. -/
def World.Accounted (s : World τ) : Prop :=
  ∃ ids : List Nat, s.mem.freed = ids.map Storage.heap ∧ Accounts s.mem.built ids s.holds

section Accounted

variable {s s' : World τ} {k : Option Nat}

theorem holds_setCall {c : Nat} {x : InitCall τ} (hobj : s'.objectHolds = s.objectHolds)
    (hcalls : s'.calls = Function.update s.calls c x) :
    s'.holds = Function.update s.holds (some c) x.held.id := by
  funext k
  cases k with
  | none =>
    rw [Function.update_of_ne (by simp)]
    exact hobj
  | some c' =>
    by_cases hc : c' = c
    · subst hc
      rw [Function.update_self]
      show (s'.calls c').held.id = _
      rw [hcalls, Function.update_self]
    · rw [Function.update_of_ne (fun h => hc (Option.some.inj h))]
      show (s'.calls c').held.id = (s.calls c').held.id
      rw [hcalls, Function.update_of_ne hc]

theorem holds_object (hcalls : s'.calls = s.calls) :
    s'.holds = Function.update s.holds none s'.objectHolds := by
  funext k
  cases k with
  | none => rw [Function.update_self]; rfl
  | some c =>
    rw [Function.update_of_ne (by simp)]
    show (s'.calls c).held.id = (s.calls c).held.id
    rw [hcalls]

/-- Nobody holds what an object has that Python does not know. -/
theorem objectHolds_eq_none (hlife : s.life ≠ .live) : s.objectHolds = none := if_neg hlife

theorem holds_eq (hcalls : s'.calls = s.calls) (hobj : s'.objectHolds = s.objectHolds) :
    s'.holds = s.holds := by
  rw [holds_object hcalls, hobj]
  exact Function.update_eq_self none s.holds

/-- A step that allocates and frees nothing, and after which everyone holds the same. -/
theorem World.Accounted.congr (h : s.Accounted) (hbuilt : s'.mem.built = s.mem.built)
    (hfreed : s'.mem.freed = s.mem.freed) (hholds : s'.holds = s.holds) : s'.Accounted := by
  obtain ⟨ids, hids, hacc⟩ := h
  exact ⟨ids, hfreed.trans hids, by rw [hbuilt, hholds]; exact hacc⟩

/-- A new map goes to a holder that has none. -/
theorem World.Accounted.malloc (h : s.Accounted) {len : Nat} (hk : s.holds k = none)
    (hmem : s'.mem = (s.mem.malloc len).2)
    (hholds : s'.holds = Function.update s.holds k (s.mem.malloc len).1.id) : s'.Accounted := by
  obtain ⟨ids, hids, hacc⟩ := h
  unfold Memory.malloc at hmem hholds
  by_cases hlen : len = 0
  · rw [if_pos hlen] at hmem hholds
    have hsame : s'.holds = s.holds := by
      rw [hholds]
      exact Function.update_eq_self_iff.mpr hk.symm
    exact World.Accounted.congr ⟨ids, hids, hacc⟩ (by rw [hmem]) (by rw [hmem]) hsame
  · rw [if_neg hlen] at hmem hholds
    refine ⟨ids, by rw [hmem]; exact hids, ?_⟩
    rw [hmem, hholds]
    exact hacc.allocate hk

/-- A holder frees its map. -/
theorem World.Accounted.free (h : s.Accounted) {st : Storage} (hk : s.holds k = st.id)
    (hst : st.Owned) (hbuilt : s'.mem.built = s.mem.built)
    (hfreed : s'.mem.freed = (s.mem.free st).freed)
    (hholds : s'.holds = Function.update s.holds k none) : s'.Accounted := by
  obtain ⟨ids, hids, hacc⟩ := h
  cases st with
  | null =>
    have hsame : s'.holds = s.holds := by
      rw [hholds]
      exact Function.update_eq_self_iff.mpr hk.symm
    exact World.Accounted.congr ⟨ids, hids, hacc⟩ hbuilt hfreed hsame
  | heap id =>
    refine ⟨id :: ids, ?_, ?_⟩
    · rw [hfreed, List.map_cons, ← hids]
      rfl
    · rw [hbuilt, hholds]
      exact hacc.free hk
  | buffer e => exact absurd rfl (hst e)

end Accounted

/-! ## Memory -/

theorem malloc_owned (M : Memory) (len : Nat) : (M.malloc len).1.Owned := by
  intro exporter
  unfold Memory.malloc
  split_ifs <;> simp

theorem malloc_freed (M : Memory) (len : Nat) : (M.malloc len).2.freed = M.freed := by
  unfold Memory.malloc
  split_ifs <;> rfl

theorem malloc_released (M : Memory) (len : Nat) : (M.malloc len).2.released = M.released := by
  unfold Memory.malloc
  split_ifs <;> rfl

@[simp]
theorem free_built (M : Memory) (st : Storage) : (M.free st).built = M.built := by
  cases st <;> rfl

@[simp]
theorem free_released (M : Memory) (st : Storage) : (M.free st).released = M.released := by
  cases st <;> rfl

/-- What was freed stays freed. -/
theorem mem_free {M : Memory} {st st' : Storage} (h : st' ∈ M.freed) : st' ∈ (M.free st).freed := by
  cases st
  case null => exact h
  case heap => exact List.mem_cons_of_mem _ h
  case buffer => exact List.mem_cons_of_mem _ h

theorem mem_free_cases {M : Memory} {st st' : Storage} (h : st' ∈ (M.free st).freed) :
    st' ∈ M.freed ∨ st' = st ∧ st ≠ .null := by
  cases st with
  | null => exact Or.inl h
  | heap id =>
    rcases List.mem_cons.mp h with heq | hmem
    · exact Or.inr ⟨heq, by simp⟩
    · exact Or.inl hmem
  | buffer exporter =>
    rcases List.mem_cons.mp h with heq | hmem
    · exact Or.inr ⟨heq, by simp⟩
    · exact Or.inl hmem

/-- A view is dropped, and nothing is freed. -/
theorem release_view (Ly : Layout τ) {o : PyStruct τ} {M : Memory} {exporter : Nat}
    (h : o.view = some exporter) : (o.release Ly M).2 = M.releaseBuffer exporter := by
  unfold PyStruct.release
  rw [h]
  rfl

/-- A map that is no view is freed. -/
theorem release_owned (Ly : Layout τ) {o : PyStruct τ} {M : Memory} (h : o.view = none) :
    (o.release Ly M).2 = M.free o.storage := by
  unfold PyStruct.release
  rw [h]

theorem mem_dealloc_cases {Ly : Layout τ} {s : World τ} {st : Storage}
    (h : st ∈ (s.dealloc Ly).mem.freed) :
    st ∈ s.mem.freed ∨ st = s.obj.storage ∧ s.obj.storage ≠ .null := by
  replace h : st ∈ (s.obj.release Ly s.mem).2.freed := h
  cases hview : s.obj.view with
  | none =>
    rw [release_owned _ hview] at h
    exact mem_free_cases h
  | some exporter =>
    rw [release_view _ hview] at h
    exact Or.inl h

/-- The storage of a map was freed; a map without entries has none. -/
def Memory.Discarded (M : Memory) (st : Storage) : Prop :=
  st = .null ∨ ∃ id, st = .heap id ∧ st ∈ M.freed

theorem discarded_free {M : Memory} {st : Storage} (h : st.Owned) : (M.free st).Discarded st := by
  cases st with
  | null => exact Or.inl rfl
  | heap id => exact Or.inr ⟨id, rfl, List.mem_cons_self ..⟩
  | buffer exporter => exact absurd rfl (h exporter)

theorem Memory.Discarded.mono {M M' : Memory} {st : Storage} (h : M.Discarded st)
    (hfreed : ∀ st ∈ M.freed, st ∈ M'.freed) : M'.Discarded st := by
  rcases h with rfl | ⟨id, rfl, hmem⟩
  · exact Or.inl rfl
  · exact Or.inr ⟨id, rfl, hfreed _ hmem⟩

end FastConstMap
