import FastConstMap.Attempt
import FastConstMap.Proofs.CountProofs
import FastConstMap.Proofs.NeighborProofs
import Mathlib.Data.List.Nodup

/-!
# Proofs: the peel loop

The worklist holds distinct slots, among them all that have exactly one hash left. The tables hold
the tallies of the hashes left, but for the slots that a hash was popped at, which no hash that is
left touches. So each pass that pops a hash is a peeling step, and the worklist and the stack never
outgrow their buffers.
-/

namespace FastConstMap

open CLoop Peeling

variable {p : Params}

/-! ## The invariant -/

/-- The slots that the hashes of the stack were popped at. -/
def Params.Used (p : Params) (S : List (UInt64 × Fin 3)) (s : Nat) : Prop :=
  ∃ e ∈ S, p.pos e.1 e.2 = s

/-- The state of the peel loop over the hashes `M`, after `S` was popped and with `R` left. -/
structure WorkInv (p : Params) (M : List UInt64) (w : Work) (S : List (UInt64 × Fin 3))
    (R : List UInt64) : Prop where
  stack : w.stack = S.map fun e => (e.1, foundByte e.2)
  peels : Peels p.pos M S R
  small : ∀ s, p.deg R s < 64
  count : ∃ cnt, Holds w.t2count p.arrayLen.toNat cnt ∧
    ∀ s, ¬ p.Used S s → cnt s = p.counter R s
  hash : ∃ x, Holds w.t2hash p.arrayLen.toNat x ∧ ∀ s, ¬ p.Used S s → x s = p.xorAt R s
  nodup : w.queue.Nodup
  queue_lt : ∀ idx ∈ w.queue, idx.toNat < p.arrayLen.toNat
  queue_fresh : ∀ idx ∈ w.queue, ¬ p.Used S idx.toNat
  queue_deg : ∀ idx ∈ w.queue, p.deg R idx.toNat ≤ 1
  complete : ∀ idx : UInt32, idx.toNat < p.arrayLen.toNat → p.deg R idx.toNat = 1 → idx ∈ w.queue

/-- A worklist of distinct slots that lacks one has room for another. -/
theorem length_lt_of_not_mem {queue : List UInt32} {cap : Nat} {idx : UInt32}
    (hnodup : (idx :: queue).Nodup) (hlt : ∀ i ∈ idx :: queue, i.toNat < cap) :
    queue.length < cap := by
  have hmap : ((idx :: queue).map UInt32.toNat).Nodup :=
    hnodup.map fun _ _ h => UInt32.toNat_inj.mp h
  have hsub : (idx :: queue).map UInt32.toNat ⊆ List.range cap := by
    intro s hs
    obtain ⟨i, hi, rfl⟩ := List.mem_map.mp hs
    exact List.mem_range.mpr (hlt i hi)
  have hle := (hmap.subperm hsub).length_le
  rw [List.length_map, List.length_cons, List.length_range] at hle
  exact hle

/-- What the update of one neighbour does. -/
theorem untouch_spec {cap len : Nat} {w : Work} {cnt : Nat → UInt8} {x : Nat → UInt64}
    (hc : Holds w.t2count len cnt) (hx : Holds w.t2hash len x) (hcap : w.queue.length < cap)
    {other : UInt32} (hi : other.toNat < len) (f : UInt8) (hash : UInt64) :
    ∃ tc th, w.untouch cap other f hash = some { w with
        queue := if cnt other.toNat >>> 2 = 2 then other :: w.queue else w.queue
        t2count := tc, t2hash := th } ∧
      Holds tc len (Function.update cnt other.toNat ((cnt other.toNat - 4) ^^^ f)) ∧
      Holds th len (Function.update x other.toNat (x other.toNat ^^^ hash)) := by
  obtain ⟨tc, h1, hc'⟩ := hc.store hi ((cnt other.toNat - 4) ^^^ f)
  obtain ⟨th, h2, hx'⟩ := hx.store hi (x other.toNat ^^^ hash)
  refine ⟨tc, th, ?_, hc', hx'⟩
  simp only [Work.untouch, if_pos hcap, hc.load hi, hx.load hi, h1, h2, Option.bind_eq_bind,
    Option.bind_some]

/-- Taking a hash out of the counter of one of its slots. -/
theorem counter_sub_four (hp : p.Valid) (hash : UInt64) (R : List UInt64) (j : Fin 3) :
    (p.counter (hash :: R) (p.pos hash j) - 4) ^^^ foundByte j = p.counter R (p.pos hash j) := by
  rw [counter_cons_pos hp, Words.xor_sub_four _ (ofNat_position_lt j), UInt8.add_sub_cancel,
    UInt8.xor_assoc]
  unfold foundByte
  rw [UInt8.xor_self, UInt8.xor_zero]

theorem xorAt_xor_self (hp : p.Valid) (hash : UInt64) (R : List UInt64) (j : Fin 3) :
    p.xorAt (hash :: R) (p.pos hash j) ^^^ hash = p.xorAt R (p.pos hash j) := by
  rw [xorAt_cons_pos hp, UInt64.xor_assoc, UInt64.xor_self, UInt64.xor_zero]

/-- The count part of the counter of a slot with less than 64 hashes. -/
theorem counter_shift (R : List UInt64) (s : Nat) (h : p.deg R s < 64) :
    (p.counter R s >>> 2).toNat = p.deg R s := by
  rw [UInt8.toNat_shiftRight, show (2 : UInt8).toNat % 8 = 2 from rfl, Nat.shiftRight_eq_div_pow,
    show 2 ^ 2 = 4 from rfl, counter_div, Nat.mod_eq_of_lt h]

theorem counter_shift_eq (R : List UInt64) (s : Nat) (h : p.deg R s < 64) {n : UInt8} :
    p.counter R s >>> 2 = n ↔ p.deg R s = n.toNat := by
  rw [← UInt8.toNat_inj, counter_shift R s h]

/-! ## One pass -/

theorem used_cons {S : List (UInt64 × Fin 3)} {hash : UInt64} {j : Fin 3} {s : Nat} :
    p.Used ((hash, j) :: S) s ↔ s = p.pos hash j ∨ p.Used S s := by
  simp [Params.Used, eq_comm]

/-- A slot that still has a hash was not popped. -/
theorem WorkInv.not_used {M : List UInt64} {w : Work} {S : List (UInt64 × Fin 3)} {R : List UInt64}
    (h : WorkInv p M w S R) {s : Nat} (hs : p.deg R s ≠ 0) : ¬ p.Used S s := by
  rintro ⟨e, he, rfl⟩
  exact hs (degree_eq_zero.mpr fun b hb => h.peels.free e he b hb)

/-- A slot of the worklist that has no hash left is dropped. -/
theorem WorkInv.skip {M : List UInt64} {w : Work} {S : List (UInt64 × Fin 3)} {R : List UInt64}
    (h : WorkInv p M w S R) {idx : UInt32} {queue : List UInt32} (hq : w.queue = idx :: queue)
    (hdeg : p.deg R idx.toNat ≠ 1) : WorkInv p M { w with queue := queue } S R := by
  have hmem : ∀ i ∈ queue, i ∈ w.queue := by
    intro i hi
    rw [hq]
    exact List.mem_cons_of_mem _ hi
  have hcomplete : ∀ i : UInt32, i.toNat < p.arrayLen.toNat → p.deg R i.toNat = 1 → i ∈ queue := by
    intro i hi hd
    have hi' := h.complete i hi hd
    rw [hq, List.mem_cons] at hi'
    rcases hi' with rfl | hi'
    · exact absurd hd hdeg
    · exact hi'
  exact
    { stack := h.stack
      peels := h.peels
      small := h.small
      count := h.count
      hash := h.hash
      nodup := (List.nodup_cons.mp (hq ▸ h.nodup)).2
      queue_lt := fun i hi => h.queue_lt i (hmem i hi)
      queue_fresh := fun i hi => h.queue_fresh i (hmem i hi)
      queue_deg := fun i hi => h.queue_deg i (hmem i hi)
      complete := hcomplete }

/-- The worklist after the update of the position `i` of `hash`, with the hashes `R` left before. -/
def Params.pushSlot (p : Params) (R : List UInt64) (hash : UInt64) (i : Fin 3)
    (queue : List UInt32) : List UInt32 :=
  if p.deg R (p.pos hash i) = 2 then p.slot hash i :: queue else queue

theorem mem_pushSlot {R : List UInt64} {hash : UInt64} {i : Fin 3} {queue : List UInt32}
    {idx : UInt32} : idx ∈ p.pushSlot R hash i queue ↔
      p.deg R (p.pos hash i) = 2 ∧ idx = p.slot hash i ∨ idx ∈ queue := by
  unfold Params.pushSlot
  split_ifs with h <;> simp [h]

theorem length_pushSlot_le (R : List UInt64) (hash : UInt64) (i : Fin 3) (queue : List UInt32) :
    (p.pushSlot R hash i queue).length ≤ queue.length + 1 := by
  unfold Params.pushSlot
  split_ifs
  · exact le_rfl
  · exact Nat.le_succ _

/-- A slot that was not in the worklist is pushed only once. -/
theorem nodup_pushSlot {R : List UInt64} {hash : UInt64} {i : Fin 3} {queue : List UInt32}
    (h : queue.Nodup) (hnot : p.deg R (p.pos hash i) = 2 → p.slot hash i ∉ queue) :
    (p.pushSlot R hash i queue).Nodup := by
  unfold Params.pushSlot
  split_ifs with hd
  · exact List.nodup_cons.mpr ⟨hnot hd, h⟩
  · exact h

/-- The two other positions of `hash` are the slots besides `j`. -/
theorem touches_cases {hash : UInt64} (j : Fin 3) {s : Nat} (h : Touches p.pos hash s) :
    p.pos hash j = s ∨ p.pos hash (j + 1) = s ∨ p.pos hash (j + 2) = s := by
  obtain ⟨i, hi⟩ := h
  have hcases : ∀ i j : Fin 3, i = j ∨ i = j + 1 ∨ i = j + 2 := by decide
  rcases hcases i j with rfl | rfl | rfl
  · exact Or.inl hi
  · exact Or.inr (Or.inl hi)
  · exact Or.inr (Or.inr hi)

/-- After `hash` was popped at its position `j`, the updates at its two other positions leave the
tallies of the remaining hashes. -/
theorem update_two {β : Type} {f g g' : Nat → β} {S : List (UInt64 × Fin 3)} {hash : UInt64}
    {j : Fin 3} {b1 b2 : β} (hf : ∀ s, ¬ p.Used S s → f s = g s)
    (h1 : b1 = g' (p.pos hash (j + 1))) (h2 : b2 = g' (p.pos hash (j + 2)))
    (hother : ∀ s, ¬ Touches p.pos hash s → g s = g' s) :
    ∀ s, ¬ p.Used ((hash, j) :: S) s →
      Function.update (Function.update f (p.pos hash (j + 1)) b1) (p.pos hash (j + 2)) b2 s =
        g' s := by
  intro s hs
  rw [used_cons, not_or] at hs
  by_cases hs2 : s = p.pos hash (j + 2)
  · rw [hs2, Function.update_self, h2]
  by_cases hs1 : s = p.pos hash (j + 1)
  · rw [Function.update_of_ne hs2, hs1, Function.update_self, h1]
  rw [Function.update_of_ne hs2, Function.update_of_ne hs1, hf s hs.2]
  refine hother s ?_
  intro ht
  rcases touches_cases j ht with h | h | h
  · exact hs.1 h.symm
  · exact hs1 h.symm
  · exact hs2 h.symm

/-- A hash that is popped at its position `j`: `R` are the hashes left before, `R'` those after. -/
structure Popped (p : Params) (R : List UInt64) (hash : UInt64) (j : Fin 3) (R' : List UInt64) :
    Prop where
  perm : R.Perm (hash :: R')
  free : ∀ b ∈ R', ¬ Touches p.pos b (p.pos hash j)

namespace Popped

variable {R R' : List UInt64} {a : UInt64} {j : Fin 3} (h : Popped p R a j R')
include h

theorem deg_pos (i : Fin 3) : p.deg R (p.pos a i) = p.deg R' (p.pos a i) + 1 :=
  (degree_perm h.perm _).trans (degree_cons_of_touches ⟨i, rfl⟩ R')

theorem deg_of_not_touches {s : Nat} (hs : ¬ Touches p.pos a s) : p.deg R s = p.deg R' s :=
  (degree_perm h.perm _).trans (degree_cons_of_not_touches hs R')

theorem deg_le (s : Nat) : p.deg R' s ≤ p.deg R s :=
  (degree_le_cons a R' s).trans (degree_perm h.perm s).ge

theorem deg_zero : p.deg R' (p.pos a j) = 0 := degree_eq_zero.mpr h.free

/-- The position bits of the slot are the number of the slot in its only hash. -/
theorem bitsAt (hp : p.Valid) : p.bitsAt R (p.pos a j) = foundByte j := by
  rw [Params.bitsAt, tally_perm h.perm,
    tally_cons_of_posNumber (posNumber_pos (hp.pos_injective a) j), tally_of_untouched h.free]
  exact UInt8.xor_zero

/-- The XOR word of the slot is its only hash. -/
theorem xorAt (hp : p.Valid) : p.xorAt R (p.pos a j) = a := by
  rw [xorAt_perm h.perm, xorAt_cons_pos hp]
  show tally p.pos (· ^^^ ·) 0 (fun hash _ => hash) R' (p.pos a j) ^^^ a = a
  rw [tally_of_untouched h.free, UInt64.zero_xor]

end Popped

section Pop

variable {M R R' : List UInt64} {w : Work} {S : List (UInt64 × Fin 3)} {a : UInt64} {j : Fin 3}
  {queue : List UInt32}

/-- The worklist after both updates holds each slot once, and not the popped one. -/
theorem WorkInv.nodup_pop (hp : p.Valid) (h : WorkInv p M w S R)
    (hq : w.queue = p.slot a j :: queue) :
    (p.slot a j :: p.pushSlot R a (j + 1) queue).Nodup ∧
      (p.slot a j :: p.pushSlot R a (j + 2) (p.pushSlot R a (j + 1) queue)).Nodup := by
  have hinj : Function.Injective (p.slot a) := by
    intro i i' hi
    exact hp.pos_injective a (congrArg UInt32.toNat hi)
  have hnodup := List.nodup_cons.mp (hq ▸ h.nodup)
  have hnew : ∀ i, p.deg R (p.pos a i) = 2 → p.slot a i ∉ queue := by
    intro i hd hmem
    have := h.queue_deg _ (hq ▸ List.mem_cons_of_mem _ hmem)
    rw [slot_toNat] at this
    omega
  have h1 : p.slot a j ∉ p.pushSlot R a (j + 1) queue := by
    rw [mem_pushSlot, not_or]
    exact ⟨fun heq => add_one_ne j (hinj heq.2).symm, hnodup.1⟩
  have h1' : (p.pushSlot R a (j + 1) queue).Nodup := nodup_pushSlot hnodup.2 (hnew _)
  refine ⟨List.nodup_cons.mpr ⟨h1, h1'⟩, List.nodup_cons.mpr ⟨?_, nodup_pushSlot h1' ?_⟩⟩
  · rw [mem_pushSlot, not_or]
    exact ⟨fun heq => add_two_ne j (hinj heq.2).symm, h1⟩
  · intro hd
    rw [mem_pushSlot, not_or]
    refine ⟨?_, hnew _ hd⟩
    intro heq
    exact (by decide : ∀ j : Fin 3, j + 2 ≠ j + 1) j (hinj heq.2)

/-- The popped slot leaves room for the first write, and is not pushed again before the second. -/
theorem WorkInv.room_pop (hp : p.Valid) (h : WorkInv p M w S R)
    (hq : w.queue = p.slot a j :: queue) :
    queue.length < p.arrayLen.toNat ∧
      (p.pushSlot R a (j + 1) queue).length < p.arrayLen.toNat := by
  have hlt0 : ∀ i ∈ p.slot a j :: queue, i.toNat < p.arrayLen.toNat := hq ▸ h.queue_lt
  refine ⟨length_lt_of_not_mem (hq ▸ h.nodup) hlt0, length_lt_of_not_mem (h.nodup_pop hp hq).1 ?_⟩
  intro i hi
  rw [List.mem_cons, mem_pushSlot] at hi
  rcases hi with rfl | ⟨_, rfl⟩ | hi
  · exact hp.pos_lt a j
  · exact hp.pos_lt a (j + 1)
  · exact hlt0 i (List.mem_cons_of_mem _ hi)

theorem WorkInv.not_used_pos (h : WorkInv p M w S R) (hpop : Popped p R a j R') (i : Fin 3) :
    ¬ p.Used S (p.pos a i) := h.not_used (by rw [hpop.deg_pos]; omega)

/-- What a pass computes that pops `a` at its position `j`. -/
theorem WorkInv.step_pop (hp : p.Valid) (h : WorkInv p M w S R)
    (hq : w.queue = p.slot a j :: queue) (hpop : Popped p R a j R')
    (hdeg : p.deg R (p.pos a j) = 1) (hroom : w.stack.length < M.length) :
    ∃ tc th, w.step p p.arrayLen.toNat M.length = some (.next
        { queue := p.pushSlot R a (j + 2) (p.pushSlot R a (j + 1) queue)
          stack := (a, foundByte j) :: w.stack, t2count := tc, t2hash := th }) ∧
      (∃ cnt, Holds tc p.arrayLen.toNat cnt ∧
        ∀ s, ¬ p.Used ((a, j) :: S) s → cnt s = p.counter R' s) ∧
      ∃ x, Holds th p.arrayLen.toNat x ∧ ∀ s, ¬ p.Used ((a, j) :: S) s → x s = p.xorAt R' s := by
  have hlt : ∀ i, (p.slot a i).toNat < p.arrayLen.toNat := hp.pos_lt a
  have hunused := h.not_used_pos hpop
  have hne12 : p.pos a (j + 2) ≠ p.pos a (j + 1) :=
    (hp.pos_injective a).ne ((by decide : ∀ j : Fin 3, j + 2 ≠ j + 1) j)
  obtain ⟨hroom1, hroom2⟩ := h.room_pop hp hq
  obtain ⟨cnt, hcnt, hcnt'⟩ := h.count
  obtain ⟨x, hx, hx'⟩ := h.hash
  have hcond : ∀ i, cnt (p.pos a i) >>> 2 = 2 ↔ p.deg R (p.pos a i) = 2 := by
    intro i
    rw [hcnt' _ (hunused i)]
    exact counter_shift_eq R _ (h.small _)
  -- The popped slot holds `a` and the number `j`.
  have hload : load w.t2count (p.slot a j).toNat = some (p.counter R (p.pos a j)) := by
    rw [hcnt.load (hlt j), slot_toNat, hcnt' _ (hunused j)]
  have hone : p.counter R (p.pos a j) >>> 2 = 1 := (counter_shift_eq R _ (h.small _)).mpr hdeg
  have hfound : p.counter R (p.pos a j) &&& 3 = foundByte j := by
    rw [counter_and_three, hpop.bitsAt hp]
  have hhash : load w.t2hash (p.slot a j).toNat = some a := by
    rw [hx.load (hlt j), slot_toNat, hx' _ (hunused j), hpop.xorAt hp]
  obtain ⟨tc1, th1, hu1, hc1, hx1⟩ := untouch_spec
    (w := { w with queue := queue, stack := (a, foundByte j) :: w.stack }) hcnt hx
    hroom1 (hlt (j + 1)) (foundByte (j + 1)) a
  simp only [slot_toNat, hcond] at hu1 hc1 hx1
  obtain ⟨tc2, th2, hu2, hc2, hx2⟩ := untouch_spec
    (w := { queue := p.pushSlot R a (j + 1) queue, stack := (a, foundByte j) :: w.stack
            t2count := tc1, t2hash := th1 }) hc1 hx1 hroom2 (hlt (j + 2)) (foundByte (j + 2)) a
  simp only [slot_toNat, Function.update_of_ne hne12, hcond] at hu2 hc2 hx2
  refine ⟨tc2, th2, ?_, ⟨_, hc2, ?_⟩, ⟨_, hx2, ?_⟩⟩
  · unfold Work.step
    rw [hq]
    simp only [hload, hhash, Option.bind_eq_bind, Option.bind_some, hone, hfound, hroom, ne_eq,
      not_true_eq_false, if_false, if_true, others_slot hp a j]
    rw [hu1, Option.bind_some, show (if p.deg R (p.pos a (j + 1)) = 2 then p.slot a (j + 1) :: queue
      else queue) = p.pushSlot R a (j + 1) queue from rfl, hu2, Option.bind_some]
    rfl
  · refine update_two hcnt' ?_ ?_ ?_
    · rw [hcnt' _ (hunused _), counter_perm hpop.perm, counter_sub_four hp]
    · rw [hcnt' _ (hunused _), counter_perm hpop.perm, counter_sub_four hp]
    · intro s hs
      rw [counter_perm hpop.perm, counter_cons_of_not_touches hs]
  · refine update_two hx' ?_ ?_ ?_
    · rw [hx' _ (hunused _), xorAt_perm hpop.perm, xorAt_xor_self hp]
    · rw [hx' _ (hunused _), xorAt_perm hpop.perm, xorAt_xor_self hp]
    · intro s hs
      rw [xorAt_perm hpop.perm, xorAt_cons_of_not_touches hs]

/-- The stack has room for each hash that is left. -/
theorem WorkInv.stack_lt (h : WorkInv p M w S R) (hR : R ≠ []) : w.stack.length < M.length := by
  have h1 := h.peels.perm.length_eq
  have h2 := List.length_pos_of_ne_nil hR
  rw [h.stack, List.length_map]
  rw [List.length_append, List.length_map] at h1
  omega

/-- Popping a hash keeps the invariant. -/
theorem WorkInv.popped (hp : p.Valid) (h : WorkInv p M w S R) (hq : w.queue = p.slot a j :: queue)
    (hpop : Popped p R a j R') {tc : List UInt8} {th : List UInt64}
    (hcount : ∃ cnt, Holds tc p.arrayLen.toNat cnt ∧
      ∀ s, ¬ p.Used ((a, j) :: S) s → cnt s = p.counter R' s)
    (hhash : ∃ x, Holds th p.arrayLen.toNat x ∧
      ∀ s, ¬ p.Used ((a, j) :: S) s → x s = p.xorAt R' s) :
    WorkInv p M
      { queue := p.pushSlot R a (j + 2) (p.pushSlot R a (j + 1) queue)
        stack := (a, foundByte j) :: w.stack, t2count := tc, t2hash := th }
      ((a, j) :: S) R' := by
  have hunused := h.not_used_pos hpop
  have hnodup := List.nodup_cons.mp (h.nodup_pop hp hq).2
  have hmem : ∀ i, i ∈ p.pushSlot R a (j + 2) (p.pushSlot R a (j + 1) queue) ↔
      p.deg R (p.pos a (j + 2)) = 2 ∧ i = p.slot a (j + 2) ∨
        p.deg R (p.pos a (j + 1)) = 2 ∧ i = p.slot a (j + 1) ∨ i ∈ queue := by
    intro i
    rw [mem_pushSlot, mem_pushSlot]
  have hold : ∀ i ∈ queue, i ∈ w.queue := by
    intro i hi
    rw [hq]
    exact List.mem_cons_of_mem _ hi
  constructor
  case stack => rw [List.map_cons, ← h.stack]
  case peels => exact .step h.peels hpop.perm hpop.free
  case small =>
    intro s
    exact lt_of_le_of_lt (hpop.deg_le s) (h.small s)
  case count => exact hcount
  case hash => exact hhash
  case nodup => exact hnodup.2
  case queue_lt =>
    intro i hi
    rcases (hmem i).mp hi with ⟨_, rfl⟩ | ⟨_, rfl⟩ | hi
    · exact hp.pos_lt a _
    · exact hp.pos_lt a _
    · exact h.queue_lt i (hold i hi)
  case queue_fresh =>
    intro i hi
    rw [used_cons, not_or]
    constructor
    · intro heq
      rw [← slot_toNat, UInt32.toNat_inj] at heq
      exact hnodup.1 (heq ▸ hi)
    · rcases (hmem i).mp hi with ⟨_, rfl⟩ | ⟨_, rfl⟩ | hi
      · exact hunused _
      · exact hunused _
      · exact h.queue_fresh i (hold i hi)
  case queue_deg =>
    intro i hi
    rcases (hmem i).mp hi with ⟨hd, rfl⟩ | ⟨hd, rfl⟩ | hi
    · rw [hpop.deg_pos] at hd
      rw [slot_toNat]
      omega
    · rw [hpop.deg_pos] at hd
      rw [slot_toNat]
      omega
    · exact (hpop.deg_le _).trans (h.queue_deg i (hold i hi))
  case complete =>
    -- A slot comes down to one hash now if `a` touches it, else it was in the worklist.
    intro i hi hd
    by_cases ht : Touches p.pos a i.toNat
    · rcases touches_cases j ht with heq | heq | heq
      · rw [← heq, hpop.deg_zero] at hd
        omega
      · rw [← heq] at hd
        have hi' : i = p.slot a (j + 1) := UInt32.toNat_inj.mp heq.symm
        exact (hmem i).mpr (Or.inr (Or.inl ⟨by rw [hpop.deg_pos, hd], hi'⟩))
      · rw [← heq] at hd
        have hi' : i = p.slot a (j + 2) := UInt32.toNat_inj.mp heq.symm
        exact (hmem i).mpr (Or.inl ⟨by rw [hpop.deg_pos, hd], hi'⟩)
    · have hin := h.complete i hi (by rw [hpop.deg_of_not_touches ht, hd])
      rw [hq, List.mem_cons] at hin
      rcases hin with rfl | hin
      · exact absurd ⟨j, rfl⟩ ht
      · exact (hmem i).mpr (Or.inr (Or.inr hin))

/-- The only hash of a slot, and the position at which it has the slot. -/
theorem exists_popped {idx : UInt32} (hdeg : p.deg R idx.toNat = 1) :
    ∃ a j R', idx = p.slot a j ∧ Popped p R a j R' := by
  obtain ⟨a, j, R', hR, hj, hfree⟩ := exists_of_degree_one hdeg
  obtain rfl : idx = p.slot a j := UInt32.toNat_inj.mp hj.symm
  rw [slot_toNat] at hfree
  exact ⟨a, j, R', rfl, hR, hfree⟩

theorem Popped.room (hpop : Popped p R a j R') (h : WorkInv p M w S R) :
    w.stack.length < M.length := by
  refine h.stack_lt ?_
  rintro rfl
  exact absurd hpop.perm.length_eq nofun

/-- A pass that finds a slot with one hash pops this hash: a peeling step. -/
theorem WorkInv.pop (hp : p.Valid) (h : WorkInv p M w S R) {idx : UInt32}
    (hq : w.queue = idx :: queue) (hdeg : p.deg R idx.toNat = 1) :
    ∃ w' a j R', w.step p p.arrayLen.toNat M.length = some (.next w') ∧ idx = p.slot a j ∧
      Popped p R a j R' ∧ WorkInv p M w' ((a, j) :: S) R' ∧
      w'.queue.length ≤ queue.length + 2 ∧ w.stack.length < M.length := by
  obtain ⟨a, j, R', rfl, hpop⟩ := exists_popped hdeg
  rw [slot_toNat] at hdeg
  have hroom := hpop.room h
  obtain ⟨tc, th, hstep, hcount, hhash⟩ := h.step_pop hp hq hpop hdeg hroom
  refine ⟨_, a, j, R', hstep, rfl, hpop, h.popped hp hq hpop hcount hhash, ?_, hroom⟩
  exact (length_pushSlot_le _ _ _ _).trans (Nat.succ_le_succ (length_pushSlot_le _ _ _ _))

/-- A pass that finds a slot without exactly one hash drops the slot. -/
theorem WorkInv.step_skip (h : WorkInv p M w S R) {idx : UInt32} (hq : w.queue = idx :: queue)
    (hdeg : p.deg R idx.toNat ≠ 1) :
    w.step p p.arrayLen.toNat M.length = some (.next { w with queue := queue }) := by
  have hmem : idx ∈ w.queue := hq ▸ List.mem_cons_self ..
  obtain ⟨cnt, hcnt, hcnt'⟩ := h.count
  unfold Work.step
  rw [hq]
  simp only [hcnt.load (h.queue_lt idx hmem), hcnt' _ (h.queue_fresh idx hmem),
    Option.bind_eq_bind, Option.bind_some]
  rw [if_pos]
  rw [ne_eq, counter_shift_eq R _ (h.small _)]
  exact hdeg

/-- What a pass that goes on has done: it dropped the top slot of the worklist, or popped a hash
there. -/
theorem WorkInv.next (hp : p.Valid) (h : WorkInv p M w S R) {w' : Work}
    (hstep : w.step p p.arrayLen.toNat M.length = some (.next w')) :
    ∃ idx queue, w.queue = idx :: queue ∧ (WorkInv p M w' S R ∨
      ∃ a j R', idx = p.slot a j ∧ Popped p R a j R' ∧ WorkInv p M w' ((a, j) :: S) R') := by
  cases hq : w.queue with
  | nil =>
    simp only [Work.step, hq] at hstep
    exact absurd hstep nofun
  | cons idx queue =>
    refine ⟨idx, queue, rfl, ?_⟩
    by_cases hdeg : p.deg R idx.toNat = 1
    · obtain ⟨w1, a, j, R', hpop, hidx, hpopped, hinv, -⟩ := h.pop hp hq hdeg
      rw [hpop, Option.some.injEq, Ctl.next.injEq] at hstep
      exact Or.inr ⟨a, j, R', hidx, hpopped, hstep ▸ hinv⟩
    · rw [h.step_skip hq hdeg, Option.some.injEq, Ctl.next.injEq] at hstep
      exact Or.inl (hstep ▸ h.skip hq hdeg)

end Pop

/-! ## The whole loop -/

theorem mem_singletons {t2count : List UInt8} {arrayLen : Nat} (hlen : arrayLen < 2 ^ 32)
    {idx : UInt32} : idx ∈ singletons t2count arrayLen ↔
      idx.toNat < arrayLen ∧ ∃ c : UInt8, load t2count idx.toNat = some c ∧ c >>> 2 = 1 := by
  unfold singletons
  rw [List.mem_reverse, List.mem_map]
  constructor
  · rintro ⟨i, hi, rfl⟩
    rw [List.mem_filter, List.mem_range, Option.any_eq_true] at hi
    obtain ⟨hi, c, hc, h1⟩ := hi
    rw [UInt32.toNat_ofNat', Nat.mod_eq_of_lt (hi.trans hlen)]
    exact ⟨hi, c, hc, of_decide_eq_true h1⟩
  · rintro ⟨hi, c, hc, h1⟩
    refine ⟨idx.toNat, ?_, UInt32.ofNat_toNat⟩
    rw [List.mem_filter, List.mem_range, Option.any_eq_true]
    exact ⟨hi, c, hc, decide_eq_true h1⟩

theorem nodup_singletons (t2count : List UInt8) {arrayLen : Nat} (hlen : arrayLen < 2 ^ 32) :
    (singletons t2count arrayLen).Nodup := by
  unfold singletons
  rw [List.nodup_reverse]
  refine List.Nodup.map_on ?_ (List.nodup_range.filter _)
  intro i hi j hj hij
  have hi' := List.mem_range.mp (List.mem_of_mem_filter hi)
  have hj' := List.mem_range.mp (List.mem_of_mem_filter hj)
  have := congrArg UInt32.toNat hij
  rwa [UInt32.toNat_ofNat', UInt32.toNat_ofNat', Nat.mod_eq_of_lt (hi'.trans hlen),
    Nat.mod_eq_of_lt (hj'.trans hlen)] at this

theorem length_singletons_le (t2count : List UInt8) (arrayLen : Nat) :
    (singletons t2count arrayLen).length ≤ arrayLen := by
  unfold singletons
  rw [List.length_reverse, List.length_map]
  exact (List.length_filter_le _ _).trans_eq List.length_range

/-- The invariant holds when the tables tally `M` and the worklist has just been filled. -/
theorem WorkInv.init {M : List UInt64} {tc : List UInt8} {th : List UInt64} (h : Tallied p M tc th)
    (hsmall : ∀ s, p.deg M s < 64) :
    WorkInv p M { queue := singletons tc p.arrayLen.toNat, stack := [], t2count := tc, t2hash := th }
      [] M := by
  have hmem : ∀ idx : UInt32, idx ∈ singletons tc p.arrayLen.toNat ↔
      idx.toNat < p.arrayLen.toNat ∧ p.deg M idx.toNat = 1 := by
    intro idx
    rw [mem_singletons p.arrayLen.toNat_lt]
    refine and_congr_right ?_
    intro hi
    rw [h.count.load hi]
    simp only [Option.some.injEq, exists_eq_left']
    exact counter_shift_eq M _ (hsmall _)
  have hunused : ∀ s, ¬ p.Used [] s := by simp [Params.Used]
  exact
    { stack := rfl
      peels := .start
      small := hsmall
      count := ⟨_, h.count, fun _ _ => rfl⟩
      hash := ⟨_, h.hash, fun _ _ => rfl⟩
      nodup := nodup_singletons tc p.arrayLen.toNat_lt
      queue_lt := fun idx hi => ((hmem idx).mp hi).1
      queue_fresh := fun _ _ => hunused _
      queue_deg := fun idx hi => ((hmem idx).mp hi).2.le
      complete := fun idx hi hd => (hmem idx).mpr ⟨hi, hd⟩ }

/-- When the worklist is empty, no slot has exactly one hash left. -/
theorem WorkInv.stuck (hp : p.Valid) {M : List UInt64} {w : Work} {S : List (UInt64 × Fin 3)}
    {R : List UInt64} (h : WorkInv p M w S R) (hnil : w.queue = []) : ∀ s, p.deg R s ≠ 1 := by
  intro s hs
  obtain ⟨a, j, R', -, hj, -⟩ := exists_of_degree_one hs
  have hmem := h.complete (p.slot a j) (hp.pos_lt a j) (by rw [slot_toNat, hj]; exact hs)
  rw [hnil] at hmem
  exact absurd hmem List.not_mem_nil

/-- The passes that are left at most: each takes a slot off the worklist, and each hash that is
popped puts back at most two. -/
def Work.passes (M : List UInt64) (w : Work) : Nat :=
  w.queue.length + 2 * (M.length - w.stack.length)

/-- One pass of the peel loop. -/
theorem work_step (hp : p.Valid) {M : List UInt64} (w : Work)
    (h : ∃ S R, WorkInv p M w S R) :
    (∃ w', w.step p p.arrayLen.toNat M.length = some (.stop w') ∧
      ∃ S R, WorkInv p M w' S R ∧ w'.queue = []) ∨
    ∃ w', w.step p p.arrayLen.toNat M.length = some (.next w') ∧ (∃ S R, WorkInv p M w' S R) ∧
      w'.passes M < w.passes M := by
  obtain ⟨S, R, h⟩ := h
  cases hq : w.queue with
  | nil =>
    left
    refine ⟨w, ?_, S, R, h, hq⟩
    unfold Work.step
    rw [hq]
  | cons idx queue =>
    right
    unfold Work.passes
    by_cases hdeg : p.deg R idx.toNat = 1
    · obtain ⟨w', a, j, R', hstep, -, -, hinv, hql, hroom⟩ := h.pop hp hq hdeg
      refine ⟨w', hstep, ⟨_, R', hinv⟩, ?_⟩
      rw [hinv.stack, List.map_cons, ← h.stack, List.length_cons, hq, List.length_cons]
      omega
    · refine ⟨_, h.step_skip hq hdeg, ⟨S, R, h.skip hq hdeg⟩, ?_⟩
      rw [hq, List.length_cons]
      exact Nat.add_lt_add_right (Nat.lt_succ_self _) _

/-- The peel loop ends, with an empty worklist. -/
theorem work_loop (hp : p.Valid) {M : List UInt64} {w : Work} (h : WorkInv p M w [] M)
    (hlen : w.queue.length ≤ p.arrayLen.toNat) :
    ∃ w' S R, loop (Work.step p p.arrayLen.toNat M.length) (drainFuel M.length p.arrayLen.toNat) w =
      some w' ∧ WorkInv p M w' S R ∧ w'.queue = [] := by
  have hfuel : w.passes M < drainFuel M.length p.arrayLen.toNat := by
    unfold Work.passes drainFuel
    omega
  obtain ⟨w', hloop, S, R, hinv, hnil⟩ :=
    loop_spec (Work.passes M) _ _ (fun w hw => work_step hp w hw) ⟨[], M, h⟩ hfuel
  exact ⟨w', S, R, hloop, hinv, hnil⟩

end FastConstMap
