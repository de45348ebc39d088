import FastConstMap.Peel
import FastConstMap.Lib.Peeling
import FastConstMap.Proofs.ParamsProofs

/-!
# Proofs: the counting loop

After the hashes `R`, the counter of a slot packs the number of hashes at the slot (modulo 64) with
the XOR of the position numbers under which they touch it, and its XOR word is the XOR of these
hashes: the tallies of `Peeling` for the three positions of a hash. Without a duplicate report,
`has_error` says exactly that some slot has 64 hashes or more.
-/

namespace FastConstMap

open CLoop Peeling

namespace Params

variable (p : Params)

/-- The number of hashes of `R` at slot `s`. -/
abbrev deg (R : List UInt64) (s : Nat) : Nat := degree p.pos R s

/-- The XOR of the hashes of `R` at slot `s`. -/
def xorAt (R : List UInt64) (s : Nat) : UInt64 :=
  tally p.pos (· ^^^ ·) 0 (fun hash _ => hash) R s

/-- The XOR of the position numbers under which the hashes of `R` touch slot `s`. -/
def bitsAt (R : List UInt64) (s : Nat) : UInt8 :=
  tally p.pos (· ^^^ ·) 0 (fun _ j => UInt8.ofNat j.val) R s

/-- The packed counter of slot `s`. -/
def counter (R : List UInt64) (s : Nat) : UInt8 :=
  UInt8.ofNat (4 * p.deg R s) ^^^ p.bitsAt R s

/-- The duplicate test of the counting loop, right after `hash` was counted as the last of `R`. -/
def DupTest (R : List UInt64) (hash : UInt64) : Prop :=
  combine (· &&& ·) p.pos (p.xorAt R) hash = 0 ∧
    ∃ j, p.xorAt R (p.pos hash j) = 0 ∧ p.counter R (p.pos hash j) = 8

instance (R : List UInt64) (hash : UInt64) : Decidable (p.DupTest R hash) :=
  inferInstanceAs (Decidable (_ ∧ _))

end Params

/-- The two tables hold the tallies of `R`. -/
structure Tallied (p : Params) (R : List UInt64) (t2count : List UInt8) (t2hash : List UInt64) :
    Prop where
  count : Holds t2count p.arrayLen.toNat (p.counter R)
  hash : Holds t2hash p.arrayLen.toNat (p.xorAt R)

variable {p : Params}

/-! ## Counters -/

theorem ofNat_position_lt (j : Fin 3) : (UInt8.ofNat j.val).toNat < 4 := by
  match j with
  | 0 => decide
  | 1 => decide
  | 2 => decide

theorem bitsAt_lt (R : List UInt64) (s : Nat) : (p.bitsAt R s).toNat < 4 := by
  induction R with
  | nil => exact Nat.zero_lt_succ 3
  | cons hash R ih =>
    unfold Params.bitsAt
    cases hj : posNumber p.pos hash s with
    | none => rwa [tally_cons_of_not_touches (posNumber_eq_none.mp hj)]
    | some j =>
      rw [tally_cons_of_posNumber hj, UInt8.toNat_xor]
      exact Nat.xor_lt_two_pow (n := 2) (ofNat_position_lt j) ih

/-- The count part of a counter. -/
theorem counter_div (R : List UInt64) (s : Nat) : (p.counter R s).toNat / 4 = p.deg R s % 64 :=
  Words.packed_div _ (bitsAt_lt R s)

/-- The position part of a counter. -/
theorem counter_and_three (R : List UInt64) (s : Nat) : p.counter R s &&& 3 = p.bitsAt R s :=
  Words.packed_and_three _ (bitsAt_lt R s)

theorem counter_lt_four (R : List UInt64) (s : Nat) : p.counter R s < 4 ↔ p.deg R s % 64 = 0 := by
  rw [← counter_div, UInt8.lt_iff_toNat_lt, show (4 : UInt8).toNat = 4 from rfl]
  omega

/-- Counting a hash at one of its positions. -/
theorem counter_cons_pos (hp : p.Valid) (hash : UInt64) (R : List UInt64) (j : Fin 3) :
    p.counter (hash :: R) (p.pos hash j) =
      (p.counter R (p.pos hash j) + 4) ^^^ UInt8.ofNat j.val := by
  have hd : p.deg (hash :: R) (p.pos hash j) = p.deg R (p.pos hash j) + 1 :=
    degree_cons_of_touches ⟨j, rfl⟩ R
  have hb : p.bitsAt (hash :: R) (p.pos hash j) =
      UInt8.ofNat j.val ^^^ p.bitsAt R (p.pos hash j) :=
    tally_cons_of_posNumber (posNumber_pos (hp.pos_injective hash) j) R
  have hfour : UInt8.ofNat (4 * (p.deg R (p.pos hash j) + 1)) =
      UInt8.ofNat (4 * p.deg R (p.pos hash j)) + 4 := by
    rw [Nat.mul_add, UInt8.ofNat_add]
    rfl
  unfold Params.counter
  rw [hd, hb, hfour, Words.xor_add_four _ (bitsAt_lt R _), UInt8.xor_comm (UInt8.ofNat j.val),
    UInt8.xor_assoc]

theorem xorAt_cons_pos (hp : p.Valid) (hash : UInt64) (R : List UInt64) (j : Fin 3) :
    p.xorAt (hash :: R) (p.pos hash j) = p.xorAt R (p.pos hash j) ^^^ hash := by
  unfold Params.xorAt
  rw [tally_cons_of_posNumber (posNumber_pos (hp.pos_injective hash) j), UInt64.xor_comm]

theorem counter_cons_of_not_touches {hash : UInt64} {s : Nat} (h : ¬ Touches p.pos hash s)
    (R : List UInt64) : p.counter (hash :: R) s = p.counter R s := by
  unfold Params.counter Params.bitsAt
  rw [show p.deg (hash :: R) s = p.deg R s from degree_cons_of_not_touches h R,
    tally_cons_of_not_touches h]

theorem xorAt_cons_of_not_touches {hash : UInt64} {s : Nat} (h : ¬ Touches p.pos hash s)
    (R : List UInt64) : p.xorAt (hash :: R) s = p.xorAt R s := tally_cons_of_not_touches h R

theorem counter_perm {R R' : List UInt64} (h : R.Perm R') : p.counter R = p.counter R' := by
  funext s
  unfold Params.counter
  rw [show p.deg R s = p.deg R' s from degree_perm h s,
    show p.bitsAt R s = p.bitsAt R' s from tally_perm h s]

theorem xorAt_perm {R R' : List UInt64} (h : R.Perm R') : p.xorAt R = p.xorAt R' := by
  funext s
  exact tally_perm h s

theorem Tallied.perm {R R' : List UInt64} {tc : List UInt8} {th : List UInt64}
    (h : Tallied p R tc th) (hR : R.Perm R') : Tallied p R' tc th :=
  ⟨counter_perm hR ▸ h.count, xorAt_perm hR ▸ h.hash⟩

@[simp] theorem counter_nil (s : Nat) : p.counter [] s = 0 := by
  simp [Params.counter, Params.bitsAt]

@[simp] theorem xorAt_nil (s : Nat) : p.xorAt [] s = 0 := rfl

/-- Cleared tables tally no hashes. -/
theorem Tallied.nil : Tallied p [] (List.replicate p.arrayLen.toNat 0)
    (List.replicate p.arrayLen.toNat 0) :=
  ⟨(Holds.replicate _ 0).congr fun _ _ => (counter_nil _).symm,
    (Holds.replicate _ 0).congr fun _ _ => (xorAt_nil _).symm⟩

/-! ## One pass -/

theorem touch_spec {len : Nat} {c : Counts} {cnt : Nat → UInt8} {x : Nat → UInt64}
    (hc : Holds c.t2count len cnt) (hx : Holds c.t2hash len x) {i : UInt32} {v : Nat}
    (hv : i.toNat = v) (hi : v < len) (f : UInt8) (hash : UInt64) :
    ∃ tc th, touch c i f hash = some { c with t2count := tc, t2hash := th } ∧
      Holds tc len (Function.update cnt v ((cnt v + 4) ^^^ f)) ∧
      Holds th len (Function.update x v (x v ^^^ hash)) := by
  subst hv
  obtain ⟨tc, h1, hc'⟩ := hc.store hi ((cnt i.toNat + 4) ^^^ f)
  obtain ⟨th, h2, hx'⟩ := hx.store hi (x i.toNat ^^^ hash)
  refine ⟨tc, th, ?_, hc', hx'⟩
  simp only [touch, hc.load hi, hx.load hi, h1, h2, Option.bind_eq_bind, Option.bind_some]

/-- Three updates at the distinct positions of `hash` make a function whose values are known at
these positions and which is `g` elsewhere. -/
theorem eq_update_three {β : Type} (hash : UInt64) {f g : Nat → β} (b : Fin 3 → β)
    (hpos : ∀ j, g (p.pos hash j) = b j)
    (hother : ∀ s, ¬ Touches p.pos hash s → g s = f s) :
    Function.update (Function.update (Function.update f (p.pos hash 0) (b 0)) (p.pos hash 1) (b 1))
      (p.pos hash 2) (b 2) = g := by
  funext s
  by_cases h2 : s = p.pos hash 2
  · rw [h2, Function.update_self, hpos]
  by_cases h1 : s = p.pos hash 1
  · rw [Function.update_of_ne h2, h1, Function.update_self, hpos]
  by_cases h0 : s = p.pos hash 0
  · rw [Function.update_of_ne h2, Function.update_of_ne h1, h0, Function.update_self, hpos]
  · rw [Function.update_of_ne h2, Function.update_of_ne h1, Function.update_of_ne h0]
    refine (hother s ?_).symm
    rintro ⟨j, hj⟩
    match j with
    | 0 => exact h0 hj.symm
    | 1 => exact h1 hj.symm
    | 2 => exact h2 hj.symm

/-- The three updates of one pass turn the tallies of `R` into those of `hash :: R`. -/
theorem touch_three_spec (hp : p.Valid) {R : List UInt64} {c : Counts}
    (h : Tallied p R c.t2count c.t2hash) (hash : UInt64) :
    ∃ tc th, (((touch c (p.getH012 hash).1 0 hash).bind fun c =>
      touch c (p.getH012 hash).2.1 1 hash).bind fun c => touch c (p.getH012 hash).2.2 2 hash) =
        some { c with t2count := tc, t2hash := th } ∧
      Tallied p (hash :: R) tc th := by
  have hinj := hp.pos_injective hash
  have h10 : p.pos hash 1 ≠ p.pos hash 0 := hinj.ne (by decide)
  have h20 : p.pos hash 2 ≠ p.pos hash 0 := hinj.ne (by decide)
  have h21 : p.pos hash 2 ≠ p.pos hash 1 := hinj.ne (by decide)
  obtain ⟨tc1, th1, e1, hc1, hx1⟩ := touch_spec (i := (p.getH012 hash).1) (v := p.pos hash 0)
    h.count h.hash rfl (hp.pos_lt hash 0) 0 hash
  obtain ⟨tc2, th2, e2, hc2, hx2⟩ := touch_spec (c := { c with t2count := tc1, t2hash := th1 })
    (i := (p.getH012 hash).2.1) (v := p.pos hash 1) hc1 hx1 rfl (hp.pos_lt hash 1) 1 hash
  obtain ⟨tc3, th3, e3, hc3, hx3⟩ := touch_spec (c := { c with t2count := tc2, t2hash := th2 })
    (i := (p.getH012 hash).2.2) (v := p.pos hash 2) hc2 hx2 rfl (hp.pos_lt hash 2) 2 hash
  simp only [Function.update_of_ne h10, Function.update_of_ne h20, Function.update_of_ne h21]
    at hc3 hx3
  refine ⟨tc3, th3, ?_, ?_, ?_⟩
  · rw [e1, Option.bind_some, e2, Option.bind_some, e3]
  · rw [← eq_update_three (p := p) hash (f := p.counter R)
      (fun j => (p.counter R (p.pos hash j) + 4) ^^^ UInt8.ofNat j.val)
      (fun j => counter_cons_pos hp hash R j) (fun s hs => counter_cons_of_not_touches hs R)]
    exact hc3
  · rw [← eq_update_three (p := p) hash (f := p.xorAt R)
      (fun j => p.xorAt R (p.pos hash j) ^^^ hash)
      (fun j => xorAt_cons_pos hp hash R j) (fun s hs => xorAt_cons_of_not_touches hs R)]
    exact hx3

/-- What one pass of the counting loop does. -/
theorem countOne_spec (hp : p.Valid) {R : List UInt64} {c : Counts}
    (h : Tallied p R c.t2count c.t2hash) (hash : UInt64) :
    ∃ c', countOne p c hash = some c' ∧ Tallied p (hash :: R) c'.t2count c'.t2hash ∧
      (c'.duplicate = true ∧ p.DupTest (hash :: R) hash ∨
        c'.duplicate = c.duplicate ∧ ¬ p.DupTest (hash :: R) hash ∧
          (c'.hasError = true ↔
            c.hasError = true ∨ ∃ j, p.deg (hash :: R) (p.pos hash j) % 64 = 0)) := by
  obtain ⟨tc, th, htouch, ht⟩ := touch_three_spec hp h hash
  have hn : ∀ j, load tc (p.pos hash j) = some (p.counter (hash :: R) (p.pos hash j)) :=
    fun j => ht.count.load (hp.pos_lt hash j)
  have hx : ∀ j, load th (p.pos hash j) = some (p.xorAt (hash :: R) (p.pos hash j)) :=
    fun j => ht.hash.load (hp.pos_lt hash j)
  have hdup : p.DupTest (hash :: R) hash ↔
      p.xorAt (hash :: R) (p.pos hash 0) &&& p.xorAt (hash :: R) (p.pos hash 1) &&&
          p.xorAt (hash :: R) (p.pos hash 2) = 0 ∧
        (p.xorAt (hash :: R) (p.pos hash 0) = 0 ∧ p.counter (hash :: R) (p.pos hash 0) = 8 ∨
          p.xorAt (hash :: R) (p.pos hash 1) = 0 ∧ p.counter (hash :: R) (p.pos hash 1) = 8 ∨
          p.xorAt (hash :: R) (p.pos hash 2) = 0 ∧ p.counter (hash :: R) (p.pos hash 2) = 8) := by
    rw [Params.DupTest, Fin.exists_fin_succ, Fin.exists_fin_two]
    rfl
  have herr : (∃ j, p.deg (hash :: R) (p.pos hash j) % 64 = 0) ↔
      (p.counter (hash :: R) (p.pos hash 0) < 4 ∨ p.counter (hash :: R) (p.pos hash 1) < 4 ∨
        p.counter (hash :: R) (p.pos hash 2) < 4) := by
    simp only [counter_lt_four]
    rw [Fin.exists_fin_succ, Fin.exists_fin_two]
    rfl
  have hone : countOne p c hash = some
      (if p.DupTest (hash :: R) hash then
        { c with t2count := tc, t2hash := th, duplicate := true }
      else if ∃ j, p.deg (hash :: R) (p.pos hash j) % 64 = 0 then
        { c with t2count := tc, t2hash := th, hasError := true }
      else { c with t2count := tc, t2hash := th }) := by
    unfold countOne
    simp only [Option.bind_eq_bind]
    rw [← Option.bind_assoc, ← Option.bind_assoc, htouch, Option.bind_some]
    simp only [show load tc (p.getH012 hash).1.toNat = _ from hn 0,
      show load tc (p.getH012 hash).2.1.toNat = _ from hn 1,
      show load tc (p.getH012 hash).2.2.toNat = _ from hn 2,
      show load th (p.getH012 hash).1.toNat = _ from hx 0,
      show load th (p.getH012 hash).2.1.toNat = _ from hx 1,
      show load th (p.getH012 hash).2.2.toNat = _ from hx 2, Option.bind_some]
    simp only [hdup, herr]
    split_ifs <;> rfl
  refine ⟨_, hone, ?_, ?_⟩
  · split_ifs <;> exact ht
  · split_ifs with h1 h2
    · exact Or.inl ⟨rfl, h1⟩
    · exact Or.inr ⟨rfl, h1, by simp [h2]⟩
    · exact Or.inr ⟨rfl, h1, by simp [h2]⟩

/-! ## The whole loop -/

/-- A count that overflows passes through 64, so testing only the slots of the last hash for a
multiple of 64 finds the first overflow. -/
theorem overflow_cons (hash : UInt64) (R : List UInt64) :
    (∃ s, 64 ≤ p.deg (hash :: R) s) ↔
      (∃ s, 64 ≤ p.deg R s) ∨ ∃ j, p.deg (hash :: R) (p.pos hash j) % 64 = 0 := by
  constructor
  · rintro ⟨s, hs⟩
    by_cases hold : ∃ s, 64 ≤ p.deg R s
    · exact Or.inl hold
    · right
      push Not at hold
      have hR := hold s
      by_cases hts : Touches p.pos hash s
      · obtain ⟨j, hj⟩ := hts
        refine ⟨j, ?_⟩
        have hcons : p.deg (hash :: R) s = p.deg R s + 1 := degree_cons_of_touches ⟨j, hj⟩ R
        rw [hj]
        omega
      · have hcons : p.deg (hash :: R) s = p.deg R s := degree_cons_of_not_touches hts R
        omega
  · rintro (⟨s, hs⟩ | ⟨j, hj⟩)
    · exact ⟨s, hs.trans (degree_le_cons hash R s)⟩
    · refine ⟨p.pos hash j, ?_⟩
      have hcons : p.deg (hash :: R) (p.pos hash j) = p.deg R (p.pos hash j) + 1 :=
        degree_cons_of_touches ⟨j, rfl⟩ R
      omega

/-- The counting loop ends; without a duplicate report its tables tally all hashes, and `has_error`
is set exactly when some slot has 64 of them or more. -/
theorem countAll_spec (hp : p.Valid) (l : List UInt64) {R : List UInt64} {c : Counts}
    (h : Tallied p R c.t2count c.t2hash) (hdup : c.duplicate = false)
    (herr : c.hasError = true ↔ ∃ s, 64 ≤ p.deg R s) :
    ∃ c', countAll p l c = some c' ∧ (c'.duplicate = false →
      Tallied p (l.reverse ++ R) c'.t2count c'.t2hash ∧
        (c'.hasError = true ↔ ∃ s, 64 ≤ p.deg (l.reverse ++ R) s)) := by
  induction l generalizing R c with
  | nil => exact ⟨c, rfl, fun _ => ⟨h, herr⟩⟩
  | cons hash rest ih =>
    obtain ⟨c1, h1, ht, hflags⟩ := countOne_spec hp h hash
    have hcons : countAll p (hash :: rest) c =
        if c1.duplicate then some c1 else countAll p rest c1 := by
      simp only [countAll, h1, Option.bind_eq_bind, Option.bind_some]
    rw [hcons]
    rcases hflags with ⟨hd, _⟩ | ⟨hd, _, he⟩
    · rw [if_pos hd]
      exact ⟨c1, rfl, by simp [hd]⟩
    · rw [hdup] at hd
      rw [hd, if_neg Bool.false_ne_true]
      obtain ⟨c', h', hc'⟩ := ih ht hd (by rw [he, herr, overflow_cons])
      exact ⟨c', h', by simpa using hc'⟩

/-- The counting loop over the hashes `l`, from cleared tables. -/
theorem countAll_clean (hp : p.Valid) (l : List UInt64) :
    ∃ c, countAll p l ⟨List.replicate p.arrayLen.toNat 0, List.replicate p.arrayLen.toNat 0, false,
        false⟩ = some c ∧
      (c.duplicate = false → Tallied p l c.t2count c.t2hash ∧
        (c.hasError = true ↔ ∃ s, 64 ≤ p.deg l s)) := by
  obtain ⟨c, hcount, hc⟩ := countAll_spec hp l
    (c := ⟨List.replicate p.arrayLen.toNat 0, List.replicate p.arrayLen.toNat 0, false, false⟩)
    Tallied.nil rfl (by simp)
  refine ⟨c, hcount, ?_⟩
  intro hd
  obtain ⟨ht, herr⟩ := hc hd
  rw [List.append_nil] at ht herr
  have hdeg : ∀ s, p.deg l.reverse s = p.deg l s := fun s => degree_perm (List.reverse_perm l) s
  simp only [hdeg] at herr
  exact ⟨ht.perm (List.reverse_perm l), herr⟩

/-- Where the counting loop reports no error, every slot has less than 64 hashes. -/
theorem deg_lt_of_hasError {l : List UInt64} {c : Counts}
    (herr : c.hasError = true ↔ ∃ s, 64 ≤ p.deg l s) (he : c.hasError = false) (s : Nat) :
    p.deg l s < 64 := by
  by_contra hs
  rw [herr.mpr ⟨s, not_lt.mp hs⟩] at he
  exact absurd he (by decide)

end FastConstMap
