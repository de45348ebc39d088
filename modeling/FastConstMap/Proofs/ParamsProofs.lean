import FastConstMap.Attempt
import FastConstMap.Proofs.HashProofs

/-!
# Proofs: the segment parameters of every attempt

`fcm_init_params` yields consistent parameters, and so does halving them; doubling undoes halving,
so the parameters of an attempt are the initial ones, or their halves on every fourth attempt.
-/

namespace FastConstMap

/-- The parameters describe a table of `array_len` slots. -/
abbrev Params.Valid (p : Params) : Prop :=
  SegmentsOk p.segmentLength p.segmentLengthMask p.segmentCount p.segmentCountLength p.arrayLen

/-- The positions of a mixed hash under `p`, as indices. -/
def Params.pos (p : Params) (hash : UInt64) (j : Fin 3) : Nat :=
  (position p.segmentLength p.segmentLengthMask p.segmentCountLength hash j).toNat

theorem Params.Valid.pos_injective {p : Params} (h : p.Valid) (hash : UInt64) :
    Function.Injective (p.pos hash) := SegmentsOk.position_injective h hash

theorem Params.Valid.pos_lt {p : Params} (h : p.Valid) (hash : UInt64) (j : Fin 3) :
    p.pos hash j < p.arrayLen.toNat := SegmentsOk.position_lt h hash j

/-! ## Seeds -/

section Seed

variable (p : Params) (seed : UInt64)

@[simp] theorem withSeed_seed : (p.withSeed seed).seed = seed := rfl

@[simp] theorem withSeed_segmentLength : (p.withSeed seed).segmentLength = p.segmentLength := rfl

@[simp] theorem withSeed_segmentCount : (p.withSeed seed).segmentCount = p.segmentCount := rfl

@[simp] theorem withSeed_arrayLen : (p.withSeed seed).arrayLen = p.arrayLen := rfl

@[simp] theorem withSeed_withSeed (seed' : UInt64) :
    (p.withSeed seed).withSeed seed' = p.withSeed seed' := rfl

theorem adjustSegments_withSeed (size : UInt32) (k : Nat) :
    adjustSegments size k (p.withSeed seed) = (adjustSegments size k p).withSeed seed := by
  unfold adjustSegments
  split_ifs
  · split <;> rfl
  · rfl

/-- The seed is not part of what makes parameters valid. -/
theorem Params.Valid.withSeed {p : Params} (h : p.Valid) (seed : UInt64) :
    (p.withSeed seed).Valid := h

end Seed

/-! ## The initial parameters -/

/-- The shift that gives the segment length does not overflow. -/
theorem calculateSegmentLength_of_ne_zero (lm : Libm) {size : UInt32} (h : size ≠ 0) :
    (calculateSegmentLength lm size).toNat = 2 ^ lm.segmentLengthLog size := by
  have h31 := lm.lt size
  have hpow : 2 ^ lm.segmentLengthLog size < 2 ^ 32 := Nat.pow_lt_pow_right (by decide) h31
  have hexp : lm.segmentLengthLog size % 2 ^ 32 % 32 = lm.segmentLengthLog size := by omega
  unfold calculateSegmentLength
  rw [if_neg h, UInt32.toNat_shiftLeft, UInt32.toNat_ofNat', hexp, UInt32.toNat_one,
    Nat.one_shiftLeft, Nat.mod_eq_of_lt hpow]

theorem calculateSegmentLength_toNat (lm : Libm) (size : UInt32) :
    ∃ k, 2 ≤ k ∧ (calculateSegmentLength lm size).toNat = 2 ^ k := by
  by_cases h : size = 0
  · refine ⟨2, le_rfl, ?_⟩
    rw [calculateSegmentLength, if_pos h]
    rfl
  · exact ⟨_, lm.two_le size, calculateSegmentLength_of_ne_zero lm h⟩

/-- The initial segment length is a power of two between 4 and `2^18`. -/
theorem initParams_segmentLength (lm : Libm) (size : UInt32) :
    ∃ k, 2 ≤ k ∧ k ≤ 18 ∧ (initParams lm size).segmentLength.toNat = 2 ^ k := by
  obtain ⟨k, h2, hk⟩ := calculateSegmentLength_toNat lm size
  unfold initParams
  simp only
  split_ifs with h
  · exact ⟨18, by decide, le_rfl, rfl⟩
  · refine ⟨k, h2, ?_, hk⟩
    rw [gt_iff_lt, UInt32.lt_iff_toNat_lt, hk, not_lt] at h
    exact (Nat.pow_le_pow_iff_right (a := 2) (by decide)).mp h

/-- `total * length` does not wrap when `total` is at least 3 and otherwise a quotient by the
length. -/
theorem total_mul_lt {x L total : UInt32} (hL : L.toNat ≤ 2 ^ 18)
    (ht : total = if x / L < 3 then 3 else x / L) :
    3 ≤ total.toNat ∧ total.toNat * L.toNat < 2 ^ 32 := by
  subst ht
  split_ifs with h
  · exact ⟨le_rfl, by rw [show (3 : UInt32).toNat = 3 from rfl]; omega⟩
  · rw [UInt32.lt_iff_toNat_lt, not_lt] at h
    refine ⟨h, ?_⟩
    rw [UInt32.toNat_div]
    exact lt_of_le_of_lt (Nat.div_mul_le_self _ _) x.toNat_lt

/-- What `fcm_init_params` makes of its segment length and its capacity. -/
def Params.ofCapacity (segmentLength capacity : UInt32) : Params :=
  let totalSegmentCount := (capacity + segmentLength - 1) / segmentLength
  let totalSegmentCount := if totalSegmentCount < 3 then 3 else totalSegmentCount
  let segmentCount := totalSegmentCount - 2
  { seed := 0
    segmentLength := segmentLength
    segmentLengthMask := segmentLength - 1
    segmentCount := segmentCount
    segmentCountLength := segmentCount * segmentLength
    arrayLen := totalSegmentCount * segmentLength }

theorem initParams_eq (lm : Libm) (size : UInt32) : initParams lm size =
    Params.ofCapacity (initParams lm size).segmentLength (if size > 1 then lm.capacity size else 0) :=
  rfl

/-- No capacity makes the number of slots wrap. -/
theorem ofCapacity_valid {L : UInt32} {k : Nat} (h18 : k ≤ 18) (hk : L.toNat = 2 ^ k)
    (capacity : UInt32) : (Params.ofCapacity L capacity).Valid := by
  have hL : L.toNat ≤ 2 ^ 18 := by rw [hk]; exact Nat.pow_le_pow_right (by decide) h18
  have hpos : 0 < L.toNat := by rw [hk]; exact Nat.two_pow_pos k
  set total : UInt32 := if (capacity + L - 1) / L < 3 then 3 else (capacity + L - 1) / L with htotal
  obtain ⟨h3, hlt⟩ := total_mul_lt hL htotal
  have hcount : (total - 2).toNat = total.toNat - 2 :=
    UInt32.toNat_sub_of_le _ _ (by rw [UInt32.le_iff_toNat_le]; exact le_trans (by decide) h3)
  have hscl : (total.toNat - 2) * L.toNat < 2 ^ 32 :=
    lt_of_le_of_lt (Nat.mul_le_mul_right _ (Nat.sub_le _ _)) hlt
  exact
    { pow := ⟨k, hk⟩
      mask := UInt32.toNat_sub_of_le _ _ (by rw [UInt32.le_iff_toNat_le]; exact hpos)
      count_pos := by
        show 0 < (total - 2).toNat
        omega
      scl := by
        show ((total - 2) * L).toNat = (total - 2).toNat * L.toNat
        rw [UInt32.toNat_mul, hcount, Nat.mod_eq_of_lt hscl]
      len_eq := by
        show (total * L).toNat = ((total - 2).toNat + 2) * L.toNat
        rw [UInt32.toNat_mul, hcount, Nat.mod_eq_of_lt hlt, Nat.sub_add_cancel (by omega)] }

/-! ## Halving and doubling -/

section Halve

variable {p : Params}

theorem halve_segmentLength_toNat {k : Nat} (hk : p.segmentLength.toNat = 2 ^ (k + 1)) :
    p.halve.segmentLength.toNat = 2 ^ k := by
  show (p.segmentLength / 2).toNat = _
  rw [UInt32.toNat_div, hk, pow_succ]
  exact Nat.mul_div_cancel _ (by decide)

/-- Halving the length turns `count + 2` segments into twice as many, without wrapping. -/
theorem halve_segmentCount_toNat (h : p.Valid) {k : Nat}
    (hk : p.segmentLength.toNat = 2 ^ (k + 1)) :
    p.halve.segmentCount.toNat = 2 * p.segmentCount.toNat + 2 := by
  have hlen := h.len_eq
  have hlt := p.arrayLen.toNat_lt
  have h1 : 1 ≤ 2 ^ k := Nat.one_le_two_pow
  have hbound : 2 * p.segmentCount.toNat + 2 < 2 ^ 32 := by
    rw [hk, pow_succ] at hlen
    nlinarith
  show (p.segmentCount * 2 + 2).toNat = _
  rw [UInt32.toNat_add, UInt32.toNat_mul]
  simp only [UInt32.toNat_ofNat, Nat.reducePow, Nat.reduceMod]
  omega

theorem Params.Valid.halve (h : p.Valid) {k : Nat} (hk : p.segmentLength.toNat = 2 ^ (k + 1)) :
    p.halve.Valid := by
  have hL := halve_segmentLength_toNat hk
  have hc := halve_segmentCount_toNat h hk
  have hpos : 1 ≤ 2 ^ k := Nat.one_le_two_pow
  have hlen : p.halve.arrayLen.toNat =
      (p.halve.segmentCount.toNat + 2) * p.halve.segmentLength.toNat := by
    show p.arrayLen.toNat = _
    rw [h.len_eq, hc, hL, hk, pow_succ]
    ring
  have hlt := p.halve.arrayLen.toNat_lt
  exact
    { pow := ⟨k, hL⟩
      mask := UInt32.toNat_sub_of_le _ _ (by
        rw [UInt32.le_iff_toNat_le]
        show 1 ≤ p.halve.segmentLength.toNat
        omega)
      count_pos := by omega
      scl := by
        show (p.halve.segmentCount * p.halve.segmentLength).toNat = _
        rw [UInt32.toNat_mul, Nat.mod_eq_of_lt]
        refine lt_of_le_of_lt (Nat.mul_le_mul_right _ (Nat.le_add_right _ 2)) ?_
        rw [← hlen]
        exact hlt
      len_eq := hlen }

/-- Doubling undoes halving. -/
theorem double_halve (h : p.Valid) {k : Nat} (hk : p.segmentLength.toNat = 2 ^ (k + 1)) :
    p.halve.double = p := by
  have hL : p.segmentLength / 2 * 2 = p.segmentLength := by
    apply UInt32.toNat_inj.mp
    have h1 : (p.segmentLength / 2).toNat = 2 ^ k := halve_segmentLength_toNat hk
    have h2 := p.segmentLength.toNat_lt
    rw [UInt32.toNat_mul, h1, show (2 : UInt32).toNat = 2 from rfl, ← pow_succ, ← hk,
      Nat.mod_eq_of_lt h2]
  have hc : (p.segmentCount * 2 + 2) / 2 - 1 = p.segmentCount := by
    apply UInt32.toNat_inj.mp
    have h1 : (p.segmentCount * 2 + 2).toNat = 2 * p.segmentCount.toNat + 2 :=
      halve_segmentCount_toNat h hk
    have h2 : ((p.segmentCount * 2 + 2) / 2).toNat = p.segmentCount.toNat + 1 := by
      rw [UInt32.toNat_div, h1, show (2 : UInt32).toNat = 2 from rfl]
      omega
    rw [UInt32.toNat_sub_of_le _ _ (by rw [UInt32.le_iff_toNat_le, h2]; exact Nat.le_add_left 1 _),
      h2]
    rfl
  have hmask : p.segmentLength - 1 = p.segmentLengthMask := by
    apply UInt32.toNat_inj.mp
    rw [h.mask]
    exact UInt32.toNat_sub_of_le _ _ (by rw [UInt32.le_iff_toNat_le]; exact h.pos)
  have hscl : p.segmentCount * p.segmentLength = p.segmentCountLength := by
    apply UInt32.toNat_inj.mp
    rw [UInt32.toNat_mul, ← h.scl, Nat.mod_eq_of_lt p.segmentCountLength.toNat_lt]
  simp only [Params.halve, Params.double, hL, hc, hmask, hscl]

end Halve

/-! ## The parameters of an attempt -/

/-- `p` can serve all attempts: its length is at least 4, so that it can be halved. -/
structure Params.Initial (p : Params) : Prop where
  valid : p.Valid
  pow : ∃ k, p.segmentLength.toNat = 2 ^ (k + 2)

theorem ofCapacity_initial {L : UInt32} {k : Nat} (h2 : 2 ≤ k) (h18 : k ≤ 18)
    (hk : L.toNat = 2 ^ k) (capacity : UInt32) : (Params.ofCapacity L capacity).Initial :=
  ⟨ofCapacity_valid h18 hk capacity, k - 2, by rw [Nat.sub_add_cancel h2]; exact hk⟩

theorem initParams_initial (lm : Libm) (size : UInt32) : (initParams lm size).Initial := by
  obtain ⟨k, h2, h18, hk⟩ := initParams_segmentLength lm size
  rw [initParams_eq]
  exact ofCapacity_initial h2 h18 hk _

section Attempt

variable {p : Params}

theorem Params.Initial.two_le (h : p.Initial) : 2 ≤ p.segmentLength.toNat := by
  obtain ⟨e, he⟩ := h.pow
  have h1 : 1 ≤ 2 ^ e := Nat.one_le_two_pow
  rw [he, pow_add]
  omega

theorem Params.Initial.halve_valid (h : p.Initial) : p.halve.Valid := by
  obtain ⟨e, he⟩ := h.pow
  exact h.valid.halve he

theorem Params.Initial.two_le_halve (h : p.Initial) : 2 ≤ p.halve.segmentLength.toNat := by
  obtain ⟨e, he⟩ := h.pow
  have h1 : 1 ≤ 2 ^ e := Nat.one_le_two_pow
  rw [halve_segmentLength_toNat he, pow_succ]
  omega

theorem Params.Initial.atAttempt_valid (h : p.Initial) (size : UInt32) (k : Nat) :
    (p.atAttempt size k).Valid := by
  unfold Params.atAttempt
  split_ifs
  · exact h.halve_valid
  · exact h.valid

theorem Params.Initial.two_le_atAttempt (h : p.Initial) (size : UInt32) (k : Nat) :
    2 ≤ (p.atAttempt size k).segmentLength.toNat := by
  unfold Params.atAttempt
  split_ifs
  · exact h.two_le_halve
  · exact h.two_le

theorem Params.Initial.seeded_valid (h : p.Initial) (size : UInt32) (k : Nat) (rng : UInt64) :
    (p.seeded size k rng).Valid := (h.atAttempt_valid size k).withSeed _

theorem Params.Initial.two_le_seeded (h : p.Initial) (size : UInt32) (k : Nat) (rng : UInt64) :
    2 ≤ (p.seeded size k rng).segmentLength.toNat := by
  rw [Params.seeded, withSeed_segmentLength]
  exact h.two_le_atAttempt size k

@[simp] theorem atAttempt_arrayLen (size : UInt32) (k : Nat) :
    (p.atAttempt size k).arrayLen = p.arrayLen := by
  unfold Params.atAttempt
  split_ifs <;> rfl

@[simp] theorem seeded_arrayLen (size : UInt32) (k : Nat) (rng : UInt64) :
    (p.seeded size k rng).arrayLen = p.arrayLen := by
  rw [Params.seeded, withSeed_arrayLen, atAttempt_arrayLen]

theorem adjustSegments_zero (size : UInt32) : adjustSegments size 0 p = p.atAttempt size 0 := by
  unfold adjustSegments Params.atAttempt
  split_ifs <;> simp_all

/-- The retry switch leads from the parameters of one attempt to those of the next. -/
theorem Params.Initial.adjustSegments_succ (h : p.Initial) (size : UInt32) (k : Nat) :
    adjustSegments size (k + 1) (p.atAttempt size k) = p.atAttempt size (k + 1) := by
  obtain ⟨e, he⟩ := h.pow
  unfold adjustSegments Params.atAttempt
  by_cases hsize : 4 < size ∧ size < 1000000
  · rw [if_pos hsize]
    have hmod : k % 4 = 0 ∨ k % 4 = 1 ∨ k % 4 = 2 ∨ k % 4 = 3 := by omega
    rcases hmod with hm | hm | hm | hm
    · simp [hm, show (k + 1) % 4 = 1 by omega]
    · simp [hsize, hm, show (k + 1) % 4 = 2 by omega]
    · simp [hsize, hm, show (k + 1) % 4 = 3 by omega, double_halve h.valid he]
    · simp [hm, show (k + 1) % 4 = 0 by omega]
  · simp only [hsize, false_and, if_false]

end Attempt

/-! ## Block bits -/

theorem blockBitsFrom_spec {count : UInt32} {fuel bits : Nat} (h : bits + fuel = 32)
    (hf : 0 < fuel) (hc : count.toNat ≤ 2 ^ 31) :
    ∃ b, blockBitsFrom count fuel bits = some b ∧ bits ≤ b ∧ b ≤ 31 := by
  induction fuel generalizing bits with
  | zero => omega
  | succ fuel ih =>
    unfold blockBitsFrom
    split_ifs with hlt
    · have hbits : bits < 31 := by
        by_contra hge
        have := Nat.pow_le_pow_right (n := 2) (by decide) (show 31 ≤ bits by omega)
        omega
      obtain ⟨b, hb, h1, h2⟩ := ih (show bits + 1 + fuel = 32 by omega) (by omega)
      exact ⟨b, hb, by omega, h2⟩
    · exact ⟨bits, rfl, le_rfl, by omega⟩

/-- Segments of at least two slots can be counted with at most 31 bits. -/
theorem Params.Valid.blockBits_spec {p : Params} (h : p.Valid) (h2 : 2 ≤ p.segmentLength.toNat) :
    ∃ b, blockBits p.segmentCount = some b ∧ 1 ≤ b ∧ b ≤ 31 := by
  refine blockBitsFrom_spec rfl (by decide) ?_
  have hlen := h.len_eq
  have hlt := p.arrayLen.toNat_lt
  nlinarith

end FastConstMap
