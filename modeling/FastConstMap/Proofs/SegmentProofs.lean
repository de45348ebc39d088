import FastConstMap.Proofs.BoundsProofs

/-!
# Proofs: the segment parameters as exact integers

From `fcm_init_params` on and through every retry the segment parameters describe the slots without any
product wrapping. So the three positions of every hash are in range, in consecutive segments, and both
branches of the high multiply give the first one.
-/

namespace FastConstMap

/-! ## The portable high multiply -/

/-- The two products of the portable high multiply, and their sum, fit in 64 bits. -/
structure MulHighFits (hash : UInt64) (n : UInt32) : Prop where
  prodHi : (hash >>> 32).toNat * n.toNat < 2 ^ 64
  prodLo : (hash &&& 0xFFFFFFFF).toNat * n.toNat < 2 ^ 64
  sum : (hash >>> 32).toNat * n.toNat + (hash &&& 0xFFFFFFFF).toNat * n.toNat / 2 ^ 32 < 2 ^ 64

theorem toNat_hi (hash : UInt64) : (hash >>> 32).toNat = hash.toNat / 2 ^ 32 :=
  Words.shiftRight_toNat hash (by decide)

theorem toNat_lo (hash : UInt64) : (hash &&& 0xFFFFFFFF).toNat = hash.toNat % 2 ^ 32 := by
  rw [UInt64.toNat_and, show (0xFFFFFFFF : UInt64).toNat = 2 ^ 32 - 1 from rfl,
    Nat.and_two_pow_sub_one_eq_mod]

/-- Two numbers below `2^32` have a product that leaves room for another such number. -/
theorem mul_add_lt {a b c : Nat} (ha : a < 2 ^ 32) (hb : b < 2 ^ 32) (hc : c < 2 ^ 32) :
    a * b + c < 2 ^ 64 := by
  have hmul : a * b ≤ (2 ^ 32 - 1) * (2 ^ 32 - 1) :=
    Nat.mul_le_mul (Nat.le_sub_one_of_lt ha) (Nat.le_sub_one_of_lt hb)
  omega

theorem mulHighFits (hash : UInt64) (n : UInt32) : MulHighFits hash n := by
  have hn := n.toNat_lt
  have hhi : (hash >>> 32).toNat < 2 ^ 32 := by
    have := hash.toNat_lt
    rw [toNat_hi]
    omega
  have hlo : (hash &&& 0xFFFFFFFF).toNat < 2 ^ 32 := by
    rw [toNat_lo]
    exact Nat.mod_lt _ (by decide)
  have hprod : ∀ {a : Nat}, a < 2 ^ 32 → a * n.toNat < 2 ^ 64 := fun ha =>
    mul_add_lt ha hn (Nat.two_pow_pos 32)
  have hlow := hprod hlo
  refine ⟨hprod hhi, hlow, mul_add_lt hhi hn ?_⟩
  omega

/-- Both branches of `fcm_mul_high32` compute the same. -/
theorem mulHigh32Portable_eq (hash : UInt64) (n : UInt32) :
    mulHigh32Portable hash n = mulHigh32 hash n := by
  obtain ⟨hhi, hlo, hsum⟩ := mulHighFits hash n
  have hprodHi : ((hash >>> 32) * n.toUInt64).toNat = (hash >>> 32).toNat * n.toNat := by
    rw [UInt64.toNat_mul, UInt32.toNat_toUInt64, Nat.mod_eq_of_lt hhi]
  have hprodLo : ((hash &&& 0xFFFFFFFF) * n.toUInt64).toNat =
      (hash &&& 0xFFFFFFFF).toNat * n.toNat := by
    rw [UInt64.toNat_mul, UInt32.toNat_toUInt64, Nat.mod_eq_of_lt hlo]
  have hsplit : (hash.toNat / 2 ^ 32 * n.toNat + hash.toNat % 2 ^ 32 * n.toNat / 2 ^ 32) / 2 ^ 32 =
      hash.toNat * n.toNat / 2 ^ 64 := Words.mul_div_halves (2 ^ 32) _ _ (Nat.two_pow_pos 32)
  apply UInt32.toNat_inj.mp
  calc (mulHigh32Portable hash n).toNat
      = ((((hash >>> 32) * n.toUInt64).toNat +
          (((hash &&& 0xFFFFFFFF) * n.toUInt64) >>> 32).toNat) % 2 ^ 64) / 2 ^ 32 % 2 ^ 32 := by
        unfold mulHigh32Portable
        simp only
        rw [UInt64.toNat_toUInt32, toNat_hi, UInt64.toNat_add]
    _ = hash.toNat * n.toNat / 2 ^ 64 % 2 ^ 32 := by
        rw [toNat_hi, hprodHi, hprodLo, Nat.mod_eq_of_lt hsum, toNat_hi, toNat_lo, hsplit]
    _ = (mulHigh32 hash n).toNat := by
        rw [← mulHigh32_toNat, Nat.mod_eq_of_lt (mulHigh32 hash n).toNat_lt]

/-! ## Exact parameters -/

/-- The parameters as exact integers: no product has wrapped. -/
structure Params.Exact (p : Params) : Prop where
  pow : ∃ k, 1 ≤ k ∧ p.segmentLength.toNat = 2 ^ k
  mask : p.segmentLengthMask.toNat = p.segmentLength.toNat - 1
  count_pos : 1 ≤ p.segmentCount.toNat
  scl : p.segmentCountLength.toNat = p.segmentCount.toNat * p.segmentLength.toNat
  len_eq : p.arrayLen.toNat = (p.segmentCount.toNat + 2) * p.segmentLength.toNat

/-- The three positions of `hash` under `p`. -/
structure Params.Placed (p : Params) (hash : UInt64) : Prop where
  floor : (p.getH012 hash).1.toNat = hash.toNat * p.segmentCountLength.toNat / 2 ^ 64
  portable : (p.getH012 hash).1 = mulHigh32Portable hash p.segmentCountLength
  fits : MulHighFits hash p.segmentCountLength
  h0_lt : (p.getH012 hash).1 < (p.getH012 hash).2.1
  h1_lt : (p.getH012 hash).2.1 < (p.getH012 hash).2.2
  h2_lt : (p.getH012 hash).2.2 < p.arrayLen
  segment1 : (p.getH012 hash).2.1.toNat / p.segmentLength.toNat =
    (p.getH012 hash).1.toNat / p.segmentLength.toNat + 1
  segment2 : (p.getH012 hash).2.2.toNat / p.segmentLength.toNat =
    (p.getH012 hash).1.toNat / p.segmentLength.toNat + 2

/-- The parameters are exact, and so place every hash. -/
def Params.Sound (p : Params) : Prop := p.Exact ∧ ∀ hash, p.Placed hash

variable {p : Params}

theorem Params.Valid.exact (h : p.Valid) (h2 : 2 ≤ p.segmentLength.toNat) : p.Exact := by
  obtain ⟨k, hk⟩ := h.pow
  have hk1 : 1 ≤ k := by
    by_contra h0
    obtain rfl : k = 0 := by omega
    rw [hk] at h2
    exact absurd h2 (by decide)
  exact ⟨⟨k, hk1, hk⟩, h.mask, h.count_pos, h.scl, h.len_eq⟩

theorem Params.Valid.placed (h : p.Valid) (hash : UInt64) : p.Placed hash where
  floor := mulHigh32_toNat hash p.segmentCountLength
  portable := (mulHigh32Portable_eq hash p.segmentCountLength).symm
  fits := mulHighFits hash p.segmentCountLength
  h0_lt := UInt32.lt_iff_toNat_lt.mpr
    (SegmentsOk.position_lt_position h hash (i := 0) (j := 1) (by decide))
  h1_lt := UInt32.lt_iff_toNat_lt.mpr
    (SegmentsOk.position_lt_position h hash (i := 1) (j := 2) (by decide))
  h2_lt := UInt32.lt_iff_toNat_lt.mpr (SegmentsOk.position_lt h hash 2)
  segment1 := SegmentsOk.position_div h hash 1
  segment2 := SegmentsOk.position_div h hash 2

theorem Params.Valid.sound (h : p.Valid) (h2 : 2 ≤ p.segmentLength.toNat) : p.Sound :=
  ⟨h.exact h2, h.placed⟩

/-! ## Sizings -/

/-- The sizing that gives every size the segment length `2^k` and the same capacity. -/
def Libm.const (k : Nat) (h2 : 2 ≤ k) (h18 : k ≤ 18) (capacity : UInt32) : Libm where
  segmentLengthLog _ := k
  capacity _ := capacity
  two_le _ := h2
  lt _ := by omega

/-- Every segment length between 4 and `2^18` and every capacity is that of some sizing. -/
theorem initParams_const {k : Nat} (h2 : 2 ≤ k) (h18 : k ≤ 18) (capacity : UInt32) {size : UInt32}
    (hsize : 1 < size) : initParams (Libm.const k h2 h18 capacity) size =
      Params.ofCapacity (UInt32.ofNat (2 ^ k)) capacity := by
  set lm := Libm.const k h2 h18 capacity
  have hpow : 2 ^ k ≤ 2 ^ 18 := Nat.pow_le_pow_right (by decide) h18
  have hne : size ≠ 0 := by
    rintro rfl
    exact absurd hsize (by decide)
  have hcalc : (calculateSegmentLength lm size).toNat = 2 ^ k :=
    calculateSegmentLength_of_ne_zero lm hne
  have hle : ¬ calculateSegmentLength lm size > 262144 := by
    rw [gt_iff_lt, UInt32.lt_iff_toNat_lt, hcalc, not_lt]
    exact hpow
  have hlen : (initParams lm size).segmentLength = UInt32.ofNat (2 ^ k) := by
    show (if calculateSegmentLength lm size > 262144 then 262144 else calculateSegmentLength lm size)
      = _
    rw [if_neg hle, ← hcalc, UInt32.ofNat_toNat]
  rw [initParams_eq, hlen, if_pos hsize]
  rfl

/-! ## Every attempt -/

section Attempts

variable {H : Heap} {hashed : List UInt64} {size : UInt32}

theorem start_params : (PeelState.start H p size).params = p.withSeed (splitmix64 1).1 := rfl

/-- Before its retry switch, an attempt has the segments of an attempt before it. -/
theorem PeelState.AtAttempt.params (hp : p.Initial) (hlen : hashed.length = size.toNat) {i : Nat}
    {st : PeelState} (h : PeelState.AtAttempt H hashed size (.start H p size) i st) :
    ∃ j seed, st.params = (p.atAttempt size j).withSeed seed := by
  cases h with
  | first =>
    have hzero : p.atAttempt size 0 = p := by simp [Params.atAttempt]
    exact ⟨0, (splitmix64 1).1, by rw [hzero, start_params]⟩
  | @again k st0 _ h0 _ hit =>
    obtain ⟨hadj, -, hclean⟩ := h0.clean hp hlen
    obtain ⟨-, hparams, -⟩ := peelIteration_again (hp.seeded_valid size k (rngAt k))
      (hp.two_le_seeded size k (rngAt k)) hadj hlen (ofAttempt_arrayLen p size k ▸ hclean) hit
    rw [Params.seeded, withSeed_withSeed] at hparams
    exact ⟨k, _, hparams⟩

/-- The segment parameters stay exact from `fcm_init_params` through every retry, before and after the
switch that halves or doubles the segments, with one number of slots throughout, which is that of the
buffers: for every sizing and every array of hashes. So they place every hash. -/
theorem segments_sound (lm : Libm) (H : Heap) (hlen : hashed.length = size.toNat) :
    let p := initParams lm size
    (∃ k, 2 ≤ k ∧ k ≤ 18 ∧ p.segmentLength.toNat = 2 ^ k) ∧ p.Sound ∧
    ∀ i st, PeelState.AtAttempt H hashed size (.start H p size) i st →
      st.params.Sound ∧ st.params.arrayLen = p.arrayLen ∧
      (adjustSegments size i st.params).Sound ∧
      (adjustSegments size i st.params).arrayLen = p.arrayLen ∧
      st.Clean p.arrayLen.toNat size.toNat := by
  intro p
  have hp : p.Initial := initParams_initial lm size
  refine ⟨initParams_segmentLength lm size, hp.valid.sound hp.two_le, ?_⟩
  intro i st h
  obtain ⟨hadj, -, hclean⟩ := h.clean hp hlen
  obtain ⟨j, seed, hst⟩ := h.params hp hlen
  have hvalid := (hp.atAttempt_valid size j).withSeed seed
  have hlen0 : st.params.arrayLen = p.arrayLen := by
    rw [hst, withSeed_arrayLen, atAttempt_arrayLen]
  rw [hadj]
  refine ⟨hst ▸ hvalid.sound (hp.two_le_atAttempt size j), hlen0, ?_, ofAttempt_arrayLen p size i,
    hclean⟩
  exact (hp.seeded_valid size i (rngAt i)).sound (hp.two_le_seeded size i (rngAt i))

end Attempts

/-- The largest segment length with the largest capacity, for two keys: the sum with the capacity wraps,
and the table has the least number of segments. -/
theorem segments_sound_wrapping :
    let p := initParams (Libm.const 18 (by decide) (by decide) 0xFFFFFFFF) 2
    p = ⟨0, 0x40000, 0x3FFFF, 1, 0x40000, 0xC0000⟩ ∧ p.Sound := by
  intro p
  have hp : p = ⟨0, 0x40000, 0x3FFFF, 1, 0x40000, 0xC0000⟩ :=
    initParams_const (by decide) (by decide) 0xFFFFFFFF (by decide : (1 : UInt32) < 2)
  have hlen : ([7, 9] : List UInt64).length = (2 : UInt32).toNat := rfl
  obtain ⟨-, hsound, -⟩ :=
    segments_sound (Libm.const 18 (by decide) (by decide) 0xFFFFFFFF) smallHeap hlen
  exact ⟨hp, hsound⟩

end FastConstMap
