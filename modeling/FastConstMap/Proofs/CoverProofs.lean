import FastConstMap.Proofs.RangeProofs

/-!
# Proofs: which deserialized maps are looked up in range

The readers and views of `ConstMap` and `VerifiedConstMap` do not check the segment parameters. Every
lookup stays within the arrays exactly when the parameters cover all positions, also those that wrap
around.
-/

namespace FastConstMap

open CLoop

/-- The segment parameters cover the positions of all hashes, as positions below `data_len`: the
first position can be any `v` below the product of the segment count and the segment length (modulo
`2^32`; 0 if it is 0), and the bits under the mask of the two others are free. -/
def Covers (segmentLength segmentCount dataLen : UInt32) : Prop :=
  dataLen = 0 ∨ ∀ v < max (segmentCount * segmentLength).toNat 1,
    v < dataLen.toNat ∧
    ((v + segmentLength.toNat) % 2 ^ 32 ||| (segmentLength.toNat - 1)) < dataLen.toNat ∧
    ((v + 2 * segmentLength.toNat) % 2 ^ 32 ||| (segmentLength.toNat - 1)) < dataLen.toNat

instance (segmentLength segmentCount dataLen : UInt32) :
    Decidable (Covers segmentLength segmentCount dataLen) :=
  inferInstanceAs (Decidable (_ ∨ ∀ v < _, _))

/-! ## Hashes with a given first position -/

/-- Every first position comes with all values of the low half of the hash. -/
theorem exists_hash {N v s : Nat} (hN : N < 2 ^ 32) (hv : v < max N 1) (hs : s < 2 ^ 32) :
    ∃ a < 2 ^ 64, a * N / 2 ^ 64 = v ∧ a % 2 ^ 32 = s := by
  rcases Nat.eq_zero_or_pos N with rfl | hpos
  · exact ⟨s, by omega, by omega, Nat.mod_eq_of_lt hs⟩
  -- `b` is the least hash with the first position `v`; the hashes with it span `2^32` values.
  obtain ⟨b, hb⟩ : ∃ b, b = (v * 2 ^ 64 + (N - 1)) / N := ⟨_, rfl⟩
  have hvN : v < N := by omega
  have hdiv := Nat.div_add_mod (v * 2 ^ 64 + (N - 1)) N
  have hmod := Nat.mod_lt (v * 2 ^ 64 + (N - 1)) hpos
  rw [← hb] at hdiv
  obtain ⟨r, hr, hrs⟩ : ∃ r < 2 ^ 32, (b + r) % 2 ^ 32 = s :=
    ⟨(s + 2 ^ 32 - b % 2 ^ 32) % 2 ^ 32, by omega, by omega⟩
  have hbN : N * b ≤ v * 2 ^ 64 + (N - 1) := by omega
  have hbN' : v * 2 ^ 64 ≤ N * b := by omega
  have hrN : N * r ≤ N * (2 ^ 32 - 1) := Nat.mul_le_mul_left N (by omega)
  have hlow : v * 2 ^ 64 ≤ (b + r) * N := by
    rw [Nat.add_mul, Nat.mul_comm b N, Nat.mul_comm r N]
    omega
  have hhigh : (b + r) * N < (v + 1) * 2 ^ 64 := by
    rw [Nat.add_mul, Nat.mul_comm b N, Nat.mul_comm r N]
    omega
  refine ⟨b + r, ?_, ?_, hrs⟩
  · by_contra hge
    have hle : 2 ^ 64 * N ≤ (b + r) * N := Nat.mul_le_mul_right N (not_lt.mp hge)
    have hle' : (v + 1) * 2 ^ 64 ≤ N * 2 ^ 64 := Nat.mul_le_mul_right _ hvN
    omega
  · exact Nat.div_eq_of_lt_le hlow hhigh

/-! ## The middle segment -/

section Middle

variable {L D N : Nat}

/-- Adding `t` adds no common bit with `t` for some number from `w` to `t - 1`, unless `t` is a power
of two: the number that reaches the next power of two, or `w` itself when it is past it. -/
theorem exists_two_pow_of_and_lt {t w : Nat} (hw : w < t)
    (h : ∀ u, w ≤ u → u < t → w &&& t < (u + t) &&& t) : ∃ k, t = 2 ^ k := by
  have ht : t ≠ 0 := by omega
  obtain ⟨K, hK⟩ : ∃ K, K = Nat.log2 t := ⟨_, rfl⟩
  have hlow : 2 ^ K ≤ t := hK ▸ Nat.log2_self_le ht
  have hhigh : t < 2 ^ (K + 1) := hK ▸ Nat.lt_log2_self
  by_contra hno
  have hne : t ≠ 2 ^ K := fun heq => hno ⟨K, heq⟩
  have hmod : ∀ x, x &&& t ≤ x % 2 ^ (K + 1) := by
    intro x
    have hlt : x &&& t < 2 ^ (K + 1) := Nat.lt_of_le_of_lt Nat.and_le_right hhigh
    rw [← Nat.mod_eq_of_lt hlt, Nat.and_mod_two_pow]
    exact Nat.and_le_left
  rw [Nat.pow_succ] at hhigh hmod
  by_cases hwe : w ≤ 2 ^ K * 2 - t
  · have hand := hmod (2 ^ K * 2 - t + t)
    rw [Nat.sub_add_cancel hhigh.le, Nat.mod_self] at hand
    have hlt := h (2 ^ K * 2 - t) hwe (by omega)
    rw [Nat.sub_add_cancel hhigh.le] at hlt
    omega
  · have hand := hmod (w + t)
    have hsum : (w + t) % (2 ^ K * 2) = w + t - 2 ^ K * 2 := by
      rw [Nat.mod_eq_sub_mod (by omega), Nat.mod_eq_of_lt (by omega)]
    have hbits := Words.le_and_add (n := K + 1) (a := w) (b := t) (by omega) (by omega)
    have hlt := h w le_rfl hw
    rw [Nat.pow_succ] at hbits
    omega

/-- When the last position is covered, the middle one is, unless the segment length is `2^32 - 2^k`
and the first position below `2^k`. -/
theorem middle_covered (hL : L < 2 ^ 32) (hD : D < 2 ^ 32)
    (hlast : ∀ v < N, ((v + 2 * L) % 2 ^ 32 ||| (L - 1)) < D) {v : Nat} (hv : v < N) :
    ((v + L) % 2 ^ 32 ||| (L - 1)) < D ∨ ∃ k < 32, L = 2 ^ 32 - 2 ^ k ∧ N ≤ 2 ^ k := by
  by_contra hno
  obtain ⟨hmid, hpow⟩ := not_or.mp hno
  rw [not_lt] at hmid
  have hvL : v < L := by
    by_contra hge
    have hlt := hlast (v - L) (by omega)
    rw [show v - L + 2 * L = v + L by omega] at hlt
    omega
  have hy := hlast v hv
  by_cases hwrap : (v + L) % 2 ^ 32 + L < 2 ^ 32
  · -- The last position is past the middle one and its mask.
    have hor := Words.and_add_or ((v + L) % 2 ^ 32) (L - 1)
    have hle := @Nat.left_le_or ((v + 2 * L) % 2 ^ 32) (L - 1)
    omega
  have hvy : v ≤ (v + 2 * L) % 2 ^ 32 := by
    by_contra hlt
    have hlast' := hlast (v - ((v + 2 * L) % 2 ^ 32 + 1)) (by omega)
    rw [show (v - ((v + 2 * L) % 2 ^ 32 + 1) + 2 * L) % 2 ^ 32 = 2 ^ 32 - 1 by omega] at hlast'
    have hle := @Nat.left_le_or (2 ^ 32 - 1) (L - 1)
    omega
  -- Both segments lie above `2^31`; `t` and `w` count down from `2^32`.
  obtain ⟨t, ht⟩ : ∃ t, t = 2 ^ 32 - L := ⟨_, rfl⟩
  obtain ⟨w, hw⟩ : ∃ w, w = t - 1 - v := ⟨_, rfl⟩
  have hmask : L - 1 = 2 ^ 32 - (t + 1) := by omega
  have hmid' : (v + L) % 2 ^ 32 = 2 ^ 32 - (w + 1) := by omega
  rw [hmask, hmid', Words.compl_or_compl (by omega) (by omega)] at hmid
  have hwt := @Nat.and_le_left w t
  obtain ⟨k, hk⟩ := exists_two_pow_of_and_lt (t := t) (w := w) (by omega) fun u hwu hut => by
    have hlast' := hlast (t - 1 - u) (by omega)
    rw [hmask, show (t - 1 - u + 2 * L) % 2 ^ 32 = 2 ^ 32 - (u + t + 1) by omega,
      Words.compl_or_compl (by omega) (by omega)] at hlast'
    omega
  have hk32 : k < 32 := by
    by_contra hge
    have hle : 2 ^ 32 ≤ 2 ^ k := Nat.pow_le_pow_right (by decide) (not_lt.mp hge)
    omega
  refine hpow ⟨k, hk32, by omega, ?_⟩
  by_contra hN
  have hlast' := hlast (2 ^ k) (not_le.mp hN)
  have hand : (t - 1) &&& t = 0 := by
    rw [hk, Nat.and_comm, Nat.and_two_pow_sub_one_eq_mod, Nat.mod_self]
  rw [← hk, hmask, show (t + 2 * L) % 2 ^ 32 = 2 ^ 32 - (t - 1 + 1) by omega,
    Words.compl_or_compl (by omega) (by omega), hand] at hlast'
  omega

end Middle

/-- In the remaining case some hash gets the largest middle position. -/
theorem exists_full_position : ∀ k : Fin 32, ∀ scl ∈ [0, UInt32.ofNat (2 ^ k.val)], ∃ hash : UInt64,
    position (UInt32.ofNat (2 ^ 32 - 2 ^ k.val)) (UInt32.ofNat (2 ^ 32 - 2 ^ k.val - 1)) scl hash 1 =
      0xFFFFFFFF := by
  have hfull : ∀ k : Fin 32,
      position (UInt32.ofNat (2 ^ 32 - 2 ^ k.val)) (UInt32.ofNat (2 ^ 32 - 2 ^ k.val - 1)) 0
        (UInt64.ofNat ((2 ^ k.val - 1) * 2 ^ 18)) 1 = 0xFFFFFFFF ∧
      position (UInt32.ofNat (2 ^ 32 - 2 ^ k.val)) (UInt32.ofNat (2 ^ 32 - 2 ^ k.val - 1))
        (UInt32.ofNat (2 ^ k.val)) (UInt64.ofNat (2 ^ 64 / (2 ^ (46 - k.val) + 1))) 1 =
          0xFFFFFFFF := by decide +kernel
  intro k scl hscl
  rcases List.mem_pair.mp hscl with rfl | rfl
  · exact ⟨_, (hfull k).1⟩
  · exact ⟨_, (hfull k).2⟩

/-- With the segment length `2^32 - 2^k` and a first position below `2^k`, no number of entries is
enough: the middle position of some hash is `2^32 - 1`. -/
theorem exists_max_position {L mask count : UInt32} (hmask : mask.toNat = L.toNat - 1) {k : Nat}
    (hk : k < 32) (hL : L.toNat = 2 ^ 32 - 2 ^ k) (hN : (count * L).toNat ≤ 2 ^ k) :
    ∃ hash, position L mask (count * L) hash 1 = 0xFFFFFFFF := by
  have hpow := Nat.two_pow_pos k
  -- The product is a multiple of `2^k`.
  have hdvd : 2 ^ k ∣ (count * L).toNat := by
    rw [UInt32.toNat_mul, hL, Nat.dvd_mod_iff (Nat.pow_dvd_pow 2 hk.le)]
    exact Dvd.dvd.mul_left (Nat.dvd_sub (Nat.pow_dvd_pow 2 hk.le) dvd_rfl) _
  have hscl : count * L ∈ [0, UInt32.ofNat (2 ^ k)] := by
    obtain ⟨c, hc⟩ := hdvd
    have hc1 : c ≤ 1 := by
      by_contra hge
      have hle : 2 ^ k * 2 ≤ 2 ^ k * c := Nat.mul_le_mul_left _ (by omega)
      omega
    have heq : count * L = UInt32.ofNat (count * L).toNat := by rw [UInt32.ofNat_toNat]
    rw [heq, hc]
    rcases Nat.le_one_iff_eq_zero_or_eq_one.mp hc1 with rfl | rfl
    · exact List.mem_cons_self ..
    · rw [Nat.mul_one]
      exact List.mem_cons_of_mem _ (List.mem_cons_self ..)
  have hL' : L = UInt32.ofNat (2 ^ 32 - 2 ^ k) := by rw [← hL, UInt32.ofNat_toNat]
  have hmask' : mask = UInt32.ofNat (2 ^ 32 - 2 ^ k - 1) := by rw [← hL, ← hmask, UInt32.ofNat_toNat]
  obtain ⟨hash, hfull⟩ := exists_full_position ⟨k, hk⟩ (count * L) hscl
  refine ⟨hash, ?_⟩
  rw [← hfull, hmask', ← hL']

/-! ## All positions -/

/-- The first position of a hash. -/
theorem mulHigh_lt_max (hash : UInt64) (scl : UInt32) :
    hash.toNat * scl.toNat / 2 ^ 64 < max scl.toNat 1 := by
  rcases Nat.eq_zero_or_pos scl.toNat with h0 | hpos
  · rw [h0, Nat.mul_zero]
    decide
  · have hlt := mulHigh32_lt hash hpos
    rw [mulHigh32_toNat] at hlt
    exact Nat.lt_of_lt_of_le hlt (Nat.le_max_left _ _)

section Positions

variable {L mask count len : UInt32}

/-- When all hashes have their positions below `data_len`, the largest last position with a given
first one is below it. -/
theorem last_covered (hmask : mask.toNat = L.toNat - 1)
    (hpos : ∀ hash j, (position L mask (count * L) hash j).toNat < len.toNat) {v : Nat}
    (hv : v < max (count * L).toNat 1) :
    ((v + 2 * L.toNat) % 2 ^ 32 ||| (L.toNat - 1)) < len.toNat := by
  have hL := L.toNat_lt
  have hmod : (v + 2 * L.toNat) % 2 ^ 32 < 2 ^ 32 := Nat.mod_lt _ (by decide)
  -- Some hash has the first position `v` and sets the bits under the mask.
  have hs : ((v + 2 * L.toNat) % 2 ^ 32 ||| (L.toNat - 1)) ^^^ ((v + 2 * L.toNat) % 2 ^ 32) < 2 ^ 32 :=
    Nat.xor_lt_two_pow (Nat.or_lt_two_pow hmod (by omega)) hmod
  obtain ⟨a, ha, hav, has⟩ := exists_hash (count * L).toNat_lt hv hs
  have hlt := hpos (UInt64.ofNat a) 2
  rwa [position_two_toNat, hmask, UInt64.toNat_ofNat', Nat.mod_eq_of_lt ha, hav, has,
    Words.xor_missing_bits] at hlt

/-- All hashes have their positions below `data_len` exactly when the segment parameters cover
them. -/
theorem positions_lt_iff (count : UInt32) (hmask : mask.toNat = L.toNat - 1) (hlen : len ≠ 0) :
    (∀ hash j, (position L mask (count * L) hash j).toNat < len.toNat) ↔ Covers L count len := by
  constructor
  · intro hpos
    right
    intro v hv
    refine ⟨?_, ?_, last_covered hmask hpos hv⟩
    · obtain ⟨a, ha, hav, -⟩ := exists_hash (s := 0) (count * L).toNat_lt hv (by decide)
      have hlt := hpos (UInt64.ofNat a) 0
      rwa [position_zero_toNat, UInt64.toNat_ofNat', Nat.mod_eq_of_lt ha, hav] at hlt
    · rcases middle_covered L.toNat_lt len.toNat_lt (fun _ => last_covered hmask hpos) hv with
        hmid | ⟨k, hk, hLk, hNk⟩
      · exact hmid
      · obtain ⟨hash, hmax⟩ :=
          exists_max_position hmask hk hLk ((Nat.le_max_left _ _).trans hNk)
        have hlt := hpos hash 1
        rw [hmax] at hlt
        exact absurd hlt (not_lt.mpr (Nat.le_sub_one_of_lt len.toNat_lt))
  · rintro (hzero | hcover) hash j
    · exact absurd hzero hlen
    obtain ⟨h0, h1, h2⟩ := hcover _ (mulHigh_lt_max hash (count * L))
    match j with
    | 0 =>
      rw [position_zero_toNat]
      exact h0
    | 1 =>
      rw [position_one_toNat, hmask]
      exact Nat.lt_of_le_of_lt (Words.xor_and_le_or _ _ _) h1
    | 2 =>
      rw [position_two_toNat, hmask]
      exact Nat.lt_of_le_of_lt (Words.xor_and_le_or _ _ _) h2

end Positions

/-! ## Lookups on a deserialized map -/

section Bounds

variable {τ : Type} {Cd : Codec τ} {Rep : τ → Nat → (Nat → Slot) → Prop}
  {answer : Slot → UInt64 → UInt64} {m : MapOf τ}

/-- No lookup on the map `m` indexes outside its arrays: the positions of all keys are below
`data_len`, and single and batched lookups return. -/
structure InBounds (lookup : KeyHash → MapOf τ → Bytes → Option UInt64)
    (lookupMany : KeyHash → Nat → MapOf τ → List Bytes → List UInt64 → Option (List UInt64))
    (m : MapOf τ) : Prop where
  positions : ∀ K keys, m.InRange K keys
  single : ∀ K key, ∃ v, lookup K m key = some v
  batched : ∀ K B keys out, 1 ≤ B → keys.length ≤ out.length →
    ∃ out', lookupMany K B m keys out = some out'

/-- Every hash is the mixed hash of some key under some hash function. -/
theorem exists_mixed (m : MapOf τ) (a : UInt64) : ∃ K : KeyHash, m.mixed K [] = a := by
  refine ⟨⟨fun _ => unmix a m.seed, fun _ => unmix a m.seed⟩, ?_⟩
  rw [MapOf.mixed, hashKey, ite_self]
  exact mixsplit_unmix a m.seed

/-- Lookups on a map that a reader or a view returned stay within its arrays exactly when the segment
parameters cover all positions. -/
theorem Codec.Deserialized.inBounds_iff (hCd : Cd.Lawful Rep answer) (hm : Cd.Deserialized Rep m) :
    InBounds (lookup Cd.layout) (lookupMany Cd.layout) m ↔
      Covers m.segmentLength m.segmentCount m.dataLen := by
  obtain ⟨h, table, -, ⟨f, hrep⟩, rfl⟩ := hm
  have hmask : (setHeader h table).segmentLengthMask.toNat = h.segmentLength.toNat - 1 := by
    show (if h.segmentLength ≠ 0 then h.segmentLength - 1 else 0).toNat = _
    split_ifs with hL
    · have hpos : 1 ≤ h.segmentLength.toNat :=
        Nat.one_le_iff_ne_zero.mpr fun hzero => hL (UInt32.toNat_inj.mp hzero)
      rw [UInt32.toNat_sub_of_le _ 1 (UInt32.le_iff_toNat_le.mpr hpos)]
      rfl
    · rw [not_not.mp hL]
      rfl
  by_cases hlen : h.dataLen = 0
  · refine iff_of_true ⟨fun _ _ hne => absurd hlen hne, fun K key => ⟨_, if_pos hlen⟩, ?_⟩
      (Or.inl hlen)
    intro K B keys out _ hout
    obtain ⟨out', hmany, -⟩ := lookupMany_missing Cd.layout K B (m := setHeader h table) hlen hout
    exact ⟨out', hmany⟩
  have hiff := positions_lt_iff h.segmentCount hmask hlen
  constructor
  · intro hin
    apply hiff.mp
    intro a j
    obtain ⟨K, hK⟩ := exists_mixed (setHeader h table) a
    have hpos := hin.positions K [[]] hlen [] (List.mem_singleton_self _) j
    rw [hK] at hpos
    exact hpos
  · intro hcover
    have hpos := hiff.mpr hcover
    refine ⟨fun K keys _ key _ j => hpos _ j, ?_, ?_⟩
    · intro K key
      exact ⟨_, (if_neg hlen).trans (hCd.layout.get hrep (hpos _ 0) (hpos _ 1) (hpos _ 2) _)⟩
    · intro K B keys out hB hout
      have hrange : (setHeader h table).InRange K keys := fun _ key _ j => hpos _ j
      obtain ⟨out', hmany, -⟩ := lookupMany_batched hCd.layout hrep hrange hB hout
      exact ⟨out', hmany⟩

end Bounds

/-- Lookups on a map that `fcm_constmap_read`, `fcm_constmap_view`, `fcm_verified_constmap_read` or
`fcm_verified_constmap_view` accepted stay within its arrays exactly when the segment parameters of the
header cover all positions. -/
theorem deserialized_inBounds_iff (w : Nat) :
    (∀ cm, (∃ H p, constmapRead w H p = some (.ok, cm)) ∨
        (∃ littleEndian addr p, constmapView w littleEndian addr p = some (.ok, cm)) →
      (InBounds constmapLookup constmapLookupMany cm ↔
        Covers cm.segmentLength cm.segmentCount cm.dataLen)) ∧
    (∀ vm, (∃ H p, verifiedConstmapRead w H p = some (.ok, vm)) ∨
        (∃ littleEndian addr p, verifiedConstmapView w littleEndian addr p = some (.ok, vm)) →
      (InBounds verifiedConstmapLookup verifiedConstmapLookupMany vm ↔
        Covers vm.segmentLength vm.segmentCount vm.dataLen)) := by
  constructor
  · rintro cm (⟨H, p, hread⟩ | ⟨littleEndian, addr, p, hview⟩)
    · exact (read_deserialized constmapCodec_lawful hread).inBounds_iff constmapCodec_lawful
    · exact (view_deserialized constmapCodec_lawful hview).inBounds_iff constmapCodec_lawful
  · rintro vm (⟨H, p, hread⟩ | ⟨littleEndian, addr, p, hview⟩)
    · exact (read_deserialized verifiedCodec_lawful hread).inBounds_iff verifiedCodec_lawful
    · exact (view_deserialized verifiedCodec_lawful hview).inBounds_iff verifiedCodec_lawful

/-- A `ConstMap` of three words, in segments of one. -/
theorem deserialized_inBounds_iff_three :
    let p := withChecksum (magicOf ['C', 'M', 'A', 'P', '0', '0', '0', '3'] ++ writeU64 7 ++
      writeU32 1 ++ writeU32 1 ++ writeU32 3 ++ writeU32 0 ++ List.replicate 24 1)
    ∃ cm, constmapRead 64 smallHeap p = some (.ok, cm) ∧
      InBounds constmapLookup constmapLookupMany cm := by
  intro p
  obtain ⟨cm, hcm⟩ : ∃ cm : ConstMap,
      cm = ⟨7, 1, 0, 1, 1, 3, 0, List.replicate 3 0x0101010101010101, 0⟩ := ⟨_, rfl⟩
  have hread : constmapRead 64 smallHeap p = some (.ok, cm) := by
    subst hcm
    decide +kernel
  have hcover : Covers cm.segmentLength cm.segmentCount cm.dataLen := by
    subst hcm
    decide
  exact ⟨cm, hread, ((deserialized_inBounds_iff 64).1 cm (Or.inl ⟨_, p, hread⟩)).mpr hcover⟩

/-- The readers and views accept a file with one word per array and four words per segment; every
lookup on its map indexes outside them. -/
theorem foreign_header_out_of_range :
    let fields : Bytes := writeU64 0 ++ writeU32 4 ++ writeU32 1 ++ writeU32 1 ++ writeU32 0
    let p := withChecksum
      (magicOf ['C', 'M', 'A', 'P', '0', '0', '0', '3'] ++ fields ++ writeU64 0)
    let q := withChecksum
      (magicOf ['V', 'M', 'A', 'P', '0', '0', '0', '1'] ++ fields ++ writeU64 0 ++ writeU64 0)
    (∃ cm, constmapRead 64 smallHeap p = some (.ok, cm) ∧ constmapView 64 true 0 p = some (.ok, cm) ∧
      cm.dataLen.toNat ≤ cm.pos (cm.mixed smallKeyHash [0x61]) 1 ∧
      constmapLookup smallKeyHash cm [0x61] = none) ∧
    ∃ vm, verifiedConstmapRead 64 smallHeap q = some (.ok, vm) ∧
      verifiedConstmapView 64 true 0 q = some (.ok, vm) ∧
      vm.dataLen.toNat ≤ vm.pos (vm.mixed smallKeyHash [0x61]) 1 ∧
      verifiedConstmapLookup smallKeyHash vm [0x61] = none := by
  refine ⟨⟨⟨0, 4, 3, 1, 4, 1, 0, [0], 0⟩, ?_⟩, ⟨⟨0, 4, 3, 1, 4, 1, 0, ⟨[0], [0]⟩, 0⟩, ?_⟩⟩
  · decide +kernel
  · decide +kernel

end FastConstMap
