import FastConstMap.Proofs.LookupProofs
import FastConstMap.Proofs.ReadProofs

/-!
# Proofs: positions in a deserialized map

The paired reader and view accept only segment parameters that describe the slots, so every lookup
stays within them. The readers and views of the two other types accept any parameters.
-/

namespace FastConstMap

open CLoop

/-! ## The check of the paired reader -/

/-- What passes `fcm_paired_params_ok` describes the slots: the product of the segment count and the
segment length does not wrap. -/
theorem segmentsOk_of_pairedParamsOk {L count len : UInt32}
    (h : pairedParamsOk L count len = true) (hlen : len ≠ 0) :
    SegmentsOk L (if L ≠ 0 then L - 1 else 0) count (count * L) len := by
  unfold pairedParamsOk at h
  rw [if_neg hlen] at h
  split_ifs at h with hL hcount
  have heq : (count.toNat + 2) * L.toNat = len.toNat := of_decide_eq_true h
  push Not at hL
  obtain ⟨hL0, hand⟩ := hL
  have hpos : 1 ≤ L.toNat := by
    rw [Nat.one_le_iff_ne_zero]
    exact fun hzero => hL0 (UInt32.toNat_inj.mp hzero)
  have hsub : (L - 1).toNat = L.toNat - 1 := by
    rw [UInt32.toNat_sub_of_le L 1 (UInt32.le_iff_toNat_le.mpr hpos)]
    rfl
  have hlt := len.toNat_lt
  have hmul : count.toNat * L.toNat < 2 ^ 32 := by
    have hle : count.toNat * L.toNat ≤ (count.toNat + 2) * L.toNat :=
      Nat.mul_le_mul_right _ (Nat.le_add_right _ 2)
    omega
  refine
    { pow := ?_
      mask := ?_
      count_pos := ?_
      scl := ?_
      len_eq := heq.symm }
  · refine (Nat.and_sub_one_eq_zero_iff_isPowerOfTwo (by omega)).mp ?_
    rw [← hsub, ← UInt32.toNat_and, hand]
    rfl
  · rw [if_pos hL0, hsub]
  · exact Nat.pos_of_ne_zero fun hzero => hcount (UInt32.toNat_inj.mp hzero)
  · rw [UInt32.toNat_mul, Nat.mod_eq_of_lt hmul]

/-- A paired map that its reader or its view accepts has consistent segment parameters, unless it has
no slots. -/
theorem paired_segmentsOk {pm : PairedVerifiedConstMap}
    (hpm : pairedCodec.Deserialized Holds pm) (hlen : pm.dataLen ≠ 0) :
    SegmentsOk pm.segmentLength pm.segmentLengthMask pm.segmentCount pm.segmentCountLength
      pm.dataLen := by
  obtain ⟨h, table, hparams, -, rfl⟩ := hpm
  exact segmentsOk_of_pairedParamsOk hparams hlen

theorem SegmentsOk.inRange {τ : Type} {m : MapOf τ} (h : SegmentsOk m.segmentLength
    m.segmentLengthMask m.segmentCount m.segmentCountLength m.dataLen) (hash : UInt64) (j : Fin 3) :
    m.pos hash j < m.dataLen.toNat := h.position_lt hash j

/-- Every lookup on a paired map that its reader or its view accepted stays within its slots: the
product of the segment count and the segment length does not wrap, and the three positions of every
hash are increasing and below `data_len`; without slots, none is read. Single and batched lookups on
any keys therefore return an answer. -/
theorem paired_lookup_in_range (w : Nat) (pm : PairedVerifiedConstMap)
    (haccepted : (∃ H p, pairedVerifiedConstmapRead w H p = some (.ok, pm)) ∨
      ∃ littleEndian addr p, pairedVerifiedConstmapView w littleEndian addr p = some (.ok, pm)) :
    (pm.dataLen ≠ 0 →
      pm.segmentCountLength.toNat = pm.segmentCount.toNat * pm.segmentLength.toNat ∧
      ∀ hash, ∃ h0 h1 h2, getH012 hash pm.segmentLength pm.segmentLengthMask
        pm.segmentCountLength = (h0, h1, h2) ∧ h0 < h1 ∧ h1 < h2 ∧ h2 < pm.dataLen) ∧
    (pm.dataLen = 0 → ∀ K slots,
      (∀ key, pairedVerifiedConstmapLookup K { pm with table := slots } key = some NOT_FOUND) ∧
      ∀ B keys out, keys.length ≤ out.length → ∃ out',
        pairedVerifiedConstmapLookupMany K B { pm with table := slots } keys out = some out') ∧
    ∀ K, (∀ key, ∃ v, pairedVerifiedConstmapLookup K pm key = some v) ∧
      ∀ B keys out, 1 ≤ B → keys.length ≤ out.length →
        ∃ out', pairedVerifiedConstmapLookupMany K B pm keys out = some out' := by
  have hpm : pairedCodec.Deserialized Holds pm := by
    rcases haccepted with ⟨H, p, hread⟩ | ⟨littleEndian, addr, p, hview⟩
    · exact read_deserialized pairedCodec_lawful hread
    · exact view_deserialized pairedCodec_lawful hview
  have hrep : ∃ f, Holds pm.table pm.dataLen.toNat f := by
    obtain ⟨h, table, -, hrep, rfl⟩ := hpm
    exact hrep
  obtain ⟨f, hrep⟩ := hrep
  refine ⟨?_, ?_, ?_⟩
  · intro hlen
    have hok := paired_segmentsOk hpm hlen
    refine ⟨hok.scl, fun hash => ⟨_, _, _, rfl, ?_, ?_, ?_⟩⟩
    · exact UInt32.lt_iff_toNat_lt.mpr (hok.position_lt_position hash (i := 0) (j := 1) (by decide))
    · exact UInt32.lt_iff_toNat_lt.mpr (hok.position_lt_position hash (i := 1) (j := 2) (by decide))
    · exact UInt32.lt_iff_toNat_lt.mpr (hok.position_lt hash 2)
  · intro hlen K slots
    constructor
    · intro key
      exact if_pos hlen
    · intro B keys out hout
      obtain ⟨out', hmany, -⟩ := lookupMany_missing pairedLayout K B
        (m := { pm with table := slots }) hlen hout
      exact ⟨out', hmany⟩
  · intro K
    constructor
    · intro key
      by_cases hlen : pm.dataLen = 0
      · exact ⟨_, if_pos hlen⟩
      · have hok := paired_segmentsOk hpm hlen
        refine ⟨_, (if_neg hlen).trans (pairedLayout_lawful.get hrep ?_ ?_ ?_ _)⟩
        · exact hok.inRange _ 0
        · exact hok.inRange _ 1
        · exact hok.inRange _ 2
    · intro B keys out hB hout
      have hrange : pm.InRange K keys := fun hlen key _ j =>
        (paired_segmentsOk hpm hlen).inRange _ j
      obtain ⟨out', hmany, -⟩ := lookupMany_batched pairedLayout_lawful hrep hrange hB hout
      exact ⟨out', hmany⟩

/-- A buffer with three slots, in segments of one. -/
theorem paired_lookup_in_range_three :
    let p := withChecksum (magicOf ['P', 'M', 'A', 'P', '0', '0', '0', '1'] ++ writeU64 7 ++
      writeU32 1 ++ writeU32 1 ++ writeU32 3 ++ writeU32 0 ++ List.replicate 48 1)
    ∃ pm, pairedVerifiedConstmapRead 64 smallHeap p = some (.ok, pm) ∧
      pm.dataLen = 3 ∧ ∀ hash, ∃ h0 h1 h2, getH012 hash pm.segmentLength pm.segmentLengthMask
        pm.segmentCountLength = (h0, h1, h2) ∧ h0 < h1 ∧ h1 < h2 ∧ h2 < pm.dataLen := by
  intro p
  obtain ⟨pm, hpm⟩ : ∃ pm : PairedVerifiedConstMap, pm = ⟨7, 1, 0, 1, 1, 3, 0,
      List.replicate 3 ⟨0x0101010101010101, 0x0101010101010101⟩, 0⟩ := ⟨_, rfl⟩
  have hread : pairedVerifiedConstmapRead 64 smallHeap p = some (.ok, pm) := by
    subst hpm
    decide +kernel
  have hlen : pm.dataLen = 3 := by rw [hpm]
  have hrange := (paired_lookup_in_range 64 pm (Or.inl ⟨_, p, hread⟩)).1
    (by rw [hlen]; decide)
  exact ⟨pm, hread, hlen, hrange.2⟩

end FastConstMap
