import FastConstMap.Proofs.FingerprintProofs
import Mathlib.Data.Set.Card

/-!
# Proofs: how many key hashes a verified map accepts

A check word confirms at most one key hash for each triple of positions. So the number of triples bounds the
number of key hashes that a map accepts, whatever is in its arrays and its header.
-/

namespace FastConstMap

variable {τ : Type} {check : τ → (h0 h1 h2 : Nat) → Option UInt64}

/-- The key hashes that get another answer than `FCM_NOT_FOUND`. -/
def acceptedHashes (lookup : KeyHash → MapOf τ → Bytes → Option UInt64) (m : MapOf τ) : Set UInt64 :=
  {h | ∃ K key w, hashKey K m.hash key = h ∧ w ≠ NOT_FOUND ∧ lookup K m key = some w}

/-- A lookup in the layout answers only what the check word confirms. -/
structure Layout.Confirms (Ly : Layout τ) (check : τ → (h0 h1 h2 : Nat) → Option UInt64) : Prop where
  missing : Ly.missing = NOT_FOUND
  get : ∀ table h0 h1 h2 hash w, Ly.get table h0 h1 h2 hash = some w → w ≠ NOT_FOUND →
    check table h0 h1 h2 = some (fingerprint hash)

theorem verifiedLayout_confirms : verifiedLayout.Confirms verifiedCheck := by
  refine ⟨rfl, ?_⟩
  intro table h0 h1 h2 hash w h hw
  obtain ⟨fp, hfp, h⟩ := Option.bind_eq_some_iff.mp h
  by_cases hmatch : fp = fingerprint hash
  · exact hfp.trans (congrArg some hmatch)
  · rw [if_pos hmatch] at h
    exact absurd (Option.some.inj h).symm hw

theorem pairedLayout_confirms : pairedLayout.Confirms pairedCheck := by
  refine ⟨rfl, ?_⟩
  intro table h0 h1 h2 hash w h hw
  obtain ⟨r, hr, h⟩ := Option.bind_eq_some_iff.mp h
  by_cases hmatch : r.check = fingerprint hash
  · rw [pairedCheck, hr, Option.map_some, hmatch]
  · rw [if_neg hmatch] at h
    exact absurd (Option.some.inj h).symm hw

/-! ## Triples of positions -/

/-- The three numbers that the positions of a mixed hash are computed from. -/
def MapOf.triple (m : MapOf τ) (a : UInt64) : Nat × Nat × Nat :=
  ((mulHigh32 a m.segmentCountLength).toNat, ((a >>> 18).toUInt32 &&& m.segmentLengthMask).toNat,
    (a.toUInt32 &&& m.segmentLengthMask).toNat)

theorem MapOf.pos_eq_of_triple {m : MapOf τ} {a b : UInt64} (h : m.triple a = m.triple b) (j : Fin 3) :
    m.pos a j = m.pos b j := by
  obtain ⟨h0, h12⟩ := Prod.mk.inj h
  obtain ⟨h1, h2⟩ := Prod.mk.inj h12
  have hpos : getH012 a m.segmentLength m.segmentLengthMask m.segmentCountLength =
      getH012 b m.segmentLength m.segmentLengthMask m.segmentCountLength := by
    rw [getH012, getH012, UInt32.toNat_inj.mp h0, UInt32.toNat_inj.mp h1, UInt32.toNat_inj.mp h2]
  match j with
  | 0 => exact congrArg (fun h => h.1.toNat) hpos
  | 1 => exact congrArg (fun h => h.2.1.toNat) hpos
  | 2 => exact congrArg (fun h => h.2.2.toNat) hpos

/-- The triples that there can be. -/
def MapOf.triples (m : MapOf τ) : Finset (Nat × Nat × Nat) :=
  Finset.range (max 1 m.segmentCountLength.toNat) ×ˢ
    (Finset.range (m.segmentLengthMask.toNat + 1) ×ˢ Finset.range (m.segmentLengthMask.toNat + 1))

theorem MapOf.triple_mem (m : MapOf τ) (a : UInt64) : m.triple a ∈ m.triples := by
  have hmask : ∀ x : UInt32, (x &&& m.segmentLengthMask).toNat < m.segmentLengthMask.toNat + 1 := by
    intro x
    rw [UInt32.toNat_and]
    exact Nat.lt_succ_of_le Nat.and_le_right
  have hhigh : (mulHigh32 a m.segmentCountLength).toNat < max 1 m.segmentCountLength.toNat := by
    rcases Nat.eq_zero_or_pos m.segmentCountLength.toNat with h0 | hpos
    · rw [mulHigh32_toNat, h0]
      simp
    · exact (mulHigh32_lt a hpos).trans_le (le_max_right _ _)
  exact Finset.mem_product.mpr ⟨Finset.mem_range.mpr hhigh, Finset.mem_product.mpr
    ⟨Finset.mem_range.mpr (hmask _), Finset.mem_range.mpr (hmask _)⟩⟩

theorem MapOf.card_triples (m : MapOf τ) : m.triples.card =
    max 1 m.segmentCountLength.toNat * (m.segmentLengthMask.toNat + 1) ^ 2 := by
  rw [triples, Finset.card_product, Finset.card_product, Finset.card_range, Finset.card_range, sq]

/-- A triple belongs to at most one accepted key hash. -/
theorem ncard_acceptedHashes_le {Ly : Layout τ} (hLy : Ly.Confirms check) (m : MapOf τ) :
    (acceptedHashes (lookup Ly) m).ncard ≤
      max 1 m.segmentCountLength.toNat * (m.segmentLengthMask.toNat + 1) ^ 2 := by
  have hconfirmed : ∀ h ∈ acceptedHashes (lookup Ly) m,
      check m.table (m.pos (mixsplit h m.seed) 0) (m.pos (mixsplit h m.seed) 1)
        (m.pos (mixsplit h m.seed) 2) = some (fingerprint (mixsplit h m.seed)) := by
    rintro h ⟨K, key, w, rfl, hw, hlookup⟩
    unfold lookup lookupWith at hlookup
    split_ifs at hlookup with hempty
    · obtain rfl := Option.some.inj hlookup
      exact absurd hLy.missing hw
    · exact hLy.get _ _ _ _ _ _ hlookup hw
  rw [← m.card_triples, ← Set.ncard_coe_finset]
  refine Set.ncard_le_ncard_of_injOn (fun h => m.triple (mixsplit h m.seed))
    (fun h _ => m.triple_mem _) ?_ (Finset.finite_toSet _)
  intro h hh h' hh' heq
  have hcheck := hconfirmed h hh
  rw [m.pos_eq_of_triple heq, m.pos_eq_of_triple heq, m.pos_eq_of_triple heq,
    hconfirmed h' hh'] at hcheck
  exact mixsplit_injective m.seed (fingerprint_injective (Option.some.inj hcheck)).symm

/-- Whatever is in the arrays and the header of a verified map, at most `max 1 c * L ^ 2` of the `2 ^ 64`
key hashes are answered with a value, where `c` is the `segment_count_length` and `L` is
`segment_length_mask + 1`. -/
theorem accepted_hashes_le :
    (∀ vm : VerifiedConstMap, (acceptedHashes verifiedConstmapLookup vm).ncard ≤
      max 1 vm.segmentCountLength.toNat * (vm.segmentLengthMask.toNat + 1) ^ 2) ∧
    ∀ pm : PairedVerifiedConstMap, (acceptedHashes pairedVerifiedConstmapLookup pm).ncard ≤
      max 1 pm.segmentCountLength.toNat * (pm.segmentLengthMask.toNat + 1) ^ 2 :=
  ⟨ncard_acceptedHashes_le verifiedLayout_confirms, ncard_acceptedHashes_le pairedLayout_confirms⟩

end FastConstMap
