import FastConstMap.Proofs.BuiltMapProofs

/-!
# Proofs: the fingerprint test

The check words of three slots combine to one word, which is the fingerprint of at most one mixed hash,
and a mixed hash belongs to one key hash: both steps can be undone. So in any tables, at most one key
hash passes the fingerprint test at given positions.
-/

namespace FastConstMap

open CLoop

variable {τ : Type} {K : KeyHash} {m : MapOf τ} {key key' : Bytes}

theorem fingerprint_injective : Function.Injective fingerprint := by
  intro a b h
  have hundo : ∀ x : UInt64, fingerprint x ^^^ (fingerprint x >>> 32) = x := fun x =>
    Words.xor_shiftRight_self x (by decide) (by decide)
  rw [← hundo a, h, hundo b]

/-! ## The test -/

/-- The word that `fcm_verified_constmap_lookup` compares with the fingerprint of the key. -/
def verifiedCheck (table : Tables) (h0 h1 h2 : Nat) : Option UInt64 := xor3 table.checks h0 h1 h2

/-- The word that `fcm_paired_verified_constmap_lookup` compares with the fingerprint of the key. -/
def pairedCheck (slots : List Slot) (h0 h1 h2 : Nat) : Option UInt64 :=
  (slotXor3 slots h0 h1 h2).map Slot.check

/-- The key passes the fingerprint test of a map that is not empty; in particular its positions are in
range. -/
structure MapOf.Passes (check : τ → (h0 h1 h2 : Nat) → Option UInt64) (m : MapOf τ) (K : KeyHash)
    (key : Bytes) : Prop where
  nonempty : m.dataLen ≠ 0
  check_eq : check m.table (m.pos (m.mixed K key) 0) (m.pos (m.mixed K key) 1)
    (m.pos (m.mixed K key) 2) = some (fingerprint (m.mixed K key))

/-- `fcm_get_h012` gives the two keys the same three positions. -/
def MapOf.SamePositions (m : MapOf τ) (K : KeyHash) (key key' : Bytes) : Prop :=
  getH012 (m.mixed K key) m.segmentLength m.segmentLengthMask m.segmentCountLength =
    getH012 (m.mixed K key') m.segmentLength m.segmentLengthMask m.segmentCountLength

/-- A lookup in the layout answers `FCM_NOT_FOUND` to a key that the check word does not confirm. -/
def Layout.Tests (Ly : Layout τ) (check : τ → (h0 h1 h2 : Nat) → Option UInt64) : Prop :=
  ∀ table h0 h1 h2 fp hash, check table h0 h1 h2 = some fp → fp ≠ fingerprint hash →
    Ly.get table h0 h1 h2 hash = some NOT_FOUND

theorem verifiedLayout_tests : verifiedLayout.Tests verifiedCheck := by
  intro table h0 h1 h2 fp hash hcheck hne
  have hx : xor3 table.checks h0 h1 h2 = some fp := hcheck
  simp only [verifiedLayout, hx, Option.bind_eq_bind, Option.bind_some]
  rw [if_pos hne]

theorem pairedLayout_tests : pairedLayout.Tests pairedCheck := by
  intro table h0 h1 h2 fp hash hcheck hne
  obtain ⟨r, hr, rfl⟩ := Option.map_eq_some_iff.mp hcheck
  simp only [pairedLayout, hr, Option.bind_eq_bind, Option.bind_some]
  rw [if_neg hne]

/-! ## One key hash for a check word -/

theorem MapOf.SamePositions.pos_eq (h : m.SamePositions K key key') (j : Fin 3) :
    m.pos (m.mixed K key) j = m.pos (m.mixed K key') j := by
  match j with
  | 0 => exact congrArg (fun h => h.1.toNat) h
  | 1 => exact congrArg (fun h => h.2.1.toNat) h
  | 2 => exact congrArg (fun h => h.2.2.toNat) h

theorem mixed_eq_iff : m.mixed K key = m.mixed K key' ↔
    hashKey K m.hash key = hashKey K m.hash key' :=
  (mixsplit_injective m.seed).eq_iff

variable {check : τ → (h0 h1 h2 : Nat) → Option UInt64}

/-- What the check word at the positions of a key that passes says of another key there. -/
theorem MapOf.Passes.check_same (h : m.Passes check K key) (hpos : m.SamePositions K key key') :
    check m.table (m.pos (m.mixed K key') 0) (m.pos (m.mixed K key') 1)
      (m.pos (m.mixed K key') 2) = some (fingerprint (m.mixed K key)) := by
  rw [← hpos.pos_eq, ← hpos.pos_eq, ← hpos.pos_eq]
  exact h.check_eq

theorem MapOf.Passes.hashKey_eq (h : m.Passes check K key) (h' : m.Passes check K key')
    (hpos : m.SamePositions K key key') : hashKey K m.hash key = hashKey K m.hash key' := by
  have heq := (h.check_same hpos).symm.trans h'.check_eq
  exact mixed_eq_iff.mp (fingerprint_injective (Option.some.inj heq))

theorem MapOf.Passes.lookup_other {Ly : Layout τ} (hLy : Ly.Tests check)
    (h : m.Passes check K key) (hpos : m.SamePositions K key key')
    (hne : hashKey K m.hash key ≠ hashKey K m.hash key') : lookup Ly K m key' = some NOT_FOUND := by
  have hfp : fingerprint (m.mixed K key) ≠ fingerprint (m.mixed K key') :=
    fingerprint_injective.ne (mixed_eq_iff.not.mpr hne)
  unfold lookup lookupWith
  rw [if_neg h.nonempty]
  exact hLy _ _ _ _ _ _ (h.check_same hpos) hfp

/-! ## Stored keys -/

section Stored

variable {E : Env} {H : Heap} {hash : UInt32} {entries : List (Bytes × UInt64)}

theorem dataLen_ne_zero_of_mem {Ly : Layout τ} {Rep : τ → Nat → (Nat → Slot) → Prop}
    {answer : Slot → UInt64 → UInt64} (hLy : Ly.Lawful Rep answer) (hlen : entries.length < 2 ^ 31)
    {out m : MapOf τ} (h : newWithHash Ly E H out entries hash = some (.ok, m))
    {e : Bytes × UInt64} (he : e ∈ entries) : m.dataLen ≠ 0 := by
  obtain ⟨-, ⟨rfl, -⟩ | ⟨-, q, S, table, hS, -, rfl⟩⟩ := newWithHash_ok hLy hlen h
  · exact absurd he List.not_mem_nil
  · exact hS.valid.arrayLen_ne_zero

/-- The keys of a built map pass the test. -/
theorem verified_entry_passes (hlen : entries.length < 2 ^ 31) {out vm : VerifiedConstMap}
    (h : verifiedConstmapNewWithHash E H out entries hash = some (.ok, vm)) {e : Bytes × UInt64}
    (he : e ∈ entries) : vm.Passes verifiedCheck E.keyHash e.1 :=
  ⟨dataLen_ne_zero_of_mem verifiedLayout_lawful hlen h he, checks_entry hlen h he⟩

theorem paired_entry_passes (hlen : entries.length < 2 ^ 31) {out pm : PairedVerifiedConstMap}
    (h : pairedVerifiedConstmapNewWithHash E H out entries hash = some (.ok, pm))
    {e : Bytes × UInt64} (he : e ∈ entries) : pm.Passes pairedCheck E.keyHash e.1 := by
  refine ⟨dataLen_ne_zero_of_mem pairedLayout_lawful hlen h he, ?_⟩
  show (slotXor3 _ _ _ _).map Slot.check = _
  rw [slots_entry hlen h he]
  rfl

end Stored

/-- A check word admits at most one key hash for three positions: in every verified or paired map that is
not empty, whatever its tables hold, two keys with the same positions that both pass the fingerprint
test have one key hash; so a key that shares its positions with a key that passes, in particular with a
stored one, but has another key hash, is not found. -/
theorem check_word_admits_one (K : KeyHash) (key key' : Bytes) :
    (∀ vm : VerifiedConstMap, vm.Passes verifiedCheck K key → vm.SamePositions K key key' →
      (vm.Passes verifiedCheck K key' → hashKey K vm.hash key = hashKey K vm.hash key') ∧
      (hashKey K vm.hash key ≠ hashKey K vm.hash key' →
        verifiedConstmapLookup K vm key' = some NOT_FOUND)) ∧
    (∀ pm : PairedVerifiedConstMap, pm.Passes pairedCheck K key → pm.SamePositions K key key' →
      (pm.Passes pairedCheck K key' → hashKey K pm.hash key = hashKey K pm.hash key') ∧
      (hashKey K pm.hash key ≠ hashKey K pm.hash key' →
        pairedVerifiedConstmapLookup K pm key' = some NOT_FOUND)) ∧
    ∀ (E : Env) (H : Heap) (hash : UInt32) (entries : List (Bytes × UInt64)), E.keyHash = K →
      entries.length ≤ 2 ^ 31 - 1 → (∃ v, (key, v) ∈ entries) →
      (∀ out vm, verifiedConstmapNewWithHash E H out entries hash = some (.ok, vm) →
        vm.Passes verifiedCheck K key) ∧
      ∀ out pm, pairedVerifiedConstmapNewWithHash E H out entries hash = some (.ok, pm) →
        pm.Passes pairedCheck K key := by
  refine ⟨?_, ?_, ?_⟩
  · intro vm h hpos
    exact ⟨fun h' => h.hashKey_eq h' hpos, h.lookup_other verifiedLayout_tests hpos⟩
  · intro pm h hpos
    exact ⟨fun h' => h.hashKey_eq h' hpos, h.lookup_other pairedLayout_tests hpos⟩
  · rintro E H hash entries rfl hlen ⟨v, hv⟩
    have hlt : entries.length < 2 ^ 31 := by omega
    exact ⟨fun out vm h => verified_entry_passes hlt h hv, fun out pm h => paired_entry_passes hlt h hv⟩

/-- Segments of one slot, where all keys have the same positions: the key `b` is not found. -/
theorem check_word_admits_one_three :
    let fp := fingerprint (mixsplit 0xd24ec4f1a98c6e5b 7)
    let vm : VerifiedConstMap := ⟨7, 1, 0, 1, 1, 3, 1, ⟨[5, 6, 8], [fp ^^^ 2, 3, 1]⟩, 0⟩
    verifiedConstmapLookup smallKeyHash vm [0x62] = some NOT_FOUND := by
  intro fp vm
  have hpass : vm.Passes verifiedCheck smallKeyHash [0x61] := ⟨by decide, by decide +kernel⟩
  have hpos : vm.SamePositions smallKeyHash [0x61] [0x62] := by
    unfold MapOf.SamePositions
    decide +kernel
  have hne : hashKey smallKeyHash vm.hash [0x61] ≠ hashKey smallKeyHash vm.hash [0x62] := by
    decide +kernel
  exact ((check_word_admits_one smallKeyHash [0x61] [0x62]).1 vm hpass hpos).2 hne

end FastConstMap
