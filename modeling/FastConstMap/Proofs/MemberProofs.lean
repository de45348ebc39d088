import FastConstMap.Proofs.CollisionProofs
import FastConstMap.Proofs.DuplicateProofs
import FastConstMap.Proofs.HostProofs

/-!
# Proofs: members and impostors

What the vendored hashes mean for the maps: sets of short keys are not mistaken for duplicates, and for
every stored key there are other ones that the verified maps answer as that key.
-/

namespace FastConstMap

open Words

variable {τ : Type}

/-! ## Short keys -/

/-- The lengths at which a hash keeps all keys apart. -/
def KeepsApart (hash : UInt32) (n : Nat) : Prop :=
  (hash = HASH_XXH64 ∧ (n = 1 ∨ n = 4 ∨ n = 8)) ∨ (hash = HASH_XXH3 ∧ n ≤ 8)

theorem xxh64_ne (X : Host) {x y : Bytes} (hxy : x.length = y.length)
    (hpiece : Xxh64.Piece x.length 0 x.length) (hne : x ≠ y) :
    X.keyHash.xxh64 x ≠ X.keyHash.xxh64 y := by
  have hvalue := Xxh64.value_ne (a := []) (b := []) 0 hxy hne
  simp only [List.nil_append, List.append_nil] at hvalue
  intro heq
  have hx := X.hashKeyXxh64_keyHash x
  have hy := X.hashKeyXxh64_keyHash y
  rw [hashKeyXxh64_eq] at hx hy
  exact hvalue hpiece ((Option.some.inj hx).trans (heq.trans (Option.some.inj hy).symm))

theorem xxh3_ne (X : Host) {x y : Bytes} (hxy : x.length = y.length) (h8 : x.length ≤ 8)
    (hne : x ≠ y) : X.keyHash.xxh3 x ≠ X.keyHash.xxh3 y := by
  intro heq
  refine Xxh3.bits64Internal_ne X.xxh 0
    (show 136 ≤ Xxh3.kSecret.length by rw [Xxh3.length_kSecret]; decide) hxy h8 hne ?_
  have hx := X.hashKeyXxh3_keyHash x
  rw [heq, ← X.hashKeyXxh3_keyHash y] at hx
  exact hx

theorem KeepsApart.hashKey_ne {hash : UInt32} {n : Nat} (h : KeepsApart hash n) (X : Host)
    {x y : Bytes} (hx : x.length = n) (hy : y.length = n) (hne : x ≠ y) :
    hashKey X.keyHash hash x ≠ hashKey X.keyHash hash y := by
  subst hx
  rcases h with ⟨rfl, hn⟩ | ⟨rfl, hn⟩
  · have hpiece : Xxh64.Piece x.length 0 x.length := by
      rcases hn with hn | hn | hn <;> rw [hn, Xxh64.Piece] <;> decide
    exact xxh64_ne X hy.symm hpiece hne
  · exact xxh3_ne X hy.symm hn hne

section Constructors

variable {X : Host} {E : Env} {H : Heap} {hash : UInt32} {entries : List (Bytes × UInt64)}

theorem KeepsApart.nodup_hashed {n : Nat} (h : KeepsApart hash n) (hE : E.keyHash = X.keyHash)
    (hlen : ∀ e ∈ entries, e.1.length = n) (hdistinct : (entries.map Prod.fst).Nodup) :
    (E.hashed hash entries).Nodup := by
  refine nodup_hashed_of_distinct ?_
  have hkeys : entries.Pairwise fun e e' => e.1 ≠ e'.1 := List.pairwise_map.mp hdistinct
  refine hkeys.imp_of_mem ?_
  intro e e' he he' hne
  rw [hE]
  exact h.hashKey_ne X (hlen e he) (hlen e' he') hne

/-- Up to 65 distinct key hashes are never reported as duplicates. -/
theorem newWithHash_ne_duplicateKey (Ly : Layout τ) (hnodup : (E.hashed hash entries).Nodup)
    (hcount : entries.length ≤ 65) {out m : MapOf τ} :
    newWithHash Ly E H out entries hash ≠ some (.duplicateKey, m) := by
  intro h
  obtain ⟨-, -, hsearch⟩ :=
    (newWithHash_duplicateKey_iff Ly E hash entries (by omega)).mp ⟨H, out, m, h⟩
  obtain ⟨k, -, halarm, -⟩ := (search_duplicateKey_iff_alarm
    (initParams_initial E.libm (UInt32.ofNat entries.length)) _ hnodup).mp hsearch
  have hle := halarm.length_le
  rw [Env.hashed, List.length_map] at hle
  omega

end Constructors

/-- On up to 65 distinct keys, all of one length that the hash keeps apart, no constructor reports a
duplicate, on any host. -/
theorem short_keys_not_duplicate (X : Host) (E : Env) (hE : E.keyHash = X.keyHash) (hash : UInt32)
    (n : Nat) (hn : KeepsApart hash n) (entries : List (Bytes × UInt64))
    (hlen : ∀ e ∈ entries, e.1.length = n) (hdistinct : (entries.map Prod.fst).Nodup)
    (hcount : entries.length ≤ 65) :
    (∀ H out m, constmapNewWithHash E H out entries hash ≠ some (.duplicateKey, m)) ∧
    (∀ H out m, verifiedConstmapNewWithHash E H out entries hash ≠ some (.duplicateKey, m)) ∧
    ∀ H out m, pairedVerifiedConstmapNewWithHash E H out entries hash ≠ some (.duplicateKey, m) := by
  have hnodup := hn.nodup_hashed hE hlen hdistinct
  exact ⟨fun _ _ _ => newWithHash_ne_duplicateKey constmapLayout hnodup hcount,
    fun _ _ _ => newWithHash_ne_duplicateKey verifiedLayout hnodup hcount,
    fun _ _ _ => newWithHash_ne_duplicateKey pairedLayout hnodup hcount⟩

/-- Two keys of 5 bytes under XXH3. -/
theorem short_keys_not_duplicate_two :
    constmapNewWithHash { smallEnv with keyHash := Host.x86.keyHash } smallHeap constmapLayout.zeroMap
      [([1, 2, 3, 4, 5], 100), ([1, 2, 3, 4, 6], 200)] HASH_XXH3 ≠
        some (.duplicateKey, constmapLayout.zeroMap) :=
  (short_keys_not_duplicate Host.x86 { smallEnv with keyHash := Host.x86.keyHash } rfl HASH_XXH3 5
    (Or.inr ⟨rfl, by decide⟩) [([1, 2, 3, 4, 5], 100), ([1, 2, 3, 4, 6], 200)] (by decide) (by decide)
    (by decide)).1 smallHeap constmapLayout.zeroMap constmapLayout.zeroMap

/-! ## Impostors -/

/-- Where 8 free bytes between `a` and `b` give every hash. -/
def Fillable (hash : UInt32) (a b : Bytes) : Prop :=
  (hash = HASH_XXH64 ∧ 8 ∣ a.length ∧ (a.length + 8 + b.length) / 32 * 32 ≤ a.length) ∨
    (hash = HASH_XXH3 ∧ a = [] ∧ b = [])

/-- What keeps keys of 8 bytes apart takes on every hash there. -/
theorem exists_word {f : Bytes → UInt64}
    (hf : ∀ x y, x.length = 8 → y.length = 8 → x ≠ y → f x ≠ f y) (h : UInt64) :
    ∃ x, x.length = 8 ∧ f x = h := by
  have hinj : Function.Injective fun w => f (writeU64 w) := by
    intro v w heq
    by_contra hne
    exact hf _ _ (length_writeU64 v) (length_writeU64 w) (writeU64_injective.ne hne) heq
  obtain ⟨w, hw⟩ := surjective_of_injective hinj h
  exact ⟨writeU64 w, length_writeU64 w, hw⟩

theorem Fillable.exists_key {hash : UInt32} {a b : Bytes} (h : Fillable hash a b) (X : Host)
    (v : UInt64) : ∃ x : Bytes, x.length = 8 ∧ hashKey X.keyHash hash (a ++ (x ++ b)) = v := by
  rcases h with ⟨rfl, hdvd, hfit⟩ | ⟨rfl, rfl, rfl⟩
  · refine exists_word (f := fun x => X.keyHash.xxh64 (a ++ (x ++ b))) ?_ v
    intro x y hx hy hne heq
    have hpiece : Xxh64.Piece (a ++ (x ++ b)).length a.length x.length := by
      rw [List.length_append, List.length_append, hx, ← Nat.add_assoc]
      exact Or.inl ⟨rfl, hfit, Nat.mod_eq_zero_of_dvd hdvd, by omega⟩
    have hvx := X.hashKeyXxh64_keyHash (a ++ (x ++ b))
    have hvy := X.hashKeyXxh64_keyHash (a ++ (y ++ b))
    rw [hashKeyXxh64_eq] at hvx hvy
    exact Xxh64.value_ne 0 (hx.trans hy.symm) hne hpiece
      ((Option.some.inj hvx).trans (heq.trans (Option.some.inj hvy).symm))
  · refine exists_word (f := fun x => X.keyHash.xxh3 ([] ++ (x ++ []))) ?_ v
    intro x y hx hy hne
    simp only [List.nil_append, List.append_nil]
    exact xxh3_ne X (hx.trans hy.symm) hx.le hne

/-- A stored key that is not made of `a`, 8 bytes and `b` shares its hash, and its answer, with a key that
is, and that is not stored. -/
theorem exists_impostor {Ly : Layout τ} {Rep : τ → Nat → (Nat → Slot) → Prop}
    {answer : Slot → UInt64 → UInt64} (hLy : Ly.Lawful Rep answer) {X : Host} {E : Env}
    (hE : E.keyHash = X.keyHash) {H : Heap} {out m : MapOf τ} {hash : UInt32}
    {entries : List (Bytes × UInt64)} (hlen : entries.length < 2 ^ 31)
    (hnew : newWithHash Ly E H out entries hash = some (.ok, m)) {a b : Bytes}
    (hfill : Fillable hash a b) {e : Bytes × UInt64} (he : e ∈ entries)
    (hother : ∀ x : Bytes, x.length = 8 → a ++ (x ++ b) ≠ e.1) :
    ∃ x : Bytes, x.length = 8 ∧ a ++ (x ++ b) ∉ entries.map Prod.fst ∧
      lookupWith X.code Ly m (a ++ (x ++ b)) = some e.2 := by
  obtain ⟨x, hx, hkey⟩ := hfill.exists_key X (hashKey X.keyHash hash e.1)
  refine ⟨x, hx, ?_, ?_⟩
  · -- Two stored keys with one hash are one key.
    intro hmem
    obtain ⟨e', he', hfst⟩ := List.mem_map.mp hmem
    obtain ⟨i, hi⟩ := List.mem_iff_getElem?.mp he
    obtain ⟨j, hj⟩ := List.mem_iff_getElem?.mp he'
    have hij : i ≠ j := by
      rintro rfl
      rw [hi] at hj
      exact hother x hx (hfst ▸ congrArg Prod.fst (Option.some.inj hj).symm)
    refine not_nodup_of_collision hij hi hj ?_ (nodup_of_newWithHash hnew)
    rw [hE, hfst, hkey]
  · have hstored := lookup_entry hLy hlen hnew he
    obtain ⟨-, ⟨rfl, -⟩ | ⟨-, q, S, table, hS, hrep, rfl⟩⟩ := newWithHash_ok hLy hlen hnew
    · exact absurd he List.not_mem_nil
    · rw [hE, lookup_toMap hLy hS.valid hrep] at hstored
      rw [Host.lookup_eq, lookup_toMap hLy hS.valid hrep, hkey]
      exact hstored

/-- A verified answer does not prove that the key is stored: in every map that a constructor builds, and for
every stored key and any `a` and `b` with room for 8 bytes that decide the hash, these can be chosen such
that the three together are a key that is not stored and that has the answer of the stored one, unless
the stored key itself is made so of `a` and `b`. -/
theorem impostor_answered (X : Host) (E : Env) (hE : E.keyHash = X.keyHash) (H : Heap) (hash : UInt32)
    (entries : List (Bytes × UInt64)) (hlen : entries.length < 2 ^ 31) (a b : Bytes)
    (hfill : Fillable hash a b) :
    (∀ out vm, verifiedConstmapNewWithHash E H out entries hash = some (.ok, vm) → ∀ e ∈ entries,
      (∀ x : Bytes, x.length = 8 → a ++ (x ++ b) ≠ e.1) →
      ∃ x : Bytes, x.length = 8 ∧ a ++ (x ++ b) ∉ entries.map Prod.fst ∧
        X.verifiedConstmapLookup vm (a ++ (x ++ b)) = some e.2) ∧
    ∀ out pm, pairedVerifiedConstmapNewWithHash E H out entries hash = some (.ok, pm) → ∀ e ∈ entries,
      (∀ x : Bytes, x.length = 8 → a ++ (x ++ b) ≠ e.1) →
      ∃ x : Bytes, x.length = 8 ∧ a ++ (x ++ b) ∉ entries.map Prod.fst ∧
        X.pairedVerifiedConstmapLookup pm (a ++ (x ++ b)) = some e.2 := by
  refine ⟨?_, ?_⟩
  · intro out vm hnew e he hother
    exact exists_impostor verifiedLayout_lawful hE hlen hnew hfill he hother
  · intro out pm hnew e he hother
    rw [show X.pairedVerifiedConstmapLookup pm = lookupWith X.code pairedLayout pm by
      rw [← pairedLayoutOn_eq X.slots]; rfl]
    exact exists_impostor pairedLayout_lawful hE hlen hnew hfill he hother

/-- A key of 8 bytes that is not stored, with the answer of a stored key of one byte. -/
theorem impostor_answered_one : ∃ vm,
    verifiedConstmapNewWithHash { smallEnv with keyHash := Host.x86.keyHash } smallHeap
      verifiedLayout.zeroMap [([0x61], 100)] HASH_XXH64 = some (.ok, vm) ∧
    ∃ x : Bytes, x.length = 8 ∧ [] ++ (x ++ []) ∉ [([0x61], (100 : UInt64))].map Prod.fst ∧
      Host.x86.verifiedConstmapLookup vm ([] ++ (x ++ [])) = some 100 := by
  obtain ⟨vm, hvm⟩ := exists_ok (x := verifiedConstmapNewWithHash
    { smallEnv with keyHash := Host.x86.keyHash } smallHeap verifiedLayout.zeroMap [([0x61], 100)]
    HASH_XXH64) (by decide +kernel)
  refine ⟨vm, hvm, (impostor_answered Host.x86 { smallEnv with keyHash := Host.x86.keyHash } rfl
    smallHeap HASH_XXH64 [([0x61], 100)] (by decide) [] [] (Or.inl ⟨rfl, by decide, by decide⟩)).1 _ vm
    hvm ([0x61], 100) (List.mem_singleton.mpr rfl) ?_⟩
  intro x hx heq
  rw [List.nil_append, List.append_nil] at heq
  rw [heq] at hx
  exact absurd hx (by decide)

end FastConstMap
