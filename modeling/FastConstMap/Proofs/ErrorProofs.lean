import FastConstMap.Proofs.BuiltMapProofs

/-!
# Proofs: what a failed constructor leaves

A constructor checks the key hash before it writes to `*out`, and clears `*out` before anything else can
fail.
-/

namespace FastConstMap

variable {τ : Type} {Ly : Layout τ} {E : Env} {H : Heap} {out m : MapOf τ} {hash : UInt32}
  {entries : List (Bytes × UInt64)} {rc : Rc}

/-- With a known hash, a constructor that fails leaves the empty map. -/
theorem newWithHash_error (hknown : KnownHash hash) (hrc : rc ≠ .ok)
    (h : newWithHash Ly E H out entries hash = some (rc, m)) : m = Ly.emptyMap hash := by
  rcases Nat.eq_zero_or_pos entries.length with h0 | hpos
  · obtain rfl := List.length_eq_zero_iff.mp h0
    rw [newWithHash_nil hknown, Option.some.injEq, Prod.mk.injEq] at h
    exact h.2.symm
  by_cases hlen : entries.length < 2 ^ 32
  · rcases newWithHash_cases Ly E H out hknown hpos hlen with ⟨hnomem, -⟩ | ⟨o, st, -, herr, hok⟩
    · rw [hnomem, Option.some.injEq, Prod.mk.injEq] at h
      exact h.2.symm
    · by_cases ho : o.rc = .ok
      · obtain ⟨q, T, rfl⟩ := Outcome.ok_of_rc ho
        rw [(hok q T rfl).2] at h
        obtain ⟨table, -, htable⟩ := Option.map_eq_some_iff.mp h
        exact absurd (congrArg Prod.fst htable).symm hrc
      · rw [herr ho, Option.some.injEq, Prod.mk.injEq] at h
        exact h.2.symm
  · rw [newWithHash_of_le hknown out (not_lt.mp hlen), Option.some.injEq, Prod.mk.injEq] at h
    exact h.2.symm

/-- A failed call leaves `*out` alone when the hash is unknown, or when it had nothing to clear. -/
theorem newWithHash_error_eq_iff (hrc : rc ≠ .ok)
    (h : newWithHash Ly E H out entries hash = some (rc, m)) :
    m = out ↔ ¬ KnownHash hash ∨ out = Ly.emptyMap hash := by
  by_cases hknown : KnownHash hash
  · obtain rfl := newWithHash_error hknown hrc h
    simp only [hknown, not_true_eq_false, false_or]
    exact eq_comm
  · rw [newWithHash_unknown hknown, Option.some.injEq, Prod.mk.injEq] at h
    exact iff_of_true h.2.symm (Or.inl hknown)

/-- A constructor that fails leaves every field of `*out` as it was exactly when the hash is unknown, or
`*out` was the empty map with that hash. -/
theorem error_keeps_out_iff (E : Env) (H : Heap) (entries : List (Bytes × UInt64)) (hash : UInt32)
    (rc : Rc) (hrc : rc ≠ .ok) :
    (∀ out m, constmapNewWithHash E H out entries hash = some (rc, m) →
      (m = out ↔ ¬ KnownHash hash ∨ out = constmapLayout.emptyMap hash)) ∧
    (∀ out m, verifiedConstmapNewWithHash E H out entries hash = some (rc, m) →
      (m = out ↔ ¬ KnownHash hash ∨ out = verifiedLayout.emptyMap hash)) ∧
    ∀ out m, pairedVerifiedConstmapNewWithHash E H out entries hash = some (rc, m) →
      (m = out ↔ ¬ KnownHash hash ∨ out = pairedLayout.emptyMap hash) :=
  ⟨fun _ _ h => newWithHash_error_eq_iff hrc h, fun _ _ h => newWithHash_error_eq_iff hrc h,
    fun _ _ h => newWithHash_error_eq_iff hrc h⟩

/-- With a known hash the old content of `*out` is never read. -/
theorem newWithHash_out (hknown : KnownHash hash) (out out' : MapOf τ) :
    newWithHash Ly E H out entries hash = newWithHash Ly E H out' entries hash := by
  have hknown' : ¬ (hash ≠ HASH_XXH64 ∧ hash ≠ HASH_XXH3) := by
    rintro ⟨h1, h2⟩
    exact hknown.elim h1 h2
  unfold newWithHash
  rw [if_neg hknown', if_neg hknown']

theorem error_keeps_out_iff_unknown :
    ∃ m, constmapNewWithHash smallEnv smallHeap constmapLayout.zeroMap [([0x61], 100)] 7 =
        some (.invalidFormat, m) ∧ m = constmapLayout.zeroMap := by
  have hunknown : ¬ KnownHash 7 := by decide
  have h : constmapNewWithHash smallEnv smallHeap constmapLayout.zeroMap [([0x61], 100)] 7 =
      some (.invalidFormat, constmapLayout.zeroMap) := newWithHash_unknown hunknown _
  exact ⟨_, h, ((error_keeps_out_iff smallEnv smallHeap [([0x61], 100)] 7 .invalidFormat
    (by decide)).1 _ _ h).mpr (Or.inl hunknown)⟩

/-- A caller that holds a map of one key and passes it to a constructor with one key given twice is left
with the empty map. -/
theorem failed_construction_clears_out :
    ∃ out, constmapNewWithHash smallEnv smallHeap constmapLayout.zeroMap [([0x61], 100)]
        HASH_XXH64 = some (.ok, out) ∧
      constmapNewWithHash smallEnv smallHeap out [([0x61], 1), ([0x61], 2)] HASH_XXH64 =
        some (.duplicateKey, constmapLayout.emptyMap HASH_XXH64) ∧
      out ≠ constmapLayout.emptyMap HASH_XXH64 := by
  have hlive : (constmapNewWithHash smallEnv smallHeap constmapLayout.zeroMap [([0x61], 100)]
      HASH_XXH64).map (fun r => (r.1, r.2.n)) = some (.ok, 1) := by decide +kernel
  obtain ⟨⟨rc, out⟩, hout, hr⟩ := Option.map_eq_some_iff.mp hlive
  obtain ⟨rfl, hn⟩ := Prod.mk.inj hr
  refine ⟨out, hout, ?_, ?_⟩
  · have hfail : constmapNewWithHash smallEnv smallHeap constmapLayout.zeroMap
        [([0x61], 1), ([0x61], 2)] HASH_XXH64 =
          some (.duplicateKey, constmapLayout.emptyMap HASH_XXH64) := by decide +kernel
    exact (newWithHash_out (Or.inl rfl) out _).trans hfail
  · rintro rfl
    exact absurd hn (by decide)

end FastConstMap
