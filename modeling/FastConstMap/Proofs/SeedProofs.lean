import FastConstMap.Proofs.BuiltMapProofs
import FastConstMap.Proofs.RetryProofs

/-!
# Proofs: the seeds of the attempts

The counter of `fcm_splitmix64` takes all values before it comes back, and the outputs differ where the
counters do. So no two attempts mix a key alike, and the seed in a map tells which attempt built it.
-/

namespace FastConstMap

open Words

/-! ## The generator -/

/-- The seed that attempt `k` draws. -/
def seedAt (k : Nat) : UInt64 := (splitmix64 (rngAt k)).1

theorem rngAt_eq (k : Nat) : rngAt k = 1 + UInt64.ofNat k * 0x9E3779B97F4A7C15 := by
  induction k with
  | zero => rfl
  | succ k ih =>
    show rngAt k + 0x9E3779B97F4A7C15 = _
    rw [ih, UInt64.ofNat_add, UInt64.add_mul, UInt64.add_assoc]
    rfl

/-- The counter comes back after `2 ^ 64` draws and not before: its step is odd. -/
theorem rngAt_eq_iff (i j : Nat) : rngAt i = rngAt j ↔ i % 2 ^ 64 = j % 2 ^ 64 := by
  have hodd : (0x9E3779B97F4A7C15 : UInt64) * 0xf1de83e19937733d = 1 := by decide
  rw [rngAt_eq, rngAt_eq, UInt64.add_right_inj, (mul_injective hodd).eq_iff, ← UInt64.toNat_inj,
    UInt64.toNat_ofNat', UInt64.toNat_ofNat']

/-- The output of the generator, one step after the other, can be undone. -/
theorem splitmix64_injective : Function.Injective fun state => (splitmix64 state).1 := by
  intro x y h
  have h30 : Function.Injective fun z : UInt64 => z ^^^ (z >>> 30) :=
    xorShift_injective (by decide) (by decide)
  have h27 : Function.Injective fun z : UInt64 => z ^^^ (z >>> 27) :=
    xorShift_injective (by decide) (by decide)
  have h31 : Function.Injective fun z : UInt64 => z ^^^ (z >>> 31) :=
    xorShift_injective (by decide) (by decide)
  have hmul1 : (0xBF58476D1CE4E5B9 : UInt64) * 0x96de1b173f119089 = 1 := by decide
  have hmul2 : (0x94D049BB133111EB : UInt64) * 0x319642b2d24d8ec3 = 1 := by decide
  have hlast := mul_injective hmul2 (h31 h)
  have hfirst := mul_injective hmul1 (h27 hlast)
  exact (UInt64.add_left_inj _).mp (h30 hfirst)

theorem seedAt_eq_iff (i j : Nat) : seedAt i = seedAt j ↔ i % 2 ^ 64 = j % 2 ^ 64 :=
  splitmix64_injective.eq_iff.trans (rngAt_eq_iff i j)

/-- A key mixes apart under different seeds, as different keys do under one. -/
theorem mixsplit_seed_injective (a : UInt64) : Function.Injective (mixsplit a) := by
  intro s t h
  have heq := congrArg unmurmur64 h
  simp only [mixsplit, unmurmur64_murmur64] at heq
  exact (UInt64.add_right_inj _).mp heq

/-! ## The attempt that built a map -/

/-- A search that succeeds ends with its first attempt that does not fail. -/
theorem search_eq_ok {p q : Params} {size : UInt32} {hashed : List UInt64}
    {T : List (UInt64 × UInt8)} (hp : p.Initial) (h : search p size hashed = some (.ok q T)) :
    ∃ k, k ≤ MAX_ITERATIONS ∧ q = p.ofAttempt size k ∧
      ∀ i, i < k → attempt (p.ofAttempt size i) hashed = some .failed := by
  rcases search_cases hp size hashed with hall | ⟨k, r, hk, hfail, hr, hne⟩
  · rw [search_of_failed hall] at h
    simp at h
  · rw [search_of_first hk hfail hr hne, Option.some.injEq] at h
    cases r with
    | duplicate => simp [Attempt.outcome] at h
    | failed => exact absurd rfl hne
    | peeled T =>
      injection h with hq
      exact ⟨k, hk, hq.symm, hfail⟩

variable {τ : Type}

/-- The search behind a map that was built. -/
theorem search_of_newWithHash {Ly : Layout τ} {E : Env} {H : Heap} {out m : MapOf τ} {hash : UInt32}
    {entries : List (Bytes × UInt64)} (hpos : 0 < entries.length)
    (h : newWithHash Ly E H out entries hash = some (.ok, m)) :
    ∃ q T, search (initParams E.libm (UInt32.ofNat entries.length)) (UInt32.ofNat entries.length)
        (E.hashed hash entries) = some (.ok q T) ∧
      m = q.toMap (UInt32.ofNat entries.length) hash m.table := by
  obtain ⟨hknown, ⟨rfl, -⟩ | ⟨-, hlen, -⟩⟩ := newWithHash_ok_cases h
  · exact absurd hpos (Nat.lt_irrefl 0)
  rcases newWithHash_cases Ly E H out hknown hpos hlen with ⟨hnomem, -⟩ | ⟨o, st, hs, herr, hok⟩
  · rw [hnomem] at h
    simp at h
  cases o with
  | duplicateKey =>
    rw [herr (by simp [Outcome.rc])] at h
    simp [Outcome.rc] at h
  | constructFail =>
    rw [herr (by simp [Outcome.rc])] at h
    simp [Outcome.rc] at h
  | ok q T =>
    rw [(hok q T rfl).2] at h
    obtain ⟨table, -, htable⟩ := Option.map_eq_some_iff.mp h
    injection htable with _ hm
    exact ⟨q, T, hs, by rw [← hm]; rfl⟩

/-- The seed in a map that a constructor built from at least one entry tells the attempt that built it:
the map has the segments of this attempt, all attempts before it failed, and none of them mixed any
key hash as the map does. -/
theorem seed_tells_attempt (Ly : Layout τ) (E : Env) (H : Heap) (out m : MapOf τ) (hash : UInt32)
    (entries : List (Bytes × UInt64)) (hpos : 0 < entries.length)
    (h : newWithHash Ly E H out entries hash = some (.ok, m)) :
    let size := UInt32.ofNat entries.length
    let p := initParams E.libm size
    ∃ k, k ≤ MAX_ITERATIONS ∧ m = (p.ofAttempt size k).toMap size hash m.table ∧
      (∀ i, i < 2 ^ 64 → ((p.ofAttempt size i).seed = m.seed ↔ i = k)) ∧
      ∀ i, i < k → attempt (p.ofAttempt size i) (E.hashed hash entries) = some .failed ∧
        ∀ a, mixsplit a (p.ofAttempt size i).seed ≠ mixsplit a m.seed := by
  intro size p
  obtain ⟨q, T, hsearch, hm⟩ := search_of_newWithHash hpos h
  obtain ⟨k, hk, rfl, hfail⟩ := search_eq_ok (initParams_initial E.libm size) hsearch
  have hseed : m.seed = seedAt k := congrArg MapOf.seed hm
  have hk64 : k < 2 ^ 64 := by
    have hmax : MAX_ITERATIONS < 2 ^ 64 := by decide
    omega
  have htell : ∀ i, i < 2 ^ 64 → (seedAt i = m.seed ↔ i = k) := by
    intro i hi
    rw [hseed, seedAt_eq_iff, Nat.mod_eq_of_lt hi, Nat.mod_eq_of_lt hk64]
  refine ⟨k, hk, hm, htell, ?_⟩
  intro i hi
  refine ⟨hfail i hi, ?_⟩
  intro a hmix
  have hik := (htell i (hi.trans hk64)).mp (mixsplit_seed_injective a hmix)
  omega

/-- A map of two keys. -/
theorem seed_tells_attempt_two : ∃ m k, k ≤ MAX_ITERATIONS ∧
    constmapNewWithHash smallEnv smallHeap constmapLayout.zeroMap [([0x61], 100), ([0x62], 200)]
      HASH_XXH64 = some (.ok, m) ∧ seedAt k = m.seed := by
  obtain ⟨m, h⟩ : ∃ m, constmapNewWithHash smallEnv smallHeap constmapLayout.zeroMap
      [([0x61], 100), ([0x62], 200)] HASH_XXH64 = some (.ok, m) := exists_ok (by decide +kernel)
  obtain ⟨k, hk, -, htell, -⟩ := seed_tells_attempt constmapLayout smallEnv smallHeap _ m HASH_XXH64 _
    (by decide) h
  have hmax : MAX_ITERATIONS < 2 ^ 64 := by decide
  exact ⟨m, k, hk, h, (htell k (hk.trans_lt hmax)).mpr rfl⟩

end FastConstMap
