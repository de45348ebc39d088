import FastConstMap.Proofs.KeyProofs
import FastConstMap.Proofs.RetryProofs

/-!
# Proofs: equal hashes, and the duplicate report

Two entries with one key hash never get a map: no slot of theirs ever looks like a slot of one hash.
Distinct hashes get none either when the counting loop takes a crowded slot for one that holds one hash
twice, which is when a counter that has wrapped shows 2.
-/

namespace FastConstMap

open CLoop Peeling

variable {p q : Params} {hashed : List UInt64}

/-! ## Equal hashes -/

/-- An attempt only succeeds on distinct hashes. -/
theorem nodup_of_attempt (hq : q.Valid) (h2 : 2 ≤ q.segmentLength.toNat) {T : List (UInt64 × UInt8)}
    (h : attempt q hashed = some (.peeled T)) : hashed.Nodup := by
  obtain ⟨r, hr, hspec⟩ := attempt_spec hq h2 hashed
  obtain rfl := Option.some.inj (h.symm.trans hr)
  obtain ⟨S, -, helim, hperm⟩ := hspec T rfl
  exact List.Nodup.of_map _ (hperm.nodup_iff.mp helim.nodup)

section Construct

variable {τ : Type} {Ly : Layout τ} {E : Env} {H : Heap} {out m : MapOf τ} {hash : UInt32}
  {entries : List (Bytes × UInt64)}

/-- A constructor only succeeds on distinct key hashes. -/
theorem nodup_of_newWithHash (h : newWithHash Ly E H out entries hash = some (.ok, m)) :
    (E.hashed hash entries).Nodup := by
  obtain ⟨-, ⟨rfl, -⟩ | ⟨-, -, q, S, -, -, hS, -⟩⟩ := newWithHash_ok_cases h
  · exact List.nodup_nil
  · exact List.Nodup.of_map _ (hS.perm.nodup_iff.mp hS.elim.nodup)

/-- Two entries with one key hash. -/
theorem not_nodup_of_collision {i j : Nat} {e e' : Bytes × UInt64} (hij : i ≠ j)
    (hi : entries[i]? = some e) (hj : entries[j]? = some e')
    (heq : hashKey E.keyHash hash e.1 = hashKey E.keyHash hash e'.1) :
    ¬ (E.hashed hash entries).Nodup := by
  intro hnodup
  have hget : (E.hashed hash entries)[i]? = (E.hashed hash entries)[j]? := by
    rw [Env.hashed, List.getElem?_map, List.getElem?_map, hi, hj, Option.map_some, Option.map_some,
      heq]
  have hlt : i < (E.hashed hash entries).length := by
    rw [Env.hashed, List.length_map]
    exact (List.getElem?_eq_some_iff.mp hi).1
  exact hij (List.getElem?_inj hlt hnodup |>.mp hget)

end Construct

/-- With two entries that share a key hash no constructor succeeds, and no attempt does, whatever its
seed, with the initial segment length or half of it. -/
theorem colliding_not_accepted (E : Env) (hash : UInt32) (entries : List (Bytes × UInt64))
    (i j : Nat) (e e' : Bytes × UInt64) (hij : i ≠ j) (hi : entries[i]? = some e)
    (hj : entries[j]? = some e')
    (heq : hashKey E.keyHash hash e.1 = hashKey E.keyHash hash e'.1) :
    (∀ H out m, constmapNewWithHash E H out entries hash ≠ some (.ok, m)) ∧
    (∀ H out m, verifiedConstmapNewWithHash E H out entries hash ≠ some (.ok, m)) ∧
    (∀ H out m, pairedVerifiedConstmapNewWithHash E H out entries hash ≠ some (.ok, m)) ∧
    (entries.length ≤ 0xFFFFFFFF →
      let size := UInt32.ofNat entries.length
      let p := initParams E.libm size
      ∀ (q : Params) (seed : UInt64), q = p.withSeed seed ∨ q = p.halve.withSeed seed →
        ∀ (H : Heap) (s : Scratch), s.Fits q size → ∃ st,
          attemptRun H (E.hashed hash entries) size q s = some (.ret .nomem st) ∨
          attemptRun H (E.hashed hash entries) size q s = some (.ret .duplicateKey st) ∨
          attemptRun H (E.hashed hash entries) size q s = some (.again st)) := by
  have hnot := not_nodup_of_collision hij hi hj heq
  refine ⟨fun _ _ _ h => hnot (nodup_of_newWithHash h), fun _ _ _ h => hnot (nodup_of_newWithHash h),
    fun _ _ _ h => hnot (nodup_of_newWithHash h), ?_⟩
  intro hlen size p q seed hq H s hs
  have hp : p.Initial := initParams_initial E.libm size
  have hvalid : q.Valid ∧ 2 ≤ q.segmentLength.toNat := by
    rcases hq with rfl | rfl
    · exact ⟨hp.valid, hp.two_le⟩
    · exact ⟨hp.halve_valid, hp.two_le_halve⟩
  have hlenh : (E.hashed hash entries).length = size.toNat := by
    rw [Env.hashed, List.length_map, UInt32.toNat_ofNat', Nat.mod_eq_of_lt (by omega)]
  rcases attemptRun_spec hvalid.1 hvalid.2 hlenh H hs with ⟨st, hrun, -⟩ | ⟨r, f, hr, hrun, hf⟩
  · exact ⟨st, Or.inl hrun⟩
  · obtain ⟨st, rfl | rfl | rfl⟩ := hf.cases
    · obtain ⟨T, rfl, -⟩ := hf.peeled_of_ret
      exact absurd (nodup_of_attempt hvalid.1 hvalid.2 hr) hnot
    · exact ⟨st, Or.inr (Or.inl hrun)⟩
    · exact ⟨st, Or.inr (Or.inr hrun)⟩

/-- One key with two values. -/
theorem colliding_not_accepted_two :
    let entries : List (Bytes × UInt64) := [([0x61], 1), ([0x61], 2)]
    (∀ H out m, constmapNewWithHash smallEnv H out entries HASH_XXH64 ≠ some (.ok, m)) ∧
      (∀ H out m, verifiedConstmapNewWithHash smallEnv H out entries HASH_XXH64 ≠ some (.ok, m)) ∧
      ∀ H out m, pairedVerifiedConstmapNewWithHash smallEnv H out entries HASH_XXH64 ≠
        some (.ok, m) := by
  intro entries
  obtain ⟨h1, h2, h3, -⟩ := colliding_not_accepted smallEnv HASH_XXH64 entries 0 1 ([0x61], 1)
    ([0x61], 2) (by decide) rfl rfl rfl
  exact ⟨h1, h2, h3⟩

/-! ## The duplicate test -/

/-- The counting loop reports a duplicate exactly when the test fires for some hash, the hashes before
it having been counted. -/
theorem countAll_duplicate_iff (hp : p.Valid) (l : List UInt64) {R : List UInt64} {c c' : Counts}
    (h : Tallied p R c.t2count c.t2hash) (hdup : c.duplicate = false)
    (hc' : countAll p l c = some c') :
    c'.duplicate = true ↔ ∃ before hash after, l = before ++ hash :: after ∧
      p.DupTest (hash :: (before.reverse ++ R)) hash := by
  induction l generalizing R c with
  | nil =>
    obtain rfl := Option.some.inj hc'
    simp [hdup]
  | cons hash rest ih =>
    obtain ⟨c1, h1, ht, hflags⟩ := countOne_spec hp h hash
    have hcons : countAll p (hash :: rest) c =
        if c1.duplicate then some c1 else countAll p rest c1 := by
      simp only [countAll, h1, Option.bind_eq_bind, Option.bind_some]
    rw [hcons] at hc'
    rcases hflags with ⟨hd, htest⟩ | ⟨hd, htest, -⟩
    · rw [if_pos hd] at hc'
      obtain rfl := Option.some.inj hc'
      exact ⟨fun _ => ⟨[], hash, rest, rfl, htest⟩, fun _ => hd⟩
    · rw [hdup] at hd
      rw [hd, if_neg Bool.false_ne_true] at hc'
      rw [ih ht hd hc']
      constructor
      · rintro ⟨before, hash', after, rfl, htest'⟩
        exact ⟨hash :: before, hash', after, rfl, by simpa using htest'⟩
      · rintro ⟨before, hash', after, heq, htest'⟩
        cases before with
        | nil =>
          obtain ⟨rfl, rfl⟩ := List.cons.inj heq
          exact absurd htest' htest
        | cons b before =>
          obtain ⟨rfl, rfl⟩ := List.cons.inj heq
          exact ⟨before, hash', after, rfl, by simpa using htest'⟩

/-- The slot `s` looks as if it held one hash twice, though it has 66 of the hashes `R` or more: their
number is 2 modulo 64, and both they and their position numbers cancel out. -/
structure Params.Disguised (p : Params) (R : List UInt64) (s : Nat) : Prop where
  crowded : 66 ≤ p.deg R s
  count : p.deg R s % 64 = 2
  hashes : p.xorAt R s = 0
  numbers : p.bitsAt R s = 0

/-- Some slot looks so at some time, when the hashes are counted in the given order. -/
def Params.FalseAlarm (p : Params) (order : List UInt64) : Prop :=
  ∃ counted rest s, order = counted ++ rest ∧ p.Disguised counted s

/-- A counter that shows two hashes at position numbers that cancel out. -/
theorem counter_eq_eight (R : List UInt64) (s : Nat) :
    p.counter R s = 8 ↔ p.deg R s % 64 = 2 ∧ p.bitsAt R s = 0 := by
  constructor
  · intro h
    rw [← counter_div, ← counter_and_three, h]
    decide
  · rintro ⟨hd, hb⟩
    unfold Params.counter
    rw [hb, UInt8.xor_zero]
    apply UInt8.toNat_inj.mp
    rw [UInt8.toNat_ofNat', show (8 : UInt8).toNat = 8 from rfl]
    omega

/-- Two distinct hashes do not cancel out. -/
theorem deg_ne_two (hp : p.Valid) {R : List UInt64} (hnodup : R.Nodup) {s : Nat}
    (hx : p.xorAt R s = 0) : p.deg R s ≠ 2 := by
  intro h2
  obtain ⟨a, i, R1, hR, rfl, h1⟩ := exists_of_degree_succ h2
  obtain ⟨b, j, R2, hR1, hj, h0⟩ := exists_of_degree_succ h1
  have hperm := hR.trans (hR1.cons a)
  have hzero : p.xorAt R2 (p.pos a i) = 0 := tally_of_untouched (degree_eq_zero.mp h0)
  rw [xorAt_perm hperm, xorAt_cons_pos hp, ← hj, xorAt_cons_pos hp, hj, hzero, UInt64.zero_xor] at hx
  have hab : b = a := by
    have hxor := congrArg (· ^^^ a) hx
    simpa [UInt64.xor_assoc] using hxor
  subst hab
  exact (List.nodup_cons.mp (hperm.nodup_iff.mp hnodup)).1 (List.mem_cons_self ..)

/-- On distinct hashes the test only fires by such a slot. -/
theorem dupTest_iff (hp : p.Valid) {R : List UInt64} (hnodup : R.Nodup) (hash : UInt64) :
    p.DupTest R hash ↔ ∃ j, p.Disguised R (p.pos hash j) := by
  unfold Params.DupTest
  simp only [counter_eq_eight]
  constructor
  · rintro ⟨-, j, hx, hcount, hbits⟩
    have hne := deg_ne_two hp hnodup hx
    exact ⟨j, by omega, hcount, hx, hbits⟩
  · rintro ⟨j, hj⟩
    refine ⟨?_, j, hj.hashes, hj.count, hj.numbers⟩
    rw [combine_rotate _ _ _ j, hj.hashes, UInt64.zero_and, UInt64.zero_and]

theorem Params.Disguised.perm {R R' : List UInt64} {s : Nat} (h : p.Disguised R s)
    (hR : R.Perm R') : p.Disguised R' s := by
  have hdeg : p.deg R s = p.deg R' s := degree_perm hR s
  have hbits : p.bitsAt R s = p.bitsAt R' s := tally_perm hR s
  exact ⟨hdeg ▸ h.crowded, hdeg ▸ h.count, xorAt_perm hR ▸ h.hashes, hbits ▸ h.numbers⟩

theorem append_singleton_perm (before : List UInt64) (hash : UInt64) :
    (before ++ [hash]).Perm (hash :: before.reverse) :=
  (List.perm_append_singleton hash before).trans ((List.reverse_perm before).symm.cons hash)

/-- A slot comes to look so when one of its own hashes is counted. -/
theorem falseAlarm_iff {order : List UInt64} : p.FalseAlarm order ↔
    ∃ before hash after j, order = before ++ hash :: after ∧
      p.Disguised (hash :: before.reverse) (p.pos hash j) := by
  constructor
  · rintro ⟨counted, rest, s, rfl, h⟩
    -- By induction on what has been counted: a last hash that is not at the slot changes nothing.
    induction counted using List.reverseRecOn generalizing rest with
    | nil => exact absurd h.crowded (by simp)
    | append_singleton before hash ih =>
      by_cases ht : Touches p.pos hash s
      · obtain ⟨j, rfl⟩ := ht
        exact ⟨before, hash, rest, j, by simp, h.perm (append_singleton_perm before hash)⟩
      · have h' := h.perm (List.perm_append_singleton hash before)
        have hdeg : p.deg (hash :: before) s = p.deg before s := degree_cons_of_not_touches ht _
        have hbits : p.bitsAt (hash :: before) s = p.bitsAt before s := tally_cons_of_not_touches ht _
        have hbefore : p.Disguised before s :=
          ⟨hdeg ▸ h'.crowded, hdeg ▸ h'.count, xorAt_cons_of_not_touches ht before ▸ h'.hashes,
            hbits ▸ h'.numbers⟩
        obtain ⟨b, x, a, j, heq, hx⟩ := ih (hash :: rest) hbefore
        exact ⟨b, x, a, j, by rw [← heq]; simp, hx⟩
  · rintro ⟨before, hash, after, j, rfl, h⟩
    exact ⟨before ++ [hash], after, _, by simp, h.perm (append_singleton_perm before hash).symm⟩

/-- It takes 66 hashes. -/
theorem Params.FalseAlarm.length_le {order : List UInt64} (h : p.FalseAlarm order) :
    66 ≤ order.length := by
  obtain ⟨counted, rest, s, rfl, hs⟩ := h
  have h1 := hs.crowded
  have h2 : p.deg counted s ≤ counted.length := degree_le_length counted s
  rw [List.length_append]
  omega

/-! ## Attempts on distinct hashes -/

/-- The order in which the counting loop of an attempt takes the mixed hashes: the one that the
placement leaves. -/
def Params.arrivals (p : Params) (hashed : List UInt64) : List UInt64 :=
  (((blockBits p.segmentCount).bind fun bits =>
    place p.seed bits hashed.length hashed (List.replicate hashed.length 0 ++ [1])).getD []).take
      hashed.length

/-- The peel loop can take away all hashes: no counter wraps, and the hashes have an elimination
order. -/
def Params.Peelable (p : Params) (M : List UInt64) : Prop :=
  (∀ s, p.deg M s < 64) ∧ ∃ order, order.Perm M ∧ Eliminates p.pos order

/-- An attempt that does not report a duplicate succeeds exactly when its hashes can be peeled. -/
theorem attempt_of_ne_duplicate (hq : q.Valid) (h2 : 2 ≤ q.segmentLength.toNat)
    (hne : attempt q hashed ≠ some .duplicate) :
    (q.Peelable (q.mixed hashed) ∧ ∃ T, attempt q hashed = some (.peeled T)) ∨
      ¬ q.Peelable (q.mixed hashed) ∧ attempt q hashed = some .failed := by
  rcases attempt_cases hq h2 hashed with h | ⟨⟨s, hs⟩, h⟩ | ⟨hsmall, tc, th, ht, h⟩
  · exact absurd h hne
  · exact Or.inr ⟨fun hpeel => absurd (hpeel.1 s) (not_lt.mpr hs), h⟩
  · obtain ⟨S, R, hpeels, hstuck, htab⟩ := peelTables_spec hq ht hsmall
    rw [length_mixed] at htab
    have hiff := hpeels.rest_eq_nil_iff hstuck
    rw [h, htab]
    by_cases hR : R = []
    · rw [if_pos hR]
      exact Or.inl ⟨⟨hsmall, hiff.mp hR⟩, _, rfl⟩
    · rw [if_neg hR]
      exact Or.inr ⟨fun hpeel => hR (hiff.mpr hpeel.2), rfl⟩

theorem peelTables_ne_duplicate (p : Params) (size : Nat) (tc : List UInt8) (th : List UInt64) :
    peelTables p size tc th ≠ some .duplicate := by
  intro h
  obtain ⟨w, -, hw⟩ := Option.bind_eq_some_iff.mp h
  rw [Option.some.injEq] at hw
  split_ifs at hw

/-- The counting loop of an attempt on distinct hashes reports a duplicate by false alarms only. -/
theorem count_arrivals (hq : q.Valid) (h2 : 2 ≤ q.segmentLength.toNat) (hnodup : hashed.Nodup) :
    (q.arrivals hashed).Perm (q.mixed hashed) ∧
    ∃ c, countAll q (q.arrivals hashed) ⟨List.replicate q.arrayLen.toNat 0,
        List.replicate q.arrayLen.toNat 0, false, false⟩ = some c ∧
      (c.duplicate = true ↔ q.FalseAlarm (q.arrivals hashed)) ∧
      (attempt q hashed = some .duplicate ↔ c.duplicate = true) := by
  obtain ⟨bits, ro, c, hbits, hplace, -, -, hperm, hcount, hattempt, -⟩ := count_spec hq h2 hashed
  have harr : q.arrivals hashed = ro.take hashed.length := by
    simp only [Params.arrivals, hbits, hplace, Option.bind_some, Option.getD_some]
  rw [harr]
  refine ⟨hperm, c, hcount, ?_, ?_⟩
  · have hnd : (ro.take hashed.length).Nodup :=
      hperm.nodup_iff.mpr (hnodup.map (mixsplit_injective q.seed))
    have hcounted : ∀ before hash after, ro.take hashed.length = before ++ hash :: after →
        (hash :: before.reverse).Nodup := by
      intro before hash after heq
      rw [heq, List.append_cons] at hnd
      exact (append_singleton_perm before hash).nodup_iff.mp (List.nodup_append.mp hnd).1
    rw [countAll_duplicate_iff hq _ Tallied.nil rfl hcount, falseAlarm_iff]
    constructor
    · rintro ⟨before, hash, after, heq, htest⟩
      rw [List.append_nil] at htest
      obtain ⟨j, hj⟩ := (dupTest_iff hq (hcounted before hash after heq) hash).mp htest
      exact ⟨before, hash, after, j, heq, hj⟩
    · rintro ⟨before, hash, after, j, heq, hj⟩
      refine ⟨before, hash, after, heq, ?_⟩
      rw [List.append_nil]
      exact (dupTest_iff hq (hcounted before hash after heq) hash).mpr ⟨j, hj⟩
  · rw [hattempt]
    cases hd : c.duplicate with
    | true => simp
    | false =>
      simp only [Bool.false_eq_true, if_false, iff_false]
      split_ifs
      · simp
      · exact peelTables_ne_duplicate _ _ _ _

/-! ## The search on distinct hashes -/

/-- The search reports a duplicate when an attempt does and the attempts before it fail. -/
theorem search_duplicateKey_iff (hp : p.Initial) {size : UInt32} :
    search p size hashed = some .duplicateKey ↔ ∃ k, k ≤ MAX_ITERATIONS ∧
      attempt (p.ofAttempt size k) hashed = some .duplicate ∧
      ∀ i, i < k → attempt (p.ofAttempt size i) hashed = some .failed := by
  constructor
  · intro h
    rcases search_cases hp size hashed with hall | ⟨k, r, hk, hfail, hr, hne⟩
    · rw [search_of_failed hall] at h
      simp at h
    · rw [search_of_first hk hfail hr hne, Option.some.injEq] at h
      cases r with
      | duplicate => exact ⟨k, hk, hr, hfail⟩
      | failed => exact absurd rfl hne
      | peeled T => simp [Attempt.outcome] at h
  · rintro ⟨k, hk, hdup, hfail⟩
    exact search_of_first hk hfail hdup (by simp)

/-- Attempt `k` raises a false alarm. -/
def Params.AlarmAt (p : Params) (size : UInt32) (hashed : List UInt64) (k : Nat) : Prop :=
  (p.ofAttempt size k).FalseAlarm ((p.ofAttempt size k).arrivals hashed)

/-- Attempt `k` can peel all hashes. -/
def Params.PeelableAt (p : Params) (size : UInt32) (hashed : List UInt64) (k : Nat) : Prop :=
  (p.ofAttempt size k).Peelable ((p.ofAttempt size k).mixed hashed)

/-- On distinct hashes the search reports a duplicate exactly when an attempt raises a false alarm and
no attempt before it does or can peel all hashes. -/
theorem search_duplicateKey_iff_alarm (hp : p.Initial) (size : UInt32) (hnodup : hashed.Nodup) :
    search p size hashed = some .duplicateKey ↔ ∃ k, k ≤ MAX_ITERATIONS ∧
      p.AlarmAt size hashed k ∧
      ∀ i, i < k → ¬ p.AlarmAt size hashed i ∧ ¬ p.PeelableAt size hashed i := by
  have hdup : ∀ k, attempt (p.ofAttempt size k) hashed = some .duplicate ↔
      p.AlarmAt size hashed k := by
    intro k
    obtain ⟨-, c, -, halarm, hattempt⟩ := count_arrivals (hp.seeded_valid size k (rngAt k))
      (hp.two_le_seeded size k (rngAt k)) hnodup
    exact hattempt.trans halarm
  have hfailed : ∀ k, attempt (p.ofAttempt size k) hashed = some .failed ↔
      ¬ p.AlarmAt size hashed k ∧ ¬ p.PeelableAt size hashed k := by
    intro k
    rw [← hdup]
    constructor
    · intro h
      have hne : attempt (p.ofAttempt size k) hashed ≠ some .duplicate := by simp [h]
      rcases attempt_of_ne_duplicate (hp.seeded_valid size k (rngAt k))
        (hp.two_le_seeded size k (rngAt k)) hne with ⟨-, T, hT⟩ | ⟨hnot, -⟩
      · rw [Params.ofAttempt] at h
        simp [h] at hT
      · exact ⟨hne, hnot⟩
    · rintro ⟨hne, hnot⟩
      rcases attempt_of_ne_duplicate (hp.seeded_valid size k (rngAt k))
        (hp.two_le_seeded size k (rngAt k)) hne with ⟨hpeel, -⟩ | ⟨-, h⟩
      · exact absurd hpeel hnot
      · exact h
  simp only [search_duplicateKey_iff hp, hdup, hfailed]

/-- With enough memory, a constructor reports the duplicate that its search reports. -/
theorem newWithHash_of_duplicateKey {τ : Type} (Ly : Layout τ) {E : Env} {H : Heap}
    (out : MapOf τ) {hash : UInt32} {entries : List (Bytes × UInt64)} (hH : ∀ b, H.ok b = true)
    (hknown : KnownHash hash) (hpos : 0 < entries.length) (hlen : entries.length < 2 ^ 32)
    (hsearch : search (initParams E.libm (UInt32.ofNat entries.length))
      (UInt32.ofNat entries.length) (E.hashed hash entries) = some .duplicateKey) :
    newWithHash Ly E H out entries hash = some (.duplicateKey, Ly.emptyMap hash) := by
  rcases newWithHash_cases Ly E H out hknown hpos hlen with ⟨-, b, hb⟩ | ⟨o, st, hs, herr, -⟩
  · rw [hH] at hb
    exact absurd hb (by decide)
  · obtain rfl := Option.some.inj (hsearch.symm.trans hs)
    exact herr (by simp [Outcome.rc])

/-- A constructor reports a duplicate, if it has the memory, exactly when its search does. -/
theorem newWithHash_duplicateKey_iff {τ : Type} (Ly : Layout τ) (E : Env) (hash : UInt32)
    (entries : List (Bytes × UInt64)) (hlen : entries.length < 2 ^ 32) :
    (∃ H out m, newWithHash Ly E H out entries hash = some (.duplicateKey, m)) ↔
      KnownHash hash ∧ 0 < entries.length ∧ search (initParams E.libm (UInt32.ofNat entries.length))
        (UInt32.ofNat entries.length) (E.hashed hash entries) = some .duplicateKey := by
  constructor
  · rintro ⟨H, out, m, h⟩
    have hknown : KnownHash hash := by
      by_contra hno
      rw [newWithHash_unknown hno] at h
      simp at h
    have hpos : 0 < entries.length := by
      by_contra h0
      obtain rfl := List.length_eq_zero_iff.mp (Nat.eq_zero_of_not_pos h0)
      rw [newWithHash_nil hknown] at h
      simp at h
    refine ⟨hknown, hpos, ?_⟩
    rcases newWithHash_cases Ly E H out hknown hpos hlen with ⟨hnomem, -⟩ | ⟨o, st, hs, herr, hok⟩
    · rw [hnomem] at h
      simp at h
    · cases o with
      | duplicateKey => exact hs
      | constructFail =>
        rw [herr (by simp [Outcome.rc])] at h
        simp [Outcome.rc] at h
      | ok q T =>
        rw [(hok q T rfl).2] at h
        simp at h
  · rintro ⟨hknown, hpos, hsearch⟩
    exact ⟨smallHeap, Ly.zeroMap, _,
      newWithHash_of_duplicateKey Ly Ly.zeroMap (fun _ => rfl) hknown hpos hlen hsearch⟩

theorem Params.AlarmAt.length_le {size : UInt32} {k : Nat} (h : p.AlarmAt size hashed k) :
    66 ≤ hashed.length := (Params.FalseAlarm.length_le h).trans (List.length_take_le ..)

theorem nodup_hashed_of_distinct {E : Env} {hash : UInt32} {entries : List (Bytes × UInt64)}
    (hdistinct : entries.Pairwise fun e e' =>
      hashKey E.keyHash hash e.1 ≠ hashKey E.keyHash hash e'.1) : (E.hashed hash entries).Nodup :=
  List.pairwise_map.mpr hdistinct

/-- On distinct key hashes the constructors never report a duplicate, unless an attempt raises a false
alarm and no attempt before it does or can peel all hashes; and these alarms are the only times that
the test of a counting loop fires. -/
theorem no_duplicateKey_iff (E : Env) (hash : UInt32) (entries : List (Bytes × UInt64))
    (hlen : entries.length ≤ 2 ^ 31 - 1)
    (hdistinct : entries.Pairwise fun e e' =>
      hashKey E.keyHash hash e.1 ≠ hashKey E.keyHash hash e'.1) :
    let size := UInt32.ofNat entries.length
    let p := initParams E.libm size
    let hashed := E.hashed hash entries
    (((∀ H out m, constmapNewWithHash E H out entries hash ≠ some (.duplicateKey, m)) ∧
        (∀ H out m, verifiedConstmapNewWithHash E H out entries hash ≠ some (.duplicateKey, m)) ∧
        ∀ H out m, pairedVerifiedConstmapNewWithHash E H out entries hash ≠
          some (.duplicateKey, m)) ↔
      ¬ (KnownHash hash ∧ ∃ k, k ≤ MAX_ITERATIONS ∧ p.AlarmAt size hashed k ∧
        ∀ i, i < k → ¬ p.AlarmAt size hashed i ∧ ¬ p.PeelableAt size hashed i)) ∧
    ∀ k, ∃ c, countAll (p.ofAttempt size k) ((p.ofAttempt size k).arrivals hashed)
        ⟨List.replicate p.arrayLen.toNat 0, List.replicate p.arrayLen.toNat 0, false, false⟩ =
          some c ∧
      (c.duplicate = true ↔ p.AlarmAt size hashed k) := by
  intro size p hashed
  have hp : p.Initial := initParams_initial E.libm size
  have hnodup : hashed.Nodup := nodup_hashed_of_distinct hdistinct
  have hiff : ∀ {τ : Type} (Ly : Layout τ),
      (∀ H out m, newWithHash Ly E H out entries hash ≠ some (.duplicateKey, m)) ↔
        ¬ (KnownHash hash ∧ ∃ k, k ≤ MAX_ITERATIONS ∧ p.AlarmAt size hashed k ∧
          ∀ i, i < k → ¬ p.AlarmAt size hashed i ∧ ¬ p.PeelableAt size hashed i) := by
    intro τ Ly
    have hsearch := newWithHash_duplicateKey_iff Ly E hash entries (by omega)
    rw [search_duplicateKey_iff_alarm hp size hnodup] at hsearch
    constructor
    · rintro hnone ⟨hknown, k, hk, halarm, hfail⟩
      have hpos : 0 < entries.length := by
        have h66 := halarm.length_le
        rw [show hashed.length = entries.length from List.length_map ..] at h66
        omega
      obtain ⟨H, out, m, h⟩ := hsearch.mpr ⟨hknown, hpos, k, hk, halarm, hfail⟩
      exact hnone H out m h
    · intro hno H out m h
      obtain ⟨hknown, -, halarm⟩ := hsearch.mp ⟨H, out, m, h⟩
      exact hno ⟨hknown, halarm⟩
  refine ⟨?_, ?_⟩
  · constructor
    · rintro ⟨h, -, -⟩
      exact (hiff constmapLayout).mp h
    · intro h
      exact ⟨(hiff constmapLayout).mpr h, (hiff verifiedLayout).mpr h, (hiff pairedLayout).mpr h⟩
  · intro k
    obtain ⟨-, c, hc, halarm, -⟩ := count_arrivals (hp.seeded_valid size k (rngAt k))
      (hp.two_le_seeded size k (rngAt k)) hnodup
    rw [seeded_arrayLen] at hc
    exact ⟨c, hc, halarm⟩

/-- Two keys are too few for a false alarm. -/
theorem no_duplicateKey_iff_two :
    let entries : List (Bytes × UInt64) := [([0x61], 100), ([0x62], 200)]
    ∀ H out m, constmapNewWithHash smallEnv H out entries HASH_XXH64 ≠ some (.duplicateKey, m) := by
  intro entries
  have hiff := (no_duplicateKey_iff smallEnv HASH_XXH64 entries (by decide) (by decide)).1
  refine (hiff.mpr ?_).1
  rintro ⟨-, k, -, halarm, -⟩
  exact absurd halarm.length_le (by decide)

/-- The sizing for 66 keys: segments of 32 slots, and a capacity of 112. -/
def crowdedEnv : Env where
  keyHash := wordKeyHash
  libm := ⟨fun _ => 5, fun _ => 112, fun _ => by decide, fun _ => by decide⟩
  qsort := Qsort.insertion

/-- 66 distinct mixed hashes that XOR to 0, each with slot 0 as its first position. -/
def crowdedHashes : List UInt64 :=
  (List.range 64).map (fun i => UInt64.ofNat (i + 1)) ++ [0x100000, 0x100040]

/-- The keys of 8 bytes that the first attempt mixes to these hashes. -/
def crowdedEntries : List (Bytes × UInt64) :=
  crowdedHashes.map fun a => (wordKey a (splitmix64 1).1, 0)

/-- 66 distinct hashes in one slot are reported as a duplicate. -/
theorem crowded_slot_reported :
    (crowdedEntries.Pairwise fun e e' => hashKey crowdedEnv.keyHash HASH_XXH64 e.1 ≠
        hashKey crowdedEnv.keyHash HASH_XXH64 e'.1) ∧
      crowdedEntries.length = 66 ∧
      constmapNewWithHash crowdedEnv smallHeap constmapLayout.zeroMap crowdedEntries HASH_XXH64 =
        some (.duplicateKey, constmapLayout.emptyMap HASH_XXH64) ∧
      verifiedConstmapNewWithHash crowdedEnv smallHeap verifiedLayout.zeroMap crowdedEntries
        HASH_XXH64 = some (.duplicateKey, verifiedLayout.emptyMap HASH_XXH64) ∧
      pairedVerifiedConstmapNewWithHash crowdedEnv smallHeap pairedLayout.zeroMap crowdedEntries
        HASH_XXH64 = some (.duplicateKey, pairedLayout.emptyMap HASH_XXH64) := by
  have hsearch : search (initParams crowdedEnv.libm (UInt32.ofNat crowdedEntries.length))
      (UInt32.ofNat crowdedEntries.length) (crowdedEnv.hashed HASH_XXH64 crowdedEntries) =
        some .duplicateKey := by
    decide +kernel
  have hreport : ∀ {τ : Type} (Ly : Layout τ), newWithHash Ly crowdedEnv smallHeap Ly.zeroMap
      crowdedEntries HASH_XXH64 = some (.duplicateKey, Ly.emptyMap HASH_XXH64) := fun Ly =>
    newWithHash_of_duplicateKey Ly Ly.zeroMap (fun _ => rfl) (Or.inl rfl) (by decide) (by decide)
      hsearch
  exact ⟨by decide +kernel, rfl, hreport constmapLayout, hreport verifiedLayout,
    hreport pairedLayout⟩

end FastConstMap
