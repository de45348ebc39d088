import FastConstMap.Proofs.OrderProofs

/-!
# Proofs: `fcm_peel` is its first attempt that does not fail

An attempt that fails leaves no trace: each attempt of `fcm_peel` ends as it would on fresh memory with
the seed and the segments of its number, and the first one that does not fail decides the result.
-/

namespace FastConstMap

open CLoop Peeling

/-! ## The attempts by number -/

/-- The counter of `fcm_splitmix64` before the seed of attempt `k` is drawn. -/
def rngAt : Nat → UInt64
  | 0 => 1
  | k + 1 => (splitmix64 (rngAt k)).2

/-- The parameters of attempt `k`, with its seed. -/
def Params.ofAttempt (p : Params) (size : UInt32) (k : Nat) : Params := p.seeded size k (rngAt k)

@[simp]
theorem ofAttempt_arrayLen (p : Params) (size : UInt32) (k : Nat) :
    (p.ofAttempt size k).arrayLen = p.arrayLen := seeded_arrayLen size k (rngAt k)

/-- The memory of an attempt that is not cleared for it. -/
structure Scratch where
  alone : List UInt32
  reverseH : List UInt8
  startPosCap : Nat
  rngCounter : UInt64

/-- The buffers have the lengths that `fcm_peel` is passed. -/
structure Scratch.Fits (s : Scratch) (p : Params) (size : UInt32) : Prop where
  alone : s.alone.length = p.arrayLen.toNat
  reverseH : s.reverseH.length = size.toNat

/-- The state at the head of an attempt with the parameters `q`, on fresh memory. -/
def PeelState.fresh (q : Params) (size : UInt32) (s : Scratch) : PeelState :=
  { params := q
    rngCounter := s.rngCounter
    alone := s.alone
    t2count := List.replicate q.arrayLen.toNat 0
    t2hash := List.replicate q.arrayLen.toNat 0
    reverseH := s.reverseH
    reverseOrder := List.replicate size.toNat 0 ++ [1]
    startPosCap := s.startPosCap }

/-- One run of the loop body of `fcm_peel` on fresh memory. The retry switch does nothing at iteration
0, so the run has the parameters `q`. -/
def attemptRun (H : Heap) (hashed : List UInt64) (size : UInt32) (q : Params) (s : Scratch) :
    Option Flow := peelIteration H hashed size 0 (.fresh q size s)

section Search

variable {p q : Params} {size : UInt32} {hashed : List UInt64}

/-- What the search makes of an attempt that does not fail. -/
def Attempt.outcome (q : Params) : Attempt → Outcome
  | .duplicate => .duplicateKey
  | .failed => .constructFail
  | .peeled T => .ok q T

/-- The search ends with the first attempt that does not fail. -/
theorem searchFrom_of_first (iteration : Nat) {k left : Nat} {r : Attempt} (hk : k < left)
    (hfail : ∀ i, i < k → attempt (p.ofAttempt size (iteration + i)) hashed = some .failed)
    (h : attempt (p.ofAttempt size (iteration + k)) hashed = some r) (hr : r ≠ .failed) :
    searchFrom p size hashed left iteration (rngAt iteration) =
      some (r.outcome (p.ofAttempt size (iteration + k))) := by
  induction k generalizing iteration left with
  | zero =>
    obtain ⟨left, rfl⟩ := Nat.exists_eq_succ_of_ne_zero (Nat.ne_of_gt hk)
    rw [Nat.add_zero] at h
    rw [searchFrom_succ left iteration _ r h]
    cases r with
    | duplicate => rfl
    | failed => exact absurd rfl hr
    | peeled T => rfl
  | succ k ih =>
    obtain ⟨left, rfl⟩ := Nat.exists_eq_succ_of_ne_zero (Nat.ne_zero_of_lt hk)
    have h0 : attempt (p.ofAttempt size iteration) hashed = some .failed := hfail 0 (Nat.succ_pos k)
    rw [searchFrom_succ left iteration _ _ h0]
    have hshift : ∀ i, iteration + 1 + i = iteration + (i + 1) := fun i => by omega
    have hnext := ih (iteration + 1) (Nat.lt_of_succ_lt_succ hk)
      (fun i hi => by rw [hshift]; exact hfail (i + 1) (Nat.succ_lt_succ hi))
      (by rw [hshift]; exact h)
    rw [hshift] at hnext
    exact hnext

/-- The search fails when all attempts do. -/
theorem searchFrom_of_failed (iteration : Nat) {left : Nat}
    (hfail : ∀ i, i < left → attempt (p.ofAttempt size (iteration + i)) hashed = some .failed) :
    searchFrom p size hashed left iteration (rngAt iteration) = some .constructFail := by
  induction left generalizing iteration with
  | zero => rfl
  | succ left ih =>
    have h0 : attempt (p.ofAttempt size iteration) hashed = some .failed :=
      hfail 0 (Nat.succ_pos left)
    rw [searchFrom_succ left iteration _ _ h0]
    refine ih (iteration + 1) ?_
    intro i hi
    rw [show iteration + 1 + i = iteration + (i + 1) by omega]
    exact hfail (i + 1) (Nat.succ_lt_succ hi)

theorem search_of_first {k : Nat} {r : Attempt} (hk : k ≤ MAX_ITERATIONS)
    (hfail : ∀ i, i < k → attempt (p.ofAttempt size i) hashed = some .failed)
    (h : attempt (p.ofAttempt size k) hashed = some r) (hr : r ≠ .failed) :
    search p size hashed = some (r.outcome (p.ofAttempt size k)) := by
  have hfirst := searchFrom_of_first (p := p) 0
    (Nat.lt_succ_of_le hk) (fun i hi => by rw [Nat.zero_add]; exact hfail i hi)
    (by rw [Nat.zero_add]; exact h) hr
  rw [Nat.zero_add] at hfirst
  exact hfirst

theorem search_of_failed
    (hfail : ∀ k, k ≤ MAX_ITERATIONS → attempt (p.ofAttempt size k) hashed = some .failed) :
    search p size hashed = some .constructFail := by
  refine searchFrom_of_failed 0 ?_
  intro i hi
  rw [Nat.zero_add]
  exact hfail i (Nat.le_of_lt_succ hi)

/-- Either all attempts fail, or there is a first one that does not. -/
theorem search_cases (hp : p.Initial) (size : UInt32) (hashed : List UInt64) :
    (∀ k, k ≤ MAX_ITERATIONS → attempt (p.ofAttempt size k) hashed = some .failed) ∨
    ∃ k r, k ≤ MAX_ITERATIONS ∧
      (∀ i, i < k → attempt (p.ofAttempt size i) hashed = some .failed) ∧
      attempt (p.ofAttempt size k) hashed = some r ∧ r ≠ .failed := by
  have htotal : ∀ k, ∃ r, attempt (p.ofAttempt size k) hashed = some r := by
    intro k
    obtain ⟨r, hr, -⟩ := attempt_spec (hp.seeded_valid size k (rngAt k))
      (hp.two_le_seeded size k (rngAt k)) hashed
    exact ⟨r, hr⟩
  by_cases hall : ∀ k, k ≤ MAX_ITERATIONS → attempt (p.ofAttempt size k) hashed = some .failed
  · exact Or.inl hall
  right
  push Not at hall
  classical
  obtain ⟨⟨hk, hne⟩, hmin⟩ := Nat.find_spec hall, fun m => Nat.find_min (H := hall) (m := m)
  set k := Nat.find hall
  obtain ⟨r, hr⟩ := htotal k
  refine ⟨k, r, hk, ?_, hr, ?_⟩
  · intro i hi
    by_contra hi'
    exact hmin i hi ⟨hi.le.trans hk, hi'⟩
  · rintro rfl
    exact hne hr

end Search

/-! ## The runs of the loop body -/

/-- What the attempt returns, if it does. -/
def Flow.rc? : Flow → Option Rc
  | .ret rc _ => some rc
  | .again _ => none

theorem exists_again {x : Option Flow} (h : x.map Flow.rc? = some none) : ∃ st, x = some (.again st) := by
  obtain ⟨f, rfl, hf⟩ := Option.map_eq_some_iff.mp h
  cases f with
  | ret rc st => cases hf
  | again st => exact ⟨st, rfl⟩

theorem exists_ret {x : Option Flow} {rc : Rc} (h : x.map Flow.rc? = some (some rc)) :
    ∃ st, x = some (.ret rc st) := by
  obtain ⟨f, rfl, hf⟩ := Option.map_eq_some_iff.mp h
  cases f with
  | ret rc' st =>
    obtain rfl := Option.some.inj hf
    exact ⟨st, rfl⟩
  | again st => cases hf

section Runs

variable {p q : Params} {size : UInt32} {hashed : List UInt64} {H : Heap}

/-- On fresh memory the loop body runs out of memory, or it ends as the attempt on lists does. -/
theorem attemptRun_spec (hq : q.Valid) (h2 : 2 ≤ q.segmentLength.toNat)
    (hlen : hashed.length = size.toNat) (H : Heap) {s : Scratch} (hs : s.Fits q size) :
    (∃ st, attemptRun H hashed size q s = some (.ret .nomem st) ∧ H.ok (.startPos 0) = false) ∨
    ∃ r f, attempt q hashed = some r ∧ attemptRun H hashed size q s = some f ∧
      f.Matches q size.toNat s.rngCounter r := by
  have hadj : adjustSegments size 0 q = q := by
    unfold adjustSegments
    split_ifs <;> rfl
  have hclean : (PeelState.fresh q size s).Clean q.arrayLen.toNat size.toNat :=
    ⟨rfl, rfl, rfl, hs.alone, hs.reverseH⟩
  exact peelIteration_spec hq h2 hadj hlen hclean

/-- The stack and the parameters determine what an attempt that succeeded leaves. -/
theorem PeelState.Stacked.unique {T : List (UInt64 × UInt8)} {n : Nat} {st st' : PeelState}
    (h : st.Stacked q T n) (h' : st'.Stacked q T n) :
    st'.params = st.params ∧ st'.reverseH = st.reverseH ∧
      st'.reverseOrder.take n = st.reverseOrder.take n := by
  have hzip := h'.entries.trans h.entries.symm
  have hlen : ∀ {st : PeelState}, st.Stacked q T n →
      (st.reverseOrder.take n).length = st.reverseH.length := by
    intro st hst
    rw [List.length_take, hst.reverseOrder, hst.reverseH]
    omega
  refine ⟨h'.params.trans h.params.symm, ?_, ?_⟩
  · have := congrArg (List.map Prod.snd) hzip
    rwa [List.map_snd_zip (hlen h').ge, List.map_snd_zip (hlen h).ge] at this
  · have := congrArg (List.map Prod.fst) hzip
    rwa [List.map_fst_zip (hlen h').le, List.map_fst_zip (hlen h).le] at this

theorem Flow.Matches.again_iff {n : Nat} {rng : UInt64} {r : Attempt} {f : Flow}
    (h : f.Matches q n rng r) : (∃ st, f = .again st) ↔ r = .failed := by
  cases r <;> cases f <;> simp_all [Flow.Matches]

theorem Flow.Matches.duplicate_of_ret {n : Nat} {rng : UInt64} {r : Attempt} {st : PeelState}
    (h : (Flow.ret .duplicateKey st).Matches q n rng r) : r = .duplicate := by
  cases r with
  | duplicate => rfl
  | failed => exact h.elim
  | peeled T => exact absurd h.1 (by decide)

theorem Flow.Matches.peeled_of_ret {n : Nat} {rng : UInt64} {r : Attempt} {st : PeelState}
    (h : (Flow.ret .ok st).Matches q n rng r) : ∃ T, r = .peeled T ∧ st.Stacked q T n := by
  cases r with
  | duplicate => exact absurd h (show Rc.ok ≠ .duplicateKey by decide)
  | failed => exact h.elim
  | peeled T => exact ⟨T, rfl, h.2⟩

theorem Flow.Matches.cases {n : Nat} {rng : UInt64} {r : Attempt} {f : Flow}
    (h : f.Matches q n rng r) :
    ∃ st, f = .ret .ok st ∨ f = .ret .duplicateKey st ∨ f = .again st := by
  cases r <;> cases f <;> simp_all [Flow.Matches]

end Runs

/-- `fcm_peel` returns what the first attempt that does not fail returns, run on fresh memory with
whatever contents of the buffers that are never cleared, and it fails when all attempts do. -/
theorem peel_eq_first_attempt (lm : Libm) (size : UInt32) (hashed : List UInt64) (H : Heap)
    (s : Scratch) (scratch : Nat → Scratch) (hlen : hashed.length = size.toNat)
    (hH : ∀ b, H.ok b = true) (hs : s.Fits (initParams lm size) size)
    (hscratch : ∀ k, (scratch k).Fits (initParams lm size) size) :
    let p := initParams lm size
    let run := fun k => attemptRun H hashed size (p.ofAttempt size k) (scratch k)
    let result := peel H hashed size p s.alone (List.replicate p.arrayLen.toNat 0)
      (List.replicate p.arrayLen.toNat 0) s.reverseH (List.replicate (size.toNat + 1) 0)
    (∀ k, k ≤ MAX_ITERATIONS → ∃ st, run k = some (.ret .ok st) ∨
      run k = some (.ret .duplicateKey st) ∨ run k = some (.again st)) ∧
    (∀ k, k ≤ MAX_ITERATIONS → (∀ i, i < k → ∃ st, run i = some (.again st)) →
      (∀ st, run k = some (.ret .ok st) → ∃ st', result = some (.ok, st') ∧
        st'.params = p.ofAttempt size k ∧ st'.reverseH = st.reverseH ∧
        st'.reverseOrder.take size.toNat = st.reverseOrder.take size.toNat) ∧
      ∀ st, run k = some (.ret .duplicateKey st) → ∃ st', result = some (.duplicateKey, st')) ∧
    ((∃ st, result = some (.constructFail, st)) ↔
      ∀ k, k ≤ MAX_ITERATIONS → ∃ st, run k = some (.again st)) := by
  intro p run result
  have hp : p.Initial := initParams_initial lm size
  have hrun : ∀ k, ∃ r f, attempt (p.ofAttempt size k) hashed = some r ∧ run k = some f ∧
      f.Matches (p.ofAttempt size k) size.toNat (scratch k).rngCounter r := by
    intro k
    have hfits : (scratch k).Fits (p.ofAttempt size k) size := by
      refine ⟨(hscratch k).alone.trans ?_, (hscratch k).reverseH⟩
      rw [ofAttempt_arrayLen]
    rcases attemptRun_spec (hp.seeded_valid size k (rngAt k)) (hp.two_le_seeded size k (rngAt k))
      hlen H hfits with ⟨st, -, hmem⟩ | h
    · rw [hH] at hmem
      exact absurd hmem (by decide)
    · exact h
  have hagain : ∀ k, (∃ st, run k = some (.again st)) ↔
      attempt (p.ofAttempt size k) hashed = some .failed := by
    intro k
    obtain ⟨r, f, hr, hf, hm⟩ := hrun k
    simp only [hr, hf, Option.some.injEq]
    exact hm.again_iff
  obtain ⟨o, st', hsearch, hresult, hst'⟩ : ∃ o st', search p size hashed = some o ∧
      result = some (o.rc, st') ∧ ∀ q T, o = .ok q T → st'.Stacked q T size.toNat := by
    rcases peel_spec (H := H) hp hlen hs.alone hs.reverseH with ⟨k, st, -, hk⟩ | h
    · rw [hH] at hk
      exact absurd hk (by decide)
    · exact h
  refine ⟨?_, ?_, ?_⟩
  · intro k _
    obtain ⟨r, f, -, hf, hm⟩ := hrun k
    rw [hf]
    simpa only [Option.some.injEq] using hm.cases
  · intro k hk hfail
    have hfail' := fun i hi => (hagain i).mp (hfail i hi)
    obtain ⟨r, f, hr, hf, hm⟩ := hrun k
    constructor
    · intro st hok
      obtain rfl := Option.some.inj (hf.symm.trans hok)
      obtain ⟨T, rfl, hst⟩ := hm.peeled_of_ret
      have ho := search_of_first hk hfail' hr (by simp)
      obtain rfl := Option.some.inj (hsearch.symm.trans ho)
      have hst'' := hst' _ _ rfl
      obtain ⟨-, hrev, htake⟩ := hst.unique hst''
      exact ⟨st', hresult, hst''.params, hrev, htake⟩
    · intro st hdup
      obtain rfl := Option.some.inj (hf.symm.trans hdup)
      obtain rfl := hm.duplicate_of_ret
      have ho := search_of_first hk hfail' hr (by simp)
      obtain rfl := Option.some.inj (hsearch.symm.trans ho)
      exact ⟨st', hresult⟩
  · simp only [hagain]
    constructor
    · rintro ⟨st, hfail⟩
      rcases search_cases hp size hashed with hall | ⟨k, r, hk, hfail', hr, hne⟩
      · exact hall
      · have ho := search_of_first hk hfail' hr hne
        obtain rfl := Option.some.inj (hsearch.symm.trans ho)
        rw [hresult, Option.some.injEq, Prod.mk.injEq] at hfail
        cases r with
        | duplicate => simp [Attempt.outcome, Outcome.rc] at hfail
        | failed => exact absurd rfl hne
        | peeled T => simp [Attempt.outcome, Outcome.rc] at hfail
    · intro hall
      have ho := search_of_failed hall
      obtain rfl := Option.some.inj (hsearch.symm.trans ho)
      exact ⟨st', hresult⟩

/-- Four key hashes that the first two attempts do not peel. -/
theorem peel_eq_first_attempt_four :
    let p := initParams smallEnv.libm 4
    let hashed : List UInt64 := [9, 10, 11, 12]
    let s : Scratch := ⟨List.replicate 12 5, List.replicate 4 1, 0, 0⟩
    ∃ st₀ st₁ st st', attemptRun smallHeap hashed 4 (p.ofAttempt 4 0) s = some (.again st₀) ∧
      attemptRun smallHeap hashed 4 (p.ofAttempt 4 1) s = some (.again st₁) ∧
      attemptRun smallHeap hashed 4 (p.ofAttempt 4 2) s = some (.ret .ok st) ∧
      peel smallHeap hashed 4 p s.alone (List.replicate 12 0) (List.replicate 12 0) s.reverseH
        (List.replicate 5 0) = some (.ok, st') ∧
      st'.params = p.ofAttempt 4 2 ∧ st'.reverseH = st.reverseH ∧
      st'.reverseOrder.take 4 = st.reverseOrder.take 4 := by
  intro p hashed s
  obtain ⟨st₀, h₀⟩ := exists_again
    (x := attemptRun smallHeap hashed 4 (p.ofAttempt 4 0) s) (by decide +kernel)
  obtain ⟨st₁, h₁⟩ := exists_again
    (x := attemptRun smallHeap hashed 4 (p.ofAttempt 4 1) s) (by decide +kernel)
  have hok : (attemptRun smallHeap hashed 4 (p.ofAttempt 4 2) s).map Flow.rc? = some (some .ok) := by
    decide +kernel
  obtain ⟨st, h⟩ := exists_ret hok
  have hfits : s.Fits p 4 := ⟨rfl, rfl⟩
  obtain ⟨-, hspec, -⟩ := peel_eq_first_attempt smallEnv.libm 4 hashed smallHeap s (fun _ => s)
    rfl (fun _ => rfl) hfits (fun _ => hfits)
  have hfail : ∀ i, i < 2 →
      ∃ st, attemptRun smallHeap hashed 4 (p.ofAttempt 4 i) s = some (.again st) := by
    intro i hi
    rcases i with _ | _ | i
    · exact ⟨st₀, h₀⟩
    · exact ⟨st₁, h₁⟩
    · omega
  obtain ⟨st', hst'⟩ := (hspec 2 (by decide) hfail).1 st h
  exact ⟨st₀, st₁, st, st', h₀, h₁, h, hst'⟩

end FastConstMap
