import FastConstMap.Proofs.PlaceProofs
import FastConstMap.Proofs.WorkProofs

/-!
# Proofs: one attempt, and the search

An attempt always ends. Unless it reports a duplicate, it depends on the multiset of the mixed hashes
only, and it succeeds exactly when peeling leaves no hash. The stack of the attempt that succeeds is
the same for every order of the hashes.
-/

namespace FastConstMap

open CLoop Peeling

variable {p : Params}

/-- The mixed hashes of an attempt with the parameters `p`. -/
def Params.mixed (p : Params) (hashed : List UInt64) : List UInt64 :=
  hashed.map (mixsplit · p.seed)

@[simp] theorem length_mixed (hashed : List UInt64) : (p.mixed hashed).length = hashed.length :=
  List.length_map ..

/-- The entries of a stack, with the position numbers as the bytes of `reverse_h`. -/
def stackBytes (S : List (UInt64 × Fin 3)) : List (UInt64 × UInt8) :=
  S.map fun e => (e.1, foundByte e.2)

/-! ## The peel loop -/

/-- The peel loop takes away hashes until every slot has none or more than one left, and succeeds if
none is left. -/
theorem peelTables_spec (hp : p.Valid) {M : List UInt64} {tc : List UInt8} {th : List UInt64}
    (h : Tallied p M tc th) (hsmall : ∀ s, p.deg M s < 64) :
    ∃ S R, Peels p.pos M S R ∧ (∀ s, p.deg R s ≠ 1) ∧
      peelTables p M.length tc th =
        some (if R = [] then .peeled (stackBytes S) else .failed) := by
  obtain ⟨w, S, R, hloop, hinv, hnil⟩ :=
    work_loop hp (WorkInv.init h hsmall) (length_singletons_le tc p.arrayLen.toNat)
  refine ⟨S, R, hinv.peels, hinv.stuck hp hnil, ?_⟩
  have hlen := hinv.peels.perm.length_eq
  rw [List.length_append, List.length_map] at hlen
  have hiff : w.stack.length = M.length ↔ R = [] := by
    rw [hinv.stack, List.length_map, ← List.length_eq_zero_iff]
    omega
  unfold peelTables
  simp only [hloop, Option.bind_eq_bind, Option.bind_some, hiff]
  rw [hinv.stack]
  rfl

/-! ## One attempt -/

/-- The placement and the counting loop of an attempt: without a duplicate report, the tables tally
all mixed hashes. -/
theorem count_spec (hp : p.Valid) (h2 : 2 ≤ p.segmentLength.toNat) (hashed : List UInt64) :
    ∃ bits ro c, blockBits p.segmentCount = some bits ∧
      place p.seed bits hashed.length hashed (List.replicate hashed.length 0 ++ [1]) = some ro ∧
      ro.length = hashed.length + 1 ∧ load ro hashed.length = some 1 ∧
      (ro.take hashed.length).Perm (p.mixed hashed) ∧
      countAll p (ro.take hashed.length)
        ⟨List.replicate p.arrayLen.toNat 0, List.replicate p.arrayLen.toNat 0, false, false⟩ =
          some c ∧
      (attempt p hashed = if c.duplicate then some .duplicate
        else if c.hasError then some .failed
        else peelTables p hashed.length c.t2count c.t2hash) ∧
      (c.duplicate = false → Tallied p (p.mixed hashed) c.t2count c.t2hash ∧
        (c.hasError = true ↔ ∃ s, 64 ≤ p.deg (p.mixed hashed) s)) := by
  obtain ⟨bits, hbits, hb1, hb31⟩ := hp.blockBits_spec h2
  obtain ⟨ro, hplace, hlen, hsent, hperm⟩ :=
    place_spec hb1 hb31 p.seed (Eq.refl hashed.length)
  obtain ⟨c, hcount, hc⟩ := countAll_clean hp (ro.take hashed.length)
  refine ⟨bits, ro, c, hbits, hplace, hlen, hsent, hperm, hcount, ?_, ?_⟩
  · unfold attempt
    simp only [hbits, hplace, hcount, Option.bind_eq_bind, Option.bind_some]
  · intro hd
    obtain ⟨ht, herr⟩ := hc hd
    have hdeg : ∀ s, p.deg (ro.take hashed.length) s = p.deg (p.mixed hashed) s :=
      fun s => degree_perm hperm s
    simp only [hdeg] at herr
    exact ⟨ht.perm hperm, herr⟩

/-- The parts of an attempt: either the counting loop reports a duplicate, or some slot has 64 hashes
or more, or the tables tally all mixed hashes and the peel loop runs. -/
theorem attempt_cases (hp : p.Valid) (h2 : 2 ≤ p.segmentLength.toNat) (hashed : List UInt64) :
    attempt p hashed = some .duplicate ∨
    (∃ s, 64 ≤ p.deg (p.mixed hashed) s) ∧ attempt p hashed = some .failed ∨
    (∀ s, p.deg (p.mixed hashed) s < 64) ∧ ∃ tc th, Tallied p (p.mixed hashed) tc th ∧
      attempt p hashed = peelTables p hashed.length tc th := by
  obtain ⟨_, _, c, -, -, -, -, -, -, hattempt, hc⟩ := count_spec hp h2 hashed
  rw [hattempt]
  cases hd : c.duplicate with
  | true => exact Or.inl rfl
  | false =>
    right
    obtain ⟨ht, herr⟩ := hc hd
    cases he : c.hasError with
    | true => exact Or.inl ⟨herr.mp he, rfl⟩
    | false => exact Or.inr ⟨deg_lt_of_hasError herr he, c.t2count, c.t2hash, ht, rfl⟩

/-- An attempt ends, and the stack of one that succeeds is an elimination order of all mixed
hashes. -/
theorem attempt_spec (hp : p.Valid) (h2 : 2 ≤ p.segmentLength.toNat) (hashed : List UInt64) :
    ∃ r, attempt p hashed = some r ∧ ∀ T, r = .peeled T →
      ∃ S, T = stackBytes S ∧ ElimStack p.pos S ∧ (S.map Prod.fst).Perm (p.mixed hashed) := by
  rcases attempt_cases hp h2 hashed with h | ⟨-, h⟩ | ⟨hsmall, tc, th, ht, h⟩
  · exact ⟨.duplicate, h, by simp⟩
  · exact ⟨.failed, h, by simp⟩
  · obtain ⟨S, R, hpeels, -, htab⟩ := peelTables_spec hp ht hsmall
    rw [length_mixed] at htab
    refine ⟨_, h.trans htab, ?_⟩
    intro T hT
    split_ifs at hT with hR
    · obtain rfl := hR
      refine ⟨S, (Attempt.peeled.inj hT).symm, hpeels.elim, ?_⟩
      have := hpeels.perm
      rw [List.append_nil] at this
      exact this.symm

/-- Tables that tally the same hashes are equal. -/
theorem Tallied.ext {M M' : List UInt64} {tc tc' : List UInt8} {th th' : List UInt64}
    (h : Tallied p M tc th) (h' : Tallied p M' tc' th') (hM : M.Perm M') : tc = tc' ∧ th = th' :=
  ⟨(h.perm hM).count.ext h'.count, (h.perm hM).hash.ext h'.hash⟩

/-- Attempts on the same hashes in two orders end the same, unless one reports a duplicate. -/
theorem attempt_perm (hp : p.Valid) (h2 : 2 ≤ p.segmentLength.toNat) {hashed hashed' : List UInt64}
    (hperm : hashed.Perm hashed') (hd : attempt p hashed ≠ some .duplicate)
    (hd' : attempt p hashed' ≠ some .duplicate) : attempt p hashed = attempt p hashed' := by
  have hM : (p.mixed hashed).Perm (p.mixed hashed') := hperm.map _
  have hdeg : ∀ s, p.deg (p.mixed hashed) s = p.deg (p.mixed hashed') s := fun s =>
    degree_perm hM s
  rcases attempt_cases hp h2 hashed with h | ⟨⟨s, hs⟩, h⟩ | ⟨hsmall, tc, th, ht, h⟩
  · exact absurd h hd
  · rcases attempt_cases hp h2 hashed' with h' | ⟨-, h'⟩ | ⟨hsmall', -⟩
    · exact absurd h' hd'
    · rw [h, h']
    · have := hsmall' s
      rw [← hdeg] at this
      omega
  · rcases attempt_cases hp h2 hashed' with h' | ⟨⟨s, hs⟩, -⟩ | ⟨-, tc', th', ht', h'⟩
    · exact absurd h' hd'
    · have := hsmall s
      rw [hdeg] at this
      omega
    · obtain ⟨rfl, rfl⟩ := ht.ext ht' hM
      rw [h, h', hperm.length_eq]

/-! ## The search -/

theorem Outcome.ok_of_rc {o : Outcome} (h : o.rc = .ok) : ∃ q T, o = .ok q T := by
  cases o with
  | duplicateKey => exact absurd h (by decide)
  | constructFail => exact absurd h (by decide)
  | ok q T => exact ⟨q, T, rfl⟩

section Search

variable {size : UInt32} {hashed : List UInt64}

/-- One attempt of the search. -/
theorem searchFrom_succ (left iteration : Nat) (rng : UInt64) (r : Attempt) :
    attempt (p.seeded size iteration rng) hashed = some r →
    searchFrom p size hashed (left + 1) iteration rng = match r with
      | .duplicate => some .duplicateKey
      | .failed => searchFrom p size hashed left (iteration + 1) (splitmix64 rng).2
      | .peeled stack => some (.ok (p.seeded size iteration rng) stack) := by
  intro h
  rw [searchFrom, h]
  cases r <;> rfl

/-- The search ends. -/
theorem searchFrom_total (hp : p.Initial) (left iteration : Nat) (rng : UInt64) :
    ∃ o, searchFrom p size hashed left iteration rng = some o := by
  induction left generalizing iteration rng with
  | zero => exact ⟨.constructFail, rfl⟩
  | succ left ih =>
    obtain ⟨r, hr, -⟩ := attempt_spec (hp.seeded_valid size iteration rng)
      (hp.two_le_seeded size iteration rng) hashed
    rw [searchFrom_succ left iteration rng _ hr]
    cases r with
    | duplicate => exact ⟨_, rfl⟩
    | failed => exact ih _ _
    | peeled stack => exact ⟨_, rfl⟩

/-- A successful search stopped at an attempt that succeeded. -/
theorem searchFrom_ok (hp : p.Initial) {left iteration : Nat} {rng : UInt64} {q : Params}
    {T : List (UInt64 × UInt8)}
    (h : searchFrom p size hashed left iteration rng = some (.ok q T)) :
    ∃ k rng', q = p.seeded size k rng' ∧ attempt q hashed = some (.peeled T) := by
  induction left generalizing iteration rng with
  | zero => simp [searchFrom] at h
  | succ left ih =>
    obtain ⟨r, hr, -⟩ := attempt_spec (hp.seeded_valid size iteration rng)
      (hp.two_le_seeded size iteration rng) hashed
    rw [searchFrom_succ left iteration rng _ hr] at h
    cases r with
    | duplicate => simp at h
    | failed => exact ih h
    | peeled stack =>
      simp only [Option.some.injEq, Outcome.ok.injEq] at h
      obtain ⟨rfl, rfl⟩ := h
      exact ⟨iteration, rng, rfl, hr⟩

/-- The stack of a successful search is an elimination order of all mixed hashes. -/
theorem search_ok (hp : p.Initial) {q : Params} {T : List (UInt64 × UInt8)}
    (h : search p size hashed = some (.ok q T)) :
    ∃ S, T = stackBytes S ∧ q.Valid ∧ ElimStack q.pos S ∧
      (S.map Prod.fst).Perm (q.mixed hashed) := by
  obtain ⟨k, rng, rfl, hatt⟩ := searchFrom_ok hp h
  have hv := hp.seeded_valid size k rng
  obtain ⟨r, hr, hspec⟩ := attempt_spec hv (hp.two_le_seeded size k rng) hashed
  rw [hatt, Option.some.injEq] at hr
  obtain ⟨S, rfl, helim, hperm⟩ := hspec T hr.symm
  exact ⟨S, rfl, hv, helim, hperm⟩

/-- Two successful searches over the same hashes in two orders end alike. -/
theorem searchFrom_perm (hp : p.Initial) {hashed' : List UInt64} (hperm : hashed.Perm hashed')
    {left iteration : Nat} {rng : UInt64} {q q' : Params} {T T' : List (UInt64 × UInt8)}
    (h : searchFrom p size hashed left iteration rng = some (.ok q T))
    (h' : searchFrom p size hashed' left iteration rng = some (.ok q' T')) : q = q' ∧ T = T' := by
  induction left generalizing iteration rng with
  | zero => simp [searchFrom] at h
  | succ left ih =>
    have hv := hp.seeded_valid size iteration rng
    have h2 := hp.two_le_seeded size iteration rng
    obtain ⟨r, hr, -⟩ := attempt_spec hv h2 hashed
    obtain ⟨r', hr', -⟩ := attempt_spec hv h2 hashed'
    rw [searchFrom_succ left iteration rng _ hr] at h
    rw [searchFrom_succ left iteration rng _ hr'] at h'
    have hdup : r ≠ .duplicate := by rintro rfl; simp at h
    have hdup' : r' ≠ .duplicate := by rintro rfl; simp at h'
    have heq := attempt_perm hv h2 hperm (by rw [hr]; simpa using hdup)
      (by rw [hr']; simpa using hdup')
    rw [hr, hr', Option.some.injEq] at heq
    subst heq
    cases r with
    | duplicate => exact absurd rfl hdup
    | failed => exact ih h h'
    | peeled stack =>
      simp only [Option.some.injEq, Outcome.ok.injEq] at h h'
      exact ⟨h.1.symm.trans h'.1, h.2.symm.trans h'.2⟩

end Search

end FastConstMap
