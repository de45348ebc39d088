import FastConstMap.Proofs.AttemptProofs
import FastConstMap.Proofs.DrainProofs

/-!
# Proofs: `fcm_peel` computes the search

Every attempt of `fcm_peel` starts from cleared tables, whatever the attempt before it left in them
and whatever the buffers that are never cleared hold, so it ends as the attempt of the search does.
-/

namespace FastConstMap

open CLoop Peeling

variable {p q : Params}

/-! ## Clearing -/

theorem zeroFill_eq {α : Type} (zero : α) (len : Nat) (a : List α) (h : len ≤ a.length) :
    zeroFill zero len a = some (List.replicate len zero ++ a.drop len) := by
  have hstep : ∀ i (b : List α), 0 ≤ i → i < len →
      b = List.replicate i zero ++ a.drop i → ∃ b', store b i zero = some b' ∧
        b' = List.replicate (i + 1) zero ++ a.drop (i + 1) := by
    rintro i _ - hi rfl
    have hlt : i < a.length := by omega
    refine ⟨_, store_of_lt _ (by simp; omega), ?_⟩
    rw [List.set_append_right _ _ (by simp), List.length_replicate, Nat.sub_self,
      List.drop_eq_getElem_cons hlt, List.set_cons_zero, List.replicate_succ', List.append_assoc]
    rfl
  obtain ⟨b, hb, hb'⟩ := forUp_spec _ (Nat.zero_add len) hstep
    (show a = List.replicate 0 zero ++ a.drop 0 from rfl)
  rw [zeroFill, hb, hb']

/-- The arrays at the head of an attempt: cleared tables and a cleared `reverse_order` with its
sentinel; of `alone` and `reverse_h` only the length matters. -/
structure PeelState.Clean (arrayLen size : Nat) (st : PeelState) : Prop where
  t2count : st.t2count = List.replicate arrayLen 0
  t2hash : st.t2hash = List.replicate arrayLen 0
  reverseOrder : st.reverseOrder = List.replicate size 0 ++ [1]
  alone : st.alone.length = arrayLen
  reverseH : st.reverseH.length = size

/-- The reset after a failed attempt leaves clean arrays, and takes the next seed. -/
theorem reset_spec {size : Nat} (st : PeelState)
    (hcount : st.t2count.length = st.params.arrayLen.toNat)
    (hhash : st.t2hash.length = st.params.arrayLen.toNat)
    (horder : st.reverseOrder.length = size + 1) (hsent : load st.reverseOrder size = some 1)
    (halone : st.alone.length = st.params.arrayLen.toNat) (hrev : st.reverseH.length = size) :
    ∃ st', st.reset size = some st' ∧ st'.Clean st.params.arrayLen.toNat size ∧
      st'.params = st.params.withSeed (splitmix64 st.rngCounter).1 ∧
      st'.rngCounter = (splitmix64 st.rngCounter).2 := by
  have hdrop : st.reverseOrder.drop size = [1] := by
    obtain ⟨hlt, hx⟩ := load_eq_some_iff.mp hsent
    rw [List.drop_eq_getElem_cons hlt, hx, List.drop_of_length_le (by omega)]
  have h1 := zeroFill_eq (0 : UInt64) size st.reverseOrder (by omega)
  have h2 := zeroFill_eq (0 : UInt8) _ st.t2count hcount.ge
  have h3 := zeroFill_eq (0 : UInt64) _ st.t2hash hhash.ge
  rw [hdrop] at h1
  rw [List.drop_of_length_le hcount.le, List.append_nil] at h2
  rw [List.drop_of_length_le hhash.le, List.append_nil] at h3
  unfold PeelState.reset
  simp only [h1, h2, h3, Option.bind_eq_bind, Option.bind_some]
  exact ⟨_, rfl, ⟨rfl, rfl, rfl, halone, hrev⟩, rfl, rfl⟩

/-! ## One attempt -/

/-- The stack in `reverse_order` and `reverse_h`, with the parameters it was made with. -/
structure PeelState.Stacked (q : Params) (T : List (UInt64 × UInt8)) (size : Nat) (st : PeelState) :
    Prop where
  params : st.params = q
  reverseOrder : st.reverseOrder.length = size + 1
  reverseH : st.reverseH.length = size
  entries : (st.reverseOrder.take size).zip st.reverseH = T.reverse

/-- How the body of the attempt loop ends when the attempt ends in a given way. -/
def Flow.Matches (q : Params) (size : Nat) (rng : UInt64) : Attempt → Flow → Prop
  | .duplicate, .ret rc _ => rc = .duplicateKey
  | .failed, .again st => st.Clean q.arrayLen.toNat size ∧
      st.params = q.withSeed (splitmix64 rng).1 ∧ st.rngCounter = (splitmix64 rng).2
  | .peeled T, .ret rc st => rc = .ok ∧ st.Stacked q T size
  | _, _ => False

/-- The peel loop on its arrays, from the first scan on: it takes away hashes until every slot has none
or more than one left, as the attempt on lists does, and keeps all arrays at their lengths and the
sentinel in place. -/
theorem drain_spec (hq : q.Valid) {M : List UInt64} {tc : List UInt8} {th : List UInt64}
    (ht : Tallied q M tc th) (hsmall : ∀ s, q.deg M s < 64)
    {alone : List UInt32} (halone : alone.length = q.arrayLen.toNat) {reverseH : List UInt8}
    (hrev : reverseH.length = M.length) {ro : List UInt64}
    (hro : ro.length = M.length + 1) (hsent : load ro M.length = some 1) :
    ∃ alone' qsize d S R, scanAlone tc q.arrayLen.toNat alone = some (alone', qsize) ∧
      loop (Drain.step q) (drainFuel M.length q.arrayLen.toNat)
        { alone := alone', qsize := qsize, t2count := tc, t2hash := th, reverseH := reverseH
          reverseOrder := ro, stacksize := 0 } = some d ∧
      d.Sized q.arrayLen.toNat M.length ∧
      d.t2count.length = q.arrayLen.toNat ∧ d.t2hash.length = q.arrayLen.toNat ∧
      Peels q.pos M S R ∧ (∀ s, q.deg R s ≠ 1) ∧ d.toWork.stack = stackBytes S ∧
      peelTables q M.length tc th = some (if d.stacksize = M.length then
        .peeled d.toWork.stack else .failed) := by
  obtain ⟨alone', qsize, hscan, hsized, hwork⟩ :=
    scanAlone_start th ht.count.1 halone hrev hro hsent
  obtain ⟨w, S, R, hloop, hinv, hnil⟩ := work_loop hq (WorkInv.init ht hsmall)
    (length_singletons_le tc q.arrayLen.toNat)
  rw [← hwork] at hloop
  obtain ⟨hmap, hkeep⟩ := drain_loop (p := q) hsized (drainFuel M.length q.arrayLen.toNat)
  obtain ⟨d, hd, hdw⟩ := Option.map_eq_some_iff.mp (hmap.symm.trans hloop)
  have hds := hkeep d hd
  obtain ⟨cnt, hcnt, -⟩ := hinv.count
  obtain ⟨x, hx, -⟩ := hinv.hash
  have hstuck := hinv.stuck hq hnil
  subst hdw
  refine ⟨alone', qsize, d, S, R, hscan, hd, hds, hcnt.1, hx.1, hinv.peels, hstuck, hinv.stack, ?_⟩
  unfold peelTables
  simp only [← hwork, hloop, Option.bind_eq_bind, Option.bind_some, hds.length_stack]

/-- The body of the attempt loop from clean arrays: it runs out of memory, or it ends as the attempt
on lists does. -/
theorem peelIteration_spec {H : Heap} {hashed : List UInt64} {size : UInt32} {iteration : Nat}
    {st : PeelState} (hq : q.Valid) (h2 : 2 ≤ q.segmentLength.toNat)
    (hadj : adjustSegments size iteration st.params = q) (hlen : hashed.length = size.toNat)
    (hclean : st.Clean q.arrayLen.toNat size.toNat) :
    (∃ st', peelIteration H hashed size iteration st = some (.ret .nomem st') ∧
      H.ok (.startPos iteration) = false) ∨
    ∃ r f, attempt q hashed = some r ∧ peelIteration H hashed size iteration st = some f ∧
      f.Matches q size.toNat st.rngCounter r := by
  obtain ⟨bits, ro, c, hbits, hplace, hrolen, hsent, -, hcount, hattempt, hc⟩ :=
    count_spec hq h2 hashed
  rw [← hlen] at hclean ⊢
  unfold peelIteration
  simp only [hadj, hbits, hclean.t2count, hclean.t2hash, hclean.reverseOrder, ← hlen, hplace,
    hcount, Option.bind_eq_bind, Option.bind_some]
  by_cases hmem : 2 ^ bits > st.startPosCap ∧ H.ok (.startPos iteration) = false
  · rw [if_pos hmem]
    exact Or.inl ⟨_, rfl, hmem.2⟩
  rw [if_neg hmem, hattempt]
  right
  cases hd : c.duplicate with
  | true => exact ⟨_, _, rfl, rfl, rfl⟩
  | false =>
    obtain ⟨ht, herr⟩ := hc hd
    simp only [Bool.false_eq_true, if_false]
    cases he : c.hasError with
    | true =>
      simp only [if_true]
      obtain ⟨st', hreset, hst'⟩ := reset_spec
        { st with
          params := q, reverseOrder := ro, t2count := c.t2count, t2hash := c.t2hash
          startPosCap := max st.startPosCap (2 ^ bits) }
        ht.count.1 ht.hash.1 hrolen hsent hclean.alone hclean.reverseH
      exact ⟨_, .again st', rfl, by rw [hreset]; rfl, hst'⟩
    | false =>
      simp only [Bool.false_eq_true, if_false]
      have hsmall : ∀ s, q.deg (q.mixed hashed) s < 64 := deg_lt_of_hasError herr he
      rw [← length_mixed (p := q) hashed] at hrolen hsent
      obtain ⟨alone', qsize, d, -, -, hscan, hloop, hds, hcl, hhl, -, -, -, htab⟩ :=
        drain_spec hq ht hsmall hclean.alone (by rw [length_mixed]; exact hclean.reverseH) hrolen hsent
      rw [length_mixed] at hloop hds htab
      rw [htab, hscan]
      simp only [Option.bind_some, hloop]
      by_cases hss : d.stacksize = hashed.length
      · rw [if_pos hss, if_pos hss]
        refine ⟨_, _, rfl, rfl, rfl, rfl, hds.reverseOrder, hds.reverseH, ?_⟩
        unfold Drain.toWork
        simp only [List.reverse_reverse, hss]
        rw [List.take_of_length_le hds.reverseH.le]
      · rw [if_neg hss, if_neg hss]
        obtain ⟨st', hreset, hst'⟩ := reset_spec
          { st with
            params := q, startPosCap := max st.startPosCap (2 ^ bits)
            alone := d.alone, t2count := d.t2count, t2hash := d.t2hash
            reverseH := d.reverseH, reverseOrder := d.reverseOrder }
          hcl hhl hds.reverseOrder hds.sentinel hds.alone hds.reverseH
        exact ⟨_, .again st', rfl, by rw [hreset]; rfl, hst'⟩

/-! ## All attempts -/

/-- Attempt `k` starts from the parameters that attempt `k - 1` left, with the seed taken at the
reset. -/
theorem Params.Initial.adjustSegments_seeded (h : p.Initial) (size : UInt32) (k : Nat)
    (rng seed : UInt64) : adjustSegments size (k + 1) ((p.seeded size k rng).withSeed seed) =
      (p.atAttempt size (k + 1)).withSeed seed := by
  rw [Params.seeded, withSeed_withSeed, adjustSegments_withSeed, h.adjustSegments_succ]

/-- The attempts of `fcm_peel` from attempt `iteration` on end as the search does, unless an
allocation fails. -/
theorem peelFrom_spec {H : Heap} {hashed : List UInt64} {size : UInt32} (hp : p.Initial)
    (hlen : hashed.length = size.toNat) {left iteration : Nat} {rng : UInt64} {st : PeelState}
    (hadj : adjustSegments size iteration st.params = p.seeded size iteration rng)
    (hrng : st.rngCounter = (splitmix64 rng).2)
    (hclean : st.Clean p.arrayLen.toNat size.toNat) :
    (∃ k st', peelFrom H hashed size left iteration st = some (.nomem, st') ∧
      H.ok (.startPos k) = false) ∨
    ∃ o st', searchFrom p size hashed left iteration rng = some o ∧
      peelFrom H hashed size left iteration st = some (o.rc, st') ∧
      ∀ q T, o = .ok q T → st'.Stacked q T size.toNat := by
  induction left generalizing iteration rng st with
  | zero => exact Or.inr ⟨.constructFail, st, rfl, rfl, by simp⟩
  | succ left ih =>
    have hlenq := seeded_arrayLen (p := p) size iteration rng
    rcases peelIteration_spec (H := H) (hp.seeded_valid size iteration rng)
      (hp.two_le_seeded size iteration rng) hadj hlen (hlenq ▸ hclean) with
      ⟨st', hit, hmem⟩ | ⟨r, f, hr, hit, hf⟩
    · left
      refine ⟨iteration, st', ?_, hmem⟩
      rw [peelFrom, hit]
      rfl
    · rw [searchFrom_succ left iteration rng r hr, peelFrom, hit]
      cases r with
      | duplicate =>
        cases f with
        | again st' => exact hf.elim
        | ret rc st' =>
          obtain rfl : rc = .duplicateKey := hf
          exact Or.inr ⟨.duplicateKey, st', rfl, rfl, by simp⟩
      | peeled T =>
        cases f with
        | again st' => exact hf.elim
        | ret rc st' =>
          obtain ⟨rfl, hst⟩ := hf
          refine Or.inr ⟨.ok (p.seeded size iteration rng) T, st', rfl, rfl, ?_⟩
          intro q T' h
          obtain ⟨rfl, rfl⟩ := Outcome.ok.inj h
          exact hst
      | failed =>
        cases f with
        | ret rc st' => exact hf.elim
        | again st' =>
          obtain ⟨hclean', hparams, hrng'⟩ := hf
          rw [hrng] at hparams hrng'
          refine ih ?_ hrng' (hlenq ▸ hclean')
          rw [hparams, hp.adjustSegments_seeded, Params.seeded]

/-- The sentinel is written to a cleared `reverse_order`. -/
theorem store_sentinel (n : Nat) : store (List.replicate (n + 1) (0 : UInt64)) n 1 =
    some (List.replicate n 0 ++ [1]) := by
  rw [store_of_lt _ (by simp), List.replicate_succ', List.set_append_right _ _ (by simp),
    List.length_replicate, Nat.sub_self]
  rfl

/-- `fcm_peel` on the buffers that a constructor passes it ends as the search does, unless an
allocation of `start_pos` fails. -/
theorem peel_spec {H : Heap} {hashed : List UInt64} {size : UInt32} (hp : p.Initial)
    (hlen : hashed.length = size.toNat) {alone : List UInt32}
    (halone : alone.length = p.arrayLen.toNat) {reverseH : List UInt8}
    (hrev : reverseH.length = size.toNat) :
    (∃ k st', peel H hashed size p alone (List.replicate p.arrayLen.toNat 0)
        (List.replicate p.arrayLen.toNat 0) reverseH (List.replicate (size.toNat + 1) 0) =
          some (.nomem, st') ∧ H.ok (.startPos k) = false) ∨
    ∃ o st', search p size hashed = some o ∧
      peel H hashed size p alone (List.replicate p.arrayLen.toNat 0)
        (List.replicate p.arrayLen.toNat 0) reverseH (List.replicate (size.toNat + 1) 0) =
          some (o.rc, st') ∧
      ∀ q T, o = .ok q T → st'.Stacked q T size.toNat := by
  unfold peel search
  simp only [store_sentinel, Option.bind_eq_bind, Option.bind_some]
  refine peelFrom_spec hp hlen ?_ rfl ⟨rfl, rfl, rfl, halone, hrev⟩
  show adjustSegments size 0 (p.withSeed _) = _
  rw [adjustSegments_withSeed, adjustSegments_zero, Params.seeded]

end FastConstMap
