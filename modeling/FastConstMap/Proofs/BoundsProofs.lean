import FastConstMap.Proofs.RetryProofs

/-!
# Proofs: the array accesses of a construction

Every access of `fcm_peel` and of the assignment loop is in range, in every attempt and for every array
of hashes. An access out of range makes the model undefined, so what is to be shown is that each pass of
each loop has a result on arrays of the lengths that the constructors allocate, together with the facts
that the code relies on without a check: the sentinel, the position numbers and the counters.
-/

namespace FastConstMap

open CLoop Peeling

variable {p q : Params} {size : UInt32} {hashed : List UInt64} {H : Heap}

/-! ## The states of `fcm_peel` -/

/-- The state in which `fcm_peel` enters its first attempt, on the buffers of a constructor. -/
def PeelState.start (H : Heap) (p : Params) (size : UInt32) : PeelState :=
  .fresh (p.withSeed (splitmix64 1).1) size
    { alone := H.malloc .alone p.arrayLen.toNat UInt64.toUInt32
      reverseH := H.malloc .reverseH size.toNat UInt64.toUInt8
      startPosCap := 0
      rngCounter := (splitmix64 1).2 }

/-- `fcm_peel` gets to attempt `k`, in the state `st`. -/
inductive PeelState.AtAttempt (H : Heap) (hashed : List UInt64) (size : UInt32) (start : PeelState) :
    Nat → PeelState → Prop
  | first : AtAttempt H hashed size start 0 start
  | again {k : Nat} {st st' : PeelState} : AtAttempt H hashed size start k st → k < MAX_ITERATIONS →
      peelIteration H hashed size k st = some (.again st') →
      AtAttempt H hashed size start (k + 1) st'

/-- One pass of the peel loop that goes on. -/
def Drain.Pass (q : Params) (d d' : Drain) : Prop := d.step q = some (.next d')

/-! ## What is in range -/

/-- At the head of each pass of the placement loop, `start_pos` has `2^bits` cursors, none of them past
the sentinel, and the sentinel is in place. -/
def PlaceInRange (seed : UInt64) (bits : Nat) (hashed reverseOrder : List UInt64) : Prop :=
  ∀ done rest, hashed = done ++ rest → ∃ ro sp,
    done.foldlM (placeOne seed bits) (reverseOrder, startPositions hashed.length bits) =
      some (ro, sp) ∧
    ro.length = hashed.length + 1 ∧ load ro hashed.length = some 1 ∧
    sp.length = 2 ^ bits ∧ ∀ pos ∈ sp, pos ≤ hashed.length

/-- The counting loop gets through every initial part of the hashes, and the tables keep their length. -/
def CountInRange (q : Params) (hashes : List UInt64) (t2count : List UInt8) (t2hash : List UInt64) :
    Prop :=
  ∀ done rest, hashes = done ++ rest → ∃ c,
    countAll q done ⟨t2count, t2hash, false, false⟩ = some c ∧
    c.t2count.length = q.arrayLen.toNat ∧ c.t2hash.length = q.arrayLen.toNat

/-- A pass of the peel loop that pops `hash` at the slot `idx` with the counter `c`: the position number
is not 3, the stack has room, the two other slots are different slots of the table, their counters do
not fall below 0, and the worklist has room for both writes. -/
def Drain.PopInRange (q : Params) (size : Nat) (d : Drain) (idx : UInt32) (c : UInt8)
    (hash : UInt64) : Prop :=
  c &&& 3 ≠ 3 ∧ d.stacksize < size ∧ ∃ other1 f1 other2 f2, ∃ c1 c2 : UInt8,
    others q hash (c &&& 3) idx = ((other1, f1), (other2, f2)) ∧ other1 ≠ other2 ∧
    other1.toNat < q.arrayLen.toNat ∧ other2.toNat < q.arrayLen.toNat ∧
    load d.t2count other1.toNat = some c1 ∧ 4 ≤ c1 ∧
    load d.t2count other2.toNat = some c2 ∧ 4 ≤ c2 ∧
    d.qsize - 1 < q.arrayLen.toNat ∧
    d.qsize - 1 + (if c1 >>> 2 = 2 then 1 else 0) < q.arrayLen.toNat

/-- A state of the peel loop: its arrays have their lengths, the sentinel is in place, and the next pass
stays in range. -/
structure Drain.InRange (q : Params) (size : Nat) (d : Drain) : Prop where
  sized : d.Sized q.arrayLen.toNat size
  t2count : d.t2count.length = q.arrayLen.toNat
  t2hash : d.t2hash.length = q.arrayLen.toNat
  step : ∃ c, d.step q = some c
  pop : ∀ idx c hash, 0 < d.qsize → load d.alone (d.qsize - 1) = some idx →
    load d.t2count idx.toNat = some c → c >>> 2 = 1 → load d.t2hash idx.toNat = some hash →
    d.PopInRange q size idx c hash

/-- An attempt with the parameters `q`, from the state `st` at its head. -/
structure PeelState.InRange (H : Heap) (hashed : List UInt64) (size : UInt32) (k : Nat) (q : Params)
    (st : PeelState) : Prop where
  params : adjustSegments size k st.params = q
  clean : st.Clean q.arrayLen.toNat hashed.length
  positions : ∀ hash, (q.getH012 hash).1.toNat < q.arrayLen.toNat ∧
    (q.getH012 hash).2.1.toNat < q.arrayLen.toNat ∧ (q.getH012 hash).2.2.toNat < q.arrayLen.toNat
  loops : ∃ bits ro c, blockBits q.segmentCount = some bits ∧
    PlaceInRange q.seed bits hashed st.reverseOrder ∧
    place q.seed bits hashed.length hashed st.reverseOrder = some ro ∧
    CountInRange q (ro.take hashed.length) st.t2count st.t2hash ∧
    countAll q (ro.take hashed.length) ⟨st.t2count, st.t2hash, false, false⟩ = some c ∧
    (c.duplicate = false → c.hasError = false → ∃ alone qsize,
      scanAlone c.t2count q.arrayLen.toNat st.alone = some (alone, qsize) ∧
      ∀ d, Relation.ReflTransGen (Drain.Pass q)
        { alone := alone, qsize := qsize, t2count := c.t2count, t2hash := c.t2hash
          reverseH := st.reverseH, reverseOrder := ro, stacksize := 0 } d → d.InRange q hashed.length)
  ends : ∃ f, peelIteration H hashed size k st = some f

/-- The assignment after a successful `fcm_peel`: every position number is below 3, the binary search of
every entry ends at a pair with the hash of the entry, and the loop gets through in the three layouts. -/
structure AssignInRange (pairs : List Pair) (size : UInt32) (st : PeelState) : Prop where
  entry : ∀ i, i < size.toNat → ∃ hash found lo x, load st.reverseOrder i = some hash ∧
    load st.reverseH i = some found ∧ found < 3 ∧
    loop (pairSearchStep pairs hash) (size.toNat + 1) (0, size.toNat) = some (lo, lo) ∧
    lo < size.toNat ∧ load pairs lo = some x ∧ x.hash = hash
  constmap : ∃ data, assign constmapLayout st.params pairs size.toNat size st.reverseOrder st.reverseH
    (constmapLayout.calloc st.params.arrayLen.toNat) = some data
  verified : ∃ table, assign verifiedLayout st.params pairs size.toNat size st.reverseOrder st.reverseH
    (verifiedLayout.calloc st.params.arrayLen.toNat) = some table
  paired : ∃ slots, assign pairedLayout st.params pairs size.toNat size st.reverseOrder st.reverseH
    (pairedLayout.calloc st.params.arrayLen.toNat) = some slots

/-! ## The loops of an attempt -/

theorem placeInRange {bits : Nat} (hbits : 1 ≤ bits) (hbits' : bits ≤ 31) (seed : UInt64)
    (hashed : List UInt64) :
    PlaceInRange seed bits hashed (List.replicate hashed.length 0 ++ [1]) := by
  rintro done rest heq
  have hle : done.length + ([] : List UInt64).length ≤ hashed.length := by
    rw [heq, List.length_append]
    exact Nat.le_add_right _ _
  obtain ⟨ro, sp, _, hfold, h⟩ :=
    place_foldlM hbits hbits' seed done (PlaceInv.init hashed.length bits) hle
  exact ⟨ro, sp, hfold, h.ro_len, h.sentinel, h.sp_len, h.cursor_le⟩

/-- Also when it ends early, the counting loop leaves tables that tally some of the hashes. -/
theorem countAll_tallied (hp : p.Valid) (l : List UInt64) {R : List UInt64} {c : Counts}
    (h : Tallied p R c.t2count c.t2hash) :
    ∃ c' R', countAll p l c = some c' ∧ Tallied p R' c'.t2count c'.t2hash := by
  induction l generalizing R c with
  | nil => exact ⟨c, R, rfl, h⟩
  | cons hash rest ih =>
    obtain ⟨c1, h1, ht, -⟩ := countOne_spec hp h hash
    have hcons : countAll p (hash :: rest) c =
        if c1.duplicate then some c1 else countAll p rest c1 := by
      simp only [countAll, h1, Option.bind_eq_bind, Option.bind_some]
    rw [hcons]
    split_ifs
    · exact ⟨c1, _, rfl, ht⟩
    · exact ih ht

theorem countInRange (hp : p.Valid) (hashes : List UInt64) :
    CountInRange p hashes (List.replicate p.arrayLen.toNat 0) (List.replicate p.arrayLen.toNat 0) := by
  rintro done rest -
  obtain ⟨c, R, hcount, ht⟩ := countAll_tallied hp done
    (c := ⟨List.replicate p.arrayLen.toNat 0, List.replicate p.arrayLen.toNat 0, false, false⟩)
    Tallied.nil
  exact ⟨c, hcount, ht.count.1, ht.hash.1⟩

/-! ## The peel loop -/

/-- The counter of a slot with a hash left counts it. -/
theorem four_le_counter {R : List UInt64} {s : Nat} (hpos : 0 < p.deg R s) (hsmall : p.deg R s < 64) :
    4 ≤ p.counter R s := by
  rw [← UInt8.not_lt, counter_lt_four]
  omega

/-- The passes that pop a hash stay in range, by the invariant of the peel loop on lists. -/
theorem WorkInv.popInRange (hq : q.Valid) {M : List UInt64} {d : Drain}
    (hd : d.Sized q.arrayLen.toNat M.length) {S : List (UInt64 × Fin 3)} {R : List UInt64}
    (h : WorkInv q M d.toWork S R) {idx : UInt32} {c : UInt8} {hash : UInt64} (hpos : 0 < d.qsize)
    (hidx : load d.alone (d.qsize - 1) = some idx) (hc : load d.t2count idx.toNat = some c)
    (hone : c >>> 2 = 1) (hhash : load d.t2hash idx.toNat = some hash) :
    d.PopInRange q M.length idx c hash := by
  obtain ⟨hlt, rfl⟩ := load_eq_some_iff.mp hidx
  have hq0 := toWork_queue_cons (Nat.ne_of_gt hpos) hlt
  set queue := (d.alone.take (d.qsize - 1)).reverse with hqueue
  set idx := d.alone[d.qsize - 1]
  have hmem : idx ∈ d.toWork.queue := hq0 ▸ List.mem_cons_self ..
  obtain ⟨cnt, hcnt, hcnt'⟩ := h.count
  obtain ⟨x, hx, hx'⟩ := h.hash
  -- The slot has one hash left, which the pass pops.
  have hfresh := h.queue_fresh idx hmem
  rw [← toWork_t2count, hcnt.load (h.queue_lt idx hmem), hcnt' _ hfresh, Option.some.injEq] at hc
  rw [← toWork_t2hash, hx.load (h.queue_lt idx hmem), hx' _ hfresh, Option.some.injEq] at hhash
  subst hc hhash
  have hdeg : q.deg R idx.toNat = 1 := (counter_shift_eq R _ (h.small _)).mp hone
  obtain ⟨a, j, R', hslot, hpop⟩ := exists_popped hdeg
  rw [hslot] at hq0 hdeg ⊢
  rw [slot_toNat] at hdeg ⊢
  have hfound : q.counter R (q.pos a j) &&& 3 = foundByte j := by
    rw [counter_and_three, hpop.bitsAt hq]
  have hload : ∀ i, load d.t2count (q.slot a i).toNat = some (q.counter R (q.pos a i)) := by
    intro i
    rw [← toWork_t2count, slot_toNat, hcnt.load (hq.pos_lt a i), hcnt' _ (h.not_used_pos hpop i)]
  have hfour : ∀ i, 4 ≤ q.counter R (q.pos a i) := by
    intro i
    exact four_le_counter (by rw [hpop.deg_pos]; omega) (h.small _)
  have hne : q.slot a (j + 1) ≠ q.slot a (j + 2) := by
    intro heq
    have hinj := hq.pos_injective a (congrArg UInt32.toNat heq)
    exact (by decide : ∀ j : Fin 3, j + 1 ≠ j + 2) j hinj
  have hqlen : queue.length = d.qsize - 1 := by
    have hlen := hd.length_queue
    rw [hq0, List.length_cons] at hlen
    omega
  obtain ⟨hroom1, hroom2⟩ := h.room_pop hq hq0
  have hcond : q.counter R (q.pos a (j + 1)) >>> 2 = 2 ↔ q.deg R (q.pos a (j + 1)) = 2 :=
    counter_shift_eq R _ (h.small _)
  refine ⟨?_, ?_, q.slot a (j + 1), foundByte (j + 1), q.slot a (j + 2), foundByte (j + 2), _, _, ?_,
    hne, hq.pos_lt a _, hq.pos_lt a _, hload _, hfour _, hload _, hfour _, hqlen ▸ hroom1, ?_⟩
  · rw [hfound]
    exact (by decide : ∀ j : Fin 3, foundByte j ≠ 3) j
  · rw [← hd.length_stack]
    exact hpop.room h
  · rw [hfound, hpop.xorAt hq, others_slot hq]
  · simp only [hcond, ← hqlen]
    unfold Params.pushSlot at hroom2
    split_ifs at hroom2 ⊢
    · exact hroom2
    · exact hroom2

/-- The arrays of the peel loop over the hashes `M`, and the invariant of the lists they stand for. -/
structure Drain.Inv (q : Params) (M : List UInt64) (d : Drain) : Prop where
  sized : d.Sized q.arrayLen.toNat M.length
  work : ∃ S R, WorkInv q M d.toWork S R

theorem Drain.Inv.inRange (hq : q.Valid) {M : List UInt64} {d : Drain} (h : d.Inv q M) :
    d.InRange q M.length := by
  obtain ⟨S, R, hinv⟩ := h.work
  obtain ⟨cnt, hcnt, -⟩ := hinv.count
  obtain ⟨x, hx, -⟩ := hinv.hash
  have hstep : ∃ c, d.step q = some c := by
    have hmap := (step_toWork (p := q) h.sized).1
    obtain ⟨w', hw⟩ : ∃ w', d.toWork.step q q.arrayLen.toNat M.length = some w' := by
      rcases work_step hq d.toWork h.work with ⟨w', hw, -⟩ | ⟨w', hw, -⟩
      · exact ⟨_, hw⟩
      · exact ⟨_, hw⟩
    rw [hw] at hmap
    obtain ⟨c, hc, -⟩ := Option.map_eq_some_iff.mp hmap.symm
    exact ⟨c, hc⟩
  exact
    { sized := h.sized
      t2count := hcnt.1
      t2hash := hx.1
      step := hstep
      pop := fun _ _ _ hpos hidx hc hone hhash =>
        hinv.popInRange hq h.sized hpos hidx hc hone hhash }

/-- A pass keeps the invariant. -/
theorem Drain.Inv.pass (hq : q.Valid) {M : List UInt64} {d d' : Drain} (h : d.Inv q M)
    (hpass : Drain.Pass q d d') : d'.Inv q M := by
  obtain ⟨hmap, hkeep⟩ := step_toWork (p := q) h.sized
  have hsome : d.step q = some (.next d') := hpass
  rw [hsome] at hmap
  refine ⟨hkeep _ hsome, ?_⟩
  obtain ⟨S, R, hinv⟩ := h.work
  obtain ⟨_, _, -, hskip | ⟨a, j, R', -, -, hpop⟩⟩ := hinv.next hq hmap
  · exact ⟨S, R, hskip⟩
  · exact ⟨(a, j) :: S, R', hpop⟩

/-- All states of the peel loop have the invariant. -/
theorem Drain.Inv.reach (hq : q.Valid) {M : List UInt64} {d d' : Drain} (h : d.Inv q M)
    (hreach : Relation.ReflTransGen (Drain.Pass q) d d') : d'.Inv q M := by
  induction hreach with
  | refl => exact h
  | tail _ hpass ih => exact ih.pass hq hpass

/-! ## The attempts -/

/-- What an attempt with the parameters `q` that is followed by another one has left. -/
theorem peelIteration_again (hq : q.Valid) (h2 : 2 ≤ q.segmentLength.toNat) {k : Nat}
    {st st' : PeelState} (hadj : adjustSegments size k st.params = q)
    (hlen : hashed.length = size.toNat) (hclean : st.Clean q.arrayLen.toNat size.toNat)
    (hit : peelIteration H hashed size k st = some (.again st')) :
    st'.Clean q.arrayLen.toNat size.toNat ∧
      st'.params = q.withSeed (splitmix64 st.rngCounter).1 ∧
      st'.rngCounter = (splitmix64 st.rngCounter).2 := by
  rcases peelIteration_spec (H := H) hq h2 hadj hlen hclean with ⟨st'', hret, -⟩ | ⟨r, f, -, hf, hmatch⟩
  · rw [hret] at hit
    simp at hit
  · rw [hf, Option.some.injEq] at hit
    subst hit
    cases r with
    | duplicate => exact hmatch.elim
    | peeled T => exact hmatch.elim
    | failed => exact hmatch

/-- At the head of attempt `k` the arrays are clean, and the parameters and the seed are those of its
number. -/
theorem PeelState.AtAttempt.clean (hp : p.Initial) (hlen : hashed.length = size.toNat) {k : Nat}
    {st : PeelState} (h : PeelState.AtAttempt H hashed size (.start H p size) k st) :
    adjustSegments size k st.params = p.ofAttempt size k ∧ st.rngCounter = rngAt (k + 1) ∧
      st.Clean p.arrayLen.toNat size.toNat := by
  induction h with
  | first =>
    refine ⟨?_, rfl, ⟨rfl, rfl, rfl, length_malloc .., length_malloc ..⟩⟩
    show adjustSegments size 0 (p.withSeed _) = _
    rw [adjustSegments_withSeed, adjustSegments_zero]
    rfl
  | @again k st st' _ _ hit ih =>
    obtain ⟨hadj, hrng, hclean⟩ := ih
    have hlenq := ofAttempt_arrayLen p size k
    obtain ⟨hclean', hparams, hrng'⟩ := peelIteration_again (hp.seeded_valid size k (rngAt k))
      (hp.two_le_seeded size k (rngAt k)) hadj hlen (hlenq ▸ hclean) hit
    rw [hrng] at hparams hrng'
    refine ⟨?_, hrng', hlenq ▸ hclean'⟩
    rw [hparams, hp.adjustSegments_seeded]
    rfl

/-- Every attempt is in range. -/
theorem PeelState.AtAttempt.inRange (hp : p.Initial) (hlen : hashed.length = size.toNat) {k : Nat}
    {st : PeelState} (h : PeelState.AtAttempt H hashed size (.start H p size) k st) :
    st.InRange H hashed size k (p.ofAttempt size k) := by
  obtain ⟨hadj, -, hclean⟩ := h.clean hp hlen
  have hq : (p.ofAttempt size k).Valid := hp.seeded_valid size k (rngAt k)
  have h2 : 2 ≤ (p.ofAttempt size k).segmentLength.toNat := hp.two_le_seeded size k (rngAt k)
  have hlenq := ofAttempt_arrayLen p size k
  set q := p.ofAttempt size k
  rw [← hlenq, ← hlen] at hclean
  obtain ⟨bits, hbits, hb1, hb31⟩ := hq.blockBits_spec h2
  obtain ⟨bits', ro, c, hbits', hplace, hrolen, hsent, hperm, hcount, -, hc⟩ :=
    count_spec hq h2 hashed
  obtain rfl : bits = bits' := Option.some.inj (hbits.symm.trans hbits')
  refine
    { params := hadj
      clean := hclean
      positions := fun hash => ⟨hq.pos_lt hash 0, hq.pos_lt hash 1, hq.pos_lt hash 2⟩
      loops := ?_
      ends := ?_ }
  · rw [hclean.t2count, hclean.t2hash, hclean.reverseOrder]
    refine ⟨bits, ro, c, hbits, placeInRange hb1 hb31 q.seed hashed, hplace, countInRange hq _, hcount,
      ?_⟩
    intro hd he
    obtain ⟨ht, herr⟩ := hc hd
    have hsmall : ∀ s, q.deg (q.mixed hashed) s < 64 := deg_lt_of_hasError herr he
    obtain ⟨alone, qsize, hscan, hsized, hwork⟩ :=
      scanAlone_start c.t2hash ht.count.1 hclean.alone hclean.reverseH hrolen hsent
    refine ⟨alone, qsize, hscan, ?_⟩
    intro d hreach
    rw [← length_mixed (p := q) hashed] at hsized ⊢
    have hstart : Drain.Inv q (q.mixed hashed) _ :=
      ⟨hsized, [], q.mixed hashed, hwork ▸ WorkInv.init ht hsmall⟩
    exact (hstart.reach hq hreach).inRange hq
  · rw [hlen] at hclean
    rcases peelIteration_spec (H := H) hq h2 hadj hlen hclean with ⟨st', hit, -⟩ | ⟨_, f, -, hit, -⟩
    · exact ⟨_, hit⟩
    · exact ⟨f, hit⟩

/-- `fcm_peel` on the buffers of a constructor runs its attempts from the start state on. -/
theorem peel_eq_start (H : Heap) (hashed : List UInt64) (size : UInt32) (p : Params) :
    peel H hashed size p (H.malloc .alone p.arrayLen.toNat UInt64.toUInt32)
      (List.replicate p.arrayLen.toNat 0) (List.replicate p.arrayLen.toNat 0)
      (H.malloc .reverseH size.toNat UInt64.toUInt8) (List.replicate (size.toNat + 1) 0) =
    peelFrom H hashed size (MAX_ITERATIONS + 1) 0 (.start H p size) := by
  unfold peel
  rw [store_sentinel]
  rfl

/-! ## The assignment -/

section Assign

variable {pairs : List Pair} {st : PeelState} {S : List (UInt64 × Fin 3)}

/-- The pairs of an assignment are sorted, and hold the hashes of the stack, all distinct. -/
structure PairsOf (S : List (UInt64 × Fin 3)) (pairs : List Pair) : Prop where
  sorted : SortedPairs pairs
  perm : (pairs.map Pair.hash).Perm (S.map Prod.fst)
  nodup : (S.map Prod.fst).Nodup

/-- The binary search of a stack entry ends at the pair with its hash. -/
theorem PairsOf.search (h : PairsOf S pairs) {e : UInt64 × Fin 3} (he : e ∈ S) :
    ∃ lo x, loop (pairSearchStep pairs e.1) (pairs.length + 1) (0, pairs.length) = some (lo, lo) ∧
      lo < pairs.length ∧ load pairs lo = some x ∧ x.hash = e.1 := by
  obtain ⟨x, hx, hxe⟩ := List.mem_map.mp (h.perm.mem_iff.mpr (List.mem_map_of_mem he))
  obtain ⟨lo, hloop, hload⟩ := pairSearch_spec h.sorted (h.perm.nodup_iff.mpr h.nodup) hx
  rw [hxe] at hloop
  exact ⟨lo, x, hloop, (load_eq_some_iff.mp hload).1, hload, hxe⟩

theorem PairsOf.lookup (h : PairsOf S pairs) : ∃ val : UInt64 → UInt64,
    ∀ e ∈ S, pairLookup pairs pairs.length e.1 = some (val e.1) := by
  refine ⟨fun a => (pairLookup pairs pairs.length a).getD 0, ?_⟩
  intro e he
  obtain ⟨lo, x, hloop, -, hload, -⟩ := h.search he
  unfold pairLookup
  simp only [hloop, hload, Option.bind_eq_bind, Option.bind_some, Option.getD_some]

/-- The entry `i` of the arrays of a stack. -/
theorem PeelState.Stacked.entry {n : Nat} (hst : st.Stacked q (stackBytes S) n) {i : Nat} (hi : i < n) :
    ∃ e ∈ S, load st.reverseOrder i = some e.1 ∧ load st.reverseH i = some (foundByte e.2) := by
  have hro : i < st.reverseOrder.length := by rw [hst.reverseOrder]; omega
  have hrh : i < st.reverseH.length := by rw [hst.reverseH]; exact hi
  have hzip : i < ((st.reverseOrder.take n).zip st.reverseH).length := by
    rw [List.length_zip, List.length_take, hst.reverseOrder, hst.reverseH]
    omega
  have hmem : (st.reverseOrder[i], st.reverseH[i]) ∈ stackBytes S := by
    rw [← List.mem_reverse, ← hst.entries]
    have hget : ((st.reverseOrder.take n).zip st.reverseH)[i] =
        (st.reverseOrder[i], st.reverseH[i]) := by
      simp only [List.getElem_zip, List.getElem_take]
    exact hget ▸ List.getElem_mem hzip
  obtain ⟨e, he, heq⟩ := List.mem_map.mp hmem
  obtain ⟨h1, h2⟩ := Prod.mk.inj heq
  exact ⟨e, he, by rw [load_of_lt hro, ← h1], by rw [load_of_lt hrh, ← h2]⟩

theorem assignInRange (hq : q.Valid) (hpairs : PairsOf S pairs) (hn : pairs.length = size.toNat)
    (hst : st.Stacked q (stackBytes S) size.toNat) (hpos : 0 < size.toNat)
    (hlt : size.toNat < 2 ^ 31) : AssignInRange pairs size st := by
  have hassign : ∀ {τ : Type} {Ly : Layout τ} {Rep : τ → Nat → (Nat → Slot) → Prop}
      {answer : Slot → UInt64 → UInt64}, Ly.Lawful Rep answer →
      ∃ table, assign Ly st.params pairs size.toNat size st.reverseOrder st.reverseH
        (Ly.calloc st.params.arrayLen.toNat) = some table := by
    intro τ Ly Rep answer hLy
    rw [hst.params, assign_eq_foldlM hst hpos hlt, ← hn]
    obtain ⟨val, hval⟩ := hpairs.lookup
    obtain ⟨table, hfold, -⟩ := assign_stack hLy hq hval (hLy.calloc q.arrayLen.toNat)
    exact ⟨table, hfold⟩
  refine ⟨?_, hassign constmapLayout_lawful, hassign verifiedLayout_lawful,
    hassign pairedLayout_lawful⟩
  intro i hi
  obtain ⟨e, he, hro, hrh⟩ := hst.entry hi
  obtain ⟨lo, x, hloop, hlo, hload, hx⟩ := hpairs.search he
  rw [hn] at hloop hlo
  exact ⟨e.1, foundByte e.2, lo, x, hro, hrh, (by decide : ∀ j : Fin 3, foundByte j < 3) e.2, hloop,
    hlo, hload, hx⟩

end Assign

/-- Every array access of a construction is in range, in every attempt and in the assignment: for every
array of at most `2^31 - 1` hashes, every segment length and every capacity, whatever the allocator
leaves in the buffers and whichever of its reallocations fail. -/
theorem construction_in_range {segmentLength : UInt32} {k : Nat} (h2 : 2 ≤ k) (h18 : k ≤ 18)
    (hpow : segmentLength.toNat = 2 ^ k) (capacity : UInt32) {hashed values : List UInt64}
    (hvalues : values.length = hashed.length) (hpos : 1 ≤ hashed.length)
    (hlen : hashed.length ≤ 2 ^ 31 - 1) (H : Heap) (Q : Qsort) :
    let p := Params.ofCapacity segmentLength capacity
    let size := UInt32.ofNat hashed.length
    let run := peel H hashed size p (H.malloc .alone p.arrayLen.toNat UInt64.toUInt32)
      (List.replicate p.arrayLen.toNat 0) (List.replicate p.arrayLen.toNat 0)
      (H.malloc .reverseH size.toNat UInt64.toUInt8) (List.replicate (size.toNat + 1) 0)
    run = peelFrom H hashed size (MAX_ITERATIONS + 1) 0 (.start H p size) ∧
    (∀ i st, PeelState.AtAttempt H hashed size (.start H p size) i st →
      ∃ q : Params, q.arrayLen = p.arrayLen ∧ st.InRange H hashed size i q) ∧
    ∃ rc st, run = some (rc, st) ∧ (rc = .ok → st.params.arrayLen = p.arrayLen ∧
      AssignInRange
        (Q.sort (List.zipWith (fun h v => ⟨mixsplit h st.params.seed, v⟩) hashed values)) size st) := by
  intro p size run
  have hp : p.Initial := ofCapacity_initial h2 h18 hpow capacity
  have hsize : hashed.length = size.toNat := by
    rw [UInt32.toNat_ofNat', Nat.mod_eq_of_lt (by omega)]
  refine ⟨peel_eq_start H hashed size p, ?_, ?_⟩
  · intro i st hat
    refine ⟨p.ofAttempt size i, ?_, hat.inRange hp hsize⟩
    rw [ofAttempt_arrayLen]
  rcases peel_spec (H := H) hp hsize (length_malloc H .alone p.arrayLen.toNat UInt64.toUInt32)
    (length_malloc H .reverseH size.toNat UInt64.toUInt8) with
    ⟨_, st, hpeel, -⟩ | ⟨o, st, hsearch, hpeel, hst⟩
  · exact ⟨.nomem, st, hpeel, fun hrc => absurd hrc (by decide)⟩
  refine ⟨o.rc, st, hpeel, ?_⟩
  intro hrc
  obtain ⟨q, T, rfl⟩ := Outcome.ok_of_rc hrc
  obtain ⟨S, rfl, hq, helim, hperm⟩ := search_ok hp hsearch
  obtain ⟨i, rng, hqp, -⟩ := searchFrom_ok hp hsearch
  have hstq := hst q _ rfl
  set pairs := Q.sort (List.zipWith (fun h v => ⟨mixsplit h st.params.seed, v⟩) hashed values)
  have hsort := Q.perm (List.zipWith (fun h v => ⟨mixsplit h st.params.seed, v⟩) hashed values)
  -- The pairs hold the mixed hashes, whatever the values are.
  have hhash : (pairs.map Pair.hash).Perm (q.mixed hashed) := by
    refine (hsort.map Pair.hash).trans ?_
    have hzip : List.map Prod.fst (List.zip hashed values) = hashed :=
      List.map_fst_zip hvalues.ge
    rw [List.map_zipWith, hstq.params, Params.mixed]
    conv_rhs => rw [← hzip, List.map_map]
    rw [← List.map_uncurry_zip_eq_zipWith]
    exact List.Perm.refl _
  have hn : pairs.length = size.toNat := by
    rw [hsort.length_eq, List.length_zipWith, hvalues, Nat.min_self, hsize]
  refine ⟨?_, assignInRange hq ⟨Q.sortedPairs _, hhash.trans hperm.symm, helim.nodup⟩ hn hstq
    (by omega) (by omega)⟩
  rw [hstq.params, hqp, seeded_arrayLen]

/-- Two hashes in three segments of four slots. -/
theorem construction_in_range_two :
    let p := Params.ofCapacity 4 12
    (∃ q : Params, q.arrayLen = p.arrayLen ∧
      (PeelState.start smallHeap p 2).InRange smallHeap [1, 2] 2 0 q) ∧
    ∃ st, peel smallHeap [1, 2] 2 p (smallHeap.malloc .alone p.arrayLen.toNat UInt64.toUInt32)
        (List.replicate p.arrayLen.toNat 0) (List.replicate p.arrayLen.toNat 0)
        (smallHeap.malloc .reverseH 2 UInt64.toUInt8) (List.replicate 3 0) = some (.ok, st) ∧
      st.params.arrayLen = p.arrayLen ∧
      AssignInRange (Qsort.insertion.sort
        (List.zipWith (fun h v => ⟨mixsplit h st.params.seed, v⟩) [1, 2] [100, 200])) 2 st := by
  intro p
  have hpow : (4 : UInt32).toNat = 2 ^ 2 := rfl
  have hvalues : ([100, 200] : List UInt64).length = ([1, 2] : List UInt64).length := rfl
  have hpeel : (peel smallHeap [1, 2] 2 p
      (smallHeap.malloc .alone p.arrayLen.toNat UInt64.toUInt32)
      (List.replicate p.arrayLen.toNat 0) (List.replicate p.arrayLen.toNat 0)
      (smallHeap.malloc .reverseH 2 UInt64.toUInt8) (List.replicate 3 0)).map Prod.fst = some .ok := by
    decide +kernel
  obtain ⟨-, hattempt, rc, st, hrun, hassign⟩ := construction_in_range (le_refl 2) (by decide) hpow 12
    hvalues (by decide) (by decide) smallHeap Qsort.insertion
  obtain rfl : rc = .ok := Option.some.inj ((congrArg (Option.map Prod.fst) hrun).symm.trans hpeel)
  exact ⟨hattempt 0 _ .first, st, hrun, hassign rfl⟩

end FastConstMap
