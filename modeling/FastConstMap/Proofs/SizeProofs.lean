import FastConstMap.Proofs.DuplicateProofs

/-!
# Proofs: the assignment loop and the number of keys

The constructors admit every size below `2^32`, but the index of the assignment loop is an `int32_t`. Up
to `2^31 - 1` keys it visits every stack entry; from there on it overflows or visits none.
-/

namespace FastConstMap

open CLoop Peeling

variable {τ : Type}

/-! ## The visits -/

/-- The indices that the assignment loop visits, in order. -/
def assignVisits (size : UInt32) : Option (List Nat) := do
  let start ← int32Pred size
  forDown (fun i visits => some (visits ++ [i])) (start + 1).toNat []

/-- The assignment of the stack entries with the given indices, in order. -/
def assignVisited (Ly : Layout τ) (p : Params) (pairs : List Pair) (n : Nat)
    (reverseOrder : List UInt64) (reverseH : List UInt8) (visits : List Nat) (table : τ) :
    Option τ :=
  visits.foldlM (fun table i => assignOne Ly p pairs n reverseOrder reverseH i table) table

theorem foldlM_append_singleton (l visits : List Nat) :
    l.foldlM (fun visits i => some (visits ++ [i])) visits = some (visits ++ l) := by
  induction l generalizing visits with
  | nil => simp
  | cons i l ih =>
    rw [List.foldlM_cons]
    show l.foldlM (fun visits i => some (visits ++ [i])) (visits ++ [i]) = _
    rw [ih, List.append_assoc]
    rfl

theorem assignVisits_eq (size : UInt32) : assignVisits size =
    (int32Pred size).map fun start => (List.range (start + 1).toNat).reverse := by
  unfold assignVisits
  cases int32Pred size with
  | none => rfl
  | some start =>
    simp only [Option.bind_eq_bind, Option.bind_some, Option.map_some]
    rw [forDown_eq_range, foldlM_append_singleton, List.nil_append]

/-- The assignment phase assigns the entries that its loop visits. -/
theorem assign_eq_visits (Ly : Layout τ) (p : Params) (pairs : List Pair) (n : Nat) (size : UInt32)
    (reverseOrder : List UInt64) (reverseH : List UInt8) (table : τ) :
    assign Ly p pairs n size reverseOrder reverseH table = (assignVisits size).bind fun visits =>
      assignVisited Ly p pairs n reverseOrder reverseH visits table := by
  rw [assignVisits_eq]
  unfold assign assignVisited
  cases int32Pred size with
  | none => rfl
  | some start => exact forDown_eq_range _ _ _

theorem int32Pred_of_lt {size : UInt32} (h : size.toNat < 2 ^ 31) :
    int32Pred size = some ((size.toNat : Int) - 1) := by
  unfold int32Pred
  simp only [if_pos h]
  rw [if_neg (by omega)]

theorem int32Pred_of_gt {size : UInt32} (h : 2 ^ 31 < size.toNat) :
    int32Pred size = some ((size.toNat : Int) - 2 ^ 32 - 1) := by
  unfold int32Pred
  simp only [if_neg (show ¬ size.toNat < 2 ^ 31 by omega)]
  rw [if_neg (by omega)]

/-- Up to `2^31 - 1` the loop visits all indices, at `2^31` its start overflows, and above it visits
none. -/
theorem assignVisits_cases (size : UInt32) :
    (size.toNat < 2 ^ 31 ∧ assignVisits size = some (List.range size.toNat).reverse) ∨
    (size.toNat = 2 ^ 31 ∧ assignVisits size = none) ∨
    (2 ^ 31 < size.toNat ∧ assignVisits size = some []) := by
  rw [assignVisits_eq]
  rcases Nat.lt_trichotomy size.toNat (2 ^ 31) with h | h | h
  · refine Or.inl ⟨h, ?_⟩
    rw [int32Pred_of_lt h, Option.map_some, Int.sub_add_cancel, Int.toNat_natCast]
  · refine Or.inr (Or.inl ⟨h, ?_⟩)
    have hnone : int32Pred size = none := by
      unfold int32Pred
      simp only [h, Nat.lt_irrefl, if_false]
      decide
    rw [hnone, Option.map_none]
  · refine Or.inr (Or.inr ⟨h, ?_⟩)
    have hlt := size.toNat_lt
    have hcount : ((size.toNat : Int) - 2 ^ 32 - 1 + 1).toNat = 0 := by omega
    rw [int32Pred_of_gt h, Option.map_some, hcount]
    rfl

/-! ## The constructors -/

/-- What a constructor returns after a successful `fcm_peel`, when its assignment loop has visited the
given indices. -/
def Env.assigned (E : Env) (Ly : Layout τ) (hash : UInt32) (entries : List (Bytes × UInt64))
    (st : PeelState) (visits : List Nat) : Option (Rc × MapOf τ) := do
  let size := UInt32.ofNat entries.length
  let table ← assignVisited Ly st.params (E.sortedPairs hash entries st.params) entries.length
    st.reverseOrder st.reverseH visits (Ly.calloc (initParams E.libm size).arrayLen.toNat)
  some (.ok, st.params.toMap size hash table)

/-- After a successful `fcm_peel` a constructor assigns what its loop visits. -/
theorem newWithHash_of_peel (Ly : Layout τ) (E : Env) {H : Heap} (out : MapOf τ) {hash : UInt32}
    {entries : List (Bytes × UInt64)} {st : PeelState} (hknown : KnownHash hash)
    (hpos : 0 < entries.length) (hlen : entries.length ≤ 0xFFFFFFFF)
    (halloc : ∀ b ∈ scratchBuffers ++ Ly.buffers, H.ok b = true)
    (hpeel : E.peelRun H hash entries = some (.ok, st)) :
    newWithHash Ly E H out entries hash =
      (assignVisits (UInt32.ofNat entries.length)).bind (E.assigned Ly hash entries st) := by
  rw [newWithHash_eq Ly E H out hknown hpos (by omega), if_neg (not_not.mpr halloc), hpeel,
    Option.bind_some, if_neg (not_not.mpr rfl), assign_eq_visits, Option.map_bind]
  refine congrArg _ (funext fun visits => ?_)
  exact Option.map_eq_bind

/-- After a successful `fcm_peel` the constructors assign the entries that their loop visits, and these
are all entries, each once and from the last one down, exactly for up to `2^31 - 1` keys. -/
theorem assignment_complete_iff (E : Env) (H : Heap) (hash : UInt32)
    (entries : List (Bytes × UInt64)) (st : PeelState) (hknown : KnownHash hash)
    (hpos : 1 ≤ entries.length) (hlen : entries.length ≤ 0xFFFFFFFF)
    (halloc : ∀ b ∈ scratchBuffers ++ [.data, .checks, .slots], H.ok b = true)
    (hpeel : E.peelRun H hash entries = some (.ok, st)) :
    let visits := assignVisits (UInt32.ofNat entries.length)
    (∀ out, constmapNewWithHash E H out entries hash =
      visits.bind (E.assigned constmapLayout hash entries st)) ∧
    (∀ out, verifiedConstmapNewWithHash E H out entries hash =
      visits.bind (E.assigned verifiedLayout hash entries st)) ∧
    (∀ out, pairedVerifiedConstmapNewWithHash E H out entries hash =
      visits.bind (E.assigned pairedLayout hash entries st)) ∧
    (visits = some (List.range entries.length).reverse ↔ entries.length ≤ 2 ^ 31 - 1) := by
  intro visits
  have hsize : (UInt32.ofNat entries.length).toNat = entries.length := by
    rw [UInt32.toNat_ofNat', Nat.mod_eq_of_lt (by omega)]
  have hbuffers : ∀ bs ⊆ [Buffer.data, .checks, .slots],
      ∀ b ∈ scratchBuffers ++ bs, H.ok b = true := by
    intro bs hbs b hb
    rcases List.mem_append.mp hb with hb | hb
    · exact halloc b (List.mem_append_left _ hb)
    · exact halloc b (List.mem_append_right _ (hbs hb))
  have hnew : ∀ {τ : Type} (Ly : Layout τ) (out : MapOf τ), Ly.buffers ⊆ [.data, .checks, .slots] →
      newWithHash Ly E H out entries hash = visits.bind (E.assigned Ly hash entries st) :=
    fun Ly out hb => newWithHash_of_peel Ly E out hknown hpos hlen (hbuffers _ hb) hpeel
  refine ⟨fun out => hnew constmapLayout out (by simp [constmapLayout]),
    fun out => hnew verifiedLayout out (by simp [verifiedLayout]),
    fun out => hnew pairedLayout out (by simp [pairedLayout]), ?_⟩
  have hcases := assignVisits_cases (UInt32.ofNat entries.length)
  rw [hsize] at hcases
  rcases hcases with ⟨hlt, hv⟩ | ⟨heq, hv⟩ | ⟨hgt, hv⟩
  · exact iff_of_true hv (by omega)
  · refine iff_of_false ?_ (by omega)
    simp only [visits, hv]
    simp
  · refine iff_of_false ?_ (by omega)
    simp only [visits, hv, Option.some.injEq]
    intro hnil
    have hlength := congrArg List.length hnil
    rw [List.length_reverse, List.length_range] at hlength
    simp at hlength
    omega

theorem assignment_complete_iff_two :
    let entries : List (Bytes × UInt64) := [([0x61], 100), ([0x62], 200)]
    ∃ st, smallEnv.peelRun smallHeap HASH_XXH64 entries = some (.ok, st) ∧
      constmapNewWithHash smallEnv smallHeap constmapLayout.zeroMap entries HASH_XXH64 =
        (assignVisits 2).bind (smallEnv.assigned constmapLayout HASH_XXH64 entries st) ∧
      assignVisits 2 = some [1, 0] := by
  intro entries
  have hok : (smallEnv.peelRun smallHeap HASH_XXH64 entries).map Prod.fst = some .ok := by
    decide +kernel
  obtain ⟨⟨rc, st⟩, hpeel, hrc⟩ := Option.map_eq_some_iff.mp hok
  obtain rfl : rc = .ok := hrc
  obtain ⟨h1, -, -, hiff⟩ := assignment_complete_iff smallEnv smallHeap HASH_XXH64 entries st
    (Or.inl rfl) (by decide) (by decide) (fun _ _ => rfl) hpeel
  exact ⟨st, hpeel, h1 _, hiff.mpr (by decide)⟩

/-! ## A map of too many keys -/

/-- The sizing for `2^31 + 1` keys: segments of `2^18` slots, and a capacity of 2415919105. -/
def hugeEnv : Env where
  keyHash := wordKeyHash
  libm := ⟨fun _ => 20, fun _ => 2415919105, fun _ => by decide, fun _ => by decide⟩
  qsort := Qsort.insertion

/-- The parameters of the first attempt. -/
def hugeParams : Params :=
  { seed := (splitmix64 1).1
    segmentLength := 262144
    segmentLengthMask := 262143
    segmentCount := 9215
    segmentCountLength := 2415656960
    arrayLen := 2416181248 }

/-- The least multiple of `2^32` with first position `v`. -/
def hugeHash (v : Nat) : UInt64 :=
  UInt64.ofNat (2 ^ 32 * ((v * 2 ^ 32 + 2415656959) / 2415656960))

theorem hugeParams_eq :
    (initParams hugeEnv.libm 2147483649).ofAttempt 2147483649 0 = hugeParams := by
  decide +kernel

section Positions

variable {v : Nat}

theorem hugeHash_toNat (hv : v ≤ 2 ^ 31) : ∃ y, (hugeHash v).toNat = 2 ^ 32 * y ∧
    v * 2 ^ 32 ≤ 2415656960 * y ∧ 2415656960 * y < (v + 1) * 2 ^ 32 := by
  refine ⟨(v * 2 ^ 32 + 2415656959) / 2415656960, ?_, by omega, by omega⟩
  rw [hugeHash, UInt64.toNat_ofNat', Nat.mod_eq_of_lt (by omega)]

theorem pos_hugeHash (hv : v ≤ 2 ^ 31) : hugeParams.pos (hugeHash v) 0 = v ∧
    hugeParams.pos (hugeHash v) 2 = v + 2 ^ 19 ∧
    ∃ i, i < 16 ∧ hugeParams.pos (hugeHash v) 1 = (v + 2 ^ 18) ^^^ (2 ^ 14 * i) := by
  obtain ⟨y, hy, hle, hlt⟩ := hugeHash_toNat hv
  have hscl : hugeParams.segmentCountLength.toNat = 2415656960 := rfl
  have hlen : hugeParams.segmentLength.toNat = 2 ^ 18 := rfl
  have hmask : hugeParams.segmentLengthMask.toNat = 2 ^ 18 - 1 := rfl
  have hhigh : 2 ^ 32 * y * 2415656960 / 2 ^ 64 = v := by omega
  refine ⟨?_, ?_, y % 16, Nat.mod_lt _ (by decide), ?_⟩
  · unfold Params.pos
    rw [position_zero_toNat, hy, hscl, hhigh]
  · unfold Params.pos
    rw [position_two_toNat, hy, hscl, hhigh, hlen, hmask, Nat.mul_mod_right, Nat.zero_and,
      Nat.xor_zero, Nat.mod_eq_of_lt (by omega)]
    rfl
  · unfold Params.pos
    rw [position_one_toNat, hy, hscl, hhigh, hlen, hmask, Nat.and_two_pow_sub_one_eq_mod,
      Nat.mod_eq_of_lt (by omega)]
    congr 1
    omega

/-- No later hash has the first position of an earlier one: their other positions are in the segments
after their first one. -/
theorem not_touches_hugeHash {v' : Nat} (hv' : v' ≤ 2 ^ 31) (h : v < v') :
    ¬ Touches hugeParams.pos (hugeHash v') (hugeParams.pos (hugeHash v) 0) := by
  obtain ⟨h0, h2, i, hi, h1⟩ := pos_hugeHash hv'
  rw [(pos_hugeHash (h.le.trans hv')).1]
  rintro ⟨j, hj⟩
  match j with
  | 0 => omega
  | 1 =>
    have hdiv : ((v' + 2 ^ 18) ^^^ (2 ^ 14 * i)) / 2 ^ 18 = (v' + 2 ^ 18) / 2 ^ 18 :=
      Words.xor_div_of_lt (by omega)
    rw [h1] at hj
    omega
  | 2 => omega

end Positions

section Hashes

variable {n : Nat}

def hugeHashes (n : Nat) : List UInt64 := (List.range n).map hugeHash

theorem eliminates_hugeHashes (hn : n ≤ 2 ^ 31 + 1) : Eliminates hugeParams.pos (hugeHashes n) := by
  have hpair : ∀ l : List Nat, l.Pairwise (· < ·) → (∀ v ∈ l, v ≤ 2 ^ 31) →
      Eliminates hugeParams.pos (l.map hugeHash) := by
    intro l hl hle
    induction l with
    | nil => exact trivial
    | cons v l ih =>
      obtain ⟨hv, hl⟩ := List.pairwise_cons.mp hl
      refine ⟨⟨0, ?_⟩, ih hl fun v hv => hle v (List.mem_cons_of_mem _ hv)⟩
      intro b hb
      obtain ⟨v', hv', rfl⟩ := List.mem_map.mp hb
      exact not_touches_hugeHash (hle v' (List.mem_cons_of_mem _ hv')) (hv v' hv')
  refine hpair (List.range n) List.pairwise_lt_range ?_
  intro v hv
  have := List.mem_range.mp hv
  omega

theorem map_pos_hugeHashes (hn : n ≤ 2 ^ 31 + 1) :
    (hugeHashes n).map (hugeParams.pos · 0) = List.range n := by
  rw [hugeHashes, List.map_map]
  refine (List.map_congr_left ?_).trans (List.map_id _)
  intro v hv
  have hlt := List.mem_range.mp hv
  rw [Function.comp_apply, (pos_hugeHash (by omega)).1, id]

/-- The first positions of the hashes that can be at slot `s`. -/
def hugeCandidates (s : Nat) : List Nat :=
  s :: (s - 2 ^ 19) :: (List.range 16).map fun i => (s ^^^ (2 ^ 14 * i)) - 2 ^ 18

theorem deg_hugeHashes_le (hn : n ≤ 2 ^ 31 + 1) (s : Nat) :
    hugeParams.deg (hugeHashes n) s ≤ 18 := by
  have hlen : (hugeCandidates s).length = 18 := by simp [hugeCandidates]
  rw [← hlen]
  refine degree_le_of_nodup_map (f := fun a => hugeParams.pos a 0) ?_ ?_
  · rw [map_pos_hugeHashes hn]
    exact List.nodup_range
  · intro a ha ht
    obtain ⟨v, hv, rfl⟩ := List.mem_map.mp ha
    have hlt := List.mem_range.mp hv
    obtain ⟨h0, h2, i, hi, h1⟩ := pos_hugeHash (show v ≤ 2 ^ 31 by omega)
    obtain ⟨j, hj⟩ := ht
    show hugeParams.pos (hugeHash v) 0 ∈ _
    rw [h0]
    unfold hugeCandidates
    match j with
    | 0 =>
      have hs : v = s := h0.symm.trans hj
      exact hs ▸ List.mem_cons_self ..
    | 2 =>
      have hs : v = s - 2 ^ 19 := by omega
      exact List.mem_cons_of_mem _ (hs ▸ List.mem_cons_self ..)
    | 1 =>
      have hs : v = (s ^^^ (2 ^ 14 * i)) - 2 ^ 18 := by
        rw [← hj, h1, Nat.xor_assoc, Nat.xor_self, Nat.xor_zero, Nat.add_sub_cancel]
      exact List.mem_cons_of_mem _ (List.mem_cons_of_mem _
        (List.mem_map.mpr ⟨i, List.mem_range.mpr hi, hs.symm⟩))

/-- The keys of 8 bytes that the first attempt mixes to these hashes, all with the value 1. -/
def hugeEntries (n : Nat) : List (Bytes × UInt64) :=
  (hugeHashes n).map fun a => (wordKey a hugeParams.seed, 1)

@[simp] theorem length_hugeEntries (n : Nat) : (hugeEntries n).length = n := by
  rw [hugeEntries, List.length_map, hugeHashes, List.length_map, List.length_range]

theorem hashed_hugeEntries (n : Nat) : hugeEnv.hashed HASH_XXH64 (hugeEntries n) =
    (hugeHashes n).map fun a => unmix a hugeParams.seed := by
  rw [Env.hashed, hugeEntries, List.map_map]
  refine List.map_congr_left ?_
  intro a _
  rw [Function.comp_apply]
  exact hashKey_wordKey a hugeParams.seed

theorem mixed_hugeEntries (n : Nat) :
    hugeParams.mixed (hugeEnv.hashed HASH_XXH64 (hugeEntries n)) = hugeHashes n := by
  rw [hashed_hugeEntries, Params.mixed, List.map_map]
  refine (List.map_congr_left ?_).trans (List.map_id _)
  intro a _
  rw [Function.comp_apply, mixsplit_unmix, id]

theorem hugeParams_valid : hugeParams.Valid ∧ 2 ≤ hugeParams.segmentLength.toNat := by
  have hp := initParams_initial hugeEnv.libm 2147483649
  rw [← hugeParams_eq]
  exact ⟨hp.seeded_valid _ _ _, hp.two_le_seeded _ _ _⟩

theorem nodup_hashed_hugeEntries (hn : n ≤ 2 ^ 31 + 1) :
    (hugeEnv.hashed HASH_XXH64 (hugeEntries n)).Nodup := by
  have h := (eliminates_hugeHashes hn).nodup
  rw [← mixed_hugeEntries] at h
  exact List.Nodup.of_map _ h

/-- The first attempt on these keys peels all of them. -/
theorem attempt_hugeEntries (hn : n ≤ 2 ^ 31 + 1) :
    ∃ T, attempt hugeParams (hugeEnv.hashed HASH_XXH64 (hugeEntries n)) = some (.peeled T) := by
  have hvalid := hugeParams_valid
  have hpeel : hugeParams.Peelable (hugeHashes n) := by
    refine ⟨?_, hugeHashes n, List.Perm.refl _, eliminates_hugeHashes hn⟩
    intro s
    exact lt_of_le_of_lt (deg_hugeHashes_le hn s) (by decide)
  have hnodup := nodup_hashed_hugeEntries hn
  obtain ⟨hperm, c, -, halarm, hattempt⟩ := count_arrivals hvalid.1 hvalid.2 hnodup
  rw [mixed_hugeEntries] at hperm
  have hne : attempt hugeParams (hugeEnv.hashed HASH_XXH64 (hugeEntries n)) ≠ some .duplicate := by
    intro hdup
    obtain ⟨counted, rest, s, heq, hs⟩ := halarm.mp (hattempt.mp hdup)
    have h18 := deg_hugeHashes_le hn s
    rw [← show hugeParams.deg _ s = hugeParams.deg (hugeHashes n) s from degree_perm hperm s, heq]
      at h18
    have hle : hugeParams.deg counted s ≤ hugeParams.deg (counted ++ rest) s :=
      degree_le_append counted rest s
    have hcrowded := hs.crowded
    omega
  rcases attempt_of_ne_duplicate hvalid.1 hvalid.2 hne with ⟨-, h⟩ | ⟨hno, -⟩
  · exact h
  · rw [mixed_hugeEntries] at hno
    exact absurd hpeel hno

theorem search_hugeEntries (hn : n = 2 ^ 31 + 1) :
    ∃ T, search (initParams hugeEnv.libm (UInt32.ofNat (hugeEntries n).length))
      (UInt32.ofNat (hugeEntries n).length) (hugeEnv.hashed HASH_XXH64 (hugeEntries n)) =
        some (.ok hugeParams T) := by
  have hsize : UInt32.ofNat (hugeEntries n).length = 2147483649 := by
    rw [length_hugeEntries, hn]
    rfl
  obtain ⟨T, hT⟩ := attempt_hugeEntries hn.le
  rw [← hugeParams_eq] at hT
  refine ⟨T, ?_⟩
  rw [hsize, search_of_first (Nat.zero_le _) (fun i hi => absurd hi (Nat.not_lt_zero i)) hT (by simp),
    hugeParams_eq]
  rfl

/-- On `2^31 + 1` keys `fcm_peel` succeeds, no entry is visited, and the map that is returned answers
every key with 0. -/
theorem newWithHash_hugeEntries (hn : n = 2 ^ 31 + 1) :
    ∃ st m, hugeEnv.peelRun smallHeap HASH_XXH64 (hugeEntries n) = some (.ok, st) ∧
      assignVisits (UInt32.ofNat (hugeEntries n).length) = some [] ∧
      constmapNewWithHash hugeEnv smallHeap constmapLayout.zeroMap (hugeEntries n) HASH_XXH64 =
        some (.ok, m) ∧
      ∀ key, constmapLookup wordKeyHash m key = some 0 := by
  have hlen : (hugeEntries n).length < 2 ^ 32 := by rw [length_hugeEntries]; omega
  have hpos : 1 ≤ (hugeEntries n).length := by rw [length_hugeEntries]; omega
  have hvisits : assignVisits (UInt32.ofNat (hugeEntries n).length) = some [] := by
    have hsize : (UInt32.ofNat (hugeEntries n).length).toNat = 2 ^ 31 + 1 := by
      rw [length_hugeEntries, hn]
      rfl
    rcases assignVisits_cases (UInt32.ofNat (hugeEntries n).length) with
      ⟨h, -⟩ | ⟨h, -⟩ | ⟨-, hv⟩
    · omega
    · omega
    · exact hv
  obtain ⟨T, hsearch⟩ := search_hugeEntries hn
  rcases hugeEnv.peelRun_spec smallHeap HASH_XXH64 hlen with ⟨st, -, b, hb⟩ | ⟨o, st, ho, hpeel, hst⟩
  · exact absurd hb (by simp [smallHeap])
  obtain rfl := Option.some.inj (hsearch.symm.trans ho)
  have hnew := newWithHash_of_peel constmapLayout hugeEnv constmapLayout.zeroMap (Or.inl rfl) hpos
    (by omega) (fun _ _ => rfl) hpeel
  have harr : (initParams hugeEnv.libm (UInt32.ofNat (hugeEntries n).length)).arrayLen =
      hugeParams.arrayLen := by
    rw [length_hugeEntries, hn]
    rfl
  rw [hvisits, Option.bind_some, Env.assigned, harr, (hst hugeParams T rfl).params] at hnew
  refine ⟨st, _, hpeel, hvisits, hnew, ?_⟩
  intro key
  -- The three slots of every key are zero.
  rw [constmapLookup, lookup_toMap constmapLayout_lawful hugeParams_valid.1
    (constmapLayout_lawful.calloc hugeParams.arrayLen.toNat)]
  simp only [constmapAnswer, Params.slotAt, combine, Slot.xor, UInt64.xor_zero]

end Hashes

/-- The keys of `2^31 + 1` entries with distinct key hashes are all answered with 0, not with their
value 1, by the map that the constructor returns with `FCM_OK`. -/
theorem unassigned_map :
    (hugeEntries (2 ^ 31 + 1)).length = 2 ^ 31 + 1 ∧
      (hugeEnv.hashed HASH_XXH64 (hugeEntries (2 ^ 31 + 1))).Nodup ∧
      (∀ e ∈ hugeEntries (2 ^ 31 + 1), e.2 = 1) ∧
      ∃ st m, hugeEnv.peelRun smallHeap HASH_XXH64 (hugeEntries (2 ^ 31 + 1)) = some (.ok, st) ∧
        assignVisits (UInt32.ofNat (hugeEntries (2 ^ 31 + 1)).length) = some [] ∧
        constmapNewWithHash hugeEnv smallHeap constmapLayout.zeroMap (hugeEntries (2 ^ 31 + 1))
          HASH_XXH64 = some (.ok, m) ∧
        ∀ e ∈ hugeEntries (2 ^ 31 + 1), constmapLookup wordKeyHash m e.1 = some 0 := by
  refine ⟨length_hugeEntries _, nodup_hashed_hugeEntries (Nat.le_refl _), ?_, ?_⟩
  · intro e he
    obtain ⟨a, -, rfl⟩ := List.mem_map.mp he
    rfl
  · obtain ⟨st, m, hpeel, hvisits, hnew, hlookup⟩ := newWithHash_hugeEntries (Eq.refl (2 ^ 31 + 1))
    exact ⟨st, m, hpeel, hvisits, hnew, fun e _ => hlookup e.1⟩

end FastConstMap
