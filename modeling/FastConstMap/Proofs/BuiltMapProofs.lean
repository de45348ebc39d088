import FastConstMap.Lookup
import FastConstMap.Proofs.ConstructProofs

/-!
# Proofs: the maps that the constructors build

A lookup of a stored key returns its value, the three map types hold the same slots, and the map does
not depend on the order of the entries.
-/

namespace FastConstMap

open CLoop Peeling

variable {τ : Type} {Ly : Layout τ} {Rep : τ → Nat → (Nat → Slot) → Prop}
  {answer : Slot → UInt64 → UInt64} {E : Env} {H : Heap} {hash : UInt32}
  {entries : List (Bytes × UInt64)} {q : Params} {S : List (UInt64 × Fin 3)}

/-! ## A small environment -/

/-- What the constructors rely on, for the two keys `a` and `b`: their segments have 4 slots, and the
capacity is 12. -/
def smallEnv : Env where
  keyHash := smallKeyHash
  libm := ⟨fun _ => 2, fun _ => 12, fun _ => le_rfl, fun _ => by decide⟩
  qsort := Qsort.insertion

theorem exists_ok {x : Option (Rc × MapOf τ)} (h : x.map Prod.fst = some .ok) :
    ∃ m, x = some (.ok, m) := by
  obtain ⟨⟨rc, m⟩, hx, hrc⟩ := Option.map_eq_some_iff.mp h
  obtain rfl : rc = .ok := hrc
  exact ⟨m, hx⟩

/-! ## Lookups on a built map -/

/-- The slot that a lookup of the mixed hash `a` combines. -/
def Params.slotAt (p : Params) (f : Nat → Slot) (a : UInt64) : Slot :=
  Peeling.combine Slot.xor p.pos f a

theorem Params.Valid.arrayLen_ne_zero (hq : q.Valid) : q.arrayLen ≠ 0 := by
  intro h
  have := hq.len_pos
  rw [h] at this
  exact absurd this (by decide)

/-- A lookup on a map with valid parameters answers from the three slots of the key. -/
theorem lookup_toMap (hLy : Ly.Lawful Rep answer) (hq : q.Valid) {n : UInt32} {table : τ}
    {f : Nat → Slot} (h : Rep table q.arrayLen.toNat f) (K : KeyHash) (key : Bytes) :
    lookup Ly K (q.toMap n hash table) key =
      some (answer (q.slotAt f (mixsplit (hashKey K hash key) q.seed))
        (mixsplit (hashKey K hash key) q.seed)) := by
  unfold lookup lookupWith
  rw [if_neg (show (q.toMap n hash table).dataLen ≠ 0 from hq.arrayLen_ne_zero)]
  exact hLy.get h (hq.pos_lt _ 0) (hq.pos_lt _ 1) (hq.pos_lt _ 2) _

/-- The three slots of a stored key combine to its value and its check word. -/
theorem Env.Solves.slotAt_entry (h : E.Solves hash entries q S) {e : Bytes × UInt64}
    (he : e ∈ entries) :
    q.slotAt (solution q (E.valueOf hash entries q) S)
        (mixsplit (hashKey E.keyHash hash e.1) q.seed) =
      entrySlot e.2 (mixsplit (hashKey E.keyHash hash e.1) q.seed) := by
  have hmem : mixsplit (hashKey E.keyHash hash e.1) q.seed ∈ S.map Prod.fst := by
    have hkey : hashKey E.keyHash hash e.1 ∈ E.hashed hash entries := List.mem_map.mpr ⟨e, he, rfl⟩
    exact h.perm.mem_iff.mpr (List.mem_map.mpr ⟨_, hkey, rfl⟩)
  have hsol := solution_spec h.valid (E.valueOf hash entries q) h.elim hmem
  rw [h.valueOf_entry he] at hsol
  exact hsol

/-- A stored key is answered with its value. -/
theorem lookup_entry (hLy : Ly.Lawful Rep answer) (hlen : entries.length < 2 ^ 31) {out m : MapOf τ}
    (h : newWithHash Ly E H out entries hash = some (.ok, m)) {e : Bytes × UInt64}
    (he : e ∈ entries) : lookup Ly E.keyHash m e.1 = some e.2 := by
  obtain ⟨-, ⟨rfl, -⟩ | ⟨-, q, S, table, hS, hrep, rfl⟩⟩ := newWithHash_ok hLy hlen h
  · exact absurd he List.not_mem_nil
  · rw [lookup_toMap hLy hS.valid hrep, hS.slotAt_entry he, hLy.answer_entry]

/-- The check words of a stored key combine to the fingerprint of its mixed hash. -/
theorem checks_entry (hlen : entries.length < 2 ^ 31) {out m : VerifiedConstMap}
    (h : verifiedConstmapNewWithHash E H out entries hash = some (.ok, m)) {e : Bytes × UInt64}
    (he : e ∈ entries) :
    let a := m.mixed E.keyHash e.1
    xor3 m.table.checks (m.pos a 0) (m.pos a 1) (m.pos a 2) = some (fingerprint a) := by
  obtain ⟨-, ⟨rfl, -⟩ | ⟨-, q, S, table, hS, hrep, rfl⟩⟩ :=
    newWithHash_ok verifiedLayout_lawful hlen h
  · exact absurd he List.not_mem_nil
  · intro a
    have hslot := hS.slotAt_entry he
    exact (xor3_spec hrep.2 (hS.valid.pos_lt a 0) (hS.valid.pos_lt a 1)
      (hS.valid.pos_lt a 2)).trans (congrArg (fun s => some s.check) hslot)

theorem slots_entry (hlen : entries.length < 2 ^ 31) {out m : PairedVerifiedConstMap}
    (h : pairedVerifiedConstmapNewWithHash E H out entries hash = some (.ok, m))
    {e : Bytes × UInt64} (he : e ∈ entries) :
    let a := m.mixed E.keyHash e.1
    slotXor3 m.table (m.pos a 0) (m.pos a 1) (m.pos a 2) = some ⟨e.2, fingerprint a⟩ := by
  obtain ⟨-, ⟨rfl, -⟩ | ⟨-, q, S, table, hS, hrep, rfl⟩⟩ :=
    newWithHash_ok pairedLayout_lawful hlen h
  · exact absurd he List.not_mem_nil
  · intro a
    have hslot := hS.slotAt_entry he
    exact (slotXor3_spec hrep (hS.valid.pos_lt a 0) (hS.valid.pos_lt a 1)
      (hS.valid.pos_lt a 2)).trans (congrArg some hslot)

/-- Construct, then look up: whenever a constructor succeeds on at least one and at most `2^31 - 1`
entries, every stored key is answered with its value; in the verified layouts the three check words
of the key combine to the fingerprint of its mixed hash. -/
theorem lookup_of_construct (E : Env) (H : Heap) (hash : UInt32) (entries : List (Bytes × UInt64))
    (hpos : 1 ≤ entries.length) (hn : entries.length ≤ 2 ^ 31 - 1) :
    (∀ out m, constmapNewWithHash E H out entries hash = some (.ok, m) →
      ∀ i (hi : i < entries.length),
        constmapLookup E.keyHash m entries[i].1 = some entries[i].2) ∧
    (∀ out m, verifiedConstmapNewWithHash E H out entries hash = some (.ok, m) →
      ∀ i (hi : i < entries.length),
        verifiedConstmapLookup E.keyHash m entries[i].1 = some entries[i].2 ∧
        let a := m.mixed E.keyHash entries[i].1
        xor3 m.table.checks (m.pos a 0) (m.pos a 1) (m.pos a 2) = some (fingerprint a)) ∧
    (∀ out m, pairedVerifiedConstmapNewWithHash E H out entries hash = some (.ok, m) →
      ∀ i (hi : i < entries.length),
        pairedVerifiedConstmapLookup E.keyHash m entries[i].1 = some entries[i].2 ∧
        let a := m.mixed E.keyHash entries[i].1
        slotXor3 m.table (m.pos a 0) (m.pos a 1) (m.pos a 2) =
          some ⟨entries[i].2, fingerprint a⟩) := by
  have hlen : entries.length < 2 ^ 31 := by omega
  refine ⟨?_, ?_, ?_⟩
  · intro out m h i hi
    exact lookup_entry constmapLayout_lawful hlen h (List.getElem_mem hi)
  · intro out m h i hi
    constructor
    · exact lookup_entry verifiedLayout_lawful hlen h (List.getElem_mem hi)
    · exact checks_entry hlen h (List.getElem_mem hi)
  · intro out m h i hi
    constructor
    · exact lookup_entry pairedLayout_lawful hlen h (List.getElem_mem hi)
    · exact slots_entry hlen h (List.getElem_mem hi)

/-- Two keys under XXH64. -/
theorem lookup_of_construct_two :
    let entries : List (Bytes × UInt64) := [([0x61], 100), ([0x62], 200)]
    ∃ cm vm pm,
      constmapNewWithHash smallEnv smallHeap constmapLayout.zeroMap entries HASH_XXH64 =
        some (.ok, cm) ∧
      verifiedConstmapNewWithHash smallEnv smallHeap verifiedLayout.zeroMap entries HASH_XXH64 =
        some (.ok, vm) ∧
      pairedVerifiedConstmapNewWithHash smallEnv smallHeap pairedLayout.zeroMap entries HASH_XXH64 =
        some (.ok, pm) ∧
      constmapLookup smallKeyHash cm [0x62] = some 200 ∧
      verifiedConstmapLookup smallKeyHash vm [0x62] = some 200 ∧
      pairedVerifiedConstmapLookup smallKeyHash pm [0x62] = some 200 := by
  intro entries
  obtain ⟨cm, hcm⟩ := exists_ok (x := constmapNewWithHash smallEnv smallHeap
    constmapLayout.zeroMap entries HASH_XXH64) (by decide +kernel)
  obtain ⟨vm, hvm⟩ := exists_ok (x := verifiedConstmapNewWithHash smallEnv smallHeap
    verifiedLayout.zeroMap entries HASH_XXH64) (by decide +kernel)
  obtain ⟨pm, hpm⟩ := exists_ok (x := pairedVerifiedConstmapNewWithHash smallEnv smallHeap
    pairedLayout.zeroMap entries HASH_XXH64) (by decide +kernel)
  obtain ⟨h1, h2, h3⟩ := lookup_of_construct smallEnv smallHeap HASH_XXH64 entries (by decide)
    (by decide)
  exact ⟨cm, vm, pm, hcm, hvm, hpm, h1 _ cm hcm 1 (by decide), (h2 _ vm hvm 1 (by decide)).1,
    (h3 _ pm hpm 1 (by decide)).1⟩

/-! ## The same map in three layouts -/

theorem stackBytes_injective {S S' : List (UInt64 × Fin 3)} (h : stackBytes S = stackBytes S') :
    S = S' := by
  refine List.map_injective_iff.mpr ?_ h
  intro e e' he
  obtain ⟨h1, h2⟩ := Prod.mk.inj he
  exact Prod.ext h1 (foundByte_injective h2)

/-- What a constructor builds, whatever the layout: nothing, the empty map, or slots under the
parameters of a successful search. -/
inductive Built where
  | error (rc : Rc) (hrc : rc ≠ .ok)
  | empty
  | slots (p : Params) (valid : p.Valid) (f : Nat → Slot)

def Built.rc : Built → Rc
  | .error rc _ => rc
  | .empty => .ok
  | .slots _ _ _ => .ok

/-- The map `m` stores what was built. -/
def Built.StoredIn (Ly : Layout τ) (Rep : τ → Nat → (Nat → Slot) → Prop) (n hash : UInt32) :
    Built → MapOf τ → Prop
  | .error _ _, _ => True
  | .empty, m => m = Ly.emptyMap hash
  | .slots p _ f, m => ∃ table, Rep table p.arrayLen.toNat f ∧ m = p.toMap n hash table

/-- When memory suffices, what a constructor builds depends on the entries and the hash choice
only, not on the layout, the allocator or the old contents of `*out`. -/
theorem newWithHash_built (E : Env) (hash : UInt32) (entries : List (Bytes × UInt64))
    (hlen : entries.length < 2 ^ 31) :
    ∃ b : Built, ∀ {τ : Type} {Ly : Layout τ} {Rep answer}, Ly.Lawful Rep answer →
      ∀ (H : Heap) (out : MapOf τ), (∀ b, H.ok b = true) →
        ∃ m, newWithHash Ly E H out entries hash = some (b.rc, m) ∧
          b.StoredIn Ly Rep (UInt32.ofNat entries.length) hash m := by
  by_cases hknown : KnownHash hash
  · rcases Nat.eq_zero_or_pos entries.length with h0 | hpos
    · obtain rfl := List.length_eq_zero_iff.mp h0
      exact ⟨.empty, fun _ H out _ => ⟨_, newWithHash_nil hknown out, rfl⟩⟩
    · have htotal : ∃ o, search (initParams E.libm (UInt32.ofNat entries.length))
          (UInt32.ofNat entries.length) (E.hashed hash entries) = some o :=
        searchFrom_total (initParams_initial E.libm _) (MAX_ITERATIONS + 1) 0 1
      obtain ⟨o, ho⟩ := htotal
      have hcases : ∀ {τ : Type} {Ly : Layout τ} {Rep answer}, Ly.Lawful Rep answer →
          ∀ (H : Heap) (out : MapOf τ), (∀ b, H.ok b = true) →
            (o.rc ≠ .ok →
              newWithHash Ly E H out entries hash = some (o.rc, Ly.emptyMap hash)) ∧
            ∀ q T, o = .ok q T → ∃ S table, T = stackBytes S ∧ E.Solves hash entries q S ∧
              Rep table q.arrayLen.toNat (solution q (E.valueOf hash entries q) S) ∧
              newWithHash Ly E H out entries hash =
                some (.ok, q.toMap (UInt32.ofNat entries.length) hash table) := by
        intro τ Ly Rep answer hLy H out hok
        rcases newWithHash_spec E H out hLy hknown hpos hlen with
          ⟨-, b, hb⟩ | ⟨o', ho', hspec⟩
        · rw [hok b] at hb
          exact absurd hb (by decide)
        · obtain rfl : o = o' := Option.some.inj (ho.symm.trans ho')
          exact hspec
      by_cases hrc : o.rc = .ok
      · obtain ⟨q, T, rfl⟩ := Outcome.ok_of_rc hrc
        obtain ⟨S, rfl, hS⟩ := E.solves_of_search ho
        refine ⟨.slots q hS.valid (solution q (E.valueOf hash entries q) S), ?_⟩
        intro _ _ _ _ hLy H out hok
        obtain ⟨S', table, hT, -, hrep, hnew⟩ := (hcases hLy H out hok).2 q _ rfl
        rw [← stackBytes_injective hT] at hrep
        exact ⟨_, hnew, table, hrep, rfl⟩
      · exact ⟨.error o.rc hrc, fun hLy H out hok => ⟨_, (hcases hLy H out hok).1 hrc, trivial⟩⟩
  · exact ⟨.error .invalidFormat (by decide), fun _ H out _ =>
      ⟨out, newWithHash_unknown hknown out, trivial⟩⟩

/-- The fields that do not belong to the arrays. -/
def MapOf.header (m : MapOf τ) : MapOf Unit := { m with table := () }

theorem holds_zipWith {data checks : List UInt64} {len : Nat} {f : Nat → Slot}
    (hd : Holds data len fun i => (f i).value) (hc : Holds checks len fun i => (f i).check) :
    Holds (List.zipWith Slot.mk data checks) len f := by
  refine ⟨by rw [List.length_zipWith, hd.1, hc.1, Nat.min_self], ?_⟩
  intro i hi
  obtain ⟨h1, e1⟩ := load_eq_some_iff.mp (hd.load hi)
  obtain ⟨h2, e2⟩ := load_eq_some_iff.mp (hc.load hi)
  rw [load_of_lt (by rw [List.length_zipWith]; omega), List.getElem_zipWith, e1, e2]

/-- A lookup on the map without entries. -/
theorem lookup_emptyMap (K : KeyHash) (key : Bytes) :
    lookup Ly K (Ly.emptyMap hash) key = some Ly.missing := rfl

/-- The three constructors build the same map in three layouts: they return the same code, and on
success the headers agree, the paired slots are the pairs of the words of the verified map, whose
values are those of the `ConstMap`, and for every key the verified and the paired map give the same
answer, which the `ConstMap` shares unless it is `FCM_NOT_FOUND`. -/
theorem constructors_agree (E : Env) (hash : UInt32) (entries : List (Bytes × UInt64))
    (hn : entries.length ≤ 2 ^ 31 - 1) (H1 H2 H3 : Heap) (hok1 : ∀ b, H1.ok b = true)
    (hok2 : ∀ b, H2.ok b = true) (hok3 : ∀ b, H3.ok b = true) (out1 : ConstMap)
    (out2 : VerifiedConstMap) (out3 : PairedVerifiedConstMap) :
    ∃ rc cm vm pm, constmapNewWithHash E H1 out1 entries hash = some (rc, cm) ∧
      verifiedConstmapNewWithHash E H2 out2 entries hash = some (rc, vm) ∧
      pairedVerifiedConstmapNewWithHash E H3 out3 entries hash = some (rc, pm) ∧
      (rc = .ok →
        cm.header = vm.header ∧ vm.header = pm.header ∧
        cm.table = vm.table.data ∧
        vm.table.data.length = vm.dataLen.toNat ∧ vm.table.checks.length = vm.dataLen.toNat ∧
        pm.table = List.zipWith Slot.mk vm.table.data vm.table.checks ∧
        ∀ key, ∃ w, pairedVerifiedConstmapLookup E.keyHash pm key = some w ∧
          verifiedConstmapLookup E.keyHash vm key = some w ∧
          (w ≠ NOT_FOUND → constmapLookup E.keyHash cm key = some w)) := by
  obtain ⟨b, hb⟩ := newWithHash_built E hash entries (by omega)
  obtain ⟨cm, h1, hs1⟩ := hb constmapLayout_lawful H1 out1 hok1
  obtain ⟨vm, h2, hs2⟩ := hb verifiedLayout_lawful H2 out2 hok2
  obtain ⟨pm, h3, hs3⟩ := hb pairedLayout_lawful H3 out3 hok3
  refine ⟨b.rc, cm, vm, pm, h1, h2, h3, ?_⟩
  intro hrc
  cases b with
  | error rc hne => exact absurd hrc hne
  | empty =>
    obtain rfl := hs1
    obtain rfl := hs2
    obtain rfl := hs3
    exact ⟨rfl, rfl, rfl, rfl, rfl, rfl, fun key =>
      ⟨NOT_FOUND, lookup_emptyMap _ key, lookup_emptyMap _ key, fun h => absurd rfl h⟩⟩
  | slots q hq f =>
    obtain ⟨t1, hrep1, rfl⟩ := hs1
    obtain ⟨t2, hrep2, rfl⟩ := hs2
    obtain ⟨t3, hrep3, rfl⟩ := hs3
    refine ⟨rfl, rfl, hrep1.ext hrep2.1, hrep2.1.1, hrep2.2.1,
      hrep3.ext (holds_zipWith hrep2.1 hrep2.2), ?_⟩
    intro key
    refine ⟨_, lookup_toMap pairedLayout_lawful hq hrep3 _ key,
      lookup_toMap verifiedLayout_lawful hq hrep2 _ key, ?_⟩
    intro hw
    refine (lookup_toMap constmapLayout_lawful hq hrep1 _ key).trans (congrArg some ?_)
    unfold verifiedAnswer at hw ⊢
    split_ifs at hw ⊢ with hfp
    · rfl
    · exact absurd rfl hw

/-- The three maps of two keys. -/
theorem constructors_agree_two :
    let entries : List (Bytes × UInt64) := [([0x61], 100), ([0x62], 200)]
    ∃ cm vm pm,
      constmapNewWithHash smallEnv smallHeap constmapLayout.zeroMap entries HASH_XXH64 =
        some (.ok, cm) ∧
      verifiedConstmapNewWithHash smallEnv smallHeap verifiedLayout.zeroMap entries HASH_XXH64 =
        some (.ok, vm) ∧
      pairedVerifiedConstmapNewWithHash smallEnv smallHeap pairedLayout.zeroMap entries HASH_XXH64 =
        some (.ok, pm) ∧
      cm.header = vm.header ∧ vm.header = pm.header ∧ cm.table = vm.table.data ∧
      pm.table = List.zipWith Slot.mk vm.table.data vm.table.checks := by
  intro entries
  obtain ⟨rc, cm, vm, pm, h1, h2, h3, h⟩ := constructors_agree smallEnv HASH_XXH64 entries
    (by decide) smallHeap smallHeap smallHeap (fun _ => rfl) (fun _ => rfl) (fun _ => rfl)
    constmapLayout.zeroMap verifiedLayout.zeroMap pairedLayout.zeroMap
  have hrc : (constmapNewWithHash smallEnv smallHeap constmapLayout.zeroMap entries
      HASH_XXH64).map Prod.fst = some .ok := by decide +kernel
  rw [h1] at hrc
  obtain rfl : rc = .ok := Option.some.inj hrc
  obtain ⟨hcv, hvp, hdata, -, -, hslots, -⟩ := h rfl
  exact ⟨cm, vm, pm, h1, h2, h3, hcv, hvp, hdata, hslots⟩

/-! ## The order of the entries -/

/-- With distinct mixed hashes every sort puts the pairs in the same order. -/
theorem sortedPairs_perm {entries' : List (Bytes × UInt64)} (hperm : entries.Perm entries')
    (hS : E.Solves hash entries q S) :
    E.sortedPairs hash entries q = E.sortedPairs hash entries' q := by
  have hpairs : (E.sortedPairs hash entries q).Perm (E.sortedPairs hash entries' q) :=
    (E.qsort.perm _).trans ((hperm.map _).trans (E.qsort.perm _).symm)
  have hnd := hS.nodup_pairs
  refine hpairs.eq_of_pairwise ?_ (E.qsort.sortedPairs _) (E.qsort.sortedPairs _)
  intro a b ha hb hab hba
  refine List.inj_on_of_nodup_map hnd ha (hpairs.mem_iff.mpr hb) ?_
  exact UInt64.toNat_inj.mp (Nat.le_antisymm hab hba)

/-- The two searches over the entries and over a permutation of them have one solution. -/
theorem Env.Solves.perm_eq {entries' : List (Bytes × UInt64)} (hperm : entries.Perm entries')
    {q' : Params} {S' : List (UInt64 × Fin 3)} (h : E.Solves hash entries q S)
    (h' : E.Solves hash entries' q' S') :
    q = q' ∧ S = S' ∧ E.valueOf hash entries q = E.valueOf hash entries' q' := by
  have hs := h.search
  have hs' := h'.search
  rw [← hperm.length_eq] at hs'
  have hhash : (E.hashed hash entries).Perm (E.hashed hash entries') := hperm.map _
  obtain ⟨rfl, hT⟩ := searchFrom_perm (initParams_initial E.libm (UInt32.ofNat entries.length))
    hhash hs hs'
  refine ⟨rfl, stackBytes_injective hT, ?_⟩
  funext a
  rw [Env.valueOf, Env.valueOf, sortedPairs_perm hperm h, hperm.length_eq]

/-- A constructor that succeeds on the entries and on a permutation of them builds one map. -/
theorem newWithHash_perm (hLy : Ly.Lawful Rep answer) {entries' : List (Bytes × UInt64)}
    (hperm : entries.Perm entries') (hlen : entries.length < 2 ^ 31) {H' : Heap}
    {out out' m m' : MapOf τ} (h : newWithHash Ly E H out entries hash = some (.ok, m))
    (h' : newWithHash Ly E H' out' entries' hash = some (.ok, m')) : m = m' := by
  obtain ⟨-, hm⟩ := newWithHash_ok hLy hlen h
  obtain ⟨-, hm'⟩ := newWithHash_ok hLy (hperm.length_eq ▸ hlen) h'
  rcases hm with ⟨rfl, rfl⟩ | ⟨hpos, q, S, table, hS, hrep, rfl⟩
  · rcases hm' with ⟨-, rfl⟩ | ⟨hpos', -⟩
    · rfl
    · rw [← hperm.length_eq] at hpos'
      exact absurd hpos' (Nat.lt_irrefl 0)
  · rcases hm' with ⟨rfl, -⟩ | ⟨-, q', S', table', hS', hrep', rfl⟩
    · rw [hperm.length_eq] at hpos
      exact absurd hpos (Nat.lt_irrefl 0)
    · obtain ⟨rfl, rfl, hval⟩ := hS.perm_eq hperm hS'
      rw [hval] at hrep
      rw [hLy.ext hrep hrep', hperm.length_eq]

end FastConstMap
