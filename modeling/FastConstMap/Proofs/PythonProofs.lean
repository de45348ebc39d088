import FastConstMap.Batch
import FastConstMap.Proofs.BuiltMapProofs
import FastConstMap.Proofs.LookupProofs

/-!
# Proofs: the verified Python maps

A map that `__init__` built from a dict answers the keys of the dict with their values modulo `2^64`,
unless the value is the sentinel `FCM_NOT_FOUND`, which the methods take for a missing key.
-/

namespace FastConstMap

open CLoop

/-! ## Conversions -/

/-- A conversion of a list succeeds when it does on each entry. -/
theorem mapM_ok_iff {α β ε : Type} {f : α → Except ε β} {l : List α} {l' : List β} :
    l.mapM f = .ok l' ↔ List.Forall₂ (fun a b => f a = .ok b) l l' := by
  induction l generalizing l' with
  | nil =>
    rw [List.mapM_nil, List.forall₂_nil_left_iff]
    exact ⟨fun h => (Except.ok.inj h).symm, fun h => congrArg Except.ok h.symm⟩
  | cons a l ih =>
    rw [List.mapM_cons]
    constructor
    · intro h
      cases ha : f a with
      | error e =>
        rw [ha] at h
        exact absurd h nofun
      | ok b =>
        cases hl : l.mapM f with
        | error e =>
          rw [ha, hl] at h
          exact absurd h nofun
        | ok bs =>
          rw [ha, hl] at h
          obtain rfl := Except.ok.inj h
          exact List.Forall₂.cons ha (ih.mp hl)
    · intro h
      cases h with
      | cons ha hl =>
        rw [ha, ih.mpr hl]
        rfl

/-- A key that converts does so whatever the message. -/
theorem keyFromObject_ok {msg : String} {key : PyObj} {b : Bytes} (h : keyFromObject msg key = .ok b)
    (msg' : String) : keyFromObject msg' key = .ok b := by
  cases key with
  | str s => exact h
  | bytes b => exact h
  | none => exact absurd h nofun
  | int v => exact absurd h nofun
  | other typeName identity => exact absurd h nofun

/-- An integer that converts is stored modulo `2^64`. -/
theorem valueFromObject_int {v : Int} {u : UInt64} (h : valueFromObject (.int v) = .ok u) :
    (u.toNat : Int) = v % 2 ^ 64 := by
  unfold valueFromObject asUnsignedLongLong asLongLong at h
  by_cases hu : 0 ≤ v ∧ v < 2 ^ 64
  · simp only [if_pos hu] at h
    obtain rfl := Except.ok.inj h
    rw [UInt64.toNat_ofNat']
    omega
  · simp only [if_neg hu] at h
    by_cases hs : -2 ^ 63 ≤ v ∧ v < 2 ^ 63
    · simp only [if_pos hs] at h
      obtain rfl := Except.ok.inj h
      rw [UInt64.toNat_ofNat']
      omega
    · simp only [if_neg hs] at h
      exact absurd h nofun

/-- The entries of a dict, each converted. -/
theorem dictToArrays_ok {alloc : Bool} {d : PyDict} {entries : List (Bytes × UInt64)}
    (h : dictToArrays alloc (.dict d) = .ok entries) :
    entries.length = d.items.length ∧ ∀ k v, (k, v) ∈ d.items →
      ∃ b u, (∀ msg, keyFromObject msg k = .ok b) ∧ valueFromObject v = .ok u ∧ (b, u) ∈ entries := by
  simp only [dictToArrays] at h
  by_cases halloc : alloc = false
  · rw [if_pos halloc] at h
    exact absurd h nofun
  rw [if_neg halloc] at h
  have hall := mapM_ok_iff.mp h
  refine ⟨hall.length_eq.symm, ?_⟩
  intro k v hkv
  obtain ⟨i, hi, hget⟩ := List.mem_iff_getElem.mp hkv
  have hi' : i < entries.length := hall.length_eq ▸ hi
  have hconv := hall.get hi hi'
  simp only [List.get_eq_getElem, hget] at hconv
  cases hk : keyFromObject "all keys must be str (or bytes); got " k with
  | error e =>
    rw [hk] at hconv
    exact absurd hconv nofun
  | ok b =>
    cases hv : valueFromObject v with
    | error e =>
      rw [hk, hv] at hconv
      exact absurd hconv nofun
    | ok u =>
      rw [hk, hv] at hconv
      exact ⟨b, u, keyFromObject_ok hk, rfl, (Except.ok.inj hconv) ▸ List.getElem_mem hi'⟩

/-! ## Initialisation -/

section Methods

variable {τ : Type} {Ly : Layout τ} {Rep : τ → Nat → (Nat → Slot) → Prop}
  {answer : Slot → UInt64 → UInt64} {E : Env} {H : Heap} {K : KeyHash} {self : PyMap τ}

/-- `__init__` succeeds by installing the map that the constructor built from the dict. -/
theorem pyInit_ok {typeName : String} {alloc : Bool} {d : PyDict} {hashName : Option String}
    {self' : PyMap τ}
    (h : pyInit Ly typeName E H alloc self (.dict d) hashName = some (.ok (), self')) :
    ∃ hash entries, dictToArrays alloc (.dict d) = .ok entries ∧
      newWithHash Ly E H Ly.zeroMap entries hash = some (.ok, self'.map) := by
  unfold pyInit at h
  cases hhash : parseHash hashName with
  | error e =>
    rw [hhash] at h
    exact absurd h nofun
  | ok hash =>
    cases hdict : dictToArrays alloc (.dict d) with
    | error e =>
      rw [hhash, hdict] at h
      exact absurd h nofun
    | ok entries =>
      rw [hhash, hdict] at h
      obtain ⟨⟨rc, built⟩, hnew, h⟩ := Option.bind_eq_some_iff.mp h
      simp only at h
      by_cases hrc : rc = .ok
      · rw [if_neg (not_not.mpr hrc)] at h
        by_cases hfresh : self.initialized = false
        · rw [if_pos hfresh] at h
          obtain ⟨-, rfl⟩ := Prod.mk.inj (Option.some.inj h)
          exact ⟨hash, entries, rfl, hrc ▸ hnew⟩
        · rw [if_neg hfresh] at h
          exact absurd h nofun
      · rw [if_pos hrc] at h
        exact absurd h nofun

/-! ## Single lookups -/

theorem pyGet_eq {key default : PyObj} {b : Bytes} {v : UInt64}
    (hkey : ∀ msg, keyFromObject msg key = .ok b) (hv : lookup Ly K self.map b = some v) :
    pyGet Ly K self key default = some (.ok (boxed default v)) := by
  unfold pyGet
  simp only [hkey, hv, Option.bind_eq_bind, Option.bind_some]
  unfold boxed
  split_ifs <;> rfl

theorem pySubscript_eq {key : PyObj} {b : Bytes} {v : UInt64}
    (hkey : ∀ msg, keyFromObject msg key = .ok b) (hv : lookup Ly K self.map b = some v) :
    pySubscript Ly K self key =
      some (if v = NOT_FOUND then .error (.keyError key) else .ok (fromUnsignedLongLong v)) := by
  unfold pySubscript
  simp only [hkey, hv, Option.bind_eq_bind, Option.bind_some]
  split_ifs <;> rfl

theorem pyContains_eq {key : PyObj} {b : Bytes} {v : UInt64}
    (hkey : ∀ msg, keyFromObject msg key = .ok b) (hv : lookup Ly K self.map b = some v) :
    pyContains Ly K self key = some (.ok (if v = NOT_FOUND then false else true)) := by
  have hfound := hkey ""
  unfold pyContains
  cases key with
  | str s =>
    simp only [keyFromObject] at hfound
    simp only [hfound, hv, Option.bind_eq_bind, Option.bind_some]
  | bytes b' =>
    obtain rfl := Except.ok.inj hfound
    simp only [hv, Option.bind_eq_bind, Option.bind_some]
  | none => exact absurd hfound nofun
  | int v => exact absurd hfound nofun
  | other typeName identity => exact absurd hfound nofun

/-! ## Batched lookups -/

/-- The keys of a chunk, from `base` on: they convert to the next `m` byte strings. -/
theorem chunk_spec {keys : List PyObj} {bs : List Bytes}
    (hkeys : List.Forall₂ (fun key b => keyFromObject "keys must be str or bytes, not " key = .ok b)
      keys bs)
    {base : Nat} (hbase : base < keys.length) :
    ∃ m kbuf, (if keys.length - base < PY_CHUNK then keys.length - base else PY_CHUNK) = m ∧
      ((keys.drop base).take m).mapM (keyFromObject "keys must be str or bytes, not ") = .ok kbuf ∧
      kbuf.length = m ∧ (∀ b ∈ kbuf, b ∈ bs) ∧ m ≤ PY_CHUNK ∧ base + m ≤ keys.length ∧
      bs.take (base + PY_CHUNK) = bs.take base ++ kbuf := by
  have hlen := hkeys.length_eq
  obtain ⟨m, hm⟩ : ∃ m, (if keys.length - base < PY_CHUNK then keys.length - base else PY_CHUNK) = m :=
    ⟨_, rfl⟩
  have hmle : m ≤ PY_CHUNK ∧ base + m ≤ keys.length := by
    rw [← hm]
    split_ifs with hlt
    · omega
    · omega
  have hconv := mapM_ok_iff.mpr (List.forall₂_take m (List.forall₂_drop base hkeys))
  refine ⟨m, (bs.drop base).take m, hm, hconv, ?_, ?_, hmle.1, hmle.2, ?_⟩
  · rw [List.length_take, List.length_drop]
    omega
  · exact fun b hb => List.mem_of_mem_drop (List.mem_of_mem_take hb)
  · have hsplit : bs.take (base + PY_CHUNK) = bs.take (base + m) := by
      rcases Nat.lt_or_ge (keys.length - base) PY_CHUNK with hlt | hge
      · rw [if_pos hlt] at hm
        rw [List.take_of_length_le (by omega), List.take_of_length_le (by omega)]
      · rw [← hm, if_neg (not_lt.mpr hge)]
    rw [hsplit, List.take_add]

section Batches

variable {keys : List PyObj} {bs : List Bytes} {ans : Bytes → UInt64} {B : Nat}
  (hkeys : List.Forall₂ (fun key b => keyFromObject "keys must be str or bytes, not " key = .ok b)
    keys bs)
  (hmany : ∀ kbuf vbuf, (∀ b ∈ kbuf, b ∈ bs) → kbuf.length ≤ vbuf.length →
    lookupMany Ly K B self.map kbuf vbuf = some (kbuf.map ans ++ vbuf.drop kbuf.length))

include hkeys hmany

/-- One chunk: the answers for its keys are boxed and appended. -/
theorem getManyBoxStep_next {base : Nat} (hbase : base < keys.length) {vbuf : List UInt64}
    (hvbuf : vbuf.length = PY_CHUNK) (box : UInt64 → PyObj) :
    ∃ vbuf', vbuf'.length = PY_CHUNK ∧
      getManyBoxStep Ly K B self keys box
          (.ok (base, vbuf, (bs.take base).map fun b => box (ans b))) =
        some (.next (.ok (base + PY_CHUNK, vbuf',
          (bs.take (base + PY_CHUNK)).map fun b => box (ans b)))) := by
  obtain ⟨m, kbuf, hm, hkbuf, hlen, hsub, hmle, -, htake⟩ := chunk_spec hkeys hbase
  have hvs := tabulate_load_append (kbuf.map ans) (vbuf.drop kbuf.length)
  rw [List.length_map, hlen] at hvs
  refine ⟨kbuf.map ans ++ vbuf.drop kbuf.length, ?_, ?_⟩
  · rw [List.length_append, List.length_map, List.length_drop]
    omega
  · unfold getManyBoxStep
    simp only [if_pos hbase, hm, hkbuf, hmany kbuf vbuf hsub (by omega), hlen, hvs,
      Option.bind_eq_bind, Option.bind_some]
    rw [htake, List.map_append, List.map_map]
    rfl

/-- A batched lookup on convertible keys boxes the answers of the single lookups. -/
theorem pyGetManyBox_eq (junk : Nat → UInt64) (box : UInt64 → PyObj) :
    pyGetManyBox Ly K B junk self keys box = some (.ok (bs.map fun b => box (ans b))) := by
  have hlen := hkeys.length_eq
  obtain ⟨r, hloop, base, vbuf, rfl⟩ :
      ∃ r, loop (getManyBoxStep Ly K B self keys box) (keys.length + 1)
        (.ok (0, (List.range PY_CHUNK).map junk, [])) = some r ∧
        ∃ base vbuf, r = .ok (base, vbuf, bs.map fun b => box (ans b)) := by
    refine loop_chunks (show 0 < PY_CHUNK by decide)
      (fun base r => ∃ vbuf, vbuf.length = PY_CHUNK ∧
        r = .ok (base, vbuf, (bs.take base).map fun b => box (ans b)))
      _ ?_ ?_ ⟨_, by rw [List.length_map, List.length_range], rfl⟩ (Nat.lt_succ_self keys.length)
    · rintro base r hbase ⟨vbuf, hvbuf, rfl⟩
      obtain ⟨vbuf', hvbuf', hnext⟩ := getManyBoxStep_next hkeys hmany hbase hvbuf box
      exact ⟨_, hnext, vbuf', hvbuf', rfl⟩
    · rintro base r hbase ⟨vbuf, hvbuf, rfl⟩
      refine ⟨_, if_neg (not_lt.mpr hbase), base, vbuf, ?_⟩
      rw [List.take_of_length_le (by omega)]
  unfold pyGetManyBox
  simp only [hloop, Option.bind_eq_bind, Option.bind_some]

theorem pyGetMany_eq (junk : Nat → UInt64) (default : PyObj) :
    pyGetMany Ly K B junk self keys default =
      some (.ok (bs.map fun b => boxed default (ans b))) :=
  pyGetManyBox_eq hkeys hmany junk (boxed default)

end Batches

/-! ## Maps built from a dict -/

/-- The key converts: it is a `bytes` object, or a `str` that has a UTF-8 encoding. -/
def PyObj.IsKey (key : PyObj) : Prop := ∃ b, ∀ msg, keyFromObject msg key = .ok b

/-- The methods answer the key `k` with the integer `v`, as a dict does that maps `k` to `v`. -/
structure Serves (contains : PyMap τ → PyObj → Option (PyResult Bool))
    (subscript : PyMap τ → PyObj → Option (PyResult PyObj))
    (get : PyMap τ → PyObj → PyObj → Option (PyResult PyObj))
    (getMany : PyMap τ → List PyObj → PyObj → Option (PyResult (List PyObj)))
    (obj : PyMap τ) (k : PyObj) (v : Int) : Prop where
  contains : contains obj k = some (.ok true)
  subscript : subscript obj k = some (.ok (.int v))
  get : ∀ default, get obj k default = some (.ok (.int v))
  getMany : ∀ (keys : List PyObj) default, (∀ key ∈ keys, key.IsKey) →
    ∃ out, getMany obj keys default = some (.ok out) ∧ out.length = keys.length ∧
      ∀ i (hi : i < keys.length), keys[i] = k → out[i]? = some (.int v)

/-- All lookups on a built map return an answer. -/
theorem lookup_total (hLy : Ly.Lawful Rep answer) {entries : List (Bytes × UInt64)} {hash : UInt32}
    {out m : MapOf τ} (h : newWithHash Ly E H out entries hash = some (.ok, m)) (K : KeyHash) :
    ∃ ans : Bytes → UInt64, (∀ b, lookup Ly K m b = some (ans b)) ∧
      ∀ B kbuf vbuf, 1 ≤ B → kbuf.length ≤ vbuf.length →
        lookupMany Ly K B m kbuf vbuf = some (kbuf.map ans ++ vbuf.drop kbuf.length) := by
  obtain ⟨-, rfl | ⟨q, n, table, f, hq, hrep, rfl⟩⟩ := newWithHash_ok_rep hLy h
  · refine ⟨fun _ => Ly.missing, fun b => rfl, ?_⟩
    intro B kbuf vbuf _ hlen
    obtain ⟨vbuf', hmany, hfilled⟩ := lookupMany_missing Ly K B (m := Ly.emptyMap hash) rfl hlen
    have hbatch : Batched (some ∘ fun _ => Ly.missing) kbuf vbuf vbuf' :=
      ⟨hfilled.length, fun i hi => hfilled.done i hi, hfilled.rest⟩
    rw [hmany, hbatch.eq_append]
  · have hlook : lookup Ly K (q.toMap n hash table) = some ∘ fun b =>
        answer (q.slotAt f (mixsplit (hashKey K hash b) q.seed))
          (mixsplit (hashKey K hash b) q.seed) := funext (lookup_toMap hLy hq hrep K)
    refine ⟨_, congrFun hlook, ?_⟩
    intro B kbuf vbuf hB hlen
    have hrange : (q.toMap n hash table).InRange K kbuf := fun _ key _ j => hq.pos_lt _ j
    obtain ⟨vbuf', hmany, hbatch⟩ := lookupMany_batched hLy hrep hrange hB hlen
    rw [hlook] at hbatch
    rw [hmany, hbatch.eq_append]

/-- The bytes of a list of keys. -/
theorem exists_keyBytes {keys : List PyObj} (h : ∀ key ∈ keys, key.IsKey) :
    ∃ bs, List.Forall₂ (fun key b => ∀ msg, keyFromObject msg key = .ok b) keys bs := by
  induction keys with
  | nil => exact ⟨[], List.Forall₂.nil⟩
  | cons key keys ih =>
    obtain ⟨b, hb⟩ := h key (List.mem_cons_self ..)
    obtain ⟨bs, hbs⟩ := ih fun key' hkey' => h key' (List.mem_cons_of_mem _ hkey')
    exact ⟨b :: bs, List.Forall₂.cons hb hbs⟩

theorem eq_NOT_FOUND_iff {u : UInt64} {v : Int} (h : (u.toNat : Int) = v % 2 ^ 64) :
    u = NOT_FOUND ↔ v % 2 ^ 64 = 2 ^ 64 - 1 := by
  have hmax : NOT_FOUND.toNat = 18446744073709551615 := rfl
  rw [← UInt64.toNat_inj, hmax]
  omega

/-- A key of a dict is answered with its value modulo `2^64`, unless that is the sentinel. -/
theorem serves_iff (hLy : Ly.Lawful Rep answer) {typeName : String} {alloc : Bool} {d : PyDict}
    {hashName : Option String} {self' : PyMap τ} (hlen : d.items.length < 2 ^ 31)
    (h : pyInit Ly typeName E H alloc self (.dict d) hashName = some (.ok (), self'))
    {B : Nat} (hB : 1 ≤ B) (junk : Nat → UInt64) {k : PyObj} {v : Int}
    (hkv : (k, .int v) ∈ d.items) :
    Serves (pyContains Ly E.keyHash) (pySubscript Ly E.keyHash) (pyGet Ly E.keyHash)
      (pyGetMany Ly E.keyHash B junk) self' k (v % 2 ^ 64) ↔ v % 2 ^ 64 ≠ 2 ^ 64 - 1 := by
  obtain ⟨hash, entries, hdict, hnew⟩ := pyInit_ok h
  obtain ⟨hlenE, hentries⟩ := dictToArrays_ok hdict
  obtain ⟨b, u, hkey, hu, hmem⟩ := hentries k (.int v) hkv
  have hlook := lookup_entry hLy (hlenE.trans_lt hlen) hnew hmem
  have huv : (u.toNat : Int) = v % 2 ^ 64 := valueFromObject_int hu
  have hsentinel := eq_NOT_FOUND_iff huv
  have hbox : ∀ default, u ≠ NOT_FOUND → boxed default u = .int (v % 2 ^ 64) := by
    intro default hne
    rw [boxed, if_neg hne, fromUnsignedLongLong, huv]
  constructor
  · intro hserves hsent
    have hfalse := hserves.contains
    rw [pyContains_eq hkey hlook, if_pos (hsentinel.mpr hsent)] at hfalse
    exact absurd hfalse nofun
  · intro hne
    have hne' : u ≠ NOT_FOUND := fun heq => hne (hsentinel.mp heq)
    constructor
    · rw [pyContains_eq hkey hlook, if_neg hne']
    · rw [pySubscript_eq hkey hlook, if_neg hne', fromUnsignedLongLong, huv]
    · intro default
      rw [pyGet_eq hkey hlook, hbox default hne']
    · intro keys default hkeys
      obtain ⟨bs, hbs⟩ := exists_keyBytes hkeys
      obtain ⟨ans, hans, hmany⟩ := lookup_total hLy hnew E.keyHash
      have hget : pyGetMany Ly E.keyHash B junk self' keys default =
          some (.ok (bs.map fun b => boxed default (ans b))) :=
        pyGetMany_eq (hbs.imp fun _ _ hconv => hconv _)
          (fun kbuf vbuf _ => hmany B kbuf vbuf hB) junk default
      refine ⟨bs.map fun b => boxed default (ans b), hget, ?_, ?_⟩
      · rw [List.length_map, hbs.length_eq]
      · intro i hi hik
        have hi' : i < bs.length := hbs.length_eq ▸ hi
        have hb : bs[i] = b := by
          have hconv := hbs.get hi hi' ""
          simp only [List.get_eq_getElem, hik, hkey] at hconv
          exact (Except.ok.inj hconv).symm
        have hu' : ans b = u := Option.some.inj ((hans b).symm.trans hlook)
        rw [List.getElem?_map, List.getElem?_eq_getElem hi', hb]
        exact congrArg some ((congrArg (boxed default) hu').trans (hbox default hne'))

end Methods

/-! ## The two types -/

/-- A verified Python map behaves like the dict that it was built from, on a key of the dict, exactly
when the value of the key modulo `2^64` is not the sentinel `2^64 - 1`. -/
theorem python_serves_iff (E : Env) (H : Heap) (alloc : Bool) (hashName : Option String) (B : Nat)
    (hB : 1 ≤ B) (junk : Nat → UInt64) (d : PyDict) (hn : d.items.length ≤ 2 ^ 31 - 1) :
    (∀ self, pyVerifiedConstMapInit E H alloc (PyMap.alloc verifiedLayout) (.dict d) hashName =
        some (.ok (), self) →
      ∀ k v, (k, .int v) ∈ d.items →
        (Serves (pyVerifiedConstMapContains E.keyHash) (pyVerifiedConstMapSubscript E.keyHash)
          (pyVerifiedConstMapGet E.keyHash) (pyVerifiedConstMapGetMany E.keyHash B junk) self k
          (v % 2 ^ 64) ↔ v % 2 ^ 64 ≠ 2 ^ 64 - 1)) ∧
    (∀ self, pyPairedVerifiedConstMapInit E H alloc (PyMap.alloc pairedLayout) (.dict d) hashName =
        some (.ok (), self) →
      ∀ k v, (k, .int v) ∈ d.items →
        (Serves (pyPairedVerifiedConstMapContains E.keyHash)
          (pyPairedVerifiedConstMapSubscript E.keyHash) (pyPairedVerifiedConstMapGet E.keyHash)
          (pyPairedVerifiedConstMapGetMany E.keyHash B junk) self k (v % 2 ^ 64) ↔
            v % 2 ^ 64 ≠ 2 ^ 64 - 1)) := by
  have hlen : d.items.length < 2 ^ 31 := by omega
  constructor
  · intro self h k v hkv
    exact serves_iff verifiedLayout_lawful hlen h hB junk hkv
  · intro self h k v hkv
    exact serves_iff pairedLayout_lawful hlen h hB junk hkv

/-- The dict `{b"a": 100}`. -/
theorem python_serves_iff_one :
    let d : PyDict := ⟨[(.bytes [0x61], .int 100)], by decide⟩
    ∃ self, pyVerifiedConstMapInit smallEnv smallHeap true (PyMap.alloc verifiedLayout) (.dict d)
        none = some (.ok (), self) ∧
      Serves (pyVerifiedConstMapContains smallKeyHash) (pyVerifiedConstMapSubscript smallKeyHash)
        (pyVerifiedConstMapGet smallKeyHash) (pyVerifiedConstMapGetMany smallKeyHash 8 fun _ => 0)
        self (.bytes [0x61]) 100 := by
  intro d
  have hinit : (pyVerifiedConstMapInit smallEnv smallHeap true (PyMap.alloc verifiedLayout) (.dict d)
      none).map Prod.fst = some (.ok ()) := by decide +kernel
  obtain ⟨⟨r, self⟩, hself, hr⟩ := Option.map_eq_some_iff.mp hinit
  obtain rfl : r = .ok () := hr
  exact ⟨self, hself, ((python_serves_iff smallEnv smallHeap true none 8 (by decide) (fun _ => 0) d
    (by decide)).1 self hself (.bytes [0x61]) 100 (List.mem_singleton_self _)).mpr (by decide)⟩

/-- On the dict `{b"a": -1}` the methods of both types take the key `b"a"` for missing. -/
theorem python_loses_sentinel :
    let d : PyDict := ⟨[(.bytes [0x61], .int (-1))], by decide⟩
    let key : PyObj := .bytes [0x61]
    (∃ self, pyVerifiedConstMapInit smallEnv smallHeap true (PyMap.alloc verifiedLayout) (.dict d)
        none = some (.ok (), self) ∧
      pyVerifiedConstMapContains smallKeyHash self key = some (.ok false) ∧
      pyVerifiedConstMapSubscript smallKeyHash self key = some (.error (.keyError key)) ∧
      pyVerifiedConstMapGet smallKeyHash self key .none = some (.ok .none) ∧
      pyVerifiedConstMapGetMany smallKeyHash 8 (fun _ => 0) self [key] .none =
        some (.ok [.none])) ∧
    ∃ self, pyPairedVerifiedConstMapInit smallEnv smallHeap true (PyMap.alloc pairedLayout) (.dict d)
        none = some (.ok (), self) ∧
      pyPairedVerifiedConstMapContains smallKeyHash self key = some (.ok false) ∧
      pyPairedVerifiedConstMapSubscript smallKeyHash self key = some (.error (.keyError key)) ∧
      pyPairedVerifiedConstMapGet smallKeyHash self key .none = some (.ok .none) ∧
      pyPairedVerifiedConstMapGetMany smallKeyHash 8 (fun _ => 0) self [key] .none =
        some (.ok [.none]) := by
  refine ⟨⟨⟨⟨10451216379200822465, 4, 3, 1, 4, 12, 1,
      ⟨(List.replicate 12 0).set 8 NOT_FOUND, (List.replicate 12 0).set 8 3689764969782884920⟩, 0⟩,
      true⟩, ?_⟩, ⟨⟨⟨10451216379200822465, 4, 3, 1, 4, 12, 1,
      (List.replicate 12 ⟨0, 0⟩).set 8 ⟨NOT_FOUND, 3689764969782884920⟩, 0⟩, true⟩, ?_⟩⟩
  · decide +kernel
  · decide +kernel

end FastConstMap
