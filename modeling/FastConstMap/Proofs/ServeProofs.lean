import FastConstMap.Proofs.BatchProofs

/-!
# Proofs: the answers without a sentinel

`ConstMap` has an answer to every key, and `get_many_into` writes the words as they are. So both serve
the values of a dict that the other methods of the verified types take for missing keys.
-/

namespace FastConstMap

/-- Each word is the answer of the map to its key, and on a key of the dict it is the value modulo
`2^64`. -/
def ServesWords {τ : Type} (Ly : Layout τ) (K : KeyHash) (m : MapOf τ) (d : PyDict) (keys : List PyObj)
    (words : List UInt64) : Prop :=
  List.Forall₂ (fun key w => (∃ b, (∀ msg, keyFromObject msg key = .ok b) ∧ lookup Ly K m b = some w) ∧
    ∀ v, (key, .int v) ∈ d.items → (w.toNat : Int) = v % 2 ^ 64) keys words

section Methods

variable {τ : Type} {Ly : Layout τ} {Rep : τ → Nat → (Nat → Slot) → Prop}
  {answer : Slot → UInt64 → UInt64} {E : Env} {H : Heap} {self self' : PyMap τ} {keys : List PyObj}

/-- The words behind the batched lookups on an object that was built from a dict. -/
theorem exists_words (hLy : Ly.Lawful Rep answer) {typeName : String} {alloc : Bool} {d : PyDict}
    {hashName : Option String} (hlen : d.items.length < 2 ^ 31)
    (h : pyInit Ly typeName E H alloc self (.dict d) hashName = some (.ok (), self')) {B : Nat}
    (hB : 1 ≤ B) (le : Bool) (junk : Nat → UInt64) (hkeys : ∀ key ∈ keys, key.IsKey) :
    ∃ words, ServesWords Ly E.keyHash self'.map d keys words ∧
      (∀ box, pyGetManyBox Ly E.keyHash B junk self' keys box = some (.ok (words.map box))) ∧
      ∀ out : PyBuffer, keys.length * 8 ≤ out.bytes.length →
        pyGetManyInto Ly E.keyHash B le junk self' keys out =
          some (.ok (.int keys.length), written le words out.bytes) := by
  obtain ⟨hash, entries, hdict, hnew⟩ := pyInit_ok h
  obtain ⟨hlenE, hentries⟩ := dictToArrays_ok hdict
  obtain ⟨bs, hbs⟩ := exists_keyBytes hkeys
  obtain ⟨ans, hans, hmany⟩ := lookup_total hLy hnew E.keyHash
  have hconv : List.Forall₂
      (fun key b => keyFromObject "keys must be str or bytes, not " key = .ok b) keys bs :=
    hbs.imp fun _ _ hkey => hkey _
  have hlook := fun kbuf vbuf (_ : ∀ b ∈ kbuf, b ∈ bs) => hmany B kbuf vbuf hB
  refine ⟨bs.map ans, ?_, ?_, ?_⟩
  · unfold ServesWords
    rw [List.forall₂_map_right_iff]
    refine hbs.imp ?_
    intro key b hkey
    refine ⟨⟨b, hkey, hans b⟩, ?_⟩
    intro v hkv
    obtain ⟨b', u, hbytes, hu, hmem⟩ := hentries key (.int v) hkv
    obtain rfl := Except.ok.inj ((hkey "").symm.trans (hbytes ""))
    have hentry := lookup_entry hLy (hlenE.trans_lt hlen) hnew hmem
    rw [Option.some.inj ((hans b).symm.trans hentry)]
    exact valueFromObject_int hu
  · intro box
    rw [pyGetManyBox_eq hconv hlook junk box, List.map_map]
    rfl
  · intro out hout
    exact pyGetManyInto_eq hconv hlook le junk hout

theorem pyConstMapGet_eq {K : KeyHash} {self : PyMap (List UInt64)} {key : PyObj} {b : Bytes}
    {v : UInt64} (hkey : ∀ msg, keyFromObject msg key = .ok b)
    (hv : lookup constmapLayout K self.map b = some v) :
    pyConstMapGet K self key = some (.ok (fromUnsignedLongLong v)) := by
  unfold pyConstMapGet
  simp only [hkey, hv, Option.bind_eq_bind, Option.bind_some]

end Methods

/-- On the keys of a dict of fewer than `2^31` entries, the four lookups of a `ConstMap` and
`get_many_into` of the verified types give the values modulo `2^64`, whatever they are; on all other keys
they give some word, and the lookups of a type agree. -/
theorem dict_values_served (E : Env) (H : Heap) (alloc : Bool) (hashName : Option String) (B : Nat)
    (hB : 1 ≤ B) (le : Bool) (junk : Nat → UInt64) (d : PyDict) (hn : d.items.length ≤ 2 ^ 31 - 1)
    (keys : List PyObj) (hkeys : ∀ key ∈ keys, key.IsKey) :
    (∀ self, pyConstMapInit E H alloc (PyMap.alloc constmapLayout) (.dict d) hashName =
        some (.ok (), self) →
      ∃ words, ServesWords constmapLayout E.keyHash self.map d keys words ∧
        List.Forall₂ (fun key w =>
          pyConstMapGet E.keyHash self key = some (.ok (fromUnsignedLongLong w)) ∧
          pyConstMapSubscript E.keyHash self key = some (.ok (fromUnsignedLongLong w))) keys words ∧
        pyConstMapGetMany E.keyHash B junk self keys =
          some (.ok (words.map fromUnsignedLongLong)) ∧
        ∀ out : PyBuffer, keys.length * 8 ≤ out.bytes.length →
          pyConstMapGetManyInto E.keyHash B le junk self keys out =
            some (.ok (.int keys.length), written le words out.bytes)) ∧
    (∀ self, pyVerifiedConstMapInit E H alloc (PyMap.alloc verifiedLayout) (.dict d) hashName =
        some (.ok (), self) →
      ∃ words, ServesWords verifiedLayout E.keyHash self.map d keys words ∧
        ∀ out : PyBuffer, keys.length * 8 ≤ out.bytes.length →
          pyVerifiedConstMapGetManyInto E.keyHash B le junk self keys out =
            some (.ok (.int keys.length), written le words out.bytes)) ∧
    ∀ self, pyPairedVerifiedConstMapInit E H alloc (PyMap.alloc pairedLayout) (.dict d) hashName =
        some (.ok (), self) →
      ∃ words, ServesWords pairedLayout E.keyHash self.map d keys words ∧
        ∀ out : PyBuffer, keys.length * 8 ≤ out.bytes.length →
          pyPairedVerifiedConstMapGetManyInto E.keyHash B le junk self keys out =
            some (.ok (.int keys.length), written le words out.bytes) := by
  have hlen : d.items.length < 2 ^ 31 := by omega
  refine ⟨?_, ?_, ?_⟩
  · intro self h
    obtain ⟨words, hwords, hmany, hinto⟩ := exists_words constmapLayout_lawful hlen h hB le junk hkeys
    refine ⟨words, hwords, ?_, hmany _, hinto⟩
    refine List.Forall₂.imp ?_ hwords
    rintro key w ⟨⟨b, hkey, hlook⟩, -⟩
    exact ⟨pyConstMapGet_eq hkey hlook, pyConstMapGet_eq hkey hlook⟩
  · intro self h
    obtain ⟨words, hwords, -, hinto⟩ := exists_words verifiedLayout_lawful hlen h hB le junk hkeys
    exact ⟨words, hwords, hinto⟩
  · intro self h
    obtain ⟨words, hwords, -, hinto⟩ := exists_words pairedLayout_lawful hlen h hB le junk hkeys
    exact ⟨words, hwords, hinto⟩

/-- The dict `{b"a": -1}`, whose value is the sentinel. -/
theorem dict_values_served_one :
    let d : PyDict := ⟨[(.bytes [0x61], .int (-1))], by decide⟩
    ∃ self w, pyConstMapInit smallEnv smallHeap true (PyMap.alloc constmapLayout) (.dict d) none =
        some (.ok (), self) ∧
      pyConstMapGet smallKeyHash self (.bytes [0x61]) = some (.ok (fromUnsignedLongLong w)) ∧
      w = NOT_FOUND := by
  intro d
  have hinit : (pyConstMapInit smallEnv smallHeap true (PyMap.alloc constmapLayout) (.dict d)
      none).map Prod.fst = some (.ok ()) := by decide +kernel
  obtain ⟨⟨r, self⟩, hself, hr⟩ := Option.map_eq_some_iff.mp hinit
  obtain rfl : r = .ok () := hr
  obtain ⟨words, hwords, hget, -⟩ := (dict_values_served smallEnv smallHeap true none 8 (by decide) true
    (fun _ => 0) d (by decide) [.bytes [0x61]] (by
      intro key hkey
      obtain rfl := List.mem_singleton.mp hkey
      exact ⟨[0x61], fun _ => rfl⟩)).1 self hself
  cases hget with
  | cons hw _ =>
    cases hwords with
    | cons hv _ =>
      refine ⟨self, _, hself, hw.1, ?_⟩
      exact (eq_NOT_FOUND_iff (hv.2 (-1) (List.mem_singleton_self _))).mpr (by decide)

end FastConstMap
