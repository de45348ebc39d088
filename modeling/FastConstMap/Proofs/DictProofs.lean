import FastConstMap.Proofs.DuplicateProofs
import FastConstMap.Proofs.OnceProofs
import FastConstMap.Proofs.PythonProofs

/-!
# Proofs: the keys of a dict

UTF-8 keeps strings apart, so two keys of a dict only become the same bytes when one is a `str` and the
other the `bytes` of its encoding. A dict with two such keys is refused.
-/

namespace FastConstMap

/-! ## UTF-8 -/

/-- The code point of a character. -/
def codePoint (c : Char) : CodePoint :=
  ⟨c.toNat, by
    have hc : c.toNat < 0xd800 ∨ 0xdfff < c.toNat ∧ c.toNat < 0x110000 := c.valid
    omega⟩

/-- A character has the encoding that Lean gives it. -/
theorem utf8CodePoint_codePoint (c : Char) :
    utf8CodePoint (codePoint c) = some (String.utf8EncodeChar c) := by
  have hc : c.toNat < 0xd800 ∨ 0xdfff < c.toNat ∧ c.toNat < 0x110000 := c.valid
  have hval : c.val.toNat = c.toNat := rfl
  unfold utf8CodePoint String.utf8EncodeChar codePoint
  simp only [hval]
  rcases Nat.lt_or_ge c.toNat 0x80 with h1 | h1
  · rw [if_pos h1, if_pos (Nat.le_of_lt_succ h1)]
  rw [if_neg (Nat.not_lt.mpr h1), if_neg (Nat.not_le.mpr h1)]
  rcases Nat.lt_or_ge c.toNat 0x800 with h2 | h2
  · rw [if_pos h2, if_pos (Nat.le_of_lt_succ h2), Nat.mod_eq_of_lt (show c.toNat / 64 < 32 by omega),
      Nat.add_comm 0xC0, Nat.add_comm 0x80]
  have hsurrogate : ¬ (0xD800 ≤ c.toNat ∧ c.toNat < 0xE000) := by omega
  rw [if_neg (Nat.not_lt.mpr h2), if_neg (Nat.not_le.mpr h2), if_neg hsurrogate]
  rcases Nat.lt_or_ge c.toNat 0x10000 with h3 | h3
  · rw [if_pos h3, if_pos (Nat.le_of_lt_succ h3),
      Nat.mod_eq_of_lt (show c.toNat / 4096 < 16 by omega), Nat.add_comm 0xE0, Nat.add_comm 0x80,
      Nat.add_comm 0x80]
  · rw [if_neg (Nat.not_lt.mpr h3), if_neg (Nat.not_le.mpr h3),
      Nat.mod_eq_of_lt (show c.toNat / 262144 < 8 by omega), Nat.add_comm 0xF0, Nat.add_comm 0x80,
      Nat.add_comm 0x80, Nat.add_comm 0x80]

/-- What has an encoding is a character. -/
theorem exists_char {c : CodePoint} {bs : Bytes} (h : utf8CodePoint c = some bs) :
    ∃ ch, codePoint ch = c := by
  have hvalid : c.val < 0xd800 ∨ 0xdfff < c.val ∧ c.val < 0x110000 := by
    by_contra hno
    have h1 : ¬ c.val < 0x80 := by omega
    have h2 : ¬ c.val < 0x800 := by omega
    have hsurrogate : 0xD800 ≤ c.val ∧ c.val < 0xE000 := by omega
    unfold utf8CodePoint at h
    rw [if_neg h1, if_neg h2, if_pos hsurrogate] at h
    exact absurd h nofun
  exact ⟨Char.ofNatAux c.val hvalid, rfl⟩

/-- A string converts when it consists of characters. -/
theorem mapM_utf8CodePoint {s : List CodePoint} {bs : List Bytes} (h : s.mapM utf8CodePoint = some bs) :
    ∃ l : List Char, s = l.map codePoint ∧ bs = l.map String.utf8EncodeChar := by
  induction s generalizing bs with
  | nil =>
    obtain rfl := Option.some.inj h
    exact ⟨[], rfl, rfl⟩
  | cons c s ih =>
    rw [List.mapM_cons] at h
    obtain ⟨b, hb, h⟩ := Option.bind_eq_some_iff.mp h
    obtain ⟨bs', hbs', h⟩ := Option.bind_eq_some_iff.mp h
    obtain rfl := Option.some.inj h
    obtain ⟨l, rfl, rfl⟩ := ih hbs'
    obtain ⟨ch, rfl⟩ := exists_char hb
    obtain rfl := Option.some.inj ((utf8CodePoint_codePoint ch).symm.trans hb)
    exact ⟨ch :: l, rfl, rfl⟩

theorem asUTF8AndSize_ok {s : List CodePoint} {b : Bytes} (h : asUTF8AndSize s = .ok b) :
    ∃ l : List Char, s = l.map codePoint ∧ b = l.flatMap String.utf8EncodeChar := by
  unfold asUTF8AndSize at h
  cases hs : s.mapM utf8CodePoint with
  | none =>
    rw [hs] at h
    exact absurd h nofun
  | some bs =>
    rw [hs] at h
    obtain ⟨l, rfl, rfl⟩ := mapM_utf8CodePoint hs
    exact ⟨l, rfl, (Except.ok.inj h).symm.trans List.flatMap_def.symm⟩

/-- UTF-8 keeps strings apart. -/
theorem asUTF8AndSize_injective {s t : List CodePoint} {b : Bytes} (hs : asUTF8AndSize s = .ok b)
    (ht : asUTF8AndSize t = .ok b) : s = t := by
  obtain ⟨l, rfl, rfl⟩ := asUTF8AndSize_ok hs
  obtain ⟨l', rfl, heq⟩ := asUTF8AndSize_ok ht
  have harr : (String.ofList l).toByteArray = (String.ofList l').toByteArray := by
    rw [String.toByteArray_ofList, String.toByteArray_ofList]
    exact congrArg List.toByteArray heq
  have hl := congrArg String.toList (String.toByteArray_inj.mp harr)
  rw [String.toList_ofList, String.toList_ofList] at hl
  rw [hl]

/-! ## The keys as bytes -/

/-- A `str` and the `bytes` of its encoding are both keys of the dict. -/
def PyDict.Aliased (d : PyDict) : Prop :=
  ∃ s b, .str s ∈ d.items.map Prod.fst ∧ .bytes b ∈ d.items.map Prod.fst ∧ asUTF8AndSize s = .ok b

/-- Two keys that convert to the same bytes. -/
theorem keyFromObject_eq {msg : String} {k k' : PyObj} {b : Bytes}
    (hk : keyFromObject msg k = .ok b) (hk' : keyFromObject msg k' = .ok b) :
    k = k' ∨ ∃ s, asUTF8AndSize s = .ok b ∧
      (k = .str s ∧ k' = .bytes b ∨ k = .bytes b ∧ k' = .str s) := by
  cases k with
  | none => exact absurd hk nofun
  | int v => exact absurd hk nofun
  | other typeName identity => exact absurd hk nofun
  | str s =>
    cases k' with
    | none => exact absurd hk' nofun
    | int v => exact absurd hk' nofun
    | other typeName identity => exact absurd hk' nofun
    | str t => exact Or.inl (congrArg PyObj.str (asUTF8AndSize_injective hk hk'))
    | bytes b' =>
      obtain rfl := Except.ok.inj hk'
      exact Or.inr ⟨s, hk, Or.inl ⟨rfl, rfl⟩⟩
  | bytes b' =>
    obtain rfl := Except.ok.inj hk
    cases k' with
    | none => exact absurd hk' nofun
    | int v => exact absurd hk' nofun
    | other typeName identity => exact absurd hk' nofun
    | str t => exact Or.inr ⟨t, hk', Or.inr ⟨rfl, rfl⟩⟩
    | bytes b => exact Or.inl (congrArg PyObj.bytes (Except.ok.inj hk').symm)

section Dict

variable {alloc : Bool} {d : PyDict} {entries : List (Bytes × UInt64)}

/-- The keys of a dict, each converted. -/
theorem dictToArrays_keys (h : dictToArrays alloc (.dict d) = .ok entries) :
    List.Forall₂ (fun k b => keyFromObject "all keys must be str (or bytes); got " k = .ok b)
      (d.items.map Prod.fst) (entries.map Prod.fst) := by
  simp only [dictToArrays] at h
  by_cases halloc : alloc = false
  · rw [if_pos halloc] at h
    cases h
  rw [if_neg halloc] at h
  rw [List.forall₂_map_left_iff, List.forall₂_map_right_iff]
  refine (mapM_ok_iff.mp h).imp ?_
  intro e r hconv
  cases hk : keyFromObject "all keys must be str (or bytes); got " e.1 with
  | error x =>
    rw [hk] at hconv
    cases hconv
  | ok b =>
    cases hv : valueFromObject e.2 with
    | error x =>
      rw [hk, hv] at hconv
      cases hconv
    | ok u =>
      rw [hk, hv] at hconv
      obtain rfl := Except.ok.inj hconv
      rfl

/-- The keys of a dict become distinct byte strings exactly when none is the encoding of another. -/
theorem nodup_keys_iff (h : dictToArrays alloc (.dict d) = .ok entries) :
    (entries.map Prod.fst).Nodup ↔ ¬ d.Aliased := by
  have hkeys := dictToArrays_keys h
  constructor
  · rintro hnodup ⟨s, b, hs, hb, hsb⟩
    obtain ⟨i, hi, hgeti⟩ := List.mem_iff_getElem.mp hs
    obtain ⟨j, hj, hgetj⟩ := List.mem_iff_getElem.mp hb
    have hi' := hkeys.length_eq ▸ hi
    have hj' := hkeys.length_eq ▸ hj
    have hconvi := hkeys.get hi hi'
    have hconvj := hkeys.get hj hj'
    simp only [List.get_eq_getElem, hgeti, hgetj] at hconvi hconvj
    have hbytes : (entries.map Prod.fst)[i] = (entries.map Prod.fst)[j] :=
      (Except.ok.inj (hconvi.symm.trans hsb)).trans (Except.ok.inj hconvj)
    obtain rfl := hnodup.getElem_inj_iff.mp hbytes
    rw [hgeti] at hgetj
    exact absurd hgetj nofun
  · intro hnot
    rw [List.nodup_iff_injective_getElem]
    rintro ⟨i, hi'⟩ ⟨j, hj'⟩ hij
    have hi := hkeys.length_eq.symm ▸ hi'
    have hj := hkeys.length_eq.symm ▸ hj'
    have hconvi := hkeys.get hi hi'
    have hconvj := hkeys.get hj hj'
    simp only [List.get_eq_getElem] at hconvi hconvj hij
    rw [hij] at hconvi
    have hmemi := List.getElem_mem hi
    have hmemj := List.getElem_mem hj
    rcases keyFromObject_eq hconvi hconvj with heq | ⟨s, hs, ⟨h1, h2⟩ | ⟨h1, h2⟩⟩
    · exact Fin.ext (d.nodup.getElem_inj_iff.mp heq)
    · rw [h1] at hmemi
      rw [h2] at hmemj
      exact absurd ⟨s, _, hmemi, hmemj, hs⟩ hnot
    · rw [h1] at hmemi
      rw [h2] at hmemj
      exact absurd ⟨s, _, hmemj, hmemi, hs⟩ hnot

end Dict

/-! ## Refusals -/

section Refusal

variable {τ : Type}

/-- On keys whose hashes are not distinct a constructor returns an error, however many there are. -/
theorem newWithHash_not_nodup (Ly : Layout τ) (E : Env) (H : Heap) (out : MapOf τ) (hash : UInt32)
    {entries : List (Bytes × UInt64)} (hnot : ¬ (E.hashed hash entries).Nodup) :
    ∃ rc m, newWithHash Ly E H out entries hash = some (rc, m) ∧ rc ≠ .ok := by
  by_cases hknown : KnownHash hash
  swap
  · exact ⟨_, _, newWithHash_unknown hknown out, by simp⟩
  rcases Nat.lt_or_ge entries.length (2 ^ 32) with hlen | hlen
  swap
  · exact ⟨_, _, newWithHash_of_le hknown out hlen, by simp⟩
  have hpos : 0 < entries.length := by
    by_contra h0
    obtain rfl := List.length_eq_zero_iff.mp (Nat.eq_zero_of_not_pos h0)
    exact hnot List.nodup_nil
  rcases newWithHash_cases Ly E H out hknown hpos hlen with ⟨hnomem, -⟩ | ⟨o, st, hsearch, herr, -⟩
  · exact ⟨_, _, hnomem, by simp⟩
  cases o with
  | duplicateKey => exact ⟨_, _, herr (by simp [Outcome.rc]), by simp [Outcome.rc]⟩
  | constructFail => exact ⟨_, _, herr (by simp [Outcome.rc]), by simp [Outcome.rc]⟩
  | ok q T =>
    obtain ⟨S, -, hS⟩ := E.solves_of_search hsearch
    exact absurd (List.Nodup.of_map _ (hS.perm.nodup_iff.mp hS.elim.nodup)) hnot

/-- `__init__` of all three types refuses a dict with a `str` key and the `bytes` of its encoding, and
leaves the object alone; no other keys of a dict become the same bytes. -/
theorem aliased_dict_refused (T : PyType τ) (E : Env) (H : Heap) (alloc : Bool) (o : PyMap τ)
    (d : PyDict) (hashName : Option String) :
    (d.Aliased → ∃ e, pyInit T.codec.layout T.name E H alloc o (.dict d) hashName =
      some (.error e, o)) ∧
    ∀ entries, dictToArrays alloc (.dict d) = .ok entries →
      ((entries.map Prod.fst).Nodup ↔ ¬ d.Aliased) := by
  refine ⟨?_, fun entries h => nodup_keys_iff h⟩
  intro halias
  cases hconv : convertArgs alloc (.dict d) hashName with
  | error e => exact ⟨e, pyInit_convertError hconv⟩
  | ok r =>
    obtain ⟨hash, entries⟩ := r
    obtain ⟨-, hdict, -⟩ := convertArgs_ok hconv
    have hnot : ¬ (E.hashed hash entries).Nodup := by
      intro hnodup
      have hkeys : (entries.map Prod.fst).Nodup := by
        refine List.Nodup.of_map (hashKey E.keyHash hash) ?_
        rwa [List.map_map]
      exact (nodup_keys_iff hdict).mp hkeys halias
    obtain ⟨rc, m, hnew, hrc⟩ := newWithHash_not_nodup T.codec.layout E H T.codec.layout.zeroMap hash hnot
    refine ⟨setPythonError rc, ?_⟩
    rw [pyInit_convert hconv, hnew, Option.map_some, if_pos hrc]

/-- The dict `{"a": 1, b"a": 2}`. -/
theorem aliased_dict_refused_two :
    let d : PyDict := ⟨[(.str [0x61], .int 1), (.bytes [0x61], .int 2)], by decide⟩
    ∃ e, pyInit verifiedLayout "VerifiedConstMap" smallEnv smallHeap true (PyMap.alloc verifiedLayout)
      (.dict d) none = some (.error e, PyMap.alloc verifiedLayout) := by
  intro d
  refine (aliased_dict_refused verifiedConstMapType smallEnv smallHeap true _ d none).1 ?_
  exact ⟨[0x61], [0x61], List.mem_cons_self, List.mem_cons_of_mem _ List.mem_cons_self, rfl⟩

end Refusal

end FastConstMap
