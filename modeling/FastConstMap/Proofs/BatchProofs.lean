import FastConstMap.Proofs.PythonProofs
import FastConstMap.Proofs.WordsProofs

/-!
# Proofs: batched lookups into a buffer

The chunks of `get_many_into` write the answers of the single lookups one after the other, and nothing
past them. A chunk that the core writes straight into the buffer leaves the bytes that it leaves when it
is staged and copied.
-/

namespace FastConstMap

open CLoop Slices

/-! ## Words in memory -/

@[simp] theorem length_nativeBytes (le : Bool) (v : UInt64) : (nativeBytes le v).length = 8 := by
  unfold nativeBytes
  split_ifs
  · exact length_writeU64 v
  · rw [List.length_reverse, length_writeU64]

/-- The bytes of the word that the host sees. -/
theorem nativeBytes_nativeWordAt (le : Bool) {p : Bytes} {off : Nat} (h : off + 8 ≤ p.length) :
    nativeBytes le (nativeWordAt le p off) = slice p off 8 := by
  unfold nativeBytes nativeWordAt
  by_cases hle : le = true
  · rw [if_pos hle, if_pos hle, slice_eq_writeU64 h]
  · have hlen : (slice p off 8).reverse.length = 8 := by
      rw [List.length_reverse, length_slice h]
    rw [if_neg hle, if_neg hle, show (p.drop off).take 8 = slice p off 8 from rfl,
      writeU64_nativeU64 hlen, List.reverse_reverse]

/-- The bytes of the words from `p + off` on. -/
theorem flatMap_nativeWordAt (le : Bool) {p : Bytes} {off k : Nat} (h : off + k * 8 ≤ p.length) :
    ((List.range k).map fun i => nativeWordAt le p (off + i * 8)).flatMap (nativeBytes le) =
      slice p off (k * 8) := by
  rw [List.flatMap_map, ← flatMap_slice p off 8 k]
  refine List.flatMap_congr fun i hi => ?_
  have hi' := List.mem_range.mp hi
  exact nativeBytes_nativeWordAt le (by omega)

theorem length_flatMap_nativeBytes (le : Bool) (words : List UInt64) :
    (words.flatMap (nativeBytes le)).length = words.length * 8 :=
  length_flatMap (length_nativeBytes le) words

/-- The buffer `out` with the words at its front. -/
def written (le : Bool) (words : List UInt64) (out : Bytes) : Bytes :=
  words.flatMap (nativeBytes le) ++ out.drop (words.length * 8)

theorem length_written (le : Bool) {words : List UInt64} {out : Bytes}
    (h : words.length * 8 ≤ out.length) : (written le words out).length = out.length := by
  rw [written, List.length_append, length_flatMap_nativeBytes, List.length_drop]
  omega

/-- Copying the next words behind those already written. -/
theorem memcpy_written (le : Bool) {words ws : List UInt64} {out : Bytes} {off : Nat}
    (hoff : off = words.length * 8) (h : (words ++ ws).length * 8 ≤ out.length) :
    memcpy (written le words out) off (ws.flatMap (nativeBytes le)) =
      some (written le (words ++ ws) out) := by
  rw [List.length_append] at h
  have hwords := length_flatMap_nativeBytes le words
  have hws := length_flatMap_nativeBytes le ws
  have hlen : (written le words out).length = out.length := length_written le (by omega)
  unfold memcpy
  rw [if_pos (by omega), hws, hoff, written, ← hwords, List.take_left, ← List.drop_drop,
    List.drop_left, List.drop_drop, hwords, ← Nat.add_mul, ← List.length_append,
    ← List.flatMap_append, written]

/-! ## Batched lookups -/

section Lookups

variable {τ : Type} {Ly : Layout τ} {K : KeyHash} {m : MapOf τ}

/-- Where a single lookup has an answer, a batched one has the same. -/
def Layout.GathersAs (Ly : Layout τ) (table : τ) : Prop :=
  ∀ h0 h1 h2 hash v, Ly.get table h0 h1 h2 hash = some v → Ly.gather table h0 h1 h2 hash = some v

theorem constmapLayout_gathersAs (data : List UInt64) : constmapLayout.GathersAs data :=
  fun _ _ _ _ _ h => h

theorem pairedLayout_gathersAs (slots : List Slot) : pairedLayout.GathersAs slots :=
  fun _ _ _ _ _ h => h

/-- Three words are there in one array when they are in another one of its length. -/
theorem xor3_of_length {a b : List UInt64} (hlen : a.length = b.length) {h0 h1 h2 : Nat} {v : UInt64}
    (h : xor3 a h0 h1 h2 = some v) : ∃ w, xor3 b h0 h1 h2 = some w := by
  obtain ⟨x0, hx0, h⟩ := Option.bind_eq_some_iff.mp h
  obtain ⟨x1, hx1, h⟩ := Option.bind_eq_some_iff.mp h
  obtain ⟨x2, hx2, -⟩ := Option.bind_eq_some_iff.mp h
  have l0 : h0 < b.length := hlen ▸ (load_eq_some_iff.mp hx0).1
  have l1 : h1 < b.length := hlen ▸ (load_eq_some_iff.mp hx1).1
  have l2 : h2 < b.length := hlen ▸ (load_eq_some_iff.mp hx2).1
  exact ⟨_, xor3_spec (holds_of_length rfl 0) l0 l1 l2⟩

/-- The batched lookup of a verified map also reads `data` where the check words do not match. -/
theorem verifiedLayout_gathersAs {table : Tables} (hlen : table.checks.length = table.data.length) :
    verifiedLayout.GathersAs table := by
  intro h0 h1 h2 hash v h
  obtain ⟨fp, hfp, h⟩ := Option.bind_eq_some_iff.mp h
  obtain ⟨w, hw⟩ := xor3_of_length hlen hfp
  simp only [verifiedLayout, hfp, hw, Option.bind_eq_bind, Option.bind_some]
  by_cases hmatch : fp = fingerprint hash
  · rw [if_neg (not_not.mpr hmatch), hw] at h
    rw [if_pos hmatch]
    exact h
  · rw [if_pos hmatch] at h
    rw [if_neg hmatch]
    exact h

/-- Keys that have answers are looked up in a batch with these answers. -/
theorem lookupMany_eq_append (hga : Ly.GathersAs m.table) {B : Nat} (hB : 1 ≤ B)
    {ans : Bytes → UInt64} {keys : List Bytes} (hans : ∀ b ∈ keys, lookup Ly K m b = some (ans b))
    {out : List UInt64} (hout : keys.length ≤ out.length) :
    lookupMany Ly K B m keys out = some (keys.map ans ++ out.drop keys.length) := by
  have hkey : ∀ i (hi : i < keys.length), ans (keys.getD i []) = ans keys[i] := fun i hi =>
    congrArg ans (List.getD_eq_getElem _ _ hi)
  have hbatch : ∃ out', lookupMany Ly K B m keys out = some out' ∧
      Filled out (fun i => ans (keys.getD i [])) keys.length out' := by
    by_cases hlen : m.dataLen = 0
    · obtain ⟨out', hmany, h⟩ := lookupMany_missing Ly K B hlen hout
      refine ⟨out', hmany, h.length, ?_, h.rest⟩
      intro i hi
      have hmiss := hans keys[i] (List.getElem_mem hi)
      rw [lookup, lookupWith, if_pos hlen] at hmiss
      rw [h.done i hi, hkey i hi, hmiss]
    · refine lookupMany_spec ⟨?_, ?_⟩ hB hlen hout
      · intro i hi
        rw [hkey i hi]
        exact hans keys[i] (List.getElem_mem hi)
      · intro i hi
        have hone := hans keys[i] (List.getElem_mem hi)
        rw [lookup, lookupWith, if_neg hlen] at hone
        rw [hkey i hi]
        exact hga _ _ _ _ _ hone
  obtain ⟨out', hmany, h⟩ := hbatch
  have hb : Batched (some ∘ ans) keys out out' :=
    ⟨h.length, fun i hi => (h.done i hi).trans (congrArg some (hkey i hi)), h.rest⟩
  rw [hmany, hb.eq_append]

/-- A batched lookup straight into the buffer leaves the bytes that copying the answers leaves. -/
theorem lookupManyAt_eq_memcpy {B : Nat} (le : Bool) {ans : Bytes → UInt64} {keys : List Bytes}
    (hmany : ∀ out : List UInt64, keys.length ≤ out.length →
      lookupMany Ly K B m keys out = some (keys.map ans ++ out.drop keys.length))
    {buf : Bytes} {off : Nat} (h : off + keys.length * 8 ≤ buf.length) :
    lookupManyAt Ly K B le m keys buf off =
      memcpy buf off ((keys.map ans).flatMap (nativeBytes le)) := by
  obtain ⟨k, hk⟩ : ∃ k, k = (buf.length - off) / 8 := ⟨_, rfl⟩
  have hkle : off + k * 8 ≤ buf.length := by omega
  obtain ⟨words, hw⟩ : ∃ words, words = (List.range k).map fun i =>
      nativeWordAt le buf (off + i * 8) := ⟨_, rfl⟩
  have hlen : words.length = k := by rw [hw, List.length_map, List.length_range]
  have hbytes : words.flatMap (nativeBytes le) = slice buf off (k * 8) :=
    hw ▸ flatMap_nativeWordAt le hkle
  have hans : ((keys.map ans).flatMap (nativeBytes le)).length = keys.length * 8 := by
    rw [length_flatMap_nativeBytes, List.length_map]
  -- The words past the answers are written back as they were.
  have hrest : (words.drop keys.length).flatMap (nativeBytes le) ++ buf.drop (off + k * 8) =
      buf.drop (off + keys.length * 8) := by
    have hslice := length_slice hkle
    rw [flatMap_drop (length_nativeBytes le), hbytes, ← List.drop_append_of_le_length (by omega),
      slice_append_drop, List.drop_drop]
  unfold lookupManyAt
  simp only [← hk, ← hw, hmany words (by omega), Option.bind_eq_bind, Option.bind_some]
  have hall : ((keys.map ans ++ words.drop keys.length).flatMap (nativeBytes le)).length = k * 8 := by
    rw [length_flatMap_nativeBytes, List.length_append, List.length_map, List.length_drop]
    omega
  unfold memcpy
  rw [hall, hans, if_pos hkle, if_pos h, List.flatMap_append, ← hrest]
  simp only [List.append_assoc]

end Lookups

/-! ## The chunk loop -/

section Chunks

variable {τ : Type} {Ly : Layout τ} {K : KeyHash} {self : PyMap τ} {keys : List PyObj}
  {bs : List Bytes} {ans : Bytes → UInt64} {B : Nat}

/-- A buffer that is too short is left alone. -/
theorem pyGetManyInto_short (le : Bool) (junk : Nat → UInt64) {out : PyBuffer}
    (hout : out.bytes.length < keys.length * 8) :
    ∃ msg, pyGetManyInto Ly K B le junk self keys out =
      some (.error (.valueError msg), out.bytes) := by
  unfold pyGetManyInto outBuffer
  simp only [if_pos hout]
  exact ⟨_, rfl⟩

variable
  (hkeys : List.Forall₂ (fun key b => keyFromObject "keys must be str or bytes, not " key = .ok b)
    keys bs)
  (hmany : ∀ kbuf vbuf, (∀ b ∈ kbuf, b ∈ bs) → kbuf.length ≤ vbuf.length →
    lookupMany Ly K B self.map kbuf vbuf = some (kbuf.map ans ++ vbuf.drop kbuf.length))

include hkeys hmany

/-- One chunk: the answers for its keys are written behind those of the chunks before, on both paths. -/
theorem getManyIntoStep_next (le aligned : Bool) {base : Nat} (hbase : base < keys.length)
    {vbuf : List UInt64} (hvbuf : vbuf.length = PY_CHUNK) {out : Bytes}
    (hout : keys.length * 8 ≤ out.length) :
    ∃ vbuf', vbuf'.length = PY_CHUNK ∧
      getManyIntoStep Ly K B le aligned self keys
          (.ok (base, vbuf), written le ((bs.take base).map ans) out) =
        some (.next (.ok (base + PY_CHUNK, vbuf'),
          written le ((bs.take (base + PY_CHUNK)).map ans) out)) := by
  obtain ⟨m, kbuf, hm, hkbuf, hlen, hsub, hmle, hend, htake⟩ := chunk_spec hkeys hbase
  have hbs := hkeys.length_eq
  have hdone : ((bs.take base).map ans).length = base := by
    rw [List.length_map, List.length_take]
    omega
  have hcopy : memcpy (written le ((bs.take base).map ans) out) (base * 8)
      ((kbuf.map ans).flatMap (nativeBytes le)) =
      some (written le ((bs.take (base + PY_CHUNK)).map ans) out) := by
    rw [htake, List.map_append]
    refine memcpy_written le (by rw [hdone]) ?_
    rw [List.length_append, hdone, List.length_map]
    omega
  unfold getManyIntoStep
  simp only [if_pos hbase, hm, hkbuf]
  by_cases ha : aligned = true
  · -- The core writes into the buffer.
    have hroom : base * 8 + kbuf.length * 8 ≤ (written le ((bs.take base).map ans) out).length := by
      rw [length_written le (by omega)]
      omega
    have hdirect := lookupManyAt_eq_memcpy le (fun vs hvs => hmany kbuf vs hsub hvs) hroom
    refine ⟨vbuf, hvbuf, ?_⟩
    rw [if_pos ha, hdirect, hcopy]
    rfl
  · -- The words go through `vbuf`.
    have hvs := tabulate_load_append (kbuf.map ans) (vbuf.drop kbuf.length)
    rw [List.length_map, hlen] at hvs
    refine ⟨kbuf.map ans ++ vbuf.drop kbuf.length, ?_, ?_⟩
    · rw [List.length_append, List.length_map, List.length_drop]
      omega
    · rw [if_neg ha]
      simp only [hmany kbuf vbuf hsub (by omega), hlen, hvs, hcopy, Option.bind_eq_bind,
        Option.bind_some]

/-- On convertible keys and a buffer that is long enough, the answers of the single lookups are written
to the front of the buffer. -/
theorem pyGetManyInto_eq (le : Bool) (junk : Nat → UInt64) {out : PyBuffer}
    (hout : keys.length * 8 ≤ out.bytes.length) :
    pyGetManyInto Ly K B le junk self keys out =
      some (.ok (.int keys.length), written le (bs.map ans) out.bytes) := by
  have hlen := hkeys.length_eq
  obtain ⟨aligned, ha⟩ : ∃ aligned, aligned = decide (out.addr % 8 = 0) := ⟨_, rfl⟩
  obtain ⟨r, hloop, base, vbuf, rfl⟩ :
      ∃ r, loop (getManyIntoStep Ly K B le aligned self keys) (keys.length + 1)
        (.ok (0, (List.range PY_CHUNK).map junk), out.bytes) = some r ∧
        ∃ base vbuf, r = (.ok (base, vbuf), written le (bs.map ans) out.bytes) := by
    refine loop_chunks (show 0 < PY_CHUNK by decide)
      (fun base r => ∃ vbuf, vbuf.length = PY_CHUNK ∧
        r = (.ok (base, vbuf), written le ((bs.take base).map ans) out.bytes))
      _ ?_ ?_ ⟨_, by rw [List.length_map, List.length_range], rfl⟩ (Nat.lt_succ_self keys.length)
    · rintro base r hbase ⟨vbuf, hvbuf, rfl⟩
      obtain ⟨vbuf', hvbuf', hnext⟩ := getManyIntoStep_next hkeys hmany le aligned hbase hvbuf hout
      exact ⟨_, hnext, vbuf', hvbuf', rfl⟩
    · rintro base r hbase ⟨vbuf, hvbuf, rfl⟩
      refine ⟨_, if_neg (not_lt.mpr hbase), base, vbuf, ?_⟩
      rw [List.take_of_length_le (by omega)]
  unfold pyGetManyInto outBuffer
  simp only [if_neg (not_lt.mpr hout), ← ha, hloop, Option.bind_eq_bind, Option.bind_some]

end Chunks

/-! ## The three types -/

/-- The batch methods on keys with the bytes `bs`: `getMany` returns the words that `look` answers as
objects, and `getManyInto` writes their bytes to the front of a buffer at any address, unless it is too
short. -/
structure BatchesOf (look : Bytes → Option UInt64) (box : PyObj → UInt64 → PyObj) (le : Bool)
    (bs : List Bytes) (getMany : PyObj → Option (PyResult (List PyObj)))
    (getManyInto : PyBuffer → Option (PyResult PyObj × Bytes)) : Prop where
  many : ∀ words, List.Forall₂ (fun b w => look b = some w) bs words →
    ∀ default, getMany default = some (.ok (words.map (box default)))
  into : ∀ words, List.Forall₂ (fun b w => look b = some w) bs words →
    ∀ out : PyBuffer, bs.length * 8 ≤ out.bytes.length →
    ∃ bytes, (∀ addr, getManyInto { out with addr := addr } = some (.ok (.int bs.length), bytes)) ∧
      bytes.length = out.bytes.length ∧
      (∀ i (hi : i < words.length), slice bytes (i * 8) 8 = nativeBytes le words[i]) ∧
      bytes.drop (bs.length * 8) = out.bytes.drop (bs.length * 8)
  short : ∀ out : PyBuffer, out.bytes.length < bs.length * 8 →
    ∃ msg, getManyInto out = some (.error (.valueError msg), out.bytes)

/-- The answers to a list of keys, as a function of the key. -/
theorem exists_answers {look : Bytes → Option UInt64} {bs : List Bytes} {words : List UInt64}
    (h : List.Forall₂ (fun b w => look b = some w) bs words) :
    ∃ ans : Bytes → UInt64, (∀ b ∈ bs, look b = some (ans b)) ∧ words = bs.map ans := by
  refine ⟨fun b => (look b).getD 0, ?_, ?_⟩
  · intro b hb
    obtain ⟨i, hi, rfl⟩ := List.mem_iff_getElem.mp hb
    have hw := h.get hi (h.length_eq ▸ hi)
    simp only [List.get_eq_getElem] at hw
    simp only [hw, Option.getD_some]
  · induction h with
    | nil => rfl
    | cons hw _ ih => rw [List.map_cons, ← ih, hw, Option.getD_some]

/-- The words are at the front of the buffer, and the rest of it is as before. -/
theorem written_spec (le : Bool) {words : List UInt64} {out : Bytes}
    (hout : words.length * 8 ≤ out.length) :
    (written le words out).length = out.length ∧
      (∀ i (hi : i < words.length), slice (written le words out) (i * 8) 8 =
        nativeBytes le words[i]) ∧
      (written le words out).drop (words.length * 8) = out.drop (words.length * 8) := by
  have hlen := length_flatMap_nativeBytes le words
  refine ⟨length_written le hout, ?_, ?_⟩
  · intro i hi
    have hbytes := slice_flatMap (length_nativeBytes le) words hi
    rw [written, slice, List.drop_append_of_le_length (by omega),
      List.take_append_of_le_length (by rw [List.length_drop]; omega)]
    exact hbytes
  · rw [written, ← hlen, List.drop_left]

section Methods

variable {τ : Type} {Ly : Layout τ} {K : KeyHash} {self : PyMap τ} {keys : List PyObj}
  {bs : List Bytes} {B : Nat}

theorem batches_lookup (hga : Ly.GathersAs self.map.table) (hB : 1 ≤ B)
    (hkeys : List.Forall₂ (fun key b => ∀ msg, keyFromObject msg key = .ok b) keys bs)
    (box : PyObj → UInt64 → PyObj) (le : Bool) (junk : Nat → UInt64) :
    BatchesOf (lookup Ly K self.map) box le bs
      (fun default => pyGetManyBox Ly K B junk self keys (box default))
      (pyGetManyInto Ly K B le junk self keys) := by
  have hconv : List.Forall₂
      (fun key b => keyFromObject "keys must be str or bytes, not " key = .ok b) keys bs :=
    hkeys.imp fun _ _ h => h _
  have hlen := hkeys.length_eq
  have hmany : ∀ ans : Bytes → UInt64, (∀ b ∈ bs, lookup Ly K self.map b = some (ans b)) →
      ∀ kbuf vbuf, (∀ b ∈ kbuf, b ∈ bs) → kbuf.length ≤ vbuf.length →
        lookupMany Ly K B self.map kbuf vbuf = some (kbuf.map ans ++ vbuf.drop kbuf.length) :=
    fun ans hans kbuf vbuf hsub => lookupMany_eq_append hga hB fun b hb => hans b (hsub b hb)
  constructor
  · intro words hwords default
    obtain ⟨ans, hans, rfl⟩ := exists_answers hwords
    rw [pyGetManyBox_eq hconv (hmany ans hans) junk (box default), List.map_map]
    rfl
  · intro words hwords out hout
    obtain ⟨ans, hans, rfl⟩ := exists_answers hwords
    have hroom : (bs.map ans).length * 8 ≤ out.bytes.length := by rwa [List.length_map]
    obtain ⟨hkept, hfront, hrest⟩ := written_spec le hroom
    rw [List.length_map] at hrest
    refine ⟨written le (bs.map ans) out.bytes, ?_, hkept, hfront, hrest⟩
    intro addr
    rw [pyGetManyInto_eq hconv (hmany ans hans) le junk (by rwa [hlen]), hlen]
  · intro out hout
    exact pyGetManyInto_short le junk (by rwa [hlen])

end Methods

/-- The batch methods are a loop of single lookups: for each type, every batch of convertible keys whose
single lookups have answers, and every buffer, `get_many` and `get_many_into` give the answers of the
single lookups; on a buffer that is too short nothing is written. The two arrays of a verified map have
one length. -/
theorem py_batches_eq_lookup (K : KeyHash) (B : Nat) (hB : 1 ≤ B) (le : Bool) (junk : Nat → UInt64)
    (keys : List PyObj) (bs : List Bytes)
    (hkeys : List.Forall₂ (fun key b => ∀ msg, keyFromObject msg key = .ok b) keys bs) :
    (∀ self : PyMap (List UInt64),
      BatchesOf (constmapLookup K self.map) (fun _ => fromUnsignedLongLong) le bs
        (fun _ => pyConstMapGetMany K B junk self keys)
        (pyConstMapGetManyInto K B le junk self keys)) ∧
    (∀ self : PyMap Tables, self.map.table.checks.length = self.map.table.data.length →
      BatchesOf (verifiedConstmapLookup K self.map) boxed le bs
        (pyVerifiedConstMapGetMany K B junk self keys)
        (pyVerifiedConstMapGetManyInto K B le junk self keys)) ∧
    (∀ self : PyMap (List Slot),
      BatchesOf (pairedVerifiedConstmapLookup K self.map) boxed le bs
        (pyPairedVerifiedConstMapGetMany K B junk self keys)
        (pyPairedVerifiedConstMapGetManyInto K B le junk self keys)) := by
  refine ⟨?_, ?_, ?_⟩
  · intro self
    exact batches_lookup (constmapLayout_gathersAs _) hB hkeys _ le junk
  · intro self hlen
    exact batches_lookup (verifiedLayout_gathersAs hlen) hB hkeys boxed le junk
  · intro self
    exact batches_lookup (pairedLayout_gathersAs _) hB hkeys boxed le junk

/-- The keys `b"a"` and `"b"` on a map of three slots, with a buffer of 17 bytes at an odd address. -/
theorem py_batches_eq_lookup_two :
    let self : PyMap (List UInt64) := ⟨⟨7, 1, 0, 1, 1, 3, 2, [5, 6, 8], 0⟩, true⟩
    let keys : List PyObj := [.bytes [0x61], .str [0x62]]
    ∃ bytes, pyConstMapGetManyInto smallKeyHash 8 true (fun _ => 0) self keys
        ⟨1, List.replicate 17 7⟩ = some (.ok (.int 2), bytes) ∧
      slice bytes 8 8 = nativeBytes true 11 ∧ bytes.drop 16 = [7] := by
  intro self keys
  have hkeys : List.Forall₂ (fun key b => ∀ msg, keyFromObject msg key = .ok b) keys
      [[0x61], [0x62]] := .cons (fun _ => rfl) (.cons (fun _ => rfl) .nil)
  have hwords : List.Forall₂ (fun b w => constmapLookup smallKeyHash self.map b = some w)
      [[0x61], [0x62]] [11, 11] := .cons (by decide +kernel) (.cons (by decide +kernel) .nil)
  obtain ⟨bytes, hinto, -, hfront, hrest⟩ :=
    ((py_batches_eq_lookup smallKeyHash 8 (by decide) true (fun _ => 0) keys _ hkeys).1 self).into
      _ hwords ⟨1, List.replicate 17 7⟩ (by decide)
  exact ⟨bytes, hinto 1, hfront 1 (by decide), hrest⟩

end FastConstMap
