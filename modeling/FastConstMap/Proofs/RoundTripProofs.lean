import FastConstMap.Proofs.BuiltMapProofs
import FastConstMap.Proofs.ReadProofs

/-!
# Proofs: round trips

A map that a constructor, a reader or a view produced is written out in the serialized size, and read
back from what was written; what a reader accepts is written back byte by byte, up to the upgrade of
`CMAP0001`. The bytes of a built map do not depend on the order of the entries.
-/

namespace FastConstMap

open CLoop Slices

section RoundTrip

variable {τ : Type} {Cd : Codec τ} {Rep : τ → Nat → (Nat → Slot) → Prop}
  {answer : Slot → UInt64 → UInt64} {H : Heap} {p : Bytes} {h : Header} {m : MapOf τ} {bs : Bytes}

/-! ## Well-formed maps -/

/-- A map whose derived fields are those that a reader computes, and whose arrays have `data_len`
entries. -/
structure Codec.WellFormed (Cd : Codec τ) (Rep : τ → Nat → (Nat → Slot) → Prop) (m : MapOf τ) :
    Prop where
  hash : KnownHash m.hash
  mask : m.segmentLengthMask = if m.segmentLength ≠ 0 then m.segmentLength - 1 else 0
  scl : m.segmentCountLength = m.segmentCount * m.segmentLength
  paramsOk : Cd.paramsOk m.segmentLength m.segmentCount m.dataLen = true
  table : ∃ f, Rep m.table m.dataLen.toNat f

/-- A map that a buffer describes is well formed. -/
theorem Codec.Describes.wellFormed (hCd : Cd.Lawful Rep answer) (hd : Cd.Describes p h m) :
    Cd.WellFormed Rep m := by
  obtain ⟨hacc, hparams, rfl⟩ := hd
  exact
    { hash := hCd.formats.hash h.format hacc.mem
      mask := rfl
      scl := rfl
      paramsOk := hparams
      table := hCd.borrow 64 p h.payload h.dataLen.toNat }

theorem emptyMap_wellFormed (hCd : Cd.Lawful Rep answer) {hash : UInt32} (hhash : KnownHash hash) :
    Cd.WellFormed Rep (Cd.layout.emptyMap hash) where
  hash := hhash
  mask := rfl
  scl := rfl
  paramsOk := hCd.paramsOk_zero
  table := hCd.null

theorem toMap_wellFormed (hCd : Cd.Lawful Rep answer) {hash : UInt32} (hhash : KnownHash hash)
    {q : Params} (hq : q.Valid) (n : UInt32) {table : τ} {f : Nat → Slot}
    (htable : Rep table q.arrayLen.toNat f) : Cd.WellFormed Rep (q.toMap n hash table) where
  hash := hhash
  mask := by
    have hL := hq.pos
    show q.segmentLengthMask = if q.segmentLength ≠ 0 then q.segmentLength - 1 else 0
    rw [if_pos (by rintro hzero; rw [hzero] at hL; exact absurd hL (by decide))]
    apply UInt32.toNat_inj.mp
    rw [hq.mask, UInt32.toNat_sub_of_le q.segmentLength 1 (UInt32.le_iff_toNat_le.mpr hL)]
    rfl
  scl := by
    apply UInt32.toNat_inj.mp
    show q.segmentCountLength.toNat = (q.segmentCount * q.segmentLength).toNat
    rw [UInt32.toNat_mul, ← hq.scl, Nat.mod_eq_of_lt q.segmentCountLength.toNat_lt]
  paramsOk := hCd.paramsOk_valid hq
  table := ⟨f, htable⟩

/-! ## Encodings -/

/-- The bytes `bs` are the encoding of the map `m`. -/
def Codec.Encodes (Cd : Codec τ) (m : MapOf τ) (bs : Bytes) : Prop :=
  ∃ fmt payload, formatFor Cd.formats m.hash = some fmt ∧
    Cd.encode m.table m.dataLen.toNat = some payload ∧
    bs = withChecksum
      (writeHeader fmt m.seed m.segmentLength m.segmentCount m.dataLen m.n ++ payload)

/-- A well-formed map has an encoding, of the serialized size. -/
theorem Codec.WellFormed.exists_encodes (hCd : Cd.Lawful Rep answer) (hm : Cd.WellFormed Rep m) :
    ∃ bs, Cd.Encodes m bs ∧ bs.length = serializedSize Cd 64 m := by
  obtain ⟨fmt, hmem, hhash, h32⟩ := hCd.formats.known m.hash hm.hash
  have hfor := hCd.formats.find_hash fmt hmem h32
  rw [hhash] at hfor
  obtain ⟨f, hrep⟩ := hm.table
  obtain ⟨payload, henc, hlen⟩ := hCd.encode hrep
  refine ⟨_, ⟨fmt, payload, hfor, henc, rfl⟩, ?_⟩
  have hmul : m.dataLen.toNat * Cd.entryBytes ≤ 2 ^ 32 * 16 :=
    Nat.mul_le_mul m.dataLen.toNat_lt.le hCd.entryBytes
  rw [withChecksum, List.length_append, List.length_append, length_writeU64,
    length_writeHeader (hCd.formats.magic fmt hmem), hlen, serializedSize, HEADER_SIZE, TRAILER_SIZE,
    Nat.mod_eq_of_lt (by omega)]

/-- The writer writes the encoding, and leaves the rest of the buffer alone. -/
theorem Codec.Encodes.write (henc : Cd.Encodes m bs) {buf : Bytes} (hfits : bs.length ≤ buf.length) :
    write Cd m buf = some (.ok, bs ++ buf.drop bs.length) := by
  obtain ⟨fmt, payload, hfor, hpayload, rfl⟩ := henc
  unfold FastConstMap.write
  simp only [hfor, hpayload, Option.bind_eq_bind, Option.bind_some]
  rw [if_pos hfits]

/-- The encoding of a well-formed map describes it, whatever follows. -/
theorem Codec.Encodes.describes (hCd : Cd.Lawful Rep answer) (hm : Cd.WellFormed Rep m)
    (henc : Cd.Encodes m bs) (rest : Bytes) : ∃ h, Cd.Describes (bs ++ rest) h m := by
  obtain ⟨fmt, payload, hfor, hpayload, rfl⟩ := henc
  obtain ⟨hmem, hhash, h32⟩ := hCd.formats.formatFor_spec hfor
  obtain ⟨f, hrep⟩ := hm.table
  obtain ⟨payload', hpayload', hlen⟩ := hCd.encode hrep
  obtain rfl : payload = payload' := Option.some.inj (hpayload.symm.trans hpayload')
  have hacc := accepted_written hCd.formats hmem h32 m.seed m.segmentLength m.segmentCount m.dataLen
    m.n hlen rest
  refine ⟨_, hacc, hm.paramsOk, ?_⟩
  -- The arrays in the buffer have the encoding of the arrays of the map.
  have hheader := length_writeHeader (hCd.formats.magic fmt hmem) m.seed m.segmentLength
    m.segmentCount m.dataLen m.n
  have hslice : slice (withChecksum (writeHeader fmt m.seed m.segmentLength m.segmentCount m.dataLen
      m.n ++ payload) ++ rest) 32 (m.dataLen.toNat * Cd.entryBytes) = payload := by
    rw [withChecksum, List.append_assoc, List.append_assoc]
    show slice _ (32 + 0) _ = _
    rw [slice_append_add hheader, slice_append_self hlen]
  have hfits := hacc.fits
  rw [Header.bodySize, h32] at hfits
  have hle : 32 + m.dataLen.toNat * Cd.entryBytes ≤ _ := (Nat.le_add_right _ 8).trans hfits
  obtain ⟨g, hborrow⟩ := hCd.borrow 64 _ 32 m.dataLen.toNat
  have htable := hCd.encode_injective hrep hborrow
    (by rw [hpayload, hCd.encode_borrow m.dataLen.toNat_lt hle, hslice])
  simp only [Codec.mapAt, setHeader]
  rw [← hm.mask, ← hm.scl, ← htable, hhash]

/-- What `write` writes for the map `m` is `bs`, and `read` gets `m` back from it, whatever
follows. -/
structure Rewrites (write : MapOf τ → Bytes → Option (Rc × Bytes))
    (read : Heap → Bytes → Option (Rc × MapOf τ)) (m : MapOf τ) (bs : Bytes) : Prop where
  writes : ∀ buf, bs.length ≤ buf.length → write m buf = some (.ok, bs ++ buf.drop bs.length)
  reads : ∀ H rest, (∀ b, H.ok b = true) → read H (bs ++ rest) = some (.ok, m)

theorem Codec.Encodes.rewrites (hCd : Cd.Lawful Rep answer) (hm : Cd.WellFormed Rep m)
    (henc : Cd.Encodes m bs) : Rewrites (FastConstMap.write Cd) (FastConstMap.read Cd 64) m bs where
  writes _ hfits := henc.write hfits
  reads H rest hok := by
    obtain ⟨h, hd⟩ := henc.describes hCd hm rest
    exact hd.read hCd hok

/-! ## Maps that the library produces -/

/-- The maps that the constructor `new`, the reader `read` or the view `view` of a map type leave in
`*out` when they return `FCM_OK`. -/
inductive Produced
    (new : Env → Heap → MapOf τ → List (Bytes × UInt64) → UInt32 → Option (Rc × MapOf τ))
    (read : Heap → Bytes → Option (Rc × MapOf τ))
    (view : Bool → Nat → Bytes → Option (Rc × MapOf τ)) : MapOf τ → Prop
  | built {E : Env} {H : Heap} {out m : MapOf τ} {entries : List (Bytes × UInt64)} {hash : UInt32}
      (h : new E H out entries hash = some (.ok, m)) : Produced new read view m
  | read {H : Heap} {p : Bytes} {m : MapOf τ} (h : read H p = some (.ok, m)) :
      Produced new read view m
  | view {littleEndian : Bool} {addr : Nat} {p : Bytes} {m : MapOf τ}
      (h : view littleEndian addr p = some (.ok, m)) : Produced new read view m

/-- Every map that the library produces is well formed. -/
theorem Produced.wellFormed (hCd : Cd.Lawful Rep answer)
    (hm : Produced (newWithHash Cd.layout) (FastConstMap.read Cd 64) (FastConstMap.view Cd 64) m) :
    Cd.WellFormed Rep m := by
  cases hm with
  | built h =>
    obtain ⟨hknown, rfl | ⟨q, n, table, f, hq, hrep, rfl⟩⟩ := newWithHash_ok_rep hCd.layout h
    · exact emptyMap_wellFormed hCd hknown
    · exact toMap_wellFormed hCd hknown hq n hrep
  | read h =>
    obtain ⟨_, hd⟩ := read_ok hCd h
    exact hd.wellFormed hCd
  | view h =>
    obtain ⟨_, hd⟩ := view_ok hCd h
    exact hd.wellFormed hCd

theorem Produced.rewrites (hCd : Cd.Lawful Rep answer)
    (hm : Produced (newWithHash Cd.layout) (FastConstMap.read Cd 64) (FastConstMap.view Cd 64) m) :
    ∃ bs, bs.length = serializedSize Cd 64 m ∧
      Rewrites (FastConstMap.write Cd) (FastConstMap.read Cd 64) m bs := by
  have hwf := hm.wellFormed hCd
  obtain ⟨bs, henc, hlen⟩ := hwf.exists_encodes hCd
  exact ⟨bs, hlen, henc.rewrites hCd hwf⟩

/-! ## Buffers that the readers accept -/

theorem Codec.Describes.encode_table (hCd : Cd.Lawful Rep answer) (hd : Cd.Describes p h m) :
    Cd.encode m.table m.dataLen.toNat =
      some (slice p h.format.headerSize (m.dataLen.toNat * Cd.entryBytes)) := by
  obtain ⟨hacc, -, rfl⟩ := hd
  rw [← hacc.payload]
  exact hCd.encode_borrow h.dataLen.toNat_lt hacc.payload_le

/-- With a header of 32 bytes, the encoding of the map is the start of the buffer. -/
theorem Codec.Describes.encodes (hCd : Cd.Lawful Rep answer) (hd : Cd.Describes p h m)
    (h32 : h.format.headerSize = 32) :
    Cd.Encodes m (p.take (32 + m.dataLen.toNat * Cd.entryBytes + 8)) := by
  have htable := hd.encode_table hCd
  have hacc := hd.accepted
  rw [h32] at htable
  refine ⟨h.format, _, ?_, htable, ?_⟩
  · rw [hd.map]
    exact hCd.formats.find_hash h.format hacc.mem h32
  · have htake := hacc.take_eq h32
    rw [Header.bodySize, h32] at htake
    rw [hd.map]
    exact htake

/-- With a header of 28 bytes, the encoding of the map has the current format of the same hash, the
parameters and the arrays of the buffer, and the key count 0. -/
theorem Codec.Describes.encodes_upgrade (hCd : Cd.Lawful Rep answer) (hd : Cd.Describes p h m)
    (h28 : h.format.headerSize = 28) {fmt : Format}
    (hfor : formatFor Cd.formats h.format.hash = some fmt) :
    Cd.Encodes m (withChecksum (fmt.magic ++ slice p 8 20 ++ writeU32 0 ++
      slice p 28 (m.dataLen.toNat * Cd.entryBytes))) := by
  have htable := hd.encode_table hCd
  rw [h28] at htable
  refine ⟨fmt, _, ?_, htable, ?_⟩
  · rw [hd.map]
    exact hfor
  · rw [← hd.accepted.upgrade h28, hd.map]
    rfl

theorem Codec.Describes.readU32 (hd : Cd.Describes p h m) :
    FastConstMap.readU32 p 24 = some m.dataLen := by
  have hacc := hd.accepted
  have hle := le_of_length_slice (by decide) ((congrArg List.length hacc.dataLen).trans rfl)
  rw [readU32_of_le hle, word32At_eq hacc.dataLen, hd.map]
  rfl

/-- The encoding of the map that the buffer `p` describes, in a type whose headers have 32 bytes. -/
theorem read_rewrites (hCd : Cd.Lawful Rep answer)
    (h32 : ∀ f ∈ Cd.formats, f.headerSize = 32) (hread : read Cd 64 H p = some (.ok, m)) :
    FastConstMap.readU32 p 24 = some m.dataLen ∧
      32 + m.dataLen.toNat * Cd.entryBytes + 8 ≤ p.length ∧
      Rewrites (FastConstMap.write Cd) (FastConstMap.read Cd 64) m
        (p.take (32 + m.dataLen.toNat * Cd.entryBytes + 8)) := by
  obtain ⟨h, hd⟩ := read_ok hCd hread
  have hsize := h32 h.format hd.accepted.mem
  refine ⟨hd.readU32, ?_, (hd.encodes hCd hsize).rewrites hCd (hd.wellFormed hCd)⟩
  have hfits := hd.accepted.fits
  rw [Header.bodySize, hsize] at hfits
  rw [hd.map]
  exact hfits

/-- A buffer that a reader accepts starts with a magic of its type. -/
theorem read_magic (hCd : Cd.Lawful Rep answer) (hread : read Cd 64 H p = some (.ok, m)) :
    p.take 8 ∈ Cd.formats.map Format.magic := by
  obtain ⟨h, hd⟩ := read_ok hCd hread
  rw [hd.accepted.magic]
  exact List.mem_map_of_mem hd.accepted.mem

/-- The readers of two types with different magics do not accept one buffer. -/
theorem read_disjoint {τ' : Type} {Cd' : Codec τ'} {Rep' : τ' → Nat → (Nat → Slot) → Prop}
    {answer' : Slot → UInt64 → UInt64} {H' : Heap} {m' : MapOf τ'} (hCd : Cd.Lawful Rep answer)
    (hCd' : Cd'.Lawful Rep' answer')
    (hdisjoint : ∀ x ∈ Cd.formats.map Format.magic, x ∉ Cd'.formats.map Format.magic)
    (hread : read Cd 64 H p = some (.ok, m)) (hread' : read Cd' 64 H' p = some (.ok, m')) : False :=
  hdisjoint _ (read_magic hCd hread) (read_magic hCd' hread')

end RoundTrip

/-- Decoding undoes encoding: a map of any of the three types that a constructor, a reader or a view
produced is written in exactly its serialized size, and read back from what was written, whatever
follows. -/
theorem read_write :
    (∀ cm, Produced constmapNewWithHash (constmapRead 64) (constmapView 64) cm →
      ∃ bs, bs.length = constmapSerializedSize 64 cm ∧
        Rewrites constmapWrite (constmapRead 64) cm bs) ∧
    (∀ vm, Produced verifiedConstmapNewWithHash (verifiedConstmapRead 64)
        (verifiedConstmapView 64) vm →
      ∃ bs, bs.length = verifiedConstmapSerializedSize 64 vm ∧
        Rewrites verifiedConstmapWrite (verifiedConstmapRead 64) vm bs) ∧
    ∀ pm, Produced pairedVerifiedConstmapNewWithHash (pairedVerifiedConstmapRead 64)
        (pairedVerifiedConstmapView 64) pm →
      ∃ bs, bs.length = pairedVerifiedConstmapSerializedSize 64 pm ∧
        Rewrites pairedVerifiedConstmapWrite (pairedVerifiedConstmapRead 64) pm bs :=
  ⟨fun _ hm => Produced.rewrites constmapCodec_lawful hm,
    fun _ hm => Produced.rewrites verifiedCodec_lawful hm,
    fun _ hm => Produced.rewrites pairedCodec_lawful hm⟩

/-- The map of two keys, with a byte after its encoding. -/
theorem read_write_two : ∃ cm bs,
    constmapNewWithHash smallEnv smallHeap constmapLayout.zeroMap [([0x61], 100), ([0x62], 200)]
      HASH_XXH64 = some (.ok, cm) ∧
    bs.length = constmapSerializedSize 64 cm ∧
    constmapRead 64 smallHeap (bs ++ [0xFF]) = some (.ok, cm) := by
  obtain ⟨cm, hcm⟩ := exists_ok (x := constmapNewWithHash smallEnv smallHeap
    constmapLayout.zeroMap [([0x61], 100), ([0x62], 200)] HASH_XXH64) (by decide +kernel)
  obtain ⟨bs, hlen, hrewrites⟩ := read_write.1 cm (.built hcm)
  exact ⟨cm, bs, hcm, hlen, hrewrites.reads smallHeap [0xFF] fun _ => rfl⟩

/-- The readers accept exactly the format, and encoding again is canonical: a buffer that a reader
accepts is written back as it was, up to trailing bytes; only a `CMAP0001` buffer is upgraded to
`CMAP0003`, with the same parameters and words and the key count 0. The rewritten bytes are read as the
same map, and no buffer is accepted by the readers of two types. -/
theorem write_read :
    (∀ H p cm, constmapRead 64 H p = some (.ok, cm) → readU32 p 24 = some cm.dataLen ∧
      (p.take 8 ≠ magicOf ['C', 'M', 'A', 'P', '0', '0', '0', '1'] →
        32 + cm.dataLen.toNat * 8 + 8 ≤ p.length ∧
        Rewrites constmapWrite (constmapRead 64) cm (p.take (32 + cm.dataLen.toNat * 8 + 8))) ∧
      (p.take 8 = magicOf ['C', 'M', 'A', 'P', '0', '0', '0', '1'] →
        28 + cm.dataLen.toNat * 8 + 8 ≤ p.length ∧
        Rewrites constmapWrite (constmapRead 64) cm
          (withChecksum (magicOf ['C', 'M', 'A', 'P', '0', '0', '0', '3'] ++ slice p 8 20 ++
            writeU32 0 ++ slice p 28 (cm.dataLen.toNat * 8))))) ∧
    (∀ H p vm, verifiedConstmapRead 64 H p = some (.ok, vm) → readU32 p 24 = some vm.dataLen ∧
      32 + vm.dataLen.toNat * 16 + 8 ≤ p.length ∧
      Rewrites verifiedConstmapWrite (verifiedConstmapRead 64) vm
        (p.take (32 + vm.dataLen.toNat * 16 + 8))) ∧
    (∀ H p pm, pairedVerifiedConstmapRead 64 H p = some (.ok, pm) → readU32 p 24 = some pm.dataLen ∧
      32 + pm.dataLen.toNat * 16 + 8 ≤ p.length ∧
      Rewrites pairedVerifiedConstmapWrite (pairedVerifiedConstmapRead 64) pm
        (p.take (32 + pm.dataLen.toNat * 16 + 8))) ∧
    ∀ H H' p,
      (∀ cm vm, constmapRead 64 H p = some (.ok, cm) →
        verifiedConstmapRead 64 H' p ≠ some (.ok, vm)) ∧
      (∀ cm pm, constmapRead 64 H p = some (.ok, cm) →
        pairedVerifiedConstmapRead 64 H' p ≠ some (.ok, pm)) ∧
      (∀ vm pm, verifiedConstmapRead 64 H p = some (.ok, vm) →
        pairedVerifiedConstmapRead 64 H' p ≠ some (.ok, pm)) := by
  refine ⟨?_, ?_, ?_, ?_⟩
  · intro H p cm hread
    obtain ⟨h, hd⟩ := read_ok constmapCodec_lawful hread
    have hwf := hd.wellFormed constmapCodec_lawful
    have hfits := hd.accepted.fits
    have hlen : cm.dataLen = h.dataLen := by rw [hd.map]; rfl
    rw [Header.bodySize, ← hlen] at hfits
    have hcases : ∀ f ∈ constmapFormats,
        f.headerSize = 32 ∧ f.magic ≠ magicOf ['C', 'M', 'A', 'P', '0', '0', '0', '1'] ∨
        f.headerSize = 28 ∧ f.magic = magicOf ['C', 'M', 'A', 'P', '0', '0', '0', '1'] ∧
          formatFor constmapFormats f.hash = some constmapFormats[0] := by decide
    refine ⟨hd.readU32, ?_, ?_⟩
    · intro hne
      rcases hcases h.format hd.accepted.mem with ⟨h32, -⟩ | ⟨-, h1, -⟩
      · rw [h32] at hfits
        exact ⟨hfits, (hd.encodes constmapCodec_lawful h32).rewrites constmapCodec_lawful hwf⟩
      · exact absurd (hd.accepted.magic.trans h1) hne
    · intro heq
      rcases hcases h.format hd.accepted.mem with ⟨-, h1⟩ | ⟨h28, -, hfor⟩
      · exact absurd (hd.accepted.magic.symm.trans heq) h1
      · rw [h28] at hfits
        exact ⟨hfits, (hd.encodes_upgrade constmapCodec_lawful h28 hfor).rewrites
          constmapCodec_lawful hwf⟩
  · intro H p vm hread
    exact read_rewrites verifiedCodec_lawful (by decide) hread
  · intro H p pm hread
    exact read_rewrites pairedCodec_lawful (by decide) hread
  · intro H H' p
    refine ⟨?_, ?_, ?_⟩
    · intro cm vm hc hv
      exact read_disjoint constmapCodec_lawful verifiedCodec_lawful (by decide) hc hv
    · intro cm pm hc hp
      exact read_disjoint constmapCodec_lawful pairedCodec_lawful (by decide) hc hp
    · intro vm pm hv hp
      exact read_disjoint verifiedCodec_lawful pairedCodec_lawful (by decide) hv hp

/-- A `CMAP0001` buffer with one word. -/
theorem write_read_upgrade :
    let fields := writeU64 7 ++ writeU32 1 ++ writeU32 1 ++ writeU32 1
    let p := withChecksum
      (magicOf ['C', 'M', 'A', 'P', '0', '0', '0', '1'] ++ fields ++ writeU64 5)
    ∃ cm, constmapRead 64 smallHeap p = some (.ok, cm) ∧
      constmapWrite cm (List.replicate 48 0) = some (.ok, withChecksum
        (magicOf ['C', 'M', 'A', 'P', '0', '0', '0', '3'] ++ fields ++ writeU32 0 ++
          writeU64 5)) := by
  intro fields p
  obtain ⟨cm, hread⟩ := exists_ok (x := constmapRead 64 smallHeap p) (by decide +kernel)
  obtain ⟨hlen, -, hupgrade⟩ := write_read.1 smallHeap p cm hread
  obtain ⟨-, hrewrites⟩ := hupgrade (by decide +kernel)
  have h1 : cm.dataLen = 1 := Option.some.inj (hlen.symm.trans (by decide +kernel))
  rw [h1] at hrewrites
  refine ⟨cm, hread, (hrewrites.writes (List.replicate 48 0) (by decide +kernel)).trans ?_⟩
  decide +kernel

/-! ## The order of the entries -/

/-- A built map does not depend on the order of the entries: a constructor that succeeds on an array
and on a permutation of it builds the same map twice, with the same bytes and the same answers. -/
theorem construct_perm (E : Env) (hash : UInt32) (entries entries' : List (Bytes × UInt64))
    (hperm : entries.Perm entries') (hn : entries.length ≤ 2 ^ 31 - 1) (H H' : Heap) :
    (∀ out out' m m', constmapNewWithHash E H out entries hash = some (.ok, m) →
      constmapNewWithHash E H' out' entries' hash = some (.ok, m') →
      m = m' ∧ (∀ buf, constmapWrite m buf = constmapWrite m' buf) ∧
        ∀ key, constmapLookup E.keyHash m key = constmapLookup E.keyHash m' key) ∧
    (∀ out out' m m', verifiedConstmapNewWithHash E H out entries hash = some (.ok, m) →
      verifiedConstmapNewWithHash E H' out' entries' hash = some (.ok, m') →
      m = m' ∧ (∀ buf, verifiedConstmapWrite m buf = verifiedConstmapWrite m' buf) ∧
        ∀ key, verifiedConstmapLookup E.keyHash m key = verifiedConstmapLookup E.keyHash m' key) ∧
    (∀ out out' m m', pairedVerifiedConstmapNewWithHash E H out entries hash = some (.ok, m) →
      pairedVerifiedConstmapNewWithHash E H' out' entries' hash = some (.ok, m') →
      m = m' ∧ (∀ buf, pairedVerifiedConstmapWrite m buf = pairedVerifiedConstmapWrite m' buf) ∧
        ∀ key, pairedVerifiedConstmapLookup E.keyHash m key =
          pairedVerifiedConstmapLookup E.keyHash m' key) := by
  have hlen : entries.length < 2 ^ 31 := by omega
  refine ⟨?_, ?_, ?_⟩
  · intro out out' m m' h h'
    obtain rfl := newWithHash_perm constmapLayout_lawful hperm hlen h h'
    exact ⟨rfl, fun _ => rfl, fun _ => rfl⟩
  · intro out out' m m' h h'
    obtain rfl := newWithHash_perm verifiedLayout_lawful hperm hlen h h'
    exact ⟨rfl, fun _ => rfl, fun _ => rfl⟩
  · intro out out' m m' h h'
    obtain rfl := newWithHash_perm pairedLayout_lawful hperm hlen h h'
    exact ⟨rfl, fun _ => rfl, fun _ => rfl⟩

/-- Two keys in both orders. -/
theorem construct_perm_two : ∃ m,
    constmapNewWithHash smallEnv smallHeap constmapLayout.zeroMap [([0x61], 100), ([0x62], 200)]
      HASH_XXH64 = some (.ok, m) ∧
    constmapNewWithHash smallEnv smallHeap constmapLayout.zeroMap [([0x62], 200), ([0x61], 100)]
      HASH_XXH64 = some (.ok, m) := by
  obtain ⟨m, hm⟩ := exists_ok (x := constmapNewWithHash smallEnv smallHeap
    constmapLayout.zeroMap [([0x61], 100), ([0x62], 200)] HASH_XXH64) (by decide +kernel)
  obtain ⟨m', hm'⟩ := exists_ok (x := constmapNewWithHash smallEnv smallHeap
    constmapLayout.zeroMap [([0x62], 200), ([0x61], 100)] HASH_XXH64) (by decide +kernel)
  obtain ⟨rfl, -, -⟩ := (construct_perm smallEnv HASH_XXH64 _ _ (List.Perm.swap ..) (by decide)
    smallHeap smallHeap).1 _ _ m m' hm hm'
  exact ⟨m, hm, hm'⟩

end FastConstMap
