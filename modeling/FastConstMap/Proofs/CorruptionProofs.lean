import FastConstMap.Proofs.ReadProofs
import FastConstMap.Proofs.RoundTripProofs

/-!
# Proofs: truncation and changed bytes

The bytes of a written map are rejected when they are cut off, and when one of them is changed: the
checksum sees every changed byte, unless the change makes the parser look for it in another place.
-/

namespace FastConstMap

open CLoop Slices

/-! ## The checksum -/

/-- One step of `fcm_fnv1a64`. -/
def fnvStep (h : UInt64) (b : UInt8) : UInt64 := (h ^^^ b.toUInt64) * 0x100000001b3

/-- The multiplier is odd, so different words stay different. -/
theorem fnv_mul_injective : Function.Injective fun h : UInt64 => h * 0x100000001b3 := by
  have hinv : (0x100000001b3 : UInt64) * 0xce965057aff6957b = 1 := by decide
  intro a b hab
  have h := congrArg (· * (0xce965057aff6957b : UInt64)) hab
  simp only [UInt64.mul_assoc, hinv, UInt64.mul_one] at h
  exact h

theorem fnvStep_injective_state (b : UInt8) : Function.Injective (fnvStep · b) := by
  intro h h' heq
  have hxor := congrArg (· ^^^ b.toUInt64) (fnv_mul_injective heq)
  simpa only [UInt64.xor_assoc, UInt64.xor_self, UInt64.xor_zero] using hxor

theorem fnvStep_injective_byte (h : UInt64) : Function.Injective (fnvStep h) := by
  intro b b' heq
  have hxor := congrArg (h ^^^ ·) (fnv_mul_injective heq)
  simp only [Words.xor_self_cancel] at hxor
  apply UInt8.toNat_inj.mp
  have hnat := congrArg UInt64.toNat hxor
  rwa [UInt8.toNat_toUInt64, UInt8.toNat_toUInt64] at hnat

/-- The checksum sees every change of one byte. -/
theorem fnv1a64_set_ne {bs : Bytes} {i : Nat} (hi : i < bs.length) {v : UInt8} (hv : v ≠ bs[i]) :
    fnv1a64 (bs.set i v) ≠ fnv1a64 bs :=
  foldl_set_ne fnvStep_injective_state fnvStep_injective_byte hi hv _

/-! ## The parser on a changed buffer -/

section Parse

variable {formats : List Format} {entryBytes : Nat} {b : Bytes} {h : Header}

/-- A buffer that a writer filled: the parser accepts it, its header has 32 bytes, and nothing
follows the checksum. -/
structure Exact (formats : List Format) (entryBytes : Nat) (b : Bytes) (h : Header) : Prop where
  accepted : Accepted formats entryBytes b h
  size : h.format.headerSize = 32
  length : b.length = h.bodySize entryBytes + 8

theorem Exact.body_ge (hb : Exact formats entryBytes b h) : 32 ≤ h.bodySize entryBytes := by
  rw [Header.bodySize, hb.size]
  exact Nat.le_add_right _ _

theorem Exact.dataLen_eq (hb : Exact formats entryBytes b h) : word32At b 24 = h.dataLen :=
  word32At_eq hb.accepted.dataLen

/-- The size of the arrays follows from `data_len`. -/
theorem bodySize_headerAt {f : Format} {p : Bytes} (hf : f.headerSize = 32)
    (hb : Exact formats entryBytes b h) (hlen : word32At p 24 = h.dataLen) :
    (headerAt f p).bodySize entryBytes = h.bodySize entryBytes := by
  show f.headerSize + (word32At p 24).toNat * entryBytes = _
  rw [hlen, hf, Header.bodySize, hb.size]

/-- A buffer that is cut off is too short. -/
theorem parse_take (hf : ProperFormats formats) (hentry : entryBytes ≤ 16)
    (hb : Exact formats entryBytes b h) {k : Nat} (hk : k < b.length) :
    parse 64 formats entryBytes (b.take k) = some (.error .shortBuffer) := by
  have hlen : (b.take k).length = k := by rw [List.length_take]; omega
  have hbody := hb.body_ge
  have hlength := hb.length
  rw [parse_eq hf hentry, hlen]
  by_cases h8 : k < 8
  · rw [if_pos h8]
  rw [if_neg h8, List.take_take, Nat.min_eq_left (not_lt.mp h8), hb.accepted.magic,
    hf.find_magic _ hb.accepted.mem]
  simp only
  rw [if_pos]
  have hge : h.format.headerSize ≤ (headerAt h.format (b.take k)).bodySize entryBytes :=
    Nat.le_add_right _ _
  by_cases h40 : k < 40
  · have := hb.size
    omega
  · -- The cut is past the header, so `data_len` is the one that was written.
    have hword : word32At (b.take k) 24 = h.dataLen := by
      rw [← hb.dataLen_eq, word32At, word32At, slice, slice, List.drop_take, List.take_take,
        Nat.min_eq_left (by omega)]
    rw [bodySize_headerAt hb.size hb hword]
    omega

variable {i : Nat} {v : UInt8}

/-- When `data_len` and the size of the header stay, a changed byte makes the checksum fail. -/
theorem parse_set_checksum (hf : ProperFormats formats) (hentry : entryBytes ≤ 16)
    (hb : Exact formats entryBytes b h) (hi : i < b.length) (hv : v ≠ b[i]) {f : Format}
    (hmem : f ∈ formats) (hmagic : (b.set i v).take 8 = f.magic) (h32 : f.headerSize = 32)
    (hword : word32At (b.set i v) 24 = h.dataLen) :
    parse 64 formats entryBytes (b.set i v) = some (.error .checksum) := by
  have hlength := hb.length
  have hbody := hb.body_ge
  rw [parse_eq hf hentry, List.length_set, if_neg (by omega), hmagic, hf.find_magic f hmem]
  simp only
  rw [bodySize_headerAt h32 hb hword, if_neg (by omega), if_pos]
  have hsum := hb.accepted.checksum
  by_cases hbody' : i < h.bodySize entryBytes
  · -- The body changed, the trailer did not.
    have hset : (b.set i v).take (h.bodySize entryBytes) =
        (b.take (h.bodySize entryBytes)).set i v := List.take_set
    have hslice : slice (b.set i v) (h.bodySize entryBytes) 8 =
        writeU64 (fnv1a64 (b.take (h.bodySize entryBytes))) := by
      rw [slice_set_of_outside v (Or.inl hbody'), hsum]
    rw [wordAt_eq hslice, hset]
    have hlt : i < (b.take (h.bodySize entryBytes)).length := by rw [List.length_take]; omega
    exact (fnv1a64_set_ne hlt (by rwa [List.getElem_take])).symm
  · -- The trailer changed, the body did not.
    have htake : (b.set i v).take (h.bodySize entryBytes) = b.take (h.bodySize entryBytes) := by
      rw [List.take_set_of_le (not_lt.mp hbody')]
    intro hword'
    refine slice_set_ne hi hv (not_lt.mp hbody') (show i < h.bodySize entryBytes + 8 by omega) ?_
    rw [hsum, slice_eq_writeU64 (by rw [List.length_set]; omega), hword', htake]

/-- A larger `data_len` makes the buffer too short. -/
theorem parse_set_longer (hf : ProperFormats formats) (hentry : entryBytes ≤ 16)
    (hpos : 0 < entryBytes) (hb : Exact formats entryBytes b h) (hi : 8 ≤ i)
    (hword : h.dataLen < word32At (b.set i v) 24) :
    parse 64 formats entryBytes (b.set i v) = some (.error .shortBuffer) := by
  have hlength := hb.length
  have hbody := hb.body_ge
  have hmagic : (b.set i v).take 8 = h.format.magic := by
    rw [List.take_set_of_le hi, hb.accepted.magic]
  rw [parse_eq hf hentry, List.length_set, if_neg (by omega), hmagic,
    hf.find_magic _ hb.accepted.mem]
  simp only
  rw [if_pos]
  show b.length < h.format.headerSize + (word32At (b.set i v) 24).toNat * entryBytes + 8
  have hmul := Nat.mul_lt_mul_of_pos_right (UInt32.lt_iff_toNat_lt.mp hword) hpos
  rw [hlength, Header.bodySize]
  omega

/-- A changed byte of the magic makes it unknown, or the checksum fails, unless the new magic belongs
to a format with a shorter header. -/
theorem parse_set_magic (hf : ProperFormats formats) (hentry : entryBytes ≤ 16)
    (hb : Exact formats entryBytes b h) (hlt : i < b.length) (hv : v ≠ b[i]) (hi : i < 8)
    (hold : ∀ f ∈ formats, (b.set i v).take 8 = f.magic → f.headerSize = 32) :
    ∃ rc, rc ≠ .ok ∧ parse 64 formats entryBytes (b.set i v) = some (.error rc) := by
  have hlength := hb.length
  have hbody := hb.body_ge
  cases hfind : formats.find? fun f => (b.set i v).take 8 = f.magic with
  | none =>
    refine ⟨.invalidFormat, by decide, ?_⟩
    rw [parse_eq hf hentry, List.length_set, if_neg (by omega), hfind]
  | some f =>
    have hmem := List.mem_of_find?_eq_some hfind
    have hmagic : (b.set i v).take 8 = f.magic := by simpa using List.find?_some hfind
    refine ⟨.checksum, by decide, ?_⟩
    refine parse_set_checksum hf hentry hb hlt hv hmem hmagic (hold f hmem hmagic) ?_
    rw [word32At, slice_set_of_outside v (Or.inl (by omega)), ← word32At, hb.dataLen_eq]

end Parse

/-! ## Readers and views -/

section Read

variable {τ : Type} {Cd : Codec τ} {Rep : τ → Nat → (Nat → Slot) → Prop}
  {answer : Slot → UInt64 → UInt64} {b : Bytes} {h : Header} {m : MapOf τ}

/-- The reader and the view answer the buffer `p` with the code `rc`. -/
def Rejects (read : Heap → Bytes → Option (Rc × MapOf τ))
    (view : Nat → Bytes → Option (Rc × MapOf τ)) (p : Bytes) (rc : Rc) : Prop :=
  (∀ H, ∃ m, read H p = some (rc, m)) ∧ ∀ addr, ∃ m, view addr p = some (rc, m)

/-- What the reader and the view say of the written buffer `b` when it is damaged; `old p` says that
the magic of `p` is one with a shorter header. -/
structure DetectsDamage (read : Heap → Bytes → Option (Rc × MapOf τ))
    (view : Nat → Bytes → Option (Rc × MapOf τ)) (old : Bytes → Prop) (b : Bytes) : Prop where
  truncated : ∀ k, k < b.length → Rejects read view (b.take k) .shortBuffer
  changed : ∀ i (hi : i < b.length) v, v ≠ b[i] → ¬ old (b.set i v) →
    ¬ (∃ d d', readU32 b 24 = some d ∧ readU32 (b.set i v) 24 = some d' ∧ d' < d) →
    ∃ rc, rc ≠ .ok ∧ Rejects read view (b.set i v) rc
  checksum : ∀ i (hi : i < b.length) v, v ≠ b[i] → 8 ≤ i → ¬ (24 ≤ i ∧ i < 28) →
    Rejects read view (b.set i v) .checksum

theorem rejects_of_parse {p : Bytes} {rc : Rc}
    (hparse : parse 64 Cd.formats Cd.entryBytes p = some (.error rc)) :
    Rejects (read Cd 64) (view Cd 64 true) p rc := by
  refine ⟨fun H => ⟨Cd.layout.zeroMap, ?_⟩, fun addr => ⟨_, view_of_error hparse⟩⟩
  unfold read
  rw [hparse]
  rfl

/-- The parser tells `b` from everything that it becomes by damage. -/
theorem Exact.detectsDamage (hCd : Cd.Lawful Rep answer) (hpos : 0 < Cd.entryBytes)
    (hb : Exact Cd.formats Cd.entryBytes b h) {old : Bytes → Prop}
    (hold : ∀ f ∈ Cd.formats, ∀ p : Bytes, p.take 8 = f.magic → ¬ old p → f.headerSize = 32) :
    DetectsDamage (read Cd 64) (view Cd 64 true) old b := by
  have hlength := hb.length
  have hbody := hb.body_ge
  have hread : ∀ p : Bytes, p.length = b.length → readU32 p 24 = some (word32At p 24) :=
    fun p hp => readU32_of_le (by omega)
  have hsum : ∀ i (hi : i < b.length) v, v ≠ b[i] → 8 ≤ i → ¬ (24 ≤ i ∧ i < 28) →
      Rejects (read Cd 64) (view Cd 64 true) (b.set i v) .checksum := by
    intro i hi v hv h8 hout
    refine rejects_of_parse (parse_set_checksum hCd.formats hCd.entryBytes hb hi hv
      hb.accepted.mem (by rw [List.take_set_of_le h8, hb.accepted.magic]) hb.size ?_)
    rw [word32At, slice_set_of_outside v (by omega), ← word32At, hb.dataLen_eq]
  refine ⟨?_, ?_, hsum⟩
  · intro k hk
    exact rejects_of_parse (parse_take hCd.formats hCd.entryBytes hb hk)
  · intro i hi v hv hno hlower
    by_cases h8 : i < 8
    · obtain ⟨rc, hrc, hparse⟩ := parse_set_magic hCd.formats hCd.entryBytes hb hi hv h8
        fun f hf hmagic => hold f hf _ hmagic hno
      exact ⟨rc, hrc, rejects_of_parse hparse⟩
    by_cases hin : 24 ≤ i ∧ i < 28
    · -- A changed byte of `data_len` changes it, and it did not become smaller.
      have hne : word32At (b.set i v) 24 ≠ h.dataLen := by
        intro heq
        refine slice_set_ne hi hv hin.1 (show i < 24 + 4 by omega) ?_
        rw [slice_eq_writeU32 (by rw [List.length_set]; omega), heq, hb.accepted.dataLen]
      have hnot : ¬ word32At (b.set i v) 24 < h.dataLen := by
        intro hlt
        refine hlower ⟨_, _, hread b rfl, hread _ List.length_set, ?_⟩
        rwa [hb.dataLen_eq]
      have hlt : h.dataLen < word32At (b.set i v) 24 := by
        rw [UInt32.lt_iff_toNat_lt] at hnot ⊢
        have := mt UInt32.toNat_inj.mp hne
        omega
      exact ⟨.shortBuffer, by decide, rejects_of_parse
        (parse_set_longer hCd.formats hCd.entryBytes hpos hb (by omega) hlt)⟩
    · exact ⟨.checksum, by decide, hsum i hi v hv (not_lt.mp h8) hin⟩

/-- What a writer that succeeds has written is exactly what the parser accepts. -/
theorem write_exact (hCd : Cd.Lawful Rep answer)
    (hencode : ∀ table n bs, Cd.encode table n = some bs → bs.length = n * Cd.entryBytes)
    {buf out : Bytes} (hwrite : write Cd m buf = some (.ok, out)) :
    ∃ h, Exact Cd.formats Cd.entryBytes (out.take (serializedSize Cd 64 m)) h := by
  unfold write at hwrite
  cases hfor : formatFor Cd.formats m.hash with
  | none =>
    rw [hfor] at hwrite
    simp at hwrite
  | some fmt =>
    rw [hfor] at hwrite
    obtain ⟨payload, hpayload, hwrite⟩ := Option.bind_eq_some_iff.mp hwrite
    simp only at hwrite
    obtain ⟨hmem, -, h32⟩ := hCd.formats.formatFor_spec hfor
    have hlen := hencode _ _ _ hpayload
    have hacc := accepted_written hCd.formats hmem h32 m.seed m.segmentLength m.segmentCount
      m.dataLen m.n hlen []
    rw [List.append_nil] at hacc
    set bs := withChecksum
      (writeHeader fmt m.seed m.segmentLength m.segmentCount m.dataLen m.n ++ payload) with hbs
    have hbslen : bs.length = 32 + m.dataLen.toNat * Cd.entryBytes + 8 := by
      rw [hbs, withChecksum, List.length_append, List.length_append, length_writeU64,
        length_writeHeader (hCd.formats.magic fmt hmem), hlen]
    have hsize : serializedSize Cd 64 m = bs.length := by
      have hmul : m.dataLen.toNat * Cd.entryBytes ≤ 2 ^ 32 * 16 :=
        Nat.mul_le_mul m.dataLen.toNat_lt.le hCd.entryBytes
      rw [hbslen, serializedSize, HEADER_SIZE, TRAILER_SIZE, Nat.mod_eq_of_lt (by omega)]
    split_ifs at hwrite
    obtain rfl : bs ++ buf.drop bs.length = out := (Prod.mk.inj (Option.some.inj hwrite)).2
    rw [hsize, List.take_left]
    refine ⟨_, hacc, h32, ?_⟩
    rw [hbslen, Header.bodySize, h32]

end Read

/-! ## The encodings have the serialized size -/

theorem length_encode_constmap (data : List UInt64) (n : Nat) (bs : Bytes)
    (h : constmapCodec.encode data n = some bs) : bs.length = n * 8 := by
  obtain ⟨words, hwords, h⟩ := Option.bind_eq_some_iff.mp h
  rw [← Option.some.inj h, length_flatMap length_writeU64, length_of_tabulate hwords]

theorem length_encode_verified (table : Tables) (n : Nat) (bs : Bytes)
    (h : verifiedCodec.encode table n = some bs) : bs.length = n * 16 := by
  obtain ⟨data, hdata, h⟩ := Option.bind_eq_some_iff.mp h
  obtain ⟨checks, hchecks, h⟩ := Option.bind_eq_some_iff.mp h
  rw [← Option.some.inj h, List.length_append, length_flatMap length_writeU64,
    length_flatMap length_writeU64, length_of_tabulate hdata, length_of_tabulate hchecks,
    ← Nat.mul_add]

theorem length_encode_paired (slots : List Slot) (n : Nat) (bs : Bytes)
    (h : pairedCodec.encode slots n = some bs) : bs.length = n * 16 := by
  obtain ⟨slots', hslots, h⟩ := Option.bind_eq_some_iff.mp h
  rw [← Option.some.inj h, ← length_of_tabulate hslots]
  exact length_flatMap length_writeSlot slots'

/-! ## Damage to written maps -/

/-- What a writer has written is rejected when it is cut off, and when one of its bytes is changed,
except possibly by a change that lowers `data_len` or that turns the magic of a `ConstMap` into
`CMAP0001`. -/
theorem damage_detected :
    (∀ cm buf out, constmapWrite cm buf = some (.ok, out) →
      DetectsDamage (constmapRead 64) (constmapView 64 true)
        (fun p => p.take 8 = magicOf ['C', 'M', 'A', 'P', '0', '0', '0', '1'])
        (out.take (constmapSerializedSize 64 cm))) ∧
    (∀ vm buf out, verifiedConstmapWrite vm buf = some (.ok, out) →
      DetectsDamage (verifiedConstmapRead 64) (verifiedConstmapView 64 true) (fun _ => False)
        (out.take (verifiedConstmapSerializedSize 64 vm))) ∧
    ∀ pm buf out, pairedVerifiedConstmapWrite pm buf = some (.ok, out) →
      DetectsDamage (pairedVerifiedConstmapRead 64) (pairedVerifiedConstmapView 64 true)
        (fun _ => False) (out.take (pairedVerifiedConstmapSerializedSize 64 pm)) := by
  refine ⟨?_, ?_, ?_⟩
  · intro cm buf out hwrite
    obtain ⟨h, hb⟩ := write_exact constmapCodec_lawful length_encode_constmap hwrite
    refine hb.detectsDamage constmapCodec_lawful (by decide) ?_
    have hsize : ∀ f ∈ constmapFormats, f.headerSize = 32 ∨
        f.magic = magicOf ['C', 'M', 'A', 'P', '0', '0', '0', '1'] := by decide
    intro f hf p hmagic hno
    exact (hsize f hf).resolve_right fun heq => hno (hmagic.trans heq)
  · intro vm buf out hwrite
    obtain ⟨h, hb⟩ := write_exact verifiedCodec_lawful length_encode_verified hwrite
    have hsize : ∀ f ∈ verifiedFormats, f.headerSize = 32 := by decide
    exact hb.detectsDamage verifiedCodec_lawful (by decide) fun f hf _ _ _ => hsize f hf
  · intro pm buf out hwrite
    obtain ⟨h, hb⟩ := write_exact pairedCodec_lawful length_encode_paired hwrite
    have hsize : ∀ f ∈ pairedFormats, f.headerSize = 32 := by decide
    exact hb.detectsDamage pairedCodec_lawful (by decide) fun f hf _ _ _ => hsize f hf

/-- The map of one key and what is written of it. -/
theorem exists_written : ∃ vm out,
    verifiedConstmapNewWithHash smallEnv smallHeap verifiedLayout.zeroMap [([0x61], 100)]
      HASH_XXH64 = some (.ok, vm) ∧
    verifiedConstmapWrite vm (List.replicate 232 0) = some (.ok, out) ∧
    verifiedConstmapSerializedSize 64 vm = 232 ∧ (out.take 232).length = 232 ∧
    (out.take 232)[30]? = some 0 ∧ (out.take 232)[40]? = some 0 := by
  have h : ((verifiedConstmapNewWithHash smallEnv smallHeap verifiedLayout.zeroMap
      [([0x61], 100)] HASH_XXH64).bind fun x =>
      (verifiedConstmapWrite x.2 (List.replicate 232 0)).map fun y =>
        ((x.1, y.1), (verifiedConstmapSerializedSize 64 x.2, (y.2.take 232).length),
          (y.2.take 232)[30]?, (y.2.take 232)[40]?)) =
      some ((.ok, .ok), (232, 232), some 0, some 0) := by decide +kernel
  obtain ⟨⟨rc, vm⟩, hvm, h⟩ := Option.bind_eq_some_iff.mp h
  obtain ⟨⟨rc', out⟩, hout, h⟩ := Option.map_eq_some_iff.mp h
  simp only [Prod.mk.injEq] at h
  obtain ⟨⟨rfl, rfl⟩, ⟨hsize, hlen⟩, hbytes⟩ := h
  exact ⟨vm, out, hvm, hout, hsize, hlen, hbytes⟩

/-- The map of one key, with a changed byte in its first slot and without its last byte. -/
theorem damage_detected_one : ∃ vm out,
    verifiedConstmapNewWithHash smallEnv smallHeap verifiedLayout.zeroMap [([0x61], 100)]
      HASH_XXH64 = some (.ok, vm) ∧
    verifiedConstmapWrite vm (List.replicate 232 0) = some (.ok, out) ∧
    (∃ m, verifiedConstmapRead 64 smallHeap ((out.take 232).set 40 1) = some (.checksum, m)) ∧
    ∃ m, verifiedConstmapView 64 true 0 ((out.take 232).take 231) = some (.shortBuffer, m) := by
  obtain ⟨vm, out, hvm, hout, hsize, hlen, -, hbyte⟩ := exists_written
  have hdetects := damage_detected.2.1 vm (List.replicate 232 0) out hout
  rw [hsize] at hdetects
  obtain ⟨h40, hget⟩ := List.getElem?_eq_some_iff.mp hbyte
  refine ⟨vm, out, hvm, hout, (hdetects.checksum 40 h40 1 ?_ (by decide) (by decide)).1 smallHeap,
    (hdetects.truncated 231 (by omega)).2 0⟩
  rw [hget]
  decide

end FastConstMap
