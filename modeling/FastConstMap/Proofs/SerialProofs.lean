import FastConstMap.Proofs.WordsProofs

/-!
# Proofs: writers, readers and views

What the parser accepts is what a writer could have written, up to trailing bytes; the readers, the
views and the writers agree on it.
-/

namespace FastConstMap

open CLoop Slices

/-! ## Formats -/

/-- The properties of a format table that parsing relies on. -/
structure ProperFormats (formats : List Format) : Prop where
  magic : ∀ f ∈ formats, f.magic.length = 8
  headerSize : ∀ f ∈ formats, f.headerSize = 28 ∨ f.headerSize = 32
  hash : ∀ f ∈ formats, KnownHash f.hash
  find_magic : ∀ f ∈ formats, (formats.find? fun g => f.magic = g.magic) = some f
  find_hash : ∀ f ∈ formats, f.headerSize = 32 → formatFor formats f.hash = some f
  known : ∀ hash, KnownHash hash → ∃ f ∈ formats, f.hash = hash ∧ f.headerSize = 32

theorem constmapFormats_proper : ProperFormats constmapFormats where
  magic := by decide
  headerSize := by decide
  hash := by decide
  find_magic := by decide
  find_hash := by decide
  known hash h := by
    rcases h with rfl | rfl
    · exact ⟨constmapFormats[0], by decide, rfl, rfl⟩
    · exact ⟨constmapFormats[2], by decide, rfl, rfl⟩

theorem verifiedFormats_proper : ProperFormats verifiedFormats where
  magic := by decide
  headerSize := by decide
  hash := by decide
  find_magic := by decide
  find_hash := by decide
  known hash h := by
    rcases h with rfl | rfl
    · exact ⟨verifiedFormats[0], by decide, rfl, rfl⟩
    · exact ⟨verifiedFormats[1], by decide, rfl, rfl⟩

theorem pairedFormats_proper : ProperFormats pairedFormats where
  magic := by decide
  headerSize := by decide
  hash := by decide
  find_magic := by decide
  find_hash := by decide
  known hash h := by
    rcases h with rfl | rfl
    · exact ⟨pairedFormats[0], by decide, rfl, rfl⟩
    · exact ⟨pairedFormats[1], by decide, rfl, rfl⟩

/-! ## Parsing -/

/-- The header that the parser reads under the format `f`. -/
def headerAt (f : Format) (p : Bytes) : Header :=
  { format := f
    seed := wordAt p 8
    segmentLength := word32At p 16
    segmentCount := word32At p 20
    dataLen := word32At p 24
    n := if f.headerSize = 32 then word32At p 28 else 0
    payload := f.headerSize }

/-- The size of the header and the arrays. -/
def Header.bodySize (h : Header) (entryBytes : Nat) : Nat :=
  h.format.headerSize + h.dataLen.toNat * entryBytes

/-- What the parser makes of a buffer with room for a header, under the size that it computes for the
whole map. -/
theorem parse_of_format {w : Nat} {formats : List Format} {entryBytes size : Nat} {p : Bytes}
    {f : Format} (hfind : (formats.find? fun f => p.take 8 = f.magic) = some f)
    (hheader : f.headerSize = 28 ∨ f.headerSize = 32) (hroom : f.headerSize + 8 ≤ p.length)
    (hsize : ((headerAt f p).bodySize entryBytes + 8) % 2 ^ w = size) :
    parse w formats entryBytes p =
      if p.length < size then some (.error .shortBuffer)
      else (readU64 p ((size + 2 ^ w - 8) % 2 ^ w)).bind fun gotSum =>
        if (size + 2 ^ w - 8) % 2 ^ w ≤ p.length then
          if gotSum ≠ fnv1a64 (p.take ((size + 2 ^ w - 8) % 2 ^ w)) then some (.error .checksum)
          else some (.ok (headerAt f p))
        else none := by
  have hcount : readCount p f.headerSize =
      some (if f.headerSize = 32 then word32At p 28 else 0) := by
    unfold readCount
    split_ifs with h32
    · exact readU32_of_le (by omega)
    · rfl
  have hbody : (f.headerSize + (word32At p 24).toNat * entryBytes + 8) % 2 ^ w = size := hsize
  unfold parse TRAILER_SIZE
  rw [if_neg (by omega), hfind]
  simp only [if_neg (show ¬ p.length < f.headerSize + 8 by omega),
    readU64_of_le (show 8 + 8 ≤ p.length by omega), readU32_of_le (show 16 + 4 ≤ p.length by omega),
    readU32_of_le (show 20 + 4 ≤ p.length by omega), readU32_of_le (show 24 + 4 ≤ p.length by omega),
    hcount, Option.bind_eq_bind, Option.bind_some, hbody]
  rfl

/-- The parser looks for the checksum in front of the end that it computed. -/
theorem parse_of_size {w : Nat} {formats : List Format} {entryBytes size : Nat} {p : Bytes}
    {f : Format} (hfind : (formats.find? fun f => p.take 8 = f.magic) = some f)
    (hheader : f.headerSize = 28 ∨ f.headerSize = 32) (hroom : f.headerSize + 8 ≤ p.length)
    (hsize : ((headerAt f p).bodySize entryBytes + 8) % 2 ^ w = size) (h8 : 8 ≤ size) :
    parse w formats entryBytes p = some
      (if p.length < size then .error .shortBuffer
      else if wordAt p (size - 8) ≠ fnv1a64 (p.take (size - 8)) then .error .checksum
      else .ok (headerAt f p)) := by
  have hlt : size < 2 ^ w := hsize ▸ Nat.mod_lt _ (Nat.two_pow_pos w)
  have hsum : (size + 2 ^ w - 8) % 2 ^ w = size - 8 := by
    rw [show size + 2 ^ w - 8 = size - 8 + 2 ^ w by omega, Nat.add_mod_right,
      Nat.mod_eq_of_lt (by omega)]
  rw [parse_of_format hfind hheader hroom hsize, hsum]
  by_cases hshort : p.length < size
  · rw [if_pos hshort, if_pos hshort]
  · rw [if_neg hshort, if_neg hshort, readU64_of_le (by omega), Option.bind_some,
      if_pos (by omega)]
    split_ifs <;> rfl

/-- With 64-bit sizes nothing wraps, and the parser reads within the buffer only. -/
theorem parse_eq {formats : List Format} (hf : ProperFormats formats) {entryBytes : Nat}
    (hentry : entryBytes ≤ 16) (p : Bytes) : parse 64 formats entryBytes p = some
      (if p.length < 8 then .error .shortBuffer
      else match formats.find? fun f => p.take 8 = f.magic with
        | none => .error .invalidFormat
        | some f =>
          if p.length < (headerAt f p).bodySize entryBytes + 8 then .error .shortBuffer
          else if wordAt p ((headerAt f p).bodySize entryBytes) ≠
              fnv1a64 (p.take ((headerAt f p).bodySize entryBytes)) then .error .checksum
          else .ok (headerAt f p)) := by
  by_cases h8 : p.length < 8
  · unfold parse
    rw [if_pos h8, if_pos h8]
  rw [if_neg h8]
  cases hfind : formats.find? fun f => p.take 8 = f.magic with
  | none =>
    unfold parse
    rw [if_neg h8, hfind]
  | some f =>
    have hheader := hf.headerSize f (List.mem_of_find?_eq_some hfind)
    have hbody : (headerAt f p).bodySize entryBytes =
        f.headerSize + (word32At p 24).toNat * entryBytes := rfl
    by_cases hroom : p.length < f.headerSize + 8
    · unfold parse TRAILER_SIZE
      rw [if_neg h8, hfind]
      simp only
      rw [if_pos hroom, if_pos (by omega)]
    · have hmul : (word32At p 24).toNat * entryBytes ≤ 2 ^ 32 * 16 :=
        Nat.mul_le_mul (word32At p 24).toNat_lt.le hentry
      exact parse_of_size hfind hheader (not_lt.mp hroom) (Nat.mod_eq_of_lt (by omega))
        (Nat.le_add_left 8 _)

/-- Whatever the size of `size_t`, the parser returns an error or a header under the format that the
buffer begins with. -/
theorem parse_cases {w : Nat} {formats : List Format} {entryBytes : Nat} {p : Bytes}
    {r : Except Rc Header} (hparse : parse w formats entryBytes p = some r) :
    (∃ rc, r = .error rc ∧ rc ≠ .ok ∧ rc ≠ .unaligned) ∨
      ∃ h, r = .ok h ∧ h.format ∈ formats ∧ p.take 8 = h.format.magic ∧
        h.payload = h.format.headerSize ∧ h.payload + 8 ≤ p.length := by
  unfold parse at hparse
  split at hparse
  · exact Or.inl ⟨_, (Option.some.inj hparse).symm, by decide, by decide⟩
  split at hparse
  · exact Or.inl ⟨_, (Option.some.inj hparse).symm, by decide, by decide⟩
  rename_i format hfind
  simp only at hparse
  split at hparse
  · exact Or.inl ⟨_, (Option.some.inj hparse).symm, by decide, by decide⟩
  rename_i hlen
  obtain ⟨seed, -, hparse⟩ := Option.bind_eq_some_iff.mp hparse
  obtain ⟨segmentLength, -, hparse⟩ := Option.bind_eq_some_iff.mp hparse
  obtain ⟨segmentCount, -, hparse⟩ := Option.bind_eq_some_iff.mp hparse
  obtain ⟨dataLen, -, hparse⟩ := Option.bind_eq_some_iff.mp hparse
  obtain ⟨n, -, hparse⟩ := Option.bind_eq_some_iff.mp hparse
  split at hparse
  · exact Or.inl ⟨_, (Option.some.inj hparse).symm, by decide, by decide⟩
  obtain ⟨gotSum, -, hparse⟩ := Option.bind_eq_some_iff.mp hparse
  split at hparse
  · split at hparse
    · exact Or.inl ⟨_, (Option.some.inj hparse).symm, by decide, by decide⟩
    · obtain rfl := Option.some.inj hparse
      have hmagic : p.take 8 = format.magic := by simpa using List.find?_some hfind
      exact Or.inr ⟨_, rfl, List.mem_of_find?_eq_some hfind, hmagic, rfl, not_lt.mp hlen⟩
  · exact absurd hparse (by simp)

/-- The parser accepts `p` with the header `h`: the header, the arrays and the checksum are written
out at the start of the buffer. -/
structure Accepted (formats : List Format) (entryBytes : Nat) (p : Bytes) (h : Header) : Prop where
  mem : h.format ∈ formats
  magic : p.take 8 = h.format.magic
  payload : h.payload = h.format.headerSize
  seed : slice p 8 8 = writeU64 h.seed
  segmentLength : slice p 16 4 = writeU32 h.segmentLength
  segmentCount : slice p 20 4 = writeU32 h.segmentCount
  dataLen : slice p 24 4 = writeU32 h.dataLen
  count : h.format.headerSize = 32 → slice p 28 4 = writeU32 h.n
  noCount : h.format.headerSize = 28 → h.n = 0
  fits : h.bodySize entryBytes + 8 ≤ p.length
  checksum : slice p (h.bodySize entryBytes) 8 = writeU64 (fnv1a64 (p.take (h.bodySize entryBytes)))

theorem parse_ok_iff {formats : List Format} (hf : ProperFormats formats) {entryBytes : Nat}
    (hentry : entryBytes ≤ 16) {p : Bytes} {h : Header} :
    parse 64 formats entryBytes p = some (.ok h) ↔ Accepted formats entryBytes p h := by
  rw [parse_eq hf hentry]
  constructor
  · intro hok
    split_ifs at hok with h8
    · simp at hok
    cases hfind : formats.find? fun f => p.take 8 = f.magic with
    | none =>
      rw [hfind] at hok
      simp at hok
    | some f =>
      rw [hfind] at hok
      simp only at hok
      split_ifs at hok with hfits hsum
      · simp at hok
      · simp at hok
      · simp only [Option.some.injEq, Except.ok.injEq] at hok
        subst hok
        have hmem := List.mem_of_find?_eq_some hfind
        have hbody : f.headerSize ≤ (headerAt f p).bodySize entryBytes := Nat.le_add_right _ _
        have hsize := hf.headerSize f hmem
        have hmagic : p.take 8 = f.magic := by simpa using List.find?_some hfind
        refine
          { mem := hmem
            magic := hmagic
            payload := rfl
            seed := slice_eq_writeU64 (by omega)
            segmentLength := slice_eq_writeU32 (by omega)
            segmentCount := slice_eq_writeU32 (by omega)
            dataLen := slice_eq_writeU32 (by omega)
            count := fun h32 => ?_
            noCount := fun h28 => ?_
            fits := not_lt.mp hfits
            checksum := ?_ }
        · have h32' : f.headerSize = 32 := h32
          rw [slice_eq_writeU32 (by omega)]
          simp only [headerAt, if_pos h32']
        · have h28' : f.headerSize = 28 := h28
          simp only [headerAt, h28']
          rfl
        · rw [slice_eq_writeU64 (by omega), not_not.mp hsum]
  · intro hacc
    have hbody : h.format.headerSize ≤ h.bodySize entryBytes := Nat.le_add_right _ _
    have hsize := hf.headerSize h.format hacc.mem
    have hfits := hacc.fits
    have hhead : headerAt h.format p = h := by
      obtain ⟨format, seed, segmentLength, segmentCount, dataLen, n, payload⟩ := h
      have hn : (if format.headerSize = 32 then word32At p 28 else 0) = n := by
        split_ifs with h32
        · exact word32At_eq (hacc.count h32)
        · exact (hacc.noCount (hsize.resolve_right h32)).symm
      obtain rfl : payload = format.headerSize := hacc.payload
      simp only [headerAt, wordAt_eq hacc.seed, word32At_eq hacc.segmentLength,
        word32At_eq hacc.segmentCount, word32At_eq hacc.dataLen, hn]
    rw [if_neg (by omega), hacc.magic, hf.find_magic h.format hacc.mem]
    simp only [hhead]
    rw [if_neg (by omega), if_neg (not_not.mpr (wordAt_eq hacc.checksum))]

/-! ## What is written and what is accepted -/

section Written

variable {formats : List Format} {entryBytes : Nat} {p : Bytes} {h : Header}

theorem length_writeHeader {fmt : Format} (hmagic : fmt.magic.length = 8) (seed : UInt64)
    (segmentLength segmentCount dataLen n : UInt32) :
    (writeHeader fmt seed segmentLength segmentCount dataLen n).length = 32 := by
  simp only [writeHeader, List.length_append, length_writeU64, length_writeU32, hmagic]

/-- The parser accepts what a writer writes, whatever follows it. -/
theorem accepted_written (hf : ProperFormats formats) {fmt : Format} (hmem : fmt ∈ formats)
    (h32 : fmt.headerSize = 32) (seed : UInt64) (segmentLength segmentCount dataLen n : UInt32)
    {payload : Bytes} (hpayload : payload.length = dataLen.toNat * entryBytes) (rest : Bytes) :
    Accepted formats entryBytes
      (withChecksum (writeHeader fmt seed segmentLength segmentCount dataLen n ++ payload) ++ rest)
      { format := fmt, seed := seed, segmentLength := segmentLength, segmentCount := segmentCount
        dataLen := dataLen, n := n, payload := 32 } := by
  have hmagic := hf.magic fmt hmem
  have hheader := length_writeHeader hmagic seed segmentLength segmentCount dataLen n
  set body := writeHeader fmt seed segmentLength segmentCount dataLen n ++ payload with hbody
  have hlen : body.length = 32 + dataLen.toNat * entryBytes := by
    rw [hbody, List.length_append, hheader, hpayload]
  have hsplit : withChecksum body ++ rest = body ++ (writeU64 (fnv1a64 body) ++ rest) := by
    rw [withChecksum, List.append_assoc]
  have hfields : withChecksum body ++ rest = fmt.magic ++ (writeU64 seed ++
      (writeU32 segmentLength ++ (writeU32 segmentCount ++ (writeU32 dataLen ++ (writeU32 n ++
        (payload ++ (writeU64 (fnv1a64 body) ++ rest))))))) := by
    rw [hsplit, hbody]
    simp only [writeHeader, List.append_assoc]
  have hsize : fmt.headerSize + dataLen.toNat * entryBytes = body.length := by rw [hlen, h32]
  refine
    { mem := hmem
      magic := ?_
      payload := h32.symm
      seed := ?_
      segmentLength := ?_
      segmentCount := ?_
      dataLen := ?_
      count := fun _ => ?_
      noCount := fun h28 => ?_
      fits := ?_
      checksum := ?_ }
  · rw [hfields, ← slice_zero, slice_append_self hmagic]
  · rw [hfields]
    show slice _ (8 + 0) 8 = _
    rw [slice_append_add hmagic, slice_append_self (length_writeU64 seed)]
  · rw [hfields]
    show slice _ (8 + (8 + 0)) 4 = _
    rw [slice_append_add hmagic, slice_append_add (length_writeU64 seed),
      slice_append_self (length_writeU32 segmentLength)]
  · rw [hfields]
    show slice _ (8 + (8 + (4 + 0))) 4 = _
    rw [slice_append_add hmagic, slice_append_add (length_writeU64 seed),
      slice_append_add (length_writeU32 segmentLength),
      slice_append_self (length_writeU32 segmentCount)]
  · rw [hfields]
    show slice _ (8 + (8 + (4 + (4 + 0)))) 4 = _
    rw [slice_append_add hmagic, slice_append_add (length_writeU64 seed),
      slice_append_add (length_writeU32 segmentLength),
      slice_append_add (length_writeU32 segmentCount), slice_append_self (length_writeU32 dataLen)]
  · rw [hfields]
    show slice _ (8 + (8 + (4 + (4 + (4 + 0))))) 4 = _
    rw [slice_append_add hmagic, slice_append_add (length_writeU64 seed),
      slice_append_add (length_writeU32 segmentLength),
      slice_append_add (length_writeU32 segmentCount), slice_append_add (length_writeU32 dataLen),
      slice_append_self (length_writeU32 n)]
  · exact absurd (h32.symm.trans h28) (by decide)
  · have htail : (writeU64 (fnv1a64 body) ++ rest).length = 8 + rest.length := by
      rw [List.length_append, length_writeU64]
    have hwhole : (withChecksum body ++ rest).length = body.length + (8 + rest.length) := by
      rw [hsplit, List.length_append, htail]
    rw [Header.bodySize, hsize, hwhole]
    omega
  · rw [Header.bodySize, hsize, hsplit, List.take_left]
    show slice _ (body.length + 0) 8 = _
    rw [slice_append_add rfl, slice_append_self (length_writeU64 _)]

/-- The arrays of an accepted buffer lie within it. -/
theorem Accepted.payload_le (hacc : Accepted formats entryBytes p h) :
    h.payload + h.dataLen.toNat * entryBytes ≤ p.length := by
  have hfits := hacc.fits
  rw [Header.bodySize, ← hacc.payload] at hfits
  omega

/-- The magic, the parameters and `data_len` of an accepted buffer. -/
theorem Accepted.take_header (hacc : Accepted formats entryBytes p h) :
    p.take 28 = h.format.magic ++ writeU64 h.seed ++ writeU32 h.segmentLength ++
      writeU32 h.segmentCount ++ writeU32 h.dataLen := by
  rw [show 28 = 8 + 8 + 4 + 4 + 4 from rfl, take_add_slice, take_add_slice, take_add_slice,
    take_add_slice, hacc.magic, hacc.seed, hacc.segmentLength, hacc.segmentCount, hacc.dataLen]

/-- With a header of 32 bytes the parser accepts only what a writer writes for the same fields and
arrays, up to trailing bytes. -/
theorem Accepted.take_eq (hacc : Accepted formats entryBytes p h) (h32 : h.format.headerSize = 32) :
    p.take (h.bodySize entryBytes + 8) = withChecksum
      (writeHeader h.format h.seed h.segmentLength h.segmentCount h.dataLen h.n ++
        slice p 32 (h.dataLen.toNat * entryBytes)) := by
  have hheader : p.take 32 =
      writeHeader h.format h.seed h.segmentLength h.segmentCount h.dataLen h.n := by
    rw [show 32 = 28 + 4 from rfl, take_add_slice, hacc.take_header, hacc.count h32, writeHeader]
  have hbody : p.take (h.bodySize entryBytes) =
      writeHeader h.format h.seed h.segmentLength h.segmentCount h.dataLen h.n ++
        slice p 32 (h.dataLen.toNat * entryBytes) := by
    rw [Header.bodySize, h32, take_add_slice, hheader]
  rw [take_add_slice, hacc.checksum, hbody, withChecksum]

/-- The upgrade of a header of 28 bytes, which gets the key count 0. -/
theorem Accepted.upgrade (hacc : Accepted formats entryBytes p h) (h28 : h.format.headerSize = 28)
    (fmt : Format) : writeHeader fmt h.seed h.segmentLength h.segmentCount h.dataLen h.n =
      fmt.magic ++ slice p 8 20 ++ writeU32 0 := by
  rw [show 20 = 8 + 4 + 4 + 4 from rfl, slice_add, slice_add, slice_add, hacc.seed,
    hacc.segmentLength, hacc.segmentCount, hacc.dataLen, hacc.noCount h28, writeHeader]
  simp only [List.append_assoc]

end Written

end FastConstMap
