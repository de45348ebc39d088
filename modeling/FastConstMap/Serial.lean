import FastConstMap.Maps
import FastConstMap.Lib.LittleEndian

/-!
# Serialisation (`fcm_*_write`, `fcm_*_read`, `fcm_*_view`)

`size_t` has `w` bits. The readers and the views of the three map types share one body over what a
type has of its own (`Codec`): its formats, its parameter check, and its arrays.
-/

namespace FastConstMap

open CLoop

/-! ## Little-endian words -/

def writeU32 (v : UInt32) : Bytes :=
  [v.toUInt8, (v >>> 8).toUInt8, (v >>> 16).toUInt8, (v >>> 24).toUInt8]

def writeU64 (v : UInt64) : Bytes :=
  [v.toUInt8, (v >>> 8).toUInt8, (v >>> 16).toUInt8, (v >>> 24).toUInt8,
    (v >>> 32).toUInt8, (v >>> 40).toUInt8, (v >>> 48).toUInt8, (v >>> 56).toUInt8]

/-- `fcm_read_u32(p + off)`. -/
def readU32 (p : Bytes) (off : Nat) : Option UInt32 := do
  let b0 ← load p off
  let b1 ← load p (off + 1)
  let b2 ← load p (off + 2)
  let b3 ← load p (off + 3)
  some (b0.toUInt32 ||| b1.toUInt32 <<< 8 ||| b2.toUInt32 <<< 16 ||| b3.toUInt32 <<< 24)

/-- `fcm_read_u64(p + off)`. -/
def readU64 (p : Bytes) (off : Nat) : Option UInt64 := do
  let b0 ← load p off
  let b1 ← load p (off + 1)
  let b2 ← load p (off + 2)
  let b3 ← load p (off + 3)
  let b4 ← load p (off + 4)
  let b5 ← load p (off + 5)
  let b6 ← load p (off + 6)
  let b7 ← load p (off + 7)
  some (b0.toUInt64 ||| b1.toUInt64 <<< 8 ||| b2.toUInt64 <<< 16 ||| b3.toUInt64 <<< 24 |||
    b4.toUInt64 <<< 32 ||| b5.toUInt64 <<< 40 ||| b6.toUInt64 <<< 48 ||| b7.toUInt64 <<< 56)

/-- `fcm_fnv1a64` of the given bytes. -/
def fnv1a64 (data : Bytes) : UInt64 :=
  data.foldl (fun h b => (h ^^^ b.toUInt64) * 0x100000001b3) 0xcbf29ce484222325

/-! ## Formats -/

/-- `fcm_format_t`. -/
structure Format where
  magic : Bytes
  hash : UInt32
  headerSize : Nat
deriving DecidableEq, Repr

/-- The bytes of a magic. -/
def magicOf (s : List Char) : Bytes := s.map Char.toUInt8

/-- `fcm_constmap_formats`. -/
def constmapFormats : List Format :=
  [{ magic := magicOf ['C', 'M', 'A', 'P', '0', '0', '0', '3'], hash := HASH_XXH64, headerSize := 32 },
   { magic := magicOf ['C', 'M', 'A', 'P', '0', '0', '0', '1'], hash := HASH_XXH64, headerSize := 28 },
   { magic := magicOf ['C', 'M', 'A', 'P', '0', '0', '0', '2'], hash := HASH_XXH3, headerSize := 32 }]

/-- `fcm_verified_formats`. -/
def verifiedFormats : List Format :=
  [{ magic := magicOf ['V', 'M', 'A', 'P', '0', '0', '0', '1'], hash := HASH_XXH64, headerSize := 32 },
   { magic := magicOf ['V', 'C', 'M', 'P', '0', '0', '0', '2'], hash := HASH_XXH3, headerSize := 32 }]

/-- `fcm_paired_formats`. -/
def pairedFormats : List Format :=
  [{ magic := magicOf ['P', 'M', 'A', 'P', '0', '0', '0', '1'], hash := HASH_XXH64, headerSize := 32 },
   { magic := magicOf ['P', 'V', 'C', 'M', '0', '0', '0', '1'], hash := HASH_XXH3, headerSize := 32 }]

/-- `fcm_format_for`: the first format with the given hash. -/
def formatFor (formats : List Format) (hash : UInt32) : Option Format :=
  formats.find? fun f => f.hash = hash

/-- `FCM_HEADER_SIZE`. -/
def HEADER_SIZE : Nat := 32

/-- `FCM_TRAILER_SIZE`. -/
def TRAILER_SIZE : Nat := 8

def writeHeader (fmt : Format) (seed : UInt64) (segmentLength segmentCount dataLen n : UInt32) :
    Bytes :=
  fmt.magic ++ writeU64 seed ++ writeU32 segmentLength ++ writeU32 segmentCount ++
    writeU32 dataLen ++ writeU32 n

/-- `fcm_header_t`. -/
structure Header where
  format : Format
  seed : UInt64
  segmentLength : UInt32
  segmentCount : UInt32
  dataLen : UInt32
  n : UInt32
  payload : Nat
deriving DecidableEq, Repr

/-- The key count of a header: `CMAP0001`, whose header has 28 bytes, has none. -/
def readCount (p : Bytes) (headerSize : Nat) : Option UInt32 :=
  if headerSize = 32 then readU32 p 28 else some 0

/-- `fcm_parse`, of the buffer `p`. The products and sums of `size_t` wrap. -/
def parse (w : Nat) (formats : List Format) (entryBytes : Nat) (p : Bytes) :
    Option (Except Rc Header) :=
  if p.length < 8 then some (.error .shortBuffer)
  else
    match formats.find? fun f => p.take 8 = f.magic with
    | none => some (.error .invalidFormat)
    | some format =>
      let headerSize := format.headerSize
      if p.length < headerSize + TRAILER_SIZE then some (.error .shortBuffer)
      else do
        let seed ← readU64 p 8
        let segmentLength ← readU32 p 16
        let segmentCount ← readU32 p 20
        let dataLen ← readU32 p 24
        let n ← readCount p headerSize
        let expected := (headerSize + dataLen.toNat * entryBytes + TRAILER_SIZE) % 2 ^ w
        if p.length < expected then some (.error .shortBuffer)
        else
          let sumAt := (expected + 2 ^ w - 8) % 2 ^ w
          let gotSum ← readU64 p sumAt
          if sumAt ≤ p.length then
            if gotSum ≠ fnv1a64 (p.take sumAt) then some (.error .checksum)
            else some (.ok
              { format := format, seed := seed, segmentLength := segmentLength
                segmentCount := segmentCount, dataLen := dataLen, n := n, payload := headerSize })
          else none

/-- `fcm_paired_params_ok`; its products do not wrap in 64 bits. -/
def pairedParamsOk (segmentLength segmentCount slotCount : UInt32) : Bool :=
  if slotCount = 0 then true
  else if segmentLength = 0 ∨ segmentLength &&& (segmentLength - 1) ≠ 0 then false
  else if segmentCount = 0 then false
  else (segmentCount.toNat + 2) * segmentLength.toNat = slotCount.toNat

/-! ## Arrays in a buffer -/

/-- A 64-bit load by a little-endian host. -/
def nativeU64 (bs : Bytes) : UInt64 := UInt64.ofNat (LittleEndian.value bs)

/-- The word that the host sees at `p + off`. -/
def wordAt (p : Bytes) (off : Nat) : UInt64 := nativeU64 ((p.drop off).take 8)

/-- What the writer, the reader and the view of a map type have of their own. -/
structure Codec (τ : Type) where
  layout : Layout τ
  formats : List Format
  /-- The bytes of one unit of `data_len`. -/
  entryBytes : Nat
  paramsOk : (segmentLength segmentCount dataLen : UInt32) → Bool
  /-- The bytes that the writer makes of `count` entries. -/
  encode : τ → (count : Nat) → Option Bytes
  /-- The entries that the reader makes of the bytes from `off` on. -/
  decode : (w : Nat) → Bytes → (off count : Nat) → Option τ
  /-- The entries behind pointers to the bytes from `off` on. -/
  borrow : (w : Nat) → Bytes → (off count : Nat) → τ

def constmapCodec : Codec (List UInt64) where
  layout := constmapLayout
  formats := constmapFormats
  entryBytes := 8
  paramsOk _ _ _ := true
  encode data count := do
    let words ← tabulate (load data) count
    some (words.flatMap writeU64)
  decode w p off count := tabulate (fun i => readU64 p (off + i * 8 % 2 ^ w)) count
  borrow _ p off count := (List.range count).map fun i => wordAt p (off + i * 8)

def verifiedCodec : Codec Tables where
  layout := verifiedLayout
  formats := verifiedFormats
  entryBytes := 16
  paramsOk _ _ _ := true
  encode table count := do
    let data ← tabulate (load table.data) count
    let checks ← tabulate (load table.checks) count
    some (data.flatMap writeU64 ++ checks.flatMap writeU64)
  decode w p off count := do
    let checksAt := off + count * 8 % 2 ^ w
    let data ← tabulate (fun i => readU64 p (off + i * 8 % 2 ^ w)) count
    let checks ← tabulate (fun i => readU64 p (checksAt + i * 8 % 2 ^ w)) count
    some ⟨data, checks⟩
  borrow w p off count :=
    let checksAt := off + count * 8 % 2 ^ w
    ⟨(List.range count).map fun i => wordAt p (off + i * 8),
      (List.range count).map fun i => wordAt p (checksAt + i * 8)⟩

def pairedCodec : Codec (List Slot) where
  layout := pairedLayout
  formats := pairedFormats
  entryBytes := 16
  paramsOk := pairedParamsOk
  encode slots count := do
    let slots ← tabulate (load slots) count
    some (slots.flatMap fun s => writeU64 s.value ++ writeU64 s.check)
  decode w p off count := tabulate (fun i => do
    let value ← readU64 p (off + i * 16 % 2 ^ w)
    let check ← readU64 p (off + i * 16 % 2 ^ w + 8)
    some ⟨value, check⟩) count
  borrow _ p off count :=
    (List.range count).map fun i => ⟨wordAt p (off + i * 16), wordAt p (off + i * 16 + 8)⟩

variable {τ : Type}

/-! ## Writers -/

/-- The body shared by the three `fcm_*_serialized_size`. -/
def serializedSize (Cd : Codec τ) (w : Nat) (m : MapOf τ) : Nat :=
  (HEADER_SIZE + m.dataLen.toNat * Cd.entryBytes + TRAILER_SIZE) % 2 ^ w

/-- What a writer puts after the header and the arrays. -/
def withChecksum (bs : Bytes) : Bytes := bs ++ writeU64 (fnv1a64 bs)

/-- The body shared by the three `fcm_*_write`: the return code and the new contents of `buf`. -/
def write (Cd : Codec τ) (m : MapOf τ) (buf : Bytes) : Option (Rc × Bytes) :=
  match formatFor Cd.formats m.hash with
  | none => some (.invalidFormat, buf)
  | some fmt => do
    let header := writeHeader fmt m.seed m.segmentLength m.segmentCount m.dataLen m.n
    let payload ← Cd.encode m.table m.dataLen.toNat
    let bs := withChecksum (header ++ payload)
    if bs.length ≤ buf.length then some (.ok, bs ++ buf.drop bs.length) else none

/-! ## Readers and views -/

/-- The body shared by the three `fcm_*_set_header`, with the arrays. -/
def setHeader (h : Header) (table : τ) : MapOf τ :=
  { seed := h.seed
    segmentLength := h.segmentLength
    segmentLengthMask := if h.segmentLength ≠ 0 then h.segmentLength - 1 else 0
    segmentCount := h.segmentCount
    segmentCountLength := h.segmentCount * h.segmentLength
    dataLen := h.dataLen
    n := h.n
    table := table
    hash := h.format.hash }

/-- The body shared by the three `fcm_*_read`: the return code and `*out`, which is not a null
pointer. -/
def read (Cd : Codec τ) (w : Nat) (H : Heap) (p : Bytes) : Option (Rc × MapOf τ) := do
  match ← parse w Cd.formats Cd.entryBytes p with
  | .error rc => some (rc, Cd.layout.zeroMap)
  | .ok h =>
    if Cd.paramsOk h.segmentLength h.segmentCount h.dataLen = false then
      some (.invalidParams, Cd.layout.zeroMap)
    else if h.dataLen > 0 then
      if ¬ (∀ b ∈ Cd.layout.buffers, H.ok b = true) then some (.nomem, Cd.layout.zeroMap)
      else do
        let table ← Cd.decode w p h.payload h.dataLen.toNat
        some (.ok, setHeader h table)
    else some (.ok, setHeader h Cd.layout.null)

/-- The body shared by the three `fcm_*_view` of the buffer `p` at the address `addr`. -/
def view (Cd : Codec τ) (w : Nat) (littleEndian : Bool) (addr : Nat) (p : Bytes) :
    Option (Rc × MapOf τ) :=
  if littleEndian = false then some (.invalidFormat, Cd.layout.zeroMap)
  else do
    match ← parse w Cd.formats Cd.entryBytes p with
    | .error rc => some (rc, Cd.layout.zeroMap)
    | .ok h =>
      if Cd.paramsOk h.segmentLength h.segmentCount h.dataLen = false then
        some (.invalidParams, Cd.layout.zeroMap)
      else if (addr + h.payload) % 8 ≠ 0 then some (.unaligned, Cd.layout.zeroMap)
      else some (.ok, setHeader h (Cd.borrow w p h.payload h.dataLen.toNat))

/-! ## The three map types -/

/-- `fcm_constmap_serialized_size`. -/
def constmapSerializedSize (w : Nat) (cm : ConstMap) : Nat := serializedSize constmapCodec w cm

/-- `fcm_constmap_write`. -/
def constmapWrite (cm : ConstMap) (buf : Bytes) : Option (Rc × Bytes) := write constmapCodec cm buf

/-- `fcm_constmap_read`. -/
def constmapRead (w : Nat) (H : Heap) (p : Bytes) : Option (Rc × ConstMap) :=
  read constmapCodec w H p

/-- `fcm_constmap_view`. -/
def constmapView (w : Nat) (littleEndian : Bool) (addr : Nat) (p : Bytes) :
    Option (Rc × ConstMap) :=
  view constmapCodec w littleEndian addr p

/-- `fcm_verified_constmap_serialized_size`. -/
def verifiedConstmapSerializedSize (w : Nat) (vm : VerifiedConstMap) : Nat :=
  serializedSize verifiedCodec w vm

/-- `fcm_verified_constmap_write`. -/
def verifiedConstmapWrite (vm : VerifiedConstMap) (buf : Bytes) : Option (Rc × Bytes) :=
  write verifiedCodec vm buf

/-- `fcm_verified_constmap_read`. -/
def verifiedConstmapRead (w : Nat) (H : Heap) (p : Bytes) : Option (Rc × VerifiedConstMap) :=
  read verifiedCodec w H p

/-- `fcm_verified_constmap_view`. -/
def verifiedConstmapView (w : Nat) (littleEndian : Bool) (addr : Nat) (p : Bytes) :
    Option (Rc × VerifiedConstMap) :=
  view verifiedCodec w littleEndian addr p

/-- `fcm_paired_verified_constmap_serialized_size`. -/
def pairedVerifiedConstmapSerializedSize (w : Nat) (pm : PairedVerifiedConstMap) : Nat :=
  serializedSize pairedCodec w pm

/-- `fcm_paired_verified_constmap_write`. -/
def pairedVerifiedConstmapWrite (pm : PairedVerifiedConstMap) (buf : Bytes) : Option (Rc × Bytes) :=
  write pairedCodec pm buf

/-- `fcm_paired_verified_constmap_read`. -/
def pairedVerifiedConstmapRead (w : Nat) (H : Heap) (p : Bytes) :
    Option (Rc × PairedVerifiedConstMap) :=
  read pairedCodec w H p

/-- `fcm_paired_verified_constmap_view`. -/
def pairedVerifiedConstmapView (w : Nat) (littleEndian : Bool) (addr : Nat) (p : Bytes) :
    Option (Rc × PairedVerifiedConstMap) :=
  view pairedCodec w littleEndian addr p

end FastConstMap
