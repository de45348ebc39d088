import FastConstMap.Batch
import FastConstMap.Lib.Words

/-!
# The vendored xxhash: memory reads

How `xxhash.h` reads the key, on hosts of both byte orders and with each way to load a word. A pointer is
an offset in a list of bytes; a read outside of it has no result.
-/

namespace FastConstMap

open CLoop

/-- `XXH3_NEON_LANES`, with the assertion on it. -/
abbrev NeonLanes := { lanes : Nat // 0 < lanes ∧ lanes ≤ 8 ∧ lanes % 2 = 0 }

/-- `XXH_VECTOR`. -/
inductive XxhVector where
  | scalar
  | sse2
  | neon (lanes : NeonLanes)

/-- How `xxhash.h` is compiled: `XXH_CPU_LITTLE_ENDIAN`, whether `XXH_FORCE_MEMORY_ACCESS` is 3,
`XXH_FORCE_ALIGN_CHECK`, `XXH_SIZE_OPT`, whether `XXH_NO_STREAM` is defined, whether the compiler has
128-bit products, and `XXH_VECTOR`. -/
structure XxhBuild where
  littleEndian : Bool
  byteLoads : Bool
  alignCheck : Bool
  sizeOpt : Nat
  noStream : Bool
  wideProduct : Bool
  vector : XxhVector

/-- The build for a little-endian host whose compiler has nothing special. -/
def XxhBuild.portable : XxhBuild := ⟨true, false, false, 0, false, false, .scalar⟩

/-- The build by `setup.py` on a 64-bit x86 host. -/
def XxhBuild.x86 : XxhBuild := ⟨true, false, false, 0, false, true, .sse2⟩

/-- A build for a big-endian host, for size. -/
def XxhBuild.bigEndian : XxhBuild := ⟨false, false, true, 2, false, true, .scalar⟩

/-- `XXH_alignment`. -/
inductive XxhAlignment where
  | aligned
  | unaligned
deriving DecidableEq

def PRIME32_1 : UInt32 := 0x9E3779B1
def PRIME32_2 : UInt32 := 0x85EBCA77
def PRIME32_3 : UInt32 := 0xC2B2AE3D
def PRIME64_1 : UInt64 := 0x9E3779B185EBCA87
def PRIME64_2 : UInt64 := 0xC2B2AE3D27D4EB4F
def PRIME64_3 : UInt64 := 0x165667B19E3779F9
def PRIME64_4 : UInt64 := 0x85EBCA77C2B2AE63
def PRIME64_5 : UInt64 := 0x27D4EB2F165667C5

/-! ## Byte swaps -/

def swap32 (x : UInt32) : UInt32 :=
  ((x <<< 24) &&& (0xff000000 : UInt32)) ||| ((x <<< 8) &&& (0x00ff0000 : UInt32)) |||
    ((x >>> 8) &&& (0x0000ff00 : UInt32)) ||| ((x >>> 24) &&& (0x000000ff : UInt32))

def swap64 (x : UInt64) : UInt64 :=
  ((x <<< 56) &&& (0xff00000000000000 : UInt64)) ||| ((x <<< 40) &&& (0x00ff000000000000 : UInt64)) |||
    ((x <<< 24) &&& (0x0000ff0000000000 : UInt64)) ||| ((x <<< 8) &&& (0x000000ff00000000 : UInt64)) |||
    ((x >>> 8) &&& (0x00000000ff000000 : UInt64)) ||| ((x >>> 24) &&& (0x0000000000ff0000 : UInt64)) |||
    ((x >>> 40) &&& (0x000000000000ff00 : UInt64)) ||| ((x >>> 56) &&& (0x00000000000000ff : UInt64))

/-! ## Reads -/

/-- `XXH_read32(p + off)`: a load in the byte order of the host. -/
def xxhRead32 (B : XxhBuild) (p : Bytes) (off : Nat) : Option UInt32 :=
  if off + 4 ≤ p.length then
    let bs := (p.drop off).take 4
    some (UInt32.ofNat (LittleEndian.value (if B.littleEndian then bs else bs.reverse)))
  else none

/-- `XXH_read64(p + off)`. -/
def xxhRead64 (B : XxhBuild) (p : Bytes) (off : Nat) : Option UInt64 :=
  if off + 8 ≤ p.length then some (nativeWordAt B.littleEndian p off) else none

/-- `XXH_readLE32(p + off)`. -/
def readLE32 (B : XxhBuild) (p : Bytes) (off : Nat) : Option UInt32 :=
  if B.byteLoads then readU32 p off
  else do
    let v ← xxhRead32 B p off
    some (if B.littleEndian then v else swap32 v)

/-- `XXH_readLE64(p + off)`. -/
def readLE64 (B : XxhBuild) (p : Bytes) (off : Nat) : Option UInt64 :=
  if B.byteLoads then readU64 p off
  else do
    let v ← xxhRead64 B p off
    some (if B.littleEndian then v else swap64 v)

/-- `XXH_readLE32_align(p + off, align)`. -/
def readLE32Align (B : XxhBuild) (align : XxhAlignment) (p : Bytes) (off : Nat) : Option UInt32 :=
  if align = .unaligned then readLE32 B p off
  else do
    let v ← xxhRead32 B p off
    some (if B.littleEndian then v else swap32 v)

/-- `XXH_readLE64_align(p + off, align)`. -/
def readLE64Align (B : XxhBuild) (align : XxhAlignment) (p : Bytes) (off : Nat) : Option UInt64 :=
  if align = .unaligned then readLE64 B p off
  else do
    let v ← xxhRead64 B p off
    some (if B.littleEndian then v else swap64 v)

end FastConstMap
