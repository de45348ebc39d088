import FastConstMap.Lookup
import FastConstMap.Xxh3

/-!
# Lookups on a host

The lookups with nothing left open: with the key hashes of the vendored xxhash, and with the products and
the slot loads that `constmap.c` is compiled to.
-/

namespace FastConstMap

open CLoop Vectors

variable {τ : Type}

/-! ## Slots -/

/-- How `fcm_slot_xor3` is compiled: `FCM_HAVE_SSE2`, `FCM_HAVE_NEON`, or neither of them. -/
inductive SlotUnit where
  | scalar
  | sse2
  | neon (littleEndian : Bool)

/-- A slot in the memory of the host. -/
def slotBytes (littleEndian : Bool) (s : Slot) : Bytes :=
  nativeBytes littleEndian s.value ++ nativeBytes littleEndian s.check

/-- `vld1q_u64((const uint64_t *)(p + off))`. -/
def vld1q (littleEndian : Bool) (p : Bytes) (off : Nat) : Option V128 :=
  if off + 16 ≤ p.length then
    some ⟨nativeWordAt littleEndian p off, nativeWordAt littleEndian p (off + 8)⟩
  else none

/-- `fcm_slot_xor3` with SSE2, of the memory that `slots` points to. -/
def slotXor3Sse2 (slots : Bytes) (h0 h1 h2 : Nat) : Option Slot := do
  let v ← Xxh3.loadu slots (h0 * 16)
  let x ← Xxh3.loadu slots (h1 * 16)
  let v := v.xor x
  let x ← Xxh3.loadu slots (h2 * 16)
  let v := v.xor x
  some ⟨v.lo, (v.unpackHi v).lo⟩

/-- `fcm_slot_xor3` with NEON. -/
def slotXor3Neon (littleEndian : Bool) (slots : Bytes) (h0 h1 h2 : Nat) : Option Slot := do
  let v ← vld1q littleEndian slots (h0 * 16)
  let x ← vld1q littleEndian slots (h1 * 16)
  let v := v.xor x
  let x ← vld1q littleEndian slots (h2 * 16)
  let v := v.xor x
  some ⟨v.lo, v.hi⟩

/-- `fcm_slot_xor3`. -/
def slotXor3On (U : SlotUnit) (slots : List Slot) (h0 h1 h2 : Nat) : Option Slot :=
  match U with
  | .scalar => slotXor3 slots h0 h1 h2
  | .sse2 => slotXor3Sse2 (slots.flatMap (slotBytes true)) h0 h1 h2
  | .neon le => slotXor3Neon le (slots.flatMap (slotBytes le)) h0 h1 h2

/-- The slots of a `fcm_paired_verified_constmap_t`, as the host combines them. -/
def pairedLayoutOn (U : SlotUnit) : Layout (List Slot) :=
  { pairedLayout with
    get := fun slots h0 h1 h2 hash => do
      let r ← slotXor3On U slots h0 h1 h2
      some (if r.check = fingerprint hash then r.value else NOT_FOUND)
    gather := fun slots h0 h1 h2 hash => do
      let r ← slotXor3On U slots h0 h1 h2
      some (if r.check = fingerprint hash then r.value else NOT_FOUND) }

/-! ## Lookups -/

/-- How the library is compiled: `xxhash.h`, whether the compiler has a product of 128 bits for
`fcm_mul_high32`, and `fcm_slot_xor3`. -/
structure Host where
  xxh : XxhBuild
  wideProduct : Bool
  slots : SlotUnit

/-- A 64-bit x86 host. -/
def Host.x86 : Host := ⟨.x86, true, .sse2⟩

/-- A big-endian host without vectors and 128-bit products. -/
def Host.bigEndian : Host := ⟨.bigEndian, false, .scalar⟩

namespace Host

variable (X : Host)

/-- `fcm_hash_key`. -/
def hashKey (hash : UInt32) (key : Bytes) : Option UInt64 :=
  if hash = HASH_XXH3 then hashKeyXxh3 X.xxh key else hashKeyXxh64 X.xxh key

/-- `fcm_hash_block`. -/
def hashBlock (hash : UInt32) (keys : List Bytes) (seed : UInt64) : Option (List UInt64) :=
  if hash = HASH_XXH3 then keys.mapM fun key => do
    let h ← hashKeyXxh3 X.xxh key
    some (mixsplit h seed)
  else keys.mapM fun key => do
    let h ← hashKeyXxh64 X.xxh key
    some (mixsplit h seed)

/-- `fcm_mul_high32`. -/
def mulHigh32 (hash : UInt64) (n : UInt32) : UInt32 :=
  if X.wideProduct then FastConstMap.mulHigh32 hash n else mulHigh32Portable hash n

/-- `fcm_get_h012`. -/
def getH012 (hash : UInt64) (segmentLength segmentLengthMask segmentCountLength : UInt32) :
    UInt32 × UInt32 × UInt32 :=
  let h0 := X.mulHigh32 hash segmentCountLength
  let h1 := h0 + segmentLength
  let h2 := h1 + segmentLength
  (h0, h1 ^^^ ((hash >>> 18).toUInt32 &&& segmentLengthMask),
    h2 ^^^ (hash.toUInt32 &&& segmentLengthMask))

/-- The functions that the lookups of the host call. -/
def code : LookupCode where
  hashKey := X.hashKey
  hashBlock := X.hashBlock
  getH012 := X.getH012

/-- `fcm_constmap_lookup`. -/
def constmapLookup (cm : ConstMap) (key : Bytes) : Option UInt64 :=
  lookupWith X.code constmapLayout cm key

/-- `fcm_verified_constmap_lookup`. -/
def verifiedConstmapLookup (vm : VerifiedConstMap) (key : Bytes) : Option UInt64 :=
  lookupWith X.code verifiedLayout vm key

/-- `fcm_paired_verified_constmap_lookup`. -/
def pairedVerifiedConstmapLookup (pm : PairedVerifiedConstMap) (key : Bytes) : Option UInt64 :=
  lookupWith X.code (pairedLayoutOn X.slots) pm key

/-- `fcm_constmap_lookup_many`. -/
def constmapLookupMany (B : Nat) (cm : ConstMap) (keys : List Bytes) (out : List UInt64) :
    Option (List UInt64) :=
  lookupManyWith X.code constmapLayout B cm keys out

/-- `fcm_verified_constmap_lookup_many`. -/
def verifiedConstmapLookupMany (B : Nat) (vm : VerifiedConstMap) (keys : List Bytes)
    (out : List UInt64) : Option (List UInt64) :=
  lookupManyWith X.code verifiedLayout B vm keys out

/-- `fcm_paired_verified_constmap_lookup_many`. -/
def pairedVerifiedConstmapLookupMany (B : Nat) (pm : PairedVerifiedConstMap) (keys : List Bytes)
    (out : List UInt64) : Option (List UInt64) :=
  lookupManyWith X.code (pairedLayoutOn X.slots) B pm keys out

end Host

end FastConstMap
