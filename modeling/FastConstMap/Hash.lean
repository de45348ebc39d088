import FastConstMap.Lib.Loops
import Mathlib.Algebra.Order.Ring.Int

/-!
# Hashing: key hashes, mixing and the three positions of a hash

The C fixed-width types are Lean's own (`UInt64` for `uint64_t` and so on). The two key hashes of
the vendored xxhash are parameters: a map only relies on each being one function of the key's bytes.
-/

namespace FastConstMap

/-- A byte buffer, or the bytes of a key. -/
abbrev Bytes := List UInt8

/-- The return codes `FCM_OK` and `FCM_E_*`. -/
inductive Rc where
  | ok
  | lengthMismatch
  | nomem
  | duplicateKey
  | constructFail
  | invalidFormat
  | checksum
  | shortBuffer
  | unaligned
  | invalidParams
deriving DecidableEq, Repr

/-- `FCM_NOT_FOUND`. -/
def NOT_FOUND : UInt64 := 0xFFFFFFFFFFFFFFFF

/-- `FCM_HASH_XXH64`. -/
def HASH_XXH64 : UInt32 := 0

/-- `FCM_HASH_XXH3`. -/
def HASH_XXH3 : UInt32 := 1

/-- `hash` is one of the `FCM_HASH_*`. -/
abbrev KnownHash (hash : UInt32) : Prop := hash = HASH_XXH64 ∨ hash = HASH_XXH3

/-- The two key hashes: `fcm_hash_key_xxh64` and `fcm_hash_key_xxh3`. -/
structure KeyHash where
  xxh64 : Bytes → UInt64
  xxh3 : Bytes → UInt64

def murmur64 (h : UInt64) : UInt64 :=
  let h := h ^^^ (h >>> 33)
  let h := h * 0xff51afd7ed558ccd
  let h := h ^^^ (h >>> 33)
  let h := h * 0xc4ceb9fe1a85ec53
  h ^^^ (h >>> 33)

def mixsplit (key seed : UInt64) : UInt64 := murmur64 (key + seed)

/-- `fcm_splitmix64`: the output and the new value of `*state`. -/
def splitmix64 (state : UInt64) : UInt64 × UInt64 :=
  let state := state + 0x9E3779B97F4A7C15
  let z := state
  let z := (z ^^^ (z >>> 30)) * 0xBF58476D1CE4E5B9
  let z := (z ^^^ (z >>> 27)) * 0x94D049BB133111EB
  (z ^^^ (z >>> 31), state)

def hashKey (K : KeyHash) (hash : UInt32) (key : Bytes) : UInt64 :=
  if hash = HASH_XXH3 then K.xxh3 key else K.xxh64 key

/-- `fcm_hash_block`: the hash function is chosen once for the whole block. -/
def hashBlock (K : KeyHash) (hash : UInt32) (keys : List Bytes) (seed : UInt64) : List UInt64 :=
  if hash = HASH_XXH3 then keys.map fun key => mixsplit (K.xxh3 key) seed
  else keys.map fun key => mixsplit (K.xxh64 key) seed

/-- `fcm_mul_high32` with a 128-bit product (no `Nat` product here exceeds 96 bits). -/
def mulHigh32 (hash : UInt64) (n : UInt32) : UInt32 :=
  UInt32.ofNat ((hash.toNat * n.toNat) >>> 64)

/-- The branch of `fcm_mul_high32` for compilers without a 128-bit product: two products of 64 bits. -/
def mulHigh32Portable (hash : UInt64) (n : UInt32) : UInt32 :=
  let hashHi := hash >>> 32
  let hashLo := hash &&& 0xFFFFFFFF
  let prodHi := hashHi * n.toUInt64
  let prodLo := hashLo * n.toUInt64
  ((prodHi + (prodLo >>> 32)) >>> 32).toUInt32

/-- `fcm_get_h012`: the positions `(h0, h1, h2)` of a mixed hash. -/
def getH012 (hash : UInt64) (segmentLength segmentLengthMask segmentCountLength : UInt32) :
    UInt32 × UInt32 × UInt32 :=
  let h0 := mulHigh32 hash segmentCountLength
  let h1 := h0 + segmentLength
  let h2 := h1 + segmentLength
  (h0, h1 ^^^ ((hash >>> 18).toUInt32 &&& segmentLengthMask),
    h2 ^^^ (hash.toUInt32 &&& segmentLengthMask))

/-- `fcm_fingerprint`: the check word of a mixed hash. -/
def fingerprint (hash : UInt64) : UInt64 := hash ^^^ (hash >>> 32)

theorem hashBlock_eq (K : KeyHash) (hash : UInt32) (keys : List Bytes) (seed : UInt64) :
    hashBlock K hash keys seed = keys.map fun key => mixsplit (hashKey K hash key) seed := by
  unfold hashBlock hashKey
  split_ifs <;> rfl

end FastConstMap
