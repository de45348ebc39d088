import FastConstMap.Lib.LittleEndian
import FastConstMap.Proofs.HashProofs

/-!
# Proofs: keys for given hashes

On keys of 8 bytes XXH64 runs without its loops, and each of its steps can be undone. So there is a key
of 8 bytes for every hash, which gives inputs for the cases that need particular hashes.
-/

namespace FastConstMap

open Words

/-- `XXH64_round(0, input)`. -/
def xxh64Round (input : UInt64) : UInt64 := rotl (input * 0xC2B2AE3D27D4EB4F) 31 * 0x9E3779B185EBCA87

/-- `XXH64_avalanche`. -/
def xxh64Avalanche (hash : UInt64) : UInt64 :=
  let hash := hash ^^^ (hash >>> 33)
  let hash := hash * 0xC2B2AE3D27D4EB4F
  let hash := hash ^^^ (hash >>> 29)
  let hash := hash * 0x165667B19E3779F9
  hash ^^^ (hash >>> 32)

/-- `XXH64` with seed 0 of the 8 bytes that form `word`. -/
def xxh64Word (word : UInt64) : UInt64 :=
  let hash := 0x27D4EB2F165667C5 + 8
  let hash := hash ^^^ xxh64Round word
  let hash := rotl hash 27 * 0x9E3779B185EBCA87 + 0x85EBCA77C2B2AE63
  xxh64Avalanche hash

/-- The steps of `xxh64Avalanche` undone, last one first. -/
def unavalanche (hash : UInt64) : UInt64 :=
  let hash := hash ^^^ (hash >>> 32)
  let hash := hash * 0xe9e9f4c41d6df849
  let hash := hash ^^^ (hash >>> 29) ^^^ (hash >>> 58)
  let hash := hash * 0x0ba79078168d4baf
  hash ^^^ (hash >>> 33)

/-- The steps of `xxh64Round` undone, last one first. -/
def unround (hash : UInt64) : UInt64 := rotl (hash * 0x0887493432badb37) 33 * 0x0ba79078168d4baf

/-- The word whose XXH64 is `hash`. -/
def unxxh64 (hash : UInt64) : UInt64 :=
  let hash := unavalanche hash
  let hash := rotl ((hash - 0x85EBCA77C2B2AE63) * 0x0887493432badb37) 37
  unround (hash ^^^ (0x27D4EB2F165667C5 + 8))

theorem xxh64Avalanche_unavalanche (hash : UInt64) : xxh64Avalanche (unavalanche hash) = hash := by
  have h29 : ∀ x : UInt64, (x ^^^ (x >>> 29) ^^^ (x >>> 58)) ^^^
      ((x ^^^ (x >>> 29) ^^^ (x >>> 58)) >>> 29) = x := fun x =>
    xor_shiftRight_twice x (t := 58) (by decide) (by decide) (by decide)
  have h32 : ∀ x : UInt64, (x ^^^ (x >>> 32)) ^^^ ((x ^^^ (x >>> 32)) >>> 32) = x := fun x =>
    xor_shiftRight_self x (by decide) (by decide)
  simp only [xxh64Avalanche, unavalanche, xor_shiftRight_33]
  rw [mul_mul_cancel (by decide), h29, mul_mul_cancel (by decide), h32]

theorem xxh64Round_unround (hash : UInt64) : xxh64Round (unround hash) = hash := by
  simp only [xxh64Round, unround]
  rw [mul_mul_cancel (by decide), rotl_rotl _ (by decide) (by decide) (by decide),
    mul_mul_cancel (by decide)]

theorem xxh64Word_unxxh64 (hash : UInt64) : xxh64Word (unxxh64 hash) = hash := by
  simp only [xxh64Word, unxxh64, xxh64Round_unround]
  rw [UInt64.xor_comm _ (0x27D4EB2F165667C5 + 8), xor_self_cancel,
    rotl_rotl _ (by decide) (by decide) (by decide), mul_mul_cancel (by decide),
    UInt64.sub_add_cancel, xxh64Avalanche_unavalanche]

/-- The key hashes on keys of 8 bytes, for inputs that have no other ones. -/
def wordKeyHash : KeyHash where
  xxh64 key := xxh64Word (UInt64.ofNat (LittleEndian.value key))
  xxh3 _ := 0

/-- The key of 8 bytes whose XXH64 mixes to `a` with the given seed. -/
def wordKey (a seed : UInt64) : Bytes := LittleEndian.bytes 8 (unxxh64 (unmix a seed)).toNat

theorem hashKey_wordKey (a seed : UInt64) :
    hashKey wordKeyHash HASH_XXH64 (wordKey a seed) = unmix a seed := by
  have hvalue : LittleEndian.value (wordKey a seed) = (unxxh64 (unmix a seed)).toNat :=
    LittleEndian.value_bytes (UInt64.toNat_lt _)
  show xxh64Word (UInt64.ofNat (LittleEndian.value (wordKey a seed))) = _
  rw [hvalue, UInt64.ofNat_toNat, xxh64Word_unxxh64]

end FastConstMap
