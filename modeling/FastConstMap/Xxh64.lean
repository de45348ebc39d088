import FastConstMap.XxHash

/-!
# XXH64

`XXH64` of the vendored `xxhash.h`, in one call and streamed, and the key hash `fcm_hash_key_xxh64`.
-/

namespace FastConstMap.Xxh64

open CLoop Words

/-! ## Mixing -/

def round (acc input : UInt64) : UInt64 :=
  let acc := acc + input * PRIME64_2
  let acc := rotl acc 31
  acc * PRIME64_1

def mergeRound (acc val : UInt64) : UInt64 :=
  let val := round 0 val
  let acc := acc ^^^ val
  acc * PRIME64_1 + PRIME64_4

def avalanche (hash : UInt64) : UInt64 :=
  let hash := hash ^^^ (hash >>> 33)
  let hash := hash * PRIME64_2
  let hash := hash ^^^ (hash >>> 29)
  let hash := hash * PRIME64_3
  hash ^^^ (hash >>> 32)

/-- The accumulators `v1`, `v2`, `v3` and `v4`. -/
structure Lanes where
  v1 : UInt64
  v2 : UInt64
  v3 : UInt64
  v4 : UInt64
deriving DecidableEq

/-- The accumulators at the start. -/
def start (seed : UInt64) : Lanes :=
  { v1 := seed + PRIME64_1 + PRIME64_2
    v2 := seed + PRIME64_2
    v3 := seed + 0
    v4 := seed - PRIME64_1 }

/-- The accumulators combined after the last block. -/
def converge (v : Lanes) : UInt64 :=
  let h64 := rotl v.v1 1 + rotl v.v2 7 + rotl v.v3 12 + rotl v.v4 18
  let h64 := mergeRound h64 v.v1
  let h64 := mergeRound h64 v.v2
  let h64 := mergeRound h64 v.v3
  mergeRound h64 v.v4

/-- What a word of 8 bytes of the tail does to the hash. -/
def mix8 (hash k : UInt64) : UInt64 :=
  let k1 := round 0 k
  let hash := hash ^^^ k1
  rotl hash 27 * PRIME64_1 + PRIME64_4

/-- What a word of 4 bytes does. -/
def mix4 (hash : UInt64) (k : UInt32) : UInt64 :=
  let hash := hash ^^^ k.toUInt64 * PRIME64_1
  rotl hash 23 * PRIME64_2 + PRIME64_3

/-- What a byte does. -/
def mix1 (hash : UInt64) (b : UInt8) : UInt64 :=
  let hash := hash ^^^ b.toUInt64 * PRIME64_5
  rotl hash 11 * PRIME64_1

/-! ## The last bytes -/

/-- One pass of `while (len >= 8)`, on the hash, the pointer and the length. -/
def finalizeWord (B : XxhBuild) (align : XxhAlignment) (p : Bytes) (s : UInt64 × Nat × Nat) :
    Option (Ctl (UInt64 × Nat × Nat)) :=
  if s.2.2 ≥ 8 then do
    let k ← readLE64Align B align p s.2.1
    some (.next (mix8 s.1 k, s.2.1 + 8, s.2.2 - 8))
  else some (.stop s)

/-- One pass of `while (len > 0)`. -/
def finalizeByte (p : Bytes) (s : UInt64 × Nat × Nat) : Option (Ctl (UInt64 × Nat × Nat)) :=
  if s.2.2 > 0 then do
    let b ← load p s.2.1
    some (.next (mix1 s.1 b, s.2.1 + 1, s.2.2 - 1))
  else some (.stop s)

/-- `XXH64_finalize(hash, p + ptr, len, align)`. -/
def finalize (B : XxhBuild) (align : XxhAlignment) (p : Bytes) (hash : UInt64) (ptr len : Nat) :
    Option UInt64 := do
  let len := len &&& 31
  let s ← loop (finalizeWord B align p) (len + 1) (hash, ptr, len)
  let s ← if s.2.2 ≥ 4 then do
      let k ← readLE32Align B align p s.2.1
      some (mix4 s.1 k, s.2.1 + 4, s.2.2 - 4)
    else some s
  let s ← loop (finalizeByte p) (s.2.2 + 1) s
  some (avalanche s.1)

/-! ## One call -/

/-- The four words of a block. -/
def readStripe (read : Nat → Option UInt64) (v : Lanes) (ptr : Nat) : Option Lanes := do
  let k1 ← read ptr
  let k2 ← read (ptr + 8)
  let k3 ← read (ptr + 16)
  let k4 ← read (ptr + 24)
  some ⟨round v.v1 k1, round v.v2 k2, round v.v3 k3, round v.v4 k4⟩

/-- One pass of `do … while (input < limit)`. -/
def stripeStep (B : XxhBuild) (align : XxhAlignment) (p : Bytes) (limit : Nat) (s : Lanes × Nat) :
    Option (Ctl (Lanes × Nat)) := do
  let v ← readStripe (readLE64Align B align p) s.1 s.2
  let input := s.2 + 32
  some (if input < limit then .next (v, input) else .stop (v, input))

/-- `XXH64_endian_align`, of the `len(p)` bytes `p`. -/
def endianAlign (B : XxhBuild) (align : XxhAlignment) (p : Bytes) (seed : UInt64) : Option UInt64 := do
  let len := p.length
  let (h64, input) ← if len ≥ 32 then do
      let limit := len - 31
      let s ← loop (stripeStep B align p limit) len (start seed, 0)
      some (converge s.1, s.2)
    else some (seed + PRIME64_5, 0)
  let h64 := h64 + UInt64.ofNat len
  finalize B align p h64 input len

/-! ## Streaming -/

/-- `XXH64_state_t`; `mem` is `mem64`. -/
structure State where
  totalLen : UInt64
  v : Lanes
  mem : Bytes
  memsize : Nat

/-- `XXH64_reset`. -/
def reset (seed : UInt64) : State :=
  { totalLen := 0, v := start seed, mem := List.replicate 32 0, memsize := 0 }

/-- `memcpy(dst + dstOff, src + srcOff, len)`. -/
def copyBytes (dst : Bytes) (dstOff : Nat) (src : Bytes) (srcOff len : Nat) : Option Bytes :=
  if srcOff + len ≤ src.length then memcpy dst dstOff ((src.drop srcOff).take len) else none

/-- One pass of `do … while (p <= limit)`. -/
def updateStep (B : XxhBuild) (input : Bytes) (limit : Nat) (s : Lanes × Nat) :
    Option (Ctl (Lanes × Nat)) := do
  let v ← readStripe (readLE64 B input) s.1 s.2
  let p := s.2 + 32
  some (if p ≤ limit then .next (v, p) else .stop (v, p))

/-- The part of `XXH64_update` that completes the block in `mem64`: the new state and pointer. -/
def fillBlock (B : XxhBuild) (state : State) (input : Bytes) : Option (State × Nat) :=
  if state.memsize ≠ 0 then do
    let mem ← copyBytes state.mem state.memsize input 0 (32 - state.memsize)
    let v ← readStripe (readLE64 B mem) state.v 0
    some ({ state with v := v, mem := mem, memsize := 0 }, 32 - state.memsize)
  else some (state, 0)

/-- `XXH64_update`, of an input that is not a null pointer. -/
def update (B : XxhBuild) (state : State) (input : Bytes) : Option State :=
  let len := input.length
  let state := { state with totalLen := state.totalLen + UInt64.ofNat len }
  if state.memsize + len < 32 then do
    let mem ← copyBytes state.mem state.memsize input 0 len
    some { state with mem := mem, memsize := state.memsize + len }
  else do
    let (state, p) ← fillBlock B state input
    let (v, p) ← if p + 32 ≤ len then loop (updateStep B input (len - 32)) len (state.v, p)
      else some (state.v, p)
    let state := { state with v := v }
    if p < len then do
      let mem ← copyBytes state.mem 0 input p (len - p)
      some { state with mem := mem, memsize := len - p }
    else some state

/-- `XXH64_digest`. -/
def digest (B : XxhBuild) (state : State) : Option UInt64 :=
  let h64 := if state.totalLen ≥ 32 then converge state.v else state.v.v3 + PRIME64_5
  let h64 := h64 + state.totalLen
  finalize B .aligned state.mem h64 0 state.totalLen.toNat

/-! ## The hash -/

/-- `XXH64`, of the bytes `p` at the address `addr`. -/
def hash (B : XxhBuild) (addr : Nat) (p : Bytes) (seed : UInt64) : Option UInt64 :=
  if B.noStream = false ∧ B.sizeOpt ≥ 2 then do
    let state ← update B (reset seed) p
    digest B state
  else if B.alignCheck = true ∧ addr &&& 7 = 0 then endianAlign B .aligned p seed
  else endianAlign B .unaligned p seed

end FastConstMap.Xxh64

namespace FastConstMap

/-- `fcm_hash_key_xxh64`. -/
def hashKeyXxh64 (B : XxhBuild) (key : Bytes) : Option UInt64 :=
  Xxh64.endianAlign B .unaligned key 0

end FastConstMap
