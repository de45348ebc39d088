import FastConstMap.Lib.Vectors
import FastConstMap.Xxh64

/-!
# XXH3

`XXH3_64bits` of the vendored `xxhash.h` and the key hash `fcm_hash_key_xxh3`, in the scalar code and in the
code for the vector units that every 64-bit x86 and ARM host has.
-/

namespace FastConstMap.Xxh3

open CLoop Words Vectors

/-- `XXH3_kSecret`. -/
def kSecret : Bytes := [
  0xb8, 0xfe, 0x6c, 0x39, 0x23, 0xa4, 0x4b, 0xbe, 0x7c, 0x01, 0x81, 0x2c, 0xf7, 0x21, 0xad, 0x1c,
  0xde, 0xd4, 0x6d, 0xe9, 0x83, 0x90, 0x97, 0xdb, 0x72, 0x40, 0xa4, 0xa4, 0xb7, 0xb3, 0x67, 0x1f,
  0xcb, 0x79, 0xe6, 0x4e, 0xcc, 0xc0, 0xe5, 0x78, 0x82, 0x5a, 0xd0, 0x7d, 0xcc, 0xff, 0x72, 0x21,
  0xb8, 0x08, 0x46, 0x74, 0xf7, 0x43, 0x24, 0x8e, 0xe0, 0x35, 0x90, 0xe6, 0x81, 0x3a, 0x26, 0x4c,
  0x3c, 0x28, 0x52, 0xbb, 0x91, 0xc3, 0x00, 0xcb, 0x88, 0xd0, 0x65, 0x8b, 0x1b, 0x53, 0x2e, 0xa3,
  0x71, 0x64, 0x48, 0x97, 0xa2, 0x0d, 0xf9, 0x4e, 0x38, 0x19, 0xef, 0x46, 0xa9, 0xde, 0xac, 0xd8,
  0xa8, 0xfa, 0x76, 0x3f, 0xe3, 0x9c, 0x34, 0x3f, 0xf9, 0xdc, 0xbb, 0xc7, 0xc7, 0x0b, 0x4f, 0x1d,
  0x8a, 0x51, 0xe0, 0x4b, 0xcd, 0xb4, 0x59, 0x31, 0xc8, 0x9f, 0x7e, 0xc9, 0xd9, 0x78, 0x73, 0x64,
  0xea, 0xc5, 0xac, 0x83, 0x34, 0xd3, 0xeb, 0xc3, 0xc5, 0x81, 0xa0, 0xff, 0xfa, 0x13, 0x63, 0xeb,
  0x17, 0x0d, 0xdd, 0x51, 0xb7, 0xf0, 0xda, 0x49, 0xd3, 0x16, 0x55, 0x26, 0x29, 0xd4, 0x68, 0x9e,
  0x2b, 0x16, 0xbe, 0x58, 0x7d, 0x47, 0xa1, 0xfc, 0x8f, 0xf8, 0xb8, 0xd1, 0x7a, 0xd0, 0x31, 0xce,
  0x45, 0xcb, 0x3a, 0x8f, 0x95, 0x16, 0x04, 0x28, 0xaf, 0xd7, 0xfb, 0xca, 0xbb, 0x4b, 0x40, 0x7e]

def PRIME_MX1 : UInt64 := 0x165667919E3779F9
def PRIME_MX2 : UInt64 := 0x9FB21C651E98DF25

/-! ## Mixing -/

/-- `XXH128_hash_t`. -/
structure Hash128 where
  low64 : UInt64
  high64 : UInt64
deriving DecidableEq

/-- `XXH_mult64to128`; `mulLow` is `XXH_mult32to64`. -/
def mult64to128 (B : XxhBuild) (lhs rhs : UInt64) : Hash128 :=
  if B.wideProduct then
    let product := lhs.toNat * rhs.toNat
    { low64 := UInt64.ofNat product, high64 := UInt64.ofNat (product >>> 64) }
  else
    let loLo := mulLow (lhs &&& 0xFFFFFFFF) (rhs &&& 0xFFFFFFFF)
    let hiLo := mulLow (lhs >>> 32) (rhs &&& 0xFFFFFFFF)
    let loHi := mulLow (lhs &&& 0xFFFFFFFF) (rhs >>> 32)
    let hiHi := mulLow (lhs >>> 32) (rhs >>> 32)
    let cross := (loLo >>> 32) + (hiLo &&& 0xFFFFFFFF) + loHi
    let upper := (hiLo >>> 32) + (cross >>> 32) + hiHi
    let lower := (cross <<< 32) ||| (loLo &&& 0xFFFFFFFF)
    { low64 := lower, high64 := upper }

def mul128Fold64 (B : XxhBuild) (lhs rhs : UInt64) : UInt64 :=
  let product := mult64to128 B lhs rhs
  product.low64 ^^^ product.high64

def xorshift64 (v64 shift : UInt64) : UInt64 := v64 ^^^ (v64 >>> shift)

def avalanche (h64 : UInt64) : UInt64 :=
  let h64 := xorshift64 h64 37
  let h64 := h64 * PRIME_MX1
  xorshift64 h64 32

def rrmxmx (h64 len : UInt64) : UInt64 :=
  let h64 := h64 ^^^ (rotl h64 49 ^^^ rotl h64 24)
  let h64 := h64 * PRIME_MX2
  let h64 := h64 ^^^ ((h64 >>> 35) + len)
  let h64 := h64 * PRIME_MX2
  xorshift64 h64 28

/-! ## Short keys -/

section Short

variable (B : XxhBuild) (input secret : Bytes) (seed : UInt64)

/-- `XXH3_len_1to3_64b`. -/
def len1to3 : Option UInt64 := do
  let len := input.length
  let c1 ← load input 0
  let c2 ← load input (len >>> 1)
  let c3 ← load input (len - 1)
  let combined := (c1.toUInt32 <<< 16) ||| (c2.toUInt32 <<< 24) ||| (c3.toUInt32 <<< 0) |||
    (UInt32.ofNat len <<< 8)
  let s0 ← readLE32 B secret 0
  let s1 ← readLE32 B secret 4
  let bitflip := (s0 ^^^ s1).toUInt64 + seed
  let keyed := combined.toUInt64 ^^^ bitflip
  some (Xxh64.avalanche keyed)

/-- `XXH3_len_4to8_64b`. -/
def len4to8 : Option UInt64 := do
  let len := input.length
  let seed := seed ^^^ ((swap32 seed.toUInt32).toUInt64 <<< 32)
  let input1 ← readLE32 B input 0
  let input2 ← readLE32 B input (len - 4)
  let s0 ← readLE64 B secret 8
  let s1 ← readLE64 B secret 16
  let bitflip := (s0 ^^^ s1) - seed
  let input64 := input2.toUInt64 + (input1.toUInt64 <<< 32)
  let keyed := input64 ^^^ bitflip
  some (rrmxmx keyed (UInt64.ofNat len))

/-- `XXH3_len_9to16_64b`. -/
def len9to16 : Option UInt64 := do
  let len := input.length
  let s0 ← readLE64 B secret 24
  let s1 ← readLE64 B secret 32
  let bitflip1 := (s0 ^^^ s1) + seed
  let s2 ← readLE64 B secret 40
  let s3 ← readLE64 B secret 48
  let bitflip2 := (s2 ^^^ s3) - seed
  let lo ← readLE64 B input 0
  let inputLo := lo ^^^ bitflip1
  let hi ← readLE64 B input (len - 8)
  let inputHi := hi ^^^ bitflip2
  let acc := UInt64.ofNat len + swap64 inputLo + inputHi + mul128Fold64 B inputLo inputHi
  some (avalanche acc)

/-- `XXH3_len_0to16_64b`. -/
def len0to16 : Option UInt64 :=
  let len := input.length
  if len > 8 then len9to16 B input secret seed
  else if len ≥ 4 then len4to8 B input secret seed
  else if len ≠ 0 then len1to3 B input secret seed
  else do
    let s0 ← readLE64 B secret 56
    let s1 ← readLE64 B secret 64
    some (Xxh64.avalanche (seed ^^^ (s0 ^^^ s1)))

/-! ## Keys of middle length -/

/-- `XXH3_mix16B(input + off, secret + soff, seed)`. -/
def mix16B (off soff : Nat) : Option UInt64 := do
  let inputLo ← readLE64 B input off
  let inputHi ← readLE64 B input (off + 8)
  let s0 ← readLE64 B secret soff
  let s1 ← readLE64 B secret (soff + 8)
  some (mul128Fold64 B (inputLo ^^^ (s0 + seed)) (inputHi ^^^ (s1 - seed)))

/-- `acc += XXH3_mix16B(input + off, secret + soff, seed)`. -/
def addMix16B (off soff : Nat) (acc : UInt64) : Option UInt64 := do
  let m ← mix16B B input secret seed off soff
  some (acc + m)

/-- One pass of `do … while (i-- != 0)`. -/
def pairStep (s : UInt64 × Nat) : Option (Ctl (UInt64 × Nat)) := do
  let (acc, i) := s
  let acc ← addMix16B B input secret seed (16 * i) (32 * i) acc
  let acc ← addMix16B B input secret seed (input.length - 16 * (i + 1)) (32 * i + 16) acc
  some (if i ≠ 0 then .next (acc, i - 1) else .stop (acc, i))

/-- `XXH3_len_17to128_64b`. -/
def len17to128 : Option UInt64 := do
  let len := input.length
  let acc := UInt64.ofNat len * PRIME64_1
  if B.sizeOpt ≥ 1 then do
    let i := (len - 1) / 32
    let s ← loop (pairStep B input secret seed) (i + 1) (acc, i)
    some (avalanche s.1)
  else do
    let acc ← if len > 32 then do
        let acc ← if len > 64 then do
            let acc ← if len > 96 then do
                let acc ← addMix16B B input secret seed 48 96 acc
                addMix16B B input secret seed (len - 64) 112 acc
              else some acc
            let acc ← addMix16B B input secret seed 32 64 acc
            addMix16B B input secret seed (len - 48) 80 acc
          else some acc
        let acc ← addMix16B B input secret seed 16 32 acc
        addMix16B B input secret seed (len - 32) 48 acc
      else some acc
    let acc ← addMix16B B input secret seed 0 0 acc
    let acc ← addMix16B B input secret seed (len - 16) 16 acc
    some (avalanche acc)

/-- `XXH3_len_129to240_64b`. -/
def len129to240 : Option UInt64 := do
  let len := input.length
  let acc := UInt64.ofNat len * PRIME64_1
  let nbRounds := len / 16
  let acc ← forUp (fun i acc => addMix16B B input secret seed (16 * i) (16 * i) acc) 0 8 acc
  let accEnd ← mix16B B input secret seed (len - 16) (136 - 17)
  let acc := avalanche acc
  let accEnd ← forUp (fun i accEnd => addMix16B B input secret seed (16 * i) (16 * (i - 8) + 3) accEnd) 8
    (nbRounds - 8) accEnd
  some (avalanche (acc + accEnd))

end Short

/-! ## The accumulators of long keys, in scalar code -/

/-- `XXH3_INIT_ACC`. -/
def initAcc : List UInt64 :=
  [PRIME32_3.toUInt64, PRIME64_1, PRIME64_2, PRIME64_3, PRIME64_4, PRIME32_2.toUInt64, PRIME64_5,
    PRIME32_1.toUInt64]

section Scalar

variable (B : XxhBuild) (input : Bytes) (ioff : Nat) (secret : Bytes) (soff : Nat)

/-- `XXH3_scalarRound(acc, input + ioff, secret + soff, lane)`. -/
def scalarRound (lane : Nat) (acc : List UInt64) : Option (List UInt64) := do
  let dataVal ← readLE64 B input (ioff + lane * 8)
  let key ← readLE64 B secret (soff + lane * 8)
  let dataKey := dataVal ^^^ key
  let other ← load acc (lane ^^^ 1)
  let acc ← store acc (lane ^^^ 1) (other + dataVal)
  let own ← load acc lane
  store acc lane (mulLow dataKey (dataKey >>> 32) + own)

/-- `XXH3_accumulate_512_scalar`. -/
def accumulate512Scalar (acc : List UInt64) : Option (List UInt64) :=
  forUp (scalarRound B input ioff secret soff) 0 8 acc

/-- `XXH3_scalarScrambleRound`. -/
def scalarScrambleRound (lane : Nat) (acc : List UInt64) : Option (List UInt64) := do
  let key64 ← readLE64 B secret (soff + lane * 8)
  let acc64 ← load acc lane
  let acc64 := xorshift64 acc64 47
  let acc64 := acc64 ^^^ key64
  let acc64 := acc64 * PRIME32_1.toUInt64
  store acc lane acc64

/-- `XXH3_scrambleAcc_scalar`. -/
def scrambleAccScalar (acc : List UInt64) : Option (List UInt64) :=
  forUp (scalarScrambleRound B secret soff) 0 8 acc

end Scalar

/-! ## The accumulators in vector registers -/

/-- `_mm_loadu_si128`, `XXH_vld1q_u64`. -/
def loadu (p : Bytes) (off : Nat) : Option V128 :=
  if off + 16 ≤ p.length then some ⟨wordAt p off, wordAt p (off + 8)⟩ else none

/-- `xacc[i]`. -/
def loadAcc (acc : List UInt64) (i : Nat) : Option V128 := do
  let lo ← load acc (2 * i)
  let hi ← load acc (2 * i + 1)
  some ⟨lo, hi⟩

/-- `xacc[i] = v`. -/
def storeAcc (acc : List UInt64) (i : Nat) (v : V128) : Option (List UInt64) := do
  let acc ← store acc (2 * i) v.lo
  store acc (2 * i + 1) v.hi

section Registers

variable (B : XxhBuild) (input : Bytes) (ioff : Nat) (secret : Bytes) (soff : Nat)

/-- One pass of the loop of `XXH3_accumulate_512_sse2`. -/
def accumulateSse2 (i : Nat) (acc : List UInt64) : Option (List UInt64) := do
  let dataVec ← loadu input (ioff + 16 * i)
  let keyVec ← loadu secret (soff + 16 * i)
  let dataKey := dataVec.xor keyVec
  let dataKeyLo := dataKey.shuffle 0 3 0 1
  let product := dataKey.mulEpu32 dataKeyLo
  let dataSwap := dataVec.shuffle 1 0 3 2
  let x ← loadAcc acc i
  let sum := x.add dataSwap
  storeAcc acc i (product.add sum)

/-- `XXH3_accumulate_512_sse2`. -/
def accumulate512Sse2 (acc : List UInt64) : Option (List UInt64) :=
  forUp (accumulateSse2 input ioff secret soff) 0 4 acc

/-- One pass of the loop of `XXH3_scrambleAcc_sse2`. -/
def scrambleSse2 (i : Nat) (acc : List UInt64) : Option (List UInt64) := do
  let accVec ← loadAcc acc i
  let shifted := accVec.shiftRight 47
  let dataVec := accVec.xor shifted
  let keyVec ← loadu secret (soff + 16 * i)
  let dataKey := dataVec.xor keyVec
  let dataKeyHi := dataKey.shuffle 0 3 0 1
  let prodLo := dataKey.mulEpu32 (V128.set1 PRIME32_1)
  let prodHi := dataKeyHi.mulEpu32 (V128.set1 PRIME32_1)
  storeAcc acc i (prodLo.add (prodHi.slli 32))

/-- `XXH3_scrambleAcc_sse2`. -/
def scrambleAccSse2 (acc : List UInt64) : Option (List UInt64) :=
  forUp (scrambleSse2 secret soff) 0 4 acc

/-- A pass of `XXH3_accumulate_512_neon` over two registers. -/
def accumulateNeon4 (i : Nat) (acc : List UInt64) : Option (List UInt64) := do
  let dataVec1 ← loadu input (ioff + i * 16)
  let dataVec2 ← loadu input (ioff + (i + 1) * 16)
  let keyVec1 ← loadu secret (soff + i * 16)
  let keyVec2 ← loadu secret (soff + (i + 1) * 16)
  let dataSwap1 := dataVec1.ext1 dataVec1
  let dataSwap2 := dataVec2.ext1 dataVec2
  let dataKey1 := dataVec1.xor keyVec1
  let dataKey2 := dataVec2.xor keyVec2
  let dataKeyLo := dataKey1.uzp0 dataKey2
  let dataKeyHi := dataKey1.uzp1 dataKey2
  let sum1 := dataSwap1.mlal dataKeyLo.low dataKeyHi.low
  let sum2 := dataSwap2.mlal dataKeyLo.high dataKeyHi.high
  let x1 ← loadAcc acc i
  let acc ← storeAcc acc i (x1.add sum1)
  let x2 ← loadAcc acc (i + 1)
  storeAcc acc (i + 1) (x2.add sum2)

/-- A pass over one register. -/
def accumulateNeon2 (i : Nat) (acc : List UInt64) : Option (List UInt64) := do
  let dataVec ← loadu input (ioff + i * 16)
  let keyVec ← loadu secret (soff + i * 16)
  let dataSwap := dataVec.ext1 dataVec
  let dataKey := dataVec.xor keyVec
  let dataKeyLo := dataKey.narrow 0
  let dataKeyHi := dataKey.narrow 32
  let sum := dataSwap.mlal dataKeyLo dataKeyHi
  let x ← loadAcc acc i
  storeAcc acc i (x.add sum)

/-- `XXH3_accumulate_512_neon`: the last lanes in scalar code, the others in registers, first two at a
time. -/
def accumulate512Neon (lanes : NeonLanes) (acc : List UInt64) : Option (List UInt64) := do
  let acc ← forUp (scalarRound B input ioff secret soff) lanes (8 - lanes) acc
  let pairs := lanes.val / 2 / 2
  let acc ← forUp (fun k => accumulateNeon4 input ioff secret soff (2 * k)) 0 pairs acc
  forUp (accumulateNeon2 input ioff secret soff) (2 * pairs) (lanes.val / 2 - 2 * pairs) acc

/-- One pass of the register loop of `XXH3_scrambleAcc_neon`. -/
def scrambleNeon (i : Nat) (acc : List UInt64) : Option (List UInt64) := do
  let accVec ← loadAcc acc i
  let shifted := accVec.shiftRight 47
  let dataVec := accVec.xor shifted
  let keyVec ← loadu secret (soff + i * 16)
  let dataKey := dataVec.xor keyVec
  let prodHi := dataKey.mulU32 ⟨PRIME32_1.toUInt64 <<< 32, PRIME32_1.toUInt64 <<< 32⟩
  let dataKeyLo := dataKey.narrow 0
  storeAcc acc i (prodHi.mlal dataKeyLo ⟨PRIME32_1, PRIME32_1⟩)

/-- `XXH3_scrambleAcc_neon`. -/
def scrambleAccNeon (lanes : NeonLanes) (acc : List UInt64) : Option (List UInt64) := do
  let acc ← forUp (scalarScrambleRound B secret soff) lanes (8 - lanes) acc
  forUp (scrambleNeon secret soff) 0 (lanes.val / 2) acc

/-! ## Long keys -/

/-- `XXH3_accumulate_512(acc, input + ioff, secret + soff)`. -/
def accumulate512 (acc : List UInt64) : Option (List UInt64) :=
  match B.vector with
  | .scalar => accumulate512Scalar B input ioff secret soff acc
  | .sse2 => accumulate512Sse2 input ioff secret soff acc
  | .neon lanes => accumulate512Neon B input ioff secret soff lanes acc

/-- `XXH3_scrambleAcc(acc, secret + soff)`. -/
def scrambleAcc (acc : List UInt64) : Option (List UInt64) :=
  match B.vector with
  | .scalar => scrambleAccScalar B secret soff acc
  | .sse2 => scrambleAccSse2 secret soff acc
  | .neon lanes => scrambleAccNeon B secret soff lanes acc

/-- `XXH3_accumulate(acc, input + ioff, secret + soff, nbStripes)`. -/
def accumulate (nbStripes : Nat) (acc : List UInt64) : Option (List UInt64) :=
  forUp (fun n acc => accumulate512 B input (ioff + n * 64) secret (soff + n * 8) acc) 0 nbStripes acc

end Registers

section Long

variable (B : XxhBuild) (input secret : Bytes)

/-- `XXH3_hashLong_internal_loop`. -/
def hashLongInternalLoop (acc : List UInt64) : Option (List UInt64) := do
  let len := input.length
  let secretSize := secret.length
  let nbStripesPerBlock := (secretSize - 64) / 8
  let blockLen := 64 * nbStripesPerBlock
  let nbBlocks := (len - 1) / blockLen
  let acc ← forUp (fun n acc => do
    let acc ← accumulate B input (n * blockLen) secret 0 nbStripesPerBlock acc
    scrambleAcc B secret (secretSize - 64) acc) 0 nbBlocks acc
  let nbStripes := ((len - 1) - blockLen * nbBlocks) / 64
  let acc ← accumulate B input (nbBlocks * blockLen) secret 0 nbStripes acc
  accumulate512 B input (len - 64) secret (secretSize - 64 - 7) acc

/-- `XXH3_mix2Accs(acc + aoff, secret + soff)`. -/
def mix2Accs (acc : List UInt64) (aoff soff : Nat) : Option UInt64 := do
  let a0 ← load acc aoff
  let s0 ← readLE64 B secret soff
  let a1 ← load acc (aoff + 1)
  let s1 ← readLE64 B secret (soff + 8)
  some (mul128Fold64 B (a0 ^^^ s0) (a1 ^^^ s1))

/-- `XXH3_mergeAccs(acc, secret + soff, start)`. -/
def mergeAccs (acc : List UInt64) (soff : Nat) (start : UInt64) : Option UInt64 := do
  let result64 ← forUp (fun i result64 => do
    let m ← mix2Accs B secret acc (2 * i) (soff + 16 * i)
    some (result64 + m)) 0 4 start
  some (avalanche result64)

/-- `XXH3_hashLong_64b_internal`. -/
def hashLong64bInternal : Option UInt64 := do
  let acc ← hashLongInternalLoop B input secret initAcc
  mergeAccs B secret acc 11 (UInt64.ofNat input.length * PRIME64_1)

/-- `XXH3_64bits_internal` with `XXH3_hashLong_64b_default`, which takes `XXH3_kSecret` for its secret. -/
def bits64Internal (seed64 : UInt64) : Option UInt64 :=
  let len := input.length
  if len ≤ 16 then len0to16 B input secret seed64
  else if len ≤ 128 then len17to128 B input secret seed64
  else if len ≤ 240 then len129to240 B input secret seed64
  else hashLong64bInternal B input kSecret

end Long

/-- `XXH3_64bits`. -/
def bits64 (B : XxhBuild) (input : Bytes) : Option UInt64 := bits64Internal B input kSecret 0

end FastConstMap.Xxh3

namespace FastConstMap

/-- `fcm_hash_key_xxh3`. -/
def hashKeyXxh3 (B : XxhBuild) (key : Bytes) : Option UInt64 :=
  Xxh3.bits64Internal B key Xxh3.kSecret 0

end FastConstMap
