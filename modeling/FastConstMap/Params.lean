import FastConstMap.Hash

/-!
# Segment parameters

`fcm_init_params` and the halving and doubling of the segment length between attempts. The two
floating-point computations of the sizing are parameters (`Libm`).
-/

namespace FastConstMap

/-- The floating-point sizing. `two_le` and `lt` are what the code relies on: the exponent of the
segment length is at least 2 (the smallest size gives `floor(2.25)`), and the shift by it is
defined. Nothing is assumed of the capacity. -/
structure Libm where
  /-- `(int)floor(log((double)size) / log(3.33) + 2.25)` -/
  segmentLengthLog : UInt32 → Nat
  /-- `(uint32_t)round((double)size * fcm_calculate_size_factor(size))` -/
  capacity : UInt32 → UInt32
  two_le : ∀ size, 2 ≤ segmentLengthLog size
  lt : ∀ size, segmentLengthLog size < 32

/-- `fcm_params_t`. -/
structure Params where
  seed : UInt64
  segmentLength : UInt32
  segmentLengthMask : UInt32
  segmentCount : UInt32
  segmentCountLength : UInt32
  arrayLen : UInt32
deriving DecidableEq, Repr

def calculateSegmentLength (lm : Libm) (size : UInt32) : UInt32 :=
  if size = 0 then 4 else 1 <<< UInt32.ofNat (lm.segmentLengthLog size)

/-- `fcm_init_params`; `seed` is not set yet. -/
def initParams (lm : Libm) (size : UInt32) : Params :=
  let segmentLength := calculateSegmentLength lm size
  let segmentLength := if segmentLength > 262144 then 262144 else segmentLength
  let capacity := if size > 1 then lm.capacity size else 0
  let totalSegmentCount := (capacity + segmentLength - 1) / segmentLength
  let totalSegmentCount := if totalSegmentCount < 3 then 3 else totalSegmentCount
  let segmentCount := totalSegmentCount - 2
  { seed := 0
    segmentLength := segmentLength
    segmentLengthMask := segmentLength - 1
    segmentCount := segmentCount
    segmentCountLength := segmentCount * segmentLength
    arrayLen := totalSegmentCount * segmentLength }

/-- `case 2` of the retry switch of `fcm_peel`. -/
def Params.halve (p : Params) : Params :=
  let segmentLength := p.segmentLength / 2
  let segmentCount := p.segmentCount * 2 + 2
  { p with
    segmentLength := segmentLength
    segmentLengthMask := segmentLength - 1
    segmentCount := segmentCount
    segmentCountLength := segmentCount * segmentLength }

/-- `case 3` of the retry switch of `fcm_peel`. -/
def Params.double (p : Params) : Params :=
  let segmentLength := p.segmentLength * 2
  let segmentCount := p.segmentCount / 2 - 1
  { p with
    segmentLength := segmentLength
    segmentLengthMask := segmentLength - 1
    segmentCount := segmentCount
    segmentCountLength := segmentCount * segmentLength }

/-- The retry switch of `fcm_peel`, at the head of attempt `iteration`. -/
def adjustSegments (size : UInt32) (iteration : Nat) (p : Params) : Params :=
  if 4 < size ∧ size < 1000000 then
    match iteration % 4 with
    | 2 => p.halve
    | 3 => p.double
    | _ => p
  else p

/-- The positions of a mixed hash under `p`. -/
def Params.getH012 (p : Params) (hash : UInt64) : UInt32 × UInt32 × UInt32 :=
  FastConstMap.getH012 hash p.segmentLength p.segmentLengthMask p.segmentCountLength

/-- The search for `block_bits`, from the value `bits` on; a shift of `1u` by 32 is undefined. -/
def blockBitsFrom (segmentCount : UInt32) : Nat → Nat → Option Nat
  | 0, _ => none
  | fuel + 1, bits =>
    if 2 ^ bits < segmentCount.toNat then blockBitsFrom segmentCount fuel (bits + 1) else some bits

/-- `block_bits`: the least number of bits from 1 on that count all segments. -/
def blockBits (segmentCount : UInt32) : Option Nat := blockBitsFrom segmentCount 31 1

end FastConstMap
