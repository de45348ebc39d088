import FastConstMap.Params

/-!
# The peeling construction (`fcm_peel`)

The scratch arrays are lists, and every access to one is checked (`load`, `store`): an index out of
range makes the run undefined (`none`). Loops over an array that they do not change are recursions
on its entries. Counters (`qsize`, `stacksize`, cursors) are natural numbers: each is bounded by the
length of the array it indexes before it grows.
-/

namespace FastConstMap

open CLoop

/-- The buffers that a construction or a reader allocates; `startPos k` is the `realloc` of attempt
`k`. -/
inductive Buffer where
  | hashed
  | data
  | checks
  | slots
  | alone
  | t2count
  | t2hash
  | reverseH
  | reverseOrder
  | pairs
  | startPos (iteration : Nat)

/-- The allocator: which allocations succeed, and what `malloc` leaves in the cells of a buffer. -/
structure Heap where
  ok : Buffer → Bool
  junk : Buffer → Nat → UInt64

/-! ## Placement -/

/-- `start_pos`: the first cell of each of the `2^bits` blocks of `reverse_order`. -/
def startPositions (size : Nat) (bits : Nat) : List Nat :=
  (List.range (2 ^ bits)).map fun i => (i * size) >>> bits

/-- The inner `while` of the placement: the next block, cyclically from `seg` on, whose cursor is
at a zero cell. After `blockCount` probes without one the search has come around, so it never
ends. -/
def findBlock (reverseOrder : List UInt64) (startPos : List Nat) (blockCount : Nat) :
    Nat → Nat → Option Nat
  | 0, _ => none
  | fuel + 1, seg => do
    let pos ← load startPos seg
    let x ← load reverseOrder pos
    if x ≠ 0 then findBlock reverseOrder startPos blockCount fuel ((seg + 1) &&& (blockCount - 1))
    else some seg

/-- One pass of the placement loop: the mixed hash goes to the cursor of the block found. -/
def placeOne (seed : UInt64) (bits : Nat) (st : List UInt64 × List Nat) (key : UInt64) :
    Option (List UInt64 × List Nat) := do
  let hash := mixsplit key seed
  let seg := (hash >>> UInt64.ofNat (64 - bits)).toNat
  let seg ← findBlock st.1 st.2 (2 ^ bits) (2 ^ bits) seg
  let pos ← load st.2 seg
  let reverseOrder ← store st.1 pos hash
  let startPos ← store st.2 seg (pos + 1)
  some (reverseOrder, startPos)

/-- The placement loop: all mixed hashes, bucketed by their top `bits` bits. -/
def place (seed : UInt64) (bits size : Nat) (hashed reverseOrder : List UInt64) :
    Option (List UInt64) := do
  let st ← hashed.foldlM (placeOne seed bits) (reverseOrder, startPositions size bits)
  some st.1

/-! ## Counting -/

/-- The state of the counting loop. -/
structure Counts where
  t2count : List UInt8
  t2hash : List UInt64
  hasError : Bool
  duplicate : Bool
deriving DecidableEq

/-- `t2count[i] += 4; t2count[i] ^= f; t2hash[i] ^= hash` (`f = 0` for the first position). -/
def touch (c : Counts) (i : UInt32) (f : UInt8) (hash : UInt64) : Option Counts := do
  let x ← load c.t2count i.toNat
  let t2count ← store c.t2count i.toNat ((x + 4) ^^^ f)
  let y ← load c.t2hash i.toNat
  let t2hash ← store c.t2hash i.toNat (y ^^^ hash)
  some { c with t2count := t2count, t2hash := t2hash }

/-- One pass of the counting loop, with its duplicate test and its overflow test. -/
def countOne (p : Params) (c : Counts) (hash : UInt64) : Option Counts := do
  let (i1, i2, i3) := p.getH012 hash
  let c ← touch c i1 0 hash
  let c ← touch c i2 1 hash
  let c ← touch c i3 2 hash
  let x1 ← load c.t2hash i1.toNat
  let x2 ← load c.t2hash i2.toNat
  let x3 ← load c.t2hash i3.toNat
  let n1 ← load c.t2count i1.toNat
  let n2 ← load c.t2count i2.toNat
  let n3 ← load c.t2count i3.toNat
  if x1 &&& x2 &&& x3 = 0 ∧ (x1 = 0 ∧ n1 = 8 ∨ x2 = 0 ∧ n2 = 8 ∨ x3 = 0 ∧ n3 = 8) then
    some { c with duplicate := true }
  else if n1 < 4 ∨ n2 < 4 ∨ n3 < 4 then some { c with hasError := true }
  else some c

/-- The counting loop over the placed hashes; a duplicate ends it. -/
def countAll (p : Params) : List UInt64 → Counts → Option Counts
  | [], c => some c
  | hash :: rest, c => do
    let c ← countOne p c hash
    if c.duplicate then some c else countAll p rest c

/-! ## Peeling -/

/-- The branch-free computation of the two other positions of `hash`, and of their numbers, from
its position `idx` with number `found`: `((other1, f1), (other2, f2))`. -/
def others (p : Params) (hash : UInt64) (found : UInt8) (idx : UInt32) :
    (UInt32 × UInt8) × (UInt32 × UInt8) :=
  let segLen := p.segmentLength
  let segLenMinus2 : UInt32 := segLen ^^^ (0 - 2 * segLen)
  let h01 := (hash >>> 18).toUInt32 &&& p.segmentLengthMask
  let h02 := hash.toUInt32 &&& p.segmentLengthMask
  let is0 : UInt32 := (0 : UInt32) - ((found - 1) >>> 7).toUInt32
  let is1 : UInt32 := (0 : UInt32) - (found &&& (1 : UInt8)).toUInt32
  let is2 : UInt32 := (0 : UInt32) - (found >>> (1 : UInt8)).toUInt32
  let other1 := idx + (segLen ^^^ (segLenMinus2 &&& is2))
  let other2 := idx - (segLen ^^^ (segLenMinus2 &&& is0))
  let other1 := other1 ^^^ ((h01 &&& ~~~is2) ^^^ (h02 &&& ~~~is0))
  let other2 := other2 ^^^ ((h01 &&& ~~~is0) ^^^ (h02 &&& ~~~is1))
  let f1 := ((is0 &&& 1) ||| (is1 &&& 2)).toUInt8
  let f2 := ((is0 &&& 2) ||| (is2 &&& 1)).toUInt8
  ((other1, f1), (other2, f2))

/-- The state of the peel loop: the worklist is `alone[0..qsize)`, the stack is
`reverse_order[0..stacksize)` with the position numbers in `reverse_h[0..stacksize)`. -/
structure Drain where
  alone : List UInt32
  qsize : Nat
  t2count : List UInt8
  t2hash : List UInt64
  reverseH : List UInt8
  reverseOrder : List UInt64
  stacksize : Nat

/-- The first worklist: every slot is written to `alone[qsize]`, and kept if it is a singleton. -/
def scanAlone (t2count : List UInt8) (arrayLen : Nat) (alone : List UInt32) :
    Option (List UInt32 × Nat) :=
  forUp (fun i st => do
    let alone ← store st.1 st.2 (UInt32.ofNat i)
    let c ← load t2count i
    some (alone, if c >>> 2 = 1 then st.2 + 1 else st.2)) 0 arrayLen (alone, 0)

/-- The update of one neighbour: `other` is written to `alone[qsize]`, and kept if it is about to
become a singleton; then `hash` is taken out of its counter and of its XOR. -/
def Drain.untouch (d : Drain) (other : UInt32) (f : UInt8) (hash : UInt64) : Option Drain := do
  let alone ← store d.alone d.qsize other
  let c ← load d.t2count other.toNat
  let qsize := if c >>> 2 = 2 then d.qsize + 1 else d.qsize
  let t2count ← store d.t2count other.toNat ((c - 4) ^^^ f)
  let x ← load d.t2hash other.toNat
  let t2hash ← store d.t2hash other.toNat (x ^^^ hash)
  some { d with alone := alone, qsize := qsize, t2count := t2count, t2hash := t2hash }

/-- One pass of the peel loop. -/
def Drain.step (p : Params) (d : Drain) : Option (Ctl Drain) :=
  if d.qsize = 0 then some (.stop d)
  else do
    let qsize := d.qsize - 1
    let d : Drain := { d with qsize := qsize }
    let idx ← load d.alone qsize
    let c : UInt8 ← load d.t2count idx.toNat
    if c >>> 2 ≠ 1 then some (.next d)
    else
      let hash ← load d.t2hash idx.toNat
      let found : UInt8 := c &&& 3
      let reverseH ← store d.reverseH d.stacksize found
      let reverseOrder ← store d.reverseOrder d.stacksize hash
      let d := { d with
        reverseH := reverseH, reverseOrder := reverseOrder, stacksize := d.stacksize + 1 }
      let o := others p hash found idx
      let d ← d.untouch o.1.1 o.1.2 hash
      let d ← d.untouch o.2.1 o.2.2 hash
      some (.next d)

/-- Passes that the peel loop can make: each takes a slot off the worklist, and each of at most
`size` removed hashes puts back at most two. -/
def drainFuel (size arrayLen : Nat) : Nat := arrayLen + 2 * size + 1

/-! ## Attempts -/

/-- What `fcm_peel` carries from attempt to attempt. -/
structure PeelState where
  params : Params
  rngCounter : UInt64
  alone : List UInt32
  t2count : List UInt8
  t2hash : List UInt64
  reverseH : List UInt8
  reverseOrder : List UInt64
  startPosCap : Nat

/-- How one attempt ends: `fcm_peel` returns, or tries again. -/
inductive Flow where
  | ret (rc : Rc) (st : PeelState)
  | again (st : PeelState)

/-- `for (i < len) a[i] = 0`. -/
def zeroFill {α : Type} (zero : α) (len : Nat) (a : List α) : Option (List α) :=
  forUp (fun i a => store a i zero) 0 len a

/-- The reset before the next attempt: cleared tables, and the next seed. -/
def PeelState.reset (size : Nat) (st : PeelState) : Option PeelState := do
  let reverseOrder ← zeroFill 0 size st.reverseOrder
  let t2count ← zeroFill 0 st.params.arrayLen.toNat st.t2count
  let t2hash ← zeroFill 0 st.params.arrayLen.toNat st.t2hash
  let (seed, rngCounter) := splitmix64 st.rngCounter
  some { st with
    params := { st.params with seed := seed }, rngCounter := rngCounter
    reverseOrder := reverseOrder, t2count := t2count, t2hash := t2hash }

/-- The body of the attempt loop of `fcm_peel`. -/
def peelIteration (H : Heap) (hashed : List UInt64) (size : UInt32) (iteration : Nat)
    (st : PeelState) : Option Flow := do
  let params := adjustSegments size iteration st.params
  let st := { st with params := params }
  let bits ← blockBits params.segmentCount
  if 2 ^ bits > st.startPosCap ∧ H.ok (.startPos iteration) = false then some (.ret .nomem st)
  else
    let st := { st with startPosCap := max st.startPosCap (2 ^ bits) }
    let reverseOrder ← place params.seed bits size.toNat hashed st.reverseOrder
    let c ← countAll params (reverseOrder.take size.toNat)
      { t2count := st.t2count, t2hash := st.t2hash, hasError := false, duplicate := false }
    let st := { st with reverseOrder := reverseOrder, t2count := c.t2count, t2hash := c.t2hash }
    if c.duplicate then some (.ret .duplicateKey st)
    else if c.hasError then
      let st ← st.reset size.toNat
      some (.again st)
    else
      let arrayLen := params.arrayLen.toNat
      let (alone, qsize) ← scanAlone st.t2count arrayLen st.alone
      let d ← loop (Drain.step params) (drainFuel size.toNat arrayLen)
        { alone := alone, qsize := qsize, t2count := st.t2count, t2hash := st.t2hash
          reverseH := st.reverseH, reverseOrder := st.reverseOrder, stacksize := 0 }
      let st := { st with
        alone := d.alone, t2count := d.t2count, t2hash := d.t2hash
        reverseH := d.reverseH, reverseOrder := d.reverseOrder }
      if d.stacksize = size.toNat then some (.ret .ok st)
      else
        let st ← st.reset size.toNat
        some (.again st)

/-- `FCM_MAX_ITERATIONS`. -/
def MAX_ITERATIONS : Nat := 100

/-- The attempt loop from attempt `iteration` on, with `left` attempts left. -/
def peelFrom (H : Heap) (hashed : List UInt64) (size : UInt32) :
    Nat → Nat → PeelState → Option (Rc × PeelState)
  | 0, _, st => some (.constructFail, st)
  | left + 1, iteration, st => do
    match ← peelIteration H hashed size iteration st with
    | .ret rc st => some (rc, st)
    | .again st => peelFrom H hashed size left (iteration + 1) st

/-- `fcm_peel`: the return code, and what the caller's buffers and `*params` hold. -/
def peel (H : Heap) (hashed : List UInt64) (size : UInt32) (params : Params) (alone : List UInt32)
    (t2count : List UInt8) (t2hash : List UInt64) (reverseH : List UInt8)
    (reverseOrder : List UInt64) : Option (Rc × PeelState) := do
  let (seed, rngCounter) := splitmix64 1
  let reverseOrder ← store reverseOrder size.toNat 1
  peelFrom H hashed size (MAX_ITERATIONS + 1) 0
    { params := { params with seed := seed }, rngCounter := rngCounter
      alone := alone, t2count := t2count, t2hash := t2hash
      reverseH := reverseH, reverseOrder := reverseOrder, startPosCap := 0 }

end FastConstMap
