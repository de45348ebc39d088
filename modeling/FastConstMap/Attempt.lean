import FastConstMap.Peel

/-!
# The construction as a search

What `fcm_peel` is for, without its scratch memory: each attempt is a function of the segment
parameters and of the key hashes, run on clean tables, with the worklist and the stack as lists, and
the first attempt that peels all hashes gives the result. `Proofs.PeelProofs` shows that `fcm_peel`,
which carries its arrays from attempt to attempt, computes the same.
-/

namespace FastConstMap

open CLoop

/-- The state of the peel loop: the worklist and the stack (top first), and the tables. -/
structure Work where
  queue : List UInt32
  stack : List (UInt64 × UInt8)
  t2count : List UInt8
  t2hash : List UInt64
deriving DecidableEq

/-- The update of one neighbour. The worklist has room for `cap` slots, and needs a free one even
when `other` is not kept. -/
def Work.untouch (cap : Nat) (w : Work) (other : UInt32) (f : UInt8) (hash : UInt64) :
    Option Work :=
  if w.queue.length < cap then do
    let c ← load w.t2count other.toNat
    let t2count ← store w.t2count other.toNat ((c - 4) ^^^ f)
    let x ← load w.t2hash other.toNat
    let t2hash ← store w.t2hash other.toNat (x ^^^ hash)
    some { w with
      queue := if c >>> 2 = 2 then other :: w.queue else w.queue
      t2count := t2count, t2hash := t2hash }
  else none

/-- One pass of the peel loop; the stack has room for `size` hashes. -/
def Work.step (p : Params) (cap size : Nat) (w : Work) : Option (Ctl Work) :=
  match w.queue with
  | [] => some (.stop w)
  | idx :: queue => do
    let c : UInt8 ← load w.t2count idx.toNat
    if c >>> 2 ≠ 1 then some (.next { w with queue := queue })
    else
      let hash ← load w.t2hash idx.toNat
      let found : UInt8 := c &&& 3
      if w.stack.length < size then
        let w : Work := { w with queue := queue, stack := (hash, found) :: w.stack }
        let o := others p hash found idx
        let w ← w.untouch cap o.1.1 o.1.2 hash
        let w ← w.untouch cap o.2.1 o.2.2 hash
        some (.next w)
      else none

/-- The first worklist: the slots that are singletons, the last one on top. -/
def singletons (t2count : List UInt8) (arrayLen : Nat) : List UInt32 :=
  (((List.range arrayLen).filter fun i => (load t2count i).any fun c : UInt8 => c >>> 2 = 1).map
    UInt32.ofNat).reverse

/-- How one attempt ends. -/
inductive Attempt where
  | duplicate
  | failed
  /-- All hashes are on the stack, top first, each with the number of the position it was popped
  at. -/
  | peeled (stack : List (UInt64 × UInt8))
deriving DecidableEq

/-- The end of an attempt that counted `size` hashes into the given tables. -/
def peelTables (p : Params) (size : Nat) (t2count : List UInt8) (t2hash : List UInt64) :
    Option Attempt := do
  let arrayLen := p.arrayLen.toNat
  let w ← loop (Work.step p arrayLen size) (drainFuel size arrayLen)
    { queue := singletons t2count arrayLen, stack := [], t2count := t2count, t2hash := t2hash }
  some (if w.stack.length = size then .peeled w.stack else .failed)

/-- One attempt on cleared tables. -/
def attempt (p : Params) (hashed : List UInt64) : Option Attempt := do
  let size := hashed.length
  let arrayLen := p.arrayLen.toNat
  let bits ← blockBits p.segmentCount
  let reverseOrder ← place p.seed bits size hashed (List.replicate size 0 ++ [1])
  let c ← countAll p (reverseOrder.take size)
    { t2count := List.replicate arrayLen 0, t2hash := List.replicate arrayLen 0
      hasError := false, duplicate := false }
  if c.duplicate then some .duplicate
  else if c.hasError then some .failed
  else peelTables p size c.t2count c.t2hash

/-- How the search ends: with the return code, and with the parameters and the stack of the attempt
that succeeded. -/
inductive Outcome where
  | duplicateKey
  | constructFail
  | ok (p : Params) (stack : List (UInt64 × UInt8))
deriving DecidableEq

def Outcome.rc : Outcome → Rc
  | .duplicateKey => .duplicateKey
  | .constructFail => .constructFail
  | .ok _ _ => .ok

/-- The parameters of attempt `k`, before its seed: the initial ones, halved when `k % 4 = 2` and the
number of keys is in the range where the length varies. -/
def Params.atAttempt (p : Params) (size : UInt32) (k : Nat) : Params :=
  if (4 < size ∧ size < 1000000) ∧ k % 4 = 2 then p.halve else p

/-- The same segments with another seed. -/
def Params.withSeed (p : Params) (seed : UInt64) : Params := { p with seed := seed }

/-- The parameters of attempt `k` with the seed that the counter `rng` gives. -/
def Params.seeded (p : Params) (size : UInt32) (k : Nat) (rng : UInt64) : Params :=
  (p.atAttempt size k).withSeed (splitmix64 rng).1

/-- The attempts from `iteration` on, `left` of them; `rng` is the counter that gave the seed of
the first. -/
def searchFrom (p : Params) (size : UInt32) (hashed : List UInt64) :
    (left iteration : Nat) → (rng : UInt64) → Option Outcome
  | 0, _, _ => some .constructFail
  | left + 1, iteration, rng => do
    match ← attempt (p.seeded size iteration rng) hashed with
    | .duplicate => some .duplicateKey
    | .failed => searchFrom p size hashed left (iteration + 1) (splitmix64 rng).2
    | .peeled stack => some (.ok (p.seeded size iteration rng) stack)

/-- The search of `fcm_peel`. -/
def search (p : Params) (size : UInt32) (hashed : List UInt64) : Option Outcome :=
  searchFrom p size hashed (MAX_ITERATIONS + 1) 0 1

end FastConstMap
