import FastConstMap.Maps

/-!
# The constructors (`fcm_*_new_with_hash`)

The keys are hashed, peeled, and assigned in the reverse of the peeling order, with the value of each
mixed hash found by binary search in the sorted `(hash, value)` pairs.
-/

namespace FastConstMap

open CLoop

variable {τ : Type}

/-! ## Sorted pairs -/

/-- `fcm_pair_t`. -/
structure Pair where
  hash : UInt64
  value : UInt64
deriving DecidableEq, Repr

/-- `fcm_pair_cmp`. -/
def pairCmp (a b : Pair) : Int :=
  if a.hash < b.hash then -1 else if a.hash > b.hash then 1 else 0

/-- `qsort` with `fcm_pair_cmp`: some sort, not necessarily a stable one. -/
structure Qsort where
  sort : List Pair → List Pair
  perm : ∀ l, (sort l).Perm l
  sorted : ∀ l, (sort l).Pairwise fun a b => pairCmp a b ≤ 0

/-- One pass of the binary search of `fcm_pair_lookup`, on `(lo, hi)`. -/
def pairSearchStep (pairs : List Pair) (h : UInt64) (s : Nat × Nat) : Option (Ctl (Nat × Nat)) :=
  if s.1 < s.2 then do
    let mid := s.1 + (s.2 - s.1) / 2
    let x ← load pairs mid
    if x.hash < h then some (.next (mid + 1, s.2)) else some (.next (s.1, mid))
  else some (.stop s)

/-- `fcm_pair_lookup`. -/
def pairLookup (pairs : List Pair) (n : Nat) (h : UInt64) : Option UInt64 := do
  let s ← loop (pairSearchStep pairs h) (n + 1) (0, n)
  let x ← load pairs s.1
  some x.value

/-! ## Construction -/

/-- The buffers that all constructors allocate up front. -/
def scratchBuffers : List Buffer :=
  [.hashed, .alone, .t2count, .t2hash, .reverseH, .reverseOrder, .pairs]

/-- The contents of a buffer of `len` cells after `malloc`. -/
def Heap.malloc {α : Type} (H : Heap) (b : Buffer) (len : Nat) (cast : UInt64 → α) : List α :=
  (List.range len).map fun i => cast (H.junk b i)

/-- `(int32_t)x - 1`: the conversion wraps, the subtraction must not overflow. -/
def int32Pred (x : UInt32) : Option Int :=
  let i : Int := if x.toNat < 2 ^ 31 then x.toNat else (x.toNat : Int) - 2 ^ 32
  if i - 1 < -2 ^ 31 then none else some (i - 1)

/-- One pass of the assignment loop: the stack entry `i` gets its value. -/
def assignOne (Ly : Layout τ) (p : Params) (pairs : List Pair) (n : Nat)
    (reverseOrder : List UInt64) (reverseH : List UInt8) (i : Nat) (table : τ) : Option τ := do
  let hash ← load reverseOrder i
  let val ← pairLookup pairs n hash
  let (i1, i2, i3) := p.getH012 hash
  let found ← load reverseH i
  let h012 := [i1, i2, i3, i1, i2]
  let t ← load h012 found.toNat
  let o1 ← load h012 (found.toNat + 1)
  let o2 ← load h012 (found.toNat + 2)
  Ly.put table t.toNat o1.toNat o2.toNat val hash

/-- The assignment phase: `for (int32_t i = (int32_t)size - 1; i >= 0; i--)`. -/
def assign (Ly : Layout τ) (p : Params) (pairs : List Pair) (n : Nat) (size : UInt32)
    (reverseOrder : List UInt64) (reverseH : List UInt8) (table : τ) : Option τ := do
  let start ← int32Pred size
  forDown (assignOne Ly p pairs n reverseOrder reverseH) (start + 1).toNat table

/-- What a constructor relies on: the key hashes, `libm` and `qsort`. -/
structure Env where
  keyHash : KeyHash
  libm : Libm
  qsort : Qsort

/-- The body shared by the three `fcm_*_new_with_hash`: the return code and the new `*out`. The
entry `i` is `(keys[i], values[i])`, and `n` is their number; `out` is not a null pointer. -/
def newWithHash (Ly : Layout τ) (E : Env) (H : Heap) (out : MapOf τ)
    (entries : List (Bytes × UInt64)) (hash : UInt32) : Option (Rc × MapOf τ) :=
  if hash ≠ HASH_XXH64 ∧ hash ≠ HASH_XXH3 then some (.invalidFormat, out)
  else
    let out := { Ly.zeroMap with hash := hash }
    let n := entries.length
    if n = 0 then some (.ok, out)
    else if n > 0xFFFFFFFF then some (.lengthMismatch, out)
    else
      let size := UInt32.ofNat n
      let params := initParams E.libm size
      let arrayLen := params.arrayLen.toNat
      if ¬ (∀ b ∈ scratchBuffers ++ Ly.buffers, H.ok b = true) then some (.nomem, out)
      else do
        let hashed := entries.map fun e => hashKey E.keyHash hash e.1
        let (rc, st) ← peel H hashed size params
          (H.malloc .alone arrayLen UInt64.toUInt32) (List.replicate arrayLen 0)
          (List.replicate arrayLen 0) (H.malloc .reverseH n UInt64.toUInt8)
          (List.replicate (n + 1) 0)
        if rc ≠ .ok then some (rc, out)
        else
          let p := st.params
          let pairs := List.zipWith (fun h e => (⟨mixsplit h p.seed, e.2⟩ : Pair)) hashed entries
          let pairs := E.qsort.sort pairs
          let table ← assign Ly p pairs n size st.reverseOrder st.reverseH (Ly.calloc arrayLen)
          some (.ok,
            { seed := p.seed
              segmentLength := p.segmentLength
              segmentLengthMask := p.segmentLengthMask
              segmentCount := p.segmentCount
              segmentCountLength := p.segmentCountLength
              dataLen := p.arrayLen
              n := size
              table := table
              hash := hash })

/-! ## The three constructors -/

/-- `fcm_constmap_new_with_hash`. -/
def constmapNewWithHash (E : Env) (H : Heap) (out : ConstMap) (entries : List (Bytes × UInt64))
    (hash : UInt32) : Option (Rc × ConstMap) :=
  newWithHash constmapLayout E H out entries hash

/-- `fcm_verified_constmap_new_with_hash`. -/
def verifiedConstmapNewWithHash (E : Env) (H : Heap) (out : VerifiedConstMap)
    (entries : List (Bytes × UInt64)) (hash : UInt32) : Option (Rc × VerifiedConstMap) :=
  newWithHash verifiedLayout E H out entries hash

/-- `fcm_paired_verified_constmap_new_with_hash`. -/
def pairedVerifiedConstmapNewWithHash (E : Env) (H : Heap) (out : PairedVerifiedConstMap)
    (entries : List (Bytes × UInt64)) (hash : UInt32) : Option (Rc × PairedVerifiedConstMap) :=
  newWithHash pairedLayout E H out entries hash

end FastConstMap
