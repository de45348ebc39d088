import FastConstMap.Construct
import FastConstMap.Serial
import FastConstMap.Lib.Heaps

/-!
# The memory of the core

What `fcm_peel`, the constructors, the readers and `fcm_*_free` allocate and free. Each function here is
the one of the same name with the blocks of the heap; a call of `free` on a block that is not live is
undefined.
-/

namespace FastConstMap

open CLoop Heaps

variable {τ : Type}

/-! ## Construction -/

/-- The growth of `start_pos` at the head of an attempt. If `realloc` fails, the old block is still
there. -/
def growStartPos (H : Heap) (iteration bits cap : Nat) (startPos : Ptr) (M : Mem) :
    Option (Ptr × Mem) :=
  if 2 ^ bits > cap then do
    let (np, M) ← realloc (H.ok (.startPos iteration)) startPos M
    some (if np = none then startPos else np, M)
  else some (startPos, M)

/-- The attempt loop of `fcm_peel`, with the block of `start_pos`: it is freed wherever the function
returns. -/
def peelFromMem (H : Heap) (hashed : List UInt64) (size : UInt32) :
    Nat → Nat → PeelState → Ptr → Mem → Option (Rc × PeelState × Mem)
  | 0, _, st, startPos, M => do
    let M ← free startPos M
    some (.constructFail, st, M)
  | left + 1, iteration, st, startPos, M => do
    let bits ← blockBits (adjustSegments size iteration st.params).segmentCount
    let (startPos, M) ← growStartPos H iteration bits st.startPosCap startPos M
    match ← peelIteration H hashed size iteration st with
    | .ret rc st => do
      let M ← free startPos M
      some (rc, st, M)
    | .again st => peelFromMem H hashed size left (iteration + 1) st startPos M

/-- `fcm_peel`. -/
def peelMem (H : Heap) (hashed : List UInt64) (size : UInt32) (params : Params) (alone : List UInt32)
    (t2count : List UInt8) (t2hash : List UInt64) (reverseH : List UInt8)
    (reverseOrder : List UInt64) (M : Mem) : Option (Rc × PeelState × Mem) := do
  let (seed, rngCounter) := splitmix64 1
  let reverseOrder ← store reverseOrder size.toNat 1
  peelFromMem H hashed size (MAX_ITERATIONS + 1) 0
    { params := { params with seed := seed }, rngCounter := rngCounter
      alone := alone, t2count := t2count, t2hash := t2hash
      reverseH := reverseH, reverseOrder := reverseOrder, startPosCap := 0 } none M

/-- The buffers that a constructor allocates after the arrays. -/
def laterBuffers : List Buffer := [.alone, .t2count, .t2hash, .reverseH, .reverseOrder, .pairs]

/-- The allocations of a constructor: `hashed`, the arrays and the other buffers. -/
def allocBuffers (Ly : Layout τ) (H : Heap) (M : Mem) : Ptr × List Ptr × List Ptr × Mem :=
  let (hashedPtr, M) := malloc (H.ok .hashed) M
  let (arrays, M) := mallocAll (Ly.buffers.map H.ok) M
  let (later, M) := mallocAll (laterBuffers.map H.ok) M
  (hashedPtr, arrays, later, M)

/-- The body shared by the three `fcm_*_new_with_hash`: the return code, the new `*out` and the pointers
to its arrays. On success the pointers move to `*out`, and the cleanup frees null pointers for them. -/
def newWithHashMem (Ly : Layout τ) (E : Env) (H : Heap) (out : MapOf τ)
    (entries : List (Bytes × UInt64)) (hash : UInt32) (M : Mem) :
    Option (Rc × MapOf τ × List Ptr × Mem) :=
  if hash ≠ HASH_XXH64 ∧ hash ≠ HASH_XXH3 then some (.invalidFormat, out, [], M)
  else
    let out := { Ly.zeroMap with hash := hash }
    let n := entries.length
    if n = 0 then some (.ok, out, [], M)
    else if n > 0xFFFFFFFF then some (.lengthMismatch, out, [], M)
    else
      let size := UInt32.ofNat n
      let params := initParams E.libm size
      let arrayLen := params.arrayLen.toNat
      let (hashedPtr, arrays, later, M) := allocBuffers Ly H M
      if none ∈ hashedPtr :: (arrays ++ later) then do
        let M ← freeAll (hashedPtr :: (arrays ++ later)) M
        some (.nomem, out, [], M)
      else do
        let hashed := entries.map fun e => hashKey E.keyHash hash e.1
        let (rc, st, M) ← peelMem H hashed size params
          (H.malloc .alone arrayLen UInt64.toUInt32) (List.replicate arrayLen 0)
          (List.replicate arrayLen 0) (H.malloc .reverseH n UInt64.toUInt8)
          (List.replicate (n + 1) 0) M
        if rc ≠ .ok then do
          let M ← freeAll (hashedPtr :: (arrays ++ later)) M
          some (rc, out, [], M)
        else
          let p := st.params
          let pairs := List.zipWith (fun h e => (⟨mixsplit h p.seed, e.2⟩ : Pair)) hashed entries
          let pairs := E.qsort.sort pairs
          let table ← assign Ly p pairs n size st.reverseOrder st.reverseH (Ly.calloc arrayLen)
          let M ← freeAll (hashedPtr :: later) M
          some (.ok,
            { seed := p.seed
              segmentLength := p.segmentLength
              segmentLengthMask := p.segmentLengthMask
              segmentCount := p.segmentCount
              segmentCountLength := p.segmentCountLength
              dataLen := p.arrayLen
              n := size
              table := table
              hash := hash }, arrays, M)

/-! ## Readers -/

/-- The body shared by the three `fcm_*_read`. Only the verified map has two arrays, of which one may
have to be freed when the other cannot be allocated; for the others there is nothing to free then. -/
def readMem (Cd : Codec τ) (w : Nat) (H : Heap) (p : Bytes) (M : Mem) :
    Option (Rc × MapOf τ × List Ptr × Mem) := do
  match ← parse w Cd.formats Cd.entryBytes p with
  | .error rc => some (rc, Cd.layout.zeroMap, [], M)
  | .ok h =>
    if Cd.paramsOk h.segmentLength h.segmentCount h.dataLen = false then
      some (.invalidParams, Cd.layout.zeroMap, [], M)
    else if h.dataLen > 0 then
      let (arrays, M) := mallocAll (Cd.layout.buffers.map H.ok) M
      if none ∈ arrays then do
        let M ← freeAll arrays M
        some (.nomem, Cd.layout.zeroMap, [], M)
      else do
        let table ← Cd.decode w p h.payload h.dataLen.toNat
        some (.ok, setHeader h table, arrays, M)
    else some (.ok, setHeader h Cd.layout.null, [], M)

/-! ## Programs -/

/-- A program that uses the core: the heap, the array pointers of its structs, of which a zeroed one has
none, and the pointers that were overwritten in a struct. -/
structure CoreState where
  mem : Mem
  structs : List (List Ptr)
  lost : List Ptr

/-- What a program does: it zeroes a new struct, or calls a constructor, a reader or `fcm_*_free` on the
struct `i`. -/
inductive CoreCall where
  | zero
  | new (i : Nat) (rc : Rc)
  | read (i : Nat) (rc : Rc)
  | free (i : Nat)

/-- The struct `i`, which has the pointers `old`, gets the pointers `arrays`. -/
def CoreState.overwrite (s : CoreState) (i : Nat) (old arrays : List Ptr) (M : Mem) : CoreState :=
  ⟨M, s.structs.set i arrays, old ++ s.lost⟩

/-- One call, with any allocator, on any struct. A constructor that does not know the hash leaves the struct
alone; otherwise it zeroes the struct first, as a reader does, whatever is in it. -/
inductive CoreStep : CoreState → CoreCall → CoreState → Prop where
  | zero {s : CoreState} : CoreStep s .zero ⟨s.mem, s.structs ++ [[]], s.lost⟩
  | new {s : CoreState} {i : Nat} {old : List Ptr} {τ : Type} {Ly : Layout τ} {E : Env} {H : Heap}
      {out : MapOf τ} {entries : List (Bytes × UInt64)} {hash : UInt32} {rc : Rc} {m : MapOf τ}
      {arrays : List Ptr} {M : Mem} (hi : s.structs[i]? = some old)
      (h : newWithHashMem Ly E H out entries hash s.mem = some (rc, m, arrays, M)) :
      CoreStep s (.new i rc) (if KnownHash hash then s.overwrite i old arrays M else s)
  | read {s : CoreState} {i : Nat} {old : List Ptr} {τ : Type} {Cd : Codec τ} {w : Nat} {H : Heap}
      {p : Bytes} {rc : Rc} {m : MapOf τ} {arrays : List Ptr} {M : Mem}
      (hi : s.structs[i]? = some old) (h : readMem Cd w H p s.mem = some (rc, m, arrays, M)) :
      CoreStep s (.read i rc) (s.overwrite i old arrays M)
  | free {s : CoreState} {i : Nat} {arrays : List Ptr} {M : Mem} (hi : s.structs[i]? = some arrays)
      (h : freeAll arrays s.mem = some M) :
      CoreStep s (.free i) ⟨M, s.structs.set i [], s.lost⟩

/-- A call that gives a struct to a constructor or a reader only if it has no arrays. -/
def CoreCall.Careful (s : CoreState) : CoreCall → Prop
  | .new i _ => s.structs[i]? = some []
  | .read i _ => s.structs[i]? = some []
  | _ => True

/-- Nothing has been allocated yet. -/
def CoreState.Initial (s : CoreState) : Prop := s.mem = ⟨0, []⟩ ∧ s.structs = [] ∧ s.lost = []

end FastConstMap
