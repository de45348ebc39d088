import FastConstMap.Peel

/-!
# The maps

The three map structs have the same header fields and differ in their arrays, so they are one
structure over the type of the arrays; the constructors and the lookups are one definition each over
what they do with these arrays (`Layout`).
-/

namespace FastConstMap

open CLoop

/-- `fcm_constmap_t`, `fcm_verified_constmap_t` and `fcm_paired_verified_constmap_t`: the shared
fields, and the arrays that the struct points to. -/
structure MapOf (τ : Type) where
  seed : UInt64
  segmentLength : UInt32
  segmentLengthMask : UInt32
  segmentCount : UInt32
  segmentCountLength : UInt32
  dataLen : UInt32
  n : UInt32
  table : τ
  hash : UInt32
deriving DecidableEq, Repr

/-- The arrays `data` and `checks` of `fcm_verified_constmap_t`. -/
structure Tables where
  data : List UInt64
  checks : List UInt64
deriving DecidableEq, Repr

/-- `fcm_slot_t`. -/
@[ext] structure Slot where
  value : UInt64
  check : UInt64
deriving DecidableEq, Repr

/-- `fcm_constmap_t`: `table` is `data`. -/
abbrev ConstMap := MapOf (List UInt64)

/-- `fcm_verified_constmap_t`. -/
abbrev VerifiedConstMap := MapOf Tables

/-- `fcm_paired_verified_constmap_t`: `table` is `slots`. -/
abbrev PairedVerifiedConstMap := MapOf (List Slot)

/-- What a map type does with its arrays. -/
structure Layout (τ : Type) where
  /-- The null pointers of a zeroed struct. -/
  null : τ
  /-- The buffers that the constructor allocates for the arrays. -/
  buffers : List Buffer
  /-- The zeroed arrays of the given length. -/
  calloc : Nat → τ
  /-- The assignment of the slot `t` of a stack entry: its value and its mixed hash, XORed with what
  the two other slots hold. -/
  put : τ → (t o1 o2 : Nat) → (val hash : UInt64) → Option τ
  /-- The answer of a lookup when `data_len` is 0. -/
  missing : UInt64
  /-- The answer of a single lookup with the given positions and mixed hash. -/
  get : τ → (h0 h1 h2 : Nat) → (hash : UInt64) → Option UInt64
  /-- The answer of a batched lookup with the given positions and mixed hash. -/
  gather : τ → (h0 h1 h2 : Nat) → (hash : UInt64) → Option UInt64

variable {τ : Type}

/-- `memset(out, 0, sizeof(*out))`. -/
def Layout.zeroMap (Ly : Layout τ) : MapOf τ :=
  { seed := 0, segmentLength := 0, segmentLengthMask := 0, segmentCount := 0
    segmentCountLength := 0, dataLen := 0, n := 0, table := Ly.null, hash := 0 }

/-! ## The three layouts -/

/-- `data[h0] ^ data[h1] ^ data[h2]`. -/
def xor3 (data : List UInt64) (h0 h1 h2 : Nat) : Option UInt64 := do
  let x0 ← load data h0
  let x1 ← load data h1
  let x2 ← load data h2
  some (x0 ^^^ x1 ^^^ x2)

/-- `data[t] = x ^ data[o1] ^ data[o2]`. -/
def putWord (data : List UInt64) (t o1 o2 : Nat) (x : UInt64) : Option (List UInt64) := do
  let x1 ← load data o1
  let x2 ← load data o2
  store data t (x ^^^ x1 ^^^ x2)

/-- `fcm_slot_xor3`. -/
def slotXor3 (slots : List Slot) (h0 h1 h2 : Nat) : Option Slot := do
  let r0 ← load slots h0
  let r1 ← load slots h1
  let r2 ← load slots h2
  some ⟨r0.value ^^^ r1.value ^^^ r2.value, r0.check ^^^ r1.check ^^^ r2.check⟩

/-- `slots[t].value = x ^ slots[o1].value ^ slots[o2].value`. -/
def putValue (slots : List Slot) (t o1 o2 : Nat) (x : UInt64) : Option (List Slot) := do
  let r1 ← load slots o1
  let r2 ← load slots o2
  let r ← load slots t
  store slots t { r with value := x ^^^ r1.value ^^^ r2.value }

/-- `slots[t].check = x ^ slots[o1].check ^ slots[o2].check`. -/
def putCheck (slots : List Slot) (t o1 o2 : Nat) (x : UInt64) : Option (List Slot) := do
  let r1 ← load slots o1
  let r2 ← load slots o2
  let r ← load slots t
  store slots t { r with check := x ^^^ r1.check ^^^ r2.check }

/-- The arrays of a `fcm_constmap_t`. -/
def constmapLayout : Layout (List UInt64) where
  null := []
  buffers := [.data]
  calloc len := List.replicate len 0
  put data t o1 o2 val _ := putWord data t o1 o2 val
  missing := 0
  get data h0 h1 h2 _ := xor3 data h0 h1 h2
  gather data h0 h1 h2 _ := xor3 data h0 h1 h2

/-- The arrays of a `fcm_verified_constmap_t`. A single lookup returns before it reads `data` when
the check words do not match; a batched one reads both arrays first. -/
def verifiedLayout : Layout Tables where
  null := ⟨[], []⟩
  buffers := [.data, .checks]
  calloc len := ⟨List.replicate len 0, List.replicate len 0⟩
  put table t o1 o2 val hash := do
    let data ← putWord table.data t o1 o2 val
    let checks ← putWord table.checks t o1 o2 (fingerprint hash)
    some ⟨data, checks⟩
  missing := NOT_FOUND
  get table h0 h1 h2 hash := do
    let fp ← xor3 table.checks h0 h1 h2
    if fp ≠ fingerprint hash then some NOT_FOUND else xor3 table.data h0 h1 h2
  gather table h0 h1 h2 hash := do
    let fp ← xor3 table.checks h0 h1 h2
    let v ← xor3 table.data h0 h1 h2
    some (if fp = fingerprint hash then v else NOT_FOUND)

/-- The slots of a `fcm_paired_verified_constmap_t`. -/
def pairedLayout : Layout (List Slot) where
  null := []
  buffers := [.slots]
  calloc len := List.replicate len ⟨0, 0⟩
  put slots t o1 o2 val hash := do
    let slots ← putValue slots t o1 o2 val
    putCheck slots t o1 o2 (fingerprint hash)
  missing := NOT_FOUND
  get slots h0 h1 h2 hash := do
    let r ← slotXor3 slots h0 h1 h2
    some (if r.check = fingerprint hash then r.value else NOT_FOUND)
  gather slots h0 h1 h2 hash := do
    let r ← slotXor3 slots h0 h1 h2
    some (if r.check = fingerprint hash then r.value else NOT_FOUND)

end FastConstMap
