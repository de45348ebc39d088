import FastConstMap.Python
import FastConstMap.Serial

/-!
# The life of a Python object

One object of the three Python types, from its allocation to its deallocation, under any number of
concurrent calls of `__init__`. A call converts its dict, builds its map without holding the lock, and
then checks the object and installs the map in one atomic step; the class methods `from_bytes`, `load` and
`from_buffer` fill an object that no other thread sees yet.
-/

namespace FastConstMap

variable {τ : Type}

/-! ## Objects and memory -/

/-- A Python type: what its methods do with the arrays of its map, and its name. -/
structure PyType (τ : Type) where
  codec : Codec τ
  name : String

/-- `PyConstMapType`. -/
def constMapType : PyType (List UInt64) := { codec := constmapCodec, name := "ConstMap" }

/-- `PyVerifiedConstMapType`. -/
def verifiedConstMapType : PyType Tables := { codec := verifiedCodec, name := "VerifiedConstMap" }

/-- `PyPairedVerifiedConstMapType`. -/
def pairedVerifiedConstMapType : PyType (List Slot) :=
  { codec := pairedCodec, name := "PairedVerifiedConstMap" }

/-- Where the array pointers of a map point to: nowhere, to memory from `malloc` (the arrays of one map
are one piece), or into the buffer of another Python object. -/
inductive Storage where
  | null
  | heap (id : Nat)
  | buffer (exporter : Nat)
deriving DecidableEq

/-- `PyConstMap`, `PyVerifiedConstMap` and `PyPairedVerifiedConstMap`; `view` is `view.obj`. -/
structure PyStruct (τ : Type) where
  map : MapOf τ
  storage : Storage
  view : Option Nat
  initialized : Bool

/-- What `tp_alloc` leaves. -/
def PyStruct.alloc (Ly : Layout τ) : PyStruct τ :=
  { map := Ly.zeroMap, storage := .null, view := none, initialized := false }

/-- The memory: how many pieces were allocated, what was passed to `fcm_*_free`, and which buffers to
`PyBuffer_Release`, the last one first. -/
structure Memory where
  built : Nat
  freed : List Storage
  released : List Nat

/-- The arrays of a map with `len` entries or slots: null pointers if there are none. -/
def Memory.malloc (M : Memory) (len : Nat) : Storage × Memory :=
  if len = 0 then (.null, M) else (.heap M.built, { M with built := M.built + 1 })

/-- `fcm_*_free`; `free` ignores a null pointer. -/
def Memory.free (M : Memory) : Storage → Memory
  | .null => M
  | .heap id => { M with freed := .heap id :: M.freed }
  | .buffer exporter => { M with freed := .buffer exporter :: M.freed }

/-- `PyBuffer_Release`. -/
def Memory.releaseBuffer (M : Memory) (exporter : Nat) : Memory :=
  { M with released := exporter :: M.released }

/-- `pyconstmap_release`, `pyverified_release` and `pypaired_release`. -/
def PyStruct.release (Ly : Layout τ) (o : PyStruct τ) (M : Memory) : PyStruct τ × Memory :=
  let (o, M) := match o.view with
    | some exporter => ({ o with view := none, storage := .null }, M.releaseBuffer exporter)
    | none => (o, M)
  ({ o with map := Ly.zeroMap, storage := .null }, M.free o.storage)

/-! ## Calls of `__init__` -/

/-- The arguments of `__init__`, converted: the hash and the entries. -/
def convertArgs (alloc : Bool) (mapping : PyArg) (hashName : Option String) :
    PyResult (UInt32 × List (Bytes × UInt64)) := do
  let hash ← parseHash hashName
  let entries ← dictToArrays alloc mapping
  .ok (hash, entries)

/-- How far a call of `__init__` has got. -/
inductive InitCall (τ : Type) where
  | idle
  | building (hash : UInt32) (entries : List (Bytes × UInt64))
  /-- It has built a map, and has not looked at the object yet. -/
  | built (map : MapOf τ) (storage : Storage)
  /-- It has found the object initialized, and still has its own map. -/
  | refused (storage : Storage)
  /-- It has returned; `own` is where the map was that it built, if it built one. -/
  | done (result : PyResult Unit) (own : Option Storage)

/-- A call that does not run, and so holds no reference to the object. -/
def InitCall.Resting : InitCall τ → Prop
  | .idle => True
  | .done _ _ => True
  | _ => False

/-! ## States and steps -/

/-- The life of an object. -/
inductive Life where
  | unborn
  /-- Allocated by `from_bytes` or `load`, which have not read the map yet. -/
  | reading
  /-- Allocated by `from_buffer`, which has a buffer of the exporter. -/
  | viewing (exporter : Nat)
  /-- The map points into the buffer, but `view` is not stored in the object yet. -/
  | viewed (exporter : Nat)
  /-- Returned to Python. -/
  | live
  | dead
deriving DecidableEq

/-- The object, the calls of its `__init__` by number, and the memory; `installs` counts the maps that
were installed in the object. -/
structure World (τ : Type) where
  life : Life
  obj : PyStruct τ
  calls : Nat → InitCall τ
  mem : Memory
  installs : Nat

/-- Before the object is allocated. -/
def World.Initial (s : World τ) : Prop :=
  s.life = .unborn ∧ (∀ c, s.calls c = .idle) ∧ s.mem = ⟨0, [], []⟩ ∧ s.installs = 0

/-- The call `c` gets to `x`. -/
def World.setCall (s : World τ) (c : Nat) (x : InitCall τ) : World τ :=
  { s with calls := Function.update s.calls c x }

/-- `tp_dealloc`. -/
def World.dealloc (Ly : Layout τ) (s : World τ) : World τ :=
  let (obj, mem) := s.obj.release Ly s.mem
  { s with life := .dead, obj := obj, mem := mem }

/-- Who takes a step: the class methods and the deallocation, or a call of `__init__`. -/
inductive Actor where
  | object
  | init (c : Nat)

/-- The steps of the class methods, of the deallocation and of the calls of `__init__`; `w` is the size of
`size_t` and `le` says whether the host is little-endian. -/
inductive Step (T : PyType τ) (E : Env) (w : Nat) (le : Bool) : World τ → Actor → World τ → Prop
  /-- `tp_new`. -/
  | new {s : World τ} : s.life = .unborn →
      Step T E w le s .object { s with life := .live, obj := .alloc T.codec.layout }
  /-- `from_bytes` and `load`, up to the `memset`. -/
  | allocRead {s : World τ} : s.life = .unborn →
      Step T E w le s .object { s with life := .reading, obj := .alloc T.codec.layout }
  | readOk {s : World τ} {H : Heap} {p : Bytes} {m : MapOf τ} : s.life = .reading →
      read T.codec w H p = some (.ok, m) →
      Step T E w le s .object { s with
        life := .live
        obj := { s.obj with
          map := m, storage := (s.mem.malloc m.dataLen.toNat).1, initialized := true }
        mem := (s.mem.malloc m.dataLen.toNat).2, installs := s.installs + 1 }
  /-- The reader has left null pointers; `Py_DECREF` deallocates the object. -/
  | readError {s : World τ} {H : Heap} {p : Bytes} {rc : Rc} {m : MapOf τ} : s.life = .reading →
      read T.codec w H p = some (rc, m) → rc ≠ .ok →
      Step T E w le s .object
        (World.dealloc T.codec.layout { s with obj := { s.obj with map := m } })
  /-- `from_buffer`, up to `tp_alloc`. -/
  | allocView {s : World τ} {exporter : Nat} : s.life = .unborn →
      Step T E w le s .object { s with life := .viewing exporter, obj := .alloc T.codec.layout }
  | viewOk {s : World τ} {exporter addr : Nat} {p : Bytes} {m : MapOf τ} :
      s.life = .viewing exporter → view T.codec w le addr p = some (.ok, m) →
      Step T E w le s .object { s with
        life := .viewed exporter
        obj := { s.obj with map := m, storage := .buffer exporter } }
  /-- The view has left null pointers; the local buffer is released. -/
  | viewError {s : World τ} {exporter addr : Nat} {p : Bytes} {rc : Rc} {m : MapOf τ} :
      s.life = .viewing exporter → view T.codec w le addr p = some (rc, m) → rc ≠ .ok →
      Step T E w le s .object (World.dealloc T.codec.layout { s with
        obj := { s.obj with map := m }, mem := s.mem.releaseBuffer exporter })
  | keepView {s : World τ} {exporter : Nat} : s.life = .viewed exporter →
      Step T E w le s .object { s with
        life := .live
        obj := { s.obj with view := some exporter, initialized := true }
        installs := s.installs + 1 }
  /-- The last reference to the object is gone. -/
  | dealloc {s : World τ} : s.life = .live → (∀ c, (s.calls c).Resting) →
      Step T E w le s .object (s.dealloc T.codec.layout)
  /-- `PyArg_ParseTupleAndKeywords` raises an exception. -/
  | badArgs {s : World τ} {c : Nat} {e : PyErr} : s.life = .live → s.calls c = .idle →
      Step T E w le s (.init c) (s.setCall c (.done (.error e) none))
  | convertError {s : World τ} {c : Nat} {alloc : Bool} {mapping : PyArg} {hashName : Option String}
      {e : PyErr} : s.life = .live → s.calls c = .idle →
      convertArgs alloc mapping hashName = .error e →
      Step T E w le s (.init c) (s.setCall c (.done (.error e) none))
  | convert {s : World τ} {c : Nat} {alloc : Bool} {mapping : PyArg} {hashName : Option String}
      {hash : UInt32} {entries : List (Bytes × UInt64)} : s.life = .live → s.calls c = .idle →
      convertArgs alloc mapping hashName = .ok (hash, entries) →
      Step T E w le s (.init c) (s.setCall c (.building hash entries))
  | buildError {s : World τ} {c : Nat} {hash : UInt32} {entries : List (Bytes × UInt64)} {H : Heap}
      {rc : Rc} {m : MapOf τ} : s.calls c = .building hash entries →
      newWithHash T.codec.layout E H T.codec.layout.zeroMap entries hash = some (rc, m) → rc ≠ .ok →
      Step T E w le s (.init c) (s.setCall c (.done (.error (setPythonError rc)) none))
  | build {s : World τ} {c : Nat} {hash : UInt32} {entries : List (Bytes × UInt64)} {H : Heap}
      {m : MapOf τ} : s.calls c = .building hash entries →
      newWithHash T.codec.layout E H T.codec.layout.zeroMap entries hash = some (.ok, m) →
      Step T E w le s (.init c) { s with
        calls := Function.update s.calls c (.built m (s.mem.malloc entries.length).1)
        mem := (s.mem.malloc entries.length).2 }
  /-- The critical section, for an object without a map. -/
  | install {s : World τ} {c : Nat} {m : MapOf τ} {st : Storage} : s.calls c = .built m st →
      s.obj.initialized = false →
      Step T E w le s (.init c) { s with
        obj := { s.obj with map := m, storage := st, initialized := true }
        calls := Function.update s.calls c (.done (.ok ()) (some st))
        installs := s.installs + 1 }
  /-- The critical section, for an object that holds a map. -/
  | refuse {s : World τ} {c : Nat} {m : MapOf τ} {st : Storage} : s.calls c = .built m st →
      s.obj.initialized = true → Step T E w le s (.init c) (s.setCall c (.refused st))
  /-- `fcm_*_free(&built)` and `fcm_already_initialized`. -/
  | discard {s : World τ} {c : Nat} {st : Storage} : s.calls c = .refused st →
      Step T E w le s (.init c) { s with
        calls := Function.update s.calls c
          (.done (.error (alreadyInitialized T.name)) (some st))
        mem := s.mem.free st }

end FastConstMap
