import FastConstMap.Memory
import FastConstMap.Persist

/-!
# What the Python methods own

The blocks that the methods of the three types allocate, and the references to other Python objects that
they take: to the tuple of the keys, to the exporter of a buffer, to a path. Each function here is the one
of the same name with its memory; it is undefined where it uses or drops a reference to an object that is
not alive.
-/

namespace FastConstMap

open CLoop Heaps

variable {τ : Type}

/-- The blocks of the C library, of which a `FILE` is one, and the references to Python objects; a
`Py_buffer` is a reference to its exporter. -/
structure PyMem where
  heap : Mem
  refs : Mem

/-- What an object of the three types owns: how many references there are to it, the arrays of its map,
and `view.obj`. -/
structure PyHeld where
  refs : Nat
  arrays : List Ptr
  view : Option Nat
  initialized : Bool

/-- `pyconstmap_release`, `pyverified_release` and `pypaired_release`: the arrays of a view are not its
own. -/
def PyHeld.release (o : PyHeld) (M : PyMem) : Option PyMem :=
  match o.view with
  | some exporter => do
    let refs ← free (some exporter) M.refs
    some ⟨M.heap, refs⟩
  | none => do
    let heap ← freeAll o.arrays M.heap
    some ⟨heap, M.refs⟩

/-- `Py_DECREF` of an object: what is left of it. -/
def PyHeld.decref (o : PyHeld) (M : PyMem) : Option (Option PyHeld × PyMem) :=
  if o.refs - 1 = 0 then do
    let M ← o.release M
    some (none, M)
  else some (some { o with refs := o.refs - 1 }, M)

/-! ## Construction -/

/-- Whether `fcm_dict_to_arrays` gets its tuple and its two arrays. -/
structure DictAllocs where
  keep : Bool
  keys : Bool
  vals : Bool

/-- What `fcm_dict_to_arrays` hands out: the tuple `keep`, the keys in it, and the arrays. -/
structure DictArrays where
  keep : Nat
  items : List Nat
  keys : Ptr
  vals : Ptr

/-- The loop of `fcm_dict_to_arrays`: a key that can be converted goes to `keep` before its value is
looked at. The object behind a key is `obj key`. -/
def keepItems (obj : PyObj → Nat) :
    List (PyObj × PyObj) → List Nat → Mem → Option (PyResult (List (Bytes × UInt64)) × List Nat × Mem)
  | [], kept, refs => some (.ok [], kept, refs)
  | e :: items, kept, refs =>
    match keyFromObject "all keys must be str (or bytes); got " e.1 with
    | .error err => some (.error err, kept, refs)
    | .ok key => do
      let refs ← incref (obj e.1) refs
      let kept := obj e.1 :: kept
      match valueFromObject e.2 with
      | .error err => some (.error err, kept, refs)
      | .ok value => do
        let (r, kept, refs) ← keepItems obj items kept refs
        some (r.map fun entries => (key, value) :: entries, kept, refs)

/-- `fcm_dict_to_arrays`. -/
def dictToArraysMem (A : DictAllocs) (obj : PyObj → Nat) (mapping : PyArg) (M : PyMem) :
    Option (PyResult (List (Bytes × UInt64) × DictArrays) × PyMem) :=
  match mapping with
  | .obj _ => some (.error (.typeError "expected a dict"), M)
  | .dict d =>
    match malloc A.keep M.refs with
    | (none, refs) => some (.error .memoryError, ⟨M.heap, refs⟩)
    | (some keep, refs) => do
      let (keys, heap) := malloc A.keys M.heap
      let (vals, heap) := malloc A.vals heap
      if keys = none ∨ vals = none then do
        let heap ← freeAll [keys, vals] heap
        let refs ← free (some keep) refs
        some (.error .memoryError, ⟨heap, refs⟩)
      else do
        let (r, items, refs) ← keepItems obj d.items [] refs
        match r with
        | .error e => do
          let heap ← freeAll [keys, vals] heap
          let refs ← freeAll (some keep :: items.map some) refs
          some (.error e, ⟨heap, refs⟩)
        | .ok entries => some (.ok (entries, ⟨keep, items, keys, vals⟩), ⟨heap, refs⟩)

/-- A call of `__init__` on the object `self` that builds its map without the lock. -/
structure Building where
  self : Nat
  hash : UInt32
  entries : List (Bytes × UInt64)
  args : DictArrays

/-- `__init__` up to the construction. -/
def initStart (A : DictAllocs) (obj : PyObj → Nat) (self : Nat) (mapping : PyArg)
    (hashName : Option String) (M : PyMem) : Option (PyResult Building × PyMem) :=
  match parseHash hashName with
  | .error e => some (.error e, M)
  | .ok hash => do
    let (r, M) ← dictToArraysMem A obj mapping M
    some (r.map fun r => ⟨self, hash, r.1, r.2⟩, M)

/-- `__init__` from the construction on: what it returns, and the arrays that it installs. -/
def initFinish (T : PyType τ) (E : Env) (H : Heap) (b : Building) (initialized : Bool) (M : PyMem) :
    Option (PyResult Unit × List Ptr × PyMem) := do
  let (rc, _, arrays, heap) ←
    newWithHashMem T.codec.layout E H T.codec.layout.zeroMap b.entries b.hash M.heap
  let heap ← freeAll [b.args.keys, b.args.vals] heap
  let refs ← freeAll (some b.args.keep :: b.args.items.map some) M.refs
  if rc ≠ .ok then some (.error (setPythonError rc), [], ⟨heap, refs⟩)
  else if initialized = false then some (.ok (), arrays, ⟨heap, refs⟩)
  else do
    let heap ← freeAll arrays heap
    some (.error (alreadyInitialized T.name), [], ⟨heap, refs⟩)

/-- What the end of `__init__` makes of the object: `arrays` are those that it installs. -/
def PyHeld.install (o : PyHeld) (r : PyResult Unit) (arrays : List Ptr) : PyHeld :=
  match r with
  | .ok () => { o with arrays := arrays, initialized := true }
  | .error _ => o

/-! ## Class methods -/

/-- What an object made by `from_bytes` or `load` owns. -/
def PyHeld.made (arrays : List Ptr) : PyHeld :=
  { refs := 1, arrays := arrays, view := none, initialized := true }

/-- `from_bytes(buffer)`. -/
def pyDeserializeMem (Cd : Codec τ) (w : Nat) (alloc : Bool) (H : Heap) (buf : Bytes)
    (exporter : Nat) (M : PyMem) : Option (PyResult (PyMap τ) × Option PyHeld × PyMem) := do
  let refs ← incref exporter M.refs
  if alloc = false then do
    let refs ← free (some exporter) refs
    some (.error .memoryError, none, ⟨M.heap, refs⟩)
  else do
    let (rc, m, arrays, heap) ← readMem Cd w H buf M.heap
    let refs ← free (some exporter) refs
    if rc ≠ .ok then do
      let heap ← freeAll arrays heap
      some (.error (setPythonError rc), none, ⟨heap, refs⟩)
    else some (.ok { map := m, initialized := true }, some (.made arrays), ⟨heap, refs⟩)

/-- `from_buffer(buffer)`. -/
def pyFromBufferMem (Cd : Codec τ) (w : Nat) (littleEndian alloc : Bool) (buf : PyBuffer)
    (exporter : Nat) (M : PyMem) : Option (PyResult (PyMap τ) × Option PyHeld × PyMem) := do
  let refs ← incref exporter M.refs
  if alloc = false then do
    let refs ← free (some exporter) refs
    some (.error .memoryError, none, ⟨M.heap, refs⟩)
  else do
    let (rc, m) ← view Cd w littleEndian buf.addr buf.bytes
    if rc ≠ .ok then do
      let refs ← free (some exporter) refs
      some (.error (viewError rc), none, ⟨M.heap, refs⟩)
    else some (.ok { map := m, initialized := true },
      some { refs := 1, arrays := [], view := some exporter, initialized := true }, ⟨M.heap, refs⟩)

/-! ## Files -/

/-- `PyUnicode_AsUTF8` of the path from `PyOS_FSPath`, which is null after an exception, and to which the
method has a reference. It raises an exception unless `utf8`; no path is left then. -/
def pathOf (path : Ptr) (utf8 : Bool) (refs : Mem) : Option (Ptr × Mem) :=
  if utf8 = true then some (path, refs)
  else do
    let refs ← free path refs
    some (none, refs)

/-- `save(path)`, after `PyOS_FSPath`; the result is `none` after an exception of that or of `pathOf`. If
`fopen` fails, the path is used after its reference is dropped. -/
def pySaveMem (Cd : Codec τ) (w : Nat) (path : Ptr) (utf8 : Bool) (c : SaveCalls) (self : PyMap τ)
    (file : Option Bytes) (M : PyMem) :
    Option (Option (FileResult Unit × Option Bytes) × PyMem) := do
  let (path, refs) ← pathOf path utf8 M.refs
  if path = none then some (none, ⟨M.heap, refs⟩)
  else do
    access path refs
    let (f, heap) := malloc c.fopen M.heap
    let refs ← free path refs
    if f = none then do
      access path refs
      some (some (.error .errno, file), ⟨heap, refs⟩)
    else
      let sz := serializedSize Cd w self.map
      let (buf, heap) := malloc c.malloc heap
      if buf = none then do
        let heap ← free f heap
        some (some (.error (.py .memoryError), some []), ⟨heap, refs⟩)
      else do
        let (_, bytes) ← write Cd self.map ((List.range sz).map c.junk)
        let file := some (bytes.take c.stored)
        let heap ← free buf heap
        let heap ← free f heap
        if c.fwrite ≠ sz ∨ c.ferror = true then
          some (some (.error (.osError "short write"), file), ⟨heap, refs⟩)
        else some (some (.ok (), file), ⟨heap, refs⟩)

/-- `load(path)`, after `PyOS_FSPath`; the result is `none` after an exception of that or of `pathOf`. -/
def pyLoadMem (Cd : Codec τ) (w : Nat) (path : Ptr) (utf8 : Bool) (c : LoadCalls)
    (file : Option Bytes) (M : PyMem) :
    Option (Option (FileResult (PyMap τ)) × Option PyHeld × PyMem) := do
  let (path, refs) ← pathOf path utf8 M.refs
  if path = none then some (none, none, ⟨M.heap, refs⟩)
  else do
    access path refs
    match file, malloc (c.fopen && file.isSome) M.heap with
    | some data, (some f, heap) => do
      let refs ← free path refs
      let len : Int := if c.ftell = true then data.length else -1
      if len ≤ 0 then do
        let heap ← free (some f) heap
        some (some (.error (.py (.valueError "empty file"))), none, ⟨heap, refs⟩)
      else
        let (buf, heap) := malloc c.malloc heap
        if buf = none then do
          let heap ← free (some f) heap
          some (some (.error (.py .memoryError)), none, ⟨heap, refs⟩)
        else do
          let heap ← free (some f) heap
          if c.fread ≠ data.length then do
            let heap ← free buf heap
            some (some (.error (.osError "short read")), none, ⟨heap, refs⟩)
          else if c.alloc = false then do
            let heap ← free buf heap
            some (some (.error (.py .memoryError)), none, ⟨heap, refs⟩)
          else do
            let (rc, m, arrays, heap) ← readMem Cd w c.heap data heap
            let heap ← free buf heap
            if rc ≠ .ok then do
              let heap ← freeAll arrays heap
              some (some (.error (.py (setPythonError rc))), none, ⟨heap, refs⟩)
            else some (some (.ok { map := m, initialized := true }), some (.made arrays), ⟨heap, refs⟩)
    | _, (_, heap) => do
      access path refs
      let refs ← free path refs
      some (some (.error .errno), none, ⟨heap, refs⟩)

/-! ## Processes -/

/-- A process: its memory, the objects of the three types by number, of which the deallocated ones are
`none`, the calls of `__init__` that are building, and the references to other objects that the rest of
the process has. -/
structure PyProcess where
  mem : PyMem
  objects : List (Option PyHeld)
  calls : List Building
  outside : List Nat

/-- Before anything is allocated. -/
def PyProcess.Initial (s : PyProcess) : Prop :=
  s.mem = ⟨⟨0, []⟩, ⟨0, []⟩⟩ ∧ s.objects = [] ∧ s.calls = [] ∧ s.outside = []

/-- The calls that run on the object `i`, each with a reference to it. -/
def PyProcess.running (s : PyProcess) (i : Nat) : Nat := s.calls.countP fun b => b.self = i

/-- Who takes a step: the rest of the process, or a method. -/
inductive PyActor where
  | program
  | method

/-- The steps of a process; calls of `__init__` run concurrently with everything else, the other methods in
one step. What a method borrows (the keys of a dict, an exporter) has a reference outside. The path of
`save` and `load` is made or found by steps of the rest of the process, among which are those of
`__fspath__`, and the method gets one of their references to it. A `save` without a result, which has
used its path when it was gone, is no step. -/
inductive PyStep : PyProcess → PyActor → PyProcess → Prop
  /-- A new object of another type. -/
  | newRef {s : PyProcess} : PyStep s .program { s with
      mem := ⟨s.mem.heap, (malloc true s.mem.refs).2⟩, outside := s.mem.refs.next :: s.outside }
  | copyRef {s : PyProcess} {b : Nat} {refs : Mem} (hb : b ∈ s.outside)
      (h : incref b s.mem.refs = some refs) :
      PyStep s .program { s with mem := ⟨s.mem.heap, refs⟩, outside := b :: s.outside }
  | dropRef {s : PyProcess} {before after : List Nat} {b : Nat} {refs : Mem}
      (hb : s.outside = before ++ b :: after) (h : free (some b) s.mem.refs = some refs) :
      PyStep s .program { s with mem := ⟨s.mem.heap, refs⟩, outside := before ++ after }
  /-- One more reference to an object of the three types. -/
  | copyObject {s : PyProcess} {i : Nat} {o : PyHeld} (ho : s.objects[i]? = some (some o))
      (hrefs : s.running i < o.refs) :
      PyStep s .program { s with objects := s.objects.set i (some { o with refs := o.refs + 1 }) }
  /-- One reference less, of those that no running call has. -/
  | dropObject {s : PyProcess} {i : Nat} {o : PyHeld} {o' : Option PyHeld} {M : PyMem}
      (ho : s.objects[i]? = some (some o)) (hrefs : s.running i < o.refs)
      (h : o.decref s.mem = some (o', M)) :
      PyStep s .program { s with mem := M, objects := s.objects.set i o' }
  /-- `tp_new`. -/
  | new {s : PyProcess} : PyStep s .method { s with
      objects := s.objects ++ [some { refs := 1, arrays := [], view := none, initialized := false }] }
  | initError {s : PyProcess} {A : DictAllocs} {obj : PyObj → Nat} {i : Nat} {mapping : PyArg}
      {hashName : Option String} {e : PyErr} {M : PyMem}
      (hkeys : ∀ d, mapping = .dict d → ∀ e ∈ d.items, obj e.1 ∈ s.outside)
      (h : initStart A obj i mapping hashName s.mem = some (.error e, M)) :
      PyStep s .method { s with mem := M }
  | initStart {s : PyProcess} {A : DictAllocs} {obj : PyObj → Nat} {i : Nat} {o : PyHeld}
      {mapping : PyArg} {hashName : Option String} {b : Building} {M : PyMem}
      (ho : s.objects[i]? = some (some o))
      (hkeys : ∀ d, mapping = .dict d → ∀ e ∈ d.items, obj e.1 ∈ s.outside)
      (h : initStart A obj i mapping hashName s.mem = some (.ok b, M)) :
      PyStep s .method { s with
        mem := M, objects := s.objects.set i (some { o with refs := o.refs + 1 })
        calls := b :: s.calls }
  /-- The end of a call, which drops its reference to the object. -/
  | initFinish {s : PyProcess} {τ : Type} {T : PyType τ} {E : Env} {H : Heap}
      {before after : List Building} {b : Building} {o : PyHeld} {o' : Option PyHeld}
      {r : PyResult Unit} {arrays : List Ptr} {M M' : PyMem} (hb : s.calls = before ++ b :: after)
      (ho : s.objects[b.self]? = some (some o))
      (h : initFinish T E H b o.initialized s.mem = some (r, arrays, M))
      (hdrop : (o.install r arrays).decref M = some (o', M')) :
      PyStep s .method { s with
        mem := M', objects := s.objects.set b.self o', calls := before ++ after }
  | fromBytes {s : PyProcess} {τ : Type} {Cd : Codec τ} {w : Nat} {alloc : Bool} {H : Heap}
      {buf : Bytes} {exporter : Nat} {r : PyResult (PyMap τ)} {o : Option PyHeld} {M : PyMem}
      (he : exporter ∈ s.outside)
      (h : pyDeserializeMem Cd w alloc H buf exporter s.mem = some (r, o, M)) :
      PyStep s .method { s with mem := M, objects := s.objects ++ o.toList.map some }
  | fromBuffer {s : PyProcess} {τ : Type} {Cd : Codec τ} {w : Nat} {le alloc : Bool}
      {buf : PyBuffer} {exporter : Nat} {r : PyResult (PyMap τ)} {o : Option PyHeld} {M : PyMem}
      (he : exporter ∈ s.outside)
      (h : pyFromBufferMem Cd w le alloc buf exporter s.mem = some (r, o, M)) :
      PyStep s .method { s with mem := M, objects := s.objects ++ o.toList.map some }
  | save {s : PyProcess} {τ : Type} {Cd : Codec τ} {w : Nat} {before after : List Nat} {path : Ptr}
      {utf8 : Bool} {c : SaveCalls} {self : PyMap τ} {file : Option Bytes}
      {r : Option (FileResult Unit × Option Bytes)} {M : PyMem}
      (hpath : s.outside = before ++ (path.toList ++ after))
      (h : pySaveMem Cd w path utf8 c self file s.mem = some (r, M)) :
      PyStep s .method { s with mem := M, outside := before ++ after }
  | load {s : PyProcess} {τ : Type} {Cd : Codec τ} {w : Nat} {before after : List Nat} {path : Ptr}
      {utf8 : Bool} {c : LoadCalls} {file : Option Bytes} {r : Option (FileResult (PyMap τ))}
      {o : Option PyHeld} {M : PyMem} (hpath : s.outside = before ++ (path.toList ++ after))
      (h : pyLoadMem Cd w path utf8 c file s.mem = some (r, o, M)) :
      PyStep s .method { s with
        mem := M, objects := s.objects ++ o.toList.map some, outside := before ++ after }

end FastConstMap
