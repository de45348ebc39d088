import FastConstMap.Persist

/-!
# Sessions

What Python programs do with the objects of one type, the buffers and the files: objects are made of dicts,
written out, and made again of what was written, over any number of runs of a process.
-/

namespace FastConstMap

variable {τ : Type}

/-! ## States -/

/-- An object that Python holds: its map, and for a view the buffer and the offset in it that the array
pointers of the map point to. -/
structure Held (τ : Type) where
  py : PyMap τ
  view : Option (Nat × Nat)

/-- The objects of one type, the buffers (bytes objects and blocks of shared memory) and the files, by
number. -/
structure Session (τ : Type) where
  objects : Nat → Option (Held τ)
  buffers : Nat → PyBuffer
  files : Nat → Option Bytes

/-- The map that a lookup of an object works on: the arrays of a view are the present contents of its
buffer. -/
def Session.mapOf (Cd : Codec τ) (s : Session τ) (o : Held τ) : MapOf τ :=
  match o.view with
  | none => o.py.map
  | some (b, off) =>
    { o.py.map with table := Cd.borrow 64 (s.buffers b).bytes off o.py.map.dataLen.toNat }

/-- The object, with the map that its methods see. -/
def Session.pyOf (Cd : Codec τ) (s : Session τ) (o : Held τ) : PyMap τ :=
  { o.py with map := s.mapOf Cd o }

/-- Some object is a view of the buffer. -/
def Session.Viewed (s : Session τ) (b : Nat) : Prop :=
  ∃ k o off, s.objects k = some o ∧ o.view = some (b, off)

def Session.setObject (s : Session τ) (k : Nat) (o : Option (Held τ)) : Session τ :=
  { s with objects := Function.update s.objects k o }

def Session.setBuffer (s : Session τ) (b : Nat) (buf : PyBuffer) : Session τ :=
  { s with buffers := Function.update s.buffers b buf }

def Session.setFile (s : Session τ) (f : Nat) (file : Option Bytes) : Session τ :=
  { s with files := Function.update s.files f file }

/-! ## Steps -/

/-- What happens in a session: the calls of the methods, with their results; a reference to an object is
dropped; all processes end; a file is copied or removed; something else writes into a buffer or a
file. In a `save`, `kept` says whether the file keeps all bytes that the object is written as. -/
inductive Event where
  | construct (k : Nat) (mapping : PyArg) (hashName : Option String) (r : PyResult Unit)
  | toBytes (k b : Nat) (r : PyResult Unit)
  | fromBytes (b k : Nat) (r : PyResult Unit)
  | writeInto (k b : Nat) (r : PyResult PyObj)
  | fromBuffer (b k : Nat) (r : PyResult Unit)
  | save (k f : Nat) (kept : Bool) (r : FileResult Unit)
  | load (f k : Nat) (r : FileResult Unit)
  | drop (k : Nat)
  | restart
  | copyFile (f g : Nat)
  | removeFile (f : Nat)
  | pokeBuffer (b : Nat)
  | pokeFile (f : Nat)

/-- The steps of a session on a host with a `size_t` of 64 bits. The buffers are separate pieces of memory,
and nothing writes into one while it is viewed, neither a method nor anything else, as the documentation
of `from_buffer` asks for. A `save` without a result, which has lost its path, is no step. The processes
of a session may differ in all but the two key hashes. -/
inductive SessionStep (T : PyType τ) (K : KeyHash) (le : Bool) : Session τ → Event → Session τ → Prop
  | construct {s : Session τ} {k : Nat} {E : Env} {H : Heap} {alloc : Bool} {mapping : PyArg}
      {hashName : Option String} {o : PyMap τ} : E.keyHash = K → s.objects k = none →
      pyInit T.codec.layout T.name E H alloc (.alloc T.codec.layout) mapping hashName =
        some (.ok (), o) →
      SessionStep T K le s (.construct k mapping hashName (.ok ())) (s.setObject k (some ⟨o, none⟩))
  | constructError {s : Session τ} {k : Nat} {E : Env} {H : Heap} {alloc : Bool} {mapping : PyArg}
      {hashName : Option String} {o : PyMap τ} {e : PyErr} : E.keyHash = K →
      pyInit T.codec.layout T.name E H alloc (.alloc T.codec.layout) mapping hashName =
        some (.error e, o) →
      SessionStep T K le s (.construct k mapping hashName (.error e)) s
  /-- The new bytes object is nobody's buffer yet. -/
  | toBytes {s : Session τ} {k b addr : Nat} {o : Held τ} {alloc : Bool} {junk : Nat → UInt8}
      {bs : Bytes} : s.objects k = some o → ¬ s.Viewed b →
      pySerialize T.codec 64 alloc junk (s.pyOf T.codec o) = some (.ok bs) →
      SessionStep T K le s (.toBytes k b (.ok ())) (s.setBuffer b ⟨addr, bs⟩)
  | toBytesError {s : Session τ} {k b : Nat} {o : Held τ} {alloc : Bool} {junk : Nat → UInt8}
      {e : PyErr} : s.objects k = some o →
      pySerialize T.codec 64 alloc junk (s.pyOf T.codec o) = some (.error e) →
      SessionStep T K le s (.toBytes k b (.error e)) s
  | fromBytes {s : Session τ} {b k : Nat} {alloc : Bool} {H : Heap} {o : PyMap τ} :
      s.objects k = none → pyDeserialize T.codec 64 alloc H (s.buffers b).bytes = some (.ok o) →
      SessionStep T K le s (.fromBytes b k (.ok ())) (s.setObject k (some ⟨o, none⟩))
  | fromBytesError {s : Session τ} {b k : Nat} {alloc : Bool} {H : Heap} {e : PyErr} :
      pyDeserialize T.codec 64 alloc H (s.buffers b).bytes = some (.error e) →
      SessionStep T K le s (.fromBytes b k (.error e)) s
  | writeInto {s : Session τ} {k b : Nat} {o : Held τ} {r : PyResult PyObj} {buf : Bytes} :
      s.objects k = some o → ¬ s.Viewed b →
      pyWriteInto T.codec 64 (s.pyOf T.codec o) (s.buffers b).bytes = some (r, buf) →
      SessionStep T K le s (.writeInto k b r) (s.setBuffer b ⟨(s.buffers b).addr, buf⟩)
  /-- The pointers of the view go to where the header of the buffer ends. -/
  | fromBuffer {s : Session τ} {b k : Nat} {alloc : Bool} {o : PyMap τ} {h : Header} :
      s.objects k = none → pyFromBuffer T.codec 64 le alloc (s.buffers b) = some (.ok o) →
      parse 64 T.codec.formats T.codec.entryBytes (s.buffers b).bytes = some (.ok h) →
      SessionStep T K le s (.fromBuffer b k (.ok ())) (s.setObject k (some ⟨o, some (b, h.payload)⟩))
  | fromBufferError {s : Session τ} {b k : Nat} {alloc : Bool} {e : PyErr} :
      pyFromBuffer T.codec 64 le alloc (s.buffers b) = some (.error e) →
      SessionStep T K le s (.fromBuffer b k (.error e)) s
  | save {s : Session τ} {k f : Nat} {o : Held τ} {c : SaveCalls} {r : FileResult Unit}
      {file : Option Bytes} : s.objects k = some o →
      pySave T.codec 64 c (s.pyOf T.codec o) (s.files f) = some (r, file) →
      SessionStep T K le s
        (.save k f (serializedSize T.codec 64 (s.mapOf T.codec o) ≤ c.stored) r) (s.setFile f file)
  | load {s : Session τ} {f k : Nat} {c : LoadCalls} {o : PyMap τ} : s.objects k = none →
      pyLoad T.codec 64 c (s.files f) = some (.ok o) →
      SessionStep T K le s (.load f k (.ok ())) (s.setObject k (some ⟨o, none⟩))
  | loadError {s : Session τ} {f k : Nat} {c : LoadCalls} {e : FileErr} :
      pyLoad T.codec 64 c (s.files f) = some (.error e) →
      SessionStep T K le s (.load f k (.error e)) s
  | drop {s : Session τ} {k : Nat} : SessionStep T K le s (.drop k) (s.setObject k none)
  | restart {s : Session τ} : SessionStep T K le s .restart { s with objects := fun _ => none }
  | copyFile {s : Session τ} {f g : Nat} :
      SessionStep T K le s (.copyFile f g) (s.setFile g (s.files f))
  | removeFile {s : Session τ} {f : Nat} : SessionStep T K le s (.removeFile f) (s.setFile f none)
  | pokeBuffer {s : Session τ} {b : Nat} {buf : PyBuffer} : ¬ s.Viewed b →
      SessionStep T K le s (.pokeBuffer b) (s.setBuffer b buf)
  | pokeFile {s : Session τ} {f : Nat} {file : Option Bytes} :
      SessionStep T K le s (.pokeFile f) (s.setFile f file)

end FastConstMap
