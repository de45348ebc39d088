import FastConstMap.Batch
import FastConstMap.Install

/-!
# Serialised maps in Python: bytes objects, buffers and files

The methods of the three Python types that write a map out and make an object of what was written. They
have one body over the codec. `size_t` has `w` bits; what the C library and the allocator do is part of
the arguments.
-/

namespace FastConstMap

variable {τ : Type}

/-- The exceptions of these methods: those of the other methods, an `OSError` with a message, and the one
that `PyErr_SetFromErrnoWithFilenameObject` raises. -/
inductive FileErr where
  | py (e : PyErr)
  | osError (msg : String)
  | errno
deriving DecidableEq

/-- What `save` or `load` returns, or the exception that it raises. -/
abbrev FileResult (α : Type) := Except FileErr α

/-! ## Sizes and the hash -/

/-- The body shared by the three `__len__`. -/
def pyLength (self : PyMap τ) : Nat := self.map.n.toNat

/-- `fcm_hash_name`. -/
def hashName (hash : UInt32) : String := if hash = HASH_XXH3 then "xxh3" else "xxh64"

/-- The body shared by the three `hash`. -/
def pyGetHash (self : PyMap τ) : String := hashName self.map.hash

/-- The body shared by the three `nbytes()`: a product of two `unsigned long long`. -/
def pyNbytes (Cd : Codec τ) (self : PyMap τ) : UInt64 :=
  self.map.dataLen.toUInt64 * UInt64.ofNat Cd.entryBytes

/-- The body shared by the three `serialized_size()`. -/
def pySerializedSize (Cd : Codec τ) (w : Nat) (self : PyMap τ) : Nat := serializedSize Cd w self.map

/-! ## Bytes objects and buffers -/

/-- The body shared by the three `to_bytes()`: `alloc` says whether the bytes object is allocated, and
`junk` is what it holds before. The return code of the writer is not looked at. -/
def pySerialize (Cd : Codec τ) (w : Nat) (alloc : Bool) (junk : Nat → UInt8) (self : PyMap τ) :
    Option (PyResult Bytes) :=
  let sz := serializedSize Cd w self.map
  if alloc = false then some (.error .memoryError)
  else do
    let (_, out) ← write Cd self.map ((List.range sz).map junk)
    some (.ok out)

/-- What a class method makes of the return code and the map of a reader or a view. -/
def pyObjectOf (error : Rc → PyErr) (r : Rc × MapOf τ) : PyResult (PyMap τ) :=
  if r.1 ≠ .ok then .error (error r.1) else .ok { map := r.2, initialized := true }

/-- The body shared by the three `from_bytes(buffer)`: `alloc` says whether `tp_alloc` succeeds. -/
def pyDeserialize (Cd : Codec τ) (w : Nat) (alloc : Bool) (H : Heap) (buf : Bytes) :
    Option (PyResult (PyMap τ)) :=
  if alloc = false then some (.error .memoryError)
  else do
    let r ← read Cd w H buf
    some (pyObjectOf setPythonError r)

/-- The body shared by the three `write_into(buffer)`: what it returns, and the bytes of the buffer. -/
def pyWriteInto (Cd : Codec τ) (w : Nat) (self : PyMap τ) (buf : Bytes) :
    Option (PyResult PyObj × Bytes) :=
  let need := serializedSize Cd w self.map
  if buf.length < need then
    some (.error (.valueError ("buffer too small: need " ++ toString need ++ " bytes, got " ++
      toString buf.length)), buf)
  else do
    let (_, buf) ← write Cd self.map buf
    some (.ok (.int need), buf)

/-- The exception for a return code of a view. -/
def viewError (rc : Rc) : PyErr :=
  if rc = .unaligned then .valueError ("buffer is not 8-byte aligned; cannot create a zero-copy view " ++
    "(use from_bytes() to copy instead)")
  else setPythonError rc

/-- The body shared by the three `from_buffer(buffer)`: the object holds what it sees in the buffer. -/
def pyFromBuffer (Cd : Codec τ) (w : Nat) (littleEndian alloc : Bool) (buf : PyBuffer) :
    Option (PyResult (PyMap τ)) :=
  if alloc = false then some (.error .memoryError)
  else do
    let r ← view Cd w littleEndian buf.addr buf.bytes
    some (pyObjectOf viewError r)

/-! ## Files -/

/-- How the C library answers the calls of `save`: whether `fopen` and `PyMem_Malloc` succeed, what the
memory holds before, what `fwrite` returns, whether `ferror` reports an error, and how many bytes are in
the file in the end. The result of `fclose` is not looked at, and the process may end before it.
`pathShared` says whether anything but `save` has a reference to the path. -/
structure SaveCalls where
  pathShared : Bool
  fopen : Bool
  malloc : Bool
  junk : Nat → UInt8
  fwrite : Nat
  ferror : Bool
  stored : Nat

/-- The body shared by the three `save(path)`, from `fopen` on: what it returns, and the new contents of the
file, which is `none` if there is no file. Opening it for writing empties it. -/
def pySave (Cd : Codec τ) (w : Nat) (c : SaveCalls) (self : PyMap τ) (file : Option Bytes) :
    Option (FileResult Unit × Option Bytes) :=
  if c.fopen = false then
    -- `Py_DECREF(path)` comes first, and `PyErr_SetFromErrnoWithFilenameObject` uses the path.
    if c.pathShared = true then some (.error .errno, file) else none
  else
    let sz := serializedSize Cd w self.map
    if c.malloc = false then some (.error (.py .memoryError), some [])
    else do
      let (_, buf) ← write Cd self.map ((List.range sz).map c.junk)
      let file := some (buf.take c.stored)
      if c.fwrite ≠ sz ∨ c.ferror = true then some (.error (.osError "short write"), file)
      else some (.ok (), file)

/-- How the C library answers the calls of `load`: whether `fopen` succeeds, whether `ftell` finds the
length of the file, whether `PyMem_Malloc` succeeds, what `fread` returns, whether `tp_alloc` succeeds, and
the memory of the reader. -/
structure LoadCalls where
  fopen : Bool
  ftell : Bool
  malloc : Bool
  fread : Nat
  alloc : Bool
  heap : Heap

/-- The body shared by the three `load(path)`, of the contents of the file. -/
def pyLoad (Cd : Codec τ) (w : Nat) (c : LoadCalls) (file : Option Bytes) :
    Option (FileResult (PyMap τ)) :=
  match file with
  | none => some (.error .errno)
  | some data =>
    if c.fopen = false then some (.error .errno)
    else
      let len : Int := if c.ftell = true then data.length else -1
      if len ≤ 0 then some (.error (.py (.valueError "empty file")))
      else if c.malloc = false then some (.error (.py .memoryError))
      else if c.fread ≠ data.length then some (.error (.osError "short read"))
      else if c.alloc = false then some (.error (.py .memoryError))
      else do
        let r ← read Cd w c.heap data
        match pyObjectOf setPythonError r with
        | .error e => some (.error (.py e))
        | .ok o => some (.ok o)

/-! ## The three types -/

/-- `PyConstMap_length`. -/
def pyConstMapLength (self : PyMap (List UInt64)) : Nat := pyLength self

/-- `PyConstMap_get_hash`. -/
def pyConstMapGetHash (self : PyMap (List UInt64)) : String := pyGetHash self

/-- `PyConstMap_data_bytes`. -/
def pyConstMapDataBytes (self : PyMap (List UInt64)) : UInt64 := pyNbytes constmapCodec self

/-- `PyConstMap_serialized_size`. -/
def pyConstMapSerializedSize (w : Nat) (self : PyMap (List UInt64)) : Nat :=
  pySerializedSize constmapCodec w self

/-- `PyConstMap_serialize`. -/
def pyConstMapSerialize (w : Nat) (alloc : Bool) (junk : Nat → UInt8)
    (self : PyMap (List UInt64)) : Option (PyResult Bytes) :=
  pySerialize constmapCodec w alloc junk self

/-- `PyConstMap_deserialize`. -/
def pyConstMapDeserialize (w : Nat) (alloc : Bool) (H : Heap) (buf : Bytes) :
    Option (PyResult (PyMap (List UInt64))) :=
  pyDeserialize constmapCodec w alloc H buf

/-- `PyConstMap_write_into`. -/
def pyConstMapWriteInto (w : Nat) (self : PyMap (List UInt64)) (buf : Bytes) :
    Option (PyResult PyObj × Bytes) :=
  pyWriteInto constmapCodec w self buf

/-- `PyConstMap_from_buffer`. -/
def pyConstMapFromBuffer (w : Nat) (littleEndian alloc : Bool) (buf : PyBuffer) :
    Option (PyResult (PyMap (List UInt64))) :=
  pyFromBuffer constmapCodec w littleEndian alloc buf

/-- `PyConstMap_save`. -/
def pyConstMapSave (w : Nat) (c : SaveCalls) (self : PyMap (List UInt64)) (file : Option Bytes) :
    Option (FileResult Unit × Option Bytes) :=
  pySave constmapCodec w c self file

/-- `PyConstMap_load`. -/
def pyConstMapLoad (w : Nat) (c : LoadCalls) (file : Option Bytes) :
    Option (FileResult (PyMap (List UInt64))) :=
  pyLoad constmapCodec w c file

/-- `PyVerifiedConstMap_length`. -/
def pyVerifiedConstMapLength (self : PyMap Tables) : Nat := pyLength self

/-- `PyVerifiedConstMap_get_hash`. -/
def pyVerifiedConstMapGetHash (self : PyMap Tables) : String := pyGetHash self

/-- `PyVerifiedConstMap_nbytes`. -/
def pyVerifiedConstMapNbytes (self : PyMap Tables) : UInt64 := pyNbytes verifiedCodec self

/-- `PyVerifiedConstMap_serialized_size`. -/
def pyVerifiedConstMapSerializedSize (w : Nat) (self : PyMap Tables) : Nat :=
  pySerializedSize verifiedCodec w self

/-- `PyVerifiedConstMap_serialize`. -/
def pyVerifiedConstMapSerialize (w : Nat) (alloc : Bool) (junk : Nat → UInt8)
    (self : PyMap Tables) : Option (PyResult Bytes) :=
  pySerialize verifiedCodec w alloc junk self

/-- `PyVerifiedConstMap_deserialize`. -/
def pyVerifiedConstMapDeserialize (w : Nat) (alloc : Bool) (H : Heap) (buf : Bytes) :
    Option (PyResult (PyMap Tables)) :=
  pyDeserialize verifiedCodec w alloc H buf

/-- `PyVerifiedConstMap_write_into`. -/
def pyVerifiedConstMapWriteInto (w : Nat) (self : PyMap Tables) (buf : Bytes) :
    Option (PyResult PyObj × Bytes) :=
  pyWriteInto verifiedCodec w self buf

/-- `PyVerifiedConstMap_from_buffer`. -/
def pyVerifiedConstMapFromBuffer (w : Nat) (littleEndian alloc : Bool) (buf : PyBuffer) :
    Option (PyResult (PyMap Tables)) :=
  pyFromBuffer verifiedCodec w littleEndian alloc buf

/-- `PyVerifiedConstMap_save`. -/
def pyVerifiedConstMapSave (w : Nat) (c : SaveCalls) (self : PyMap Tables) (file : Option Bytes) :
    Option (FileResult Unit × Option Bytes) :=
  pySave verifiedCodec w c self file

/-- `PyVerifiedConstMap_load`. -/
def pyVerifiedConstMapLoad (w : Nat) (c : LoadCalls) (file : Option Bytes) :
    Option (FileResult (PyMap Tables)) :=
  pyLoad verifiedCodec w c file

/-- `PyPairedVerifiedConstMap_length`. -/
def pyPairedVerifiedConstMapLength (self : PyMap (List Slot)) : Nat := pyLength self

/-- `PyPairedVerifiedConstMap_get_hash`. -/
def pyPairedVerifiedConstMapGetHash (self : PyMap (List Slot)) : String := pyGetHash self

/-- `PyPairedVerifiedConstMap_nbytes`. -/
def pyPairedVerifiedConstMapNbytes (self : PyMap (List Slot)) : UInt64 := pyNbytes pairedCodec self

/-- `PyPairedVerifiedConstMap_serialized_size`. -/
def pyPairedVerifiedConstMapSerializedSize (w : Nat) (self : PyMap (List Slot)) : Nat :=
  pySerializedSize pairedCodec w self

/-- `PyPairedVerifiedConstMap_serialize`. -/
def pyPairedVerifiedConstMapSerialize (w : Nat) (alloc : Bool) (junk : Nat → UInt8)
    (self : PyMap (List Slot)) : Option (PyResult Bytes) :=
  pySerialize pairedCodec w alloc junk self

/-- `PyPairedVerifiedConstMap_deserialize`. -/
def pyPairedVerifiedConstMapDeserialize (w : Nat) (alloc : Bool) (H : Heap) (buf : Bytes) :
    Option (PyResult (PyMap (List Slot))) :=
  pyDeserialize pairedCodec w alloc H buf

/-- `PyPairedVerifiedConstMap_write_into`. -/
def pyPairedVerifiedConstMapWriteInto (w : Nat) (self : PyMap (List Slot)) (buf : Bytes) :
    Option (PyResult PyObj × Bytes) :=
  pyWriteInto pairedCodec w self buf

/-- `PyPairedVerifiedConstMap_from_buffer`. -/
def pyPairedVerifiedConstMapFromBuffer (w : Nat) (littleEndian alloc : Bool) (buf : PyBuffer) :
    Option (PyResult (PyMap (List Slot))) :=
  pyFromBuffer pairedCodec w littleEndian alloc buf

/-- `PyPairedVerifiedConstMap_save`. -/
def pyPairedVerifiedConstMapSave (w : Nat) (c : SaveCalls) (self : PyMap (List Slot)) (file : Option Bytes) :
    Option (FileResult Unit × Option Bytes) :=
  pySave pairedCodec w c self file

/-- `PyPairedVerifiedConstMap_load`. -/
def pyPairedVerifiedConstMapLoad (w : Nat) (c : LoadCalls) (file : Option Bytes) :
    Option (FileResult (PyMap (List Slot))) :=
  pyLoad pairedCodec w c file

end FastConstMap
