import FastConstMap.Construct
import FastConstMap.Lookup

/-!
# The Python types

`VerifiedConstMap` and `PairedVerifiedConstMap` of the Python extension: the conversion of a dict, the
initialisation of an object, and its lookups. The two types have the same methods over their layouts.
Python objects are values here; what the methods do not look at is left out.
-/

namespace FastConstMap

open CLoop

/-! ## Python objects -/

/-- A code point of a `str`, lone surrogates included. -/
abbrev CodePoint := Fin 0x110000

/-- The Python objects that the methods tell apart; all others are known by their type. -/
inductive PyObj where
  | none
  | int (v : Int)
  | str (s : List CodePoint)
  | bytes (b : Bytes)
  | other (typeName : String) (identity : Nat)
deriving DecidableEq

/-- `Py_TYPE(obj)->tp_name`. -/
def PyObj.typeName : PyObj → String
  | .none => "NoneType"
  | .int _ => "int"
  | .str _ => "str"
  | .bytes _ => "bytes"
  | .other typeName _ => typeName

/-- A dict in its iteration order: no key occurs twice. Its keys are no instances of subclasses of `str`
and `bytes`, which may have an equality of their own. -/
structure PyDict where
  items : List (PyObj × PyObj)
  nodup : (items.map Prod.fst).Nodup

/-- An argument of `__init__`. -/
inductive PyArg where
  | dict (d : PyDict)
  | obj (o : PyObj)

/-- The exceptions that the methods raise. -/
inductive PyErr where
  | typeError (msg : String)
  | valueError (msg : String)
  | overflowError (msg : String)
  | runtimeError (msg : String)
  | memoryError
  | keyError (key : PyObj)
  | unicodeEncodeError (s : List CodePoint)
deriving DecidableEq

/-- What a method returns, or the exception that it raises. -/
abbrev PyResult (α : Type) := Except PyErr α

/-! ## Conversions -/

/-- The UTF-8 encoding of a code point; a surrogate has none. -/
def utf8CodePoint (c : CodePoint) : Option Bytes :=
  if c.val < 0x80 then some [UInt8.ofNat c]
  else if c.val < 0x800 then
    some [UInt8.ofNat (0xC0 + c / 0x40), UInt8.ofNat (0x80 + c % 0x40)]
  else if 0xD800 ≤ c.val ∧ c.val < 0xE000 then none
  else if c.val < 0x10000 then
    some [UInt8.ofNat (0xE0 + c / 0x1000), UInt8.ofNat (0x80 + c / 0x40 % 0x40),
      UInt8.ofNat (0x80 + c % 0x40)]
  else
    some [UInt8.ofNat (0xF0 + c / 0x40000), UInt8.ofNat (0x80 + c / 0x1000 % 0x40),
      UInt8.ofNat (0x80 + c / 0x40 % 0x40), UInt8.ofNat (0x80 + c % 0x40)]

/-- `PyUnicode_AsUTF8AndSize`. -/
def asUTF8AndSize (s : List CodePoint) : PyResult Bytes :=
  match s.mapM utf8CodePoint with
  | none => .error (.unicodeEncodeError s)
  | some bs => .ok bs.flatten

/-- `fcm_key_from_object`, with the message of its caller. -/
def keyFromObject (msg : String) : PyObj → PyResult Bytes
  | .str s => asUTF8AndSize s
  | .bytes b => .ok b
  | obj => .error (.typeError (msg ++ obj.typeName))

/-- `PyLong_AsUnsignedLongLong`; an integer out of range raises an exception. -/
def asUnsignedLongLong (v : Int) : Option UInt64 :=
  if 0 ≤ v ∧ v < 2 ^ 64 then some (UInt64.ofNat v.toNat) else none

/-- `(unsigned long long)PyLong_AsLongLong`. -/
def asLongLong (v : Int) : Option UInt64 :=
  if -2 ^ 63 ≤ v ∧ v < 2 ^ 63 then some (UInt64.ofNat (v % 2 ^ 64).toNat) else none

/-- The value of an entry: unsigned if it fits, else signed. -/
def valueFromObject : PyObj → PyResult UInt64
  | .int v =>
    match asUnsignedLongLong v with
    | some u => .ok u
    | none =>
      match asLongLong v with
      | some u => .ok u
      | none => .error (.overflowError
          "value does not fit in 64 bits (must be in [-2**63, 2**64 - 1])")
  | obj => .error (.typeError ("all values must be int; got " ++ obj.typeName))

/-- `PyLong_FromUnsignedLongLong`. -/
def fromUnsignedLongLong (v : UInt64) : PyObj := .int v.toNat

/-- `fcm_dict_to_arrays`: the entries of the dict; `alloc` says whether its allocations succeed. -/
def dictToArrays (alloc : Bool) : PyArg → PyResult (List (Bytes × UInt64))
  | .obj _ => .error (.typeError "expected a dict")
  | .dict d =>
    if alloc = false then .error .memoryError
    else d.items.mapM fun e => do
      let key ← keyFromObject "all keys must be str (or bytes); got " e.1
      let value ← valueFromObject e.2
      .ok (key, value)

/-- `fcm_parse_hash`; `none` is a null pointer. -/
def parseHash : Option String → PyResult UInt32
  | none => .ok HASH_XXH64
  | some name =>
    if name = "xxh64" then .ok HASH_XXH64
    else if name = "xxh3" then .ok HASH_XXH3
    else .error (.valueError ("hash must be \"xxh64\" or \"xxh3\", not \"" ++ name ++ "\""))

/-- `fcm_set_python_error`. -/
def setPythonError : Rc → PyErr
  | .lengthMismatch => .valueError "input length mismatch"
  | .nomem => .memoryError
  | .duplicateKey =>
    .valueError "duplicate key hash detected (two keys hash to the same xxhash value)"
  | .constructFail => .runtimeError "failed to construct map after 100 iterations"
  | .invalidFormat => .valueError "invalid serialized data (bad magic)"
  | .checksum => .valueError "serialized data checksum mismatch"
  | .shortBuffer => .valueError "serialized data is truncated"
  | .invalidParams =>
    .valueError "invalid serialized data (segment parameters do not describe the slot count)"
  | .unaligned => .runtimeError "fastconstmap error -8"
  | .ok => .runtimeError "fastconstmap error 0"

/-- `fcm_already_initialized`. -/
def alreadyInitialized (typeName : String) : PyErr :=
  .typeError (typeName ++ " is immutable: __init__ cannot be called again")

/-! ## Methods -/

variable {τ : Type}

/-- `PyVerifiedConstMap` and `PyPairedVerifiedConstMap`: the map, and whether one is installed. -/
structure PyMap (τ : Type) where
  map : MapOf τ
  initialized : Bool
deriving DecidableEq

/-- A new object, as `tp_alloc` leaves it. -/
def PyMap.alloc (Ly : Layout τ) : PyMap τ := { map := Ly.zeroMap, initialized := false }

/-- The body shared by the two `__init__`: what it returns and the new state of the object. -/
def pyInit (Ly : Layout τ) (typeName : String) (E : Env) (H : Heap) (alloc : Bool) (self : PyMap τ)
    (mapping : PyArg) (hashName : Option String) : Option (PyResult Unit × PyMap τ) :=
  match parseHash hashName with
  | .error e => some (.error e, self)
  | .ok hash =>
    match dictToArrays alloc mapping with
    | .error e => some (.error e, self)
    | .ok entries => do
      let (rc, built) ← newWithHash Ly E H Ly.zeroMap entries hash
      if rc ≠ .ok then some (.error (setPythonError rc), self)
      else if self.initialized = false then some (.ok (), { map := built, initialized := true })
      else some (.error (alreadyInitialized typeName), self)

/-- The body shared by the two `get(key, default)`. -/
def pyGet (Ly : Layout τ) (K : KeyHash) (self : PyMap τ) (key default : PyObj) :
    Option (PyResult PyObj) :=
  match keyFromObject "key must be str or bytes, not " key with
  | .error e => some (.error e)
  | .ok s => do
    let v ← lookup Ly K self.map s
    if v = NOT_FOUND then some (.ok default) else some (.ok (fromUnsignedLongLong v))

/-- The body shared by the two `m[key]`. -/
def pySubscript (Ly : Layout τ) (K : KeyHash) (self : PyMap τ) (key : PyObj) :
    Option (PyResult PyObj) :=
  match keyFromObject "key must be str or bytes, not " key with
  | .error e => some (.error e)
  | .ok s => do
    let v ← lookup Ly K self.map s
    if v = NOT_FOUND then some (.error (.keyError key)) else some (.ok (fromUnsignedLongLong v))

/-- The body shared by the two `key in m`. -/
def pyContains (Ly : Layout τ) (K : KeyHash) (self : PyMap τ) (key : PyObj) :
    Option (PyResult Bool) :=
  let found (s : Bytes) : Option (PyResult Bool) := do
    let v ← lookup Ly K self.map s
    some (.ok (if v = NOT_FOUND then false else true))
  match key with
  | .str s =>
    match asUTF8AndSize s with
    | .error e => some (.error e)
    | .ok b => found b
  | .bytes b => found b
  | _ => some (.ok false)

/-- `FCM_PY_CHUNK`. -/
def PY_CHUNK : Nat := 64

/-- The object that a batched lookup returns for a word. -/
def boxed (default : PyObj) (v : UInt64) : PyObj :=
  if v = NOT_FOUND then default else fromUnsignedLongLong v

/-- One pass of the chunk loop of the three `get_many`, on the base, the buffer `vbuf` and the first objects
of the result; they differ in the object `box v` that they return for a word. -/
def getManyBoxStep (Ly : Layout τ) (K : KeyHash) (B : Nat) (self : PyMap τ) (keys : List PyObj)
    (box : UInt64 → PyObj) :
    PyResult (Nat × List UInt64 × List PyObj) →
      Option (Ctl (PyResult (Nat × List UInt64 × List PyObj)))
  | .error e => some (.stop (.error e))
  | .ok (base, vbuf, out) =>
    if base < keys.length then
      let m := if keys.length - base < PY_CHUNK then keys.length - base else PY_CHUNK
      match ((keys.drop base).take m).mapM (keyFromObject "keys must be str or bytes, not ") with
      | .error e => some (.stop (.error e))
      | .ok kbuf => do
        let vbuf ← lookupMany Ly K B self.map kbuf vbuf
        let vs ← tabulate (load vbuf) m
        some (.next (.ok (base + PY_CHUNK, vbuf, out ++ vs.map box)))
    else some (.stop (.ok (base, vbuf, out)))

/-- The body shared by the three `get_many`; `junk` is what `vbuf` holds before, and `B` is
`FCM_BATCH_BLOCK`. -/
def pyGetManyBox (Ly : Layout τ) (K : KeyHash) (B : Nat) (junk : Nat → UInt64) (self : PyMap τ)
    (keys : List PyObj) (box : UInt64 → PyObj) : Option (PyResult (List PyObj)) := do
  let vbuf := (List.range PY_CHUNK).map junk
  let r ← loop (getManyBoxStep Ly K B self keys box) (keys.length + 1) (.ok (0, vbuf, []))
  match r with
  | .error e => some (.error e)
  | .ok (_, _, out) => some (.ok out)

/-- The body shared by the two `get_many(keys, default)`. -/
def pyGetMany (Ly : Layout τ) (K : KeyHash) (B : Nat) (junk : Nat → UInt64) (self : PyMap τ)
    (keys : List PyObj) (default : PyObj) : Option (PyResult (List PyObj)) :=
  pyGetManyBox Ly K B junk self keys (boxed default)

/-! ## The two types -/

/-- `PyVerifiedConstMap_init`. -/
def pyVerifiedConstMapInit (E : Env) (H : Heap) (alloc : Bool) (self : PyMap Tables)
    (mapping : PyArg) (hashName : Option String) : Option (PyResult Unit × PyMap Tables) :=
  pyInit verifiedLayout "VerifiedConstMap" E H alloc self mapping hashName

/-- `PyVerifiedConstMap_get`. -/
def pyVerifiedConstMapGet (K : KeyHash) (self : PyMap Tables) (key default : PyObj) :
    Option (PyResult PyObj) := pyGet verifiedLayout K self key default

/-- `PyVerifiedConstMap_subscript`. -/
def pyVerifiedConstMapSubscript (K : KeyHash) (self : PyMap Tables) (key : PyObj) :
    Option (PyResult PyObj) := pySubscript verifiedLayout K self key

/-- `PyVerifiedConstMap_contains`. -/
def pyVerifiedConstMapContains (K : KeyHash) (self : PyMap Tables) (key : PyObj) :
    Option (PyResult Bool) := pyContains verifiedLayout K self key

/-- `PyVerifiedConstMap_get_many`. -/
def pyVerifiedConstMapGetMany (K : KeyHash) (B : Nat) (junk : Nat → UInt64) (self : PyMap Tables)
    (keys : List PyObj) (default : PyObj) : Option (PyResult (List PyObj)) :=
  pyGetMany verifiedLayout K B junk self keys default

/-- `PyPairedVerifiedConstMap_init`. -/
def pyPairedVerifiedConstMapInit (E : Env) (H : Heap) (alloc : Bool) (self : PyMap (List Slot))
    (mapping : PyArg) (hashName : Option String) : Option (PyResult Unit × PyMap (List Slot)) :=
  pyInit pairedLayout "PairedVerifiedConstMap" E H alloc self mapping hashName

/-- `PyPairedVerifiedConstMap_get`. -/
def pyPairedVerifiedConstMapGet (K : KeyHash) (self : PyMap (List Slot)) (key default : PyObj) :
    Option (PyResult PyObj) := pyGet pairedLayout K self key default

/-- `PyPairedVerifiedConstMap_subscript`. -/
def pyPairedVerifiedConstMapSubscript (K : KeyHash) (self : PyMap (List Slot)) (key : PyObj) :
    Option (PyResult PyObj) := pySubscript pairedLayout K self key

/-- `PyPairedVerifiedConstMap_contains`. -/
def pyPairedVerifiedConstMapContains (K : KeyHash) (self : PyMap (List Slot)) (key : PyObj) :
    Option (PyResult Bool) := pyContains pairedLayout K self key

/-- `PyPairedVerifiedConstMap_get_many`. -/
def pyPairedVerifiedConstMapGetMany (K : KeyHash) (B : Nat) (junk : Nat → UInt64)
    (self : PyMap (List Slot)) (keys : List PyObj) (default : PyObj) :
    Option (PyResult (List PyObj)) := pyGetMany pairedLayout K B junk self keys default

end FastConstMap
