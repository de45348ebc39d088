import FastConstMap.Python
import FastConstMap.Serial

/-!
# Batched lookups into a buffer

`get_many_into` of the three Python types, and the other lookups of `ConstMap`. The methods of the three types
have one body over the layout; a writable buffer is its address and its bytes, and the words that the
core writes through a pointer into it are in the byte order of the host.
-/

namespace FastConstMap

open CLoop

variable {τ : Type}

/-! ## Words in memory -/

/-- The bytes of a word in the memory of the host. -/
def nativeBytes (littleEndian : Bool) (v : UInt64) : Bytes :=
  if littleEndian then writeU64 v else (writeU64 v).reverse

/-- The word that the host sees at `p + off`. -/
def nativeWordAt (littleEndian : Bool) (p : Bytes) (off : Nat) : UInt64 :=
  if littleEndian then wordAt p off else nativeU64 ((p.drop off).take 8).reverse

/-- `memcpy(buf + off, bs, len(bs))`. -/
def memcpy (buf : Bytes) (off : Nat) (bs : Bytes) : Option Bytes :=
  if off + bs.length ≤ buf.length then
    some (buf.take off ++ bs ++ buf.drop (off + bs.length))
  else none

/-- The body shared by the three `fcm_*_lookup_many`, with `(uint64_t *)(buf + off)` for the output: it
can write the whole words from there on. -/
def lookupManyAt (Ly : Layout τ) (K : KeyHash) (B : Nat) (littleEndian : Bool) (m : MapOf τ)
    (keys : List Bytes) (buf : Bytes) (off : Nat) : Option Bytes := do
  let words := (List.range ((buf.length - off) / 8)).map fun i =>
    nativeWordAt littleEndian buf (off + i * 8)
  let words ← lookupMany Ly K B m keys words
  memcpy buf off (words.flatMap (nativeBytes littleEndian))

/-! ## Buffers -/

/-- What the methods use of a writable `Py_buffer`. -/
structure PyBuffer where
  addr : Nat
  bytes : Bytes
deriving DecidableEq

/-- The test of `fcm_out_buffer`. The product does not overflow: the `n` items of the sequence, which
are pointers of 8 bytes, are in memory. -/
def outBuffer (n : Nat) (view : PyBuffer) : PyResult Unit :=
  let need := n * 8
  if view.bytes.length < need then
    .error (.valueError ("output buffer too small: need " ++ toString need ++ " bytes for " ++
      toString n ++ " keys, got " ++ toString view.bytes.length))
  else .ok ()

/-! ## The chunk loop -/

/-- One pass of the chunk loop of `get_many_into`, on the base, the buffer `vbuf` and the bytes of the
output: the core writes straight into an aligned output, else into `vbuf`, which is copied. -/
def getManyIntoStep (Ly : Layout τ) (K : KeyHash) (B : Nat) (littleEndian aligned : Bool)
    (self : PyMap τ) (keys : List PyObj) :
    PyResult (Nat × List UInt64) × Bytes → Option (Ctl (PyResult (Nat × List UInt64) × Bytes))
  | (.error e, buf) => some (.stop (.error e, buf))
  | (.ok (base, vbuf), buf) =>
    if base < keys.length then
      let m := if keys.length - base < PY_CHUNK then keys.length - base else PY_CHUNK
      match ((keys.drop base).take m).mapM (keyFromObject "keys must be str or bytes, not ") with
      | .error e => some (.stop (.error e, buf))
      | .ok kbuf =>
        if aligned then do
          let buf ← lookupManyAt Ly K B littleEndian self.map kbuf buf (base * 8)
          some (.next (.ok (base + PY_CHUNK, vbuf), buf))
        else do
          let vbuf ← lookupMany Ly K B self.map kbuf vbuf
          let vs ← tabulate (load vbuf) m
          let buf ← memcpy buf (base * 8) (vs.flatMap (nativeBytes littleEndian))
          some (.next (.ok (base + PY_CHUNK, vbuf), buf))
    else some (.stop (.ok (base, vbuf), buf))

/-- The body shared by the three `get_many_into(keys, out)`: what it returns, and the bytes of the
output. -/
def pyGetManyInto (Ly : Layout τ) (K : KeyHash) (B : Nat) (littleEndian : Bool)
    (junk : Nat → UInt64) (self : PyMap τ) (keys : List PyObj) (out : PyBuffer) :
    Option (PyResult PyObj × Bytes) :=
  match outBuffer keys.length out with
  | .error e => some (.error e, out.bytes)
  | .ok () => do
    let aligned := decide (out.addr % 8 = 0)
    let vbuf := (List.range PY_CHUNK).map junk
    let (r, buf) ← loop (getManyIntoStep Ly K B littleEndian aligned self keys) (keys.length + 1)
      (.ok (0, vbuf), out.bytes)
    match r with
    | .error e => some (.error e, buf)
    | .ok _ => some (.ok (.int keys.length), buf)

/-! ## The three types -/

/-- `PyConstMap_init`. -/
def pyConstMapInit (E : Env) (H : Heap) (alloc : Bool) (self : PyMap (List UInt64))
    (mapping : PyArg) (hashName : Option String) : Option (PyResult Unit × PyMap (List UInt64)) :=
  pyInit constmapLayout "ConstMap" E H alloc self mapping hashName

/-- `PyConstMap_get`, which has no default: every key has an answer. -/
def pyConstMapGet (K : KeyHash) (self : PyMap (List UInt64)) (key : PyObj) :
    Option (PyResult PyObj) :=
  match keyFromObject "key must be str or bytes, not " key with
  | .error e => some (.error e)
  | .ok s => do
    let v ← lookup constmapLayout K self.map s
    some (.ok (fromUnsignedLongLong v))

/-- `PyConstMap_subscript`. -/
def pyConstMapSubscript (K : KeyHash) (self : PyMap (List UInt64)) (key : PyObj) :
    Option (PyResult PyObj) := pyConstMapGet K self key

/-- `PyConstMap_get_many`, which has no default. -/
def pyConstMapGetMany (K : KeyHash) (B : Nat) (junk : Nat → UInt64) (self : PyMap (List UInt64))
    (keys : List PyObj) : Option (PyResult (List PyObj)) :=
  pyGetManyBox constmapLayout K B junk self keys fromUnsignedLongLong

/-- `PyConstMap_get_many_into`. -/
def pyConstMapGetManyInto (K : KeyHash) (B : Nat) (littleEndian : Bool) (junk : Nat → UInt64)
    (self : PyMap (List UInt64)) (keys : List PyObj) (out : PyBuffer) :
    Option (PyResult PyObj × Bytes) :=
  pyGetManyInto constmapLayout K B littleEndian junk self keys out

/-- `PyVerifiedConstMap_get_many_into`. -/
def pyVerifiedConstMapGetManyInto (K : KeyHash) (B : Nat) (littleEndian : Bool)
    (junk : Nat → UInt64) (self : PyMap Tables) (keys : List PyObj) (out : PyBuffer) :
    Option (PyResult PyObj × Bytes) :=
  pyGetManyInto verifiedLayout K B littleEndian junk self keys out

/-- `PyPairedVerifiedConstMap_get_many_into`. -/
def pyPairedVerifiedConstMapGetManyInto (K : KeyHash) (B : Nat) (littleEndian : Bool)
    (junk : Nat → UInt64) (self : PyMap (List Slot)) (keys : List PyObj) (out : PyBuffer) :
    Option (PyResult PyObj × Bytes) :=
  pyGetManyInto pairedLayout K B littleEndian junk self keys out

end FastConstMap
