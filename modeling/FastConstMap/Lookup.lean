import FastConstMap.Maps

/-!
# Single and batched lookups (`fcm_*_lookup`, `fcm_*_lookup_many`)
-/

namespace FastConstMap

open CLoop

variable {τ : Type}

/-! ## Key hashes and positions -/

/-- The functions that a lookup calls and that depend on the host: `fcm_hash_key`, `fcm_hash_block` and
`fcm_get_h012`. -/
structure LookupCode where
  hashKey : UInt32 → Bytes → Option UInt64
  hashBlock : UInt32 → List Bytes → UInt64 → Option (List UInt64)
  getH012 : UInt64 → UInt32 → UInt32 → UInt32 → UInt32 × UInt32 × UInt32

/-- The functions of `constmap.c`, for a pair of key hashes. -/
def KeyHash.code (K : KeyHash) : LookupCode where
  hashKey hash key := some (hashKey K hash key)
  hashBlock hash keys seed := some (hashBlock K hash keys seed)
  getH012 := getH012

/-! ## Lookup -/

/-- The body shared by the three `fcm_*_lookup`. -/
def lookupWith (C : LookupCode) (Ly : Layout τ) (m : MapOf τ) (key : Bytes) : Option UInt64 :=
  if m.dataLen = 0 then some Ly.missing
  else do
    let h ← C.hashKey m.hash key
    let hash := mixsplit h m.seed
    let (h0, h1, h2) := C.getH012 hash m.segmentLength m.segmentLengthMask m.segmentCountLength
    Ly.get m.table h0.toNat h1.toNat h2.toNat hash

/-- A lookup with the key hashes `K`. -/
def lookup (Ly : Layout τ) (K : KeyHash) (m : MapOf τ) (key : Bytes) : Option UInt64 :=
  lookupWith K.code Ly m key

/-- `fcm_constmap_lookup`. -/
def constmapLookup (K : KeyHash) (cm : ConstMap) (key : Bytes) : Option UInt64 :=
  lookup constmapLayout K cm key

/-- `fcm_verified_constmap_lookup`. -/
def verifiedConstmapLookup (K : KeyHash) (vm : VerifiedConstMap) (key : Bytes) : Option UInt64 :=
  lookup verifiedLayout K vm key

/-- `fcm_paired_verified_constmap_lookup`. -/
def pairedVerifiedConstmapLookup (K : KeyHash) (pm : PairedVerifiedConstMap) (key : Bytes) :
    Option UInt64 :=
  lookup pairedLayout K pm key

/-! ## Batched lookup -/

/-- One full block of a batched lookup, from key `i` on: all hashes, then all positions, then the
values. -/
def lookupBlock (C : LookupCode) (Ly : Layout τ) (m : MapOf τ) (B : Nat) (keys : List Bytes) (i : Nat)
    (out : List UInt64) : Option (List UInt64) := do
  let hashes ← C.hashBlock m.hash ((keys.drop i).take B) m.seed
  let positions := hashes.map fun hash =>
    C.getH012 hash m.segmentLength m.segmentLengthMask m.segmentCountLength
  forUp (fun j out => do
    let (h0, h1, h2) ← load positions j
    let hash ← load hashes j
    let v ← Ly.gather m.table h0.toNat h1.toNat h2.toNat hash
    store out (i + j) v) 0 B out

/-- One pass of the block loop: `for (; i + B <= n; i += B)`. -/
def lookupManyStep (C : LookupCode) (Ly : Layout τ) (m : MapOf τ) (B : Nat) (keys : List Bytes)
    (s : Nat × List UInt64) : Option (Ctl (Nat × List UInt64)) :=
  if s.1 + B ≤ keys.length then do
    let out ← lookupBlock C Ly m B keys s.1 s.2
    some (.next (s.1 + B, out))
  else some (.stop s)

/-- The body shared by the three `fcm_*_lookup_many`, for the block size `B` (`FCM_BATCH_BLOCK`). -/
def lookupManyWith (C : LookupCode) (Ly : Layout τ) (B : Nat) (m : MapOf τ) (keys : List Bytes)
    (out : List UInt64) : Option (List UInt64) :=
  if m.dataLen = 0 then forUp (fun i out => store out i Ly.missing) 0 keys.length out
  else do
    let s ← loop (lookupManyStep C Ly m B keys) (keys.length + 1) (0, out)
    -- The tail: fewer than one block left.
    forUp (fun i out => do
      let key ← load keys i
      let v ← lookupWith C Ly m key
      store out i v) s.1 (keys.length - s.1) s.2

/-- A batched lookup with the key hashes `K`. -/
def lookupMany (Ly : Layout τ) (K : KeyHash) (B : Nat) (m : MapOf τ) (keys : List Bytes)
    (out : List UInt64) : Option (List UInt64) :=
  lookupManyWith K.code Ly B m keys out

/-- `fcm_constmap_lookup_many`. -/
def constmapLookupMany (K : KeyHash) (B : Nat) (cm : ConstMap) (keys : List Bytes)
    (out : List UInt64) : Option (List UInt64) :=
  lookupMany constmapLayout K B cm keys out

/-- `fcm_verified_constmap_lookup_many`. -/
def verifiedConstmapLookupMany (K : KeyHash) (B : Nat) (vm : VerifiedConstMap) (keys : List Bytes)
    (out : List UInt64) : Option (List UInt64) :=
  lookupMany verifiedLayout K B vm keys out

/-- `fcm_paired_verified_constmap_lookup_many`. -/
def pairedVerifiedConstmapLookupMany (K : KeyHash) (B : Nat) (pm : PairedVerifiedConstMap)
    (keys : List Bytes) (out : List UInt64) : Option (List UInt64) :=
  lookupMany pairedLayout K B pm keys out

end FastConstMap
