import FastConstMap.Host
import FastConstMap.Proofs.BatchProofs
import FastConstMap.Proofs.LongKeyProofs
import FastConstMap.Proofs.RoundTripProofs
import FastConstMap.Proofs.SegmentProofs

/-!
# Proofs: lookups on a host

However the library is compiled, its lookups are the lookups of the model with one pair of key hashes. So a
map that one host writes answers on every other host as it does on the first.
-/

namespace FastConstMap

open CLoop Slices Vectors

variable {τ : Type}

/-! ## Slots -/

theorem nativeBytes_injective (le : Bool) : Function.Injective (nativeBytes le) := by
  intro v w h
  cases le with
  | true => exact writeU64_injective h
  | false => exact writeU64_injective (List.reverse_injective h)

/-- The host reads the word that it stored. -/
theorem nativeWordAt_of_slice (le : Bool) {p : Bytes} {off : Nat} {v : UInt64}
    (h : off + 8 ≤ p.length) (hslice : slice p off 8 = nativeBytes le v) :
    nativeWordAt le p off = v :=
  nativeBytes_injective le ((nativeBytes_nativeWordAt le h).trans hslice)

theorem length_slotBytes (le : Bool) (s : Slot) : (slotBytes le s).length = 16 := by
  rw [slotBytes, List.length_append, length_nativeBytes, length_nativeBytes]

/-- A load of 16 bytes at a slot gives its two words, and is in range where the slot is. -/
theorem vld1q_slots (le : Bool) (slots : List Slot) (i : Nat) :
    vld1q le (slots.flatMap (slotBytes le)) (i * 16) =
      (load slots i).map fun s => ⟨s.value, s.check⟩ := by
  have hlen : (slots.flatMap (slotBytes le)).length = slots.length * 16 :=
    length_flatMap (length_slotBytes le) slots
  by_cases hi : i < slots.length
  · have hslot := slice_flatMap (length_slotBytes le) slots hi
    have hvalue : slice (slots.flatMap (slotBytes le)) (i * 16) 8 = nativeBytes le slots[i].value := by
      rw [← Nat.add_zero (i * 16), ← slice_slice _ _ (show 0 + 8 ≤ 16 by decide), hslot]
      exact slice_append_self (length_nativeBytes le _) _
    have hcheck : slice (slots.flatMap (slotBytes le)) (i * 16 + 8) 8 =
        nativeBytes le slots[i].check := by
      rw [← slice_slice _ _ (show 8 + 8 ≤ 16 by decide), hslot, slotBytes]
      exact (slice_append_add (length_nativeBytes le _) _ 0 8).trans
        (List.take_of_length_le (by rw [List.drop_zero, length_nativeBytes]))
    rw [vld1q, if_pos (by omega), nativeWordAt_of_slice le (by omega) hvalue,
      nativeWordAt_of_slice le (by omega) hcheck, load_of_lt hi, Option.map_some]
  · rw [vld1q, if_neg (by omega), load, List.getElem?_eq_none (not_lt.mp hi), Option.map_none]

theorem loadu_slots (slots : List Slot) (i : Nat) :
    Xxh3.loadu (slots.flatMap (slotBytes true)) (i * 16) =
      (load slots i).map fun s => ⟨s.value, s.check⟩ := vld1q_slots true slots i

/-- Every form of `fcm_slot_xor3` reads inside of the slots exactly when the plain one does, and returns
the same slot. -/
theorem slotXor3On_eq (U : SlotUnit) (slots : List Slot) (h0 h1 h2 : Nat) :
    slotXor3On U slots h0 h1 h2 = slotXor3 slots h0 h1 h2 := by
  cases U with
  | scalar => rfl
  | sse2 =>
    simp only [slotXor3On, slotXor3Sse2, slotXor3, loadu_slots]
    cases load slots h0 <;> cases load slots h1 <;> cases load slots h2 <;> rfl
  | neon le =>
    simp only [slotXor3On, slotXor3Neon, slotXor3, vld1q_slots]
    cases load slots h0 <;> cases load slots h1 <;> cases load slots h2 <;> rfl

theorem pairedLayoutOn_eq (U : SlotUnit) : pairedLayoutOn U = pairedLayout := by
  simp only [pairedLayoutOn, slotXor3On_eq]
  rfl

/-! ## Key hashes -/

namespace Host

/-- The key hashes of a host. -/
def keyHash (X : Host) : KeyHash where
  xxh64 key := (hashKeyXxh64 X.xxh key).get (by rw [hashKeyXxh64_eq]; rfl)
  xxh3 key := (hashKeyXxh3 X.xxh key).get (by
    obtain ⟨h, hv⟩ := hashKeyXxh3_eq key
    rw [hv]
    rfl)

theorem hashKeyXxh64_keyHash (X : Host) (key : Bytes) :
    hashKeyXxh64 X.xxh key = some (X.keyHash.xxh64 key) := (Option.some_get _).symm

theorem hashKeyXxh3_keyHash (X : Host) (key : Bytes) :
    hashKeyXxh3 X.xxh key = some (X.keyHash.xxh3 key) := (Option.some_get _).symm

/-- All hosts have the same key hashes. -/
theorem keyHash_eq (X Y : Host) : X.keyHash = Y.keyHash := by
  have h64 : X.keyHash.xxh64 = Y.keyHash.xxh64 := by
    funext key
    have hX := X.hashKeyXxh64_keyHash key
    rw [hashKeyXxh64_eq, ← hashKeyXxh64_eq Y.xxh, Y.hashKeyXxh64_keyHash] at hX
    exact (Option.some.inj hX).symm
  have h3 : X.keyHash.xxh3 = Y.keyHash.xxh3 := by
    funext key
    obtain ⟨h, hv⟩ := hashKeyXxh3_eq key
    have hX := X.hashKeyXxh3_keyHash key
    rw [hv, ← hv Y.xxh, Y.hashKeyXxh3_keyHash] at hX
    exact (Option.some.inj hX).symm
  rw [KeyHash.mk.injEq]
  exact ⟨h64, h3⟩

section Lookups

variable {X : Host}

theorem hashKey_eq (hash : UInt32) (key : Bytes) :
    X.hashKey hash key = some (FastConstMap.hashKey X.keyHash hash key) := by
  rw [hashKey, FastConstMap.hashKey, hashKeyXxh64_keyHash, hashKeyXxh3_keyHash]
  split_ifs <;> rfl

theorem hashBlock_eq (hash : UInt32) (keys : List Bytes) (seed : UInt64) :
    X.hashBlock hash keys seed = some (FastConstMap.hashBlock X.keyHash hash keys seed) := by
  have hmapM : ∀ f : Bytes → UInt64,
      (keys.mapM fun key => (do
        let h ← some (f key)
        some (mixsplit h seed) : Option UInt64)) = some (keys.map fun key => mixsplit (f key) seed) := by
    intro f
    exact List.mapM_pure
  rw [hashBlock, FastConstMap.hashBlock]
  simp only [hashKeyXxh64_keyHash, hashKeyXxh3_keyHash, hmapM]
  split_ifs <;> rfl

theorem getH012_eq : X.getH012 = FastConstMap.getH012 := by
  funext hash L mask scl
  have hmul : X.mulHigh32 hash scl = FastConstMap.mulHigh32 hash scl := by
    rw [mulHigh32, mulHigh32Portable_eq, ite_self]
  rw [getH012, FastConstMap.getH012, hmul]

/-- The lookups of a host call what the lookups of the model call. -/
theorem code_eq : X.code = X.keyHash.code := by
  have hkey : X.hashKey = fun hash key => some (FastConstMap.hashKey X.keyHash hash key) :=
    funext fun hash => funext fun key => hashKey_eq hash key
  have hblock : X.hashBlock =
      fun hash keys seed => some (FastConstMap.hashBlock X.keyHash hash keys seed) :=
    funext fun hash => funext fun keys => funext fun seed => hashBlock_eq hash keys seed
  rw [code, KeyHash.code, hkey, hblock, getH012_eq]

/-- A single lookup on a host. -/
theorem lookup_eq (Ly : Layout τ) (m : MapOf τ) (key : Bytes) :
    lookupWith X.code Ly m key = lookup Ly X.keyHash m key := by
  rw [code_eq]
  rfl

/-- A batched lookup on a host. -/
theorem lookupMany_eq (Ly : Layout τ) (B : Nat) (m : MapOf τ) (keys : List Bytes) (out : List UInt64) :
    lookupManyWith X.code Ly B m keys out = lookupMany Ly X.keyHash B m keys out := by
  rw [code_eq]
  rfl

end Lookups

end Host

/-- Whatever the library is compiled for, its lookups, single and batched, are those of the model with one
pair of key hashes, which are `XXH64(key, len, 0)` and `XXH3_64bits(key, len)`; on every map, they also
read out of range on the same keys. -/
theorem hosts_agree : ∃ K : KeyHash,
    (∀ B addr key, key.length < 2 ^ 64 → Xxh64.hash B addr key 0 = some (K.xxh64 key)) ∧
    (∀ B key, Xxh3.bits64 B key = some (K.xxh3 key)) ∧
    ∀ X : Host,
      (∀ cm key, X.constmapLookup cm key = constmapLookup K cm key) ∧
      (∀ vm key, X.verifiedConstmapLookup vm key = verifiedConstmapLookup K vm key) ∧
      (∀ pm key, X.pairedVerifiedConstmapLookup pm key = pairedVerifiedConstmapLookup K pm key) ∧
      (∀ B cm keys out,
        X.constmapLookupMany B cm keys out = constmapLookupMany K B cm keys out) ∧
      (∀ B vm keys out,
        X.verifiedConstmapLookupMany B vm keys out = verifiedConstmapLookupMany K B vm keys out) ∧
      ∀ B pm keys out, X.pairedVerifiedConstmapLookupMany B pm keys out =
        pairedVerifiedConstmapLookupMany K B pm keys out := by
  refine ⟨Host.x86.keyHash, ?_, ?_, ?_⟩
  · intro B addr key hlen
    rw [← Host.hashKeyXxh64_keyHash, hashKeyXxh64_eq]
    exact Xxh64.hash_eq B addr 0 hlen
  · intro B key
    have hkey := Host.hashKeyXxh3_keyHash ⟨B, true, .scalar⟩ key
    rw [Host.keyHash_eq _ Host.x86] at hkey
    exact hkey
  · intro X
    rw [Host.keyHash_eq Host.x86 X]
    refine ⟨Host.lookup_eq _, Host.lookup_eq _, ?_, Host.lookupMany_eq _, Host.lookupMany_eq _, ?_⟩
    · intro pm key
      rw [Host.pairedVerifiedConstmapLookup, pairedLayoutOn_eq]
      exact Host.lookup_eq _ pm key
    · intro B pm keys out
      rw [Host.pairedVerifiedConstmapLookupMany, pairedLayoutOn_eq]
      exact Host.lookupMany_eq _ B pm keys out

/-! ## From host to host -/

/-- The bytes `bs` carry the map `m` from the host with the lookup `lookup` to the one with the lookup
`lookup'`: it is written as `bs`, read and viewed from them, whatever follows, answers every entry, and
every other key as before. -/
structure Ports (entries : List (Bytes × UInt64)) (write : MapOf τ → Bytes → Option (Rc × Bytes))
    (read : Heap → Bytes → Option (Rc × MapOf τ)) (view : Nat → Bytes → Option (Rc × MapOf τ))
    (lookup lookup' : MapOf τ → Bytes → Option UInt64) (m : MapOf τ) (bs : Bytes) : Prop
    extends Rewrites write read m bs where
  views : ∀ addr rest, addr % 8 = 0 → (bs ++ rest).length < 2 ^ 64 →
    view addr (bs ++ rest) = some (.ok, m)
  stored : ∀ e ∈ entries, lookup' m e.1 = some e.2
  agrees : ∀ key, lookup' m key = lookup m key

/-- What a writer wrote can be viewed at aligned addresses. -/
theorem Codec.Encodes.view {Cd : Codec τ} {Rep : τ → Nat → (Nat → Slot) → Prop}
    {answer : Slot → UInt64 → UInt64} (hCd : Cd.Lawful Rep answer) {m : MapOf τ} {bs : Bytes}
    (hm : Cd.WellFormed Rep m) (henc : Cd.Encodes m bs) {addr : Nat} (haddr : addr % 8 = 0)
    {rest : Bytes} (hlen : (bs ++ rest).length < 2 ^ 64) :
    FastConstMap.view Cd 64 true addr (bs ++ rest) = some (.ok, m) := by
  have hagrees := hCd.viewAgrees 64
  have hread := (henc.rewrites hCd hm).reads smallHeap rest fun _ => rfl
  obtain ⟨f, -, -, hview⟩ := hagrees.ok smallHeap (bs ++ rest) m hlen hread
  have hwrite : FastConstMap.write Cd m (bs ++ rest) = some (.ok, bs ++ rest) := by
    rw [henc.write (by rw [List.length_append]; omega), List.drop_left]
  have hneg := hagrees.written m _ _ hwrite addr haddr Cd.layout.zeroMap
  by_cases hmis : (addr + f.headerSize) % 8 ≠ 0
  · exact absurd ((hview addr).trans (congrArg some (if_pos hmis))) hneg
  · exact (hview addr).trans (congrArg some (if_neg hmis))

theorem ports_of_construct {Cd : Codec τ} {Rep : τ → Nat → (Nat → Slot) → Prop}
    {answer : Slot → UInt64 → UInt64} (hCd : Cd.Lawful Rep answer) {E : Env} {H : Heap}
    {out m : MapOf τ} {entries : List (Bytes × UInt64)} {hash : UInt32}
    (hlen : entries.length < 2 ^ 31)
    (h : newWithHash Cd.layout E H out entries hash = some (.ok, m))
    {lookup lookup' : MapOf τ → Bytes → Option UInt64}
    (hlookup : lookup = FastConstMap.lookup Cd.layout E.keyHash) (hlookup' : lookup' = lookup) :
    ∃ bs, bs.length = serializedSize Cd 64 m ∧
      Ports entries (write Cd) (read Cd 64) (FastConstMap.view Cd 64 true) lookup lookup' m bs := by
  subst hlookup hlookup'
  have hwf := (Produced.built h).wellFormed hCd
  obtain ⟨bs, henc, hsize⟩ := hwf.exists_encodes hCd
  exact ⟨bs, hsize, henc.rewrites hCd hwf,
    fun _ _ haddr hrest => henc.view hCd hwf haddr hrest,
    fun _ he => lookup_entry hCd.layout hlen h he, fun _ => rfl⟩

/-- A map that a constructor builds on one host is written there as bytes from which every other host gets a
map that answers every stored key with its value, and every other key as the first host does. -/
theorem maps_portable (X Y : Host) (E : Env) (hE : E.keyHash = X.keyHash) (H : Heap) (hash : UInt32)
    (entries : List (Bytes × UInt64)) (hlen : entries.length < 2 ^ 31) :
    (∀ out cm, constmapNewWithHash E H out entries hash = some (.ok, cm) →
      ∃ bs, bs.length = constmapSerializedSize 64 cm ∧ Ports entries constmapWrite (constmapRead 64)
        (constmapView 64 true) X.constmapLookup Y.constmapLookup cm bs) ∧
    (∀ out vm, verifiedConstmapNewWithHash E H out entries hash = some (.ok, vm) →
      ∃ bs, bs.length = verifiedConstmapSerializedSize 64 vm ∧
        Ports entries verifiedConstmapWrite (verifiedConstmapRead 64) (verifiedConstmapView 64 true)
          X.verifiedConstmapLookup Y.verifiedConstmapLookup vm bs) ∧
    ∀ out pm, pairedVerifiedConstmapNewWithHash E H out entries hash = some (.ok, pm) →
      ∃ bs, bs.length = pairedVerifiedConstmapSerializedSize 64 pm ∧
        Ports entries pairedVerifiedConstmapWrite (pairedVerifiedConstmapRead 64)
          (pairedVerifiedConstmapView 64 true) X.pairedVerifiedConstmapLookup
          Y.pairedVerifiedConstmapLookup pm bs := by
  have hlookup : ∀ {τ : Type} (Ly : Layout τ),
      (fun m key => lookupWith X.code Ly m key) = lookup Ly E.keyHash := by
    intro τ Ly
    funext m key
    rw [hE, Host.lookup_eq]
  have hlookup' : ∀ {τ : Type} (Ly : Layout τ),
      (fun m key => lookupWith Y.code Ly m key) = fun m key => lookupWith X.code Ly m key := by
    intro τ Ly
    funext m key
    rw [Host.lookup_eq, Host.lookup_eq, Host.keyHash_eq Y X]
  have hpaired : ∀ Z : Host, Z.pairedVerifiedConstmapLookup =
      fun m key => lookupWith Z.code pairedLayout m key := by
    intro Z
    funext pm key
    rw [Host.pairedVerifiedConstmapLookup, pairedLayoutOn_eq]
  refine ⟨?_, ?_, ?_⟩
  · intro out cm h
    exact ports_of_construct constmapCodec_lawful hlen h (hlookup _) (hlookup' _)
  · intro out vm h
    exact ports_of_construct verifiedCodec_lawful hlen h (hlookup _) (hlookup' _)
  · intro out pm h
    rw [hpaired X, hpaired Y]
    exact ports_of_construct pairedCodec_lawful hlen h (hlookup _) (hlookup' _)

/-- A map with one key, from a 64-bit x86 host to a big-endian one. -/
theorem maps_portable_one : ∃ pm bs,
    pairedVerifiedConstmapNewWithHash { smallEnv with keyHash := Host.x86.keyHash } smallHeap
      pairedLayout.zeroMap [([0x61], 100)] HASH_XXH64 = some (.ok, pm) ∧
    bs.length = pairedVerifiedConstmapSerializedSize 64 pm ∧
    pairedVerifiedConstmapRead 64 smallHeap bs = some (.ok, pm) ∧
    Host.bigEndian.pairedVerifiedConstmapLookup pm [0x61] = some 100 := by
  obtain ⟨pm, hpm⟩ := exists_ok (x := pairedVerifiedConstmapNewWithHash
    { smallEnv with keyHash := Host.x86.keyHash } smallHeap pairedLayout.zeroMap [([0x61], 100)]
    HASH_XXH64) (by decide +kernel)
  obtain ⟨bs, hlen, hports⟩ := (maps_portable Host.x86 Host.bigEndian
    { smallEnv with keyHash := Host.x86.keyHash } rfl smallHeap HASH_XXH64 [([0x61], 100)]
    (by decide)).2.2 _ pm hpm
  have hread := hports.reads smallHeap [] fun _ => rfl
  rw [List.append_nil] at hread
  exact ⟨pm, bs, hpm, hlen, hread, hports.stored ([0x61], 100) (List.mem_singleton.mpr rfl)⟩

end FastConstMap
