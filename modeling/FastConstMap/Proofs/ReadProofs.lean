import FastConstMap.Lookup
import FastConstMap.Proofs.CodecProofs

/-!
# Proofs: readers and views

On every buffer the reader and the view of a map type decode the same map or return the same error,
allocation and alignment apart.
-/

namespace FastConstMap

open CLoop Slices

/-! ## Formats of a buffer -/

/-- A magic belongs to one format of a table. -/
theorem ProperFormats.eq_of_magic {formats : List Format} (hf : ProperFormats formats)
    {f g : Format} (hmf : f ∈ formats) (hmg : g ∈ formats) (h : f.magic = g.magic) : f = g := by
  have hfind := hf.find_magic f hmf
  rw [h, hf.find_magic g hmg, Option.some.injEq] at hfind
  exact hfind.symm

/-- The format of a writer has a header of 32 bytes. -/
theorem ProperFormats.formatFor_spec {formats : List Format} (hf : ProperFormats formats)
    {hash : UInt32} {fmt : Format} (h : formatFor formats hash = some fmt) :
    fmt ∈ formats ∧ fmt.hash = hash ∧ fmt.headerSize = 32 := by
  have hmem := List.mem_of_find?_eq_some h
  have hhash : fmt.hash = hash := by simpa using List.find?_some h
  obtain ⟨g, hg, hgh, hg32⟩ := hf.known fmt.hash (hf.hash fmt hmem)
  have hfor := hf.find_hash g hg hg32
  rw [hgh, hhash, h, Option.some.injEq] at hfor
  exact ⟨hmem, hhash, hfor ▸ hg32⟩

/-! ## Results of the readers and the views -/

section Read

variable {τ : Type} {Cd : Codec τ} {Rep : τ → Nat → (Nat → Slot) → Prop}
  {answer : Slot → UInt64 → UInt64} {w : Nat} {H : Heap} {p : Bytes} {h : Header} {rc : Rc}
  {m : MapOf τ} {addr : Nat}

/-- An array without entries is the null pointer of an empty map. -/
theorem Codec.Lawful.borrow_zero (hCd : Cd.Lawful Rep answer) (w : Nat) (p : Bytes) (off : Nat) :
    Cd.borrow w p off 0 = Cd.layout.null := by
  obtain ⟨f, hborrow⟩ := hCd.borrow w p off 0
  obtain ⟨g, hnull⟩ := hCd.null
  obtain ⟨bs, hbs, hlen⟩ := hCd.encode hborrow
  obtain ⟨bs', hbs', hlen'⟩ := hCd.encode hnull
  rw [Nat.zero_mul, List.length_eq_zero_iff] at hlen hlen'
  apply hCd.encode_injective hborrow hnull
  rw [hbs, hbs', hlen, hlen']

theorem view_of_error {rc : Rc} (hparse : parse w Cd.formats Cd.entryBytes p = some (.error rc)) :
    view Cd w true addr p = some (rc, Cd.layout.zeroMap) := by
  unfold view
  rw [hparse]
  rfl

/-- What the view makes of a header. -/
theorem view_of_ok (hparse : parse w Cd.formats Cd.entryBytes p = some (.ok h)) :
    view Cd w true addr p = some
      (if Cd.paramsOk h.segmentLength h.segmentCount h.dataLen = false then
        (.invalidParams, Cd.layout.zeroMap)
      else if (addr + h.payload) % 8 ≠ 0 then (.unaligned, Cd.layout.zeroMap)
      else (.ok, setHeader h (Cd.borrow w p h.payload h.dataLen.toNat))) := by
  unfold view
  rw [hparse]
  simp only [Bool.true_eq_false, if_false, Option.bind_eq_bind, Option.bind_some]
  split_ifs <;> rfl

/-- A reader returns an error and a zeroed map, where the view returns the same error unless memory
ran out, or the map of a header whose parameters are fine. -/
theorem read_cases (hread : read Cd w H p = some (rc, m)) :
    (rc ≠ .ok ∧ m = Cd.layout.zeroMap ∧
      (rc ≠ .nomem → ∀ addr, view Cd w true addr p = some (rc, Cd.layout.zeroMap))) ∨
    rc = .ok ∧ ∃ h table, parse w Cd.formats Cd.entryBytes p = some (.ok h) ∧
      Cd.paramsOk h.segmentLength h.segmentCount h.dataLen = true ∧
      (Cd.decode w p h.payload h.dataLen.toNat = some table ∨
        h.dataLen.toNat = 0 ∧ table = Cd.layout.null) ∧
      m = setHeader h table := by
  obtain ⟨r, hparse, hr⟩ := Option.bind_eq_some_iff.mp hread
  rcases parse_cases hparse with ⟨rc', rfl, hok, -⟩ | ⟨h, rfl, -⟩
  · obtain ⟨rfl, rfl⟩ := Prod.mk.inj (Option.some.inj hr)
    exact Or.inl ⟨hok, rfl, fun _ addr => view_of_error hparse⟩
  simp only at hr
  by_cases hparams : Cd.paramsOk h.segmentLength h.segmentCount h.dataLen = false
  · rw [if_pos hparams] at hr
    obtain ⟨rfl, rfl⟩ := Prod.mk.inj (Option.some.inj hr)
    refine Or.inl ⟨by decide, rfl, ?_⟩
    intro _ addr
    rw [view_of_ok hparse, if_pos hparams]
  rw [if_neg hparams] at hr
  have hparams' := Bool.of_not_eq_false hparams
  by_cases hlen : h.dataLen > 0
  · rw [if_pos hlen] at hr
    by_cases hnomem : ¬ (∀ b ∈ Cd.layout.buffers, H.ok b = true)
    · rw [if_pos hnomem] at hr
      obtain ⟨rfl, rfl⟩ := Prod.mk.inj (Option.some.inj hr)
      exact Or.inl ⟨by decide, rfl, fun hne => absurd rfl hne⟩
    · rw [if_neg hnomem] at hr
      obtain ⟨table, hdecode, hr⟩ := Option.bind_eq_some_iff.mp hr
      obtain ⟨rfl, rfl⟩ := Prod.mk.inj (Option.some.inj hr)
      exact Or.inr ⟨rfl, h, table, hparse, hparams', Or.inl hdecode, rfl⟩
  · rw [if_neg hlen] at hr
    obtain ⟨rfl, rfl⟩ := Prod.mk.inj (Option.some.inj hr)
    have hzero : h.dataLen.toNat = 0 := by
      by_contra hne
      exact hlen (UInt32.lt_iff_toNat_lt.mpr (Nat.pos_of_ne_zero hne))
    exact Or.inr ⟨rfl, h, _, hparse, hparams', Or.inr ⟨hzero, rfl⟩, rfl⟩

/-- A view returns an error and a zeroed map, for lack of alignment or for another reason, or the map
of a header whose parameters are fine. -/
theorem view_cases {littleEndian : Bool} (hview : view Cd w littleEndian addr p = some (rc, m)) :
    (rc ≠ .ok ∧ rc ≠ .unaligned ∧ m = Cd.layout.zeroMap) ∨
    ∃ h, parse w Cd.formats Cd.entryBytes p = some (.ok h) ∧
      Cd.paramsOk h.segmentLength h.segmentCount h.dataLen = true ∧
      ((addr + h.payload) % 8 ≠ 0 ∧ rc = .unaligned ∧ m = Cd.layout.zeroMap ∨
        rc = .ok ∧ m = setHeader h (Cd.borrow w p h.payload h.dataLen.toNat)) := by
  cases littleEndian with
  | false =>
    obtain ⟨rfl, rfl⟩ := Prod.mk.inj (Option.some.inj hview)
    exact Or.inl ⟨by decide, by decide, rfl⟩
  | true =>
    obtain ⟨r, hparse, -⟩ := Option.bind_eq_some_iff.mp hview
    rcases parse_cases hparse with ⟨rc', rfl, hok, hunaligned⟩ | ⟨h, rfl, -⟩
    · rw [view_of_error hparse] at hview
      obtain ⟨rfl, rfl⟩ := Prod.mk.inj (Option.some.inj hview)
      exact Or.inl ⟨hok, hunaligned, rfl⟩
    rw [view_of_ok hparse] at hview
    split_ifs at hview with hparams halign
    · obtain ⟨rfl, rfl⟩ := Prod.mk.inj (Option.some.inj hview)
      exact Or.inl ⟨by decide, by decide, rfl⟩
    · obtain ⟨rfl, rfl⟩ := Prod.mk.inj (Option.some.inj hview)
      exact Or.inr ⟨h, hparse, Bool.of_not_eq_false hparams, Or.inl ⟨halign, rfl, rfl⟩⟩
    · obtain ⟨rfl, rfl⟩ := Prod.mk.inj (Option.some.inj hview)
      exact Or.inr ⟨h, hparse, Bool.of_not_eq_false hparams, Or.inr ⟨rfl, rfl⟩⟩

/-- Whatever the size of `size_t`, a map that a reader or a view returned has the fields of a header
that passed the parameter check, and arrays of `data_len` entries. -/
def Codec.Deserialized (Cd : Codec τ) (Rep : τ → Nat → (Nat → Slot) → Prop) (m : MapOf τ) : Prop :=
  ∃ (h : Header) (table : τ), Cd.paramsOk h.segmentLength h.segmentCount h.dataLen = true ∧
    (∃ f, Rep table h.dataLen.toNat f) ∧ m = setHeader h table

theorem read_deserialized (hCd : Cd.Lawful Rep answer)
    (hread : read Cd w H p = some (.ok, m)) : Cd.Deserialized Rep m := by
  rcases read_cases hread with ⟨hok, -⟩ | ⟨-, h, table, -, hparams, htable, rfl⟩
  · exact absurd rfl hok
  refine ⟨h, table, hparams, ?_, rfl⟩
  rcases htable with hdecode | ⟨hzero, rfl⟩
  · exact hCd.decode_rep hdecode
  · rw [hzero]
    exact hCd.null

theorem view_deserialized (hCd : Cd.Lawful Rep answer) {littleEndian : Bool}
    (hview : view Cd w littleEndian addr p = some (.ok, m)) : Cd.Deserialized Rep m := by
  rcases view_cases hview with ⟨hok, -⟩ | ⟨h, -, hparams, ⟨-, hok, -⟩ | ⟨-, rfl⟩⟩
  · exact absurd rfl hok
  · exact absurd hok (by decide)
  · exact ⟨h, _, hparams, hCd.borrow w p h.payload h.dataLen.toNat, rfl⟩

/-! ## Described maps -/

/-- The map that a buffer with the header `h` describes. -/
def Codec.mapAt (Cd : Codec τ) (p : Bytes) (h : Header) : MapOf τ :=
  setHeader h (Cd.borrow 64 p h.payload h.dataLen.toNat)

/-- The buffer `p` with the header `h` describes the map `m`. -/
structure Codec.Describes (Cd : Codec τ) (p : Bytes) (h : Header) (m : MapOf τ) : Prop where
  accepted : Accepted Cd.formats Cd.entryBytes p h
  paramsOk : Cd.paramsOk h.segmentLength h.segmentCount h.dataLen = true
  map : m = Cd.mapAt p h

/-- A reader returns the map that the buffer describes. -/
theorem read_ok (hCd : Cd.Lawful Rep answer) (hread : read Cd 64 H p = some (.ok, m)) :
    ∃ h, Cd.Describes p h m := by
  rcases read_cases hread with ⟨hok, -⟩ | ⟨-, h, table, hparse, hparams, htable, rfl⟩
  · exact absurd rfl hok
  have hacc := (parse_ok_iff hCd.formats hCd.entryBytes).mp hparse
  refine ⟨h, hacc, hparams, ?_⟩
  rcases htable with hdecode | ⟨hzero, rfl⟩
  · rw [hCd.decode h.dataLen.toNat_lt hacc.payload_le, Option.some.injEq] at hdecode
    rw [Codec.mapAt, hdecode]
  · rw [Codec.mapAt, hzero, hCd.borrow_zero]

/-- A view returns the map that the buffer describes. -/
theorem view_ok (hCd : Cd.Lawful Rep answer) {littleEndian : Bool}
    (hview : view Cd 64 littleEndian addr p = some (.ok, m)) : ∃ h, Cd.Describes p h m := by
  rcases view_cases hview with ⟨hok, -⟩ | ⟨h, hparse, hparams, ⟨-, hok, -⟩ | ⟨-, rfl⟩⟩
  · exact absurd rfl hok
  · exact absurd hok (by decide)
  · exact ⟨h, (parse_ok_iff hCd.formats hCd.entryBytes).mp hparse, hparams, rfl⟩

/-- What the reader makes of an accepted buffer. -/
theorem read_of_accepted (hCd : Cd.Lawful Rep answer)
    (hacc : Accepted Cd.formats Cd.entryBytes p h) : read Cd 64 H p = some
      (if Cd.paramsOk h.segmentLength h.segmentCount h.dataLen = false then
        (.invalidParams, Cd.layout.zeroMap)
      else if h.dataLen > 0 ∧ ¬ (∀ b ∈ Cd.layout.buffers, H.ok b = true) then
        (.nomem, Cd.layout.zeroMap)
      else (.ok, Cd.mapAt p h)) := by
  unfold read
  rw [(parse_ok_iff hCd.formats hCd.entryBytes).mpr hacc]
  simp only [Option.bind_eq_bind, Option.bind_some]
  by_cases hparams : Cd.paramsOk h.segmentLength h.segmentCount h.dataLen = false
  · rw [if_pos hparams, if_pos hparams]
  rw [if_neg hparams, if_neg hparams]
  by_cases hlen : h.dataLen > 0
  · rw [if_pos hlen]
    by_cases hnomem : ¬ (∀ b ∈ Cd.layout.buffers, H.ok b = true)
    · rw [if_pos hnomem, if_pos ⟨hlen, hnomem⟩]
    · rw [if_neg hnomem, if_neg (fun hboth => hnomem hboth.2),
        hCd.decode h.dataLen.toNat_lt hacc.payload_le]
      rfl
  · rw [if_neg hlen, if_neg (fun hboth => hlen hboth.1)]
    have hzero : h.dataLen.toNat = 0 := by
      by_contra hne
      exact hlen (UInt32.lt_iff_toNat_lt.mpr (Nat.pos_of_ne_zero hne))
    rw [Codec.mapAt, hzero, hCd.borrow_zero]

/-- When memory suffices, a reader accepts every buffer that describes a map. -/
theorem Codec.Describes.read (hCd : Cd.Lawful Rep answer) (hd : Cd.Describes p h m)
    (hok : ∀ b, H.ok b = true) : read Cd 64 H p = some (.ok, m) := by
  rw [read_of_accepted hCd hd.accepted, if_neg (by rw [hd.paramsOk]; decide),
    if_neg (fun hboth => hboth.2 fun b _ => hok b), hd.map]

/-! ## Reading and viewing -/

/-- With a `size_t` of `w` bits, the views `view` of buffers at an address agree with the reader `read`:
they return the errors of the reader other than `FCM_E_NOMEM`, reject the buffers that the reader
accepts exactly when their arrays are not 8-byte aligned, and otherwise return its map; after an error
`*out` is zeroed, and answers every key with `missing`. What `write` wrote is never misaligned at an
aligned address. With 64 bits, where no size wraps, both return on every buffer. -/
structure ViewAgrees (w : Nat) (formats : List Format) (zero : MapOf τ) (missing : UInt64)
    (lookup : KeyHash → MapOf τ → Bytes → Option UInt64)
    (read : Heap → Bytes → Option (Rc × MapOf τ)) (view : Nat → Bytes → Option (Rc × MapOf τ))
    (write : MapOf τ → Bytes → Option (Rc × Bytes)) : Prop where
  total : w = 64 → ∀ H addr p, (∃ r, read H p = some r) ∧ ∃ r, view addr p = some r
  read_zero : ∀ H p rc m, read H p = some (rc, m) → rc ≠ .ok → m = zero
  view_zero : ∀ addr p rc m, view addr p = some (rc, m) → rc ≠ .ok → m = zero
  zero_lookup : ∀ K key, lookup K zero key = some missing
  error : ∀ H p rc m, read H p = some (rc, m) → rc ≠ .ok → rc ≠ .nomem →
    ∀ addr, view addr p = some (rc, zero)
  ok : ∀ H p m, p.length < 2 ^ w → read H p = some (.ok, m) →
    ∃ f ∈ formats, p.take 8 = f.magic ∧ ∀ addr,
      view addr p = some (if (addr + f.headerSize) % 8 ≠ 0 then (.unaligned, zero) else (.ok, m))
  written : ∀ m buf buf', write m buf = some (.ok, buf') → ∀ addr, addr % 8 = 0 →
    ∀ out, view addr buf' ≠ some (.unaligned, out)

/-- What a writer wrote begins with the magic of a format with a header of 32 bytes. -/
theorem write_magic (hCd : Cd.Lawful Rep answer) {buf buf' : Bytes}
    (hwrite : write Cd m buf = some (.ok, buf')) :
    ∃ fmt ∈ Cd.formats, fmt.headerSize = 32 ∧ buf'.take 8 = fmt.magic := by
  unfold write at hwrite
  split at hwrite
  · obtain ⟨hrc, -⟩ := Prod.mk.inj (Option.some.inj hwrite)
    exact absurd hrc (by decide)
  rename_i fmt hfor
  obtain ⟨hmem, -, h32⟩ := hCd.formats.formatFor_spec hfor
  obtain ⟨payload, -, hwrite⟩ := Option.bind_eq_some_iff.mp hwrite
  simp only at hwrite
  split_ifs at hwrite
  obtain rfl := (Prod.mk.inj (Option.some.inj hwrite)).2
  refine ⟨fmt, hmem, h32, ?_⟩
  simp only [withChecksum, writeHeader, List.append_assoc]
  rw [← slice_zero, slice_append_self (hCd.formats.magic fmt hmem)]

theorem Codec.Lawful.viewAgrees (hCd : Cd.Lawful Rep answer) (w : Nat) :
    ViewAgrees w Cd.formats Cd.layout.zeroMap Cd.layout.missing (lookup Cd.layout) (read Cd w)
      (view Cd w true) (write Cd) where
  total hw H addr p := by
    subst hw
    have hparse : ∃ r, parse 64 Cd.formats Cd.entryBytes p = some r :=
      ⟨_, parse_eq hCd.formats hCd.entryBytes p⟩
    obtain ⟨r, hparse⟩ := hparse
    cases r with
    | error rc =>
      refine ⟨⟨(rc, Cd.layout.zeroMap), ?_⟩, _, view_of_error hparse⟩
      unfold read
      rw [hparse]
      rfl
    | ok h =>
      have hacc := (parse_ok_iff hCd.formats hCd.entryBytes).mp hparse
      exact ⟨⟨_, read_of_accepted hCd hacc⟩, _, view_of_ok hparse⟩
  read_zero H p rc m hread hrc := by
    rcases read_cases hread with ⟨-, hm, -⟩ | ⟨hok, -⟩
    · exact hm
    · exact absurd hok hrc
  view_zero addr p rc m hview hrc := by
    rcases view_cases hview with ⟨-, -, hm⟩ | ⟨h, -, -, ⟨-, -, hm⟩ | ⟨hok, -⟩⟩
    · exact hm
    · exact hm
    · exact absurd hok hrc
  zero_lookup _ _ := rfl
  error H p rc m hread hrc hmem := by
    rcases read_cases hread with ⟨-, -, hview⟩ | ⟨hok, -⟩
    · exact hview hmem
    · exact absurd hok hrc
  ok H p m hp hread := by
    rcases read_cases hread with ⟨hok, -⟩ | ⟨-, h, table, hparse, hparams, htable, rfl⟩
    · exact absurd rfl hok
    rcases parse_cases hparse with ⟨rc, hrc, -⟩ | ⟨h', hh', hmem, hmagic, hpayload, hlen⟩
    · exact absurd hrc (by simp)
    obtain rfl : h = h' := by simpa using hh'
    have hsize := hCd.formats.headerSize h.format hmem
    -- The buffer has room for a header, so its length has at least six bits.
    have hdvd : 16 ∣ 2 ^ w := by
      have hw : 4 ≤ w := by
        by_contra hlt
        have hpow : 2 ^ w ≤ 2 ^ 4 := Nat.pow_le_pow_right (by decide) (by omega)
        omega
      exact Nat.pow_dvd_pow 2 hw
    have htable' : table = Cd.borrow w p h.payload h.dataLen.toNat := by
      rcases htable with hdecode | ⟨hzero, rfl⟩
      · exact hCd.decode_borrow hdvd hp hdecode
      · rw [hzero, hCd.borrow_zero]
    refine ⟨h.format, hmem, hmagic, ?_⟩
    intro addr
    rw [view_of_ok hparse, if_neg (by rw [hparams]; decide), hpayload, htable', hpayload]
  written m buf buf' hwrite addr haddr out hview := by
    obtain ⟨fmt, hfmt, h32, hbuf⟩ := write_magic hCd hwrite
    rcases view_cases hview with ⟨-, hne, -⟩ | ⟨h, hparse, -, ⟨halign, -⟩ | ⟨hrc, -⟩⟩
    · exact hne rfl
    · rcases parse_cases hparse with ⟨rc, hrc, -⟩ | ⟨h', hh', hmem, hmagic, hpayload, -⟩
      · exact absurd hrc (by simp)
      obtain rfl : h = h' := by simpa using hh'
      have hformat := hCd.formats.eq_of_magic hmem hfmt (hmagic.symm.trans hbuf)
      rw [hpayload, hformat, h32] at halign
      omega
    · exact absurd hrc (by decide)

end Read

/-- Zero-copy views agree with copying reads, on every buffer at every address: errors other than
`FCM_E_NOMEM` are the same, an accepted buffer is rejected by the view exactly when its arrays are
misaligned, which a buffer that the library wrote never is at an 8-aligned address and a `CMAP0001`
buffer always is there, and otherwise the maps are equal. -/
theorem view_agrees_read (w : Nat) :
    ViewAgrees w constmapFormats constmapLayout.zeroMap 0 constmapLookup (constmapRead w)
      (constmapView w true) constmapWrite ∧
    ViewAgrees w verifiedFormats verifiedLayout.zeroMap NOT_FOUND verifiedConstmapLookup
      (verifiedConstmapRead w) (verifiedConstmapView w true) verifiedConstmapWrite ∧
    ViewAgrees w pairedFormats pairedLayout.zeroMap NOT_FOUND pairedVerifiedConstmapLookup
      (pairedVerifiedConstmapRead w) (pairedVerifiedConstmapView w true)
      pairedVerifiedConstmapWrite ∧
    ∀ H p cm addr, p.length < 2 ^ w → constmapRead w H p = some (.ok, cm) →
      p.take 8 = magicOf ['C', 'M', 'A', 'P', '0', '0', '0', '1'] → addr % 8 = 0 →
      constmapView w true addr p = some (.unaligned, constmapLayout.zeroMap) := by
  have hagrees := constmapCodec_lawful.viewAgrees w
  refine ⟨hagrees, verifiedCodec_lawful.viewAgrees w, pairedCodec_lawful.viewAgrees w, ?_⟩
  intro H p cm addr hp hread hmagic haddr
  obtain ⟨f, hf, hfm, hview⟩ := hagrees.ok H p cm hp hread
  have h28 : f = constmapFormats[1] :=
    constmapFormats_proper.eq_of_magic hf (by decide) (hfm.symm.trans hmagic)
  have hmis : (addr + f.headerSize) % 8 ≠ 0 := by
    rw [h28]
    show (addr + 28) % 8 ≠ 0
    omega
  exact (hview addr).trans (congrArg some (if_pos hmis))

/-- A `CMAP0001` buffer with one word, at two addresses. -/
theorem view_agrees_read_misaligned :
    let p := withChecksum (magicOf ['C', 'M', 'A', 'P', '0', '0', '0', '1'] ++ writeU64 7 ++
      writeU32 1 ++ writeU32 1 ++ writeU32 1 ++ writeU64 5)
    ∃ cm, constmapRead 64 smallHeap p = some (.ok, cm) ∧
      constmapView 64 true 0 p = some (.unaligned, constmapLayout.zeroMap) ∧
      constmapView 64 true 4 p = some (.ok, cm) := by
  intro p
  obtain ⟨cm, hcm⟩ : ∃ cm : ConstMap, cm = ⟨7, 1, 0, 1, 1, 1, 0, [5], 0⟩ := ⟨_, rfl⟩
  have hread : constmapRead 64 smallHeap p = some (.ok, cm) := by
    subst hcm
    decide +kernel
  obtain ⟨hagrees, -, -, hmisaligned⟩ := view_agrees_read 64
  have hlen : p.length < 2 ^ 64 := by decide +kernel
  obtain ⟨f, hf, hmagic, hview⟩ := hagrees.ok smallHeap p cm hlen hread
  have h28 : f = constmapFormats[1] :=
    constmapFormats_proper.eq_of_magic hf (by decide) (hmagic.symm.trans (by decide +kernel))
  refine ⟨cm, hread, hmisaligned smallHeap p cm 0 hlen hread (by decide +kernel) rfl, ?_⟩
  rw [hview, h28]
  rfl

end FastConstMap
