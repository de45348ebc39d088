import FastConstMap.Persist
import FastConstMap.Proofs.CorruptionProofs
import FastConstMap.Proofs.RoundTripProofs

/-!
# Proofs: bytes objects, buffers and files

What the serialising methods return for a well-formed map. Whatever goes wrong while a map is saved, a
later `load` returns the saved map or raises an exception, unless the file was never opened.
-/

namespace FastConstMap

open CLoop Slices

variable {τ : Type} {Cd : Codec τ} {Rep : τ → Nat → (Nat → Slot) → Prop}
  {answer : Slot → UInt64 → UInt64} {m : MapOf τ} {p bs : Bytes}

/-! ## What a byte string holds -/

/-- The map that a byte string holds: what the reader makes of it when memory suffices. -/
def Codec.contents (Cd : Codec τ) (p : Bytes) : Option (MapOf τ) :=
  match read Cd 64 smallHeap p with
  | some (.ok, m) => some m
  | _ => none

theorem contents_of_read (hread : read Cd 64 smallHeap p = some (.ok, m)) :
    Cd.contents p = some m := by
  rw [Codec.contents, hread]

theorem Codec.Describes.contents (hCd : Cd.Lawful Rep answer) {h : Header}
    (hd : Cd.Describes p h m) : Cd.contents p = some m :=
  contents_of_read (hd.read hCd fun _ => rfl)

theorem contents_of_error {rc : Rc} (hrc : rc ≠ .ok)
    (hread : read Cd 64 smallHeap p = some (rc, m)) : Cd.contents p = none := by
  rw [Codec.contents, hread]
  cases rc with
  | ok => exact absurd rfl hrc
  | _ => rfl

/-- Whatever the memory, a reader that succeeds returns what the buffer holds. -/
theorem read_contents (hCd : Cd.Lawful Rep answer) {H : Heap}
    (hread : read Cd 64 H p = some (.ok, m)) : Cd.contents p = some m := by
  obtain ⟨_, hd⟩ := read_ok hCd hread
  exact hd.contents hCd

theorem view_contents (hCd : Cd.Lawful Rep answer) {le : Bool} {addr : Nat}
    (hview : view Cd 64 le addr p = some (.ok, m)) : Cd.contents p = some m := by
  obtain ⟨_, hd⟩ := view_ok hCd hview
  exact hd.contents hCd

theorem contents_describes (hCd : Cd.Lawful Rep answer) (h : Cd.contents p = some m) :
    ∃ h, Cd.Describes p h m := by
  unfold Codec.contents at h
  split at h
  · rename_i m' hread
    obtain rfl := Option.some.inj h
    exact read_ok hCd hread
  · exact absurd h (by simp)

/-! ## Encodings -/

/-- The encoding of a well-formed map is what the parser accepts, with nothing behind it. -/
theorem Codec.Encodes.exact (hCd : Cd.Lawful Rep answer) (hm : Cd.WellFormed Rep m)
    (henc : Cd.Encodes m bs) : ∃ h, Exact Cd.formats Cd.entryBytes bs h := by
  obtain ⟨fmt, payload, hfor, hpayload, rfl⟩ := henc
  obtain ⟨hmem, -, h32⟩ := hCd.formats.formatFor_spec hfor
  obtain ⟨f, hrep⟩ := hm.table
  obtain ⟨payload', hpayload', hlen⟩ := hCd.encode hrep
  obtain rfl : payload = payload' := Option.some.inj (hpayload.symm.trans hpayload')
  have hacc := accepted_written hCd.formats hmem h32 m.seed m.segmentLength m.segmentCount
    m.dataLen m.n hlen []
  rw [List.append_nil] at hacc
  refine ⟨_, hacc, h32, ?_⟩
  rw [withChecksum, List.length_append, List.length_append, length_writeU64,
    length_writeHeader (hCd.formats.magic fmt hmem), hlen, Header.bodySize, h32]

theorem Codec.Encodes.length_pos (hCd : Cd.Lawful Rep answer) (hm : Cd.WellFormed Rep m)
    (henc : Cd.Encodes m bs) : 0 < bs.length := by
  obtain ⟨_, hexact⟩ := henc.exact hCd hm
  rw [hexact.length]
  exact Nat.succ_pos _

theorem Codec.Encodes.contents (hCd : Cd.Lawful Rep answer) (hm : Cd.WellFormed Rep m)
    (henc : Cd.Encodes m bs) (rest : Bytes) : Cd.contents (bs ++ rest) = some m := by
  obtain ⟨_, hd⟩ := henc.describes hCd hm rest
  exact hd.contents hCd

/-- An encoding that is cut off is too short for the reader. -/
theorem Codec.Encodes.read_take (hCd : Cd.Lawful Rep answer) (hm : Cd.WellFormed Rep m)
    (henc : Cd.Encodes m bs) {k : Nat} (hk : k < bs.length) (H : Heap) :
    ∃ m', FastConstMap.read Cd 64 H (bs.take k) = some (.shortBuffer, m') := by
  obtain ⟨_, hexact⟩ := henc.exact hCd hm
  exact (rejects_of_parse (parse_take hCd.formats hCd.entryBytes hexact hk)).1 H

theorem Codec.Encodes.contents_take (hCd : Cd.Lawful Rep answer) (hm : Cd.WellFormed Rep m)
    (henc : Cd.Encodes m bs) {k : Nat} (hk : k < bs.length) : Cd.contents (bs.take k) = none := by
  obtain ⟨_, hread⟩ := henc.read_take hCd hm hk smallHeap
  exact contents_of_error (by decide) hread

/-! ## The methods -/

section Methods

variable {o : PyMap τ}

/-- If `fopen` fails, `save` needs a path that something else has a reference to. -/
theorem pySave_gone {w : Nat} {c : SaveCalls} (hopen : c.fopen = false) (hpath : c.pathShared = false)
    (file : Option Bytes) : pySave Cd w c o file = none := by
  unfold pySave
  rw [if_pos hopen, if_neg (by simp [hpath])]

/-- A writer with a buffer of the right size fills it. -/
theorem Codec.Encodes.write_exact (henc : Cd.Encodes m bs) {buf : Bytes}
    (hlen : buf.length = bs.length) : FastConstMap.write Cd m buf = some (.ok, bs) := by
  rw [henc.write hlen.ge, ← hlen, List.drop_length, List.append_nil]

variable (henc : Cd.Encodes o.map bs) (hlen : bs.length = serializedSize Cd 64 o.map)
include henc hlen

theorem pySerialize_eq (alloc : Bool) (junk : Nat → UInt8) : pySerialize Cd 64 alloc junk o =
    some (if alloc = false then .error .memoryError else .ok bs) := by
  unfold pySerialize
  by_cases halloc : alloc = false
  · simp only [if_pos halloc]
  · simp only [if_neg halloc]
    rw [henc.write_exact (by rw [List.length_map, List.length_range, hlen])]
    rfl

theorem pyWriteInto_eq (buf : Bytes) : pyWriteInto Cd 64 o buf = some
    (if buf.length < bs.length then
      (.error (.valueError ("buffer too small: need " ++ toString bs.length ++ " bytes, got " ++
        toString buf.length)), buf)
    else (.ok (.int bs.length), bs ++ buf.drop bs.length)) := by
  unfold pyWriteInto
  rw [← hlen]
  by_cases hshort : buf.length < bs.length
  · simp only [if_pos hshort]
  · simp only [if_neg hshort]
    rw [henc.write (not_lt.mp hshort)]
    rfl

/-- What `save` returns, and what it leaves in the file. -/
theorem pySave_eq {c : SaveCalls} (hpath : c.fopen = false → c.pathShared = true)
    (file : Option Bytes) : pySave Cd 64 c o file = some
    (if c.fopen = false then (.error .errno, file)
    else if c.malloc = false then (.error (.py .memoryError), some [])
    else (if c.fwrite ≠ bs.length ∨ c.ferror = true then .error (.osError "short write") else .ok (),
      some (bs.take c.stored))) := by
  unfold pySave
  by_cases hopen : c.fopen = false
  · simp only [if_pos hopen, if_pos (hpath hopen)]
  by_cases hmalloc : c.malloc = false
  · simp only [if_neg hopen, if_pos hmalloc]
  simp only [if_neg hopen, if_neg hmalloc]
  rw [henc.write_exact (by rw [List.length_map, List.length_range, hlen])]
  simp only [Option.bind_eq_bind, Option.bind_some, ← hlen]
  split_ifs <;> rfl

end Methods

section Objects

variable {o : PyMap τ}

theorem pyObjectOf_ok {error : Rc → PyErr} {r : Rc × MapOf τ} (h : pyObjectOf error r = .ok o) :
    r = (.ok, o.map) ∧ o.initialized = true := by
  unfold pyObjectOf at h
  split_ifs at h with hrc
  obtain rfl := Except.ok.inj h
  exact ⟨Prod.ext (not_not.mp hrc) rfl, rfl⟩

theorem pyDeserialize_ok (hCd : Cd.Lawful Rep answer) {alloc : Bool} {H : Heap}
    (h : pyDeserialize Cd 64 alloc H p = some (.ok o)) :
    Cd.contents p = some o.map ∧ o.initialized = true := by
  unfold pyDeserialize at h
  split_ifs at h
  · exact absurd h (by simp)
  obtain ⟨r, hread, h⟩ := Option.bind_eq_some_iff.mp h
  obtain ⟨rfl, hinit⟩ := pyObjectOf_ok (Option.some.inj h)
  exact ⟨read_contents hCd hread, hinit⟩

theorem pyFromBuffer_ok {le alloc : Bool} {buf : PyBuffer}
    (h : pyFromBuffer Cd 64 le alloc buf = some (.ok o)) :
    view Cd 64 le buf.addr buf.bytes = some (.ok, o.map) ∧ o.initialized = true := by
  unfold pyFromBuffer at h
  split_ifs at h
  · exact absurd h (by simp)
  obtain ⟨r, hview, h⟩ := Option.bind_eq_some_iff.mp h
  obtain ⟨rfl, hinit⟩ := pyObjectOf_ok (Option.some.inj h)
  exact ⟨hview, hinit⟩

theorem pyLoad_ok (hCd : Cd.Lawful Rep answer) {c : LoadCalls} {file : Option Bytes}
    (h : pyLoad Cd 64 c file = some (.ok o)) :
    ∃ data, file = some data ∧ Cd.contents data = some o.map ∧ o.initialized = true := by
  cases file with
  | none => exact absurd h (by simp [pyLoad])
  | some data =>
    unfold pyLoad at h
    simp only at h
    generalize (if c.ftell = true then (data.length : Int) else -1) = len at h
    have hcalls : ¬ (c.fopen = false ∨ len ≤ 0 ∨ c.malloc = false ∨ c.fread ≠ data.length ∨
        c.alloc = false) := by
      intro hfail
      split_ifs at h <;> simp_all
    simp only [not_or] at hcalls
    obtain ⟨hopen, hlen, hmalloc, hread, halloc⟩ := hcalls
    rw [if_neg hopen, if_neg hlen, if_neg hmalloc, if_neg hread, if_neg halloc] at h
    obtain ⟨r, hread, h⟩ := Option.bind_eq_some_iff.mp h
    split at h
    · exact absurd h (by simp)
    rename_i o' hobj
    obtain rfl := Except.ok.inj (Option.some.inj h)
    obtain ⟨rfl, hinit⟩ := pyObjectOf_ok hobj
    exact ⟨data, rfl, read_contents hCd hread, hinit⟩

/-- All calls of `load` succeed on the file. -/
structure LoadCalls.Succeed (c : LoadCalls) (data : Bytes) : Prop where
  fopen : c.fopen = true
  ftell : c.ftell = true
  malloc : c.malloc = true
  fread : c.fread = data.length
  alloc : c.alloc = true
  heap : ∀ b, c.heap.ok b = true

/-- What `load` makes of a file when all its calls succeed. -/
theorem LoadCalls.Succeed.pyLoad {c : LoadCalls} {data : Bytes} (hc : c.Succeed data)
    {r : Rc × MapOf τ} (hread : read Cd 64 c.heap data = some r) :
    pyLoad Cd 64 c (some data) = some
      (if data = [] then .error (.py (.valueError "empty file"))
      else match pyObjectOf setPythonError r with
        | .error e => .error (.py e)
        | .ok o => .ok o) := by
  unfold FastConstMap.pyLoad
  simp only [hc.fopen, hc.ftell, hc.malloc, hc.fread, hc.alloc, hread, Bool.true_eq_false,
    if_false, if_true, ne_eq, not_true_eq_false, Option.bind_eq_bind, Option.bind_some]
  by_cases hnil : data = []
  · rw [if_pos (by rw [hnil]; rfl), if_pos hnil]
  · have hpos := List.length_pos_iff.mpr hnil
    rw [if_neg (by omega), if_neg hnil]
    cases pyObjectOf setPythonError r <;> rfl

end Objects

/-! ## Saving and loading -/

/-- What becomes of a file when the object `obj` is saved in it, whose serialized size is `size`. A
`save` that cannot open the file leaves it alone, if something else keeps the path alive, and is undefined
if not. Otherwise every object that `load` makes of the file holds the map of `obj`; it does when all bytes
of it are in the file, and raises an exception when some are not. -/
structure SavesSafely (size : Nat)
    (save : SaveCalls → PyMap τ → Option Bytes → Option (FileResult Unit × Option Bytes))
    (load : LoadCalls → Option Bytes → Option (FileResult (PyMap τ))) (obj : PyMap τ) : Prop where
  returns : ∀ c file, c.fopen = true ∨ c.pathShared = true → ∃ r, save c obj file = some r
  unopened : ∀ c file, c.fopen = false →
    save c obj file = if c.pathShared = true then some (.error .errno, file) else none
  loads : ∀ c file r file', save c obj file = some (r, file') → c.fopen = true →
    ∀ c' o, load c' file' = some (.ok o) → o = { map := obj.map, initialized := true }
  whole : ∀ c file, c.fopen = true → c.malloc = true → size ≤ c.stored →
    ∃ r data, save c obj file = some (r, some data) ∧
      (c.fwrite = size → c.ferror = false → r = .ok ()) ∧
      ∀ c', c'.Succeed data → load c' (some data) = some (.ok { map := obj.map, initialized := true })
  torn : ∀ c file, c.fopen = true → (c.malloc = false ∨ c.stored < size) →
    ∃ r data, save c obj file = some (r, some data) ∧ (c.fwrite < size → r ≠ .ok ()) ∧
      ∀ c', c'.Succeed data → load c' (some data) = some (.error (.py (.valueError
        (if data = [] then "empty file" else "serialized data is truncated"))))

/-- `load` raises an exception for an encoding that is cut off. -/
theorem Codec.Encodes.load_take (hCd : Cd.Lawful Rep answer) (hm : Cd.WellFormed Rep m)
    (henc : Cd.Encodes m bs) {k : Nat} (hk : k < bs.length) {c : LoadCalls}
    (hc : c.Succeed (bs.take k)) : pyLoad Cd 64 c (some (bs.take k)) = some (.error (.py (.valueError
      (if bs.take k = [] then "empty file" else "serialized data is truncated")))) := by
  obtain ⟨m', hread⟩ := henc.read_take hCd hm hk c.heap
  rw [hc.pyLoad hread]
  by_cases hnil : bs.take k = []
  · rw [if_pos hnil, if_pos hnil]
  · rw [if_neg hnil, if_neg hnil]
    rfl

/-- `load` makes an object of an encoding. -/
theorem Codec.Encodes.load (hCd : Cd.Lawful Rep answer) (hm : Cd.WellFormed Rep m)
    (henc : Cd.Encodes m bs) {c : LoadCalls} (hc : c.Succeed bs) :
    pyLoad Cd 64 c (some bs) = some (.ok { map := m, initialized := true }) := by
  obtain ⟨_, hd⟩ := henc.describes hCd hm []
  rw [List.append_nil] at hd
  rw [hc.pyLoad (hd.read hCd hc.heap), if_neg]
  · rfl
  · rintro rfl
    exact absurd (henc.length_pos hCd hm) (Nat.lt_irrefl 0)

theorem Codec.WellFormed.savesSafely (hCd : Cd.Lawful Rep answer) {obj : PyMap τ}
    (hm : Cd.WellFormed Rep obj.map) :
    SavesSafely (serializedSize Cd 64 obj.map) (pySave Cd 64) (pyLoad Cd 64) obj := by
  obtain ⟨bs, henc, hlen⟩ := hm.exists_encodes hCd
  have hsave := fun (c : SaveCalls) (hopen : c.fopen = true) file =>
    pySave_eq (o := obj) henc hlen (c := c) (fun hfails => absurd hopen (by simp [hfails])) file
  constructor
  case returns =>
    intro c file hpath
    refine ⟨_, pySave_eq henc hlen (fun hopen => hpath.resolve_left ?_) file⟩
    simp [hopen]
  case unopened =>
    intro c file hopen
    cases hpath : c.pathShared with
    | false => exact pySave_gone hopen hpath file
    | true => rw [pySave_eq (o := obj) henc hlen (fun _ => hpath), if_pos hopen, if_pos rfl]
  case loads =>
    intro c file r file' h hopen c' o hload
    rw [hsave c hopen, if_neg (by simp [hopen])] at h
    obtain ⟨data, rfl, hdata, hinit⟩ := pyLoad_ok hCd hload
    have hcut : ∃ k, data = bs.take k := by
      split_ifs at h
      · exact ⟨0, (Option.some.inj (Prod.mk.inj (Option.some.inj h)).2).symm⟩
      all_goals exact ⟨c.stored, (Option.some.inj (Prod.mk.inj (Option.some.inj h)).2).symm⟩
    obtain ⟨k, rfl⟩ := hcut
    by_cases hk : k < bs.length
    · rw [henc.contents_take hCd hm hk] at hdata
      exact absurd hdata (by simp)
    · have hall := henc.contents hCd hm []
      rw [List.take_of_length_le (not_lt.mp hk)] at hdata
      rw [List.append_nil, hdata] at hall
      obtain ⟨map, initialized⟩ := o
      obtain rfl : map = obj.map := Option.some.inj hall
      obtain rfl : initialized = true := hinit
      rfl
  case whole =>
    intro c file hopen hmalloc hstored
    rw [← hlen] at hstored ⊢
    refine ⟨_, _, by rw [hsave c hopen, if_neg (by simp [hopen]), if_neg (by simp [hmalloc])], ?_, ?_⟩
    · intro hwrite herror
      rw [if_neg (by simp [hwrite, herror])]
    · rw [List.take_of_length_le hstored]
      exact fun c' hc' => henc.load hCd hm hc'
  case torn =>
    intro c file hopen hcut
    rw [← hlen] at hcut ⊢
    by_cases hmalloc : c.malloc = false
    · refine ⟨_, bs.take 0, by rw [hsave c hopen, if_neg (by simp [hopen]), if_pos hmalloc]; rfl, by simp, ?_⟩
      exact fun c' hc' => henc.load_take hCd hm (henc.length_pos hCd hm) hc'
    · refine ⟨_, _, by rw [hsave c hopen, if_neg (by simp [hopen]), if_neg hmalloc], ?_, ?_⟩
      · intro hwrite
        rw [if_pos (Or.inl hwrite.ne)]
        simp
      · exact fun c' hc' => henc.load_take hCd hm (hcut.resolve_left hmalloc) hc'

/-- The map of an object whose `__init__` has not run is well formed. -/
theorem alloc_wellFormed (hCd : Cd.Lawful Rep answer) :
    Cd.WellFormed Rep (PyMap.alloc Cd.layout).map := by
  show Cd.WellFormed Rep (Cd.layout.emptyMap HASH_XXH64)
  exact emptyMap_wellFormed hCd (Or.inl rfl)

/-- For every object of the three types, whatever happens while it is saved: a later `load` of the file
makes an object with the same map, or raises an exception, or the file could not be opened and is what it
was before; `save` is undefined only if it cannot open the file and has the last reference to its
path. -/
theorem save_load_safe :
    (∀ self : PyMap (List UInt64), self = PyMap.alloc constmapLayout ∨
        Produced constmapNewWithHash (constmapRead 64) (constmapView 64) self.map →
      SavesSafely (pyConstMapSerializedSize 64 self) (pyConstMapSave 64) (pyConstMapLoad 64) self) ∧
    (∀ self : PyMap Tables, self = PyMap.alloc verifiedLayout ∨
        Produced verifiedConstmapNewWithHash (verifiedConstmapRead 64) (verifiedConstmapView 64)
          self.map →
      SavesSafely (pyVerifiedConstMapSerializedSize 64 self) (pyVerifiedConstMapSave 64)
        (pyVerifiedConstMapLoad 64) self) ∧
    ∀ self : PyMap (List Slot), self = PyMap.alloc pairedLayout ∨
        Produced pairedVerifiedConstmapNewWithHash (pairedVerifiedConstmapRead 64)
          (pairedVerifiedConstmapView 64) self.map →
      SavesSafely (pyPairedVerifiedConstMapSerializedSize 64 self) (pyPairedVerifiedConstMapSave 64)
        (pyPairedVerifiedConstMapLoad 64) self := by
  refine ⟨?_, ?_, ?_⟩
  · rintro self (rfl | hm)
    · exact (alloc_wellFormed constmapCodec_lawful).savesSafely constmapCodec_lawful
    · exact (Produced.wellFormed constmapCodec_lawful hm).savesSafely constmapCodec_lawful
  · rintro self (rfl | hm)
    · exact (alloc_wellFormed verifiedCodec_lawful).savesSafely verifiedCodec_lawful
    · exact (Produced.wellFormed verifiedCodec_lawful hm).savesSafely verifiedCodec_lawful
  · rintro self (rfl | hm)
    · exact (alloc_wellFormed pairedCodec_lawful).savesSafely pairedCodec_lawful
    · exact (Produced.wellFormed pairedCodec_lawful hm).savesSafely pairedCodec_lawful

/-- A map with one key. -/
theorem save_load_safe_one : ∃ vm,
    verifiedConstmapNewWithHash smallEnv smallHeap verifiedLayout.zeroMap [([0x61], 100)]
      HASH_XXH64 = some (.ok, vm) ∧
    SavesSafely (pyVerifiedConstMapSerializedSize 64 ⟨vm, true⟩) (pyVerifiedConstMapSave 64)
      (pyVerifiedConstMapLoad 64) ⟨vm, true⟩ := by
  obtain ⟨vm, hvm⟩ := exists_ok (x := verifiedConstmapNewWithHash smallEnv smallHeap
    verifiedLayout.zeroMap [([0x61], 100)] HASH_XXH64) (by decide +kernel)
  exact ⟨vm, hvm, save_load_safe.2.1 ⟨vm, true⟩ (Or.inr (.built hvm))⟩

end FastConstMap
