import FastConstMap.Lib.Places
import FastConstMap.Session
import FastConstMap.Proofs.PersistProofs
import FastConstMap.Proofs.PythonProofs
import FastConstMap.Proofs.OnceProofs

/-!
# Proofs: sessions

A session refines copying of map values between places: the objects, the buffers and the files of a session
hold maps, and each method creates a map, copies one or loses one. So whatever an object answers was in a
dict that the session made an object of.
-/

namespace FastConstMap

open CLoop Slices
open Places (Act Trace)

variable {τ : Type} {T : PyType τ} {Rep : τ → Nat → (Nat → Slot) → Prop}
  {answer : Slot → UInt64 → UInt64} {K : KeyHash} {le : Bool} {s s' : Session τ} {e : Event}

/-! ## What a session holds -/

/-- The places of a session. -/
inductive Place where
  | object (k : Nat)
  | buffer (b : Nat)
  | file (f : Nat)
deriving DecidableEq

/-- The map that an object has, or that a reader gets from a buffer or a file. -/
def Session.holds (Cd : Codec τ) (s : Session τ) : Place → Option (MapOf τ)
  | .object k => (s.objects k).map (s.mapOf Cd)
  | .buffer b => Cd.contents (s.buffers b).bytes
  | .file f => (s.files f).bind Cd.contents

/-- The maps of the objects are well formed. -/
def Session.Inv (Cd : Codec τ) (Rep : τ → Nat → (Nat → Slot) → Prop) (s : Session τ) : Prop :=
  ∀ k m, s.holds Cd (.object k) = some m → Cd.WellFormed Rep m

theorem contents_wellFormed {Cd : Codec τ} (hCd : Cd.Lawful Rep answer) {p : Bytes} {m : MapOf τ}
    (h : Cd.contents p = some m) : Cd.WellFormed Rep m := by
  obtain ⟨_, hd⟩ := contents_describes hCd h
  exact hd.wellFormed hCd

theorem Session.Inv.wellFormed {Cd : Codec τ} (hCd : Cd.Lawful Rep answer) (h : s.Inv Cd Rep)
    {p : Place} {m : MapOf τ} (hm : s.holds Cd p = some m) : Cd.WellFormed Rep m := by
  cases p with
  | object k => exact h k m hm
  | buffer b => exact contents_wellFormed hCd hm
  | file f =>
    obtain ⟨data, -, hdata⟩ := Option.bind_eq_some_iff.mp hm
    exact contents_wellFormed hCd hdata

section Holds

variable (Cd : Codec τ)

theorem session_holds_object {k : Nat} {o : Held τ} (h : s.objects k = some o) :
    s.holds Cd (.object k) = some (s.mapOf Cd o) := by
  rw [Session.holds, h, Option.map_some]

theorem session_holds_setObject (k : Nat) (o : Option (Held τ)) : (s.setObject k o).holds Cd =
    Function.update (s.holds Cd) (.object k) (o.map (s.mapOf Cd)) := by
  funext p
  cases p with
  | object k' =>
    show (Function.update s.objects k o k').map (s.mapOf Cd) = _
    by_cases hk : k' = k
    · rw [hk, Function.update_self, Function.update_self]
    · rw [Function.update_of_ne hk, Function.update_of_ne (by simpa using hk)]
      rfl
  | buffer b => rw [Function.update_of_ne (by simp)]; rfl
  | file f => rw [Function.update_of_ne (by simp)]; rfl

theorem session_holds_setFile (f : Nat) (file : Option Bytes) : (s.setFile f file).holds Cd =
    Function.update (s.holds Cd) (.file f) (file.bind Cd.contents) := by
  funext p
  cases p with
  | object k => rw [Function.update_of_ne (by simp)]; rfl
  | buffer b => rw [Function.update_of_ne (by simp)]; rfl
  | file f' =>
    show (Function.update s.files f file f').bind Cd.contents = _
    by_cases hf : f' = f
    · rw [hf, Function.update_self, Function.update_self]
    · rw [Function.update_of_ne hf, Function.update_of_ne (by simpa using hf)]
      rfl

theorem mapOf_view (s : Session τ) (py : PyMap τ) (b off : Nat) :
    s.mapOf Cd ⟨py, some (b, off)⟩ = { py.map with
      table := Cd.borrow 64 (s.buffers b).bytes off py.map.dataLen.toNat } := rfl

/-- Writing into a buffer that nobody views changes no object. -/
theorem mapOf_setBuffer {b k : Nat} (hb : ¬ s.Viewed b) {o : Held τ} (ho : s.objects k = some o)
    (buf : PyBuffer) : (s.setBuffer b buf).mapOf Cd o = s.mapOf Cd o := by
  obtain ⟨py, view⟩ := o
  rcases view with _ | ⟨b', off⟩
  · rfl
  · have hne : b' ≠ b := by
      rintro rfl
      exact hb ⟨k, _, off, ho, rfl⟩
    have hsame : (s.setBuffer b buf).buffers b' = s.buffers b' := Function.update_of_ne hne ..
    rw [mapOf_view, mapOf_view, hsame]

theorem session_holds_setBuffer {b : Nat} (hb : ¬ s.Viewed b) (buf : PyBuffer) :
    (s.setBuffer b buf).holds Cd =
      Function.update (s.holds Cd) (.buffer b) (Cd.contents buf.bytes) := by
  funext p
  cases p with
  | object k =>
    rw [Function.update_of_ne (by simp)]
    show (s.objects k).map ((s.setBuffer b buf).mapOf Cd) = (s.objects k).map (s.mapOf Cd)
    cases ho : s.objects k with
    | none => rfl
    | some o => rw [Option.map_some, Option.map_some, mapOf_setBuffer Cd hb ho]
  | buffer b' =>
    show Cd.contents (Function.update s.buffers b buf b').bytes = _
    by_cases hk : b' = b
    · rw [hk, Function.update_self, Function.update_self]
    · rw [Function.update_of_ne hk, Function.update_of_ne (by simpa using hk)]
      rfl
  | file f => rw [Function.update_of_ne (by simp)]; rfl

end Holds

/-! ## What the events do -/

/-- What an event does to the places. A call that raises an exception does nothing, except that a `save`
that could open its file may leave less in it than a map. A `save` that returns has copied its map, unless
the file does not keep what was written. -/
inductive Event.Acts (T : PyType τ) (K : KeyHash) : Event → Act Place (MapOf τ) → Prop
  | construct {k : Nat} {E : Env} {H : Heap} {alloc : Bool} {mapping : PyArg}
      {hashName : Option String} {o : PyMap τ} : E.keyHash = K →
      pyInit T.codec.layout T.name E H alloc (.alloc T.codec.layout) mapping hashName =
        some (.ok (), o) →
      Acts T K (.construct k mapping hashName (.ok ())) (.create (.object k) o.map)
  | constructError {k : Nat} {mapping : PyArg} {hashName : Option String} {e : PyErr} :
      Acts T K (.construct k mapping hashName (.error e)) .skip
  | toBytes {k b : Nat} : Acts T K (.toBytes k b (.ok ())) (.copy (.object k) (.buffer b))
  | toBytesError {k b : Nat} : Acts T K (.toBytes k b (.error .memoryError)) .skip
  | fromBytes {b k : Nat} : Acts T K (.fromBytes b k (.ok ())) (.copy (.buffer b) (.object k))
  | fromBytesError {b k : Nat} {e : PyErr} : Acts T K (.fromBytes b k (.error e)) .skip
  | writeInto {k b n : Nat} :
      Acts T K (.writeInto k b (.ok (.int n))) (.copy (.object k) (.buffer b))
  | writeIntoError {k b : Nat} {msg : String} :
      Acts T K (.writeInto k b (.error (.valueError msg))) .skip
  | fromBuffer {b k : Nat} : Acts T K (.fromBuffer b k (.ok ())) (.copy (.buffer b) (.object k))
  | fromBufferError {b k : Nat} {e : PyErr} : Acts T K (.fromBuffer b k (.error e)) .skip
  | save {k f : Nat} {r : FileResult Unit} :
      Acts T K (.save k f true r) (.copy (.object k) (.file f))
  | saveLost {k f : Nat} {kept : Bool} {r : FileResult Unit} : (r = .ok () → kept = false) →
      Acts T K (.save k f kept r) (.forget (· = .file f))
  | saveError {k f : Nat} {kept : Bool} : Acts T K (.save k f kept (.error .errno)) .skip
  | load {f k : Nat} : Acts T K (.load f k (.ok ())) (.copy (.file f) (.object k))
  | loadError {f k : Nat} {e : FileErr} : Acts T K (.load f k (.error e)) .skip
  | drop {k : Nat} : Acts T K (.drop k) (.forget (· = .object k))
  | restart : Acts T K .restart (.forget fun p => ∃ k, p = .object k)
  | copyFile {f g : Nat} : Acts T K (.copyFile f g) (.copy (.file f) (.file g))
  | copyFileLost {f g : Nat} : Acts T K (.copyFile f g) (.forget (· = .file g))
  | removeFile {f : Nat} : Acts T K (.removeFile f) (.forget (· = .file f))
  | pokeBuffer {b : Nat} {x : Option (MapOf τ)} : Acts T K (.pokeBuffer b) (.foreign (.buffer b) x)
  | pokeFile {f : Nat} {x : Option (MapOf τ)} : Acts T K (.pokeFile f) (.foreign (.file f) x)

/-- Losing the value of one place. -/
theorem forget_one {s : Place → Option (MapOf τ)} (p : Place) :
    Places.Step s (.forget (· = p)) (Function.update s p none) := by
  refine .forget ?_ ?_
  · rintro _ rfl
    exact Function.update_self ..
  · intro k hk
    exact Function.update_of_ne hk ..

/-- An `__init__` that succeeds has converted its arguments and built a map of them. -/
theorem pyInit_success {Ly : Layout τ} {name : String} {E : Env} {H : Heap} {alloc : Bool}
    {o o' : PyMap τ} {mapping : PyArg} {hashName : Option String}
    (h : pyInit Ly name E H alloc o mapping hashName = some (.ok (), o')) :
    ∃ hash entries, convertArgs alloc mapping hashName = .ok (hash, entries) ∧
      newWithHash Ly E H Ly.zeroMap entries hash = some (.ok, o'.map) := by
  cases hconv : convertArgs alloc mapping hashName with
  | error e =>
    rw [pyInit_convertError hconv] at h
    exact absurd h (by simp)
  | ok r =>
    obtain ⟨hash, entries⟩ := r
    rw [pyInit_convert hconv] at h
    obtain ⟨⟨rc, built⟩, hnew, h⟩ := Option.map_eq_some_iff.mp h
    refine ⟨hash, entries, rfl, ?_⟩
    split_ifs at h with hrc hinit
    · exact absurd h (by simp)
    · obtain ⟨-, rfl⟩ := Prod.mk.inj h
      exact hnew.trans (congrArg (fun rc => some (rc, built)) (not_not.mp hrc))
    · exact absurd h (by simp)

section Refine

variable (hCd : T.codec.Lawful Rep answer)
include hCd

/-- A `save` copies the map of the object, loses what the file held, or did not open the file. -/
theorem save_acts (hinv : s.Inv T.codec Rep) {k f : Nat} {o : Held τ} {c : SaveCalls}
    {r : FileResult Unit} {file : Option Bytes} (ho : s.objects k = some o)
    (h : pySave T.codec 64 c (s.pyOf T.codec o) (s.files f) = some (r, file)) :
    ∃ a, Event.Acts T K
        (.save k f (serializedSize T.codec 64 (s.mapOf T.codec o) ≤ c.stored) r) a ∧
      Places.Step (s.holds T.codec) a ((s.setFile f file).holds T.codec) := by
  have hm := hinv k _ (session_holds_object T.codec ho)
  obtain ⟨bs, henc, hlen⟩ := hm.exists_encodes hCd
  have hpath : c.fopen = false → c.pathShared = true := by
    intro hopen
    by_contra hgone
    rw [pySave_gone hopen (Bool.of_not_eq_true hgone)] at h
    cases h
  rw [pySave_eq (o := s.pyOf T.codec o) henc hlen hpath] at h
  have h := Option.some.inj h
  rw [session_holds_setFile]
  by_cases hopen : c.fopen = false
  · rw [if_pos hopen] at h
    obtain ⟨rfl, rfl⟩ := Prod.mk.inj h
    refine ⟨.skip, .saveError, ?_⟩
    have hsame : Function.update (s.holds T.codec) (.file f) ((s.files f).bind T.codec.contents) =
        s.holds T.codec := Function.update_eq_self (f := s.holds T.codec) (.file f)
    rw [hsame]
    exact .skip
  rw [if_neg hopen] at h
  by_cases hmalloc : c.malloc = false
  · rw [if_pos hmalloc] at h
    obtain ⟨rfl, rfl⟩ := Prod.mk.inj h
    have hnil := henc.contents_take hCd hm (henc.length_pos hCd hm)
    refine ⟨_, .saveLost (by simp), ?_⟩
    rw [List.take_zero] at hnil
    rw [Option.bind_some, hnil]
    exact forget_one _
  · rw [if_neg hmalloc] at h
    obtain ⟨-, rfl⟩ := Prod.mk.inj h
    rw [Option.bind_some]
    by_cases hstored : c.stored < bs.length
    · refine ⟨_, .saveLost fun _ => decide_eq_false (by omega), ?_⟩
      rw [henc.contents_take hCd hm hstored]
      exact forget_one _
    · have hall := henc.contents hCd hm []
      rw [List.append_nil] at hall
      rw [decide_eq_true (show serializedSize T.codec 64 (s.mapOf T.codec o) ≤ c.stored by omega)]
      refine ⟨_, .save, ?_⟩
      rw [List.take_of_length_le (not_lt.mp hstored), hall]
      exact .copy (session_holds_object T.codec ho)

/-- The object that `from_buffer` makes has the map that the buffer holds. -/
theorem fromBuffer_mapOf {b : Nat} {alloc : Bool} {o : PyMap τ} {h : Header}
    (ho : pyFromBuffer T.codec 64 le alloc (s.buffers b) = some (.ok o))
    (hparse : parse 64 T.codec.formats T.codec.entryBytes (s.buffers b).bytes = some (.ok h)) :
    T.codec.contents (s.buffers b).bytes = some (s.mapOf T.codec ⟨o, some (b, h.payload)⟩) := by
  obtain ⟨hview, -⟩ := pyFromBuffer_ok ho
  have hm := view_contents hCd hview
  rw [hm]
  rcases view_cases hview with ⟨hok, -⟩ | ⟨h', hparse', -, ⟨-, hok, -⟩ | ⟨-, hmap⟩⟩
  · exact absurd rfl hok
  · exact absurd hok (by decide)
  · obtain rfl : h = h' := Except.ok.inj (Option.some.inj (hparse.symm.trans hparse'))
    rw [mapOf_view, hmap]
    rfl

/-- One step of a session is one step of the places. -/
theorem step_acts (hinv : s.Inv T.codec Rep) (h : SessionStep T K le s e s') :
    ∃ a, e.Acts T K a ∧ Places.Step (s.holds T.codec) a (s'.holds T.codec) := by
  cases h with
  | construct hE _ hinit =>
    refine ⟨_, .construct hE hinit, ?_⟩
    rw [session_holds_setObject]
    exact .create
  | constructError => exact ⟨.skip, .constructError, .skip⟩
  | @toBytes k b _ o alloc junk bs ho hb hbytes =>
    have hm := hinv k _ (session_holds_object T.codec ho)
    obtain ⟨bs', henc, hlen⟩ := hm.exists_encodes hCd
    rw [pySerialize_eq (o := s.pyOf T.codec o) henc hlen] at hbytes
    have hbytes := Option.some.inj hbytes
    split_ifs at hbytes
    obtain rfl := Except.ok.inj hbytes
    have hall := henc.contents hCd hm []
    rw [List.append_nil] at hall
    refine ⟨_, .toBytes, ?_⟩
    rw [session_holds_setBuffer T.codec hb, hall]
    exact .copy (session_holds_object T.codec ho)
  | @toBytesError k b o alloc junk e ho hbytes =>
    have hm := hinv k _ (session_holds_object T.codec ho)
    obtain ⟨bs', henc, hlen⟩ := hm.exists_encodes hCd
    rw [pySerialize_eq (o := s.pyOf T.codec o) henc hlen] at hbytes
    have hbytes := Option.some.inj hbytes
    split_ifs at hbytes
    obtain rfl := Except.error.inj hbytes
    exact ⟨.skip, .toBytesError, .skip⟩
  | fromBytes _ hbytes =>
    refine ⟨_, .fromBytes, ?_⟩
    rw [session_holds_setObject]
    exact .copy (pyDeserialize_ok hCd hbytes).1
  | fromBytesError => exact ⟨.skip, .fromBytesError, .skip⟩
  | @writeInto k b o r buf ho hb hwrite =>
    have hm := hinv k _ (session_holds_object T.codec ho)
    obtain ⟨bs, henc, hlen⟩ := hm.exists_encodes hCd
    rw [pyWriteInto_eq (o := s.pyOf T.codec o) henc hlen] at hwrite
    have hwrite := Option.some.inj hwrite
    rw [session_holds_setBuffer T.codec hb]
    split_ifs at hwrite
    · obtain ⟨rfl, rfl⟩ := Prod.mk.inj hwrite
      have hsame := Function.update_eq_self (f := s.holds T.codec) (.buffer b)
      exact ⟨.skip, .writeIntoError, hsame.symm ▸ .skip⟩
    · obtain ⟨rfl, rfl⟩ := Prod.mk.inj hwrite
      refine ⟨_, .writeInto, ?_⟩
      rw [henc.contents hCd hm]
      exact .copy (session_holds_object T.codec ho)
  | fromBuffer _ hbuf hparse =>
    refine ⟨_, .fromBuffer, ?_⟩
    rw [session_holds_setObject]
    exact .copy (fromBuffer_mapOf hCd hbuf hparse)
  | fromBufferError => exact ⟨.skip, .fromBufferError, .skip⟩
  | save ho hsave => exact save_acts hCd hinv ho hsave
  | load _ hload =>
    obtain ⟨data, hfile, hdata, -⟩ := pyLoad_ok hCd hload
    refine ⟨_, .load, ?_⟩
    rw [session_holds_setObject]
    refine .copy ?_
    rw [Session.holds, hfile]
    exact hdata
  | loadError => exact ⟨.skip, .loadError, .skip⟩
  | drop =>
    refine ⟨_, .drop, ?_⟩
    rw [session_holds_setObject]
    exact forget_one _
  | restart =>
    refine ⟨_, .restart, .forget ?_ ?_⟩
    · rintro _ ⟨k, rfl⟩
      rfl
    · intro p hp
      cases p with
      | object k => exact absurd ⟨k, rfl⟩ hp
      | buffer b => rfl
      | file f => rfl
  | @copyFile f g =>
    rw [session_holds_setFile]
    cases hm : s.holds T.codec (.file f) with
    | none =>
      refine ⟨_, .copyFileLost, ?_⟩
      rw [show (s.files f).bind T.codec.contents = none from hm]
      exact forget_one _
    | some m =>
      refine ⟨_, .copyFile, ?_⟩
      rw [show (s.files f).bind T.codec.contents = some m from hm]
      exact .copy hm
  | removeFile =>
    refine ⟨_, .removeFile, ?_⟩
    rw [session_holds_setFile]
    exact forget_one _
  | @pokeBuffer b buf hb =>
    refine ⟨_, .pokeBuffer (x := T.codec.contents buf.bytes), ?_⟩
    rw [session_holds_setBuffer T.codec hb]
    exact .foreign
  | @pokeFile f file =>
    refine ⟨_, .pokeFile (x := file.bind T.codec.contents), ?_⟩
    rw [session_holds_setFile]
    exact .foreign

/-- The map of a new object is well formed. -/
theorem created_wellFormed {p : Place} {m : MapOf τ} (h : e.Acts T K (.create p m)) :
    T.codec.WellFormed Rep m := by
  cases h with
  | construct _ hinit =>
    obtain ⟨_, _, -, hnew⟩ := pyInit_success hinit
    exact (Produced.built hnew).wellFormed hCd

theorem step_inv (hinv : s.Inv T.codec Rep) (h : SessionStep T K le s e s') :
    s'.Inv T.codec Rep := by
  obtain ⟨a, hacts, hstep⟩ := step_acts hCd hinv h
  intro k m hm
  by_cases hforeign : ∀ p x, a ≠ .foreign p x
  · rcases hstep.held hforeign hm with ⟨p, hp⟩ | ⟨p, rfl⟩
    · exact hinv.wellFormed hCd hp
    · exact created_wellFormed hCd hacts
  · push Not at hforeign
    obtain ⟨p, x, rfl⟩ := hforeign
    have hp : p ≠ .object k := by
      rintro rfl
      cases hacts
    generalize s'.holds T.codec = held at hstep hm
    cases hstep
    rw [Function.update_of_ne hp.symm] at hm
    exact hinv k m hm

end Refine

/-! ## Whole sessions -/

section Run

variable {es : List Event} (hCd : T.codec.Lawful Rep answer)
include hCd

/-- A session that starts without objects is a run of the places. -/
theorem session_acts (hs : ∀ k, s.objects k = none) (hrun : Trace (SessionStep T K le) s es s') :
    ∃ as, List.Forall₂ (Event.Acts T K) es as ∧
      Trace Places.Step (s.holds T.codec) as (s'.holds T.codec) := by
  refine hrun.simulate (Session.Inv T.codec Rep) ?_ ?_ ?_
  · exact fun _ _ _ hinv hstep => step_inv hCd hinv hstep
  · exact fun _ _ _ hinv hstep => step_acts hCd hinv hstep
  · intro k m hm
    rw [Session.holds, hs k] at hm
    exact absurd hm (by simp)

/-- An object that is saved can be loaded after a restart. -/
theorem save_restart_load {k f : Nat} {o : Held τ} (ho : s.objects k = some o)
    (hm : T.codec.WellFormed Rep (s.mapOf T.codec o)) :
    ∃ s', Trace (SessionStep T K le) s [.save k f true (.ok ()), .restart, .load f k (.ok ())] s' ∧
      s'.holds T.codec (.object k) = some (s.mapOf T.codec o) := by
  have hsafe := Codec.WellFormed.savesSafely hCd (show T.codec.WellFormed Rep (s.pyOf T.codec o).map from hm)
  let size := serializedSize T.codec 64 (s.mapOf T.codec o)
  obtain ⟨r, data, hsave, hr, hload⟩ := hsafe.whole ⟨true, true, true, fun _ => 0, size, false, size⟩
    (s.files f) rfl rfl le_rfl
  obtain rfl := hr rfl rfl
  have hc := hload ⟨true, true, true, data.length, true, smallHeap⟩ ⟨rfl, rfl, rfl, rfl, rfl, fun _ => rfl⟩
  let s₁ := s.setFile f (some data)
  let s₂ : Session τ := { s₁ with objects := fun _ => none }
  have hfile : s₂.files f = some data := Function.update_self ..
  have h1 : SessionStep T K le s (.save k f true (.ok ())) s₁ := by
    have h : SessionStep T K le s (.save k f (decide (size ≤ size)) (.ok ())) s₁ := .save ho hsave
    rwa [decide_eq_true (le_refl size)] at h
  have h2 : SessionStep T K le s₁ .restart s₂ := .restart
  have h3 : SessionStep T K le s₂ (.load f k (.ok ())) (s₂.setObject k (some ⟨_, none⟩)) :=
    .load rfl (hfile ▸ hc)
  refine ⟨_, (((Trace.nil _).snoc h1).snoc h2).snoc h3, ?_⟩
  rw [session_holds_setObject, Function.update_self]
  rfl

end Run

/-- For the three types: in every session, with any outcome of every call, the objects, the buffers and the
files behave as places that hold maps. A constructor creates a map, the other methods copy one, whatever is
lost is lost as a whole, and a call that raises an exception changes nothing but the file of a `save`. -/
theorem session_refines_places (K : KeyHash) (le : Bool) (es : List Event) :
    (∀ s s' : Session (List UInt64), (∀ k, s.objects k = none) →
      Trace (SessionStep constMapType K le) s es s' →
      ∃ as, List.Forall₂ (Event.Acts constMapType K) es as ∧
        Trace Places.Step (s.holds constmapCodec) as (s'.holds constmapCodec)) ∧
    (∀ s s' : Session Tables, (∀ k, s.objects k = none) →
      Trace (SessionStep verifiedConstMapType K le) s es s' →
      ∃ as, List.Forall₂ (Event.Acts verifiedConstMapType K) es as ∧
        Trace Places.Step (s.holds verifiedCodec) as (s'.holds verifiedCodec)) ∧
    ∀ s s' : Session (List Slot), (∀ k, s.objects k = none) →
      Trace (SessionStep pairedVerifiedConstMapType K le) s es s' →
      ∃ as, List.Forall₂ (Event.Acts pairedVerifiedConstMapType K) es as ∧
        Trace Places.Step (s.holds pairedCodec) as (s'.holds pairedCodec) :=
  ⟨fun _ _ hs hrun => session_acts (T := constMapType) constmapCodec_lawful hs hrun,
    fun _ _ hs hrun => session_acts (T := verifiedConstMapType) verifiedCodec_lawful hs hrun,
    fun _ _ hs hrun => session_acts (T := pairedVerifiedConstMapType) pairedCodec_lawful hs hrun⟩

/-- Nothing yet. -/
def Session.empty : Session τ := ⟨fun _ => none, fun _ => ⟨0, []⟩, fun _ => none⟩

/-- The dict `{b"a": 100}`. -/
def oneDict : PyDict := ⟨[(.bytes [0x61], .int 100)], by decide⟩

/-- An object is made of a dict, saved, and loaded after a restart. -/
def oneSession : List Event :=
  [.construct 0 (.dict oneDict) none (.ok ()), .save 0 0 true (.ok ()), .restart, .load 0 0 (.ok ())]

theorem exists_oneSession : ∃ s' m,
    Trace (SessionStep verifiedConstMapType smallKeyHash true) Session.empty oneSession s' ∧
      s'.holds verifiedCodec (.object 0) = some m := by
  have hinit : (pyInit verifiedLayout "VerifiedConstMap" smallEnv smallHeap true
      (.alloc verifiedLayout) (.dict oneDict) none).map Prod.fst = some (.ok ()) := by decide +kernel
  obtain ⟨⟨r, o⟩, ho, hr⟩ := Option.map_eq_some_iff.mp hinit
  obtain rfl : r = .ok () := hr
  have h1 : SessionStep verifiedConstMapType smallKeyHash true Session.empty
      (.construct 0 (.dict oneDict) none (.ok ())) (Session.empty.setObject 0 (some ⟨o, none⟩)) :=
    .construct rfl rfl ho
  obtain ⟨_, _, -, hnew⟩ := pyInit_success ho
  have hobj : (Session.empty.setObject 0 (some ⟨o, none⟩)).objects 0 = some ⟨o, none⟩ := by
    simp [Session.setObject]
  have hwf := (Produced.built hnew).wellFormed verifiedCodec_lawful
  obtain ⟨s', hrun, hheld⟩ := save_restart_load (T := verifiedConstMapType) (K := smallKeyHash)
    (f := 0) verifiedCodec_lawful hobj hwf
  exact ⟨s', _, ((Trace.nil _).snoc h1).append hrun, hheld⟩

theorem session_refines_places_one : ∃ s' as,
    Trace (SessionStep verifiedConstMapType smallKeyHash true) Session.empty oneSession s' ∧
      List.Forall₂ (Event.Acts verifiedConstMapType smallKeyHash) oneSession as ∧
      Trace Places.Step (Session.empty.holds verifiedCodec) as (s'.holds verifiedCodec) := by
  obtain ⟨s', m, hrun, -⟩ := exists_oneSession
  obtain ⟨as, hacts, hplaces⟩ :=
    (session_refines_places smallKeyHash true oneSession).2.1 Session.empty s' (fun _ => rfl) hrun
  exact ⟨s', as, hrun, hacts, hplaces⟩

end FastConstMap
