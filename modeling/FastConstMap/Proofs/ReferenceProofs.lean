import FastConstMap.References
import FastConstMap.Proofs.MemoryProofs
import FastConstMap.Proofs.PersistProofs

/-!
# The Python methods keep their references

With its memory, each method returns what it returns without it, and what it leaves is what the object
that it makes owns. The exception is `save`, which can use an object that is gone.
-/

namespace FastConstMap

open CLoop Heaps

variable {τ : Type} {M : PyMem} {h r : List Nat}

/-! ## Blocks and references -/

/-- The memory has these blocks and these references. -/
structure PyMem.Has (M : PyMem) (h r : List Nat) : Prop where
  sound : M.heap.Sound
  bounded : M.refs.Bounded
  heap : M.heap.live.Perm h
  refs : M.refs.live.Perm r

namespace PyMem.Has

theorem perm {h' r' : List Nat} (hM : M.Has h r) (hh : h.Perm h') (hr : r.Perm r') : M.Has h' r' :=
  ⟨hM.sound, hM.bounded, hM.heap.trans hh, hM.refs.trans hr⟩

theorem malloc {ok : Bool} {p : Ptr} {heap : Mem} (hM : M.Has h r)
    (hp : Heaps.malloc ok M.heap = (p, heap)) : PyMem.Has ⟨heap, M.refs⟩ (p.toList ++ h) r := by
  have hsound := malloc_sound ok hM.sound
  have hlive := malloc_live ok M.heap
  rw [hp] at hsound hlive
  exact ⟨hsound, hM.bounded, (List.Perm.of_eq hlive).trans (hM.heap.append_left _), hM.refs⟩

theorem free {p : Ptr} (hM : M.Has (p.toList ++ h) r) :
    ∃ heap, Heaps.free p M.heap = some heap ∧ PyMem.Has ⟨heap, M.refs⟩ h r := by
  obtain ⟨heap, hfree, hlive, -⟩ := free_spec hM.heap
  exact ⟨heap, hfree, free_sound hM.sound hfree, hM.bounded, hlive, hM.refs⟩

theorem freeAll {ps : List Ptr} (hM : M.Has (blocks ps ++ h) r) :
    ∃ heap, Heaps.freeAll ps M.heap = some heap ∧ PyMem.Has ⟨heap, M.refs⟩ h r := by
  obtain ⟨heap, hfree, hlive⟩ := freeAll_spec hM.heap
  exact ⟨heap, hfree, freeAll_sound hM.sound hfree, hM.bounded, hlive, hM.refs⟩

theorem incref {b : Nat} (hM : M.Has h r) (hb : b ∈ r) :
    ∃ refs, Heaps.incref b M.refs = some refs ∧ PyMem.Has ⟨M.heap, refs⟩ h (b :: r) := by
  have hmem : b ∈ M.refs.live := hM.refs.mem_iff.mpr hb
  refine ⟨_, incref_of_mem hmem, hM.sound, ?_, hM.heap, hM.refs.cons b⟩
  intro b' hb'
  rcases List.mem_cons.mp hb' with rfl | hb'
  · exact hM.bounded _ hmem
  · exact hM.bounded _ hb'

theorem decref {p : Ptr} (hM : M.Has h (p.toList ++ r)) :
    ∃ refs, Heaps.free p M.refs = some refs ∧ PyMem.Has ⟨M.heap, refs⟩ h r := by
  obtain ⟨refs, hfree, hlive, -⟩ := free_spec hM.refs
  exact ⟨refs, hfree, hM.sound, free_bounded hM.bounded hfree, hM.heap, hlive⟩

theorem decrefAll {ps : List Ptr} (hM : M.Has h (blocks ps ++ r)) :
    ∃ refs, Heaps.freeAll ps M.refs = some refs ∧ PyMem.Has ⟨M.heap, refs⟩ h r := by
  obtain ⟨refs, hfree, hlive⟩ := freeAll_spec hM.refs
  exact ⟨refs, hfree, hM.sound, freeAll_bounded hM.bounded hfree, hM.heap, hlive⟩

theorem newRef {ok : Bool} {p : Ptr} {refs : Mem} (hM : M.Has h r)
    (hp : Heaps.malloc ok M.refs = (p, refs)) : PyMem.Has ⟨M.heap, refs⟩ h (p.toList ++ r) := by
  have hbounded := malloc_bounded ok hM.bounded
  have hlive := malloc_live ok M.refs
  rw [hp] at hbounded hlive
  exact ⟨hM.sound, hbounded, hM.heap, (List.Perm.of_eq hlive).trans (hM.refs.append_left _)⟩

theorem access {b : Nat} (hM : M.Has h r) (hb : b ∈ r) :
    Heaps.access (some b) M.refs = some () :=
  access_of_mem (hM.refs.mem_iff.mpr hb)

/-- A constructor or a reader adds the arrays that it returns. -/
theorem run {arrays : List Ptr} {heap : Mem} (hM : M.Has h r) (hsound : heap.Sound)
    (hlive : heap.live.Perm (blocks arrays ++ M.heap.live)) :
    PyMem.Has ⟨heap, M.refs⟩ (blocks arrays ++ h) r :=
  ⟨hsound, hM.bounded, hlive.trans (hM.heap.append_left _), hM.refs⟩

end PyMem.Has

/-! ## Class methods -/

/-- The blocks of the arrays of an object. -/
def heldBlocks (o : Option PyHeld) : List Nat := o.elim [] fun o => blocks o.arrays

/-- The exporter that an object refers to. -/
def heldViews (o : Option PyHeld) : List Nat := o.elim [] fun o => o.view.toList

/-- An object without a map owns nothing, and a view no arrays. -/
structure PyHeld.Tidy (o : PyHeld) : Prop where
  empty : o.initialized = false → o.arrays = [] ∧ o.view = none
  view : o.view ≠ none → o.arrays = []

/-- A method without its memory and with it, from a memory with the blocks `h` and the references `r`: both
are undefined, or they return the same, and what is there then belongs to the new object or was there
before. -/
inductive SameCall {ρ : Type} (h r : List Nat) :
    Option ρ → Option (ρ × Option PyHeld × PyMem) → Prop where
  | undefined : SameCall h r none none
  | returns {x : ρ} {o : Option PyHeld} {M : PyMem}
      (hM : M.Has (heldBlocks o ++ h) (heldViews o ++ r)) (ho : ∀ o' ∈ o, o'.Tidy) :
      SameCall h r (some x) (some (x, o, M))

theorem SameCall.error {ρ : Type} {x : ρ} (hM : M.Has h r) :
    SameCall h r (some x) (some (x, none, M)) :=
  .returns hM fun _ ho => absurd ho (Option.not_mem_none _)

theorem PyHeld.made_tidy (arrays : List Ptr) : (PyHeld.made arrays).Tidy :=
  ⟨fun h => absurd (show true = false from h) (by decide), fun h => absurd rfl h⟩

section Methods

variable (Cd : Codec τ) (w : Nat) (alloc : Bool)

theorem deserialize_sameCall (H : Heap) (buf : Bytes) {exporter : Nat} (hM : M.Has h r)
    (he : exporter ∈ r) :
    SameCall h r (pyDeserialize Cd w alloc H buf) (pyDeserializeMem Cd w alloc H buf exporter M) := by
  unfold pyDeserialize pyDeserializeMem
  obtain ⟨refs, hincref, hM1⟩ := hM.incref he
  simp only [hincref, Option.bind_eq_bind, Option.bind_some]
  cases alloc with
  | false =>
    obtain ⟨refs', hdecref, hM2⟩ := hM1.decref (p := some exporter)
    simp only [if_true, hdecref, Option.bind_some]
    exact .error hM2
  | true =>
    simp only [Bool.true_eq_false, if_false]
    have hrun := read_sameRun Cd w H buf hM1.sound
    generalize read Cd w H buf = x at hrun ⊢
    generalize readMem Cd w H buf M.heap = y at hrun ⊢
    cases hrun with
    | undefined => exact .undefined
    | @returns rc m arrays heap hsound hlive herr =>
      obtain ⟨refs', hdecref, hM2⟩ := (hM1.run hsound hlive).decref (p := some exporter)
      simp only [Option.bind_some, hdecref, pyObjectOf]
      by_cases hrc : rc ≠ .ok
      · obtain ⟨heap', hfree, hM3⟩ := hM2.freeAll
        simp only [if_pos hrc, hfree, Option.bind_some]
        exact .error hM3
      · simp only [if_neg hrc]
        exact .returns hM2 fun _ ho => Option.some.inj ho ▸ PyHeld.made_tidy arrays

theorem fromBuffer_sameCall (littleEndian : Bool) (buf : PyBuffer) {exporter : Nat}
    (hM : M.Has h r) (he : exporter ∈ r) :
    SameCall h r (pyFromBuffer Cd w littleEndian alloc buf)
      (pyFromBufferMem Cd w littleEndian alloc buf exporter M) := by
  unfold pyFromBuffer pyFromBufferMem
  obtain ⟨refs, hincref, hM1⟩ := hM.incref he
  obtain ⟨refs', hdecref, hM2⟩ := hM1.decref (p := some exporter)
  simp only [hincref, Option.bind_eq_bind, Option.bind_some]
  cases alloc with
  | false =>
    simp only [if_true, hdecref, Option.bind_some]
    exact .error hM2
  | true =>
    simp only [Bool.true_eq_false, if_false]
    cases view Cd w littleEndian buf.addr buf.bytes with
    | none => exact .undefined
    | some r =>
      simp only [Option.bind_some, pyObjectOf]
      by_cases hrc : r.1 ≠ .ok
      · simp only [if_pos hrc, hdecref, Option.bind_some]
        exact .error hM2
      · simp only [if_neg hrc]
        refine .returns hM1 fun o' ho => ?_
        obtain rfl := Option.some.inj ho
        exact ⟨fun h => absurd (show true = false from h) (by decide), fun _ => rfl⟩

end Methods

/-! ## Files -/

section Files

variable {path : Ptr} {b : Nat} {utf8 : Bool}

/-- Without a path, nothing is left. -/
theorem pathOf_none (hM : M.Has h (path.toList ++ r)) (hno : path = none ∨ utf8 = false) :
    ∃ refs, pathOf path utf8 M.refs = some (none, refs) ∧ PyMem.Has ⟨M.heap, refs⟩ h r := by
  cases utf8 with
  | true =>
    obtain rfl := hno.resolve_right (by decide)
    exact ⟨M.refs, rfl, hM⟩
  | false =>
    obtain ⟨refs, hdecref, hM1⟩ := hM.decref
    refine ⟨refs, ?_, hM1⟩
    simp only [pathOf, Bool.false_eq_true, if_false, hdecref, Option.bind_eq_bind, Option.bind_some]

variable (Cd : Codec τ) (w : Nat)

/-- `save` without a path leaves nothing. -/
theorem save_none (c : SaveCalls) (self : PyMap τ) (file : Option Bytes)
    (hM : M.Has h (path.toList ++ r)) (hno : path = none ∨ utf8 = false) :
    ∃ M', pySaveMem Cd w path utf8 c self file M = some (none, M') ∧ M'.Has h r := by
  obtain ⟨refs, hpath, hM1⟩ := pathOf_none hM hno
  refine ⟨_, ?_, hM1⟩
  unfold pySaveMem
  simp only [hpath, Option.bind_eq_bind, Option.bind_some, if_true]

/-- With a path, `save` does with its memory what it does without, also where it is undefined. -/
theorem save_sameCall {c : SaveCalls} (self : PyMap τ) (file : Option Bytes) (hM : M.Has h (b :: r))
    (hshared : c.pathShared = decide (b ∈ r)) :
    SameCall h r ((pySave Cd w c self file).map some)
      ((pySaveMem Cd w (some b) true c self file M).map fun x => (x.1, none, x.2)) := by
  unfold pySave pySaveMem
  simp only [pathOf, if_true, Option.bind_eq_bind, Option.bind_some, reduceCtorEq, if_false,
    hM.access List.mem_cons_self]
  rcases hf : malloc c.fopen M.heap with ⟨f, heap⟩
  obtain ⟨refs', hdecref, hM2⟩ := (hM.malloc hf).decref (p := some b)
  simp only [hdecref, Option.bind_some]
  by_cases hfopen : c.fopen = false
  · obtain rfl := (malloc_eq_none hf).mpr hfopen
    by_cases hb : b ∈ r
    · have hused := hM2.access hb
      simp only [if_pos hfopen, hshared, hb, decide_true, if_true, hused, Option.bind_some,
        Option.map_some]
      exact .error hM2
    · have hgone : access (some b) refs' = none :=
        if_neg fun hmem => hb (hM2.refs.mem_iff.mp hmem)
      simp only [if_pos hfopen, hshared, hb, decide_false, Bool.false_eq_true, if_false, if_true,
        hgone, Option.bind_none, Option.map_none]
      exact .undefined
  simp only [if_neg hfopen, if_neg (mt (malloc_eq_none hf).mp hfopen)]
  rcases hbuf : malloc c.malloc heap with ⟨buf, heap1⟩
  have hM3 := hM2.malloc hbuf
  by_cases hmalloc : c.malloc = false
  · obtain rfl := (malloc_eq_none hbuf).mpr hmalloc
    obtain ⟨heap2, hclose, hM4⟩ := hM3.free (p := f)
    simp only [if_pos hmalloc, if_true, hclose, Option.bind_some, Option.map_some]
    exact .error hM4
  simp only [if_neg hmalloc, if_neg (mt (malloc_eq_none hbuf).mp hmalloc)]
  cases write Cd self.map ((List.range (serializedSize Cd w self.map)).map c.junk) with
  | none => exact .undefined
  | some x =>
    obtain ⟨heap2, hfree, hM4⟩ := hM3.free
    obtain ⟨heap3, hclose, hM5⟩ := hM4.free
    simp only [Option.bind_some, hfree, hclose]
    by_cases hshort : c.fwrite ≠ serializedSize Cd w self.map ∨ c.ferror = true
    · simp only [if_pos hshort, Option.map_some]
      exact .error hM5
    · simp only [if_neg hshort, Option.map_some]
      exact .error hM5

/-- `load` without a path leaves nothing. -/
theorem load_none (c : LoadCalls) (file : Option Bytes) (hM : M.Has h (path.toList ++ r))
    (hno : path = none ∨ utf8 = false) :
    ∃ M', pyLoadMem Cd w path utf8 c file M = some (none, none, M') ∧ M'.Has h r := by
  obtain ⟨refs, hpath, hM1⟩ := pathOf_none hM hno
  refine ⟨_, ?_, hM1⟩
  unfold pyLoadMem
  simp only [hpath, Option.bind_eq_bind, Option.bind_some, if_true]

/-- With every path, `load` does with its memory what it does without. -/
theorem load_sameCall (c : LoadCalls) (file : Option Bytes) (hM : M.Has h (b :: r)) :
    SameCall h r ((pyLoad Cd w c file).map some) (pyLoadMem Cd w (some b) true c file M) := by
  unfold pyLoad pyLoadMem
  simp only [pathOf, if_true, Option.bind_eq_bind, Option.bind_some, reduceCtorEq, if_false,
    hM.access List.mem_cons_self]
  rcases hf : malloc (c.fopen && file.isSome) M.heap with ⟨f, heap⟩
  have hM2 := hM.malloc hf
  obtain ⟨refs', hdecref, hM3⟩ := hM2.decref (p := some b)
  cases file with
  | none =>
    obtain rfl := (malloc_eq_none hf).mpr (Bool.and_false _)
    simp only [Option.bind_some, hdecref, Option.map_some]
    exact .error hM3
  | some data =>
    rw [Option.isSome_some, Bool.and_true] at hf
    by_cases hfopen : c.fopen = false
    · obtain rfl := (malloc_eq_none hf).mpr hfopen
      simp only [if_pos hfopen, Option.bind_some, hdecref, Option.map_some]
      exact .error hM3
    obtain ⟨f, rfl⟩ := Option.ne_none_iff_exists'.mp (mt (malloc_eq_none hf).mp hfopen)
    obtain ⟨heap1, hclose1, hM4⟩ := hM3.free (p := some f)
    simp only [if_neg hfopen, Option.bind_some, hdecref]
    by_cases hlen : (if c.ftell = true then (data.length : Int) else -1) ≤ 0
    · simp only [if_pos hlen, hclose1, Option.bind_some, Option.map_some]
      exact .error hM4
    simp only [if_neg hlen]
    rcases hbuf : malloc c.malloc heap with ⟨buf, heap2⟩
    have hM5 := (hM3.malloc hbuf).perm (List.perm_append_comm_assoc ..) (List.Perm.refl _)
    obtain ⟨heap3, hclose3, hM6⟩ := hM5.free (p := some f)
    by_cases hmalloc : c.malloc = false
    · obtain rfl := (malloc_eq_none hbuf).mpr hmalloc
      simp only [if_pos hmalloc, if_true, hclose3, Option.bind_some, Option.map_some]
      exact .error hM6
    simp only [if_neg hmalloc, if_neg (mt (malloc_eq_none hbuf).mp hmalloc), hclose3, Option.bind_some]
    by_cases hfread : c.fread ≠ data.length
    · obtain ⟨heap4, hfree, hM7⟩ := hM6.free (p := buf)
      simp only [if_pos hfread, hfree, Option.bind_some, Option.map_some]
      exact .error hM7
    simp only [if_neg hfread]
    by_cases halloc : c.alloc = false
    · obtain ⟨heap4, hfree, hM7⟩ := hM6.free (p := buf)
      simp only [if_pos halloc, hfree, Option.bind_some, Option.map_some]
      exact .error hM7
    simp only [if_neg halloc]
    have hrun := read_sameRun Cd w c.heap data hM6.sound
    generalize read Cd w c.heap data = x at hrun ⊢
    generalize readMem Cd w c.heap data heap3 = y at hrun ⊢
    cases hrun with
    | undefined => exact .undefined
    | @returns rc m arrays heap4 hsound hlive herr =>
      have hM7 := (hM6.run hsound hlive).perm (List.perm_append_comm_assoc ..) (List.Perm.refl _)
      obtain ⟨heap5, hfree, hM8⟩ := hM7.free (p := buf)
      simp only [Option.bind_some, hfree, pyObjectOf]
      by_cases hrc : rc ≠ .ok
      · obtain ⟨heap6, hfreeAll, hM9⟩ := hM8.freeAll
        simp only [if_pos hrc, hfreeAll, Option.bind_some, Option.map_some]
        exact .error hM9
      · simp only [if_neg hrc, Option.map_some]
        exact .returns hM8 fun _ ho => Option.some.inj ho ▸ PyHeld.made_tidy arrays

end Files

/-! ## Construction -/

/-- The arrays that a conversion leaves. -/
def DictArrays.arrays (args : DictArrays) : List Ptr := [args.keys, args.vals]

/-- The references that a conversion leaves. -/
def DictArrays.refs (args : DictArrays) : List Nat := args.keep :: args.items

section Construction

variable {obj : PyObj → Nat}

/-- The loop leaves a reference to each key that it has converted. -/
theorem keepItems_spec (items : List (PyObj × PyObj)) (kept : List Nat) (hM : M.Has h (kept ++ r))
    (hkeys : ∀ e ∈ items, obj e.1 ∈ r) :
    ∃ kept' refs, keepItems obj items kept M.refs = some (items.mapM (fun e => do
        let key ← keyFromObject "all keys must be str (or bytes); got " e.1
        let value ← valueFromObject e.2
        .ok (key, value)), kept', refs) ∧ PyMem.Has ⟨M.heap, refs⟩ h (kept' ++ r) := by
  induction items generalizing kept M with
  | nil => exact ⟨kept, M.refs, rfl, hM⟩
  | cons e items ih =>
    rw [List.mapM_cons]
    unfold keepItems
    cases keyFromObject "all keys must be str (or bytes); got " e.1 with
    | error err => exact ⟨kept, M.refs, rfl, hM⟩
    | ok key =>
      have hmem : obj e.1 ∈ kept ++ r := List.mem_append_right _ (hkeys e List.mem_cons_self)
      obtain ⟨refs, hincref, hM1⟩ := hM.incref hmem
      simp only [hincref, Option.bind_eq_bind, Option.bind_some]
      cases valueFromObject e.2 with
      | error err => exact ⟨_, refs, rfl, hM1⟩
      | ok value =>
        obtain ⟨kept', refs', hitems, hM2⟩ := ih (obj e.1 :: kept) hM1
          fun e' he' => hkeys e' (List.mem_cons_of_mem _ he')
        refine ⟨kept', refs', ?_, hM2⟩
        simp only [hitems, Option.bind_some]
        rfl

/-- A conversion raises the exception that it raises without its memory, and leaves nothing, or leaves its
arrays and its references. -/
theorem dictToArraysMem_spec (A : DictAllocs) {mapping : PyArg} (hM : M.Has h r)
    (hkeys : ∀ d, mapping = .dict d → ∀ e ∈ d.items, obj e.1 ∈ r) :
    (∃ e M', dictToArrays (A.keep && A.keys && A.vals) mapping = .error e ∧
      dictToArraysMem A obj mapping M = some (.error e, M') ∧ M'.Has h r) ∨
    ∃ entries args M', dictToArrays (A.keep && A.keys && A.vals) mapping = .ok entries ∧
      dictToArraysMem A obj mapping M = some (.ok (entries, args), M') ∧
      M'.Has (blocks args.arrays ++ h) (args.refs ++ r) := by
  cases mapping with
  | obj o => exact Or.inl ⟨_, M, rfl, rfl, hM⟩
  | dict d =>
    unfold dictToArrays dictToArraysMem
    rcases hkeep : malloc A.keep M.refs with ⟨keep, refs⟩
    have hM1 := hM.newRef hkeep
    cases keep with
    | none =>
      have hA : (A.keep && A.keys && A.vals) = false := by
        rw [(malloc_eq_none hkeep).mp rfl, Bool.false_and, Bool.false_and]
      exact Or.inl ⟨_, _, if_pos hA, rfl, hM1⟩
    | some keep =>
      have hA1 : A.keep = true := Bool.of_not_eq_false (mt (malloc_eq_none hkeep).mpr (by simp))
      rcases hk : malloc A.keys M.heap with ⟨keys, heap⟩
      rcases hv : malloc A.vals heap with ⟨vals, heap'⟩
      have hblocks : (vals.toList ++ (keys.toList ++ h)).Perm (blocks [keys, vals] ++ h) := by
        rw [blocks_cons, blocks_cons, blocks_nil, List.append_nil, List.append_assoc]
        exact List.perm_append_comm_assoc ..
      have hM2 : PyMem.Has ⟨heap', refs⟩ (blocks [keys, vals] ++ h) (keep :: r) :=
        ((hM1.malloc hk).malloc hv).perm hblocks (List.Perm.refl _)
      simp only [hv]
      by_cases hnull : keys = none ∨ vals = none
      · have hA : (A.keep && A.keys && A.vals) = false := by
          rw [malloc_eq_none hk, malloc_eq_none hv] at hnull
          rcases hnull with hnull | hnull <;> simp [hnull]
        obtain ⟨heap2, hfree, hM3⟩ := hM2.freeAll
        obtain ⟨refs2, hdecref, hM4⟩ := hM3.decref (p := some keep)
        refine Or.inl ⟨_, _, if_pos hA, ?_, hM4⟩
        simp only [if_pos hnull, hfree, hdecref, Option.bind_eq_bind, Option.bind_some]
      · have hA : (A.keep && A.keys && A.vals) = true := by
          rw [malloc_eq_none hk, malloc_eq_none hv, not_or, Bool.not_eq_false, Bool.not_eq_false]
            at hnull
          rw [hA1, hnull.1, hnull.2]
          rfl
        obtain ⟨items, refs2, hitems, hM3⟩ := keepItems_spec d.items [] hM2
          fun e he => List.mem_cons_of_mem _ (hkeys d rfl e he)
        rw [hA]
        simp only [Bool.true_eq_false, if_false, if_neg hnull, hitems, Option.bind_eq_bind,
          Option.bind_some]
        have hM4 : PyMem.Has ⟨heap', refs2⟩ (blocks [keys, vals] ++ h) (keep :: items ++ r) :=
          hM3.perm (List.Perm.refl _) List.perm_middle
        cases d.items.mapM (fun e => do
          let key ← keyFromObject "all keys must be str (or bytes); got " e.1
          let value ← valueFromObject e.2
          .ok (key, value)) with
        | error e =>
          have hrefs : keep :: items ++ r = blocks (some keep :: items.map some) ++ r := by
            rw [blocks_cons, blocks_map_some]
            rfl
          rw [hrefs] at hM4
          obtain ⟨heap3, hfree, hM5⟩ := hM4.freeAll
          obtain ⟨refs3, hdecref, hM6⟩ := hM5.decrefAll
          refine Or.inl ⟨e, _, rfl, ?_, hM6⟩
          simp only [hfree, hdecref, Option.bind_some]
        | ok entries => exact Or.inr ⟨entries, _, _, rfl, rfl, hM4⟩

/-- `__init__` up to the construction converts its arguments, and owns then what the conversion left. -/
theorem initStart_spec (A : DictAllocs) (i : Nat) {mapping : PyArg} (hashName : Option String)
    (hM : M.Has h r) (hkeys : ∀ d, mapping = .dict d → ∀ e ∈ d.items, obj e.1 ∈ r) :
    (∃ e M', convertArgs (A.keep && A.keys && A.vals) mapping hashName = .error e ∧
      initStart A obj i mapping hashName M = some (.error e, M') ∧ M'.Has h r) ∨
    ∃ b M', convertArgs (A.keep && A.keys && A.vals) mapping hashName = .ok (b.hash, b.entries) ∧
      initStart A obj i mapping hashName M = some (.ok b, M') ∧ b.self = i ∧
      M'.Has (blocks b.args.arrays ++ h) (b.args.refs ++ r) := by
  unfold convertArgs initStart
  cases parseHash hashName with
  | error e => exact Or.inl ⟨e, M, rfl, rfl, hM⟩
  | ok hash =>
    rcases dictToArraysMem_spec A hM hkeys with ⟨e, M', hdict, hmem, hM'⟩ |
      ⟨entries, args, M', hdict, hmem, hM'⟩
    · refine Or.inl ⟨e, M', ?_, ?_, hM'⟩
      · rw [hdict]
        rfl
      · simp only [hmem, Option.bind_eq_bind, Option.bind_some]
        rfl
    · refine Or.inr ⟨⟨i, hash, entries, args⟩, M', ?_, ?_, rfl, hM'⟩
      · rw [hdict]
        rfl
      · simp only [hmem, Option.bind_eq_bind, Option.bind_some]
        rfl

/-- What `__init__` returns after a construction. -/
def PyType.initResult (T : PyType τ) (initialized : Bool) (rc : Rc) : PyResult Unit :=
  if rc ≠ .ok then .error (setPythonError rc)
  else if initialized = false then .ok ()
  else .error (alreadyInitialized T.name)

/-- The end of `__init__` leaves the arrays that it installs, and nothing of the conversion. -/
theorem initFinish_spec (T : PyType τ) (E : Env) (H : Heap) {b : Building} (initialized : Bool)
    (hM : M.Has (blocks b.args.arrays ++ h) (b.args.refs ++ r)) :
    (newWithHash T.codec.layout E H T.codec.layout.zeroMap b.entries b.hash = none ∧
      initFinish T E H b initialized M = none) ∨
    ∃ rc m arrays M', newWithHash T.codec.layout E H T.codec.layout.zeroMap b.entries b.hash =
        some (rc, m) ∧
      initFinish T E H b initialized M = some (T.initResult initialized rc, arrays, M') ∧
      M'.Has (blocks arrays ++ h) r ∧ (T.initResult initialized rc ≠ .ok () → arrays = []) := by
  unfold initFinish
  have hrun : SameRun M.heap (newWithHash T.codec.layout E H T.codec.layout.zeroMap b.entries b.hash)
      (newWithHashMem T.codec.layout E H T.codec.layout.zeroMap b.entries b.hash M.heap) :=
    newWithHash_sameRun hM.sound
  generalize newWithHash T.codec.layout E H T.codec.layout.zeroMap b.entries b.hash = x at hrun ⊢
  generalize newWithHashMem T.codec.layout E H T.codec.layout.zeroMap b.entries b.hash M.heap = y
    at hrun ⊢
  cases hrun with
  | undefined => exact Or.inl ⟨rfl, rfl⟩
  | @returns rc m arrays heap hsound hlive herr =>
    have hM1 := (hM.run hsound hlive).perm (List.perm_append_comm_assoc ..) (List.Perm.refl _)
    obtain ⟨heap', hfree, hM2⟩ := hM1.freeAll
    have hrefs : b.args.refs ++ r = blocks (some b.args.keep :: b.args.items.map some) ++ r := by
      rw [blocks_cons, blocks_map_some]
      rfl
    rw [hrefs] at hM2
    obtain ⟨refs, hdecref, hM3⟩ := hM2.decrefAll
    have hfree' : Heaps.freeAll [b.args.keys, b.args.vals] heap = some heap' := hfree
    simp only [hfree', hdecref, Option.bind_eq_bind, Option.bind_some]
    by_cases hrc : rc = .ok
    · subst hrc
      cases initialized with
      | false => exact Or.inr ⟨.ok, m, arrays, _, rfl, rfl, hM3, fun hne => absurd rfl hne⟩
      | true =>
        obtain ⟨heap2, hdiscard, hM4⟩ := hM3.freeAll
        refine Or.inr ⟨.ok, m, [], _, rfl, ?_, hM4, fun _ => rfl⟩
        simp only [ne_eq, not_true_eq_false, if_false, Bool.true_eq_false, hdiscard, Option.bind_some,
          PyType.initResult]
    · obtain rfl := herr hrc
      refine Or.inr ⟨rc, m, [], _, rfl, ?_, hM3, fun _ => rfl⟩
      rw [if_pos hrc, PyType.initResult, if_pos hrc]

end Construction

end FastConstMap
