import FastConstMap.Proofs.ReferenceProofs

/-!
# A process with maps

Over a run of a process, whatever other code does with its own references, blocks and references are those
of the objects and of the calls of `__init__` that are building. `save` alone can use an object that is
gone.
-/

namespace FastConstMap

open CLoop Heaps

variable {τ : Type} {M : PyMem} {h r : List Nat}

/-! ## Objects -/

/-- The references to an object. -/
def refCount (o : Option PyHeld) : Nat := o.elim 0 PyHeld.refs

/-- What an object owned is gone with it. -/
theorem PyHeld.Tidy.release {o : PyHeld} (ho : o.Tidy)
    (hM : M.Has (heldBlocks (some o) ++ h) (heldViews (some o) ++ r)) :
    ∃ M', o.release M = some M' ∧ M'.Has h r := by
  unfold PyHeld.release
  obtain ⟨refs, arrays, view, initialized⟩ := o
  cases view with
  | none =>
    obtain ⟨heap, hfree, hM1⟩ : ∃ heap, freeAll arrays M.heap = some heap ∧
        PyMem.Has ⟨heap, M.refs⟩ h r := hM.freeAll
    exact ⟨_, by simp only [hfree, Option.bind_eq_bind, Option.bind_some], hM1⟩
  | some exporter =>
    obtain rfl : arrays = [] := ho.view (by simp)
    obtain ⟨refs', hdecref, hM1⟩ := hM.decref (p := some exporter)
    exact ⟨_, by simp only [hdecref, Option.bind_eq_bind, Option.bind_some], hM1⟩

theorem PyHeld.Tidy.decref {o : PyHeld} (ho : o.Tidy)
    (hM : M.Has (heldBlocks (some o) ++ h) (heldViews (some o) ++ r)) :
    ∃ o' M', o.decref M = some (o', M') ∧ M'.Has (heldBlocks o' ++ h) (heldViews o' ++ r) ∧
      (∀ o'' ∈ o', o''.Tidy) ∧ refCount o' = o.refs - 1 := by
  unfold PyHeld.decref
  by_cases hlast : o.refs - 1 = 0
  · obtain ⟨M', hrelease, hM1⟩ := ho.release hM
    refine ⟨none, M', ?_, hM1, fun _ ho => absurd ho (Option.not_mem_none _), hlast.symm⟩
    rw [if_pos hlast, hrelease]
    rfl
  · refine ⟨some { o with refs := o.refs - 1 }, M, if_neg hlast, hM, ?_, rfl⟩
    intro o'' ho''
    obtain rfl := Option.some.inj ho''
    exact ⟨ho.empty, ho.view⟩

theorem PyType.initResult_ok {T : PyType τ} {initialized : Bool} {rc : Rc}
    (h : T.initResult initialized rc = .ok ()) : initialized = false := by
  unfold PyType.initResult at h
  split_ifs at h with hrc hinit
  exact hinit

/-- An object that gets arrays had none. -/
theorem PyHeld.Tidy.install {o : PyHeld} (ho : o.Tidy) {x : PyResult Unit} {arrays : List Ptr}
    (herr : x ≠ .ok () → arrays = []) (hok : x = .ok () → o.initialized = false) :
    (o.install x arrays).Tidy ∧
      heldBlocks (some (o.install x arrays)) = blocks arrays ++ heldBlocks (some o) ∧
      heldViews (some (o.install x arrays)) = heldViews (some o) ∧
      (o.install x arrays).refs = o.refs := by
  cases x with
  | error e =>
    obtain rfl := herr (by simp)
    exact ⟨ho, rfl, rfl, rfl⟩
  | ok u =>
    obtain ⟨harrays, hview⟩ := ho.empty (hok rfl)
    refine ⟨⟨fun h => absurd (show true = false from h) (by decide), fun h => absurd hview h⟩, ?_,
      rfl, rfl⟩
    show blocks arrays = blocks arrays ++ blocks o.arrays
    rw [harrays, blocks_nil, List.append_nil]

/-! ## Processes -/

theorem perm_third {α : Type} (x a b c : List α) : (x ++ (a ++ (b ++ c))).Perm (a ++ (b ++ (x ++ c))) :=
  (List.perm_append_comm_assoc x a _).trans ((List.perm_append_comm_assoc x b c).append_left a)

/-- What one of the calls owns can be told from the rest. -/
theorem PyMem.Has.call {before after : List Building} {b : Building} {outside : List Nat}
    (hM : M.Has (h ++ (before ++ b :: after).flatMap fun b => blocks b.args.arrays)
      (r ++ ((before ++ b :: after).flatMap (fun b => b.args.refs) ++ outside))) :
    M.Has (blocks b.args.arrays ++ (h ++ (before ++ after).flatMap fun b => blocks b.args.arrays))
      (b.args.refs ++ (r ++ ((before ++ after).flatMap (fun b => b.args.refs) ++ outside))) := by
  have hcalls : ∀ f : Building → List Nat,
      ((before ++ b :: after).flatMap f).Perm (f b ++ (before ++ after).flatMap f) := by
    intro f
    rw [List.flatMap_append, List.flatMap_append, List.flatMap_cons]
    exact List.perm_append_comm_assoc ..
  refine hM.perm ?_ ?_
  · exact ((hcalls _).append_left h).trans (List.perm_append_comm_assoc ..)
  · refine (((hcalls fun b => b.args.refs).append_right _).append_left r).trans ?_
    rw [List.append_assoc]
    exact List.perm_append_comm_assoc ..

/-- The same calls with another answer to who has a reference to the path. -/
def SaveCalls.withShared (c : SaveCalls) (shared : Bool) : SaveCalls := { c with pathShared := shared }

@[simp]
theorem SaveCalls.pathShared_withShared (c : SaveCalls) (shared : Bool) :
    (c.withShared shared).pathShared = shared :=
  rfl

/-- With its memory, `save` finds out itself who has a reference to the path. -/
theorem pySaveMem_withShared (Cd : Codec τ) (w : Nat) (path : Ptr) (utf8 : Bool) (c : SaveCalls)
    (shared : Bool) (self : PyMap τ) (file : Option Bytes) :
    pySaveMem Cd w path utf8 (c.withShared shared) self file M = pySaveMem Cd w path utf8 c self file M :=
  rfl

/-- Who has a reference to the path only matters if `fopen` fails. -/
theorem pySave_withShared (Cd : Codec τ) (w : Nat) {c : SaveCalls} {shared : Bool} (self : PyMap τ)
    (file : Option Bytes) (hopen : c.fopen = false → shared = true) :
    pySave Cd w (c.withShared shared) self file = pySave Cd w (c.withShared true) self file := by
  by_cases hfails : c.fopen = false
  · rw [hopen hfails]
  · unfold pySave
    rw [if_neg (show ¬ (c.withShared shared).fopen = false from hfails),
      if_neg (show ¬ (c.withShared true).fopen = false from hfails)]
    rfl

/-- A path is one of the references of a list, or none. -/
theorem exists_taken {l : List Nat} {path : Ptr} (h : ∀ b ∈ path, b ∈ l) :
    ∃ before after, l = before ++ (path.toList ++ after) := by
  cases path with
  | none => exact ⟨l, [], (List.append_nil l).symm⟩
  | some b => exact List.append_of_mem (h b rfl)

namespace PyProcess

variable {s : PyProcess}

/-- The blocks of the objects and of the calls. -/
def owned (s : PyProcess) : List Nat :=
  s.objects.flatMap heldBlocks ++ s.calls.flatMap fun b => blocks b.args.arrays

/-- The references of the objects, of the calls and of the rest of the process. -/
def referenced (s : PyProcess) : List Nat :=
  s.objects.flatMap heldViews ++ (s.calls.flatMap (fun b => b.args.refs) ++ s.outside)

/-- Every block and every reference has an owner, and every running call a reference to its object. -/
structure Inv (s : PyProcess) : Prop where
  mem : s.mem.Has s.owned s.referenced
  tidy : ∀ o, some o ∈ s.objects → o.Tidy
  running : ∀ i : Nat, s.running i ≤ refCount s.objects[i]?.join

theorem mem_referenced {b : Nat} (hb : b ∈ s.outside) : b ∈ s.referenced :=
  List.mem_append_right _ (List.mem_append_right _ hb)

theorem inv_of_initial (h : s.Initial) : s.Inv := by
  obtain ⟨mem, objects, calls, outside⟩ := s
  obtain ⟨rfl, rfl, rfl, rfl⟩ := h
  refine ⟨⟨⟨List.nodup_nil, ?_⟩, ?_, List.Perm.refl _, List.Perm.refl _⟩, ?_, ?_⟩
  · exact fun _ hb => absurd hb List.not_mem_nil
  · exact fun _ hb => absurd hb List.not_mem_nil
  · exact fun _ ho => absurd ho List.not_mem_nil
  · exact fun _ => Nat.le_refl 0

namespace Inv

variable (hs : s.Inv)
include hs

/-- A new object joins the others; what the rest of the process has may change with it. -/
theorem made {o : Option PyHeld} {M : PyMem} {outside : List Nat}
    (hM : M.Has (heldBlocks o ++ s.owned)
      (heldViews o ++ referenced { s with outside := outside })) (ho : ∀ o' ∈ o, o'.Tidy) :
    Inv { s with mem := M, objects := s.objects ++ o.toList.map some, outside := outside } := by
  have hrefs : ∀ i : Nat, refCount s.objects[i]?.join ≤
      refCount (s.objects ++ o.toList.map some)[i]?.join := by
    intro i
    rcases Nat.lt_or_ge i s.objects.length with hi | hi
    · rw [List.getElem?_append_left hi]
    · rw [List.getElem?_eq_none hi]
      exact Nat.zero_le _
  have hmade : ∀ f : Option PyHeld → List Nat, f none = [] →
      (o.toList.map some).flatMap f = f o := by
    intro f hf
    cases o with
    | none => exact hf.symm
    | some o => exact List.append_nil _
  refine ⟨hM.perm ?_ ?_, ?_, fun i => (hs.running i).trans (hrefs i)⟩
  · rw [owned, owned, List.flatMap_append, hmade _ rfl, List.append_assoc]
    exact List.perm_append_comm_assoc ..
  · rw [referenced, referenced, List.flatMap_append, hmade _ rfl, List.append_assoc]
    exact List.perm_append_comm_assoc ..
  · intro o' ho'
    rcases List.mem_append.mp ho' with ho' | ho'
    · exact hs.tidy o' ho'
    · obtain ⟨o'', ho'', heq⟩ := List.mem_map.mp ho'
      exact ho o' (by rw [← Option.some.inj heq]; exact Option.mem_toList.mp ho'')

/-- One object changes, and the calls with it: what the object and the calls had can be told from the rest,
and the rest with what they have then makes up the next process. -/
theorem replace {i : Nat} {o : PyHeld} (ho : s.objects[i]? = some (some o)) :
    ∃ h r : List Nat,
      s.mem.Has (heldBlocks (some o) ++ (h ++ s.calls.flatMap fun b => blocks b.args.arrays))
        (heldViews (some o) ++ (r ++ (s.calls.flatMap (fun b => b.args.refs) ++ s.outside))) ∧
      ∀ (o' : Option PyHeld) (calls : List Building) (M : PyMem),
        M.Has (heldBlocks o' ++ (h ++ calls.flatMap fun b => blocks b.args.arrays))
          (heldViews o' ++ (r ++ (calls.flatMap (fun b => b.args.refs) ++ s.outside))) →
        (∀ o'' ∈ o', o''.Tidy) → (calls.countP fun b => b.self = i) ≤ refCount o' →
        (∀ j, j ≠ i → (calls.countP fun b => b.self = j) ≤ s.running j) →
        Inv { s with mem := M, objects := s.objects.set i o', calls := calls } := by
  obtain ⟨h, hblocks, hblocks'⟩ := flatMap_set_perm heldBlocks ho
  obtain ⟨r, hviews, hviews'⟩ := flatMap_set_perm heldViews ho
  refine ⟨h, r, hs.mem.perm ?_ ?_, ?_⟩
  · rw [← List.append_assoc]
    exact hblocks.append_right _
  · rw [← List.append_assoc]
    exact hviews.append_right _
  intro o' calls M hM ho' hi hj
  have hlt : i < s.objects.length := (List.getElem?_eq_some_iff.mp ho).1
  refine ⟨hM.perm ?_ ?_, ?_, ?_⟩
  · rw [owned, ← List.append_assoc]
    exact ((hblocks' o').append_right _).symm
  · rw [referenced, ← List.append_assoc]
    exact ((hviews' o').append_right _).symm
  · intro o'' ho''
    rcases List.mem_or_eq_of_mem_set ho'' with ho'' | ho''
    · exact hs.tidy o'' ho''
    · exact ho' o'' ho''.symm
  · intro j
    by_cases hji : j = i
    · subst hji
      simp only [List.getElem?_set_self hlt, Option.join_some]
      exact hi
    · simp only [List.getElem?_set_ne (Ne.symm hji)]
      exact (hj j hji).trans (hs.running j)

/-- The rest of the process gets a reference. -/
theorem outsideRef {b : Nat} {M : PyMem} (hM : M.Has s.owned (b :: s.referenced)) :
    Inv { s with mem := M, outside := b :: s.outside } := by
  refine ⟨hM.perm (List.Perm.refl _) ?_, hs.tidy, hs.running⟩
  unfold referenced
  rw [← List.append_assoc, ← List.append_assoc]
  exact List.perm_middle.symm

/-- A reference of the rest of the process can be told from the others. -/
theorem takeOutside {before after : List Nat} {path : Ptr}
    (hpath : s.outside = before ++ (path.toList ++ after)) :
    s.mem.Has s.owned (path.toList ++ referenced { s with outside := before ++ after }) := by
  refine hs.mem.perm (List.Perm.refl _) ?_
  unfold referenced
  rw [hpath]
  refine (((List.perm_append_comm_assoc before path.toList after).append_left _).append_left _).trans ?_
  exact (perm_third ..).symm

/-- The rest of the process drops a reference. -/
theorem dropOutside {before after : List Nat} {b : Nat} (hb : s.outside = before ++ b :: after) :
    ∃ refs, free (some b) s.mem.refs = some refs ∧
      Inv { s with mem := ⟨s.mem.heap, refs⟩, outside := before ++ after } := by
  have hM : s.mem.Has s.owned (b :: referenced { s with outside := before ++ after }) :=
    hs.takeOutside (show s.outside = before ++ ((some b).toList ++ after) from hb)
  obtain ⟨refs, hdecref, hM⟩ := hM.decref (p := some b)
  exact ⟨refs, hdecref, hM, hs.tidy, hs.running⟩

/-- The memory may change without the objects and the calls if it keeps what they have. -/
theorem withMem {M : PyMem} {outside : List Nat}
    (hM : M.Has s.owned (referenced { s with outside := outside })) :
    Inv { s with mem := M, outside := outside } :=
  ⟨hM, hs.tidy, hs.running⟩

end Inv

end PyProcess

/-- What a method leaves, without the case distinction. -/
theorem SameCall.of_returns {ρ : Type} {x : ρ} {o : Option PyHeld} {y : Option ρ}
    (hcall : SameCall h r y (some (x, o, M))) :
    M.Has (heldBlocks o ++ h) (heldViews o ++ r) ∧ ∀ o' ∈ o, o'.Tidy := by
  cases hcall with
  | returns hM ho => exact ⟨hM, ho⟩

theorem PyStep.inv {s s' : PyProcess} {a : PyActor} (hs : s.Inv) (h : PyStep s a s') : s'.Inv := by
  cases h with
  | newRef => exact hs.outsideRef (hs.mem.newRef (show malloc true s.mem.refs = _ from rfl))
  | copyRef hb h =>
    obtain ⟨refs, hincref, hM⟩ := hs.mem.incref (PyProcess.mem_referenced hb)
    obtain rfl := Option.some.inj (hincref.symm.trans h)
    exact hs.outsideRef hM
  | dropRef hb h =>
    obtain ⟨refs, hdecref, hs'⟩ := hs.dropOutside hb
    obtain rfl := Option.some.inj (hdecref.symm.trans h)
    exact hs'
  | @copyObject i o ho hrefs =>
    obtain ⟨h, r, hM, hreplace⟩ := hs.replace ho
    have htidy := hs.tidy o (List.mem_of_getElem? ho)
    refine hreplace (some { o with refs := o.refs + 1 }) s.calls s.mem hM ?_ ?_ fun _ _ => Nat.le_refl _
    · intro o' ho'
      obtain rfl := Option.some.inj ho'
      exact ⟨htidy.empty, htidy.view⟩
    · exact hrefs.le.trans (Nat.le_succ _)
  | @dropObject i o o' M ho hrefs h =>
    obtain ⟨h', r, hM, hreplace⟩ := hs.replace ho
    obtain ⟨o'', M', hdecref, hM', ho', hcount⟩ := (hs.tidy o (List.mem_of_getElem? ho)).decref hM
    obtain ⟨rfl, rfl⟩ := Prod.mk.inj (Option.some.inj (hdecref.symm.trans h))
    refine hreplace o'' s.calls M' hM' ho' ?_ fun _ _ => Nat.le_refl _
    show s.running i ≤ refCount o''
    omega
  | new =>
    refine hs.made (o := some { refs := 1, arrays := [], view := none, initialized := false }) hs.mem ?_
    intro o' ho'
    obtain rfl := Option.some.inj ho'
    exact ⟨fun _ => ⟨rfl, rfl⟩, fun _ => rfl⟩
  | @initError A obj i mapping hashName e M hkeys h =>
    rcases initStart_spec A i hashName hs.mem fun d hd e he => PyProcess.mem_referenced (hkeys d hd e he)
      with ⟨e', M', -, hstart, hM⟩ | ⟨b, M', -, hstart, -, -⟩
    · obtain ⟨-, rfl⟩ := Prod.mk.inj (Option.some.inj (hstart.symm.trans h))
      exact hs.withMem hM
    · obtain ⟨hb, -⟩ := Prod.mk.inj (Option.some.inj (hstart.symm.trans h))
      exact absurd hb (by simp)
  | @initStart A obj i o mapping hashName b M ho hkeys h =>
    obtain ⟨h', r, hM, hreplace⟩ := hs.replace ho
    have htidy := hs.tidy o (List.mem_of_getElem? ho)
    rcases initStart_spec A i hashName hM fun d hd e he => List.mem_append_right _
        (List.mem_append_right _ (List.mem_append_right _ (hkeys d hd e he)))
      with ⟨e', M', -, hstart, -⟩ | ⟨b', M', -, hstart, hself, hM'⟩
    · obtain ⟨hb, -⟩ := Prod.mk.inj (Option.some.inj (hstart.symm.trans h))
      exact absurd hb (by simp)
    obtain ⟨hb, rfl⟩ := Prod.mk.inj (Option.some.inj (hstart.symm.trans h))
    obtain rfl := Except.ok.inj hb
    refine hreplace (some { o with refs := o.refs + 1 }) (b' :: s.calls) M' (hM'.perm ?_ ?_) ?_ ?_ ?_
    · exact perm_third ..
    · rw [List.flatMap_cons, List.append_assoc]
      exact perm_third ..
    · intro o' ho'
      obtain rfl := Option.some.inj ho'
      exact ⟨htidy.empty, htidy.view⟩
    · rw [List.countP_cons, if_pos (by simpa using hself)]
      have hrunning := hs.running i
      rw [ho, Option.join_some] at hrunning
      exact Nat.succ_le_succ hrunning
    · intro j hj
      rw [List.countP_cons, if_neg (by simpa [hself] using Ne.symm hj)]
      exact Nat.le_refl _
  | @initFinish τ T E H before after b o o' x arrays M M' hb ho h hdrop =>
    obtain ⟨h', r, hM, hreplace⟩ := hs.replace ho
    have htidy := hs.tidy o (List.mem_of_getElem? ho)
    rw [hb, ← List.append_assoc, ← List.append_assoc] at hM
    have hM1 := hM.call
    rw [List.append_assoc, List.append_assoc] at hM1
    rcases initFinish_spec T E H o.initialized hM1 with ⟨-, hnone⟩ |
      ⟨rc, m, arrays', M1, -, hfinish, hM2, herr⟩
    · rw [hnone] at h
      cases h
    obtain ⟨rfl, hres⟩ := Prod.mk.inj (Option.some.inj (hfinish.symm.trans h))
    obtain ⟨rfl, rfl⟩ := Prod.mk.inj hres
    obtain ⟨hinstalled, hblocks, hviews, hrefs⟩ :=
      htidy.install herr fun hok => PyType.initResult_ok hok
    rw [← List.append_assoc, ← hblocks, ← hviews] at hM2
    obtain ⟨o'', M2, hdecref, hM3, ho', hcount⟩ := hinstalled.decref hM2
    obtain ⟨rfl, rfl⟩ := Prod.mk.inj (Option.some.inj (hdecref.symm.trans hdrop))
    have hrunning : ∀ j, s.running j = ((before ++ after).countP fun b => b.self = j) +
        if b.self = j then 1 else 0 := by
      intro j
      rw [PyProcess.running, hb, List.countP_append, List.countP_append, List.countP_cons]
      simp only [decide_eq_true_eq]
      omega
    refine hreplace o'' (before ++ after) M2 hM3 ho' ?_ fun j hj => ?_
    · have hself := hs.running b.self
      rw [hrunning, if_pos rfl, ho, Option.join_some] at hself
      have hpos : refCount (some o) = o.refs := rfl
      omega
    · rw [hrunning]
      exact Nat.le_add_right _ _
  | @fromBytes τ Cd w alloc H buf exporter r o M he h =>
    have hcall := deserialize_sameCall Cd w alloc H buf hs.mem (PyProcess.mem_referenced he)
    rw [h] at hcall
    obtain ⟨hM, ho⟩ := hcall.of_returns
    exact hs.made hM ho
  | @fromBuffer τ Cd w le alloc buf exporter r o M he h =>
    have hcall := fromBuffer_sameCall Cd w alloc le buf hs.mem (PyProcess.mem_referenced he)
    rw [h] at hcall
    obtain ⟨hM, ho⟩ := hcall.of_returns
    exact hs.made hM ho
  | @save τ Cd w before after path utf8 c self file r M hpath h =>
    have hM := hs.takeOutside hpath
    by_cases hno : path = none ∨ utf8 = false
    · obtain ⟨M', hsave, hM'⟩ := save_none Cd w c self file hM hno
      obtain ⟨-, rfl⟩ := Prod.mk.inj (Option.some.inj (hsave.symm.trans h))
      exact hs.withMem hM'
    rw [not_or, Bool.not_eq_false] at hno
    obtain ⟨hsome, rfl⟩ := hno
    obtain ⟨b, rfl⟩ := Option.ne_none_iff_exists'.mp hsome
    have hcall := save_sameCall Cd w self file hM (c.pathShared_withShared _)
    rw [pySaveMem_withShared, h, Option.map_some] at hcall
    exact hs.withMem hcall.of_returns.1
  | @load τ Cd w before after path utf8 c file r o M hpath h =>
    have hM := hs.takeOutside hpath
    by_cases hno : path = none ∨ utf8 = false
    · obtain ⟨M', hload, hM'⟩ := load_none Cd w c file hM hno
      obtain ⟨-, hres⟩ := Prod.mk.inj (Option.some.inj (hload.symm.trans h))
      obtain ⟨rfl, rfl⟩ := Prod.mk.inj hres
      exact hs.made (o := none) hM' fun _ ho => absurd ho (Option.not_mem_none _)
    rw [not_or, Bool.not_eq_false] at hno
    obtain ⟨hsome, rfl⟩ := hno
    obtain ⟨b, rfl⟩ := Option.ne_none_iff_exists'.mp hsome
    have hcall := load_sameCall Cd w c file hM
    rw [h] at hcall
    obtain ⟨hM', ho⟩ := hcall.of_returns
    exact hs.made hM' ho

theorem PyProcess.inv_of_reachable {s : PyProcess}
    (hs : Runs.Reachable PyStep PyProcess.Initial s) : s.Inv :=
  hs.invariant (fun _ => PyProcess.inv_of_initial) fun _ _ _ hs h => h.inv hs

/-! ## Methods in a process -/

/-- What a method returns does not depend on its memory. -/
theorem SameCall.result {ρ : Type} {x : Option ρ} {y : Option (ρ × Option PyHeld × PyMem)}
    (hcall : SameCall h r x y) : y.map Prod.fst = x := by
  cases hcall with
  | undefined => rfl
  | returns => rfl

/-- Nothing is lost, nothing is freed twice, and what is in use is alive: the object and the keys of a
running call, and the exporter of a view. -/
structure PyProcess.Safe (s : PyProcess) : Prop where
  sound : s.mem.heap.Sound
  owned : s.mem.heap.live.Perm s.owned
  referenced : s.mem.refs.live.Perm s.referenced
  running : ∀ b ∈ s.calls, (∃ o, s.objects[b.self]? = some (some o)) ∧
    ∀ key ∈ b.args.items, key ∈ s.mem.refs.live
  objects : ∀ o, some o ∈ s.objects → (∀ e, o.view = some e → e ∈ s.mem.refs.live) ∧
    (o.decref s.mem).isSome

namespace PyProcess.Inv

variable {s : PyProcess} (hs : s.Inv)
include hs

/-- A running call has an object. -/
theorem object_of_call {b : Building} (hb : b ∈ s.calls) :
    ∃ o, s.objects[b.self]? = some (some o) := by
  have hpos : 0 < s.running b.self := List.countP_pos_iff.mpr ⟨b, hb, by simp⟩
  have hle := hs.running b.self
  cases hobj : s.objects[b.self]? with
  | none =>
    rw [hobj] at hle
    exact absurd (hpos.trans_le hle) (Nat.lt_irrefl 0)
  | some o =>
    cases o with
    | none =>
      rw [hobj] at hle
      exact absurd (hpos.trans_le hle) (Nat.lt_irrefl 0)
    | some o => exact ⟨o, rfl⟩

theorem safe : s.Safe := by
  refine ⟨hs.mem.sound, hs.mem.heap, hs.mem.refs, ?_, ?_⟩
  · intro b hb
    refine ⟨hs.object_of_call hb, fun key hkey => hs.mem.refs.mem_iff.mpr ?_⟩
    refine List.mem_append_right _ (List.mem_append_left _ ?_)
    exact List.mem_flatMap.mpr ⟨b, hb, List.mem_cons_of_mem _ hkey⟩
  · intro o ho
    constructor
    · intro e he
      refine hs.mem.refs.mem_iff.mpr (List.mem_append_left _ (List.mem_flatMap.mpr ⟨some o, ho, ?_⟩))
      exact Option.mem_toList.mpr he
    · obtain ⟨i, hi⟩ := List.mem_iff_getElem?.mp ho
      obtain ⟨h', r, hM, -⟩ := hs.replace hi
      obtain ⟨o', M', hdecref, -⟩ := (hs.tidy o ho).decref hM
      rw [hdecref]
      rfl

/-- `__init__` returns what it returns without its memory, also after other code has run in between. -/
theorem initFinish_result {b : Building} (hb : b ∈ s.calls) (T : PyType τ) (E : Env) (H : Heap)
    (initialized : Bool) :
    (initFinish T E H b initialized s.mem).map Prod.fst =
      (newWithHash T.codec.layout E H T.codec.layout.zeroMap b.entries b.hash).map fun x =>
        T.initResult initialized x.1 := by
  obtain ⟨before, after, hcalls⟩ := List.append_of_mem hb
  have hM := hs.mem
  rw [owned, referenced, hcalls] at hM
  rcases initFinish_spec T E H initialized hM.call with ⟨hnone, hfinish⟩ |
    ⟨rc, m, arrays, M', hnew, hfinish, -, -⟩
  · rw [hnone, hfinish]
    rfl
  · rw [hnew, hfinish]
    rfl

theorem initStart_result (A : DictAllocs) (obj : PyObj → Nat) (i : Nat) {mapping : PyArg}
    (hashName : Option String)
    (hkeys : ∀ d, mapping = .dict d → ∀ e ∈ d.items, obj e.1 ∈ s.outside) :
    (initStart A obj i mapping hashName s.mem).map (fun x => x.1.map fun b => (b.hash, b.entries)) =
      some (convertArgs (A.keep && A.keys && A.vals) mapping hashName) := by
  have hkeys' : ∀ d, mapping = .dict d → ∀ e ∈ d.items, obj e.1 ∈ s.referenced :=
    fun d hd e he => mem_referenced (hkeys d hd e he)
  rcases initStart_spec A i hashName hs.mem hkeys' with ⟨e, M', hconvert, hstart, -⟩ |
    ⟨b, M', hconvert, hstart, -, -⟩
  · rw [hconvert, hstart]
    rfl
  · rw [hconvert, hstart]
    rfl

theorem load_result (Cd : Codec τ) (w : Nat) {path : Ptr} (utf8 : Bool) (c : LoadCalls)
    (file : Option Bytes) (hpath : ∀ b ∈ path, b ∈ s.outside) :
    (pyLoadMem Cd w path utf8 c file s.mem).map Prod.fst =
      if path = none ∨ utf8 = false then some none else (pyLoad Cd w c file).map some := by
  obtain ⟨before, after, hsplit⟩ := exists_taken hpath
  have hM := hs.takeOutside hsplit
  by_cases hno : path = none ∨ utf8 = false
  · obtain ⟨M', hload, -⟩ := load_none Cd w c file hM hno
    rw [if_pos hno, hload]
    rfl
  · rw [if_neg hno]
    rw [not_or, Bool.not_eq_false] at hno
    obtain ⟨hsome, rfl⟩ := hno
    obtain ⟨b, rfl⟩ := Option.ne_none_iff_exists'.mp hsome
    exact (load_sameCall Cd w c file hM).result

theorem save_result (Cd : Codec τ) (w : Nat) {b : Nat} (utf8 : Bool) (c : SaveCalls)
    (self : PyMap τ) (file : Option Bytes) (hb : b ∈ s.outside) :
    (pySaveMem Cd w (some b) utf8 c self file s.mem).map Prod.fst =
      if utf8 = false then some none
      else if c.fopen = false ∧ s.mem.refs.live.count b = 1 then none
      else (pySave Cd w (c.withShared true) self file).map some := by
  obtain ⟨before, after, hsplit⟩ := List.append_of_mem hb
  set r := referenced { s with outside := before ++ after }
  have hM : s.mem.Has s.owned (b :: r) :=
    hs.takeOutside (show s.outside = before ++ ((some b).toList ++ after) from hsplit)
  cases utf8 with
  | false =>
    obtain ⟨M', hsave, -⟩ := save_none Cd w c self file
      (show s.mem.Has s.owned ((some b).toList ++ r) from hM) (Or.inr rfl)
    rw [if_pos rfl, hsave]
    rfl
  | true =>
    rw [if_neg (by decide)]
    have hcall := (save_sameCall Cd w self file hM (c.pathShared_withShared _)).result
    rw [pySaveMem_withShared, Option.map_map] at hcall
    -- The method has one of the references to the path.
    have hlast : s.mem.refs.live.count b = 1 ↔ b ∉ r := by
      rw [hM.refs.count_eq, List.count_cons_self, ← List.count_eq_zero]
      exact Nat.add_eq_right
    refine hcall.trans ?_
    by_cases hgone : c.fopen = false ∧ s.mem.refs.live.count b = 1
    · have hfails : (c.withShared (b ∈ r)).fopen = false := hgone.1
      rw [if_pos hgone, pySave_gone hfails (decide_eq_false (hlast.mp hgone.2))]
      rfl
    · rw [if_neg hgone, pySave_withShared]
      intro hopen
      exact decide_eq_true (not_not.mp fun hb => hgone ⟨hopen, hlast.mpr hb⟩)

end PyProcess.Inv

/-- In every process that makes, loads, saves, views and drops objects of the three types, with calls of
`__init__` at any time and in any order, and with any outcome of every allocation: no block and no
reference is lost or freed twice, the keys that a call of `__init__` reads and its object are alive, as is
the exporter of every view, and `__init__`, `from_bytes`, `from_buffer` and `load` return what they return
without their memory. -/
theorem methods_keep_references {s : PyProcess} (hs : Runs.Reachable PyStep PyProcess.Initial s) :
    s.Safe ∧
    (∀ A obj i mapping hashName,
      (∀ d, mapping = .dict d → ∀ e ∈ d.items, obj e.1 ∈ s.outside) →
      (initStart A obj i mapping hashName s.mem).map (fun x => x.1.map fun b => (b.hash, b.entries)) =
        some (convertArgs (A.keep && A.keys && A.vals) mapping hashName)) ∧
    (∀ (τ : Type) (T : PyType τ) (E : Env) (H : Heap) (initialized : Bool), ∀ b ∈ s.calls,
      (initFinish T E H b initialized s.mem).map Prod.fst =
        (newWithHash T.codec.layout E H T.codec.layout.zeroMap b.entries b.hash).map fun x =>
          T.initResult initialized x.1) ∧
    (∀ (τ : Type) (Cd : Codec τ) (w : Nat) (alloc : Bool) (H : Heap) (buf : Bytes),
      ∀ exporter ∈ s.outside, (pyDeserializeMem Cd w alloc H buf exporter s.mem).map Prod.fst =
        pyDeserialize Cd w alloc H buf) ∧
    (∀ (τ : Type) (Cd : Codec τ) (w : Nat) (le alloc : Bool) (buf : PyBuffer),
      ∀ exporter ∈ s.outside, (pyFromBufferMem Cd w le alloc buf exporter s.mem).map Prod.fst =
        pyFromBuffer Cd w le alloc buf) ∧
    ∀ (τ : Type) (Cd : Codec τ) (w : Nat) (path : Ptr) (utf8 : Bool) (c : LoadCalls)
      (file : Option Bytes), (∀ b ∈ path, b ∈ s.outside) →
      (pyLoadMem Cd w path utf8 c file s.mem).map Prod.fst =
        if path = none ∨ utf8 = false then some none else (pyLoad Cd w c file).map some := by
  have hinv := PyProcess.inv_of_reachable hs
  refine ⟨hinv.safe, ?_, ?_, ?_, ?_, ?_⟩
  · exact fun A obj i mapping hashName hkeys => hinv.initStart_result A obj i hashName hkeys
  · exact fun τ T E H initialized b hb => hinv.initFinish_result hb T E H initialized
  · exact fun τ Cd w alloc H buf exporter he =>
      (deserialize_sameCall Cd w alloc H buf hinv.mem (PyProcess.mem_referenced he)).result
  · exact fun τ Cd w le alloc buf exporter he =>
      (fromBuffer_sameCall Cd w alloc le buf hinv.mem (PyProcess.mem_referenced he)).result
  · exact fun τ Cd w path utf8 c file hpath => hinv.load_result Cd w utf8 c file hpath

/-- A call of `__init__` on the dict `{"a": 100}`, with the object 0 for the key. -/
theorem methods_keep_references_one : ∃ s : PyProcess,
    Runs.Reachable PyStep PyProcess.Initial s ∧ s.calls.map Building.self = [0] ∧
    ∀ b ∈ s.calls, b.args.items = [0] ∧ 0 ∈ s.mem.refs.live ∧
      (initFinish constMapType smallEnv smallHeap b false s.mem).map Prod.fst = some (.ok ()) := by
  let d : PyDict := ⟨[(.str [0x61], .int 100)], by decide⟩
  let b : Building := ⟨0, HASH_XXH64, [([0x61], 100)], ⟨1, [0], some 0, some 1⟩⟩
  let s2 : PyProcess := ⟨⟨⟨0, []⟩, ⟨1, [0]⟩⟩, [some ⟨1, [], none, false⟩], [], [0]⟩
  let s3 : PyProcess := ⟨⟨⟨2, [1, 0]⟩, ⟨2, [0, 1, 0]⟩⟩, [some ⟨2, [], none, false⟩], [b], [0]⟩
  have h1 : PyStep ⟨⟨⟨0, []⟩, ⟨0, []⟩⟩, [], [], []⟩ .program ⟨⟨⟨0, []⟩, ⟨1, [0]⟩⟩, [], [], [0]⟩ :=
    .newRef
  have h2 : PyStep ⟨⟨⟨0, []⟩, ⟨1, [0]⟩⟩, [], [], [0]⟩ .method s2 := .new
  have hstart : initStart ⟨true, true, true⟩ (fun _ => 0) 0 (.dict d) none s2.mem =
      some (.ok b, s3.mem) := rfl
  have h3 : PyStep s2 .method s3 :=
    PyStep.initStart (i := 0) (o := ⟨1, [], none, false⟩) rfl
      (fun _ _ _ _ => List.mem_singleton.mpr rfl) hstart
  have hreach : Runs.Reachable PyStep PyProcess.Initial s3 :=
    ⟨_, ⟨rfl, rfl, rfl, rfl⟩, ((Runs.Steps.single h1).trans (.single h2)).trans (.single h3)⟩
  obtain ⟨m, hnew⟩ := exists_ok (x := newWithHash constmapLayout smallEnv smallHeap
    constmapLayout.zeroMap [([0x61], 100)] HASH_XXH64) (by decide +kernel)
  obtain ⟨hsafe, -, hfinish, -⟩ := methods_keep_references hreach
  refine ⟨_, hreach, rfl, ?_⟩
  intro b' hb'
  obtain rfl := List.mem_singleton.mp hb'
  refine ⟨rfl, (hsafe.running b hb').2 0 (List.mem_singleton.mpr rfl), ?_⟩
  rw [hfinish _ constMapType smallEnv smallHeap false b hb']
  exact congrArg (Option.map fun x => constMapType.initResult false x.1) hnew

/-- `save` uses its path when it is gone exactly if `fopen` fails and the reference that `PyOS_FSPath` has
returned is the last one to the path; in every other case it does what it does without its memory, in
every process. -/
theorem save_uses_freed_path {s : PyProcess} (hs : Runs.Reachable PyStep PyProcess.Initial s)
    (Cd : Codec τ) (w : Nat) {b : Nat} (hb : b ∈ s.outside) (utf8 : Bool) (c : SaveCalls)
    (self : PyMap τ) (file : Option Bytes) :
    (pySaveMem Cd w (some b) utf8 c self file s.mem).map Prod.fst =
      if utf8 = false then some none
      else if c.fopen = false ∧ s.mem.refs.live.count b = 1 then none
      else (pySave Cd w (c.withShared true) self file).map some :=
  (PyProcess.inv_of_reachable hs).save_result Cd w utf8 c self file hb

/-- `save` of a new string as the path, of which `fopen` fails. -/
theorem save_uses_freed_path_fresh : ∃ s : PyProcess,
    Runs.Reachable PyStep PyProcess.Initial s ∧ s.outside = [0] ∧
    (pySaveMem constmapCodec 64 (some 0) true ⟨false, false, true, fun _ => 0, 0, false, 0⟩
      (PyMap.alloc constmapLayout) none s.mem).map Prod.fst = none := by
  have hstep : PyStep ⟨⟨⟨0, []⟩, ⟨0, []⟩⟩, [], [], []⟩ .program
      ⟨⟨⟨0, []⟩, ⟨1, [0]⟩⟩, [], [], [0]⟩ := .newRef
  have hreach : Runs.Reachable PyStep PyProcess.Initial ⟨⟨⟨0, []⟩, ⟨1, [0]⟩⟩, [], [], [0]⟩ :=
    ⟨_, ⟨rfl, rfl, rfl, rfl⟩, .single hstep⟩
  exact ⟨_, hreach, rfl, save_uses_freed_path hreach constmapCodec 64 (List.mem_singleton.mpr rfl) true
    ⟨false, false, true, fun _ => 0, 0, false, 0⟩ (PyMap.alloc constmapLayout) none⟩

end FastConstMap
