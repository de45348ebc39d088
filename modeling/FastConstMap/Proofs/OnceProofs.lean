import FastConstMap.Proofs.BuiltMapProofs
import FastConstMap.Proofs.InstallProofs
import FastConstMap.Proofs.MapsProofs
import Mathlib.Data.List.Nodup

/-!
# Proofs: a Python object is initialized once

Among all calls of `__init__` and the constructors at most one installs a map. From then on the object
does not change, and every other call frees the map that it has built. The buffer of a view is released at
the end of the object.
-/

namespace FastConstMap

open Runs

variable {τ : Type}

/-! ## What a step changes -/

section Steps

variable {T : PyType τ} {s s' : World τ} {E : Env} {w : Nat} {le : Bool} {a : Actor} {c : Nat}

/-- A step of a call moves this call only, which has not returned. It leaves the object as it is, or the
object has no map and the call succeeds. -/
theorem Step.of_call (hstep : Step T E w le s (.init c) s') :
    s'.life = s.life ∧ (s.calls c = .idle → s.life = .live) ∧ (∀ r own, s.calls c ≠ .done r own) ∧
      (∃ x, s'.calls = Function.update s.calls c x) ∧
      (s'.obj = s.obj ∧ (∀ own, s'.calls c ≠ .done (.ok ()) own) ∨
        s.obj.initialized = false ∧ ∃ own, s'.calls c = .done (.ok ()) own) := by
  have hother : ∀ x, (∀ own, x ≠ .done (.ok ()) own) →
      ∀ own, Function.update s.calls c x c ≠ .done (.ok ()) own := by
    intro x hx own
    rw [Function.update_self]
    exact hx own
  cases hstep with
  | badArgs hlife hc =>
    exact ⟨rfl, fun _ => hlife, by simp [hc], ⟨_, rfl⟩, Or.inl ⟨rfl, hother _ (by simp)⟩⟩
  | convertError hlife hc _ =>
    exact ⟨rfl, fun _ => hlife, by simp [hc], ⟨_, rfl⟩, Or.inl ⟨rfl, hother _ (by simp)⟩⟩
  | convert hlife hc _ =>
    exact ⟨rfl, fun _ => hlife, by simp [hc], ⟨_, rfl⟩, Or.inl ⟨rfl, hother _ (by simp)⟩⟩
  | buildError hc _ _ =>
    exact ⟨rfl, by simp [hc], by simp [hc], ⟨_, rfl⟩, Or.inl ⟨rfl, hother _ (by simp)⟩⟩
  | build hc _ => exact ⟨rfl, by simp [hc], by simp [hc], ⟨_, rfl⟩, Or.inl ⟨rfl, hother _ (by simp)⟩⟩
  | install hc hinit =>
    exact ⟨rfl, by simp [hc], by simp [hc], ⟨_, rfl⟩, Or.inr ⟨hinit, _, Function.update_self ..⟩⟩
  | refuse hc _ => exact ⟨rfl, by simp [hc], by simp [hc], ⟨_, rfl⟩, Or.inl ⟨rfl, hother _ (by simp)⟩⟩
  | discard hc => exact ⟨rfl, by simp [hc], by simp [hc], ⟨_, rfl⟩, Or.inl ⟨rfl, hother _ (by simp)⟩⟩

/-- A step of the class methods or of the deallocation moves no call, and once the object is returned to
Python it can only be deallocated. -/
theorem Step.of_object (hstep : Step T E w le s .object s') :
    s'.calls = s.calls ∧ (s'.life = .dead ∨ s.life ≠ .live) ∧ s.life ≠ .dead := by
  cases hstep with
  | new hlife => exact ⟨rfl, Or.inr (by simp [hlife]), by simp [hlife]⟩
  | allocRead hlife => exact ⟨rfl, Or.inr (by simp [hlife]), by simp [hlife]⟩
  | readOk hlife _ => exact ⟨rfl, Or.inr (by simp [hlife]), by simp [hlife]⟩
  | readError hlife _ _ => exact ⟨rfl, Or.inl rfl, by simp [hlife]⟩
  | allocView hlife => exact ⟨rfl, Or.inr (by simp [hlife]), by simp [hlife]⟩
  | viewOk hlife _ => exact ⟨rfl, Or.inr (by simp [hlife]), by simp [hlife]⟩
  | viewError hlife _ _ => exact ⟨rfl, Or.inl rfl, by simp [hlife]⟩
  | keepView hlife => exact ⟨rfl, Or.inr (by simp [hlife]), by simp [hlife]⟩
  | dealloc hlife _ => exact ⟨rfl, Or.inl rfl, by simp [hlife]⟩

/-- A call that has returned stays as it is. -/
theorem Step.done {r : PyResult Unit} {own : Option Storage} (hc : s.calls c = .done r own)
    (hstep : Step T E w le s a s') : s'.calls c = .done r own := by
  cases a with
  | object => rw [hstep.of_object.1, hc]
  | init c' =>
    obtain ⟨-, -, hrun, ⟨x, hx⟩, -⟩ := hstep.of_call
    have hne : c ≠ c' := by
      rintro rfl
      exact hrun r own hc
    rw [hx, Function.update_of_ne hne, hc]

/-- An object with a map keeps it until the deallocation. -/
theorem Step.frozen (hlife : s.life = .live) (hinit : s.obj.initialized = true)
    (hstep : Step T E w le s a s') : s'.life = .dead ∨ s'.life = .live ∧ s'.obj = s.obj := by
  cases a with
  | object => exact hstep.of_object.2.1.imp_right fun hl => absurd hlife hl
  | init c =>
    obtain ⟨hl, -, -, -, ⟨hobj, -⟩ | ⟨hempty, -⟩⟩ := hstep.of_call
    · exact Or.inr ⟨hl.trans hlife, hobj⟩
    · exact absurd (hinit.symm.trans hempty) (by simp)

/-- A dead object stays dead. -/
theorem Step.dead (hlife : s.life = .dead) (hstep : Step T E w le s a s') : s'.life = .dead := by
  cases a with
  | object => exact absurd hlife hstep.of_object.2.2
  | init c => exact hstep.of_call.1.trans hlife

/-- What a step frees is the map of a call that was refused, or the object's map at its deallocation. -/
theorem Step.freed (h : s.Inv T) (hstep : Step T E w le s a s') {st : Storage}
    (hst : st ∈ s'.mem.freed) : st ∈ s.mem.freed ∨
      (∃ c, a = .init c ∧ s.calls c = .refused st ∧ s'.calls c = .lost T st) ∨
      (a = .object ∧ s.life = .live ∧ s'.life = .dead ∧ st = s.obj.storage) := by
  cases hstep with
  | new _ => exact Or.inl hst
  | allocRead _ => exact Or.inl hst
  | allocView _ => exact Or.inl hst
  | readOk _ _ => exact Or.inl (malloc_freed .. ▸ hst)
  | readError hlife _ _ =>
    obtain ⟨halloc, -⟩ := h.stage hlife
    rcases mem_dealloc_cases hst with hold | ⟨-, hnull⟩
    · exact Or.inl hold
    · exact absurd (congrArg PyStruct.storage halloc) hnull
  | viewOk _ _ => exact Or.inl hst
  | viewError hlife _ _ =>
    obtain ⟨halloc, -⟩ := h.stage hlife
    rcases mem_dealloc_cases hst with hold | ⟨-, hnull⟩
    · exact Or.inl hold
    · exact absurd (congrArg PyStruct.storage halloc) hnull
  | keepView _ => exact Or.inl hst
  | dealloc hlife _ =>
    rcases mem_dealloc_cases hst with hold | ⟨heq, -⟩
    · exact Or.inl hold
    · exact Or.inr (Or.inr ⟨rfl, hlife, rfl, heq⟩)
  | badArgs _ _ => exact Or.inl hst
  | convertError _ _ _ => exact Or.inl hst
  | convert _ _ _ => exact Or.inl hst
  | buildError _ _ _ => exact Or.inl hst
  | build _ _ => exact Or.inl (malloc_freed .. ▸ hst)
  | install _ _ => exact Or.inl hst
  | refuse _ _ => exact Or.inl hst
  | discard hc =>
    rcases mem_free_cases hst with hold | ⟨rfl, -⟩
    · exact Or.inl hold
    · exact Or.inr (Or.inl ⟨_, rfl, hc, Function.update_self ..⟩)

/-- A call that has built its map is refused if the object has one. -/
theorem Step.of_built {m : MapOf τ} {st : Storage} (hc : s.calls c = .built m st)
    (hinit : s.obj.initialized = true) (hstep : Step T E w le s (.init c) s') :
    s'.calls c = .refused st := by
  cases hstep with
  | install _ hempty => exact absurd (hinit.symm.trans hempty) (by simp)
  | refuse hc' _ =>
    obtain ⟨-, rfl⟩ := InitCall.built.inj (hc.symm.trans hc')
    exact Function.update_self ..
  | badArgs _ hc' => cases hc.symm.trans hc'
  | convertError _ hc' _ => cases hc.symm.trans hc'
  | convert _ hc' _ => cases hc.symm.trans hc'
  | buildError hc' _ _ => cases hc.symm.trans hc'
  | build hc' _ => cases hc.symm.trans hc'
  | discard hc' => cases hc.symm.trans hc'

/-- A call that was refused loses its map. -/
theorem Step.of_refused {st : Storage} (hc : s.calls c = .refused st)
    (hstep : Step T E w le s (.init c) s') : s'.calls c = .lost T st := by
  cases hstep with
  | discard hc' =>
    obtain rfl := InitCall.refused.inj (hc.symm.trans hc')
    exact Function.update_self ..
  | badArgs _ hc' => cases hc.symm.trans hc'
  | convertError _ hc' _ => cases hc.symm.trans hc'
  | convert _ hc' _ => cases hc.symm.trans hc'
  | buildError hc' _ _ => cases hc.symm.trans hc'
  | build hc' _ => cases hc.symm.trans hc'
  | install hc' _ => cases hc.symm.trans hc'
  | refuse hc' _ => cases hc.symm.trans hc'

/-- The calls take steps only while the object is alive. -/
theorem World.Inv.live (h : s.Inv T) (hstep : Step T E w le s (.init c) s') : s.life = .live := by
  obtain ⟨-, hidle, hrun, -, -⟩ := hstep.of_call
  cases hc : s.calls c with
  | idle => exact hidle hc
  | building hash entries => exact h.call hc
  | built m st => exact (h.call hc).1
  | refused st => exact (h.call hc).1
  | done r own => exact absurd hc (hrun r own)

/-- Nothing happens to a dead object. -/
theorem World.Inv.not_dead (h : s.Inv T) (hstep : Step T E w le s a s') : s.life ≠ .dead := by
  cases a with
  | object => exact hstep.of_object.2.2
  | init c =>
    rw [h.live hstep]
    decide

theorem World.Inv.installs_le_one (h : s.Inv T) : s.installs ≤ 1 := by
  cases hlife : s.life with
  | unborn => exact (h.stage hlife).le.trans (Nat.zero_le 1)
  | reading => exact (h.stage hlife).2.le.trans (Nat.zero_le 1)
  | viewing exporter => exact (h.stage hlife).2.le.trans (Nat.zero_le 1)
  | viewed exporter => exact (h.stage hlife).2.2.le.trans (Nat.zero_le 1)
  | live =>
    rcases h.stage hlife with ⟨-, hn⟩ | ⟨-, hn⟩
    · exact hn.le.trans (Nat.zero_le 1)
    · exact hn.le
  | dead => exact h.stage hlife

/-- The buffer that the object has, or that `from_buffer` has for it. -/
def World.buffer (s : World τ) : Option Nat :=
  match s.life with
  | .viewing exporter => some exporter
  | .viewed exporter => some exporter
  | .live => s.obj.view
  | _ => none

/-- The object was allocated, and is not gone. -/
def World.Exists (s : World τ) : Prop := s.life ≠ .unborn ∧ s.life ≠ .dead

/-- What the deallocation releases is the `view` of the object. -/
theorem dealloc_released (Ly : Layout τ) (s : World τ) :
    (s.dealloc Ly).mem.released = s.obj.view.toList ++ s.mem.released := by
  show (s.obj.release Ly s.mem).2.released = _
  cases hview : s.obj.view with
  | none => rw [release_owned _ hview, free_released, Option.toList_none, List.nil_append]
  | some exporter =>
    rw [release_view _ hview]
    rfl

/-- An object keeps its buffer, and its end releases it. -/
theorem Step.buffer (h : s.Inv T) (hexists : s.Exists) (hstep : Step T E w le s a s') :
    s'.life = .dead ∧ s'.mem.released = s.buffer.toList ∨ s'.Exists ∧ s'.buffer = s.buffer := by
  have hnone : s.mem.released = [] := h.released.resolve_right fun hr => hexists.2 hr.1
  cases hstep with
  | new hlife => exact absurd hlife hexists.1
  | allocRead hlife => exact absurd hlife hexists.1
  | allocView hlife => exact absurd hlife hexists.1
  | readOk hlife _ =>
    obtain ⟨halloc, -⟩ := h.stage hlife
    refine Or.inr ⟨⟨by simp, by simp⟩, ?_⟩
    show s.obj.view = s.buffer
    rw [halloc, World.buffer, hlife]
    rfl
  | readError hlife _ _ =>
    obtain ⟨halloc, -⟩ := h.stage hlife
    refine Or.inl ⟨rfl, (dealloc_released ..).trans ?_⟩
    show s.obj.view.toList ++ s.mem.released = s.buffer.toList
    rw [hnone, halloc, World.buffer, hlife]
    rfl
  | viewOk hlife _ =>
    refine Or.inr ⟨⟨by simp, by simp⟩, ?_⟩
    rw [World.buffer, World.buffer, hlife]
  | @viewError exporter _ _ _ _ hlife _ _ =>
    obtain ⟨halloc, -⟩ := h.stage hlife
    refine Or.inl ⟨rfl, (dealloc_released ..).trans ?_⟩
    show s.obj.view.toList ++ exporter :: s.mem.released = s.buffer.toList
    rw [hnone, halloc, World.buffer, hlife]
    rfl
  | keepView hlife =>
    refine Or.inr ⟨⟨by simp, by simp⟩, ?_⟩
    rw [World.buffer, World.buffer, hlife]
  | dealloc hlife _ =>
    refine Or.inl ⟨rfl, (dealloc_released ..).trans ?_⟩
    rw [hnone, World.buffer, hlife, List.append_nil]
  | badArgs _ _ => exact Or.inr ⟨hexists, rfl⟩
  | convertError _ _ _ => exact Or.inr ⟨hexists, rfl⟩
  | convert _ _ _ => exact Or.inr ⟨hexists, rfl⟩
  | buildError _ _ _ => exact Or.inr ⟨hexists, rfl⟩
  | build _ _ => exact Or.inr ⟨hexists, rfl⟩
  | install _ _ => exact Or.inr ⟨hexists, rfl⟩
  | refuse _ _ => exact Or.inr ⟨hexists, rfl⟩
  | discard _ => exact Or.inr ⟨hexists, rfl⟩

/-! ## Runs of an object with a map -/

/-- The object has a map, or it is gone. -/
def World.Occupied (s : World τ) : Prop :=
  s.life = .dead ∨ s.life = .live ∧ s.obj.initialized = true

theorem Step.occupied (h : s.Occupied) (hstep : Step T E w le s a s') : s'.Occupied := by
  rcases h with hdead | ⟨hlife, hinit⟩
  · exact Or.inl (hstep.dead hdead)
  · refine (hstep.frozen hlife hinit).imp_right ?_
    rintro ⟨hlife', hobj⟩
    exact ⟨hlife', by rw [hobj, hinit]⟩

/-- The object stays what it is until the deallocation. -/
theorem run_frozen (hlife : s.life = .live) (hinit : s.obj.initialized = true)
    (hrun : Steps (Step T E w le) s s') : s'.life = .dead ∨ s'.life = .live ∧ s'.obj = s.obj := by
  refine hrun.invariant (fun s₁ => s₁.life = .dead ∨ s₁.life = .live ∧ s₁.obj = s.obj) ?_
    (Or.inr ⟨hlife, rfl⟩)
  rintro s₁ a s₂ (hdead | ⟨hlife, hobj⟩) hstep
  · exact Or.inl (hstep.dead hdead)
  · have hnext := hstep.frozen hlife (by rw [hobj, hinit])
    rwa [hobj] at hnext

theorem run_done {r : PyResult Unit} {own : Option Storage} (hc : s.calls c = .done r own)
    (hrun : Steps (Step T E w le) s s') : s'.calls c = .done r own :=
  hrun.invariant (fun s => s.calls c = .done r own) (fun _ _ _ hc hstep => hstep.done hc) hc

/-- No call that is still to return succeeds. -/
theorem run_not_ok (hs : Reachable (Step T E w le) World.Initial s) (h : s.Occupied)
    (hc : ∀ own, s.calls c ≠ .done (.ok ()) own) (hrun : Steps (Step T E w le) s s') :
    ∀ own, s'.calls c ≠ .done (.ok ()) own := by
  refine (hs.along (fun s => s.Occupied ∧ ∀ own, s.calls c ≠ .done (.ok ()) own)
    (fun _ => reachable_inv) ?_ hrun ⟨h, hc⟩).2
  rintro s a s' hinv ⟨h, hc⟩ hstep
  refine ⟨hstep.occupied h, ?_⟩
  cases a with
  | object =>
    rw [hstep.of_object.1]
    exact hc
  | init c' =>
    obtain ⟨-, -, -, ⟨x, hx⟩, hcase⟩ := hstep.of_call
    by_cases hcc : c = c'
    · subst hcc
      rcases hcase with ⟨-, hnot⟩ | ⟨hempty, -⟩
      · exact hnot
      · rcases h with hdead | ⟨-, hinit⟩
        · exact absurd ((hinv.live hstep).symm.trans hdead) (by decide)
        · exact absurd (hinit.symm.trans hempty) (by simp)
    · rw [hx, Function.update_of_ne hcc]
      exact hc

/-- A call that has built its map loses it. -/
theorem run_loses (hs : Reachable (Step T E w le) World.Initial s) (h : s.Occupied) {m : MapOf τ}
    {st : Storage} (hc : s.calls c = .built m st) (hrun : Steps (Step T E w le) s s') :
    s'.calls c = .built m st ∨ s'.calls c = .refused st ∨ s'.calls c = .lost T st := by
  refine (hs.along (fun s => s.Occupied ∧
      (s.calls c = .built m st ∨ s.calls c = .refused st ∨ s.calls c = .lost T st))
    (fun _ => reachable_inv) ?_ hrun ⟨h, Or.inl hc⟩).2
  rintro s a s' hinv ⟨h, hc⟩ hstep
  refine ⟨hstep.occupied h, ?_⟩
  cases a with
  | object =>
    rw [hstep.of_object.1]
    exact hc
  | init c' =>
    obtain ⟨-, -, hnot, ⟨x, hx⟩, -⟩ := hstep.of_call
    by_cases hcc : c = c'
    · subst hcc
      have hlive := hinv.live hstep
      rcases h with hdead | ⟨-, hinit⟩
      · exact absurd (hlive.symm.trans hdead) (by decide)
      · rcases hc with hc | hc | hc
        · exact Or.inr (Or.inl (hstep.of_built hc hinit))
        · exact Or.inr (Or.inr (hstep.of_refused hc))
        · exact absurd hc (hnot _ _)
    · rw [hx, Function.update_of_ne hcc]
      exact hc

/-- A buffer is released at the end of its object, and not before. -/
theorem run_released (hs : Reachable (Step T E w le) World.Initial s) (hexists : s.Exists)
    (hrun : Steps (Step T E w le) s s') :
    s'.mem.released = if s'.life = .dead then s.buffer.toList else [] := by
  have hend : s'.life = .dead ∧ s'.mem.released = s.buffer.toList ∨
      s'.Exists ∧ s'.buffer = s.buffer := by
    refine hs.along (fun s₁ => s₁.life = .dead ∧ s₁.mem.released = s.buffer.toList ∨
      s₁.Exists ∧ s₁.buffer = s.buffer) (fun _ => reachable_inv) ?_ hrun (Or.inr ⟨hexists, rfl⟩)
    rintro s₁ a s₂ hinv (⟨hdead, hreleased⟩ | ⟨hexists, hbuffer⟩) hstep
    · exact absurd hdead (hinv.not_dead hstep)
    · rw [← hbuffer]
      exact hstep.buffer hinv hexists
  rcases hend with ⟨hdead, hreleased⟩ | ⟨hexists, -⟩
  · rw [if_pos hdead, hreleased]
  · rw [if_neg hexists.2]
    exact (reachable_inv (hs.steps hrun)).released.resolve_right fun hr => hexists.2 hr.1

/-! ## A call without others -/

/-- What the methods read of an object. -/
def PyStruct.pyMap (o : PyStruct τ) : PyMap τ := { map := o.map, initialized := o.initialized }

/-- Arguments that convert are a dict and the name of a hash. -/
theorem convertArgs_ok {alloc : Bool} {mapping : PyArg} {hashName : Option String} {hash : UInt32}
    {entries : List (Bytes × UInt64)} (h : convertArgs alloc mapping hashName = .ok (hash, entries)) :
    parseHash hashName = .ok hash ∧ dictToArrays alloc mapping = .ok entries ∧
      ∃ d, mapping = .dict d := by
  unfold convertArgs at h
  cases hhash : parseHash hashName with
  | error e =>
    rw [hhash] at h
    cases h
  | ok hash' =>
    rw [hhash] at h
    cases hentries : dictToArrays alloc mapping with
    | error e =>
      rw [hentries] at h
      cases h
    | ok entries' =>
      rw [hentries] at h
      cases h
      cases mapping with
      | dict d => exact ⟨rfl, rfl, d, rfl⟩
      | obj o => cases hentries

theorem pyInit_convertError {Ly : Layout τ} {name : String} {H : Heap} {alloc : Bool} {o : PyMap τ}
    {mapping : PyArg} {hashName : Option String} {e : PyErr}
    (h : convertArgs alloc mapping hashName = .error e) :
    pyInit Ly name E H alloc o mapping hashName = some (.error e, o) := by
  unfold convertArgs at h
  unfold pyInit
  cases hhash : parseHash hashName with
  | error e' =>
    rw [hhash] at h
    cases h
    rfl
  | ok hash =>
    rw [hhash] at h
    cases hentries : dictToArrays alloc mapping with
    | error e' =>
      rw [hentries] at h
      cases h
      rfl
    | ok entries =>
      rw [hentries] at h
      cases h

theorem pyInit_convert {Ly : Layout τ} {name : String} {H : Heap} {alloc : Bool} {o : PyMap τ}
    {mapping : PyArg} {hashName : Option String} {hash : UInt32} {entries : List (Bytes × UInt64)}
    (h : convertArgs alloc mapping hashName = .ok (hash, entries)) :
    pyInit Ly name E H alloc o mapping hashName =
      (newWithHash Ly E H Ly.zeroMap entries hash).map fun out =>
        if out.1 ≠ .ok then (.error (setPythonError out.1), o)
        else if o.initialized = false then (.ok (), { map := out.2, initialized := true })
        else (.error (alreadyInitialized name), o) := by
  unfold convertArgs at h
  unfold pyInit
  cases hhash : parseHash hashName with
  | error e' =>
    rw [hhash] at h
    cases h
  | ok hash' =>
    rw [hhash] at h
    cases hentries : dictToArrays alloc mapping with
    | error e' =>
      rw [hentries] at h
      cases h
    | ok entries' =>
      rw [hentries] at h
      cases h
      show (newWithHash Ly E H Ly.zeroMap entries hash).bind _ = _
      cases newWithHash Ly E H Ly.zeroMap entries hash with
      | none => rfl
      | some out =>
        simp only [Option.bind_some, Option.map_some]
        split_ifs <;> rfl

/-- A call whose map is refused can free it and return. -/
theorem run_to_lost {m : MapOf τ} {st : Storage} (hc : s.calls c = .built m st)
    (hinit : s.obj.initialized = true) :
    ∃ s', Steps (Step T E w le) s s' ∧ s'.calls c = .lost T st ∧ s'.obj = s.obj := by
  have hrefused : (s.setCall c (.refused st)).calls c = .refused st := Function.update_self ..
  exact ⟨_, (Steps.single (.refuse hc hinit)).trans (.single (.discard hrefused)),
    Function.update_self .., rfl⟩

/-- A call whose map is built runs to its end. -/
theorem run_built {m : MapOf τ} {st : Storage} {r : PyResult Unit} {o : PyMap τ}
    (hc : s.calls c = .built m st)
    (hr : (if s.obj.initialized = false then (.ok (), { map := m, initialized := true })
      else (.error (alreadyInitialized T.name), s.obj.pyMap)) = (r, o)) :
    ∃ s' own, Steps (Step T E w le) s s' ∧ s'.calls c = .done r own ∧ s'.obj.pyMap = o := by
  cases hinit : s.obj.initialized with
  | false =>
    rw [if_pos hinit] at hr
    cases hr
    exact ⟨_, some st, .single (.install hc hinit), Function.update_self .., rfl⟩
  | true =>
    rw [if_neg (by simp [hinit])] at hr
    cases hr
    obtain ⟨s', hrun, hlost, hobj⟩ := run_to_lost hc hinit
    exact ⟨s', some st, hrun, hlost, by rw [hobj]⟩

/-- A call that no other one interrupts returns what `__init__` returns, and leaves the same object. -/
theorem run_alone {H : Heap} {alloc : Bool} {mapping : PyArg} {hashName : Option String}
    {r : PyResult Unit} {o : PyMap τ} (hlife : s.life = .live) (hc : s.calls c = .idle)
    (hinit : pyInit T.codec.layout T.name E H alloc s.obj.pyMap mapping hashName = some (r, o)) :
    ∃ s' own, Steps (Step T E w le) s s' ∧ s'.calls c = .done r own ∧ s'.obj.pyMap = o := by
  cases hconv : convertArgs alloc mapping hashName with
  | error e =>
    rw [pyInit_convertError hconv] at hinit
    cases hinit
    exact ⟨_, none, .single (.convertError hlife hc hconv), Function.update_self .., rfl⟩
  | ok args =>
    obtain ⟨hash, entries⟩ := args
    rw [pyInit_convert hconv, Option.map_eq_some_iff] at hinit
    obtain ⟨⟨rc, m⟩, hnew, hr⟩ := hinit
    have hstart : Steps (Step T E w le) s (s.setCall c (.building hash entries)) :=
      .single (.convert hlife hc hconv)
    have hbuilding : (s.setCall c (.building hash entries)).calls c = .building hash entries :=
      Function.update_self ..
    by_cases hrc : rc = .ok
    · subst hrc
      obtain ⟨s₁, st, hbuild, hbuilt, hobj⟩ : ∃ s₁ st,
          Step T E w le (s.setCall c (.building hash entries)) (.init c) s₁ ∧
            s₁.calls c = .built m st ∧ s₁.obj = s.obj :=
        ⟨_, _, .build hbuilding hnew, Function.update_self .., rfl⟩
      obtain ⟨s', own, hrun, hend⟩ : ∃ s' own,
          Steps (Step T E w le) s₁ s' ∧ s'.calls c = .done r own ∧ s'.obj.pyMap = o :=
        run_built hbuilt (by rw [hobj]; exact hr)
      exact ⟨s', own, (hstart.trans (.single hbuild)).trans hrun, hend⟩
    · rw [if_pos hrc] at hr
      cases hr
      exact ⟨_, none, hstart.trans (.single (.buildError hbuilding hnew hrc)),
        Function.update_self .., rfl⟩

end Steps

/-! ## One installation -/

/-- What holds of an object of the type over every run of the constructors, of any number of calls of
`__init__` and of the deallocation. -/
structure InstalledOnce (T : PyType τ) (E : Env) (w : Nat) (le : Bool) : Prop where
  /-- At most one map is installed, and at most one call succeeds. -/
  once : ∀ s, Reachable (Step T E w le) World.Initial s → s.installs ≤ 1 ∧
    ∀ c c' own own', s.calls c = .done (.ok ()) own → s.calls c' = .done (.ok ()) own' → c = c'
  /-- An initialized object does not change until the deallocation. -/
  frozen : ∀ s s', Reachable (Step T E w le) World.Initial s → s.life = .live →
    s.obj.initialized = true → Steps (Step T E w le) s s' → s'.life ≠ .dead → s'.obj = s.obj
  /-- A call that returns after that has failed, and if it has built a map it has freed it and raises the
  `TypeError`. -/
  later : ∀ s s' c r own, Reachable (Step T E w le) World.Initial s → s.life = .live →
    s.obj.initialized = true → (∀ r own, s.calls c ≠ .done r own) → Steps (Step T E w le) s s' →
    s'.calls c = .done r own → (∃ e, r = .error e) ∧
      ∀ st, own = some st → r = .error (alreadyInitialized T.name) ∧ s'.mem.Discarded st
  /-- A call whose map is built then can return, and only so. -/
  refused : ∀ s c m st, Reachable (Step T E w le) World.Initial s → s.obj.initialized = true →
    s.calls c = .built m st →
    (∃ s', Steps (Step T E w le) s s' ∧ s'.calls c = .lost T st) ∧
      ∀ s', Steps (Step T E w le) s s' → s'.calls c = .built m st ∨ s'.calls c = .refused st ∨
        s'.calls c = .lost T st ∧ s'.mem.Discarded st
  /-- No step of a call that fails in the end changes the object. -/
  failed : ∀ s s' s'' c e own, Reachable (Step T E w le) World.Initial s →
    Step T E w le s (.init c) s' → Steps (Step T E w le) s' s'' →
    s''.calls c = .done (.error e) own → s'.obj = s.obj
  /-- Memory is freed at most once, and until then the object or one call has it. -/
  owner : ∀ s, Reachable (Step T E w le) World.Initial s → s.mem.freed.Nodup ∧
    (∀ id, id < s.mem.built → .heap id ∈ s.mem.freed ∨ ∃ k, s.holds k = some id) ∧
    ∀ k k' id, s.holds k = some id → s.holds k' = some id → k = k' ∧ .heap id ∉ s.mem.freed
  /-- A call that was refused frees its own map, and the deallocation the map of the object. -/
  freed : ∀ s a s' st, Reachable (Step T E w le) World.Initial s → Step T E w le s a s' →
    st ∈ s'.mem.freed → st ∈ s.mem.freed ∨
      (∃ c, a = .init c ∧ s.calls c = .refused st ∧ s'.calls c = .lost T st) ∨
      (a = .object ∧ s.life = .live ∧ s'.life = .dead ∧ st = s.obj.storage)
  /-- In the end all memory was freed exactly once. -/
  final : ∀ s, Reachable (Step T E w le) World.Initial s → s.life = .dead →
    ∀ id, id < s.mem.built → s.mem.freed.count (.heap id) = 1
  /-- No borrowed memory is freed. -/
  borrowed : ∀ s, Reachable (Step T E w le) World.Initial s →
    ∀ exporter, .buffer exporter ∉ s.mem.freed
  /-- The buffer of a view is released once, at the end of the object, and no other one. -/
  released : ∀ s s', Reachable (Step T E w le) World.Initial s → s.Exists →
    Steps (Step T E w le) s s' →
    s'.mem.released = if s'.life = .dead then s.buffer.toList else []

section InstalledOnce

variable {T : PyType τ} {E : Env} {w : Nat} {le : Bool} {s : World τ}

theorem World.Accounted.nodup (h : s.Accounted) : s.mem.freed.Nodup := by
  obtain ⟨ids, hids, hacc⟩ := h
  rw [hids]
  exact hacc.nodup.map fun _ _ => Storage.heap.inj

theorem World.Accounted.not_buffer (h : s.Accounted) (exporter : Nat) :
    .buffer exporter ∉ s.mem.freed := by
  obtain ⟨ids, hids, -⟩ := h
  rw [hids]
  simp

theorem mem_freed_iff {ids : List Nat}
    (hids : s.mem.freed = ids.map Storage.heap) {id : Nat} : .heap id ∈ s.mem.freed ↔ id ∈ ids := by
  rw [hids]
  simp

/-- Nobody holds anything of a dead object. -/
theorem World.Inv.holds_dead (h : s.Inv T) (hdead : s.life = .dead) (k : Option Nat) :
    s.holds k = none := by
  cases k with
  | none => exact objectHolds_eq_none (by simp [hdead])
  | some c =>
    show (s.calls c).held.id = none
    have hrest := (h.calls c).resting hdead
    cases hc : s.calls c with
    | idle => rfl
    | building hash entries => rfl
    | built m st =>
      rw [hc] at hrest
      exact hrest.elim
    | refused st =>
      rw [hc] at hrest
      exact hrest.elim
    | done r own => rfl

theorem World.Inv.owner (h : s.Inv T) :
    (∀ id, id < s.mem.built → .heap id ∈ s.mem.freed ∨ ∃ k, s.holds k = some id) ∧
      ∀ k k' id, s.holds k = some id → s.holds k' = some id → k = k' ∧ .heap id ∉ s.mem.freed := by
  obtain ⟨ids, hids, hacc⟩ := h.memory
  refine ⟨?_, ?_⟩
  · intro id hid
    rw [mem_freed_iff hids]
    exact hacc.covered id hid
  · intro k k' id hk hk'
    rw [mem_freed_iff hids]
    exact ⟨hacc.unique k k' id hk hk', hacc.not_freed k id hk⟩

theorem World.Inv.final (h : s.Inv T) (hdead : s.life = .dead) {id : Nat} (hid : id < s.mem.built) :
    s.mem.freed.count (.heap id) = 1 := by
  rcases h.owner.1 id hid with hfreed | ⟨k, hk⟩
  · exact List.count_eq_one_of_mem h.memory.nodup hfreed
  · rw [h.holds_dead hdead k] at hk
    cases hk

theorem installedOnce (T : PyType τ) (E : Env) (w : Nat) (le : Bool) : InstalledOnce T E w le := by
  constructor
  case once =>
    intro s hs
    exact ⟨(reachable_inv hs).installs_le_one, (reachable_inv hs).winner⟩
  case frozen =>
    intro s s' _ hlife hinit hrun hdead
    exact ((run_frozen hlife hinit hrun).resolve_left hdead).2
  case later =>
    intro s s' c r own hs hlife hinit hc hrun hr
    have hnot := run_not_ok hs (Or.inr ⟨hlife, hinit⟩) (fun own => hc (.ok ()) own) hrun
    cases r with
    | ok _ => exact absurd hr (hnot own)
    | error e =>
      refine ⟨⟨e, rfl⟩, ?_⟩
      rintro st rfl
      obtain ⟨-, rfl, hdiscarded⟩ := (reachable_inv (hs.steps hrun)).call hr
      exact ⟨rfl, hdiscarded⟩
  case refused =>
    intro s c m st hs hinit hc
    have hlive := ((reachable_inv hs).call hc).1
    obtain ⟨s₁, hlost, hc₁, -⟩ := run_to_lost hc hinit
    refine ⟨⟨s₁, hlost, hc₁⟩, fun s' hrun => ?_⟩
    rcases run_loses hs (Or.inr ⟨hlive, hinit⟩) hc hrun with hb | hr | hl
    · exact Or.inl hb
    · exact Or.inr (Or.inl hr)
    · exact Or.inr (Or.inr ⟨hl, ((reachable_inv (hs.steps hrun)).call hl).2.2⟩)
  case failed =>
    intro s s' s'' c e own _ hstep hrun hc
    obtain ⟨-, -, -, -, ⟨hobj, -⟩ | ⟨-, own', hok⟩⟩ := hstep.of_call
    · exact hobj
    · cases (run_done hok hrun).symm.trans hc
  case owner =>
    intro s hs
    exact ⟨(reachable_inv hs).memory.nodup, (reachable_inv hs).owner⟩
  case freed => exact fun s a s' st hs hstep hst => hstep.freed (reachable_inv hs) hst
  case final => exact fun s hs hdead id hid => (reachable_inv hs).final hdead hid
  case borrowed => exact fun s hs exporter => (reachable_inv hs).memory.not_buffer exporter
  case released => exact fun s s' hs hexists hrun => run_released hs hexists hrun

/-- A Python map is installed once. -/
theorem python_map_installed_once (E : Env) (w : Nat) (le : Bool) :
    InstalledOnce constMapType E w le ∧ InstalledOnce verifiedConstMapType E w le ∧
      InstalledOnce pairedVerifiedConstMapType E w le :=
  ⟨installedOnce constMapType E w le, installedOnce verifiedConstMapType E w le,
    installedOnce pairedVerifiedConstMapType E w le⟩

/-- Two calls of `__init__` build a map; one installs its own, the other is refused and frees its own, and
the deallocation frees the other map. -/
theorem python_map_installed_once_race : ∃ s s' : World (List UInt64),
    Reachable (Step constMapType smallEnv 64 true) World.Initial s ∧
    s.calls 0 = .done (.ok ()) (some (.heap 0)) ∧ s.calls 1 = .lost constMapType (.heap 1) ∧
    Steps (Step constMapType smallEnv 64 true) s s' ∧ s'.life = .dead ∧ s.installs = 1 ∧
    s'.mem.freed.count (.heap 0) = 1 ∧ s'.mem.freed.count (.heap 1) = 1 ∧ s'.mem.released = [] := by
  let entries : List (Bytes × UInt64) := [([0x61], 100)]
  have hconvert : convertArgs true (.dict ⟨[(.str [0x61], .int 100)], by decide⟩) none =
      .ok (HASH_XXH64, entries) := rfl
  obtain ⟨m, hnew⟩ := exists_ok (x := newWithHash constmapLayout smallEnv smallHeap
    constmapLayout.zeroMap entries HASH_XXH64) (by decide +kernel)
  let s0 : World (List UInt64) := ⟨.unborn, .alloc constmapLayout, fun _ => .idle, ⟨0, [], []⟩, 0⟩
  let s1 : World (List UInt64) := { s0 with life := .live }
  let s2 := s1.setCall 0 (.building HASH_XXH64 entries)
  let s3 := s2.setCall 1 (.building HASH_XXH64 entries)
  let s4 : World (List UInt64) := { s3 with
    calls := Function.update s3.calls 0 (.built m (s3.mem.malloc entries.length).1)
    mem := (s3.mem.malloc entries.length).2 }
  let s5 : World (List UInt64) := { s4 with
    calls := Function.update s4.calls 1 (.built m (s4.mem.malloc entries.length).1)
    mem := (s4.mem.malloc entries.length).2 }
  let s6 : World (List UInt64) := { s5 with
    obj := { s5.obj with map := m, storage := .heap 0, initialized := true }
    calls := Function.update s5.calls 0 (.done (.ok ()) (some (.heap 0)))
    installs := 1 }
  let s7 := s6.setCall 1 (.refused (.heap 1))
  let s8 : World (List UInt64) := { s7 with
    calls := Function.update s7.calls 1 (.lost constMapType (.heap 1)), mem := ⟨2, [.heap 1], []⟩ }
  have hbuilds : Steps (Step constMapType smallEnv 64 true) s0 s5 := by
    have h1 : Step constMapType smallEnv 64 true s0 .object s1 := .new rfl
    have h2 : Step constMapType smallEnv 64 true s1 (.init 0) s2 := .convert rfl rfl hconvert
    have h3 : Step constMapType smallEnv 64 true s2 (.init 1) s3 := .convert rfl rfl hconvert
    have h4 : Step constMapType smallEnv 64 true s3 (.init 0) s4 := .build rfl hnew
    have h5 : Step constMapType smallEnv 64 true s4 (.init 1) s5 := .build rfl hnew
    exact ((((Steps.single h1).trans (.single h2)).trans (.single h3)).trans (.single h4)).trans
      (.single h5)
  have hrace : Steps (Step constMapType smallEnv 64 true) s5 s8 := by
    have h6 : Step constMapType smallEnv 64 true s5 (.init 0) s6 := .install rfl rfl
    have h7 : Step constMapType smallEnv 64 true s6 (.init 1) s7 := .refuse rfl rfl
    have h8 : Step constMapType smallEnv 64 true s7 (.init 1) s8 := .discard rfl
    exact ((Steps.single h6).trans (.single h7)).trans (.single h8)
  have hrest : ∀ c, (s8.calls c).Resting := by
    intro c
    rcases c with _ | _ | c
    · trivial
    · trivial
    · trivial
  have hend : Steps (Step constMapType smallEnv 64 true) s8 (s8.dealloc constmapLayout) :=
    .single (.dealloc rfl hrest)
  have hs : Reachable (Step constMapType smallEnv 64 true) World.Initial s8 :=
    ⟨s0, ⟨rfl, fun _ => rfl, rfl, rfl⟩, hbuilds.trans hrace⟩
  have honce := (python_map_installed_once smallEnv 64 true).1
  have hfinal := honce.final _ (hs.steps hend) rfl
  have hexists : s8.Exists := ⟨show Life.live ≠ .unborn by decide, show Life.live ≠ .dead by decide⟩
  exact ⟨s8, _, hs, rfl, rfl, hend, rfl, rfl, hfinal 0 Nat.two_pos, hfinal 1 Nat.one_lt_two,
    honce.released s8 _ hs hexists hend⟩

end InstalledOnce

end FastConstMap
