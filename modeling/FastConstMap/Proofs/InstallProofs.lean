import FastConstMap.Proofs.OwnerProofs

/-!
# Proofs: the invariant of a Python object

The check of `initialized` and the installation are one step, so a call that has built its map either
finds an object as `tp_alloc` left it, or one that has a map. The calls only rely on what the steps of the
other calls keep.
-/

namespace FastConstMap

open Runs

variable {τ : Type}

/-! ## The invariant -/

/-- An object with a map: one of its own, or one in a buffer that it keeps. -/
def PyStruct.Filled (o : PyStruct τ) : Prop :=
  o.initialized = true ∧
    (o.view = none ∧ o.storage.Owned ∨ ∃ exporter, o.view = some exporter ∧ o.storage = .buffer exporter)

/-- The object at each stage of its life, and how many maps it has got. -/
def Life.ObjectOk (Ly : Layout τ) (o : PyStruct τ) (installs : Nat) : Life → Prop
  | .unborn => installs = 0
  | .reading => o = .alloc Ly ∧ installs = 0
  | .viewing _ => o = .alloc Ly ∧ installs = 0
  | .viewed exporter => o.storage = .buffer exporter ∧ o.view = none ∧ installs = 0
  | .live => o = .alloc Ly ∧ installs = 0 ∨ o.Filled ∧ installs = 1
  | .dead => installs ≤ 1

/-- What a call of `__init__` relies on: the object is there, its own map is not a borrowed one, and it
only gives its map up when the object has one. -/
def World.CallOk (T : PyType τ) (s : World τ) : InitCall τ → Prop
  | .idle => True
  | .building _ _ => s.life = .live
  | .built _ st => s.life = .live ∧ st.Owned
  | .refused st => s.life = .live ∧ s.obj.initialized = true ∧ st.Owned
  | .done (.ok _) _ => s.life = .live ∧ s.obj.initialized = true ∨ s.life = .dead
  | .done (.error _) none => s.life = .live ∨ s.life = .dead
  | .done (.error e) (some st) =>
    (s.life = .live ∨ s.life = .dead) ∧ e = alreadyInitialized T.name ∧ s.mem.Discarded st

/-- The result of a call that has lost the race, and whose map was at `st`. -/
def InitCall.lost (T : PyType τ) (st : Storage) : InitCall τ :=
  .done (.error (alreadyInitialized T.name)) (some st)

/-- The invariant of the reachable states. -/
structure World.Inv (T : PyType τ) (s : World τ) : Prop where
  object : s.life.ObjectOk T.codec.layout s.obj s.installs
  calls : ∀ c, s.CallOk T (s.calls c)
  winner : ∀ c c' own own', s.calls c = .done (.ok ()) own → s.calls c' = .done (.ok ()) own' → c = c'
  memory : s.Accounted
  freedBy : ∀ id, .heap id ∈ s.mem.freed → s.life = .dead ∨ ∃ c, s.calls c = .lost T (.heap id)
  released : s.mem.released = [] ∨ s.life = .dead ∧ s.mem.released.length = 1

section Invariant

variable {T : PyType τ} {s s' : World τ}

theorem World.initial_inv (h : s.Initial) : s.Inv T := by
  obtain ⟨hlife, hcalls, hmem, hinstalls⟩ := h
  constructor
  case object =>
    rw [hlife]
    exact hinstalls
  case calls =>
    intro c
    rw [hcalls c]
    trivial
  case winner =>
    intro c c' own own' hc
    rw [hcalls c] at hc
    cases hc
  case memory =>
    have hholds : s.holds = fun _ => none := by
      funext k
      cases k with
      | none => simp [World.holds, World.objectHolds, hlife]
      | some c => simp [World.holds, hcalls, InitCall.held, Storage.id]
    refine ⟨[], by rw [hmem]; rfl, ?_⟩
    rw [hholds, hmem]
    exact .empty
  case freedBy =>
    intro id hid
    rw [hmem] at hid
    cases hid
  case released => exact Or.inl (by rw [hmem])

theorem calls_update {c : Nat} {x : InitCall τ} (hcalls : s'.calls = Function.update s.calls c x)
    (c' : Nat) : c' = c ∧ s'.calls c' = x ∨ c' ≠ c ∧ s'.calls c' = s.calls c' := by
  by_cases hc : c' = c
  · exact Or.inl ⟨hc, by rw [hcalls, hc, Function.update_self]⟩
  · exact Or.inr ⟨hc, by rw [hcalls, Function.update_of_ne hc]⟩

/-- No call has started before the object is returned to Python. -/
theorem World.CallOk.idle {x : InitCall τ} (h : s.CallOk T x) (hlive : s.life ≠ .live)
    (hdead : s.life ≠ .dead) : x = .idle := by
  cases x with
  | idle => rfl
  | building hash entries => exact absurd h hlive
  | built m st => exact absurd h.1 hlive
  | refused st => exact absurd h.1 hlive
  | done result own =>
    have hborn : s.life = .live ∨ s.life = .dead := by
      cases result with
      | ok _ => exact h.imp And.left id
      | error e =>
        cases own with
        | none => exact h
        | some st => exact h.1
    rcases hborn with hl | hd
    · exact absurd hl hlive
    · exact absurd hd hdead

/-- A dead object has no running call. -/
theorem World.CallOk.resting {x : InitCall τ} (h : s.CallOk T x) (hdead : s.life = .dead) :
    x.Resting := by
  have hlive : s.life ≠ .live := by
    rw [hdead]
    decide
  cases x with
  | idle => trivial
  | building hash entries => exact absurd h hlive
  | built m st => exact absurd h.1 hlive
  | refused st => exact absurd h.1 hlive
  | done result own => trivial

/-- A call relies on the same after a step of another call. -/
theorem World.CallOk.mono {x : InitCall τ} (h : s.CallOk T x) (hlife : s'.life = s.life)
    (hinit : s.obj.initialized = true → s'.obj.initialized = true)
    (hfreed : ∀ st ∈ s.mem.freed, st ∈ s'.mem.freed) : s'.CallOk T x := by
  cases x with
  | idle => trivial
  | building hash entries => exact hlife.trans h
  | built m st => exact ⟨hlife.trans h.1, h.2⟩
  | refused st => exact ⟨hlife.trans h.1, hinit h.2.1, h.2.2⟩
  | done result own =>
    cases result with
    | ok _ => exact h.imp (fun h => ⟨hlife.trans h.1, hinit h.2⟩) hlife.trans
    | error e =>
      cases own with
      | none => exact h.imp hlife.trans hlife.trans
      | some st => exact ⟨h.1.imp hlife.trans hlife.trans, h.2.1, h.2.2.mono hfreed⟩

/-- A call that does not run relies on nothing that the deallocation changes. -/
theorem World.CallOk.dealloc {x : InitCall τ} (h : s.CallOk T x) (hx : x.Resting)
    (hdead : s'.life = .dead) (hfreed : ∀ st ∈ s.mem.freed, st ∈ s'.mem.freed) : s'.CallOk T x := by
  cases x with
  | idle => trivial
  | building hash entries => exact hx.elim
  | built m st => exact hx.elim
  | refused st => exact hx.elim
  | done result own =>
    cases result with
    | ok _ => exact Or.inr hdead
    | error e =>
      cases own with
      | none => exact Or.inr hdead
      | some st => exact ⟨Or.inr hdead, h.2.1, h.2.2.mono hfreed⟩

/-- A step of the class methods while no call has started. -/
theorem World.inv_of_idle (hidle : ∀ c, s.calls c = .idle) (hcalls : s'.calls = s.calls)
    (hobj : s'.life.ObjectOk T.codec.layout s'.obj s'.installs) (hmem : s'.Accounted)
    (hfreed : s'.life = .dead ∨ s'.mem.freed = [])
    (hreleased : s'.mem.released = [] ∨ s'.life = .dead ∧ s'.mem.released.length = 1) :
    s'.Inv T := by
  have hidle' : ∀ c, s'.calls c = .idle := fun c => by rw [hcalls, hidle c]
  constructor
  case object => exact hobj
  case calls =>
    intro c
    rw [hidle' c]
    trivial
  case winner =>
    intro c c' own own' hc
    rw [hidle' c] at hc
    cases hc
  case memory => exact hmem
  case freedBy =>
    intro id hid
    refine hfreed.imp_right fun hnil => ?_
    rw [hnil] at hid
    cases hid
  case released => exact hreleased

namespace World.Inv

variable (h : s.Inv T)
include h

theorem call {c : Nat} {x : InitCall τ} (hc : s.calls c = x) : s.CallOk T x := hc ▸ h.calls c

theorem stage {l : Life} (hlife : s.life = l) : l.ObjectOk T.codec.layout s.obj s.installs :=
  hlife ▸ h.object

/-- Before the object is returned to Python no call has started and nothing was freed. -/
theorem untouched {l : Life} (hlife : s.life = l) (hl : l ≠ .live) (hd : l ≠ .dead) :
    (∀ c, s.calls c = .idle) ∧ s.objectHolds = none ∧ s.mem.freed = [] ∧ s.mem.released = [] := by
  have hlive : s.life ≠ .live := hlife ▸ hl
  have hdead : s.life ≠ .dead := hlife ▸ hd
  have hidle : ∀ c, s.calls c = .idle := fun c => (h.calls c).idle hlive hdead
  refine ⟨hidle, objectHolds_eq_none hlive, ?_, h.released.resolve_right fun hr => hdead hr.1⟩
  obtain ⟨ids, hids, -⟩ := h.memory
  cases ids with
  | nil => exact hids
  | cons id ids =>
    rcases h.freedBy id (by rw [hids]; exact List.mem_cons_self ..) with hd | ⟨c, hc⟩
    · exact absurd hd hdead
    · rw [hidle c] at hc
      cases hc

/-! ### Steps of the class methods -/

/-- `tp_alloc`. -/
theorem start (hlife : s.life = .unborn) (hlife' : s'.life = .live ∨ s'.life = .reading ∨
      ∃ exporter, s'.life = .viewing exporter)
    (hobj : s'.obj = .alloc T.codec.layout) (hcalls : s'.calls = s.calls) (hmem : s'.mem = s.mem)
    (hinstalls : s'.installs = s.installs) : s'.Inv T := by
  obtain ⟨hidle, hobject, hfreed, hreleased⟩ := h.untouched hlife (by simp) (by simp)
  have hnone : s.installs = 0 := h.stage hlife
  refine inv_of_idle hidle hcalls ?_ ?_ (Or.inr (by rw [hmem, hfreed])) (Or.inl (by rw [hmem, hreleased]))
  · rcases hlife' with hl | hl | ⟨exporter, hl⟩
    · rw [hl]
      exact Or.inl ⟨hobj, by rw [hinstalls, hnone]⟩
    · rw [hl]
      exact ⟨hobj, by rw [hinstalls, hnone]⟩
    · rw [hl]
      exact ⟨hobj, by rw [hinstalls, hnone]⟩
  · refine h.memory.congr (by rw [hmem]) (by rw [hmem]) (holds_eq hcalls ?_)
    rw [hobject]
    unfold World.objectHolds
    rw [hobj]
    exact ite_self none

/-- `fcm_*_read` has succeeded. -/
theorem readOk (hlife : s.life = .reading) (m : MapOf τ) (len : Nat) :
    World.Inv T { s with
      life := .live
      obj := { s.obj with map := m, storage := (s.mem.malloc len).1, initialized := true }
      mem := (s.mem.malloc len).2, installs := s.installs + 1 } := by
  obtain ⟨hidle, hobject, hfreed, hreleased⟩ := h.untouched hlife (by simp) (by simp)
  obtain ⟨halloc, hnone⟩ := h.stage hlife
  refine inv_of_idle hidle rfl (Or.inr ⟨⟨rfl, Or.inl ⟨?_, malloc_owned s.mem len⟩⟩, ?_⟩) ?_
    (Or.inr ((malloc_freed ..).trans hfreed)) (Or.inl ((malloc_released ..).trans hreleased))
  · rw [halloc]
    rfl
  · rw [hnone]
  · exact h.memory.malloc (k := none) hobject rfl (holds_object rfl)

/-- `fcm_*_view` has succeeded. -/
theorem viewOk {exporter : Nat} (hlife : s.life = .viewing exporter) (m : MapOf τ) :
    World.Inv T { s with
      life := .viewed exporter
      obj := { s.obj with map := m, storage := .buffer exporter } } := by
  obtain ⟨hidle, hobject, hfreed, hreleased⟩ := h.untouched hlife (by simp) (by simp)
  obtain ⟨halloc, hnone⟩ := h.stage hlife
  refine inv_of_idle hidle rfl ⟨rfl, ?_, hnone⟩ ?_ (Or.inr hfreed) (Or.inl hreleased)
  · rw [halloc]
    rfl
  · exact h.memory.congr rfl rfl (holds_eq rfl hobject.symm)

/-- The buffer of the view is stored in the object. -/
theorem keepView {exporter : Nat} (hlife : s.life = .viewed exporter) :
    World.Inv T { s with
      life := .live
      obj := { s.obj with view := some exporter, initialized := true }
      installs := s.installs + 1 } := by
  obtain ⟨hidle, hobject, hfreed, hreleased⟩ := h.untouched hlife (by simp) (by simp)
  obtain ⟨hstorage, -, hnone⟩ := h.stage hlife
  refine inv_of_idle hidle rfl (Or.inr ⟨⟨rfl, Or.inr ⟨exporter, rfl, hstorage⟩⟩, ?_⟩) ?_
    (Or.inr hfreed) (Or.inl hreleased)
  · rw [hnone]
  · refine h.memory.congr rfl rfl (holds_eq rfl ?_)
    rw [hobject]
    show s.obj.storage.id = none
    rw [hstorage]
    rfl

/-- A constructor fails, and `Py_DECREF` deallocates the object: it frees nothing. -/
theorem abandon {l : Life} (hlife : s.life = l) (hl : l ≠ .live) (hd : l ≠ .dead)
    (hobj : s.obj = .alloc T.codec.layout) (hinstalls : s.installs = 0) (m : MapOf τ)
    {M : Memory} (hbuilt : M.built = s.mem.built) (hfreed : M.freed = s.mem.freed)
    (hreleased : M.released.length ≤ 1) :
    (World.dealloc T.codec.layout { s with obj := { s.obj with map := m }, mem := M }).Inv T := by
  obtain ⟨hidle, hobject, -, -⟩ := h.untouched hlife hl hd
  have hmem : (World.dealloc T.codec.layout { s with obj := { s.obj with map := m }, mem := M }).mem =
      M := by
    show (PyStruct.release T.codec.layout { s.obj with map := m } M).2 = M
    rw [release_owned _ (by rw [hobj]; rfl), hobj]
    rfl
  refine inv_of_idle hidle rfl ?_ ?_ (Or.inl rfl) ?_
  · show s.installs ≤ 1
    omega
  · refine h.memory.congr (by rw [hmem, hbuilt]) (by rw [hmem, hfreed]) (holds_eq rfl ?_)
    exact (objectHolds_eq_none (by simp [World.dealloc])).trans hobject.symm
  · rw [hmem]
    rcases Nat.le_one_iff_eq_zero_or_eq_one.mp hreleased with h0 | h1
    · exact Or.inl (List.length_eq_zero_iff.mp h0)
    · exact Or.inr ⟨rfl, h1⟩

/-- The last reference to the object is gone: its own map is freed, and a borrowed buffer released. -/
theorem dealloc (hlife : s.life = .live) (hrest : ∀ c, (s.calls c).Resting) :
    (s.dealloc T.codec.layout).Inv T := by
  have hreleased : s.mem.released = [] := h.released.resolve_right fun hr => by simp [hlife] at hr
  have hok := h.stage hlife
  have hinstalls : s.installs ≤ 1 := by
    rcases hok with ⟨-, hn⟩ | ⟨-, hn⟩
    · omega
    · omega
  have hstorage : s.obj.view = none ∧ s.obj.storage.Owned ∨
      ∃ exporter, s.obj.view = some exporter ∧ s.obj.storage = .buffer exporter := by
    rcases hok with ⟨halloc, -⟩ | ⟨hfilled, -⟩
    · refine Or.inl ⟨by rw [halloc]; rfl, ?_⟩
      rw [halloc]
      intro exporter
      simp [PyStruct.alloc]
    · exact hfilled.2
  have hobject : s.objectHolds = s.obj.storage.id := if_pos hlife
  have hfreed : ∀ st ∈ s.mem.freed, st ∈ (s.dealloc T.codec.layout).mem.freed := by
    intro st hst
    show st ∈ (s.obj.release T.codec.layout s.mem).2.freed
    rcases hstorage with ⟨hview, -⟩ | ⟨exporter, hview, -⟩
    · rw [release_owned _ hview]
      exact mem_free hst
    · rw [release_view _ hview]
      exact hst
  constructor
  case object => exact hinstalls
  case calls => exact fun c => (h.calls c).dealloc (hrest c) rfl hfreed
  case winner => exact h.winner
  case memory =>
    have hdead : (s.dealloc T.codec.layout).objectHolds = none :=
      objectHolds_eq_none (by simp [World.dealloc])
    rcases hstorage with ⟨hview, howned⟩ | ⟨exporter, hview, hbuffer⟩
    · have hmem : (s.dealloc T.codec.layout).mem = s.mem.free s.obj.storage :=
        release_owned T.codec.layout hview
      refine h.memory.free (k := none) hobject howned (by rw [hmem, free_built]) (by rw [hmem]) ?_
      have hholds : (s.dealloc T.codec.layout).holds =
          Function.update s.holds none (s.dealloc T.codec.layout).objectHolds := holds_object rfl
      rw [hholds, hdead]
    · have hmem : (s.dealloc T.codec.layout).mem = s.mem.releaseBuffer exporter :=
        release_view T.codec.layout hview
      refine h.memory.congr (by rw [hmem]; rfl) (by rw [hmem]; rfl) (holds_eq rfl ?_)
      rw [hdead, hobject, hbuffer]
      rfl
  case freedBy => exact fun id _ => Or.inl rfl
  case released =>
    rcases hstorage with ⟨hview, -⟩ | ⟨exporter, hview, -⟩
    · left
      show (s.obj.release T.codec.layout s.mem).2.released = []
      rw [release_owned _ hview, free_released, hreleased]
    · right
      refine ⟨rfl, ?_⟩
      show (s.obj.release T.codec.layout s.mem).2.released.length = 1
      rw [release_view _ hview]
      show (exporter :: s.mem.released).length = 1
      rw [hreleased]
      rfl

/-! ### Steps of the calls -/

/-- What the step of a call keeps, if it neither installs a map nor leaves the state `lost`. -/
theorem of_call {c : Nat} {x : InitCall τ} (hcalls : s'.calls = Function.update s.calls c x)
    (hlife : s'.life = s.life) (hobj : s'.obj = s.obj) (hinstalls : s'.installs = s.installs)
    (hfreed : ∀ st ∈ s.mem.freed, st ∈ s'.mem.freed) (hreleased : s'.mem.released = s.mem.released)
    (hx : s'.CallOk T x) (hok : ∀ own, x ≠ .done (.ok ()) own)
    (hfreedBy : ∀ id, .heap id ∈ s'.mem.freed →
      x = .lost T (.heap id) ∨ .heap id ∈ s.mem.freed ∧ s.calls c ≠ .lost T (.heap id))
    (hmem : s'.Accounted) : s'.Inv T := by
  have hcall := calls_update hcalls
  constructor
  case object =>
    rw [hlife, hobj, hinstalls]
    exact h.object
  case calls =>
    intro c'
    rcases hcall c' with ⟨-, hc⟩ | ⟨-, hc⟩
    · rw [hc]
      exact hx
    · rw [hc]
      exact (h.calls c').mono hlife (by rw [hobj]; exact id) hfreed
  case winner =>
    intro c1 c2 own1 own2 h1 h2
    rcases hcall c1 with ⟨-, hc1⟩ | ⟨-, hc1⟩
    · exact absurd (hc1.symm.trans h1) (hok own1)
    · rcases hcall c2 with ⟨-, hc2⟩ | ⟨-, hc2⟩
      · exact absurd (hc2.symm.trans h2) (hok own2)
      · exact h.winner c1 c2 own1 own2 (hc1.symm.trans h1) (hc2.symm.trans h2)
  case memory => exact hmem
  case freedBy =>
    intro id hid
    rcases hfreedBy id hid with hx | ⟨hold, hc⟩
    · exact Or.inr ⟨c, by rw [hcalls, Function.update_self, hx]⟩
    · rw [hlife]
      refine (h.freedBy id hold).imp_right ?_
      rintro ⟨c', hc'⟩
      have hne : c' ≠ c := by
        rintro rfl
        exact hc hc'
      exact ⟨c', by rw [hcalls, Function.update_of_ne hne, hc']⟩
  case released =>
    rw [hreleased, hlife]
    exact h.released

/-- A call goes on without touching the object or the memory. -/
theorem setCall {c : Nat} {x : InitCall τ} (hx : s.CallOk T x) (hok : ∀ own, x ≠ .done (.ok ()) own)
    (hheld : x.held.id = (s.calls c).held.id) (hc : ∀ st, s.calls c ≠ .lost T st) :
    (s.setCall c x).Inv T := by
  refine h.of_call (c := c) (x := x) rfl rfl rfl rfl (fun st hst => hst) rfl
    (hx.mono rfl id fun st hst => hst) hok (fun id hid => Or.inr ⟨hid, hc _⟩) ?_
  refine h.memory.congr rfl rfl ?_
  have hholds : (s.setCall c x).holds = Function.update s.holds (some c) x.held.id :=
    holds_setCall rfl rfl
  rw [hholds, hheld]
  exact Function.update_eq_self (some c) s.holds

/-- A call has built its map. -/
theorem build {c : Nat} {hash : UInt32} {entries : List (Bytes × UInt64)}
    (hc : s.calls c = .building hash entries) (m : MapOf τ) (len : Nat) :
    World.Inv T { s with
      calls := Function.update s.calls c (.built m (s.mem.malloc len).1)
      mem := (s.mem.malloc len).2 } := by
  have hlive : s.life = .live := h.call hc
  refine h.of_call (c := c) rfl rfl rfl rfl ?_ (malloc_released ..) ⟨hlive, malloc_owned s.mem len⟩
    (fun own => by simp) ?_ ?_
  · intro st hst
    show st ∈ (s.mem.malloc len).2.freed
    rwa [malloc_freed]
  · intro id hid
    replace hid : .heap id ∈ (s.mem.malloc len).2.freed := hid
    rw [malloc_freed] at hid
    exact Or.inr ⟨hid, by simp [hc, InitCall.lost]⟩
  · refine h.memory.malloc (k := some c) ?_ rfl
      (holds_setCall (x := .built m (s.mem.malloc len).1) rfl rfl)
    show (s.calls c).held.id = none
    rw [hc]
    rfl

/-- The map of a call goes to an object without one: no other call has installed its map. -/
theorem install {c : Nat} {m : MapOf τ} {st : Storage} (hc : s.calls c = .built m st)
    (hinit : s.obj.initialized = false) :
    World.Inv T { s with
      obj := { s.obj with map := m, storage := st, initialized := true }
      calls := Function.update s.calls c (.done (.ok ()) (some st))
      installs := s.installs + 1 } := by
  obtain ⟨hlive, howned⟩ := h.call hc
  obtain ⟨halloc, hnone⟩ : s.obj = .alloc T.codec.layout ∧ s.installs = 0 := by
    rcases h.stage hlive with hempty | ⟨hfilled, -⟩
    · exact hempty
    · exact absurd (hinit.symm.trans hfilled.1) (by simp)
  have hfirst : ∀ c own, s.calls c ≠ .done (.ok ()) own := by
    intro c' own hc'
    rcases h.call hc' with ⟨-, hset⟩ | hdead
    · exact absurd (hinit.symm.trans hset) (by simp)
    · exact absurd (hlive.symm.trans hdead) (by decide)
  set s' : World τ := { s with
    obj := { s.obj with map := m, storage := st, initialized := true }
    calls := Function.update s.calls c (.done (.ok ()) (some st))
    installs := s.installs + 1 } with hs'
  have hcalls : s'.calls = Function.update s.calls c (.done (.ok ()) (some st)) := rfl
  have hcall := calls_update hcalls
  constructor
  case object =>
    have hfilled : s'.obj.Filled := ⟨rfl, Or.inl ⟨by show s.obj.view = none; rw [halloc]; rfl, howned⟩⟩
    show s.life.ObjectOk T.codec.layout s'.obj (s.installs + 1)
    rw [hlive, hnone]
    exact Or.inr ⟨hfilled, rfl⟩
  case calls =>
    intro c'
    rcases hcall c' with ⟨-, hc'⟩ | ⟨-, hc'⟩
    · rw [hc']
      exact Or.inl ⟨hlive, rfl⟩
    · rw [hc']
      exact (h.calls c').mono rfl (fun _ => rfl) fun st hst => hst
  case winner =>
    intro c1 c2 own1 own2 h1 h2
    rcases hcall c1 with ⟨hc1, -⟩ | ⟨-, hc1⟩
    · rcases hcall c2 with ⟨hc2, -⟩ | ⟨-, hc2⟩
      · exact hc1.trans hc2.symm
      · exact absurd (hc2.symm.trans h2) (hfirst c2 own2)
    · exact absurd (hc1.symm.trans h1) (hfirst c1 own1)
  case memory =>
    have hobject : s.holds none = none := by
      show s.objectHolds = none
      unfold World.objectHolds
      rw [if_pos hlive, halloc]
      rfl
    have hown : s.holds (some c) = st.id := by
      show (s.calls c).held.id = st.id
      rw [hc]
      rfl
    obtain ⟨ids, hids, hacc⟩ := h.memory
    refine ⟨ids, hids, ?_⟩
    have hcallHolds : (s.setCall c (.done (.ok ()) (some st))).holds =
        Function.update s.holds (some c) none :=
      holds_setCall (x := .done (.ok ()) (some st)) rfl rfl
    have hobjectHolds : s'.objectHolds = s.holds (some c) := (if_pos hlive).trans hown.symm
    have hholds : s'.holds =
        Function.update (Function.update s.holds (some c) none) none (s.holds (some c)) := by
      rw [← hcallHolds, ← hobjectHolds]
      exact holds_object rfl
    rw [hholds]
    exact hacc.move (by simp) hobject
  case freedBy =>
    intro id hid
    refine (h.freedBy id hid).imp_right ?_
    rintro ⟨c', hc'⟩
    have hne : c' ≠ c := by
      rintro rfl
      rw [hc] at hc'
      cases hc'
    exact ⟨c', (Function.update_of_ne hne ..).trans hc'⟩
  case released => exact h.released

/-- A call that was refused frees its own map. -/
theorem discard {c : Nat} {st : Storage} (hc : s.calls c = .refused st) :
    World.Inv T { s with
      calls := Function.update s.calls c (.done (.error (alreadyInitialized T.name)) (some st))
      mem := s.mem.free st } := by
  obtain ⟨hlive, -, howned⟩ := h.call hc
  refine h.of_call (c := c) rfl rfl rfl rfl (fun st' hst' => mem_free hst') (free_released ..)
    ⟨Or.inl hlive, rfl, discarded_free howned⟩ (fun own => by simp) ?_ ?_
  · intro id hid
    rcases mem_free_cases hid with hold | ⟨rfl, -⟩
    · exact Or.inr ⟨hold, by simp [hc, InitCall.lost]⟩
    · exact Or.inl rfl
  · refine h.memory.free (k := some c) ?_ howned (free_built ..) rfl
      (holds_setCall (x := .lost T st) rfl rfl)
    show (s.calls c).held.id = st.id
    rw [hc]
    rfl

end World.Inv

/-! ### Every step -/

variable {E : Env} {w : Nat} {le : Bool} {a : Actor} {c : Nat}

/-- The constructors fail before the object has a view or memory. -/
theorem World.Inv.readError (h : s.Inv T) (hlife : s.life = .reading) (m : MapOf τ) :
    (World.dealloc T.codec.layout { s with obj := { s.obj with map := m } }).Inv T := by
  obtain ⟨halloc, hnone⟩ := h.stage hlife
  obtain ⟨-, -, -, hreleased⟩ := h.untouched hlife (by simp) (by simp)
  exact h.abandon hlife (by simp) (by simp) halloc hnone m rfl rfl (by simp [hreleased])

theorem World.Inv.viewError (h : s.Inv T) {exporter : Nat} (hlife : s.life = .viewing exporter)
    (m : MapOf τ) :
    (World.dealloc T.codec.layout
      { s with obj := { s.obj with map := m }, mem := s.mem.releaseBuffer exporter }).Inv T := by
  obtain ⟨halloc, hnone⟩ := h.stage hlife
  obtain ⟨-, -, -, hreleased⟩ := h.untouched hlife (by simp) (by simp)
  exact h.abandon hlife (by simp) (by simp) halloc hnone m rfl rfl (by simp [Memory.releaseBuffer, hreleased])

theorem World.Inv.step (h : s.Inv T) (hstep : Step T E w le s a s') : s'.Inv T := by
  cases hstep with
  | new hlife => exact h.start hlife (Or.inl rfl) rfl rfl rfl rfl
  | allocRead hlife => exact h.start hlife (Or.inr (Or.inl rfl)) rfl rfl rfl rfl
  | allocView hlife => exact h.start hlife (Or.inr (Or.inr ⟨_, rfl⟩)) rfl rfl rfl rfl
  | readOk hlife _ => exact h.readOk hlife _ _
  | readError hlife _ _ => exact h.readError hlife _
  | viewOk hlife _ => exact h.viewOk hlife _
  | viewError hlife _ _ => exact h.viewError hlife _
  | keepView hlife => exact h.keepView hlife
  | dealloc hlife hrest => exact h.dealloc hlife hrest
  | badArgs hlife hc =>
    exact h.setCall (Or.inl hlife) (by simp) (by rw [hc]; rfl) (by simp [hc, InitCall.lost])
  | convertError hlife hc _ =>
    exact h.setCall (Or.inl hlife) (by simp) (by rw [hc]; rfl) (by simp [hc, InitCall.lost])
  | convert hlife hc _ =>
    exact h.setCall hlife (by simp) (by rw [hc]; rfl) (by simp [hc, InitCall.lost])
  | buildError hc _ _ =>
    exact h.setCall (Or.inl (h.call hc)) (by simp) (by rw [hc]; rfl) (by simp [hc, InitCall.lost])
  | build hc _ => exact h.build hc _ _
  | install hc hinit => exact h.install hc hinit
  | refuse hc hinit =>
    obtain ⟨hlive, howned⟩ := h.call hc
    exact h.setCall ⟨hlive, hinit, howned⟩ (by simp) (by rw [hc]; rfl) (by simp [hc, InitCall.lost])
  | discard hc => exact h.discard hc

theorem reachable_inv (h : Reachable (Step T E w le) World.Initial s) : s.Inv T :=
  h.invariant (fun _ => World.initial_inv) fun _ _ _ hinv => hinv.step

end Invariant

end FastConstMap
