import Mathlib.Data.List.Induction
import Mathlib.Logic.Function.Basic

/-!
# Checked arrays and counted loops

A C computation is a function into `Option`: `none` stands for a run without a defined result (an
access outside of an array, or a loop that never ends). `load` and `store` are the two array
accesses; `forUp`, `forDown` and `loop` are the loop shapes, each with the rule that turns an
invariant of one pass into a statement about the whole loop.
-/

namespace CLoop

variable {α σ : Type}

/-- `a[i]`, defined inside of the array only. -/
def load (a : List α) (i : Nat) : Option α := a[i]?

/-- `a[i] = x`, defined inside of the array only. -/
def store (a : List α) (i : Nat) (x : α) : Option (List α) :=
  if i < a.length then some (a.set i x) else none

/-- `for (i = lo; i < lo + count; i++) body`. -/
def forUp (body : Nat → σ → Option σ) : Nat → Nat → σ → Option σ
  | _, 0, s => some s
  | lo, count + 1, s => (body lo s).bind (forUp body (lo + 1) count)

/-- `for (i = count - 1; i >= 0; i--) body`. -/
def forDown (body : Nat → σ → Option σ) : Nat → σ → Option σ
  | 0, s => some s
  | count + 1, s => (body count s).bind (forDown body count)

/-- What one pass of a `while` loop does: it ends the loop, or goes on with a new state. -/
inductive Ctl (σ : Type) where
  | stop (s : σ)
  | next (s : σ)

/-- The state that a pass leaves. -/
def Ctl.state : Ctl σ → σ
  | .stop s => s
  | .next s => s

/-- The same decision on the image of the state. -/
def Ctl.map {τ : Type} (f : σ → τ) : Ctl σ → Ctl τ
  | .stop s => .stop (f s)
  | .next s => .next (f s)

/-- A `while` loop of at most `fuel` passes; `none` when the fuel is used up. -/
def loop (body : σ → Option (Ctl σ)) : Nat → σ → Option σ
  | 0, _ => none
  | fuel + 1, s =>
    match body s with
    | none => none
    | some (.stop s') => some s'
    | some (.next s') => loop body fuel s'

/-- `for (i = 0; i < count; i++) a[i] = f(i)` into a new array. -/
def tabulate (f : Nat → Option α) : Nat → Option (List α)
  | 0 => some []
  | count + 1 => (tabulate f count).bind fun a => (f count).map fun x => a ++ [x]

/-! ## Arrays -/

@[simp] theorem load_eq_some_iff {a : List α} {i : Nat} {x : α} :
    load a i = some x ↔ ∃ h : i < a.length, a[i] = x :=
  List.getElem?_eq_some_iff

theorem load_of_lt {a : List α} {i : Nat} (h : i < a.length) : load a i = some a[i] :=
  List.getElem?_eq_getElem h

theorem store_of_lt {a : List α} {i : Nat} (x : α) (h : i < a.length) :
    store a i x = some (a.set i x) := if_pos h

/-- The array `a` has `len` cells, and the cell `i` holds `f i`. -/
def Holds (a : List α) (len : Nat) (f : Nat → α) : Prop :=
  a.length = len ∧ ∀ i, i < len → load a i = some (f i)

namespace Holds

variable {a a' : List α} {len : Nat} {f g : Nat → α}

theorem load (h : Holds a len f) {i : Nat} (hi : i < len) : load a i = some (f i) := h.2 i hi

theorem store (h : Holds a len f) {i : Nat} (hi : i < len) (x : α) :
    ∃ a', store a i x = some a' ∧ Holds a' len (Function.update f i x) := by
  have hlt : i < a.length := h.1.symm ▸ hi
  refine ⟨a.set i x, store_of_lt x hlt, by rw [List.length_set]; exact h.1, ?_⟩
  intro j hj
  by_cases hij : i = j
  · subst hij
    rw [Function.update_self, CLoop.load, List.getElem?_set_self hlt]
  · rw [Function.update_of_ne (Ne.symm hij), CLoop.load, List.getElem?_set_ne hij]
    exact h.load hj

theorem congr (h : Holds a len f) (hfg : ∀ i, i < len → f i = g i) : Holds a len g :=
  ⟨h.1, fun i hi => by rw [h.load hi, hfg i hi]⟩

/-- The contents determine the array. -/
theorem ext (h : Holds a len f) (h' : Holds a' len f) : a = a' := by
  refine List.ext_getElem? ?_
  intro i
  by_cases hi : i < len
  · exact (h.load hi).trans (h'.load hi).symm
  · rw [List.getElem?_eq_none (by rw [h.1]; omega), List.getElem?_eq_none (by rw [h'.1]; omega)]

theorem replicate (len : Nat) (x : α) : Holds (List.replicate len x) len fun _ => x :=
  ⟨List.length_replicate, fun i hi => by simp [CLoop.load, hi]⟩

theorem map {β : Type} (op : α → β) (h : Holds a len f) : Holds (a.map op) len fun i => op (f i) := by
  refine ⟨by rw [List.length_map, h.1], ?_⟩
  intro i hi
  rw [CLoop.load, List.getElem?_map, show a[i]? = some (f i) from h.load hi, Option.map_some]

/-- Two arrays combined entry by entry. -/
theorem zipWith {β γ : Type} {b : List β} {g : Nat → β} (op : α → β → γ) (h : Holds a len f)
    (h' : Holds b len g) : Holds (List.zipWith op a b) len fun i => op (f i) (g i) := by
  refine ⟨by rw [List.length_zipWith, h.1, h'.1, Nat.min_self], ?_⟩
  intro i hi
  obtain ⟨h1, e1⟩ := load_eq_some_iff.mp (h.load hi)
  obtain ⟨h2, e2⟩ := load_eq_some_iff.mp (h'.load hi)
  rw [load_of_lt (by rw [List.length_zipWith]; omega), List.getElem_zipWith, e1, e2]

/-- An array that is computed entry by entry. -/
theorem map_range (g : Nat → α) (len : Nat) : Holds ((List.range len).map g) len g := by
  refine ⟨by rw [List.length_map, List.length_range], ?_⟩
  intro i hi
  rw [CLoop.load, List.getElem?_map, List.getElem?_range hi]
  rfl

end Holds

/-! ## Loops -/

/-- The rule of `forUp`: an invariant that each pass keeps holds after the last one. -/
theorem forUp_spec {body : Nat → σ → Option σ} {lo count hi : Nat} (inv : Nat → σ → Prop)
    (hhi : lo + count = hi)
    (hstep : ∀ i s, lo ≤ i → i < hi → inv i s → ∃ s', body i s = some s' ∧ inv (i + 1) s')
    {s : σ} (h0 : inv lo s) : ∃ s', forUp body lo count s = some s' ∧ inv hi s' := by
  induction count generalizing lo s with
  | zero =>
    obtain rfl : lo = hi := hhi
    exact ⟨s, rfl, h0⟩
  | succ count ih =>
    obtain ⟨s1, hb, h1⟩ := hstep lo s (Nat.le_refl lo) (by omega) h0
    obtain ⟨s', hf, h'⟩ := ih (by omega) (fun i t hlo hlt ht => hstep i t (by omega) hlt ht) h1
    refine ⟨s', ?_, h'⟩
    rw [forUp, hb]
    exact hf

/-- A loop whose passes always have a result is a fold. -/
theorem forUp_eq_foldl {body : Nat → σ → Option σ} (f : σ → Nat → σ) {lo count : Nat}
    (hbody : ∀ i s, lo ≤ i → i < lo + count → body i s = some (f s i)) (s : σ) :
    forUp body lo count s = some ((List.range' lo count).foldl f s) := by
  induction count generalizing lo s with
  | zero => rfl
  | succ count ih =>
    rw [forUp, hbody lo s (Nat.le_refl lo) (by omega), Option.bind_some, List.range'_succ,
      List.foldl_cons]
    exact ih (fun i t hlo hlt => hbody i t (by omega) (by omega)) (f s lo)

theorem tabulate_eq {f : Nat → Option α} {g : Nat → α} {count : Nat}
    (h : ∀ i, i < count → f i = some (g i)) : tabulate f count = some ((List.range count).map g) := by
  induction count with
  | zero => rfl
  | succ count ih =>
    rw [tabulate, ih fun i hi => h i (Nat.lt_succ_of_lt hi), h count (Nat.lt_succ_self count),
      List.range_succ, List.map_append]
    rfl

theorem length_of_tabulate {f : Nat → Option α} {count : Nat} {a : List α}
    (h : tabulate f count = some a) : a.length = count := by
  induction count generalizing a with
  | zero =>
    obtain rfl := Option.some.inj h
    rfl
  | succ count ih =>
    obtain ⟨b, hb, h⟩ := Option.bind_eq_some_iff.mp h
    obtain ⟨x, -, rfl⟩ := Option.map_eq_some_iff.mp h
    rw [List.length_append, ih hb]
    rfl

/-- What `tabulate` copies can be read. -/
theorem exists_of_tabulate {f : Nat → Option α} {count : Nat} {a : List α}
    (h : tabulate f count = some a) {i : Nat} (hi : i < count) : ∃ x, f i = some x := by
  induction count generalizing a with
  | zero => exact absurd hi (Nat.not_lt_zero i)
  | succ count ih =>
    obtain ⟨b, hb, h⟩ := Option.bind_eq_some_iff.mp h
    obtain ⟨x, hx, -⟩ := Option.map_eq_some_iff.mp h
    rcases Nat.lt_succ_iff_lt_or_eq.mp hi with hi | rfl
    · exact ih hb hi
    · exact ⟨x, hx⟩

/-- Copying the first part of an array. -/
theorem tabulate_load_append (a b : List α) : tabulate (load (a ++ b)) a.length = some a := by
  induction a using List.reverseRecOn generalizing b with
  | nil => rfl
  | append_singleton a x ih =>
    have hinit := ih ([x] ++ b)
    have hlast : load (a ++ ([x] ++ b)) a.length = some x := by simp
    rw [List.length_append, List.length_singleton, tabulate, List.append_assoc, hinit, hlast]
    rfl

/-- Copying an array. -/
theorem tabulate_load (a : List α) : tabulate (load a) a.length = some a := by
  have h := tabulate_load_append a []
  rwa [List.append_nil] at h

/-- A downward loop that consumes the entries of a list. -/
theorem forDown_eq_foldlM {body : Nat → σ → Option σ} (f : σ → α → Option σ) (l : List α)
    (h : ∀ i (hi : i < l.length) s, body i s = f s l[i]) (s : σ) :
    forDown body l.length s = l.reverse.foldlM f s := by
  induction l using List.reverseRecOn generalizing s with
  | nil => rfl
  | append_singleton l a ih =>
    have hlen : (l ++ [a]).length = l.length + 1 := by simp
    have hlast : body l.length s = f s a := by rw [h l.length (by omega)]; simp
    rw [hlen, forDown, hlast, List.reverse_append, List.reverse_singleton, List.singleton_append,
      List.foldlM_cons]
    refine congrArg _ (funext fun s' => ih (fun i hi t => ?_) s')
    rw [h i (by omega), List.getElem_append_left hi]

/-- A downward loop visits the indices in decreasing order. -/
theorem forDown_eq_range (body : Nat → σ → Option σ) (count : Nat) (s : σ) :
    forDown body count s = (List.range count).reverse.foldlM (fun s i => body i s) s := by
  have hbody : ∀ i (hi : i < (List.range count).length) (s : σ),
      body i s = body (List.range count)[i] s := by
    intro i hi s
    rw [List.getElem_range]
  have h := forDown_eq_foldlM (fun s i => body i s) (List.range count) hbody s
  rwa [List.length_range] at h

/-- The rule of `loop`: each pass that goes on keeps the invariant and lowers the measure, so a
loop with more fuel than the measure ends, in a state that its last pass leaves. -/
theorem loop_spec {body : σ → Option (Ctl σ)} (measure : σ → Nat) (inv post : σ → Prop)
    (hstep : ∀ s, inv s → (∃ s', body s = some (.stop s') ∧ post s') ∨
      ∃ s', body s = some (.next s') ∧ inv s' ∧ measure s' < measure s)
    {fuel : Nat} {s : σ} (h0 : inv s) (hf : measure s < fuel) :
    ∃ s', loop body fuel s = some s' ∧ post s' := by
  induction fuel generalizing s with
  | zero => omega
  | succ fuel ih =>
    rcases hstep s h0 with ⟨s', hb, hp⟩ | ⟨s', hb, hi, hm⟩
    · exact ⟨s', by simp only [loop, hb], hp⟩
    · obtain ⟨t, ht, hp⟩ := ih hi (by omega)
      exact ⟨t, by simp only [loop, hb, ht], hp⟩

/-- The rule for a loop that takes `chunk` items of `n` at each pass, from a base that it advances: the
invariant for a base below `n` leads to that for the next one, and from a base past the end the loop
stops. -/
theorem loop_chunks {body : σ → Option (Ctl σ)} {n chunk : Nat} (hchunk : 0 < chunk)
    (inv : Nat → σ → Prop) (post : σ → Prop)
    (hnext : ∀ base s, base < n → inv base s →
      ∃ s', body s = some (.next s') ∧ inv (base + chunk) s')
    (hstop : ∀ base s, n ≤ base → inv base s → ∃ s', body s = some (.stop s') ∧ post s')
    {fuel base : Nat} {s : σ} (h0 : inv base s) (hf : n - base < fuel) :
    ∃ s', loop body fuel s = some s' ∧ post s' := by
  induction fuel generalizing base s with
  | zero => omega
  | succ fuel ih =>
    rcases Nat.lt_or_ge base n with hlt | hge
    · obtain ⟨s1, hb, h1⟩ := hnext base s hlt h0
      obtain ⟨s', hloop, hp⟩ := ih h1 (by omega)
      exact ⟨s', by simp only [loop, hb, hloop], hp⟩
    · obtain ⟨s', hb, hp⟩ := hstop base s hge h0
      exact ⟨s', by simp only [loop, hb], hp⟩

/-- A loop that simulates another one: when `abs` maps each pass of the one to the pass of the
other, it maps their results. -/
theorem loop_map {τ : Type} {body : σ → Option (Ctl σ)} {body' : τ → Option (Ctl τ)} (abs : σ → τ)
    (inv : σ → Prop)
    (hstep : ∀ s, inv s → body' (abs s) = (body s).map (Ctl.map abs) ∧
      ∀ c, body s = some c → inv c.state)
    {fuel : Nat} {s : σ} (h0 : inv s) :
    loop body' fuel (abs s) = (loop body fuel s).map abs ∧
      ∀ s', loop body fuel s = some s' → inv s' := by
  induction fuel generalizing s with
  | zero => exact ⟨rfl, by simp [loop]⟩
  | succ fuel ih =>
    obtain ⟨hbody, hinv⟩ := hstep s h0
    simp only [loop, hbody]
    cases hb : body s with
    | none => simp
    | some c =>
      cases c with
      | stop s' => simpa [Ctl.map, Ctl.state] using hinv _ hb
      | next s' => exact ih (hinv _ hb)

end CLoop
