import Mathlib.Logic.Relation
import Mathlib.Data.List.Basic
import Mathlib.Logic.Function.Basic

/-!
# Runs of a transition system, and resources with one holder

A transition system is a relation between a state, the actor that takes the step and the next state;
steps of all actors interleave freely. The first part has the rules for what holds along its runs, the
second one accounts for resources that are allocated, handed on and freed along a run.
-/

namespace Runs

variable {σ α : Type} {step : σ → α → σ → Prop} {init : σ → Prop} {s s' : σ}

/-! ## Runs -/

variable (step) in
/-- A run from one state to another: steps of any actors in any order. -/
def Steps : σ → σ → Prop := Relation.ReflTransGen fun s s' => ∃ a, step s a s'

variable (step init) in
/-- A state that some run reaches from an initial state. -/
def Reachable (s : σ) : Prop := ∃ s₀, init s₀ ∧ Steps step s₀ s

theorem Steps.refl (s : σ) : Steps step s s := Relation.ReflTransGen.refl

theorem Steps.single {a : α} (h : step s a s') : Steps step s s' := Relation.ReflTransGen.single ⟨a, h⟩

theorem Steps.trans {s'' : σ} (h : Steps step s s') (h' : Steps step s' s'') : Steps step s s'' :=
  Relation.ReflTransGen.trans h h'

/-- What every step keeps, a run keeps. -/
theorem Steps.invariant (inv : σ → Prop) (hstep : ∀ s a s', inv s → step s a s' → inv s')
    (h : Steps step s s') (hs : inv s) : inv s' := by
  induction h with
  | refl => exact hs
  | tail _ h1 ih =>
    obtain ⟨a, ha⟩ := h1
    exact hstep _ a _ ih ha

/-- What holds in the initial states and is kept by every step holds in every reachable state. -/
theorem Reachable.invariant {inv : σ → Prop} (hinit : ∀ s, init s → inv s)
    (hstep : ∀ s a s', inv s → step s a s' → inv s') (h : Reachable step init s) : inv s := by
  obtain ⟨s₀, h₀, hsteps⟩ := h
  exact hsteps.invariant inv hstep (hinit s₀ h₀)

theorem Reachable.steps (h : Reachable step init s) (hs : Steps step s s') :
    Reachable step init s' := by
  obtain ⟨s₀, h₀, hsteps⟩ := h
  exact ⟨s₀, h₀, hsteps.trans hs⟩

/-- Along a run from a reachable state a step may use what holds in every reachable state. -/
theorem Reachable.along {inv : σ → Prop} (keep : σ → Prop) (hinv : ∀ s, Reachable step init s → inv s)
    (hstep : ∀ s a s', inv s → keep s → step s a s' → keep s') (h : Reachable step init s)
    (hs : Steps step s s') (hk : keep s) : keep s' := by
  have hboth : Reachable step init s' ∧ keep s' := by
    refine hs.invariant (fun s => Reachable step init s ∧ keep s) ?_ ⟨h, hk⟩
    rintro s a s' ⟨hr, hk⟩ h1
    exact ⟨hr.steps (.single h1), hstep s a s' (hinv s hr) hk h1⟩
  exact hboth.2

/-! ## Resources -/

section Accounts

variable {κ : Type}

/-- The resources `0, 1, ..., built - 1` were allocated and those of the list `freed` were freed since:
each of them once, and each of the others has exactly one holder. -/
structure Accounts (built : Nat) (freed : List Nat) (holds : κ → Option Nat) : Prop where
  lt : ∀ k id, holds k = some id → id < built
  unique : ∀ k k' id, holds k = some id → holds k' = some id → k = k'
  not_freed : ∀ k id, holds k = some id → id ∉ freed
  freed_lt : ∀ id ∈ freed, id < built
  nodup : freed.Nodup
  covered : ∀ id, id < built → id ∈ freed ∨ ∃ k, holds k = some id

namespace Accounts

variable {built : Nat} {freed : List Nat} {holds : κ → Option Nat}

theorem empty : Accounts 0 [] fun _ : κ => none where
  lt := by simp
  unique := by simp
  not_freed := by simp
  freed_lt := by simp
  nodup := List.nodup_nil
  covered := by simp

variable [DecidableEq κ] (h : Accounts built freed holds)
include h

/-- A new resource goes to a holder without one. -/
theorem allocate {k : κ} (hk : holds k = none) :
    Accounts (built + 1) freed (Function.update holds k (some built)) := by
  have hcases : ∀ k' id, Function.update holds k (some built) k' = some id →
      k' = k ∧ id = built ∨ k' ≠ k ∧ holds k' = some id := by
    intro k' id hid
    by_cases hkk : k' = k
    · rw [hkk, Function.update_self, Option.some.injEq] at hid
      exact Or.inl ⟨hkk, hid.symm⟩
    · rw [Function.update_of_ne hkk] at hid
      exact Or.inr ⟨hkk, hid⟩
  constructor
  case lt =>
    intro k' id hid
    rcases hcases k' id hid with ⟨-, rfl⟩ | ⟨-, hid⟩
    · exact Nat.lt_succ_self id
    · exact Nat.lt_succ_of_lt (h.lt k' id hid)
  case unique =>
    intro k1 k2 id h1 h2
    rcases hcases k1 id h1 with ⟨hk1, hid1⟩ | ⟨-, hold1⟩
    · rcases hcases k2 id h2 with ⟨hk2, -⟩ | ⟨-, hold2⟩
      · exact hk1.trans hk2.symm
      · exact absurd (h.lt k2 id hold2) (by omega)
    · rcases hcases k2 id h2 with ⟨-, hid2⟩ | ⟨-, hold2⟩
      · exact absurd (h.lt k1 id hold1) (by omega)
      · exact h.unique k1 k2 id hold1 hold2
  case not_freed =>
    intro k' id hid
    rcases hcases k' id hid with ⟨-, rfl⟩ | ⟨-, hid⟩
    · intro hmem
      exact absurd (h.freed_lt id hmem) (Nat.lt_irrefl id)
    · exact h.not_freed k' id hid
  case freed_lt => exact fun id hid => Nat.lt_succ_of_lt (h.freed_lt id hid)
  case nodup => exact h.nodup
  case covered =>
    intro id hid
    rcases Nat.lt_succ_iff_lt_or_eq.mp hid with hlt | rfl
    · rcases h.covered id hlt with hf | ⟨k', hk'⟩
      · exact Or.inl hf
      · refine Or.inr ⟨k', ?_⟩
        rw [Function.update_of_ne (by rintro rfl; simp [hk] at hk')]
        exact hk'
    · exact Or.inr ⟨k, Function.update_self ..⟩

/-- What a holder has goes to one that has nothing. -/
theorem move {k k' : κ} (hne : k ≠ k') (hk' : holds k' = none) :
    Accounts built freed (Function.update (Function.update holds k none) k' (holds k)) := by
  have hcases : ∀ i id,
      Function.update (Function.update holds k none) k' (holds k) i = some id →
      i = k' ∧ holds k = some id ∨ i ≠ k' ∧ i ≠ k ∧ holds i = some id := by
    intro i id hid
    by_cases hi' : i = k'
    · rw [hi', Function.update_self] at hid
      exact Or.inl ⟨hi', hid⟩
    · rw [Function.update_of_ne hi'] at hid
      by_cases hi : i = k
      · rw [hi, Function.update_self] at hid
        exact absurd hid (by simp)
      · rw [Function.update_of_ne hi] at hid
        exact Or.inr ⟨hi', hi, hid⟩
  constructor
  case lt =>
    intro i id hid
    rcases hcases i id hid with ⟨-, hid⟩ | ⟨-, -, hid⟩
    · exact h.lt k id hid
    · exact h.lt i id hid
  case unique =>
    intro i j id hi hj
    rcases hcases i id hi with ⟨hi', hki⟩ | ⟨-, hik, hold⟩
    · rcases hcases j id hj with ⟨hj', -⟩ | ⟨-, hjk, hold'⟩
      · exact hi'.trans hj'.symm
      · exact absurd (h.unique j k id hold' hki) hjk
    · rcases hcases j id hj with ⟨-, hkj⟩ | ⟨-, -, hold'⟩
      · exact absurd (h.unique i k id hold hkj) hik
      · exact h.unique i j id hold hold'
  case not_freed =>
    intro i id hid
    rcases hcases i id hid with ⟨-, hid⟩ | ⟨-, -, hid⟩
    · exact h.not_freed k id hid
    · exact h.not_freed i id hid
  case freed_lt => exact h.freed_lt
  case nodup => exact h.nodup
  case covered =>
    intro id hid
    rcases h.covered id hid with hf | ⟨i, hi⟩
    · exact Or.inl hf
    · right
      by_cases hik : i = k
      · exact ⟨k', by rw [Function.update_self, ← hik, hi]⟩
      · have hik' : i ≠ k' := by
          rintro rfl
          simp [hk'] at hi
        exact ⟨i, by rw [Function.update_of_ne hik', Function.update_of_ne hik, hi]⟩

/-- A holder frees what it has. -/
theorem free {k : κ} {id : Nat} (hk : holds k = some id) :
    Accounts built (id :: freed) (Function.update holds k none) := by
  have hcases : ∀ i id', Function.update holds k none i = some id' → i ≠ k ∧ holds i = some id' := by
    intro i id' hid
    by_cases hi : i = k
    · rw [hi, Function.update_self] at hid
      exact absurd hid (by simp)
    · rw [Function.update_of_ne hi] at hid
      exact ⟨hi, hid⟩
  constructor
  case lt => exact fun i id' hid => h.lt i id' (hcases i id' hid).2
  case unique => exact fun i j id' hi hj => h.unique i j id' (hcases i id' hi).2 (hcases j id' hj).2
  case not_freed =>
    intro i id' hid
    obtain ⟨hik, hi⟩ := hcases i id' hid
    rw [List.mem_cons, not_or]
    refine ⟨?_, h.not_freed i id' hi⟩
    rintro rfl
    exact hik (h.unique i k id' hi hk)
  case freed_lt =>
    intro id' hid
    rcases List.mem_cons.mp hid with rfl | hid
    · exact h.lt k id' hk
    · exact h.freed_lt id' hid
  case nodup => exact List.nodup_cons.mpr ⟨h.not_freed k id hk, h.nodup⟩
  case covered =>
    intro id' hid
    rcases h.covered id' hid with hf | ⟨i, hi⟩
    · exact Or.inl (List.mem_cons_of_mem _ hf)
    · by_cases hik : i = k
      · rw [hik, hk, Option.some.injEq] at hi
        exact Or.inl (hi ▸ List.mem_cons_self ..)
      · exact Or.inr ⟨i, by rw [Function.update_of_ne hik, hi]⟩

end Accounts

end Accounts

end Runs
