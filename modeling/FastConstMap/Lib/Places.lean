import Mathlib.Data.List.Forall2
import Mathlib.Logic.Function.Basic

/-!
# Traces, and places that hold values

A trace is a run of a transition system with the labels of its steps; a simulation between two systems
turns every trace of one into a trace of the other. The abstract system of this module is a set of places,
each of which holds a value or nothing: values are created, copied from place to place and forgotten, and
whatever some place holds was created before.
-/

namespace Places

/-! ## Traces -/

section Traces

variable {σ σ' α α' : Type}

/-- A run with the labels of its steps. -/
inductive Trace (step : σ → α → σ → Prop) : σ → List α → σ → Prop
  | nil (s : σ) : Trace step s [] s
  | snoc {s s₁ s₂ : σ} {as : List α} {a : α} : Trace step s as s₁ → step s₁ a s₂ →
      Trace step s (as ++ [a]) s₂

variable {step : σ → α → σ → Prop} {step' : σ' → α' → σ' → Prop} {s s₁ : σ} {as : List α}

/-- What every step keeps, a trace keeps. -/
theorem Trace.invariant {inv : σ → Prop} (h : Trace step s as s₁)
    (hstep : ∀ s a s', inv s → step s a s' → inv s') (hs : inv s) : inv s₁ := by
  induction h with
  | nil => exact hs
  | snoc _ hlast ih => exact hstep _ _ _ ih hlast

theorem Trace.append {s₂ : σ} {as' : List α} (h : Trace step s as s₁) (h' : Trace step s₁ as' s₂) :
    Trace step s (as ++ as') s₂ := by
  induction h' with
  | nil => rwa [List.append_nil]
  | snoc _ hlast ih =>
    rw [← List.append_assoc]
    exact ih.snoc hlast

/-- A forward simulation along an abstraction function: the steps of the first system are steps of the
second one, whose labels `rel` relates to theirs. -/
theorem Trace.simulate (inv : σ → Prop) {abs : σ → σ'} {rel : α → α' → Prop}
    (h : Trace step s as s₁) (hinv : ∀ s a s', inv s → step s a s' → inv s')
    (hsim : ∀ s a s', inv s → step s a s' → ∃ a', rel a a' ∧ step' (abs s) a' (abs s'))
    (hs : inv s) : ∃ as', List.Forall₂ rel as as' ∧ Trace step' (abs s) as' (abs s₁) := by
  induction h with
  | nil => exact ⟨[], List.Forall₂.nil, .nil _⟩
  | snoc hrun hlast ih =>
    obtain ⟨as', hrel, hrun'⟩ := ih
    obtain ⟨a', ha', hlast'⟩ := hsim _ _ _ (hrun.invariant hinv hs) hlast
    exact ⟨as' ++ [a'], List.rel_append hrel (.cons ha' .nil), .snoc hrun' hlast'⟩

end Traces

/-! ## Places -/

variable {κ V : Type} [DecidableEq κ]

/-- What can happen: nothing; a new value appears in a place; a value is copied; the values of some places
are lost; something outside the system puts a value into a place or removes it. -/
inductive Act (κ V : Type) where
  | skip
  | create (k : κ) (v : V)
  | copy (k k' : κ)
  | forget (ks : κ → Prop)
  | foreign (k : κ) (x : Option V)

/-- The steps of a set of places; `s k` is what the place `k` holds. -/
inductive Step : (κ → Option V) → Act κ V → (κ → Option V) → Prop
  | skip {s : κ → Option V} : Step s .skip s
  | create {s : κ → Option V} {k : κ} {v : V} : Step s (.create k v) (Function.update s k (some v))
  | copy {s : κ → Option V} {k k' : κ} {v : V} : s k = some v →
      Step s (.copy k k') (Function.update s k' (some v))
  | forget {s s' : κ → Option V} {ks : κ → Prop} : (∀ k, ks k → s' k = none) →
      (∀ k, ¬ ks k → s' k = s k) → Step s (.forget ks) s'
  | foreign {s : κ → Option V} {k : κ} {x : Option V} :
      Step s (.foreign k x) (Function.update s k x)

variable {s s₁ : κ → Option V} {as : List (Act κ V)} {a : Act κ V}

/-- A step other than a foreign one leaves only values that were held before, and the one that it
created. -/
theorem Step.held (h : Step s a s₁) (ha : ∀ k x, a ≠ .foreign k x) {k : κ} {v : V}
    (hv : s₁ k = some v) : (∃ k₀, s k₀ = some v) ∨ ∃ k₀, a = .create k₀ v := by
  cases h with
  | skip => exact Or.inl ⟨k, hv⟩
  | @create k' v' =>
    by_cases hk : k = k'
    · rw [hk, Function.update_self, Option.some.injEq] at hv
      exact Or.inr ⟨k', by rw [hv]⟩
    · rw [Function.update_of_ne hk] at hv
      exact Or.inl ⟨k, hv⟩
  | @copy k₁ k' v' hk₁ =>
    by_cases hk : k = k'
    · rw [hk, Function.update_self] at hv
      exact Or.inl ⟨k₁, hk₁.trans hv⟩
    · rw [Function.update_of_ne hk] at hv
      exact Or.inl ⟨k, hv⟩
  | @forget _ ks hlost hkept =>
    by_cases hk : ks k
    · rw [hlost k hk] at hv
      exact absurd hv (by simp)
    · exact Or.inl ⟨k, (hkept k hk) ▸ hv⟩
  | @foreign k' x => exact absurd rfl (ha k' x)

end Places
