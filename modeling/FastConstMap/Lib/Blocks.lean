import FastConstMap.Lib.Loops
import FastConstMap.Lib.Slices
import Mathlib.Algebra.Order.Ring.Nat

/-!
# Lists in blocks

A list is cut into full blocks of one length and a rest that is shorter. A fold over the blocks can be
computed by a loop over offsets, and piece by piece when the list arrives in pieces.
-/

namespace Blocks

open CLoop Slices

variable {α β σ : Type} {n : Nat}

/-- The full blocks of `n` entries. -/
def full (n : Nat) (l : List α) : List (List α) :=
  (List.range (l.length / n)).map fun i => slice l (i * n) n

/-- The entries after the last full block. -/
def rest (n : Nat) (l : List α) : List α := l.drop (l.length / n * n)

theorem length_rest (l : List α) : (rest n l).length = l.length % n := by
  have h := Nat.div_add_mod' l.length n
  rw [rest, List.length_drop]
  omega

theorem length_rest_lt (hn : 0 < n) (l : List α) : (rest n l).length < n := by
  rw [length_rest]
  exact Nat.mod_lt _ hn

theorem full_of_lt {l : List α} (h : l.length < n) : full n l = [] := by
  rw [full, Nat.div_eq_of_lt h]
  rfl

theorem rest_of_lt {l : List α} (h : l.length < n) : rest n l = l := by
  rw [rest, Nat.div_eq_of_lt h, Nat.zero_mul, List.drop_zero]

/-- A list with room for one block only. -/
theorem full_of_lt_two {l : List α} (h : n ≤ l.length) (hlt : l.length < n + n) :
    full n l = [slice l 0 n] := by
  have hdiv : l.length / n = 1 := Nat.div_eq_of_lt_le (by omega) (by omega)
  rw [full, hdiv, List.range_one, List.map_singleton, Nat.zero_mul]

/-- Blocks in front do not change the cut. -/
theorem full_append_of_dvd (hn : 0 < n) {l : List α} (h : n ∣ l.length) (m : List α) :
    full n (l ++ m) = full n l ++ full n m := by
  obtain ⟨k, hk⟩ := h
  have hdiv : (l ++ m).length / n = k + m.length / n := by
    rw [List.length_append, hk, Nat.mul_add_div hn]
  rw [full, full, full, hdiv, hk, Nat.mul_div_cancel_left k hn, List.range_add, List.map_append,
    List.map_map]
  congr 1
  · refine List.map_congr_left ?_
    intro i hi
    have hle : i * n + n ≤ l.length := by
      rw [hk, ← Nat.succ_mul, Nat.mul_comm]
      exact Nat.mul_le_mul_left n (List.mem_range.mp hi)
    rw [slice, slice, List.drop_append_of_le_length (by omega),
      List.take_append_of_le_length (by rw [List.length_drop]; omega)]
  · refine List.map_congr_left ?_
    intro i _
    show slice (l ++ m) ((k + i) * n) n = slice m (i * n) n
    rw [Nat.add_mul, Nat.mul_comm k n]
    exact slice_append_add hk m (i * n) n

theorem rest_append_of_dvd (hn : 0 < n) {l : List α} (h : n ∣ l.length) (m : List α) :
    rest n (l ++ m) = rest n m := by
  obtain ⟨k, hk⟩ := h
  have hdiv : (l ++ m).length / n = k + m.length / n := by
    rw [List.length_append, hk, Nat.mul_add_div hn]
  rw [rest, rest, hdiv, Nat.add_mul, Nat.mul_comm k n, ← hk, ← List.drop_drop, List.drop_left]

/-- The full blocks and the rest make up the list. -/
theorem dvd_and_append_rest (n : Nat) (l : List α) :
    ∃ x, n ∣ x.length ∧ l = x ++ rest n l ∧ full n x = full n l := by
  rcases Nat.eq_zero_or_pos n with rfl | hn
  · exact ⟨[], Nat.dvd_zero 0, by simp [rest], by simp [full]⟩
  have hlen : (l.take (l.length / n * n)).length = l.length / n * n := by
    rw [List.length_take]
    exact Nat.min_eq_left (Nat.div_mul_le_self _ _)
  have hdvd : n ∣ (l.take (l.length / n * n)).length := by
    rw [hlen]
    exact Nat.dvd_mul_left n _
  refine ⟨_, hdvd, (List.take_append_drop _ _).symm, ?_⟩
  conv_rhs => rw [← List.take_append_drop (l.length / n * n) l, full_append_of_dvd hn hdvd]
  rw [show full n (l.drop (l.length / n * n)) = [] from full_of_lt (length_rest_lt hn l),
    List.append_nil]

/-- A block in front is the first block. -/
theorem full_block_append (hn : 0 < n) {b : List α} (hb : b.length = n) (l : List α) :
    full n (b ++ l) = b :: full n l := by
  have hone : full n b = [b] := by
    rw [full, hb, Nat.div_self hn, List.range_one, List.map_singleton, Nat.zero_mul, slice_zero, ← hb,
      List.take_length]
  rw [full_append_of_dvd hn (hb ▸ dvd_rfl), hone, List.singleton_append]

/-- What a list adds to the blocks of another one that it follows. -/
theorem full_append (hn : 0 < n) (l m : List α) :
    full n (l ++ m) = full n l ++ full n (rest n l ++ m) := by
  obtain ⟨x, hdvd, hl, hfull⟩ := dvd_and_append_rest n l
  conv_lhs => rw [hl, List.append_assoc, full_append_of_dvd hn hdvd]
  rw [hfull]

theorem rest_append (hn : 0 < n) (l m : List α) : rest n (l ++ m) = rest n (rest n l ++ m) := by
  obtain ⟨x, hdvd, hl, -⟩ := dvd_and_append_rest n l
  conv_lhs => rw [hl, List.append_assoc, rest_append_of_dvd hn hdvd]

/-! ## Loops over the blocks -/

/-- The fold over the first `k` blocks. -/
def foldBlocks (n : Nat) (f : β → List α → β) (x : β) (l : List α) (k : Nat) : β :=
  ((List.range k).map fun i => slice l (i * n) n).foldl f x

theorem foldBlocks_succ (f : β → List α → β) (x : β) (l : List α) (k : Nat) :
    foldBlocks n f x l (k + 1) = f (foldBlocks n f x l k) (slice l (k * n) n) := by
  rw [foldBlocks, List.range_succ, List.map_append, List.map_singleton, List.foldl_append,
    List.foldl_cons, List.foldl_nil, foldBlocks]

/-- The rule of `while` for a loop that takes one block at each pass; `repr k x` says of a state that it
stands for the fold `x` over `k` blocks. -/
theorem loop_while {body : σ → Option (Ctl σ)} {l : List α} {f : β → List α → β} {x : β}
    (repr : Nat → β → σ → Prop)
    (hnext : ∀ k x s, k < l.length / n → repr k x s →
      ∃ s', body s = some (.next s') ∧ repr (k + 1) (f x (slice l (k * n) n)) s')
    (hstop : ∀ x s, repr (l.length / n) x s → body s = some (.stop s))
    {fuel : Nat} {s : σ} (h0 : repr 0 x s) (hf : l.length / n < fuel) :
    ∃ s', loop body fuel s = some s' ∧ repr (l.length / n) ((full n l).foldl f x) s' := by
  have hfold : ∀ d k, l.length / n = k + d → ∀ s, repr k (foldBlocks n f x l k) s → ∀ fuel,
      d < fuel → ∃ s', loop body fuel s = some s' ∧
        repr (l.length / n) (foldBlocks n f x l (l.length / n)) s' := by
    intro d
    induction d with
    | zero =>
      intro k hk s hs fuel hfuel
      obtain ⟨fuel, rfl⟩ := Nat.exists_eq_add_of_lt hfuel
      rw [Nat.add_zero] at hk
      rw [← hk] at hs
      exact ⟨s, by simp only [loop, hstop _ s hs], hs⟩
    | succ d ih =>
      intro k hk s hs fuel hfuel
      obtain ⟨fuel, rfl⟩ := Nat.exists_eq_add_of_lt hfuel
      obtain ⟨s1, hb, h1⟩ := hnext k _ s (by omega) hs
      rw [← foldBlocks_succ f x l] at h1
      obtain ⟨s', hloop, h'⟩ := ih (k + 1) (by omega) s1 h1 (d + 1 + fuel) (by omega)
      exact ⟨s', by simp only [loop, hb, hloop], h'⟩
  exact hfold _ 0 (Nat.zero_add _).symm s h0 fuel hf

/-- The same rule for `do … while`, of a list with at least one block. -/
theorem loop_doWhile {body : σ → Option (Ctl σ)} {l : List α} {f : β → List α → β} {x : β}
    (repr : Nat → β → σ → Prop) (hpos : 0 < l.length / n)
    (hpass : ∀ k x s, k < l.length / n → repr k x s →
      ∃ s', body s = some (if k + 1 < l.length / n then .next s' else .stop s') ∧
        repr (k + 1) (f x (slice l (k * n) n)) s')
    {fuel : Nat} {s : σ} (h0 : repr 0 x s) (hf : l.length / n ≤ fuel) :
    ∃ s', loop body fuel s = some s' ∧ repr (l.length / n) ((full n l).foldl f x) s' := by
  have hfold : ∀ d k, l.length / n = k + (d + 1) → ∀ s, repr k (foldBlocks n f x l k) s → ∀ fuel,
      d < fuel → ∃ s', loop body fuel s = some s' ∧
        repr (l.length / n) (foldBlocks n f x l (l.length / n)) s' := by
    intro d
    induction d with
    | zero =>
      intro k hk s hs fuel hfuel
      obtain ⟨fuel, rfl⟩ := Nat.exists_eq_add_of_lt hfuel
      obtain ⟨s1, hb, h1⟩ := hpass k _ s (by omega) hs
      rw [if_neg (by omega)] at hb
      rw [← foldBlocks_succ f x l] at h1
      rw [hk]
      exact ⟨s1, by simp only [loop, hb], h1⟩
    | succ d ih =>
      intro k hk s hs fuel hfuel
      obtain ⟨fuel, rfl⟩ := Nat.exists_eq_add_of_lt hfuel
      obtain ⟨s1, hb, h1⟩ := hpass k _ s (by omega) hs
      rw [if_pos (by omega)] at hb
      rw [← foldBlocks_succ f x l] at h1
      obtain ⟨s', hloop, h'⟩ := ih (k + 1) (by omega) s1 h1 (d + 1 + fuel) (by omega)
      exact ⟨s', by simp only [loop, hb, hloop], h'⟩
  exact hfold (l.length / n - 1) 0 (by omega) s h0 fuel (by omega)

/-! ## Arrays in blocks -/

/-- A loop that replaces the entries of one block at each pass, by `g` of the index and the entry. -/
theorem forUp_blocks {body : Nat → List α → Option (List α)} {len hi : Nat} {g : Nat → α → α}
    (lo count : Nat) (hhi : lo + count = hi)
    (hstep : ∀ i, lo ≤ i → i < hi → ∀ s f, Holds s len f → ∃ s', body i s = some s' ∧
      Holds s' len fun j => if j / n = i then g j (f j) else f j)
    {s : List α} {f : Nat → α} (h : Holds s len f) :
    ∃ s', forUp body lo count s = some s' ∧
      Holds s' len fun j => if lo ≤ j / n ∧ j / n < hi then g j (f j) else f j := by
  refine forUp_spec (fun i s => Holds s len fun j => if lo ≤ j / n ∧ j / n < i then g j (f j) else f j)
    hhi ?_ (h.congr fun j _ => (if_neg (by omega)).symm)
  intro i s hlo hlt hs
  obtain ⟨s', hb, hs'⟩ := hstep i hlo hlt s _ hs
  refine ⟨s', hb, hs'.congr ?_⟩
  intro j _
  by_cases hj : j / n = i
  · rw [if_pos hj, if_neg (by omega), if_pos (by omega)]
  · rw [if_neg hj]
    exact if_congr (by omega) rfl rfl

end Blocks
