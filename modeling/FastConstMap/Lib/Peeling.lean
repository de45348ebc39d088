import Mathlib.Data.List.Perm.Basic
import Mathlib.Data.List.Perm.Subperm
import Mathlib.Data.Fin.Basic
import Mathlib.Logic.Function.Basic
import Mathlib.Algebra.Group.Nat.Defs
import Mathlib.Tactic.Tauto

/-!
# Peeling 3-uniform hypergraphs

An edge `a : α` has the three vertices `pos a 0`, `pos a 1`, `pos a 2`. Peeling takes away an edge
that is alone at one of its vertices, as long as there is one; the edges taken away, newest first,
can then be solved one after the other, because the vertex that an edge was alone at belongs to no
edge taken away later. A vertex is described by tallies of the edges at it (their number, the XOR of
the edges, the XOR of the position numbers), and the tallies of a vertex with one edge are that edge.
-/

namespace Peeling

variable {α ν : Type} (pos : α → Fin 3 → ν)

/-- The edge `a` has the vertex `v`. -/
def Touches (a : α) (v : ν) : Prop := ∃ j, pos a j = v

/-! ## Peeling runs -/

/-- `Peels pos M S R`: peeling the edges `M` has taken away the edges on the stack `S` (newest first,
each with the number of the vertex it was alone at) and left the edges `R`. -/
inductive Peels (M : List α) : List (α × Fin 3) → List α → Prop where
  | start : Peels M [] M
  | step {S : List (α × Fin 3)} {R R' : List α} {a : α} {j : Fin 3} (h : Peels M S R)
      (hR : R.Perm (a :: R')) (hj : ∀ b ∈ R', ¬ Touches pos b (pos a j)) : Peels M ((a, j) :: S) R'

/-- A stack (newest first) in which no edge has the vertex that an older edge was alone at. -/
def ElimStack (S : List (α × Fin 3)) : Prop :=
  S.Pairwise fun newer older => ¬ Touches pos newer.1 (pos older.1 older.2)

variable {pos}

theorem Peels.perm {M : List α} {S : List (α × Fin 3)} {R : List α} (h : Peels pos M S R) :
    M.Perm (S.map Prod.fst ++ R) := by
  induction h with
  | start => exact List.Perm.refl _
  | step _ hR _ ih => exact ih.trans ((List.Perm.append_left _ hR).trans List.perm_middle)

/-- No edge that is left has a vertex that an edge of the stack was alone at. -/
theorem Peels.free {M : List α} {S : List (α × Fin 3)} {R : List α} (h : Peels pos M S R) :
    ∀ e ∈ S, ∀ b ∈ R, ¬ Touches pos b (pos e.1 e.2) := by
  induction h with
  | start => simp
  | step _ hR hj ih =>
    intro e he b hb
    rcases List.mem_cons.mp he with rfl | he
    · exact hj b hb
    · exact ih e he b (hR.mem_iff.mpr (List.mem_cons_of_mem _ hb))

theorem Peels.elim {M : List α} {S : List (α × Fin 3)} {R : List α} (h : Peels pos M S R) :
    ElimStack pos S := by
  induction h with
  | start => exact List.Pairwise.nil
  | step h hR _ ih =>
    refine List.Pairwise.cons ?_ ih
    intro e he
    exact h.free e he _ (hR.mem_iff.mpr (List.mem_cons_self ..))

/-- The edges of such a stack are distinct: an edge has its own vertices. -/
theorem ElimStack.nodup {S : List (α × Fin 3)} (h : ElimStack pos S) : (S.map Prod.fst).Nodup := by
  unfold List.Nodup
  rw [List.pairwise_map]
  exact h.imp fun {a b} hab heq => hab ⟨b.2, by rw [heq]⟩

theorem add_one_ne : ∀ j : Fin 3, j + 1 ≠ j := by decide

theorem add_two_ne : ∀ j : Fin 3, j + 2 ≠ j := by decide

/-! ## Back substitution -/

section Solve

variable {G : Type} [DecidableEq ν] (op : G → G → G) (rhs : α → G)

/-- The assignment of one edge: the vertex `pos a j` gets what makes the three values of the edge
combine to `rhs a`. -/
def assign (pos : α → Fin 3 → ν) (x : ν → G) (e : α × Fin 3) : ν → G :=
  Function.update x (pos e.1 e.2)
    (op (op (rhs e.1) (x (pos e.1 (e.2 + 1)))) (x (pos e.1 (e.2 + 2))))

/-- The combination of the values of an edge. -/
def combine (pos : α → Fin 3 → ν) (x : ν → G) (a : α) : G :=
  op (op (x (pos a 0)) (x (pos a 1))) (x (pos a 2))

variable [hassoc : Std.Associative op] [hcomm : Std.Commutative op]

omit [DecidableEq ν] in
/-- The values of an edge can be combined starting at any of its vertices. -/
theorem combine_rotate (x : ν → G) (a : α) (j : Fin 3) :
    combine op pos x a = op (op (x (pos a j)) (x (pos a (j + 1)))) (x (pos a (j + 2))) := by
  unfold combine
  match j with
  | 0 => rfl
  | 1 =>
    show op (op (x (pos a 0)) (x (pos a 1))) (x (pos a 2)) =
      op (op (x (pos a 1)) (x (pos a 2))) (x (pos a 0))
    ac_rfl
  | 2 =>
    show op (op (x (pos a 0)) (x (pos a 1))) (x (pos a 2)) =
      op (op (x (pos a 2)) (x (pos a 0))) (x (pos a 1))
    ac_rfl

theorem combine_assign_self (hself : ∀ a b, op a (op a b) = b) (x : ν → G) (e : α × Fin 3)
    (hinj : Function.Injective (pos e.1)) :
    combine op pos (assign op rhs pos x e) e.1 = rhs e.1 := by
  have hne : ∀ i, i ≠ e.2 → assign op rhs pos x e (pos e.1 i) = x (pos e.1 i) := fun i hi =>
    Function.update_of_ne (fun h => hi (hinj h)) _ _
  have heq : assign op rhs pos x e (pos e.1 e.2) =
      op (op (rhs e.1) (x (pos e.1 (e.2 + 1)))) (x (pos e.1 (e.2 + 2))) := Function.update_self ..
  -- Each of the two other values meets itself and cancels.
  have hcancel : ∀ r y z : G, op (op (op (op r y) z) y) z = r := by
    intro r y z
    have h1 : op (op (op (op r y) z) y) z = op z (op z (op y (op y r))) := by ac_rfl
    rw [h1, hself, hself]
  rw [combine_rotate op _ _ e.2, heq, hne _ (add_one_ne e.2),
    hne _ (add_two_ne e.2)]
  exact hcancel _ _ _

omit hassoc hcomm in
theorem combine_assign_of_not_touches (x : ν → G) (e : α × Fin 3) (b : α)
    (hb : ¬ Touches pos b (pos e.1 e.2)) :
    combine op pos (assign op rhs pos x e) b = combine op pos x b := by
  have h : ∀ i, assign op rhs pos x e (pos b i) = x (pos b i) := fun i =>
    Function.update_of_ne (fun h => hb ⟨i, h⟩) _ _
  simp only [combine, h]

/-- Assigning the edges of the stack, newest first, solves all of them. -/
theorem combine_foldl_assign (hself : ∀ a b, op a (op a b) = b) {S : List (α × Fin 3)}
    (hS : ElimStack pos S) (hinj : ∀ e ∈ S, Function.Injective (pos e.1)) (x : ν → G) :
    ∀ e ∈ S, combine op pos (S.foldl (assign op rhs pos) x) e.1 = rhs e.1 := by
  -- What the assignments after an edge leave alone, they leave solved.
  have hkeep : ∀ (S : List (α × Fin 3)) (x : ν → G) (b : α),
      (∀ e ∈ S, ¬ Touches pos b (pos e.1 e.2)) →
      combine op pos (S.foldl (assign op rhs pos) x) b = combine op pos x b := by
    intro S
    induction S with
    | nil => intro x b _; rfl
    | cons e S ih =>
      intro x b hb
      rw [List.foldl_cons, ih _ b fun e' he' => hb e' (List.mem_cons_of_mem _ he')]
      exact combine_assign_of_not_touches op rhs x e b (hb e (List.mem_cons_self ..))
  induction S generalizing x with
  | nil => simp
  | cons e S ih =>
    obtain ⟨hnew, hS'⟩ := List.pairwise_cons.mp hS
    intro e' he'
    rw [List.foldl_cons]
    rcases List.mem_cons.mp he' with rfl | he'
    · rw [hkeep S _ e'.1 hnew]
      exact combine_assign_self op rhs hself x e' (hinj e' (List.mem_cons_self ..))
    · exact ih hS' (fun e'' h => hinj e'' (List.mem_cons_of_mem _ h)) _ e' he'

/-- Back substitution is linear: the combination of two right-hand sides gives the combination of the two
results. -/
theorem foldl_assign_op (rhs' : α → G) (S : List (α × Fin 3)) (x x' : ν → G) :
    S.foldl (assign op (fun a => op (rhs a) (rhs' a)) pos) (fun v => op (x v) (x' v)) =
      fun v => op (S.foldl (assign op rhs pos) x v) (S.foldl (assign op rhs' pos) x' v) := by
  induction S generalizing x x' with
  | nil => rfl
  | cons e S ih =>
    have hassign : assign op (fun a => op (rhs a) (rhs' a)) pos (fun v => op (x v) (x' v)) e =
        fun v => op (assign op rhs pos x e v) (assign op rhs' pos x' e v) := by
      funext v
      by_cases hv : v = pos e.1 e.2
      · subst hv
        simp only [assign, Function.update_self]
        ac_rfl
      · simp only [assign, Function.update_of_ne hv]
    rw [List.foldl_cons, hassign, ih, List.foldl_cons, List.foldl_cons]

omit hassoc hcomm in
/-- A map that keeps combinations takes the result to the result for the mapped right-hand sides. -/
theorem foldl_assign_map {G' : Type} (op' : G' → G' → G') (g : G → G')
    (hg : ∀ a b, g (op a b) = op' (g a) (g b)) (S : List (α × Fin 3)) (x : ν → G) :
    (fun v => g (S.foldl (assign op rhs pos) x v)) =
      S.foldl (assign op' (fun a => g (rhs a)) pos) fun v => g (x v) := by
  induction S generalizing x with
  | nil => rfl
  | cons e S ih =>
    have hassign : (fun v => g (assign op rhs pos x e v)) =
        assign op' (fun a => g (rhs a)) pos (fun v => g (x v)) e := by
      funext v
      by_cases hv : v = pos e.1 e.2
      · subst hv
        simp only [assign, Function.update_self, hg]
      · simp only [assign, Function.update_of_ne hv]
    rw [List.foldl_cons, List.foldl_cons, ← hassign, ih]

omit hassoc hcomm in
theorem foldl_assign_congr {rhs' : α → G} {S : List (α × Fin 3)} (h : ∀ e ∈ S, rhs e.1 = rhs' e.1)
    (x : ν → G) : S.foldl (assign op rhs pos) x = S.foldl (assign op rhs' pos) x := by
  refine List.foldl_ext _ _ _ ?_
  intro y e he
  rw [assign, assign, h e he]

omit hassoc hcomm in
/-- A vertex that no edge of the stack was alone at keeps its value. -/
theorem foldl_assign_of_ne {S : List (α × Fin 3)} {v : ν} (h : ∀ e ∈ S, pos e.1 e.2 ≠ v)
    (x : ν → G) : S.foldl (assign op rhs pos) x v = x v := by
  induction S generalizing x with
  | nil => rfl
  | cons e S ih =>
    rw [List.foldl_cons, ih fun e' he' => h e' (List.mem_cons_of_mem _ he'), assign,
      Function.update_of_ne (h e (List.mem_cons_self ..)).symm]

end Solve

/-- The vertices that the edges of a stack were alone at are distinct. -/
theorem ElimStack.nodup_alone {S : List (α × Fin 3)} (h : ElimStack pos S) :
    (S.map fun e => pos e.1 e.2).Nodup := by
  unfold List.Nodup
  rw [List.pairwise_map]
  exact h.imp fun {a b} hab heq => hab ⟨a.2, heq⟩

/-! ## Tallies -/

section Tally

variable [DecidableEq ν] (pos)

/-- The number under which the edge `a` has the vertex `v`. -/
def posNumber (a : α) (v : ν) : Option (Fin 3) :=
  if pos a 0 = v then some 0 else if pos a 1 = v then some 1 else if pos a 2 = v then some 2 else none

variable {β : Type}

/-- The combination of `f a j` over the edges `a` at `v`, `j` being the number of `v` in `a`. -/
def tally (op : β → β → β) (e : β) (f : α → Fin 3 → β) (R : List α) (v : ν) : β :=
  R.foldr (fun a acc => match posNumber pos a v with
    | some j => op (f a j) acc
    | none => acc) e

/-- The number of edges at `v`. -/
def degree (R : List α) (v : ν) : Nat := tally pos (· + ·) 0 (fun _ _ => 1) R v

variable {pos}

theorem posNumber_eq_none {a : α} {v : ν} : posNumber pos a v = none ↔ ¬ Touches pos a v := by
  unfold posNumber Touches
  rw [Fin.exists_fin_succ, Fin.exists_fin_two]
  split_ifs with h0 h1 h2 <;> simp_all

theorem pos_of_posNumber {a : α} {v : ν} {j : Fin 3} (h : posNumber pos a v = some j) :
    pos a j = v := by
  unfold posNumber at h
  split_ifs at h with h0 h1 h2 <;> cases h <;> assumption

theorem posNumber_pos {a : α} (hinj : Function.Injective (pos a)) (j : Fin 3) :
    posNumber pos a (pos a j) = some j := by
  cases h : posNumber pos a (pos a j) with
  | none => exact absurd ⟨j, rfl⟩ (posNumber_eq_none.mp h)
  | some i => rw [hinj (pos_of_posNumber h)]

section

variable {op : β → β → β} {e : β} {f : α → Fin 3 → β}

@[simp] theorem tally_nil (v : ν) : tally pos op e f [] v = e := rfl

theorem tally_cons_of_posNumber {a : α} {v : ν} {j : Fin 3} (h : posNumber pos a v = some j)
    (R : List α) : tally pos op e f (a :: R) v = op (f a j) (tally pos op e f R v) := by
  simp only [tally, List.foldr_cons, h]

theorem tally_cons_of_not_touches {a : α} {v : ν} (h : ¬ Touches pos a v) (R : List α) :
    tally pos op e f (a :: R) v = tally pos op e f R v := by
  simp only [tally, List.foldr_cons, posNumber_eq_none.mpr h]

/-- A tally does not depend on the order of the edges. -/
theorem tally_perm [hassoc : Std.Associative op] [hcomm : Std.Commutative op] {R R' : List α}
    (h : R.Perm R') (v : ν) : tally pos op e f R v = tally pos op e f R' v := by
  have hlc : LeftCommutative fun (a : α) (acc : β) => match posNumber pos a v with
      | some j => op (f a j) acc
      | none => acc := ⟨by
    intro a b acc
    cases posNumber pos a v <;> cases posNumber pos b v <;> simp only
    ac_rfl⟩
  exact h.foldr_eq e

theorem tally_of_untouched {R : List α} {v : ν} (h : ∀ a ∈ R, ¬ Touches pos a v) :
    tally pos op e f R v = e := by
  induction R with
  | nil => rfl
  | cons a R ih =>
    rw [tally_cons_of_not_touches (h a (List.mem_cons_self ..))]
    exact ih fun b hb => h b (List.mem_cons_of_mem _ hb)

end

@[simp] theorem degree_nil (v : ν) : degree pos [] v = 0 := rfl

theorem degree_cons_of_touches {a : α} {v : ν} (h : Touches pos a v) (R : List α) :
    degree pos (a :: R) v = degree pos R v + 1 := by
  obtain ⟨j, hj⟩ : ∃ j, posNumber pos a v = some j := by
    cases hn : posNumber pos a v with
    | none => exact absurd h (posNumber_eq_none.mp hn)
    | some j => exact ⟨j, rfl⟩
  unfold degree
  rw [tally_cons_of_posNumber hj]
  omega

theorem degree_cons_of_not_touches {a : α} {v : ν} (h : ¬ Touches pos a v) (R : List α) :
    degree pos (a :: R) v = degree pos R v := tally_cons_of_not_touches h R

theorem degree_le_cons (a : α) (R : List α) (v : ν) : degree pos R v ≤ degree pos (a :: R) v := by
  by_cases h : Touches pos a v
  · rw [degree_cons_of_touches h]
    exact Nat.le_succ _
  · exact Nat.le_of_eq (degree_cons_of_not_touches h R).symm

theorem degree_perm {R R' : List α} (h : R.Perm R') (v : ν) : degree pos R v = degree pos R' v :=
  tally_perm h v

theorem degree_eq_zero {R : List α} {v : ν} :
    degree pos R v = 0 ↔ ∀ a ∈ R, ¬ Touches pos a v := by
  induction R with
  | nil => simp
  | cons a R ih =>
    by_cases h : Touches pos a v
    · rw [degree_cons_of_touches h]
      simp [h]
    · rw [degree_cons_of_not_touches h, ih]
      simp [h]

theorem degree_le_length (R : List α) (v : ν) : degree pos R v ≤ R.length := by
  induction R with
  | nil => exact Nat.le_refl 0
  | cons a R ih =>
    rw [List.length_cons]
    by_cases h : Touches pos a v
    · rw [degree_cons_of_touches h]
      exact Nat.succ_le_succ ih
    · rw [degree_cons_of_not_touches h]
      exact Nat.le_succ_of_le ih

theorem degree_le_append (R R' : List α) (v : ν) : degree pos R v ≤ degree pos (R ++ R') v := by
  induction R with
  | nil => exact Nat.zero_le _
  | cons a R ih =>
    rw [List.cons_append]
    by_cases h : Touches pos a v
    · rw [degree_cons_of_touches h, degree_cons_of_touches h]
      exact Nat.succ_le_succ ih
    · rw [degree_cons_of_not_touches h, degree_cons_of_not_touches h]
      exact ih

/-- Edges that can be told apart by `f` are at a vertex at most once for each value that `f` has on the
edges there. -/
theorem degree_le_of_nodup_map {γ : Type} [DecidableEq γ] {f : α → γ} {R : List α} {v : ν}
    {values : List γ} (hnodup : (R.map f).Nodup) (h : ∀ a ∈ R, Touches pos a v → f a ∈ values) :
    degree pos R v ≤ values.length := by
  induction R generalizing values with
  | nil => exact Nat.zero_le _
  | cons a R ih =>
    rw [List.map_cons, List.nodup_cons] at hnodup
    by_cases ht : Touches pos a v
    · have ha := h a (List.mem_cons_self ..) ht
      have hpos : 0 < values.length := List.length_pos_of_mem ha
      have hrest : ∀ b ∈ R, Touches pos b v → f b ∈ values.erase (f a) := by
        intro b hb htb
        have hne : f b ≠ f a := by
          intro heq
          exact hnodup.1 (heq ▸ List.mem_map_of_mem hb)
        exact (List.mem_erase_of_ne hne).mpr (h b (List.mem_cons_of_mem a hb) htb)
      have hle := ih hnodup.2 hrest
      rw [List.length_erase_of_mem ha] at hle
      rw [degree_cons_of_touches ht]
      omega
    · rw [degree_cons_of_not_touches ht]
      exact ih hnodup.2 fun b hb => h b (List.mem_cons_of_mem a hb)

/-- One of the edges at a vertex. -/
theorem exists_of_degree_succ {R : List α} {v : ν} {n : Nat} (h : degree pos R v = n + 1) :
    ∃ a j R', R.Perm (a :: R') ∧ pos a j = v ∧ degree pos R' v = n := by
  have hex : ∃ a ∈ R, Touches pos a v := by
    by_contra hno
    push Not at hno
    rw [degree_eq_zero.mpr hno] at h
    exact absurd h (Nat.succ_ne_zero n).symm
  obtain ⟨a, ha, j, hj⟩ := hex
  obtain ⟨s, t, rfl⟩ := List.append_of_mem ha
  refine ⟨a, j, s ++ t, List.perm_middle, hj, ?_⟩
  rw [degree_perm List.perm_middle, degree_cons_of_touches ⟨j, hj⟩] at h
  exact Nat.succ_inj.mp h

/-- A vertex of degree 1 has one edge, and no other edge touches it. -/
theorem exists_of_degree_one {R : List α} {v : ν} (h : degree pos R v = 1) :
    ∃ a j R', R.Perm (a :: R') ∧ pos a j = v ∧ ∀ b ∈ R', ¬ Touches pos b v := by
  obtain ⟨a, j, R', hperm, hj, h0⟩ := exists_of_degree_succ h
  exact ⟨a, j, R', hperm, hj, degree_eq_zero.mp h0⟩

end Tally

/-! ## Elimination orders -/

section Order

variable (pos) in
/-- Each edge of the list has a vertex that no later edge has. -/
def Eliminates : List α → Prop
  | [] => True
  | a :: l => (∃ j, ∀ b ∈ l, ¬ Touches pos b (pos a j)) ∧ Eliminates l

theorem Eliminates.nodup {l : List α} (h : Eliminates pos l) : l.Nodup := by
  induction l with
  | nil => exact List.nodup_nil
  | cons a l ih =>
    obtain ⟨⟨j, hj⟩, hl⟩ := h
    exact List.nodup_cons.mpr ⟨fun ha => hj a ha ⟨j, rfl⟩, ih hl⟩

/-- A stack, oldest edge first, is an elimination order. -/
theorem ElimStack.eliminates {S : List (α × Fin 3)} (h : ElimStack pos S) :
    Eliminates pos (S.reverse.map Prod.fst) := by
  have hpair : ∀ T : List (α × Fin 3),
      T.Pairwise (fun older newer => ¬ Touches pos newer.1 (pos older.1 older.2)) →
      Eliminates pos (T.map Prod.fst) := by
    intro T hT
    induction T with
    | nil => exact trivial
    | cons e T ih =>
      obtain ⟨he, hT⟩ := List.pairwise_cons.mp hT
      refine ⟨⟨e.2, ?_⟩, ih hT⟩
      intro b hb
      obtain ⟨e', he', rfl⟩ := List.mem_map.mp hb
      exact he e' he'
  exact hpair S.reverse (List.pairwise_reverse.mpr h)

variable [DecidableEq ν]

/-- Edges that can be eliminated, in whatever order, are not all left when no vertex has exactly one
of them: the first of them in the order is alone at one of its vertices. -/
theorem Eliminates.eq_nil {l R : List α} (h : Eliminates pos l) (hnodup : R.Nodup) (hsub : R ⊆ l)
    (hstuck : ∀ v, degree pos R v ≠ 1) : R = [] := by
  induction l with
  | nil => exact List.subset_nil.mp hsub
  | cons a l ih =>
    obtain ⟨⟨j, hj⟩, hl⟩ := h
    by_cases ha : a ∈ R
    · obtain ⟨s, t, rfl⟩ := List.append_of_mem ha
      have hperm : (s ++ a :: t).Perm (a :: (s ++ t)) := List.perm_middle
      have hrest : ∀ b ∈ s ++ t, ¬ Touches pos b (pos a j) := by
        intro b hb
        have hne : b ≠ a := by
          rintro rfl
          exact (List.nodup_cons.mp (hperm.nodup_iff.mp hnodup)).1 hb
        have hmem := hsub (hperm.mem_iff.mpr (List.mem_cons_of_mem a hb))
        exact hj b ((List.mem_cons.mp hmem).resolve_left hne)
      refine absurd ?_ (hstuck (pos a j))
      rw [degree_perm hperm, degree_cons_of_touches ⟨j, rfl⟩, degree_eq_zero.mpr hrest]
    · refine ih hl ?_
      intro b hb
      refine (List.mem_cons.mp (hsub hb)).resolve_left ?_
      rintro rfl
      exact ha hb

/-- Peeling is complete: when it gets stuck, no edge is left exactly if the edges have an elimination
order, so its choices do not matter. -/
theorem Peels.rest_eq_nil_iff {M : List α} {S : List (α × Fin 3)} {R : List α}
    (h : Peels pos M S R) (hstuck : ∀ v, degree pos R v ≠ 1) :
    R = [] ↔ ∃ order, order.Perm M ∧ Eliminates pos order := by
  have hperm := h.perm
  constructor
  · rintro rfl
    rw [List.append_nil] at hperm
    refine ⟨S.reverse.map Prod.fst, ?_, h.elim.eliminates⟩
    rw [List.map_reverse]
    exact (List.reverse_perm _).trans hperm.symm
  · rintro ⟨order, horder, helim⟩
    refine helim.eq_nil ?_ ?_ hstuck
    · have hnodup := (horder.trans hperm).nodup_iff.mp helim.nodup
      exact (List.nodup_append.mp hnodup).2.1
    · intro b hb
      exact (horder.trans hperm).mem_iff.mpr (List.mem_append_right _ hb)

end Order

end Peeling
