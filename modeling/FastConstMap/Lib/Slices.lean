import Mathlib.Data.List.Basic
import Mathlib.Data.List.Flatten

/-!
# Slices of a list

`slice l off len` are the `len` entries from `off` on, fewer when the list ends before. A list is the
concatenation of consecutive slices, and encodings of a fixed length per entry can be taken apart
again by slicing.
-/

namespace Slices

variable {α β : Type}

/-- The entries `l[off..off + len)`. -/
def slice (l : List α) (off len : Nat) : List α := (l.drop off).take len

theorem length_slice {l : List α} {off len : Nat} (h : off + len ≤ l.length) :
    (slice l off len).length = len := by
  rw [slice, List.length_take, List.length_drop]
  omega

/-- A slice of full length ends within the list. -/
theorem le_of_length_slice {l : List α} {off len : Nat} (hlen : 0 < len)
    (h : (slice l off len).length = len) : off + len ≤ l.length := by
  rw [slice, List.length_take, List.length_drop] at h
  omega

theorem take_add_slice (l : List α) (a b : Nat) : l.take (a + b) = l.take a ++ slice l a b :=
  List.take_add

theorem slice_add (l : List α) (off a b : Nat) :
    slice l off (a + b) = slice l off a ++ slice l (off + a) b := by
  rw [slice, List.take_add, List.drop_drop, slice, slice]

theorem slice_zero (l : List α) (len : Nat) : slice l 0 len = l.take len := rfl

/-- A slice of a slice. -/
theorem slice_slice (l : List α) (off : Nat) {n i len : Nat} (h : i + len ≤ n) :
    slice (slice l off n) i len = slice l (off + i) len := by
  rw [slice, slice, List.drop_take, List.drop_drop, List.take_take, Nat.min_eq_left (by omega), slice]

/-- A slice without its first entries. -/
theorem drop_slice (l : List α) (off len n : Nat) :
    (slice l off len).drop n = slice l (off + n) (len - n) := by
  rw [slice, List.drop_take, List.drop_drop, slice]

/-- A slice past a first part of known length. -/
theorem slice_append_add {x : List α} {k : Nat} (h : x.length = k) (y : List α) (off len : Nat) :
    slice (x ++ y) (k + off) len = slice y off len := by
  rw [slice, ← h, ← List.drop_drop, List.drop_left, slice]

/-- The slice that is the first part. -/
theorem slice_append_self {x : List α} {k : Nat} (h : x.length = k) (y : List α) :
    slice (x ++ y) 0 k = x := by
  rw [slice_zero, ← h, List.take_left]

/-- An entry of a concatenation of blocks of one length. -/
theorem slice_flatMap {f : α → List β} {k : Nat} (hf : ∀ a, (f a).length = k) (l : List α) {i : Nat}
    (hi : i < l.length) : slice (l.flatMap f) (i * k) k = f l[i] := by
  induction l generalizing i with
  | nil => exact absurd hi (Nat.not_lt_zero i)
  | cons a l ih =>
    cases i with
    | zero =>
      rw [Nat.zero_mul, List.flatMap_cons, slice_append_self (hf a)]
      rfl
    | succ i =>
      rw [List.flatMap_cons, Nat.succ_mul, Nat.add_comm, slice_append_add (hf a)]
      exact ih (Nat.lt_of_succ_lt_succ hi)

/-- Consecutive slices make up the whole. -/
theorem flatMap_slice (l : List α) (off k n : Nat) :
    (List.range n).flatMap (fun i => slice l (off + i * k) k) = slice l off (n * k) := by
  induction n with
  | zero => simp [slice]
  | succ n ih =>
    rw [List.range_succ, List.flatMap_append, ih, Nat.succ_mul, slice_add]
    simp

theorem length_flatMap {f : α → List β} {k : Nat} (hf : ∀ a, (f a).length = k) (l : List α) :
    (l.flatMap f).length = l.length * k := by
  induction l with
  | nil => simp
  | cons a l ih =>
    rw [List.flatMap_cons, List.length_append, hf, ih, List.length_cons, Nat.succ_mul, Nat.add_comm]

/-- The blocks from the block `i` on. -/
theorem flatMap_drop {f : α → List β} {k : Nat} (hf : ∀ a, (f a).length = k) (l : List α) (i : Nat) :
    (l.drop i).flatMap f = (l.flatMap f).drop (i * k) := by
  induction l generalizing i with
  | nil => simp
  | cons a l ih =>
    cases i with
    | zero => rw [Nat.zero_mul, List.drop_zero, List.drop_zero]
    | succ i =>
      rw [List.drop_succ_cons, ih, List.flatMap_cons, Nat.succ_mul, Nat.add_comm, ← List.drop_drop,
        ← hf a, List.drop_left]

/-- A slice and what follows it. -/
theorem slice_append_drop (l : List α) (off len : Nat) :
    slice l off len ++ l.drop (off + len) = l.drop off := by
  rw [slice, ← List.drop_drop, List.take_append_drop]

/-- An encoding with entries of one length can be decoded. -/
theorem flatMap_injective {f : α → List β} {k : Nat} (hf : ∀ a, (f a).length = k)
    (hinj : Function.Injective f) {l l' : List α} (hlen : l.length = l'.length)
    (h : l.flatMap f = l'.flatMap f) : l = l' := by
  refine List.ext_getElem hlen fun i hi hi' => hinj ?_
  rw [← slice_flatMap hf l hi, ← slice_flatMap hf l' hi', h]

/-! ## One changed entry -/

theorem getElem?_slice {l : List α} {off len i : Nat} (hi : i < len) :
    (slice l off len)[i]? = l[off + i]? := by
  rw [slice, List.getElem?_take_of_lt hi, List.getElem?_drop]

/-- Lists that agree on a range have the same slice there. -/
theorem slice_congr {l l' : List α} {off len : Nat}
    (h : ∀ k, off ≤ k → k < off + len → l[k]? = l'[k]?) : slice l off len = slice l' off len := by
  refine List.ext_getElem? ?_
  intro k
  by_cases hk : k < len
  · rw [getElem?_slice hk, getElem?_slice hk, h _ (by omega) (by omega)]
  · have hnone : ∀ l : List α, (slice l off len)[k]? = none := by
      intro l
      rw [slice, List.getElem?_take_eq_none (Nat.not_lt.mp hk)]
    rw [hnone, hnone]

/-- A slice does not see a change outside of it. -/
theorem slice_set_of_outside {l : List α} {i off len : Nat} (a : α)
    (h : i < off ∨ off + len ≤ i) : slice (l.set i a) off len = slice l off len :=
  slice_congr fun _ _ _ => List.getElem?_set_ne (by omega)

/-- A slice sees every change within it. -/
theorem slice_set_ne {l : List α} {i off len : Nat} {a : α} (hi : i < l.length) (ha : a ≠ l[i])
    (hoff : off ≤ i) (hlen : i < off + len) : slice (l.set i a) off len ≠ slice l off len := by
  intro heq
  have hk : i - off < len := by omega
  have hget : (slice (l.set i a) off len)[i - off]? = (slice l off len)[i - off]? := by rw [heq]
  rw [getElem?_slice hk, getElem?_slice hk, Nat.add_sub_cancel' hoff, List.getElem?_set_self hi,
    List.getElem?_eq_getElem hi] at hget
  exact ha (Option.some.inj hget)

/-- A fold by steps that keep different states different keeps them different to the end. -/
theorem foldl_injective {σ : Type} {f : σ → α → σ} (hf : ∀ a, Function.Injective (f · a))
    (l : List α) : Function.Injective fun s => l.foldl f s := by
  induction l with
  | nil => exact fun _ _ h => h
  | cons a l ih => exact fun s t h => hf a (ih h)

/-- When the steps also tell entries apart, a fold sees every change of one entry. -/
theorem foldl_set_ne {σ : Type} {f : σ → α → σ} (hf : ∀ a, Function.Injective (f · a))
    (hstep : ∀ s, Function.Injective (f s)) {l : List α} {i : Nat} (hi : i < l.length) {a : α}
    (ha : a ≠ l[i]) (s : σ) : (l.set i a).foldl f s ≠ l.foldl f s := by
  induction l generalizing i s with
  | nil => exact absurd hi (Nat.not_lt_zero i)
  | cons b l ih =>
    cases i with
    | zero => exact fun h => ha (hstep s (foldl_injective hf l h))
    | succ i => exact ih (Nat.lt_of_succ_lt_succ hi) ha (f s b)

end Slices
