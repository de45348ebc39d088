import Mathlib.Data.Fintype.EquivFin
import Mathlib.Data.Nat.Bitwise
import Mathlib.Tactic.Ring

/-!
# Machine words: XOR below a power of two

XORing a word with something below `2 ^ k` changes only its `k` low bits, so it commutes with adding
a multiple of `2 ^ k`, also modulo the word size.
-/

namespace Words

theorem xor_div_of_lt {a s k : Nat} (h : s < 2 ^ k) : (a ^^^ s) / 2 ^ k = a / 2 ^ k := by
  rw [Nat.xor_div_two_pow, Nat.div_eq_of_lt h, Nat.xor_zero]

/-- Words that agree above and below bit `k` are equal. -/
theorem eq_of_div_mod {a b k : Nat} (hd : a / 2 ^ k = b / 2 ^ k) (hm : a % 2 ^ k = b % 2 ^ k) :
    a = b := by
  rw [← Nat.div_add_mod a (2 ^ k), ← Nat.div_add_mod b (2 ^ k), hd, hm]

theorem xor_add_two_pow_mod {x s k w : Nat} (hk : k ≤ w) (h : s < 2 ^ k) :
    ((x ^^^ s) + 2 ^ k) % 2 ^ w = (x + 2 ^ k) % 2 ^ w ^^^ s := by
  obtain ⟨m, rfl⟩ := Nat.exists_eq_add_of_le hk
  have hpos : 0 < 2 ^ k := Nat.two_pow_pos k
  apply eq_of_div_mod (k := k)
  · rw [xor_div_of_lt h, Nat.pow_add, Nat.mod_mul_right_div_self, Nat.mod_mul_right_div_self,
      Nat.add_div_right _ hpos, Nat.add_div_right _ hpos, xor_div_of_lt h]
  · rw [Nat.xor_mod_two_pow, Nat.pow_add, Nat.mod_mul_right_mod, Nat.mod_mul_right_mod,
      Nat.add_mod_right, Nat.add_mod_right, Nat.xor_mod_two_pow]

/-- The exponent of a 32-bit power of two. -/
theorem exp_lt_of_toNat {x : UInt32} {k : Nat} (h : x.toNat = 2 ^ k) : k < 32 := by
  by_contra hk
  have h1 : 2 ^ 32 ≤ 2 ^ k := Nat.pow_le_pow_right (by decide) (by omega)
  have h2 := x.toNat_lt
  omega

theorem xor_add {x s L : UInt32} {k : Nat} (hL : L.toNat = 2 ^ k) (hs : s.toNat < 2 ^ k) :
    (x ^^^ s) + L = (x + L) ^^^ s := by
  apply UInt32.toNat_inj.mp
  rw [UInt32.toNat_add, UInt32.toNat_xor, UInt32.toNat_xor, UInt32.toNat_add, hL]
  exact xor_add_two_pow_mod (exp_lt_of_toNat hL).le hs

theorem xor_sub {x s L : UInt32} {k : Nat} (hL : L.toNat = 2 ^ k) (hs : s.toNat < 2 ^ k) :
    (x ^^^ s) - L = (x - L) ^^^ s := by
  have h := xor_add (x := x - L) hL hs
  rw [UInt32.sub_add_cancel] at h
  rw [← h, UInt32.add_sub_cancel]

/-! ## Masks -/

/-- The common bits of two words count twice in their sum. -/
theorem and_add_or (a b : Nat) : (a &&& b) + (a ||| b) = a + b := by
  induction a using Nat.strongRecOn generalizing b with
  | ind a ih =>
    rcases Nat.eq_zero_or_pos a with rfl | ha
    · simp
    have h := ih (a / 2) (by omega) (b / 2)
    have hand : (a &&& b) / 2 = a / 2 &&& b / 2 := Nat.and_div_two_pow (n := 1)
    have hor : (a ||| b) / 2 = a / 2 ||| b / 2 := Nat.or_div_two_pow (n := 1)
    have hand' : (a &&& b) % 2 = (a % 2) &&& (b % 2) := Nat.and_mod_two_pow (n := 1)
    have hor' : (a ||| b) % 2 = (a % 2) ||| (b % 2) := Nat.or_mod_two_pow (n := 1)
    have hbits : (a % 2 &&& b % 2) + (a % 2 ||| b % 2) = a % 2 + b % 2 := by
      rcases Nat.mod_two_eq_zero_or_one a with h0 | h0 <;>
        rcases Nat.mod_two_eq_zero_or_one b with h1 | h1 <;> rw [h0, h1] <;> rfl
    omega

/-- XORing under a mask sets no bit outside the word and the mask. -/
theorem xor_and_le_or (x s m : Nat) : x ^^^ (s &&& m) ≤ x ||| m := by
  have h : (x ^^^ (s &&& m)) ||| (x ||| m) = x ||| m := by
    apply Nat.eq_of_testBit_eq
    intro i
    simp only [Nat.testBit_or, Nat.testBit_xor, Nat.testBit_and]
    cases x.testBit i <;> cases s.testBit i <;> cases m.testBit i <;> rfl
  rw [← h]
  exact Nat.left_le_or

/-- XORing the bits of a mask that a word lacks sets them all. -/
theorem xor_missing_bits (x m : Nat) : x ^^^ (((x ||| m) ^^^ x) &&& m) = x ||| m := by
  apply Nat.eq_of_testBit_eq
  intro i
  simp only [Nat.testBit_or, Nat.testBit_xor, Nat.testBit_and]
  cases x.testBit i <;> cases m.testBit i <;> rfl

/-- The OR of two complements. -/
theorem compl_or_compl {n a b : Nat} (ha : a < 2 ^ n) (hb : b < 2 ^ n) :
    (2 ^ n - (a + 1)) ||| (2 ^ n - (b + 1)) = 2 ^ n - ((a &&& b) + 1) := by
  have hab : a &&& b < 2 ^ n := Nat.lt_of_le_of_lt Nat.and_le_left ha
  apply Nat.eq_of_testBit_eq
  intro i
  rw [Nat.testBit_or, Nat.testBit_two_pow_sub_succ ha, Nat.testBit_two_pow_sub_succ hb,
    Nat.testBit_two_pow_sub_succ hab, Nat.testBit_and]
  cases decide (i < n) <;> cases a.testBit i <;> cases b.testBit i <;> rfl

/-- The bits of a word outside another one. -/
theorem le_and_add {n a b : Nat} (ha : a < 2 ^ n) (hb : b < 2 ^ n) :
    a ≤ (a &&& b) + (2 ^ n - (b + 1)) := by
  have hsum := and_add_or a b
  have hor := Nat.or_lt_two_pow ha hb
  omega

/-! ## Offsets -/

/-- When the offsets of `n` items of `k` bytes, taken modulo `2 ^ w`, leave room for an item each
within fewer than `2 ^ w` bytes, none of them wraps. -/
theorem mul_lt_of_mod_add_le {w k n len : Nat} (hk : k ∣ 2 ^ w) (hlen : len < 2 ^ w)
    (h : ∀ i, i < n → i * k % 2 ^ w + k ≤ len) : n * k < 2 ^ w := by
  obtain ⟨c, hc⟩ := hk
  rw [hc] at h hlen ⊢
  have hpos : 0 < k * c := hc ▸ Nat.two_pow_pos w
  have hk0 : 0 < k := Nat.pos_of_mul_pos_right hpos
  have hc0 : 0 < c := Nat.pos_of_mul_pos_left hpos
  by_contra hle
  rw [not_lt, Nat.mul_comm n] at hle
  have hcn : c ≤ n := Nat.le_of_mul_le_mul_left hle hk0
  -- The last item below `2 ^ w` ends at `2 ^ w`.
  have hlast := h (c - 1) (by omega)
  have hend : (c - 1) * k + k = k * c := by
    rw [← Nat.succ_mul, Nat.succ_eq_add_one, Nat.sub_add_cancel hc0, Nat.mul_comm]
  rw [Nat.mod_eq_of_lt (by omega)] at hlast
  omega

/-! ## High products -/

/-- The high part of a product, from the products of the two halves of one factor. -/
theorem mul_div_halves (B h n : Nat) (hB : 0 < B) :
    (h / B * n + h % B * n / B) / B = h * n / (B * B) := by
  have hsplit : h * n = B * (h / B * n) + h % B * n := by
    conv_lhs => rw [← Nat.div_add_mod h B, Nat.add_mul, Nat.mul_assoc]
  rw [← Nat.div_div_eq_div_mul, hsplit, Nat.mul_add_div hB]

/-! ## Bytes with a two-bit field -/

theorem xor_add_four (x : UInt8) {b : UInt8} (hb : b.toNat < 4) : (x ^^^ b) + 4 = (x + 4) ^^^ b := by
  apply UInt8.toNat_inj.mp
  rw [UInt8.toNat_add, UInt8.toNat_xor, UInt8.toNat_xor, UInt8.toNat_add]
  exact xor_add_two_pow_mod (k := 2) (w := 8) (by decide) hb

theorem xor_sub_four (x : UInt8) {b : UInt8} (hb : b.toNat < 4) : (x ^^^ b) - 4 = (x - 4) ^^^ b := by
  have h := xor_add_four (x - 4) hb
  rw [UInt8.sub_add_cancel] at h
  rw [← h, UInt8.add_sub_cancel]

/-- The upper six bits of a byte that packs the number `d` and a two-bit field. -/
theorem packed_div (d : Nat) {b : UInt8} (hb : b.toNat < 4) :
    (UInt8.ofNat (4 * d) ^^^ b).toNat / 4 = d % 64 := by
  rw [UInt8.toNat_xor, show (4 : Nat) = 2 ^ 2 from rfl, xor_div_of_lt hb, UInt8.toNat_ofNat']
  omega

/-- The lower two bits of such a byte. -/
theorem packed_and_three (d : Nat) {b : UInt8} (hb : b.toNat < 4) :
    (UInt8.ofNat (4 * d) ^^^ b) &&& 3 = b := by
  apply UInt8.toNat_inj.mp
  rw [UInt8.toNat_and, UInt8.toNat_xor, UInt8.toNat_ofNat',
    show (3 : UInt8).toNat = 2 ^ 2 - 1 from rfl, Nat.and_two_pow_sub_one_eq_mod,
    Nat.xor_mod_two_pow, Nat.mod_eq_of_lt (show b.toNat < 2 ^ 2 from hb),
    show 4 * d % 2 ^ 8 % 2 ^ 2 = 0 by omega, Nat.zero_xor]

/-- XORing with the same word twice changes nothing. -/
theorem xor_self_cancel (a b : UInt64) : a ^^^ (a ^^^ b) = b := by
  rw [← UInt64.xor_assoc, UInt64.xor_self, UInt64.zero_xor]

/-! ## Shifts and rotations -/

theorem shiftRight_toNat (x : UInt64) {s : UInt64} (hs : s.toNat < 64) :
    (x >>> s).toNat = x.toNat / 2 ^ s.toNat := by
  rw [UInt64.toNat_shiftRight, Nat.mod_eq_of_lt hs, Nat.shiftRight_eq_div_pow]

theorem shiftRight_shiftRight_eq_zero (x : UInt64) {s t : UInt64} (hs : s.toNat < 64)
    (ht : t.toNat < 64) (h : 64 ≤ s.toNat + t.toNat) : x >>> s >>> t = 0 := by
  apply UInt64.toNat_inj.mp
  rw [shiftRight_toNat _ ht, shiftRight_toNat _ hs, Nat.div_div_eq_div_mul, ← Nat.pow_add]
  have h2 : 2 ^ 64 ≤ 2 ^ (s.toNat + t.toNat) := Nat.pow_le_pow_right (by decide) h
  exact Nat.div_eq_of_lt (Nat.lt_of_lt_of_le x.toNat_lt h2)

/-- XORing a word with its upper half or less can be undone. -/
theorem xor_shiftRight_self (x : UInt64) {s : UInt64} (hs : s.toNat < 64) (h : 32 ≤ s.toNat) :
    (x ^^^ (x >>> s)) ^^^ ((x ^^^ (x >>> s)) >>> s) = x := by
  rw [UInt64.shiftRight_xor, shiftRight_shiftRight_eq_zero x hs hs (by omega), UInt64.xor_zero,
    UInt64.xor_assoc, UInt64.xor_self, UInt64.xor_zero]

/-- The same for the shifts of a word that takes three of them to run out. -/
theorem xor_shiftRight_twice (x : UInt64) {s t : UInt64} (ht : t.toNat < 64)
    (hst : t.toNat = s.toNat + s.toNat) (h : 64 ≤ s.toNat + t.toNat) :
    let y := x ^^^ (x >>> s) ^^^ (x >>> t)
    y ^^^ (y >>> s) = x := by
  intro y
  have hs : s.toNat < 64 := by omega
  have htwice : x >>> s >>> s = x >>> t := by
    apply UInt64.toNat_inj.mp
    rw [shiftRight_toNat _ hs, shiftRight_toNat _ hs, shiftRight_toNat _ ht, Nat.div_div_eq_div_mul,
      ← Nat.pow_add, hst]
  have hzero : x >>> t >>> s = 0 := shiftRight_shiftRight_eq_zero x ht hs (by omega)
  have hcancel : ∀ a b c : UInt64, a ^^^ b ^^^ c ^^^ (b ^^^ c) = a := by
    intro a b c
    rw [UInt64.xor_assoc a, UInt64.xor_assoc, UInt64.xor_self, UInt64.xor_zero]
  rw [UInt64.shiftRight_xor, UInt64.shiftRight_xor, htwice, hzero, UInt64.xor_zero, hcancel]

/-- `(x << r) | (x >> (64 - r))`. -/
def rotl (x r : UInt64) : UInt64 := (x <<< r) ||| (x >>> (64 - r))

/-- The two parts of a word change places. -/
theorem rotl_toNat {x r : UInt64} {a b : Nat} (hr : r.toNat < 64) (hpos : 0 < r.toNat)
    (hx : x.toNat = 2 ^ (64 - r.toNat) * a + b) (ha : a < 2 ^ r.toNat) (hb : b < 2 ^ (64 - r.toNat)) :
    (rotl x r).toNat = 2 ^ r.toNat * b + a := by
  have hsub : (64 - r).toNat = 64 - r.toNat :=
    UInt64.toNat_sub_of_le _ _ (by rw [UInt64.le_iff_toNat_le]; exact hr.le)
  have hpow : 2 ^ 64 = 2 ^ r.toNat * 2 ^ (64 - r.toNat) := by
    rw [← Nat.pow_add]
    congr 1
    omega
  have hright : (x >>> (64 - r)).toNat = a := by
    rw [shiftRight_toNat _ (by rw [hsub]; omega), hsub, hx, Nat.mul_add_div (Nat.two_pow_pos _),
      Nat.div_eq_of_lt hb, Nat.add_zero]
  have hleft : (x <<< r).toNat = 2 ^ r.toNat * b := by
    rw [UInt64.toNat_shiftLeft, Nat.mod_eq_of_lt hr, Nat.shiftLeft_eq, hx, Nat.mul_comm, Nat.mul_add,
      ← Nat.mul_assoc, hpow, Nat.mul_add_mod, Nat.mod_eq_of_lt]
    exact Nat.mul_lt_mul_of_pos_left hb (Nat.two_pow_pos _)
  rw [rotl, UInt64.toNat_or, hleft, hright, ← Nat.two_pow_add_eq_or_of_lt ha]

/-- Rotating by the rest of the word undoes a rotation. -/
theorem rotl_rotl (x : UInt64) {r s : UInt64} (hr : 0 < r.toNat) (hs : 0 < s.toNat)
    (h : r.toNat + s.toNat = 64) : rotl (rotl x r) s = x := by
  have hx : x.toNat = 2 ^ (64 - r.toNat) * (x.toNat / 2 ^ (64 - r.toNat)) +
      x.toNat % 2 ^ (64 - r.toNat) := (Nat.div_add_mod _ _).symm
  have ha : x.toNat / 2 ^ (64 - r.toNat) < 2 ^ r.toNat := by
    rw [Nat.div_lt_iff_lt_mul (Nat.two_pow_pos _), ← Nat.pow_add]
    refine Nat.lt_of_lt_of_eq x.toNat_lt ?_
    congr 1
    omega
  have hb := Nat.mod_lt x.toNat (Nat.two_pow_pos (64 - r.toNat))
  have h1 := rotl_toNat (by omega) hr hx ha hb
  have hs64 : 64 - s.toNat = r.toNat := by omega
  have hr64 : 64 - r.toNat = s.toNat := by omega
  rw [hr64] at h1 hb hx
  apply UInt64.toNat_inj.mp
  rw [rotl_toNat (by omega) hs (by rw [hs64]; exact h1) hb (by rw [hs64, ← hr64]; exact ha)]
  exact hx.symm

/-! ## Steps that keep words apart -/

theorem mul_injective {c d : UInt64} (h : c * d = 1) : Function.Injective fun x : UInt64 => x * c := by
  intro x y hxy
  have hd : x * c * d = y * c * d := congrArg (· * d) hxy
  rwa [UInt64.mul_assoc, UInt64.mul_assoc, h, UInt64.mul_one, UInt64.mul_one] at hd

theorem rotl_injective {r s : UInt64} (hr : 0 < r.toNat) (hs : 0 < s.toNat)
    (h : r.toNat + s.toNat = 64) : Function.Injective fun x : UInt64 => rotl x r := by
  intro x y hxy
  rw [← rotl_rotl x hr hs h, ← rotl_rotl y hr hs h]
  exact congrArg (rotl · s) hxy

theorem eq_of_xor_eq_zero {x y : UInt64} (h : x ^^^ y = 0) : x = y := by
  rw [← xor_self_cancel x y, h, UInt64.xor_zero]

/-- A step that is linear for XOR keeps words apart when it keeps them from 0. -/
theorem injective_of_xor {f : UInt64 → UInt64} (hf : ∀ x y, f (x ^^^ y) = f x ^^^ f y)
    (h0 : ∀ z, f z = 0 → z = 0) : Function.Injective f := by
  intro x y hxy
  refine eq_of_xor_eq_zero (h0 _ ?_)
  rw [hf, hxy, UInt64.xor_self]

theorem xorShift_injective {s : UInt64} (hpos : 0 < s.toNat) (hs : s.toNat < 64) :
    Function.Injective fun x : UInt64 => x ^^^ (x >>> s) := by
  refine injective_of_xor ?_ ?_
  · intro x y
    rw [UInt64.shiftRight_xor]
    ac_rfl
  · intro z hz
    have hfix : z.toNat = z.toNat / 2 ^ s.toNat := by
      rw [← shiftRight_toNat z hs]
      exact congrArg UInt64.toNat (eq_of_xor_eq_zero hz)
    have hlt : z.toNat = 0 ∨ z.toNat / 2 ^ s.toNat < z.toNat := by
      rcases Nat.eq_zero_or_pos z.toNat with h | h
      · exact .inl h
      · exact .inr (Nat.div_lt_self h (Nat.one_lt_two_pow (by omega)))
    exact UInt64.toNat_inj.mp (by rw [UInt64.toNat_zero]; omega)

/-- The same with a number added that leaves the upper bits alone. -/
theorem xorShiftAdd_injective {s a : UInt64} (hs : s.toNat < 64)
    (hlt : 2 ^ (64 - s.toNat) + a.toNat ≤ 2 ^ s.toNat) :
    Function.Injective fun x : UInt64 => x ^^^ ((x >>> s) + a) := by
  have hlow : ∀ x : UInt64, ((x >>> s) + a).toNat < 2 ^ s.toNat := by
    intro x
    have hx : (x >>> s).toNat < 2 ^ (64 - s.toNat) := by
      rw [shiftRight_toNat x hs]
      refine Nat.div_lt_of_lt_mul (x.toNat_lt.trans_eq ?_)
      rw [← Nat.pow_add]
      congr 1
      omega
    rw [UInt64.toNat_add]
    exact (Nat.mod_le _ _).trans_lt (by omega)
  intro x y h
  have hdiv : (x ^^^ ((x >>> s) + a)).toNat / 2 ^ s.toNat =
      (y ^^^ ((y >>> s) + a)).toNat / 2 ^ s.toNat :=
    congrArg (fun z : UInt64 => z.toNat / 2 ^ s.toNat) h
  have hhigh : x >>> s = y >>> s := by
    apply UInt64.toNat_inj.mp
    rw [UInt64.toNat_xor, UInt64.toNat_xor, xor_div_of_lt (hlow x), xor_div_of_lt (hlow y)] at hdiv
    rw [shiftRight_toNat x hs, shiftRight_toNat y hs, hdiv]
  simp only [hhigh] at h
  exact (UInt64.xor_left_inj _).mp h

/-! ## Rotations -/

/-- Bit `i` of a rotated word is the bit `r` places below. -/
theorem rotl_testBit (x : UInt64) {r : UInt64} (hpos : 0 < r.toNat) (hr : r.toNat < 64) {i : Nat}
    (hi : i < 64) :
    (rotl x r).toNat.testBit i = x.toNat.testBit ((i + (64 - r.toNat)) % 64) := by
  have hsub : (64 - r).toNat = 64 - r.toNat :=
    UInt64.toNat_sub_of_le _ _ (by rw [UInt64.le_iff_toNat_le]; exact hr.le)
  have hx := x.toNat_lt
  rw [rotl, UInt64.toNat_or, UInt64.toNat_shiftLeft, UInt64.toNat_shiftRight, hsub,
    Nat.mod_eq_of_lt hr, Nat.mod_eq_of_lt (show 64 - r.toNat < 64 by omega), Nat.testBit_or,
    Nat.testBit_mod_two_pow, Nat.testBit_shiftLeft, Nat.testBit_shiftRight]
  by_cases hle : r.toNat ≤ i
  · rw [show (i + (64 - r.toNat)) % 64 = i - r.toNat by omega,
      Nat.testBit_lt_two_pow (hx.trans_le (Nat.pow_le_pow_right (by decide)
        (show 64 ≤ 64 - r.toNat + i by omega)))]
    simp [hi, hle]
  · rw [Nat.mod_eq_of_lt (by omega), Nat.add_comm i]
    simp [hle]

theorem eq_of_testBit {x y : UInt64} (h : ∀ i, i < 64 → x.toNat.testBit i = y.toNat.testBit i) :
    x = y := by
  apply UInt64.toNat_inj.mp
  apply Nat.eq_of_testBit_eq
  intro i
  by_cases hi : i < 64
  · exact h i hi
  · have hlt : ∀ z : UInt64, z.toNat.testBit i = false := fun z =>
      Nat.testBit_lt_two_pow (z.toNat_lt.trans_le (Nat.pow_le_pow_right (by decide) (not_lt.mp hi)))
    rw [hlt, hlt]

theorem rotl_xor (x y : UInt64) {r : UInt64} (hpos : 0 < r.toNat) (hr : r.toNat < 64) :
    rotl (x ^^^ y) r = rotl x r ^^^ rotl y r := by
  apply eq_of_testBit
  intro i hi
  rw [UInt64.toNat_xor, Nat.testBit_xor, rotl_testBit _ hpos hr hi, rotl_testBit _ hpos hr hi,
    rotl_testBit _ hpos hr hi, UInt64.toNat_xor, Nat.testBit_xor]

/-- Two rotations in a row. -/
theorem rotl_add (x : UInt64) {r s t : UInt64} (hr : 0 < r.toNat) (hr64 : r.toNat < 64)
    (hs : 0 < s.toNat) (hs64 : s.toNat < 64) (ht : 0 < t.toNat) (ht64 : t.toNat < 64)
    (h : (r.toNat + s.toNat) % 64 = t.toNat) : rotl (rotl x r) s = rotl x t := by
  apply eq_of_testBit
  intro i hi
  rw [rotl_testBit _ hs hs64 hi, rotl_testBit _ hr hr64 (Nat.mod_lt _ (by decide)),
    rotl_testBit _ ht ht64 hi]
  congr 1
  omega

/-- A word that is the XOR of two of its rotations is also the XOR of those by twice the places. -/
theorem rotl_double {z r s r' s' : UInt64} (h : z = rotl z r ^^^ rotl z s)
    (hr : 0 < r.toNat ∧ r.toNat < 64) (hs : 0 < s.toNat ∧ s.toNat < 64)
    (hsum : (r.toNat + s.toNat) % 64 ≠ 0) (hr' : rotl (rotl z r) r = r')
    (hs' : rotl (rotl z s) s = s') : z = r' ^^^ s' := by
  have ht : (UInt64.ofNat ((r.toNat + s.toNat) % 64)).toNat = (r.toNat + s.toNat) % 64 := by
    rw [UInt64.toNat_ofNat']
    omega
  have hrs := rotl_add z (t := UInt64.ofNat ((r.toNat + s.toNat) % 64)) hr.1 hr.2 hs.1 hs.2
    (by omega) (by omega) ht.symm
  have hsr := rotl_add z (t := UInt64.ofNat ((r.toNat + s.toNat) % 64)) hs.1 hs.2 hr.1 hr.2
    (by omega) (by omega) (by rw [ht, Nat.add_comm])
  have hzr : rotl z r = r' ^^^ rotl (rotl z s) r := by
    conv_lhs => rw [h, rotl_xor _ _ hr.1 hr.2, hr']
  have hzs : rotl z s = rotl (rotl z r) s ^^^ s' := by
    conv_lhs => rw [h, rotl_xor _ _ hs.1 hs.2, hs']
  calc z = (r' ^^^ rotl (rotl z s) r) ^^^ (rotl (rotl z r) s ^^^ s') := by rw [← hzr, ← hzs, ← h]
    _ = r' ^^^ s' := by
      rw [hrs, hsr, UInt64.xor_assoc, xor_self_cancel]

/-- Two different words stay different when each is XORed with its own rotations by 49 and 24 places. -/
theorem rotl_49_24_injective :
    Function.Injective fun x : UInt64 => x ^^^ (rotl x 49 ^^^ rotl x 24) := by
  refine injective_of_xor ?_ ?_
  · intro x y
    rw [rotl_xor x y (by decide) (by decide), rotl_xor x y (by decide) (by decide)]
    ac_rfl
  · -- Each round doubles the places: from 49 and 24 to 34 and 48, to 4 and 32, and to 8 and 0.
    intro z h0
    have h1 : z = rotl z 49 ^^^ rotl z 24 := eq_of_xor_eq_zero h0
    have h2 : z = rotl z 34 ^^^ rotl z 48 :=
      rotl_double h1 (by decide) (by decide) (by decide)
        (rotl_add z (by decide) (by decide) (by decide) (by decide) (by decide) (by decide) (by decide))
        (rotl_add z (by decide) (by decide) (by decide) (by decide) (by decide) (by decide) (by decide))
    have h3 : z = rotl z 4 ^^^ rotl z 32 :=
      rotl_double h2 (by decide) (by decide) (by decide)
        (rotl_add z (by decide) (by decide) (by decide) (by decide) (by decide) (by decide) (by decide))
        (rotl_add z (by decide) (by decide) (by decide) (by decide) (by decide) (by decide) (by decide))
    have h4 : z = rotl z 8 ^^^ z :=
      rotl_double h3 (by decide) (by decide) (by decide)
        (rotl_add z (by decide) (by decide) (by decide) (by decide) (by decide) (by decide) (by decide))
        (rotl_rotl z (by decide) (by decide) (by decide))
    have h8 : rotl z 8 = rotl 0 8 := by
      have hcancel := congrArg (z ^^^ ·) h4
      simp only [UInt64.xor_self] at hcancel
      rw [UInt64.xor_comm (rotl z 8), xor_self_cancel] at hcancel
      exact hcancel.symm.trans (by decide)
    exact rotl_injective (s := 56) (by decide) (by decide) (by decide) h8

/-- A function on words that keeps them apart takes on every word. -/
theorem surjective_of_injective {f : UInt64 → UInt64} (h : Function.Injective f) :
    Function.Surjective f := by
  have hfinite : Finite UInt64 := Finite.of_injective UInt64.toFin fun _ _ h => UInt64.toFin_inj.mp h
  exact Finite.injective_iff_surjective.mp h

end Words
