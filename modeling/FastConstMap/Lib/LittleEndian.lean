import Mathlib.Algebra.Order.Ring.Nat
import Mathlib.Tactic.Linarith

/-!
# Little-endian numbers

The value of a string of bytes, least significant byte first, and the bytes of a number. The bytes
that are shifted into place and combined by OR form the value.
-/

namespace LittleEndian

/-- The value of the bytes, least significant first. -/
def value : List UInt8 → Nat
  | [] => 0
  | b :: bs => b.toNat + 256 * value bs

/-- The `k` low bytes of `n`, least significant first. -/
def bytes : Nat → Nat → List UInt8
  | 0, _ => []
  | k + 1, n => UInt8.ofNat n :: bytes k (n / 256)

@[simp] theorem value_nil : value [] = 0 := rfl

@[simp] theorem length_bytes (k n : Nat) : (bytes k n).length = k := by
  induction k generalizing n with
  | zero => rfl
  | succ k ih => simp [bytes, ih]

theorem value_lt (bs : List UInt8) : value bs < 256 ^ bs.length := by
  induction bs with
  | nil => simp
  | cons b bs ih =>
    have hb := b.toNat_lt
    rw [value, List.length_cons, pow_succ]
    omega

theorem value_bytes {k n : Nat} (h : n < 256 ^ k) : value (bytes k n) = n := by
  induction k generalizing n with
  | zero =>
    rw [pow_zero] at h
    simp only [bytes, value]
    omega
  | succ k ih =>
    rw [pow_succ] at h
    rw [bytes, value, ih (by omega), UInt8.toNat_ofNat']
    omega

theorem bytes_value (bs : List UInt8) : bytes bs.length (value bs) = bs := by
  induction bs with
  | nil => rfl
  | cons b bs ih =>
    have hb := b.toNat_lt
    have hdiv : (b.toNat + 256 * value bs) / 256 = value bs := by omega
    have hbyte : UInt8.ofNat (b.toNat + 256 * value bs) = b := by
      apply UInt8.toNat_inj.mp
      rw [UInt8.toNat_ofNat']
      omega
    rw [List.length_cons, value, bytes, hdiv, hbyte, ih]

/-- Strings of one length with one value are equal. -/
theorem value_injective {bs bs' : List UInt8} (hlen : bs.length = bs'.length)
    (h : value bs = value bs') : bs = bs' := by
  rw [← bytes_value bs, ← bytes_value bs', hlen, h]

theorem value_append (bs bs' : List UInt8) :
    value (bs ++ bs') = value bs + 256 ^ bs.length * value bs' := by
  induction bs with
  | nil => simp
  | cons b bs ih =>
    rw [List.cons_append, value, value, ih, List.length_cons, Nat.pow_succ, Nat.mul_add,
      ← Nat.mul_assoc, Nat.mul_comm 256 (256 ^ _), Nat.add_assoc]

/-- Strings that agree from byte `n` on are less than `256 ^ n` apart. -/
theorem value_lt_of_drop {bs bs' : List UInt8} {n : Nat} (hn : n ≤ bs'.length)
    (h : bs.drop n = bs'.drop n) : value bs < value bs' + 256 ^ n := by
  have hlt : value (bs.take n) < 256 ^ n :=
    (value_lt _).trans_le (Nat.pow_le_pow_right (by decide) (List.length_take_le n bs))
  rcases Nat.lt_or_ge bs.length n with hshort | hlong
  · rw [← List.take_of_length_le hshort.le]
    omega
  · rw [← List.take_append_drop n bs, ← List.take_append_drop n bs', value_append, value_append, h,
      List.length_take_of_le hlong, List.length_take_of_le hn]
    omega

/-- A byte that is shifted past lower bytes and combined with them by OR. -/
theorem or_shiftLeft {a b k : Nat} (h : a < 2 ^ k) : a ||| b <<< k = a + 2 ^ k * b := by
  rw [Nat.or_comm, ← Nat.shiftLeft_add_eq_or_of_lt h, Nat.shiftLeft_eq,
    Nat.mul_comm, Nat.add_comm]

end LittleEndian
