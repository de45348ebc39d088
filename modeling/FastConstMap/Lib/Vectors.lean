import FastConstMap.Lib.Words
import Mathlib.Tactic.Ring

/-!
# Vector registers

Registers of 128 bits as two words of 64 bits, of which each is two halves of 32 bits, and the vector
instructions on them.
-/

namespace Vectors

/-- `(uint64_t)(uint32_t)x * (uint64_t)(uint32_t)y`. -/
def mulLow (x y : UInt64) : UInt64 := x.toUInt32.toUInt64 * y.toUInt32.toUInt64

/-- The word of two halves. -/
def join (lo hi : UInt32) : UInt64 := lo.toUInt64 ||| (hi.toUInt64 <<< 32)

/-- `uint64x2_t` and `__m128i`, the lower word first. -/
structure V128 where
  lo : UInt64
  hi : UInt64
deriving DecidableEq

/-- `uint32x2_t`. -/
structure V64 where
  lo : UInt32
  hi : UInt32
deriving DecidableEq

namespace V128

/-- The halves, the lowest first. -/
def lane (v : V128) : Nat → UInt32
  | 0 => v.lo.toUInt32
  | 1 => (v.lo >>> 32).toUInt32
  | 2 => v.hi.toUInt32
  | _ => (v.hi >>> 32).toUInt32

def ofLanes (a b c d : UInt32) : V128 := ⟨join a b, join c d⟩

/-! ## Instructions of both kinds -/

/-- `_mm_xor_si128`, `veorq_u64`. -/
def xor (v w : V128) : V128 := ⟨v.lo ^^^ w.lo, v.hi ^^^ w.hi⟩

/-- `_mm_add_epi64`, `vaddq_u64`. -/
def add (v w : V128) : V128 := ⟨v.lo + w.lo, v.hi + w.hi⟩

/-- `_mm_srli_epi64`, `vshrq_n_u64`. -/
def shiftRight (v : V128) (s : UInt64) : V128 := ⟨v.lo >>> s, v.hi >>> s⟩

/-! ## SSE2 -/

/-- `_mm_slli_epi64`. -/
def slli (v : V128) (s : UInt64) : V128 := ⟨v.lo <<< s, v.hi <<< s⟩

/-- `_mm_set1_epi32`. -/
def set1 (x : UInt32) : V128 := ofLanes x x x x

/-- `_mm_mul_epu32`. -/
def mulEpu32 (v w : V128) : V128 := ⟨mulLow v.lo w.lo, mulLow v.hi w.hi⟩

/-- `_mm_shuffle_epi32(v, _MM_SHUFFLE(d, c, b, a))`. -/
def shuffle (v : V128) (d c b a : Nat) : V128 := ofLanes (v.lane a) (v.lane b) (v.lane c) (v.lane d)

/-- `_mm_unpackhi_epi64`. -/
def unpackHi (v w : V128) : V128 := ⟨v.hi, w.hi⟩

/-! ## NEON -/

/-- `vextq_u64(v, w, 1)`. -/
def ext1 (v w : V128) : V128 := ⟨v.hi, w.lo⟩

/-- The two results of `vuzpq_u32`. -/
def uzp0 (v w : V128) : V128 := ofLanes (v.lane 0) (v.lane 2) (w.lane 0) (w.lane 2)
def uzp1 (v w : V128) : V128 := ofLanes (v.lane 1) (v.lane 3) (w.lane 1) (w.lane 3)

/-- `vget_low_u32` and `vget_high_u32`. -/
def low (v : V128) : V64 := ⟨v.lane 0, v.lane 1⟩
def high (v : V128) : V64 := ⟨v.lane 2, v.lane 3⟩

/-- `vmovn_u64(v)` for `s = 0`, else `vshrn_n_u64(v, s)`. -/
def narrow (v : V128) (s : UInt64) : V64 := ⟨(v.lo >>> s).toUInt32, (v.hi >>> s).toUInt32⟩

/-- `vmulq_u32`. -/
def mulU32 (v w : V128) : V128 :=
  ofLanes (v.lane 0 * w.lane 0) (v.lane 1 * w.lane 1) (v.lane 2 * w.lane 2) (v.lane 3 * w.lane 3)

/-- `vmlal_u32`. -/
def mlal (acc : V128) (a b : V64) : V128 :=
  ⟨acc.lo + a.lo.toUInt64 * b.lo.toUInt64, acc.hi + a.hi.toUInt64 * b.hi.toUInt64⟩

end V128

/-! ## Halves -/

theorem join_toNat (lo hi : UInt32) : (join lo hi).toNat = lo.toNat + 2 ^ 32 * hi.toNat := by
  have hlo := lo.toNat_lt
  have hhi := hi.toNat_lt
  rw [join, UInt64.toNat_or, UInt64.toNat_shiftLeft, UInt32.toNat_toUInt64, UInt32.toNat_toUInt64]
  show lo.toNat ||| hi.toNat <<< 32 % 2 ^ 64 = _
  rw [Nat.mod_eq_of_lt (by rw [Nat.shiftLeft_eq]; omega), Nat.or_comm,
    ← Nat.shiftLeft_add_eq_or_of_lt hlo, Nat.shiftLeft_eq]
  omega

theorem shiftRight_32_toNat (x : UInt64) : (x >>> 32).toNat = x.toNat / 2 ^ 32 :=
  Words.shiftRight_toNat x (by decide)

@[simp] theorem join_toUInt32 (lo hi : UInt32) : (join lo hi).toUInt32 = lo := by
  have hlo := lo.toNat_lt
  apply UInt32.toNat_inj.mp
  rw [UInt64.toNat_toUInt32, join_toNat]
  omega

@[simp] theorem join_shiftRight (lo hi : UInt32) : (join lo hi >>> 32).toUInt32 = hi := by
  have hlo := lo.toNat_lt
  have hhi := hi.toNat_lt
  apply UInt32.toNat_inj.mp
  rw [UInt64.toNat_toUInt32, shiftRight_32_toNat, join_toNat]
  omega

/-- A word is made of its halves. -/
@[simp] theorem join_halves (x : UInt64) : join x.toUInt32 (x >>> 32).toUInt32 = x := by
  have hx := x.toNat_lt
  apply UInt64.toNat_inj.mp
  rw [join_toNat, UInt64.toNat_toUInt32, UInt64.toNat_toUInt32, shiftRight_32_toNat]
  omega

@[simp] theorem shiftRight_shiftRight_toUInt32 (x : UInt64) : (x >>> 0).toUInt32 = x.toUInt32 := by
  rw [UInt64.shiftRight_zero]

theorem mulLow_toNat (x y : UInt64) :
    (mulLow x y).toNat = x.toNat % 2 ^ 32 * (y.toNat % 2 ^ 32) := by
  have hx := Nat.mod_lt x.toNat (Nat.two_pow_pos 32)
  have hy := Nat.mod_lt y.toNat (Nat.two_pow_pos 32)
  rw [mulLow, UInt64.toNat_mul, UInt32.toNat_toUInt64, UInt32.toNat_toUInt64, UInt64.toNat_toUInt32,
    UInt64.toNat_toUInt32, Nat.mod_eq_of_lt]
  have hle := Nat.mul_le_mul (Nat.le_sub_one_of_lt hx) (Nat.le_sub_one_of_lt hy)
  omega

/-- A product with a half, from two products of halves. -/
theorem mul_halves (x : UInt64) (p : UInt32) :
    x * p.toUInt64 = mulLow x p.toUInt64 + (mulLow (x >>> 32) p.toUInt64 <<< 32) := by
  have hp : p.toUInt64.toNat % 2 ^ 32 = p.toUInt64.toNat := Nat.mod_eq_of_lt p.toNat_lt
  have hhigh : x.toNat / 2 ^ 32 % 2 ^ 32 = x.toNat / 2 ^ 32 :=
    Nat.mod_eq_of_lt (Nat.div_lt_of_lt_mul x.toNat_lt)
  apply UInt64.toNat_inj.mp
  rw [UInt64.toNat_add, UInt64.toNat_shiftLeft, mulLow_toNat, mulLow_toNat, shiftRight_32_toNat,
    UInt64.toNat_mul, hp, hhigh]
  show _ = (_ + (_ <<< 32) % 2 ^ 64) % 2 ^ 64
  rw [Nat.add_mod_mod, Nat.shiftLeft_eq]
  congr 1
  calc x.toNat * p.toUInt64.toNat
      = (x.toNat % 2 ^ 32 + 2 ^ 32 * (x.toNat / 2 ^ 32)) * p.toUInt64.toNat := by rw [Nat.mod_add_div]
    _ = _ := by ring

/-- A product of halves that is shifted up, as a word with no low half. -/
theorem join_zero_mul (x : UInt64) (p : UInt32) :
    join 0 ((x >>> 32).toUInt32 * p) = mulLow (x >>> 32) p.toUInt64 <<< 32 := by
  apply UInt64.toNat_inj.mp
  rw [join_toNat, UInt64.toNat_shiftLeft, UInt32.toNat_mul, mulLow_toNat, UInt64.toNat_toUInt32,
    UInt32.toNat_toUInt64, Nat.mod_eq_of_lt p.toNat_lt]
  show 0 + _ = (_ <<< 32) % 2 ^ 64
  rw [Nat.shiftLeft_eq, Nat.zero_add, show 2 ^ 64 = 2 ^ 32 * 2 ^ 32 from rfl, Nat.mul_mod_mul_right,
    Nat.mul_comm]

namespace V128

/-- The shuffle by `_MM_SHUFFLE(1, 0, 3, 2)` exchanges the words. -/
theorem shuffle_swap (v : V128) : v.shuffle 1 0 3 2 = ⟨v.hi, v.lo⟩ := by
  simp [shuffle, ofLanes, lane]

/-- The shuffle by `_MM_SHUFFLE(0, 3, 0, 1)` brings the upper halves down. -/
theorem mulEpu32_shuffle (v w : V128) :
    mulEpu32 v (w.shuffle 0 3 0 1) = mulEpu32 v (w.shiftRight 32) := by
  simp [shuffle, ofLanes, lane, mulEpu32, mulLow, shiftRight]

/-- The product of both words with a half, by SSE2. -/
theorem mul_set1 (v : V128) (p : UInt32) :
    (v.mulEpu32 (set1 p)).add (((v.shuffle 0 3 0 1).mulEpu32 (set1 p)).slli 32) =
      ⟨v.lo * p.toUInt64, v.hi * p.toUInt64⟩ := by
  have hset : ∀ x : UInt64, mulLow x (join p p) = mulLow x p.toUInt64 := by
    intro x
    rw [mulLow, mulLow, join_toUInt32, UInt32.toUInt32_toUInt64]
  have hdown : ∀ (a : UInt32) (x y : UInt64), mulLow (join (x >>> 32).toUInt32 a) y = mulLow (x >>> 32) y := by
    intro a x y
    rw [mulLow, join_toUInt32, mulLow]
  simp only [mulEpu32, set1, ofLanes, shuffle, lane, slli, add, hset, hdown]
  rw [mul_halves, mul_halves]

/-- The same product by NEON. -/
theorem mul_dup (v : V128) (p : UInt32) :
    (v.mulU32 ⟨p.toUInt64 <<< 32, p.toUInt64 <<< 32⟩).mlal (v.narrow 0) ⟨p, p⟩ =
      ⟨v.lo * p.toUInt64, v.hi * p.toUInt64⟩ := by
  have hshift : p.toUInt64 <<< 32 = join 0 p := by
    rw [join]
    exact (UInt64.zero_or).symm
  have hlow : ∀ x : UInt64, (x >>> 0).toUInt32.toUInt64 * p.toUInt64 = mulLow x p.toUInt64 := by
    intro x
    rw [mulLow, UInt64.shiftRight_zero, UInt32.toUInt32_toUInt64]
  simp only [mulU32, mlal, narrow, ofLanes, lane, hshift, join_toUInt32, join_shiftRight, UInt32.mul_zero,
    join_zero_mul, hlow]
  rw [mul_halves, mul_halves, UInt64.add_comm, UInt64.add_comm (mulLow (v.hi >>> 32) _ <<< 32)]

/-- The halves of four words, sorted into lower and upper ones. -/
theorem mlal_uzp_low (acc v w : V128) :
    acc.mlal (v.uzp0 w).low (v.uzp1 w).low =
      ⟨acc.lo + mulLow v.lo (v.lo >>> 32), acc.hi + mulLow v.hi (v.hi >>> 32)⟩ := by
  simp only [mlal, uzp0, uzp1, low, lane, ofLanes, join_toUInt32, join_shiftRight, mulLow]

theorem mlal_uzp_high (acc v w : V128) :
    acc.mlal (v.uzp0 w).high (v.uzp1 w).high =
      ⟨acc.lo + mulLow w.lo (w.lo >>> 32), acc.hi + mulLow w.hi (w.hi >>> 32)⟩ := by
  simp only [mlal, uzp0, uzp1, high, lane, ofLanes, join_toUInt32, join_shiftRight, mulLow]

end V128

end Vectors
