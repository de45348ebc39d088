import FastConstMap.Hash
import FastConstMap.Lib.Words
import Mathlib.Algebra.Order.Ring.Nat
import Mathlib.Tactic.Linarith

/-!
# Proofs: positions

Under consistent segment parameters the three positions of every hash lie in consecutive segments,
so they are distinct and in range.
-/

namespace FastConstMap

/-- The segment parameters describe a table of `len` slots: as exact integers, `segment_count + 2`
segments of a power of two of slots. -/
structure SegmentsOk (segmentLength segmentLengthMask segmentCount segmentCountLength
    len : UInt32) : Prop where
  pow : ∃ k, segmentLength.toNat = 2 ^ k
  mask : segmentLengthMask.toNat = segmentLength.toNat - 1
  count_pos : 0 < segmentCount.toNat
  scl : segmentCountLength.toNat = segmentCount.toNat * segmentLength.toNat
  len_eq : len.toNat = (segmentCount.toNat + 2) * segmentLength.toNat

/-- The positions of a mixed hash, by number. -/
def position (segmentLength segmentLengthMask segmentCountLength : UInt32) (hash : UInt64) :
    Fin 3 → UInt32
  | 0 => (getH012 hash segmentLength segmentLengthMask segmentCountLength).1
  | 1 => (getH012 hash segmentLength segmentLengthMask segmentCountLength).2.1
  | 2 => (getH012 hash segmentLength segmentLengthMask segmentCountLength).2.2

/-! ## The high multiply -/

theorem mulHigh32_toNat (hash : UInt64) (n : UInt32) :
    (mulHigh32 hash n).toNat = hash.toNat * n.toNat / 2 ^ 64 := by
  have h1 := hash.toNat_lt
  have h2 := n.toNat_lt
  have hlt : hash.toNat * n.toNat / 2 ^ 64 < 2 ^ 32 := by
    rw [Nat.div_lt_iff_lt_mul (by decide)]
    calc hash.toNat * n.toNat < 2 ^ 64 * 2 ^ 32 := Nat.mul_lt_mul'' h1 h2
      _ = 2 ^ 32 * 2 ^ 64 := by decide
  rw [mulHigh32, Nat.shiftRight_eq_div_pow, UInt32.toNat_ofNat', Nat.mod_eq_of_lt hlt]

theorem mulHigh32_lt (hash : UInt64) {n : UInt32} (h : 0 < n.toNat) :
    (mulHigh32 hash n).toNat < n.toNat := by
  rw [mulHigh32_toNat, Nat.div_lt_iff_lt_mul (by decide), Nat.mul_comm]
  exact Nat.mul_lt_mul_of_pos_left hash.toNat_lt h

/-! ## Two key hashes -/

/-- The XXH64 hashes of the keys `a` and `b`, for runs on small inputs. -/
def smallKeyHash : KeyHash where
  xxh64 key := if key = [0x61] then 0xd24ec4f1a98c6e5b else 0x78452aa11af39f9b
  xxh3 _ := 0

/-! ## The positions as numbers -/

theorem position_zero_toNat (L mask scl : UInt32) (hash : UInt64) :
    (position L mask scl hash 0).toNat = hash.toNat * scl.toNat / 2 ^ 64 := mulHigh32_toNat hash scl

theorem position_one_toNat (L mask scl : UInt32) (hash : UInt64) :
    (position L mask scl hash 1).toNat =
      (hash.toNat * scl.toNat / 2 ^ 64 + L.toNat) % 2 ^ 32 ^^^
        (hash.toNat / 2 ^ 18 % 2 ^ 32 &&& mask.toNat) := by
  show ((mulHigh32 hash scl + L) ^^^ ((hash >>> 18).toUInt32 &&& mask)).toNat = _
  rw [UInt32.toNat_xor, UInt32.toNat_add, mulHigh32_toNat, UInt32.toNat_and, UInt64.toNat_toUInt32,
    UInt64.toNat_shiftRight, show (18 : UInt64).toNat % 64 = 18 from rfl, Nat.shiftRight_eq_div_pow]

theorem position_two_toNat (L mask scl : UInt32) (hash : UInt64) :
    (position L mask scl hash 2).toNat =
      (hash.toNat * scl.toNat / 2 ^ 64 + 2 * L.toNat) % 2 ^ 32 ^^^
        (hash.toNat % 2 ^ 32 &&& mask.toNat) := by
  show ((mulHigh32 hash scl + L + L) ^^^ (hash.toUInt32 &&& mask)).toNat = _
  rw [UInt32.toNat_xor, UInt32.toNat_add, UInt32.toNat_add, mulHigh32_toNat, UInt32.toNat_and,
    UInt64.toNat_toUInt32, Nat.mod_add_mod, Nat.add_assoc, ← Nat.two_mul]

/-! ## The mixing step -/

/-- The steps of `murmur64` undone, last one first: each multiplier is replaced by its inverse. -/
def unmurmur64 (h : UInt64) : UInt64 :=
  let h := h ^^^ (h >>> 33)
  let h := h * 0x9cb4b2f8129337db
  let h := h ^^^ (h >>> 33)
  let h := h * 0x4f74430c22a54005
  h ^^^ (h >>> 33)

/-- The key hash that mixes to `a`. -/
def unmix (a seed : UInt64) : UInt64 := unmurmur64 a - seed

/-- Multiplying by an odd number can be undone. -/
theorem mul_mul_cancel {c d : UInt64} (h : c * d = 1) (x : UInt64) : x * c * d = x := by
  rw [UInt64.mul_assoc, h, UInt64.mul_one]

theorem xor_shiftRight_33 (x : UInt64) : (x ^^^ (x >>> 33)) ^^^ ((x ^^^ (x >>> 33)) >>> 33) = x :=
  Words.xor_shiftRight_self x (by decide) (by decide)

theorem murmur64_unmurmur64 (a : UInt64) : murmur64 (unmurmur64 a) = a := by
  simp only [murmur64, unmurmur64, xor_shiftRight_33]
  rw [mul_mul_cancel (by decide), xor_shiftRight_33, mul_mul_cancel (by decide), xor_shiftRight_33]

theorem unmurmur64_murmur64 (h : UInt64) : unmurmur64 (murmur64 h) = h := by
  simp only [murmur64, unmurmur64, xor_shiftRight_33]
  rw [mul_mul_cancel (by decide), xor_shiftRight_33, mul_mul_cancel (by decide), xor_shiftRight_33]

/-- Every word is a mixed hash. -/
theorem mixsplit_unmix (a seed : UInt64) : mixsplit (unmix a seed) seed = a := by
  rw [mixsplit, unmix, UInt64.sub_add_cancel, murmur64_unmurmur64]

/-- Distinct key hashes stay distinct. -/
theorem mixsplit_injective (seed : UInt64) : Function.Injective (mixsplit · seed) := by
  intro x y h
  have heq := congrArg unmurmur64 h
  simp only [mixsplit, unmurmur64_murmur64] at heq
  exact UInt64.add_left_inj _ |>.mp heq

/-! ## Segments -/

/-- What is XORed onto a position is below the segment length. -/
theorem and_mask_lt {L mask : UInt32} {k : Nat} (hk : L.toNat = 2 ^ k)
    (hmask : mask.toNat = L.toNat - 1) (x : UInt32) : (x &&& mask).toNat < 2 ^ k := by
  rw [UInt32.toNat_and]
  have hle : x.toNat &&& mask.toNat ≤ mask.toNat := Nat.and_le_right
  have hpos : 0 < 2 ^ k := Nat.two_pow_pos k
  omega

section Positions

variable {L mask count scl len : UInt32}

theorem SegmentsOk.pos (h : SegmentsOk L mask count scl len) : 0 < L.toNat := by
  obtain ⟨k, hk⟩ := h.pow
  rw [hk]
  exact Nat.two_pow_pos k

theorem SegmentsOk.len_pos (h : SegmentsOk L mask count scl len) : 0 < len.toNat := by
  rw [h.len_eq]
  exact Nat.mul_pos (by omega) h.pos

/-- The first position is below `segment_count_length`. -/
theorem SegmentsOk.h0_lt (h : SegmentsOk L mask count scl len) (hash : UInt64) :
    (mulHigh32 hash scl).toNat < count.toNat * L.toNat := by
  rw [← h.scl]
  exact mulHigh32_lt hash (by rw [h.scl]; exact Nat.mul_pos h.count_pos h.pos)

/-- The position number `j` lies `j` segments after the first one. -/
theorem SegmentsOk.position_div (h : SegmentsOk L mask count scl len) (hash : UInt64) (j : Fin 3) :
    (position L mask scl hash j).toNat / L.toNat =
      (mulHigh32 hash scl).toNat / L.toNat + j.val := by
  obtain ⟨k, hk⟩ := h.pow
  have hpos := h.pos
  have h0 := h.h0_lt hash
  have hlen := h.len_eq
  have hbound : (mulHigh32 hash scl).toNat + 2 * L.toNat < 2 ^ 32 := by
    have := len.toNat_lt
    nlinarith
  have e1 : (mulHigh32 hash scl + L).toNat = (mulHigh32 hash scl).toNat + L.toNat := by
    rw [UInt32.toNat_add, Nat.mod_eq_of_lt (by omega)]
  have e2 : (mulHigh32 hash scl + L + L).toNat = (mulHigh32 hash scl).toNat + 2 * L.toNat := by
    rw [UInt32.toNat_add, e1, Nat.mod_eq_of_lt (by omega)]
    omega
  match j with
  | 0 => rfl
  | 1 =>
    show (mulHigh32 hash scl + L ^^^ _).toNat / L.toNat = _ + 1
    rw [UInt32.toNat_xor, e1]
    nth_rewrite 2 [hk]
    rw [Words.xor_div_of_lt (and_mask_lt hk h.mask _), ← hk, Nat.add_div_right _ hpos]
  | 2 =>
    show (mulHigh32 hash scl + L + L ^^^ _).toNat / L.toNat = _ + 2
    rw [UInt32.toNat_xor, e2]
    nth_rewrite 2 [hk]
    rw [Words.xor_div_of_lt (and_mask_lt hk h.mask _), ← hk, Nat.add_mul_div_right _ _ hpos]

theorem SegmentsOk.position_lt (h : SegmentsOk L mask count scl len) (hash : UInt64) (j : Fin 3) :
    (position L mask scl hash j).toNat < len.toNat := by
  rw [h.len_eq, ← Nat.div_lt_iff_lt_mul h.pos, h.position_div]
  have h0 : (mulHigh32 hash scl).toNat / L.toNat < count.toNat :=
    (Nat.div_lt_iff_lt_mul h.pos).mpr (h.h0_lt hash)
  omega

theorem SegmentsOk.position_lt_position (h : SegmentsOk L mask count scl len) (hash : UInt64)
    {i j : Fin 3} (hij : i < j) :
    (position L mask scl hash i).toNat < (position L mask scl hash j).toNat := by
  have hi := h.position_div hash i
  have hj := h.position_div hash j
  by_contra hle
  have := Nat.div_le_div_right (c := L.toNat) (not_lt.mp hle)
  omega

/-- The three positions of a hash are distinct. -/
theorem SegmentsOk.position_injective (h : SegmentsOk L mask count scl len) (hash : UInt64) :
    Function.Injective fun j => (position L mask scl hash j).toNat := by
  intro i j hij
  have hi := h.position_div hash i
  have hj := h.position_div hash j
  simp only at hij
  rw [hij] at hi
  omega

end Positions

end FastConstMap
