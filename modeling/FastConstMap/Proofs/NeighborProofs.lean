import FastConstMap.Peel
import FastConstMap.Proofs.ParamsProofs

/-!
# Proofs: the neighbours of a popped slot

The peel loop does not derive the positions of a popped hash again: from the slot that it was popped at
and from the number of this position it computes the two others, by adding or subtracting segments and
XORing masked bits of the hash away.
-/

namespace FastConstMap

variable {p : Params}

/-- The position number `j` as the byte that the counters hold. -/
def foundByte (j : Fin 3) : UInt8 := UInt8.ofNat j.val

theorem foundByte_injective : Function.Injective foundByte := by
  have h : ∀ i j : Fin 3, foundByte i = foundByte j → i = j := by decide
  exact fun i j hij => h i j hij

/-- The position number `j` of `hash` under `p`, as a slot. -/
def Params.slot (p : Params) (hash : UInt64) (j : Fin 3) : UInt32 :=
  position p.segmentLength p.segmentLengthMask p.segmentCountLength hash j

@[simp] theorem slot_toNat (hash : UInt64) (j : Fin 3) : (p.slot hash j).toNat = p.pos hash j := rfl

/-- From a position of `hash` and its number, the branch-free computation gets the two other
positions with their numbers, in cyclic order: XORing the bits of a position away undoes its
offset, also after a segment was added or subtracted. -/
theorem others_slot_of_pow {k : Nat} (hk : p.segmentLength.toNat = 2 ^ k)
    (hmask : p.segmentLengthMask.toNat = p.segmentLength.toNat - 1) (hash : UInt64) (j : Fin 3) :
    others p hash (foundByte j) (p.slot hash j) =
      ((p.slot hash (j + 1), foundByte (j + 1)), (p.slot hash (j + 2), foundByte (j + 2))) := by
  set L := p.segmentLength with hL
  set s1 := (hash >>> 18).toUInt32 &&& p.segmentLengthMask with hs1
  set s2 := hash.toUInt32 &&& p.segmentLengthMask with hs2
  have hlt1 : s1.toNat < 2 ^ k := and_mask_lt hk hmask _
  have hlt2 : s2.toNat < 2 ^ k := and_mask_lt hk hmask _
  set h0 := mulHigh32 hash p.segmentCountLength with hh0
  have e0 : p.slot hash 0 = h0 := rfl
  have e1 : p.slot hash 1 = (h0 + L) ^^^ s1 := rfl
  have e2 : p.slot hash 2 = (h0 + L + L) ^^^ s2 := rfl
  have hcancel : ∀ x y : UInt32, x ^^^ (x ^^^ y) = y := by
    intro x y
    rw [← UInt32.xor_assoc, UInt32.xor_self, UInt32.zero_xor]
  have hcancel' : ∀ x y : UInt32, (x ^^^ y) ^^^ y = x := by
    intro x y
    rw [UInt32.xor_assoc, UInt32.xor_self, UInt32.xor_zero]
  have hadd2 : ∀ x : UInt32, x - -(2 * L) = x + L + L := by
    intro x
    rw [UInt32.sub_neg, UInt32.two_mul, UInt32.add_assoc]
  have hsub2 : ∀ x : UInt32, x + -(2 * L) = x - L - L := by
    intro x
    rw [UInt32.two_mul, UInt32.neg_add, UInt32.sub_eq_add_neg, UInt32.sub_eq_add_neg,
      UInt32.sub_eq_add_neg, UInt32.add_assoc]
  match j with
  | 0 =>
    rw [show (0 : Fin 3) + 1 = 1 from rfl, show (0 : Fin 3) + 2 = 2 from rfl, e0, e1, e2]
    unfold others
    rw [show (0 : UInt32) - ((foundByte 0 - 1) >>> 7).toUInt32 = -1 from by decide,
      show (0 : UInt32) - (foundByte 0 &&& (1 : UInt8)).toUInt32 = 0 from by decide,
      show (0 : UInt32) - (foundByte 0 >>> (1 : UInt8)).toUInt32 = 0 from by decide]
    simp only [← hL, ← hs1, ← hs2, UInt32.and_zero, UInt32.xor_zero, UInt32.not_zero,
      UInt32.and_neg_one, UInt32.not_neg_one, UInt32.zero_xor, UInt32.zero_sub, hcancel, hadd2]
    rfl
  | 1 =>
    rw [show (1 : Fin 3) + 1 = 2 from rfl, show (1 : Fin 3) + 2 = 0 from rfl, e0, e1, e2]
    unfold others
    rw [show (0 : UInt32) - ((foundByte 1 - 1) >>> 7).toUInt32 = 0 from by decide,
      show (0 : UInt32) - (foundByte 1 &&& (1 : UInt8)).toUInt32 = -1 from by decide,
      show (0 : UInt32) - (foundByte 1 >>> (1 : UInt8)).toUInt32 = 0 from by decide]
    simp only [← hL, ← hs1, ← hs2, UInt32.and_zero, UInt32.xor_zero, UInt32.not_zero,
      UInt32.and_neg_one, UInt32.not_neg_one]
    rw [Words.xor_add hk hlt1, Words.xor_sub hk hlt1, UInt32.add_sub_cancel, hcancel',
      ← UInt32.xor_assoc, hcancel']
    rfl
  | 2 =>
    rw [show (2 : Fin 3) + 1 = 0 from rfl, show (2 : Fin 3) + 2 = 1 from rfl, e0, e1, e2]
    unfold others
    rw [show (0 : UInt32) - ((foundByte 2 - 1) >>> 7).toUInt32 = 0 from by decide,
      show (0 : UInt32) - (foundByte 2 &&& (1 : UInt8)).toUInt32 = 0 from by decide,
      show (0 : UInt32) - (foundByte 2 >>> (1 : UInt8)).toUInt32 = -1 from by decide]
    simp only [← hL, ← hs1, ← hs2, UInt32.and_zero, UInt32.xor_zero, UInt32.not_zero,
      UInt32.and_neg_one, UInt32.not_neg_one, UInt32.zero_xor, UInt32.zero_sub, hcancel, hsub2]
    rw [Words.xor_sub hk hlt2, Words.xor_sub hk hlt2, UInt32.add_sub_cancel, UInt32.add_sub_cancel,
      hcancel', UInt32.xor_comm s1, ← UInt32.xor_assoc, hcancel']
    rfl

theorem others_slot (hp : p.Valid) (hash : UInt64) (j : Fin 3) :
    others p hash (foundByte j) (p.slot hash j) =
      ((p.slot hash (j + 1), foundByte (j + 1)), (p.slot hash (j + 2), foundByte (j + 2))) := by
  obtain ⟨k, hk⟩ := hp.pow
  exact others_slot_of_pow hk hp.mask hash j

/-- The branch-free computation agrees with `fcm_get_h012`: for every hash and every power-of-two
segment length, whatever `segment_count_length` is and also where a position wraps. -/
theorem others_getH012 {p : Params} {k : Nat} (hL : p.segmentLength.toNat = 2 ^ k)
    (hmask : p.segmentLengthMask = p.segmentLength - 1) (hash : UInt64) :
    let h := p.getH012 hash
    others p hash 0 h.1 = ((h.2.1, 1), (h.2.2, 2)) ∧
    others p hash 1 h.2.1 = ((h.2.2, 2), (h.1, 0)) ∧
    others p hash 2 h.2.2 = ((h.1, 0), (h.2.1, 1)) := by
  have hmask' : p.segmentLengthMask.toNat = p.segmentLength.toNat - 1 := by
    rw [hmask]
    refine UInt32.toNat_sub_of_le _ _ ?_
    rw [UInt32.le_iff_toNat_le, hL]
    exact Nat.one_le_two_pow
  exact ⟨others_slot_of_pow hL hmask' hash 0, others_slot_of_pow hL hmask' hash 1,
    others_slot_of_pow hL hmask' hash 2⟩

/-- Segments of two slots, up to the end of the `uint32` range. -/
theorem others_getH012_wide :
    let p : Params := ⟨0, 2, 1, 0x7FFFFFFE, 0xFFFFFFFC, 0⟩
    let hash : UInt64 := 0xFFFFFFFFFFFFFFFF
    p.getH012 hash = (0xFFFFFFFB, 0xFFFFFFFC, 0xFFFFFFFE) ∧
    others p hash 2 0xFFFFFFFE = ((0xFFFFFFFB, 0), (0xFFFFFFFC, 1)) := by
  intro p hash
  have hpos : p.getH012 hash = (0xFFFFFFFB, 0xFFFFFFFC, 0xFFFFFFFE) := by decide
  have hL : p.segmentLength.toNat = 2 ^ 1 := rfl
  have hmask : p.segmentLengthMask = p.segmentLength - 1 := by decide
  obtain ⟨-, -, h2⟩ := others_getH012 hL hmask hash
  rw [hpos] at h2
  exact ⟨hpos, h2⟩

end FastConstMap
