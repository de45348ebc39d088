import FastConstMap.Serial
import FastConstMap.Lib.Slices

/-!
# Proofs: words in a buffer

`fcm_read_u32` and `fcm_read_u64` read the little-endian word that a slice of the buffer writes out,
and `fcm_write_u32` and `fcm_write_u64` write it.
-/

namespace FastConstMap

open CLoop Slices

/-! ## Writing -/

theorem writeU32_eq (v : UInt32) : writeU32 v = LittleEndian.bytes 4 v.toNat := by
  have hb : ∀ k : Nat, k < 32 → (v >>> UInt32.ofNat k).toUInt8 = UInt8.ofNat (v.toNat / 2 ^ k) := by
    intro k hk
    apply UInt8.toNat_inj.mp
    rw [UInt32.toNat_toUInt8, UInt32.toNat_shiftRight, UInt32.toNat_ofNat', UInt8.toNat_ofNat',
      show k % 2 ^ 32 % 32 = k by omega, Nat.shiftRight_eq_div_pow]
  have h0 : v.toUInt8 = UInt8.ofNat v.toNat := by
    apply UInt8.toNat_inj.mp
    rw [UInt32.toNat_toUInt8, UInt8.toNat_ofNat']
  simp only [LittleEndian.bytes, Nat.div_div_eq_div_mul]
  rw [writeU32, h0]
  congr 1
  rw [show v >>> 8 = v >>> UInt32.ofNat 8 from rfl, show v >>> 16 = v >>> UInt32.ofNat 16 from rfl,
    show v >>> 24 = v >>> UInt32.ofNat 24 from rfl, hb 8 (by decide), hb 16 (by decide),
    hb 24 (by decide)]
  simp only [Nat.reducePow, Nat.reduceMul]

theorem writeU64_eq (v : UInt64) : writeU64 v = LittleEndian.bytes 8 v.toNat := by
  have hb : ∀ k : Nat, k < 64 → (v >>> UInt64.ofNat k).toUInt8 = UInt8.ofNat (v.toNat / 2 ^ k) := by
    intro k hk
    apply UInt8.toNat_inj.mp
    rw [UInt64.toNat_toUInt8, UInt64.toNat_shiftRight, UInt64.toNat_ofNat', UInt8.toNat_ofNat',
      show k % 2 ^ 64 % 64 = k by omega, Nat.shiftRight_eq_div_pow]
  have h0 : v.toUInt8 = UInt8.ofNat v.toNat := by
    apply UInt8.toNat_inj.mp
    rw [UInt64.toNat_toUInt8, UInt8.toNat_ofNat']
  simp only [LittleEndian.bytes, Nat.div_div_eq_div_mul]
  rw [writeU64, h0]
  congr 1
  rw [show v >>> 8 = v >>> UInt64.ofNat 8 from rfl, show v >>> 16 = v >>> UInt64.ofNat 16 from rfl,
    show v >>> 24 = v >>> UInt64.ofNat 24 from rfl, show v >>> 32 = v >>> UInt64.ofNat 32 from rfl,
    show v >>> 40 = v >>> UInt64.ofNat 40 from rfl, show v >>> 48 = v >>> UInt64.ofNat 48 from rfl,
    show v >>> 56 = v >>> UInt64.ofNat 56 from rfl, hb 8 (by decide), hb 16 (by decide),
    hb 24 (by decide), hb 32 (by decide), hb 40 (by decide), hb 48 (by decide), hb 56 (by decide)]
  simp only [Nat.reducePow, Nat.reduceMul]

@[simp] theorem length_writeU32 (v : UInt32) : (writeU32 v).length = 4 := rfl

@[simp] theorem length_writeU64 (v : UInt64) : (writeU64 v).length = 8 := rfl

theorem value_writeU64 (v : UInt64) : LittleEndian.value (writeU64 v) = v.toNat := by
  rw [writeU64_eq]
  exact LittleEndian.value_bytes v.toNat_lt

theorem value_writeU32 (v : UInt32) : LittleEndian.value (writeU32 v) = v.toNat := by
  rw [writeU32_eq]
  exact LittleEndian.value_bytes v.toNat_lt

theorem writeU64_injective : Function.Injective writeU64 := by
  intro a b h
  have := congrArg LittleEndian.value h
  rw [value_writeU64, value_writeU64] at this
  exact UInt64.toNat_inj.mp this

/-- Eight bytes are the word that they are the value of. -/
theorem writeU64_nativeU64 {bs : Bytes} (h : bs.length = 8) : writeU64 (nativeU64 bs) = bs := by
  have hlt : LittleEndian.value bs < 2 ^ 64 := by
    have := LittleEndian.value_lt bs
    rwa [h] at this
  rw [writeU64_eq, nativeU64, UInt64.toNat_ofNat', Nat.mod_eq_of_lt hlt]
  conv_rhs => rw [← LittleEndian.bytes_value bs, h]

/-! ## Reading -/

/-- The entries of a slice of eight. -/
theorem slice_eight {p : Bytes} {off : Nat} (h : off + 8 ≤ p.length) :
    slice p off 8 = [p[off], p[off + 1], p[off + 2], p[off + 3], p[off + 4], p[off + 5], p[off + 6],
      p[off + 7]] := by
  unfold slice
  iterate 8 rw [List.drop_eq_getElem_cons (by omega), List.take_succ_cons]
  rfl

theorem slice_four {p : Bytes} {off : Nat} (h : off + 4 ≤ p.length) :
    slice p off 4 = [p[off], p[off + 1], p[off + 2], p[off + 3]] := by
  unfold slice
  iterate 4 rw [List.drop_eq_getElem_cons (by omega), List.take_succ_cons]
  rfl

theorem toNat_byte_shiftLeft (b : UInt8) {k : Nat} (hk : k ≤ 56) :
    (b.toUInt64 <<< UInt64.ofNat k).toNat = b.toNat <<< k := by
  have hb := b.toNat_lt
  have hpow : 2 ^ k ≤ 2 ^ 56 := Nat.pow_le_pow_right (by decide) hk
  rw [UInt64.toNat_shiftLeft, UInt64.toNat_ofNat', show k % 2 ^ 64 % 64 = k by omega,
    UInt8.toNat_toUInt64, Nat.shiftLeft_eq, Nat.mod_eq_of_lt]
  nlinarith

theorem toNat_byte_shiftLeft32 (b : UInt8) {k : Nat} (hk : k ≤ 24) :
    (b.toUInt32 <<< UInt32.ofNat k).toNat = b.toNat <<< k := by
  have hb := b.toNat_lt
  have hpow : 2 ^ k ≤ 2 ^ 24 := Nat.pow_le_pow_right (by decide) hk
  rw [UInt32.toNat_shiftLeft, UInt32.toNat_ofNat', show k % 2 ^ 32 % 32 = k by omega,
    UInt8.toNat_toUInt32, Nat.shiftLeft_eq, Nat.mod_eq_of_lt]
  nlinarith

/-- The OR of four shifted bytes is their value. -/
theorem or_four (b0 b1 b2 b3 : UInt8) :
    (b0.toUInt32 ||| b1.toUInt32 <<< 8 ||| b2.toUInt32 <<< 16 ||| b3.toUInt32 <<< 24).toNat =
      LittleEndian.value [b0, b1, b2, b3] := by
  have h0 := b0.toNat_lt
  have h1 := b1.toNat_lt
  have h2 := b2.toNat_lt
  rw [UInt32.toNat_or, UInt32.toNat_or, UInt32.toNat_or, UInt8.toNat_toUInt32,
    show b1.toUInt32 <<< 8 = b1.toUInt32 <<< UInt32.ofNat 8 from rfl,
    show b2.toUInt32 <<< 16 = b2.toUInt32 <<< UInt32.ofNat 16 from rfl,
    show b3.toUInt32 <<< 24 = b3.toUInt32 <<< UInt32.ofNat 24 from rfl,
    toNat_byte_shiftLeft32 b1 (by decide), toNat_byte_shiftLeft32 b2 (by decide),
    toNat_byte_shiftLeft32 b3 (by decide),
    LittleEndian.or_shiftLeft (k := 8) (by omega), LittleEndian.or_shiftLeft (k := 16) (by omega),
    LittleEndian.or_shiftLeft (k := 24) (by omega)]
  simp only [LittleEndian.value]
  omega

/-- The OR of eight shifted bytes is their value. -/
theorem or_eight (b0 b1 b2 b3 b4 b5 b6 b7 : UInt8) :
    (b0.toUInt64 ||| b1.toUInt64 <<< 8 ||| b2.toUInt64 <<< 16 ||| b3.toUInt64 <<< 24 |||
      b4.toUInt64 <<< 32 ||| b5.toUInt64 <<< 40 ||| b6.toUInt64 <<< 48 |||
      b7.toUInt64 <<< 56).toNat = LittleEndian.value [b0, b1, b2, b3, b4, b5, b6, b7] := by
  have h0 := b0.toNat_lt
  have h1 := b1.toNat_lt
  have h2 := b2.toNat_lt
  have h3 := b3.toNat_lt
  have h4 := b4.toNat_lt
  have h5 := b5.toNat_lt
  have h6 := b6.toNat_lt
  rw [UInt64.toNat_or, UInt64.toNat_or, UInt64.toNat_or, UInt64.toNat_or, UInt64.toNat_or,
    UInt64.toNat_or, UInt64.toNat_or, UInt8.toNat_toUInt64,
    show b1.toUInt64 <<< 8 = b1.toUInt64 <<< UInt64.ofNat 8 from rfl,
    show b2.toUInt64 <<< 16 = b2.toUInt64 <<< UInt64.ofNat 16 from rfl,
    show b3.toUInt64 <<< 24 = b3.toUInt64 <<< UInt64.ofNat 24 from rfl,
    show b4.toUInt64 <<< 32 = b4.toUInt64 <<< UInt64.ofNat 32 from rfl,
    show b5.toUInt64 <<< 40 = b5.toUInt64 <<< UInt64.ofNat 40 from rfl,
    show b6.toUInt64 <<< 48 = b6.toUInt64 <<< UInt64.ofNat 48 from rfl,
    show b7.toUInt64 <<< 56 = b7.toUInt64 <<< UInt64.ofNat 56 from rfl,
    toNat_byte_shiftLeft b1 (by decide), toNat_byte_shiftLeft b2 (by decide),
    toNat_byte_shiftLeft b3 (by decide), toNat_byte_shiftLeft b4 (by decide),
    toNat_byte_shiftLeft b5 (by decide), toNat_byte_shiftLeft b6 (by decide),
    toNat_byte_shiftLeft b7 (by decide),
    LittleEndian.or_shiftLeft (k := 8) (by omega), LittleEndian.or_shiftLeft (k := 16) (by omega),
    LittleEndian.or_shiftLeft (k := 24) (by omega), LittleEndian.or_shiftLeft (k := 32) (by omega),
    LittleEndian.or_shiftLeft (k := 40) (by omega), LittleEndian.or_shiftLeft (k := 48) (by omega),
    LittleEndian.or_shiftLeft (k := 56) (by omega)]
  simp only [LittleEndian.value]
  omega

theorem value_slice_lt {p : Bytes} {off : Nat} (h : off + 8 ≤ p.length) :
    LittleEndian.value (slice p off 8) < 2 ^ 64 := by
  have := LittleEndian.value_lt (slice p off 8)
  rwa [length_slice h] at this

theorem value_slice_lt32 {p : Bytes} {off : Nat} (h : off + 4 ≤ p.length) :
    LittleEndian.value (slice p off 4) < 2 ^ 32 := by
  have := LittleEndian.value_lt (slice p off 4)
  rwa [length_slice h] at this

/-- `fcm_read_u64` reads the word that the host sees. -/
theorem readU64_of_le {p : Bytes} {off : Nat} (h : off + 8 ≤ p.length) :
    readU64 p off = some (wordAt p off) := by
  unfold readU64
  rw [load_of_lt (by omega), load_of_lt (by omega), load_of_lt (by omega), load_of_lt (by omega),
    load_of_lt (by omega), load_of_lt (by omega), load_of_lt (by omega), load_of_lt (by omega)]
  simp only [Option.bind_eq_bind, Option.bind_some]
  refine congrArg some (UInt64.toNat_inj.mp ?_)
  rw [or_eight, ← slice_eight h, wordAt, show (p.drop off).take 8 = slice p off 8 from rfl,
    nativeU64, UInt64.toNat_ofNat', Nat.mod_eq_of_lt (value_slice_lt h)]

theorem readU64_eq_none {p : Bytes} {off : Nat} (h : p.length < off + 8) : readU64 p off = none := by
  have hlast : load p (off + 7) = none := List.getElem?_eq_none (by omega)
  unfold readU64
  simp [hlast]

theorem readU64_le {p : Bytes} {off : Nat} {v : UInt64} (h : readU64 p off = some v) :
    off + 8 ≤ p.length := by
  by_contra hlt
  rw [readU64_eq_none (not_le.mp hlt)] at h
  exact absurd h nofun

/-- A slice of eight bytes writes out the word that the host sees. -/
theorem slice_eq_writeU64 {p : Bytes} {off : Nat} (h : off + 8 ≤ p.length) :
    slice p off 8 = writeU64 (wordAt p off) := (writeU64_nativeU64 (length_slice h)).symm

theorem wordAt_eq {p : Bytes} {off : Nat} {v : UInt64} (h : slice p off 8 = writeU64 v) :
    wordAt p off = v := by
  have hle := le_of_length_slice (by decide) (h ▸ length_writeU64 v : (slice p off 8).length = 8)
  exact writeU64_injective ((slice_eq_writeU64 hle).symm.trans h)

/-- The word that `fcm_read_u32` reads at `p + off`. -/
def word32At (p : Bytes) (off : Nat) : UInt32 := UInt32.ofNat (LittleEndian.value (slice p off 4))

theorem readU32_of_le {p : Bytes} {off : Nat} (h : off + 4 ≤ p.length) :
    readU32 p off = some (word32At p off) := by
  unfold readU32
  rw [load_of_lt (by omega), load_of_lt (by omega), load_of_lt (by omega), load_of_lt (by omega)]
  simp only [Option.bind_eq_bind, Option.bind_some]
  refine congrArg some (UInt32.toNat_inj.mp ?_)
  rw [or_four, ← slice_four h, word32At, UInt32.toNat_ofNat',
    Nat.mod_eq_of_lt (value_slice_lt32 h)]

/-- A slice of four bytes writes out the word that is read there. -/
theorem slice_eq_writeU32 {p : Bytes} {off : Nat} (h : off + 4 ≤ p.length) :
    slice p off 4 = writeU32 (word32At p off) := by
  refine LittleEndian.value_injective (by rw [length_slice h]; rfl) ?_
  rw [value_writeU32, word32At, UInt32.toNat_ofNat', Nat.mod_eq_of_lt (value_slice_lt32 h)]

theorem word32At_eq {p : Bytes} {off : Nat} {v : UInt32} (h : slice p off 4 = writeU32 v) :
    word32At p off = v := by
  rw [word32At, h, value_writeU32, UInt32.ofNat_toNat]

end FastConstMap
