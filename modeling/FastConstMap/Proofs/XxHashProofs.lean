import FastConstMap.XxHash
import FastConstMap.Proofs.WordsProofs

/-!
# Proofs: the memory reads of xxhash

However it is compiled, `xxhash.h` reads the little-endian words of the key, inside of the key only.
-/

namespace FastConstMap

open CLoop Slices

/-! ## Byte swaps -/

/-- One byte of a word, masked in place after a shift to the left. -/
theorem shiftLeft_and_byte (n : Nat) {a s w : Nat} (ha : a ≤ s) (hs : s + 8 ≤ w) :
    (n <<< a % 2 ^ w) &&& (255 <<< s) = (n / 2 ^ (s - a) % 256) <<< s := by
  apply Nat.eq_of_testBit_eq
  intro i
  rw [show (255 : Nat) = 2 ^ 8 - 1 from rfl, show (256 : Nat) = 2 ^ 8 from rfl]
  simp only [Nat.testBit_and, Nat.testBit_mod_two_pow, Nat.testBit_shiftLeft,
    Nat.testBit_two_pow_sub_one, Nat.testBit_div_two_pow]
  by_cases hi : s ≤ i
  · by_cases hi8 : i - s < 8
    · rw [show i - s + (s - a) = i - a by omega]
      simp [hi, hi8, show i < w by omega, show a ≤ i by omega]
    · simp [hi8]
  · simp [hi]

/-- One byte of a word, masked in place after a shift to the right. -/
theorem shiftRight_and_byte (n a s : Nat) :
    (n >>> a) &&& (255 <<< s) = (n / 2 ^ (s + a) % 256) <<< s := by
  apply Nat.eq_of_testBit_eq
  intro i
  rw [show (255 : Nat) = 2 ^ 8 - 1 from rfl, show (256 : Nat) = 2 ^ 8 from rfl]
  simp only [Nat.testBit_and, Nat.testBit_mod_two_pow, Nat.testBit_shiftLeft, Nat.testBit_shiftRight,
    Nat.testBit_two_pow_sub_one, Nat.testBit_div_two_pow]
  by_cases hi : s ≤ i
  · rw [show i - s + (s + a) = a + i by omega]
    cases decide (i - s < 8) <;> simp [hi]
  · simp [hi]

/-- The same byte of a 64-bit word. -/
theorem swap64_left (x : UInt64) {a s : Nat} (ha : a ≤ s) (hs : s ≤ 56) :
    (x <<< UInt64.ofNat a) &&& UInt64.ofNat (255 <<< s) =
      (UInt8.ofNat (x.toNat / 2 ^ (s - a))).toUInt64 <<< UInt64.ofNat s := by
  have hmask : 255 <<< s < 2 ^ 64 := by
    rw [Nat.shiftLeft_eq]
    have hpow : 2 ^ s ≤ 2 ^ 56 := Nat.pow_le_pow_right (by decide) hs
    omega
  apply UInt64.toNat_inj.mp
  rw [UInt64.toNat_and, UInt64.toNat_shiftLeft, toNat_byte_shiftLeft _ hs, UInt8.toNat_ofNat',
    UInt64.toNat_ofNat', UInt64.toNat_ofNat', Nat.mod_eq_of_lt hmask,
    show a % 2 ^ 64 % 64 = a by omega]
  exact shiftLeft_and_byte _ ha (by omega)

theorem swap64_right (x : UInt64) {a s : Nat} (ha : a < 64) (hs : s ≤ 56) :
    (x >>> UInt64.ofNat a) &&& UInt64.ofNat (255 <<< s) =
      (UInt8.ofNat (x.toNat / 2 ^ (s + a))).toUInt64 <<< UInt64.ofNat s := by
  have hmask : 255 <<< s < 2 ^ 64 := by
    rw [Nat.shiftLeft_eq]
    have hpow : 2 ^ s ≤ 2 ^ 56 := Nat.pow_le_pow_right (by decide) hs
    omega
  apply UInt64.toNat_inj.mp
  rw [UInt64.toNat_and, UInt64.toNat_shiftRight, toNat_byte_shiftLeft _ hs, UInt8.toNat_ofNat',
    UInt64.toNat_ofNat', UInt64.toNat_ofNat', Nat.mod_eq_of_lt hmask,
    show a % 2 ^ 64 % 64 = a by omega]
  exact shiftRight_and_byte _ a s

theorem swap32_left (x : UInt32) {a s : Nat} (ha : a ≤ s) (hs : s ≤ 24) :
    (x <<< UInt32.ofNat a) &&& UInt32.ofNat (255 <<< s) =
      (UInt8.ofNat (x.toNat / 2 ^ (s - a))).toUInt32 <<< UInt32.ofNat s := by
  have hmask : 255 <<< s < 2 ^ 32 := by
    rw [Nat.shiftLeft_eq]
    have hpow : 2 ^ s ≤ 2 ^ 24 := Nat.pow_le_pow_right (by decide) hs
    omega
  apply UInt32.toNat_inj.mp
  rw [UInt32.toNat_and, UInt32.toNat_shiftLeft, toNat_byte_shiftLeft32 _ hs, UInt8.toNat_ofNat',
    UInt32.toNat_ofNat', UInt32.toNat_ofNat', Nat.mod_eq_of_lt hmask,
    show a % 2 ^ 32 % 32 = a by omega]
  exact shiftLeft_and_byte _ ha (by omega)

theorem swap32_right (x : UInt32) {a s : Nat} (ha : a < 32) (hs : s ≤ 24) :
    (x >>> UInt32.ofNat a) &&& UInt32.ofNat (255 <<< s) =
      (UInt8.ofNat (x.toNat / 2 ^ (s + a))).toUInt32 <<< UInt32.ofNat s := by
  have hmask : 255 <<< s < 2 ^ 32 := by
    rw [Nat.shiftLeft_eq]
    have hpow : 2 ^ s ≤ 2 ^ 24 := Nat.pow_le_pow_right (by decide) hs
    omega
  apply UInt32.toNat_inj.mp
  rw [UInt32.toNat_and, UInt32.toNat_shiftRight, toNat_byte_shiftLeft32 _ hs, UInt8.toNat_ofNat',
    UInt32.toNat_ofNat', UInt32.toNat_ofNat', Nat.mod_eq_of_lt hmask,
    show a % 2 ^ 32 % 32 = a by omega]
  exact shiftRight_and_byte _ a s

theorem or_reverse (a b c d e f g h : UInt64) :
    a ||| b ||| c ||| d ||| e ||| f ||| g ||| h = h ||| g ||| f ||| e ||| d ||| c ||| b ||| a := by
  ac_rfl

/-- A swapped word has the bytes of the word in the other order. -/
theorem swap64_toNat (x : UInt64) :
    (swap64 x).toNat = LittleEndian.value (LittleEndian.bytes 8 x.toNat).reverse := by
  have h7 : (x <<< 56) &&& (0xff00000000000000 : UInt64) =
      (UInt8.ofNat (x.toNat / 2 ^ 0)).toUInt64 <<< 56 :=
    swap64_left x (a := 56) (s := 56) (by decide) (by decide)
  have h6 : (x <<< 40) &&& (0x00ff000000000000 : UInt64) =
      (UInt8.ofNat (x.toNat / 2 ^ 8)).toUInt64 <<< 48 :=
    swap64_left x (a := 40) (s := 48) (by decide) (by decide)
  have h5 : (x <<< 24) &&& (0x0000ff0000000000 : UInt64) =
      (UInt8.ofNat (x.toNat / 2 ^ 16)).toUInt64 <<< 40 :=
    swap64_left x (a := 24) (s := 40) (by decide) (by decide)
  have h4 : (x <<< 8) &&& (0x000000ff00000000 : UInt64) =
      (UInt8.ofNat (x.toNat / 2 ^ 24)).toUInt64 <<< 32 :=
    swap64_left x (a := 8) (s := 32) (by decide) (by decide)
  have h3 : (x >>> 8) &&& (0x00000000ff000000 : UInt64) =
      (UInt8.ofNat (x.toNat / 2 ^ 32)).toUInt64 <<< 24 :=
    swap64_right x (a := 8) (s := 24) (by decide) (by decide)
  have h2 : (x >>> 24) &&& (0x0000000000ff0000 : UInt64) =
      (UInt8.ofNat (x.toNat / 2 ^ 40)).toUInt64 <<< 16 :=
    swap64_right x (a := 24) (s := 16) (by decide) (by decide)
  have h1 : (x >>> 40) &&& (0x000000000000ff00 : UInt64) =
      (UInt8.ofNat (x.toNat / 2 ^ 48)).toUInt64 <<< 8 :=
    swap64_right x (a := 40) (s := 8) (by decide) (by decide)
  have h0 : (x >>> 56) &&& (0x00000000000000ff : UInt64) =
      (UInt8.ofNat (x.toNat / 2 ^ 56)).toUInt64 <<< UInt64.ofNat 0 :=
    swap64_right x (a := 56) (s := 0) (by decide) (by decide)
  rw [show (UInt64.ofNat 0) = 0 from rfl, UInt64.shiftLeft_zero] at h0
  have hbytes : (LittleEndian.bytes 8 x.toNat).reverse = [UInt8.ofNat (x.toNat / 2 ^ 56),
      UInt8.ofNat (x.toNat / 2 ^ 48), UInt8.ofNat (x.toNat / 2 ^ 40), UInt8.ofNat (x.toNat / 2 ^ 32),
      UInt8.ofNat (x.toNat / 2 ^ 24), UInt8.ofNat (x.toNat / 2 ^ 16), UInt8.ofNat (x.toNat / 2 ^ 8),
      UInt8.ofNat (x.toNat / 2 ^ 0)] := by
    simp [LittleEndian.bytes, Nat.div_div_eq_div_mul]
  rw [swap64, h7, h6, h5, h4, h3, h2, h1, h0, or_reverse, hbytes, or_eight]

theorem swap32_toNat (x : UInt32) :
    (swap32 x).toNat = LittleEndian.value (LittleEndian.bytes 4 x.toNat).reverse := by
  have h3 : (x <<< 24) &&& (0xff000000 : UInt32) =
      (UInt8.ofNat (x.toNat / 2 ^ 0)).toUInt32 <<< 24 :=
    swap32_left x (a := 24) (s := 24) (by decide) (by decide)
  have h2 : (x <<< 8) &&& (0x00ff0000 : UInt32) =
      (UInt8.ofNat (x.toNat / 2 ^ 8)).toUInt32 <<< 16 :=
    swap32_left x (a := 8) (s := 16) (by decide) (by decide)
  have h1 : (x >>> 8) &&& (0x0000ff00 : UInt32) =
      (UInt8.ofNat (x.toNat / 2 ^ 16)).toUInt32 <<< 8 :=
    swap32_right x (a := 8) (s := 8) (by decide) (by decide)
  have h0 : (x >>> 24) &&& (0x000000ff : UInt32) =
      (UInt8.ofNat (x.toNat / 2 ^ 24)).toUInt32 <<< UInt32.ofNat 0 :=
    swap32_right x (a := 24) (s := 0) (by decide) (by decide)
  rw [show (UInt32.ofNat 0) = 0 from rfl, UInt32.shiftLeft_zero] at h0
  have hbytes : (LittleEndian.bytes 4 x.toNat).reverse = [UInt8.ofNat (x.toNat / 2 ^ 24),
      UInt8.ofNat (x.toNat / 2 ^ 16), UInt8.ofNat (x.toNat / 2 ^ 8),
      UInt8.ofNat (x.toNat / 2 ^ 0)] := by
    simp [LittleEndian.bytes, Nat.div_div_eq_div_mul]
  have hreverse : ∀ a b c d : UInt32, a ||| b ||| c ||| d = d ||| c ||| b ||| a := by
    intro a b c d
    ac_rfl
  rw [swap32, h3, h2, h1, h0, hreverse, hbytes, or_four]

/-! ## Reads -/

section Reads

variable (B : XxhBuild) {p : Bytes} {off : Nat}

theorem readU32_none (h : p.length < off + 4) : readU32 p off = none := by
  have hlast : load p (off + 3) = none := List.getElem?_eq_none (by omega)
  unfold readU32
  simp [hlast]

/-- The eight bytes of a word that a host of the other byte order loads and swaps. -/
theorem swap64_native (h : off + 8 ≤ p.length) : swap64 (nativeWordAt false p off) = wordAt p off := by
  have hlen : ((p.drop off).take 8).reverse.length = 8 := by
    rw [List.length_reverse]
    exact length_slice h
  have hlt : LittleEndian.value ((p.drop off).take 8).reverse < 2 ^ 64 := by
    have h256 := LittleEndian.value_lt ((p.drop off).take 8).reverse
    rwa [hlen] at h256
  apply UInt64.toNat_inj.mp
  have hbytes := LittleEndian.bytes_value ((p.drop off).take 8).reverse
  rw [hlen] at hbytes
  rw [swap64_toNat, nativeWordAt, if_neg (by decide), nativeU64, UInt64.toNat_ofNat',
    Nat.mod_eq_of_lt hlt, hbytes, List.reverse_reverse, wordAt, nativeU64, UInt64.toNat_ofNat']
  exact (Nat.mod_eq_of_lt (value_slice_lt h)).symm

theorem swap32_native (h : off + 4 ≤ p.length) :
    swap32 (UInt32.ofNat (LittleEndian.value ((p.drop off).take 4).reverse)) = word32At p off := by
  have hlen : ((p.drop off).take 4).reverse.length = 4 := by
    rw [List.length_reverse]
    exact length_slice h
  have hlt : LittleEndian.value ((p.drop off).take 4).reverse < 2 ^ 32 := by
    have h256 := LittleEndian.value_lt ((p.drop off).take 4).reverse
    rwa [hlen] at h256
  apply UInt32.toNat_inj.mp
  have hbytes := LittleEndian.bytes_value ((p.drop off).take 4).reverse
  rw [hlen] at hbytes
  rw [swap32_toNat, UInt32.toNat_ofNat', Nat.mod_eq_of_lt hlt, hbytes, List.reverse_reverse,
    word32At, UInt32.toNat_ofNat']
  exact (Nat.mod_eq_of_lt (value_slice_lt32 h)).symm

/-- A native load, swapped on a big-endian host. -/
theorem read64_swapped : (do
    let v ← xxhRead64 B p off
    some (if B.littleEndian then v else swap64 v)) = readU64 p off := by
  by_cases h : off + 8 ≤ p.length
  · rw [xxhRead64, if_pos h, readU64_of_le h]
    cases hle : B.littleEndian with
    | true => rfl
    | false => exact congrArg some (swap64_native h)
  · rw [xxhRead64, if_neg h, readU64_eq_none (not_le.mp h)]
    rfl

theorem read32_swapped : (do
    let v ← xxhRead32 B p off
    some (if B.littleEndian then v else swap32 v)) = readU32 p off := by
  by_cases h : off + 4 ≤ p.length
  · rw [xxhRead32, if_pos h, readU32_of_le h]
    cases hle : B.littleEndian with
    | true => rfl
    | false => exact congrArg some (swap32_native h)
  · rw [xxhRead32, if_neg h, readU32_none (not_le.mp h)]
    rfl

/-- Every build reads the same words. -/
@[simp] theorem readLE64_eq (p : Bytes) (off : Nat) : readLE64 B p off = readU64 p off := by
  by_cases h : B.byteLoads = true
  · rw [readLE64, if_pos h]
  · rw [readLE64, if_neg h]
    exact read64_swapped B

@[simp] theorem readLE32_eq (p : Bytes) (off : Nat) : readLE32 B p off = readU32 p off := by
  by_cases h : B.byteLoads = true
  · rw [readLE32, if_pos h]
  · rw [readLE32, if_neg h]
    exact read32_swapped B

@[simp] theorem readLE64Align_eq (align : XxhAlignment) (p : Bytes) (off : Nat) :
    readLE64Align B align p off = readU64 p off := by
  by_cases h : align = .unaligned
  · rw [readLE64Align, if_pos h, readLE64_eq]
  · rw [readLE64Align, if_neg h]
    exact read64_swapped B

@[simp] theorem readLE32Align_eq (align : XxhAlignment) (p : Bytes) (off : Nat) :
    readLE32Align B align p off = readU32 p off := by
  by_cases h : align = .unaligned
  · rw [readLE32Align, if_pos h, readLE32_eq]
  · rw [readLE32Align, if_neg h]
    exact read32_swapped B

end Reads

end FastConstMap
