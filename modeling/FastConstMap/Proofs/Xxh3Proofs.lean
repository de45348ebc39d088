import FastConstMap.Proofs.Xxh64Proofs
import FastConstMap.Xxh3

/-!
# Proofs: XXH3 on keys of up to 240 bytes

The portable product of words is exact, and on keys of up to 240 bytes every build reads inside of the key
and of the secret only, and returns the same hash.
-/

namespace FastConstMap.Xxh3

open CLoop Vectors

/-! ## The product -/

theorem and_low_toNat (x : UInt64) : (x &&& 0xFFFFFFFF).toNat = x.toNat % 2 ^ 32 := by
  rw [UInt64.toNat_and]
  exact Nat.and_two_pow_sub_one_eq_mod x.toNat 32

/-- The sum in the middle never overflows, the high word neither. -/
theorem add_products {p q r s : UInt64} (hp : p.toNat ≤ (2 ^ 32 - 1) * (2 ^ 32 - 1))
    (hr : r.toNat ≤ (2 ^ 32 - 1) * (2 ^ 32 - 1))
    (hlt : p.toNat + 2 ^ 32 * (q.toNat + r.toNat) + 2 ^ 64 * s.toNat < 2 ^ 128) :
    let cross := (p >>> 32) + (q &&& 0xFFFFFFFF) + r
    ((cross <<< 32) ||| (p &&& 0xFFFFFFFF)).toNat + 2 ^ 64 * ((q >>> 32) + (cross >>> 32) + s).toNat =
      p.toNat + 2 ^ 32 * (q.toNat + r.toNat) + 2 ^ 64 * s.toNat := by
  intro cross
  have hcross : cross.toNat = p.toNat / 2 ^ 32 + q.toNat % 2 ^ 32 + r.toNat := by
    rw [UInt64.toNat_add, UInt64.toNat_add, shiftRight_32_toNat, and_low_toNat]
    omega
  have hupper : ((q >>> 32) + (cross >>> 32) + s).toNat =
      q.toNat / 2 ^ 32 + cross.toNat / 2 ^ 32 + s.toNat := by
    rw [UInt64.toNat_add, UInt64.toNat_add, shiftRight_32_toNat, shiftRight_32_toNat]
    omega
  have hlower : ((cross <<< 32) ||| (p &&& 0xFFFFFFFF)).toNat =
      p.toNat % 2 ^ 32 + 2 ^ 32 * (cross.toNat % 2 ^ 32) := by
    have hshift : (cross <<< 32).toNat = (cross.toNat % 2 ^ 32) <<< 32 := by
      rw [UInt64.toNat_shiftLeft]
      show cross.toNat <<< 32 % 2 ^ 64 = _
      rw [Nat.shiftLeft_eq, Nat.shiftLeft_eq]
      omega
    rw [UInt64.toNat_or, hshift, and_low_toNat, Nat.or_comm]
    exact LittleEndian.or_shiftLeft (Nat.mod_lt _ (Nat.two_pow_pos 32))
  rw [hlower, hupper, hcross]
  omega

/-- The words of a number of 128 bits. -/
theorem ofNat_words_low (lo hi : UInt64) : UInt64.ofNat (lo.toNat + 2 ^ 64 * hi.toNat) = lo := by
  apply UInt64.toNat_inj.mp
  rw [UInt64.toNat_ofNat', Nat.add_mul_mod_self_left, Nat.mod_eq_of_lt lo.toNat_lt]

theorem ofNat_words_high (lo hi : UInt64) :
    UInt64.ofNat ((lo.toNat + 2 ^ 64 * hi.toNat) >>> 64) = hi := by
  rw [Nat.shiftRight_eq_div_pow, Nat.add_mul_div_left _ _ (Nat.two_pow_pos 64),
    Nat.div_eq_of_lt lo.toNat_lt, Nat.zero_add, UInt64.ofNat_toNat]

/-- Both builds of `XXH_mult64to128` return the product. -/
theorem mult64to128_eq (B : XxhBuild) (lhs rhs : UInt64) :
    mult64to128 B lhs rhs =
      ⟨UInt64.ofNat (lhs.toNat * rhs.toNat), UInt64.ofNat ((lhs.toNat * rhs.toNat) >>> 64)⟩ := by
  by_cases hwide : B.wideProduct = true
  · rw [mult64to128, if_pos hwide]
  have hal := Nat.mod_lt lhs.toNat (Nat.two_pow_pos 32)
  have hbl := Nat.mod_lt rhs.toNat (Nat.two_pow_pos 32)
  have hah : lhs.toNat / 2 ^ 32 < 2 ^ 32 := Nat.div_lt_of_lt_mul lhs.toNat_lt
  have hbh : rhs.toNat / 2 ^ 32 < 2 ^ 32 := Nat.div_lt_of_lt_mul rhs.toNat_lt
  have e1 : (mulLow (lhs &&& 0xFFFFFFFF) (rhs &&& 0xFFFFFFFF)).toNat =
      lhs.toNat % 2 ^ 32 * (rhs.toNat % 2 ^ 32) := by
    rw [mulLow_toNat, and_low_toNat, and_low_toNat, Nat.mod_mod, Nat.mod_mod]
  have e2 : (mulLow (lhs >>> 32) (rhs &&& 0xFFFFFFFF)).toNat =
      lhs.toNat / 2 ^ 32 * (rhs.toNat % 2 ^ 32) := by
    rw [mulLow_toNat, shiftRight_32_toNat, and_low_toNat, Nat.mod_mod, Nat.mod_eq_of_lt hah]
  have e3 : (mulLow (lhs &&& 0xFFFFFFFF) (rhs >>> 32)).toNat =
      lhs.toNat % 2 ^ 32 * (rhs.toNat / 2 ^ 32) := by
    rw [mulLow_toNat, shiftRight_32_toNat, and_low_toNat, Nat.mod_mod, Nat.mod_eq_of_lt hbh]
  have e4 : (mulLow (lhs >>> 32) (rhs >>> 32)).toNat =
      lhs.toNat / 2 ^ 32 * (rhs.toNat / 2 ^ 32) := by
    rw [mulLow_toNat, shiftRight_32_toNat, shiftRight_32_toNat, Nat.mod_eq_of_lt hah,
      Nat.mod_eq_of_lt hbh]
  have hmul : lhs.toNat * rhs.toNat =
      lhs.toNat % 2 ^ 32 * (rhs.toNat % 2 ^ 32) + 2 ^ 32 * (lhs.toNat / 2 ^ 32 * (rhs.toNat % 2 ^ 32) +
        lhs.toNat % 2 ^ 32 * (rhs.toNat / 2 ^ 32)) +
        2 ^ 64 * (lhs.toNat / 2 ^ 32 * (rhs.toNat / 2 ^ 32)) := by
    conv_lhs => rw [← Nat.mod_add_div lhs.toNat (2 ^ 32), ← Nat.mod_add_div rhs.toNat (2 ^ 32)]
    ring
  have hlt : lhs.toNat * rhs.toNat < 2 ^ 64 * 2 ^ 64 :=
    Nat.mul_lt_mul'' lhs.toNat_lt rhs.toNat_lt
  have hsum := add_products (p := mulLow (lhs &&& 0xFFFFFFFF) (rhs &&& 0xFFFFFFFF))
    (q := mulLow (lhs >>> 32) (rhs &&& 0xFFFFFFFF)) (r := mulLow (lhs &&& 0xFFFFFFFF) (rhs >>> 32))
    (s := mulLow (lhs >>> 32) (rhs >>> 32))
    (by rw [e1]; exact Nat.mul_le_mul (Nat.le_sub_one_of_lt hal) (Nat.le_sub_one_of_lt hbl))
    (by rw [e3]; exact Nat.mul_le_mul (Nat.le_sub_one_of_lt hal) (Nat.le_sub_one_of_lt hbh))
    (by rw [e1, e2, e3, e4, ← hmul]; exact hlt)
  rw [e1, e2, e3, e4, ← hmul] at hsum
  rw [mult64to128, if_neg hwide, ← hsum, ofNat_words_low, ofNat_words_high]

/-- The two words of the product of `x` and `y`, XORed. -/
def fold64 (x y : UInt64) : UInt64 :=
  UInt64.ofNat (x.toNat * y.toNat) ^^^ UInt64.ofNat ((x.toNat * y.toNat) >>> 64)

@[simp] theorem mul128Fold64_eq (B : XxhBuild) (x y : UInt64) : mul128Fold64 B x y = fold64 x y := by
  rw [mul128Fold64, mult64to128_eq, fold64]

/-! ## Short keys -/

section Short

variable (B : XxhBuild) {input secret : Bytes} (seed : UInt64)

/-- The four bytes that `XXH3_len_1to3_64b` combines. -/
def combine (input : Bytes) : UInt32 :=
  ((input.getD 0 0).toUInt32 <<< 16) ||| ((input.getD (input.length >>> 1) 0).toUInt32 <<< 24) |||
    ((input.getD (input.length - 1) 0).toUInt32 <<< 0) ||| (UInt32.ofNat input.length <<< 8)

theorem len1to3_eq (h : 0 < input.length) (h3 : input.length ≤ 3) (hs : 136 ≤ secret.length) :
    len1to3 B input secret seed = some (Xxh64.avalanche ((combine input).toUInt64 ^^^
      ((word32At secret 0 ^^^ word32At secret 4).toUInt64 + seed))) := by
  have hget : ∀ i, i < input.length → load input i = some (input.getD i 0) := by
    intro i hi
    rw [load_of_lt hi, List.getD_eq_getElem _ _ hi]
  have hmid : input.length >>> 1 < input.length := by
    rw [Nat.shiftRight_eq_div_pow]
    omega
  rw [len1to3]
  simp only [hget 0 h, hget _ hmid, hget (input.length - 1) (by omega), readLE32_eq,
    readU32_of_le (show 0 + 4 ≤ secret.length by omega), readU32_of_le (show 4 + 4 ≤ secret.length by omega),
    Option.bind_eq_bind, Option.bind_some, combine]

/-- The word that `XXH3_len_4to8_64b` makes of a key. -/
def inputWord (input : Bytes) : UInt64 :=
  (word32At input (input.length - 4)).toUInt64 + ((word32At input 0).toUInt64 <<< 32)

theorem len4to8_eq (h : 4 ≤ input.length) (hs : 136 ≤ secret.length) :
    len4to8 B input secret seed = some (rrmxmx (inputWord input ^^^
      ((wordAt secret 8 ^^^ wordAt secret 16) - (seed ^^^ ((swap32 seed.toUInt32).toUInt64 <<< 32))))
        (UInt64.ofNat input.length)) := by
  rw [len4to8]
  simp only [readLE32_eq, readLE64_eq, readU32_of_le (show 0 + 4 ≤ input.length by omega),
    readU32_of_le (show input.length - 4 + 4 ≤ input.length by omega),
    readU64_of_le (show 8 + 8 ≤ secret.length by omega),
    readU64_of_le (show 16 + 8 ≤ secret.length by omega), Option.bind_eq_bind, Option.bind_some, inputWord]

/-- The two words that `XXH3_len_9to16_64b` multiplies. -/
def lowInput (input secret : Bytes) (seed : UInt64) : UInt64 :=
  wordAt input 0 ^^^ ((wordAt secret 24 ^^^ wordAt secret 32) + seed)

def highInput (input secret : Bytes) (seed : UInt64) : UInt64 :=
  wordAt input (input.length - 8) ^^^ ((wordAt secret 40 ^^^ wordAt secret 48) - seed)

theorem len9to16_eq (h : 8 < input.length) (hs : 136 ≤ secret.length) :
    len9to16 B input secret seed = some (avalanche (UInt64.ofNat input.length +
      swap64 (lowInput input secret seed) + highInput input secret seed +
        fold64 (lowInput input secret seed) (highInput input secret seed))) := by
  rw [len9to16]
  simp only [readLE64_eq, readU64_of_le (show 0 + 8 ≤ input.length by omega),
    readU64_of_le (show input.length - 8 + 8 ≤ input.length by omega),
    readU64_of_le (show 24 + 8 ≤ secret.length by omega),
    readU64_of_le (show 32 + 8 ≤ secret.length by omega),
    readU64_of_le (show 40 + 8 ≤ secret.length by omega),
    readU64_of_le (show 48 + 8 ≤ secret.length by omega), Option.bind_eq_bind, Option.bind_some,
    mul128Fold64_eq, lowInput, highInput]

/-- `XXH3_len_0to16_64b` reads in range and returns one hash in every build. -/
theorem len0to16_eq (hs : 136 ≤ secret.length) : ∃ v, ∀ B, len0to16 B input secret seed = some v := by
  by_cases h9 : input.length > 8
  · exact ⟨_, fun B => by rw [len0to16, if_pos h9, len9to16_eq B seed h9 hs]⟩
  by_cases h4 : input.length ≥ 4
  · exact ⟨_, fun B => by rw [len0to16, if_neg h9, if_pos h4, len4to8_eq B seed h4 hs]⟩
  by_cases h1 : input.length ≠ 0
  · exact ⟨_, fun B => by
      rw [len0to16, if_neg h9, if_neg h4, if_pos h1, len1to3_eq B seed (by omega) (by omega) hs]⟩
  · refine ⟨Xxh64.avalanche (seed ^^^ (wordAt secret 56 ^^^ wordAt secret 64)), fun B => ?_⟩
    rw [len0to16, if_neg h9, if_neg h4, if_neg h1]
    simp only [readLE64_eq, readU64_of_le (show 56 + 8 ≤ secret.length by omega),
      readU64_of_le (show 64 + 8 ≤ secret.length by omega), Option.bind_eq_bind, Option.bind_some]

end Short

/-! ## Keys of middle length -/

section Middle

variable (B : XxhBuild) {input secret : Bytes} (seed : UInt64)

/-- `XXH3_mix16B`. -/
def mix16 (input secret : Bytes) (seed : UInt64) (off soff : Nat) : UInt64 :=
  fold64 (wordAt input off ^^^ (wordAt secret soff + seed))
    (wordAt input (off + 8) ^^^ (wordAt secret (soff + 8) - seed))

theorem mix16B_eq {off soff : Nat} (h : off + 16 ≤ input.length) (hs : soff + 16 ≤ secret.length) :
    mix16B B input secret seed off soff = some (mix16 input secret seed off soff) := by
  rw [mix16B]
  simp only [readLE64_eq, readU64_of_le (show off + 8 ≤ input.length by omega),
    readU64_of_le (show off + 8 + 8 ≤ input.length by omega),
    readU64_of_le (show soff + 8 ≤ secret.length by omega),
    readU64_of_le (show soff + 8 + 8 ≤ secret.length by omega), Option.bind_eq_bind, Option.bind_some,
    mul128Fold64_eq, mix16]

theorem addMix16B_eq {off soff : Nat} (acc : UInt64) (h : off + 16 ≤ input.length)
    (hs : soff + 16 ≤ secret.length) :
    addMix16B B input secret seed off soff acc = some (acc + mix16 input secret seed off soff) := by
  rw [addMix16B, mix16B_eq B seed h hs]
  rfl

/-- What the pairs `i`, `i - 1`, …, `0` of blocks add, from the start and from the end of the key. -/
def addPairs (input secret : Bytes) (seed : UInt64) : Nat → UInt64 → UInt64
  | 0, acc => acc + mix16 input secret seed 0 0 + mix16 input secret seed (input.length - 16) 16
  | i + 1, acc => addPairs input secret seed i (acc + mix16 input secret seed (16 * (i + 1)) (32 * (i + 1)) +
      mix16 input secret seed (input.length - 16 * (i + 2)) (32 * (i + 1) + 16))

/-- The loop for size over the pairs. -/
theorem loop_pairStep {i : Nat} (acc : UInt64) (h : 32 * i ≤ input.length - 1)
    (hlen : 16 < input.length) (hs : 32 * i + 32 ≤ secret.length) :
    ∃ k, loop (pairStep B input secret seed) (i + 1) (acc, i) =
      some (addPairs input secret seed i acc, k) := by
  induction i generalizing acc with
  | zero =>
    refine ⟨0, ?_⟩
    have hstep : pairStep B input secret seed (acc, 0) =
        some (.stop (addPairs input secret seed 0 acc, 0)) := by
      rw [pairStep]
      simp only [Option.bind_eq_bind, addMix16B_eq B seed _ (show 16 * 0 + 16 ≤ input.length by omega)
        (show 32 * 0 + 16 ≤ secret.length by omega), Option.bind_some,
        addMix16B_eq B seed _ (show input.length - 16 * (0 + 1) + 16 ≤ input.length by omega)
        (show 32 * 0 + 16 + 16 ≤ secret.length by omega)]
      rfl
    simp only [loop, hstep]
  | succ i ih =>
    obtain ⟨k, hk⟩ := ih (acc + mix16 input secret seed (16 * (i + 1)) (32 * (i + 1)) +
      mix16 input secret seed (input.length - 16 * (i + 2)) (32 * (i + 1) + 16)) (by omega) (by omega)
    refine ⟨k, ?_⟩
    have hstep : pairStep B input secret seed (acc, i + 1) =
        some (.next (acc + mix16 input secret seed (16 * (i + 1)) (32 * (i + 1)) +
          mix16 input secret seed (input.length - 16 * (i + 2)) (32 * (i + 1) + 16), i)) := by
      rw [pairStep]
      simp only [Option.bind_eq_bind, addMix16B_eq B seed _ (show 16 * (i + 1) + 16 ≤ input.length by omega)
        (show 32 * (i + 1) + 16 ≤ secret.length by omega), Option.bind_some,
        addMix16B_eq B seed _ (show input.length - 16 * (i + 1 + 1) + 16 ≤ input.length by omega)
        (show 32 * (i + 1) + 16 + 16 ≤ secret.length by omega)]
      rfl
    rw [loop, hstep]
    exact hk

/-- `XXH3_len_17to128_64b`, as a loop and unrolled. -/
theorem len17to128_eq (h : 16 < input.length) (h128 : input.length ≤ 128) (hs : 136 ≤ secret.length) :
    len17to128 B input secret seed = some (avalanche (addPairs input secret seed
      ((input.length - 1) / 32) (UInt64.ofNat input.length * PRIME64_1))) := by
  have hadd : ∀ off soff acc, off + 16 ≤ input.length → soff + 16 ≤ secret.length →
      addMix16B B input secret seed off soff acc = some (acc + mix16 input secret seed off soff) :=
    fun off soff acc => addMix16B_eq B seed acc
  by_cases hsize : B.sizeOpt ≥ 1
  · obtain ⟨k, hk⟩ := loop_pairStep B seed (UInt64.ofNat input.length * PRIME64_1)
      (show 32 * ((input.length - 1) / 32) ≤ input.length - 1 by omega) h
      (show 32 * ((input.length - 1) / 32) + 32 ≤ secret.length by omega)
    rw [len17to128]
    simp only [if_pos hsize, hk, Option.bind_eq_bind, Option.bind_some]
  -- The four depths of the nested tests.
  rw [len17to128]
  simp only [if_neg hsize, Option.bind_eq_bind]
  by_cases h32 : input.length > 32
  · by_cases h64 : input.length > 64
    · by_cases h96 : input.length > 96
      · simp (disch := omega) only [if_pos h32, if_pos h64, if_pos h96, hadd, Option.bind_some]
        rw [show (input.length - 1) / 32 = 3 by omega]
        rfl
      · simp (disch := omega) only [if_pos h32, if_pos h64, if_neg h96, hadd, Option.bind_some]
        rw [show (input.length - 1) / 32 = 2 by omega]
        rfl
    · simp (disch := omega) only [if_pos h32, if_neg h64, hadd, Option.bind_some]
      rw [show (input.length - 1) / 32 = 1 by omega]
      rfl
  · simp (disch := omega) only [if_neg h32, hadd, Option.bind_some]
    rw [show (input.length - 1) / 32 = 0 by omega]
    rfl

/-- The sums of `XXH3_len_129to240_64b`. -/
def midAcc (input secret : Bytes) (seed : UInt64) : UInt64 :=
  (List.range' 0 8).foldl (fun acc i => acc + mix16 input secret seed (16 * i) (16 * i))
    (UInt64.ofNat input.length * PRIME64_1)

def midAccEnd (input secret : Bytes) (seed : UInt64) : UInt64 :=
  (List.range' 8 (input.length / 16 - 8)).foldl
    (fun acc i => acc + mix16 input secret seed (16 * i) (16 * (i - 8) + 3))
    (mix16 input secret seed (input.length - 16) 119)

theorem len129to240_eq (h : 128 < input.length) (h240 : input.length ≤ 240)
    (hs : 136 ≤ secret.length) :
    len129to240 B input secret seed =
      some (avalanche (avalanche (midAcc input secret seed) + midAccEnd input secret seed)) := by
  have hround : ∀ i acc, 0 ≤ i → i < 0 + 8 → addMix16B B input secret seed (16 * i) (16 * i) acc =
      some (acc + mix16 input secret seed (16 * i) (16 * i)) :=
    fun i acc _ hi => addMix16B_eq B seed acc (by omega) (by omega)
  have hroundEnd : ∀ i acc, 8 ≤ i → i < 8 + (input.length / 16 - 8) →
      addMix16B B input secret seed (16 * i) (16 * (i - 8) + 3) acc =
        some (acc + mix16 input secret seed (16 * i) (16 * (i - 8) + 3)) :=
    fun i acc _ hi => addMix16B_eq B seed acc (by omega) (by omega)
  have hfirst := forUp_eq_foldl (fun acc i => acc + mix16 input secret seed (16 * i) (16 * i)) hround
  have hend := forUp_eq_foldl
    (fun acc i => acc + mix16 input secret seed (16 * i) (16 * (i - 8) + 3)) hroundEnd
  have hlast := mix16B_eq B seed (show input.length - 16 + 16 ≤ input.length by omega)
    (show 136 - 17 + 16 ≤ secret.length by omega)
  rw [len129to240]
  simp only [hfirst, hlast, hend, Option.bind_eq_bind, Option.bind_some, midAcc, midAccEnd]

end Middle

end FastConstMap.Xxh3
