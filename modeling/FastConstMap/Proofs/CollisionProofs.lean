import FastConstMap.Proofs.LongKeyProofs

/-!
# Proofs: keys that the hashes keep apart

XXH64 tells keys apart that differ in one piece of their last bytes, XXH3 tells keys of one length up to
8 bytes apart.
-/

namespace FastConstMap

open CLoop Words Slices Blocks

/-! ## The steps of XXH64 -/

namespace Xxh64

theorem round_zero_injective : Function.Injective (round 0) := by
  intro x y h
  have h1 := mul_injective (c := PRIME64_1) (d := 0x0887493432badb37) (by decide) h
  have h2 := rotl_injective (r := 31) (s := 33) (by decide) (by decide) (by decide) h1
  rw [UInt64.zero_add, UInt64.zero_add] at h2
  exact mul_injective (c := PRIME64_2) (d := 0x0ba79078168d4baf) (by decide) h2

theorem avalanche_injective : Function.Injective avalanche := by
  intro x y h
  have h1 := xorShift_injective (s := 32) (by decide) (by decide) h
  have h2 := mul_injective (c := PRIME64_3) (d := 0xe9e9f4c41d6df849) (by decide) h1
  have h3 := xorShift_injective (s := 29) (by decide) (by decide) h2
  have h4 := mul_injective (c := PRIME64_2) (d := 0x0ba79078168d4baf) (by decide) h3
  exact xorShift_injective (s := 33) (by decide) (by decide) h4

/-- The end of a step for a word. -/
theorem rotl_mul_add_injective {r s c d : UInt64} (hr : 0 < r.toNat) (hs : 0 < s.toNat)
    (h : r.toNat + s.toNat = 64) (hcd : c * d = 1) (a : UInt64) :
    Function.Injective fun x : UInt64 => rotl x r * c + a := by
  intro x y hxy
  exact rotl_injective hr hs h (mul_injective hcd ((UInt64.add_left_inj a).mp hxy))

theorem mix8_end_injective : Function.Injective fun x : UInt64 => rotl x 27 * PRIME64_1 + PRIME64_4 :=
  rotl_mul_add_injective (s := 37) (d := 0x0887493432badb37) (by decide) (by decide) (by decide)
    (by decide) _

theorem mix4_end_injective : Function.Injective fun x : UInt64 => rotl x 23 * PRIME64_2 + PRIME64_3 :=
  rotl_mul_add_injective (s := 41) (d := 0x0ba79078168d4baf) (by decide) (by decide) (by decide)
    (by decide) _

/-- A word of 8 bytes: the step keeps hashes apart, and words. -/
theorem mix8_injective (k : UInt64) : Function.Injective (mix8 · k) := fun _ _ h =>
  (UInt64.xor_left_inj _).mp (mix8_end_injective h)

theorem mix8_word_injective (hash : UInt64) : Function.Injective (mix8 hash) := fun _ _ h =>
  round_zero_injective ((UInt64.xor_right_inj _).mp (mix8_end_injective h))

/-- A word of 4 bytes. -/
theorem mix4_injective (k : UInt32) : Function.Injective (mix4 · k) := fun _ _ h =>
  (UInt64.xor_left_inj _).mp (mix4_end_injective h)

theorem mix4_word_injective (hash : UInt64) : Function.Injective (mix4 hash) := by
  intro x y h
  have h1 := mul_injective (c := PRIME64_1) (d := 0x0887493432badb37) (by decide)
    ((UInt64.xor_right_inj _).mp (mix4_end_injective h))
  exact UInt32.toUInt64_inj.mp h1

/-- A byte. -/
theorem mix1_injective (b : UInt8) : Function.Injective (mix1 · b) := by
  intro x y h
  have h1 := mul_injective (c := PRIME64_1) (d := 0x0887493432badb37) (by decide) h
  have h2 := rotl_injective (r := 11) (s := 53) (by decide) (by decide) (by decide) h1
  exact (UInt64.xor_left_inj _).mp h2

theorem mix1_byte_injective (hash : UInt64) : Function.Injective (mix1 hash) := by
  intro x y h
  have h1 := mul_injective (c := PRIME64_1) (d := 0x0887493432badb37) (by decide) h
  have h2 := rotl_injective (r := 11) (s := 53) (by decide) (by decide) (by decide) h1
  have h3 := mul_injective (c := PRIME64_5) (d := 0xc592c09fdfba7f0d) (by decide)
    ((UInt64.xor_right_inj _).mp h2)
  exact UInt8.toUInt64_inj.mp h3

/-! ## One changed piece -/

/-- Words of one length that are equal as numbers are equal. -/
theorem wordAt_injective {x y : Bytes} (hx : x.length = 8) (hy : y.length = 8)
    (h : wordAt x 0 = wordAt y 0) : x = y := by
  have hslice : ∀ z : Bytes, z.length = 8 → slice z 0 8 = z := by
    intro z hz
    rw [slice_zero, ← hz, List.take_length]
  rw [← hslice x hx, ← hslice y hy, slice_eq_writeU64 (by omega), slice_eq_writeU64 (by omega), h]

theorem word32At_injective {x y : Bytes} (hx : x.length = 4) (hy : y.length = 4)
    (h : word32At x 0 = word32At y 0) : x = y := by
  have hslice : ∀ z : Bytes, z.length = 4 → slice z 0 4 = z := by
    intro z hz
    rw [slice_zero, ← hz, List.take_length]
  rw [← hslice x hx, ← hslice y hy, slice_eq_writeU32 (by omega), slice_eq_writeU32 (by omega), h]

/-- The pieces of the last bytes: those words of 8 bytes, the word of 4 bytes and the single bytes that
`XXH64_finalize` takes from a key of `n` bytes. -/
def Piece (n off len : Nat) : Prop :=
  (len = 8 ∧ n / 32 * 32 ≤ off ∧ off % 8 = 0 ∧ off + 8 ≤ n) ∨
    (len = 4 ∧ off = n / 8 * 8 ∧ off + 4 ≤ n) ∨ (len = 1 ∧ n / 4 * 4 ≤ off ∧ off < n)

/-- The parts of a key: full blocks, words of 8 bytes, at most one of 4, single bytes. -/
theorem value_append {a c d m : Bytes} (seed : UInt64) (ha : 32 ∣ a.length) (hc : 8 ∣ c.length)
    (hd : 4 ∣ d.length) (h32 : (c ++ (d ++ m)).length < 32) (h8 : (d ++ m).length < 8)
    (h4 : m.length < 4) :
    value seed (a ++ (c ++ (d ++ m))) =
      avalanche (bytes1 (words4 (words8 (head seed (a ++ (c ++ (d ++ m)))) (full 8 c)) (full 4 d)) m) := by
  rw [value, rest_append_of_dvd (by decide) ha, rest_of_lt h32, tail,
    full_append_of_dvd (by decide) hc, full_of_lt h8, List.append_nil,
    rest_append_of_dvd (by decide) hc, rest_of_lt h8, full_append_of_dvd (by decide) hd, full_of_lt h4,
    List.append_nil, rest_append_of_dvd (by decide) hd, rest_of_lt h4]

/-- Keys of one length with the same full blocks enter the last bytes with the same hash. -/
theorem head_append {a x y : Bytes} (seed : UInt64) (ha : 32 ∣ a.length) (hx : x.length < 32)
    (hxy : x.length = y.length) : head seed (a ++ x) = head seed (a ++ y) := by
  rw [head, head, lanes, lanes, full_append_of_dvd (by decide) ha, full_append_of_dvd (by decide) ha,
    full_of_lt hx, full_of_lt (l := y) (by omega), List.length_append, List.length_append, hxy]

theorem words8_injective (bs : List Bytes) : Function.Injective (words8 · bs) :=
  foldl_injective (fun _ => mix8_injective _) bs

theorem words4_injective (bs : List Bytes) : Function.Injective (words4 · bs) :=
  foldl_injective (fun _ => mix4_injective _) bs

theorem bytes1_injective (l : Bytes) : Function.Injective (bytes1 · l) := foldl_injective mix1_injective l

/-- A change of one piece of the last bytes changes the hash. -/
theorem value_ne {a x y b : Bytes} (seed : UInt64) (hxy : x.length = y.length) (hne : x ≠ y)
    (hpiece : Piece (a ++ (x ++ b)).length a.length x.length) :
    value seed (a ++ (x ++ b)) ≠ value seed (a ++ (y ++ b)) := by
  simp only [Piece, List.length_append] at hpiece
  obtain ⟨A, hA, ha, -⟩ := dvd_and_append_rest 32 a
  have ha' := length_rest (n := 32) a
  generalize rest 32 a = a' at ha ha'
  subst ha
  rw [List.length_append] at hpiece ha'
  rcases hpiece with ⟨hlen, hoff, hoff8, hfit⟩ | ⟨hlen, hoff, hfit⟩ | ⟨hlen, hoff, hfit⟩
  · -- A word of 8 bytes: the words before it, the word, the words after it.
    obtain ⟨b1, hb1, hb, -⟩ := dvd_and_append_rest 8 b
    obtain ⟨d, hd, hbd, -⟩ := dvd_and_append_rest 4 (rest 8 b)
    have h8 := length_rest_lt (n := 8) (by decide) b
    have h4 := length_rest_lt (n := 4) (by decide) (rest 8 b)
    generalize rest 4 (rest 8 b) = m at hbd h4
    rw [hbd] at hb h8
    subst hb
    simp only [List.length_append] at hoff hoff8 hfit h8
    have hval : ∀ z : Bytes, z.length = 8 →
        value seed (A ++ a' ++ (z ++ (b1 ++ (d ++ m)))) = avalanche (bytes1 (words4 (words8
          (mix8 (words8 (head seed (A ++ (a' ++ (x ++ b1) ++ (d ++ m)))) (full 8 a')) (wordAt z 0))
            (full 8 b1)) (full 4 d)) m) := by
      intro z hz
      have hsplit : A ++ a' ++ (z ++ (b1 ++ (d ++ m))) = A ++ (a' ++ (z ++ b1) ++ (d ++ m)) := by
        simp only [List.append_assoc]
      have hfull : full 8 (a' ++ (z ++ b1)) = full 8 a' ++ z :: full 8 b1 := by
        rw [full_append_of_dvd (by decide) (by omega), full_block_append (by decide) hz]
      have hhead := head_append seed hA (x := a' ++ (z ++ b1) ++ (d ++ m))
        (y := a' ++ (x ++ b1) ++ (d ++ m)) (by simp only [List.length_append]; omega)
        (by simp only [List.length_append]; omega)
      rw [hsplit, value_append seed hA (by simp only [List.length_append]; omega) hd
        (by simp only [List.length_append]; omega) (by rw [List.length_append]; exact h8) h4, hhead, hfull,
        words8, List.foldl_append, List.foldl_cons]
      rfl
    intro heq
    rw [hval x hlen, hval y (by omega)] at heq
    exact hne (wordAt_injective hlen (by omega) (mix8_word_injective _ (words8_injective _
      (words4_injective _ (bytes1_injective _ (avalanche_injective heq))))))
  · -- The word of 4 bytes.
    have hval : ∀ z : Bytes, z.length = 4 →
        value seed (A ++ a' ++ (z ++ b)) = avalanche (bytes1
          (mix4 (words8 (head seed (A ++ (a' ++ (x ++ b)))) (full 8 a')) (word32At z 0)) b) := by
      intro z hz
      have hfull : full 4 z = [z] := by
        rw [← List.append_nil z, full_block_append (by decide) hz, List.append_nil, full_of_lt (by decide)]
      have hhead := head_append seed hA (x := a' ++ (z ++ b)) (y := a' ++ (x ++ b))
        (by simp only [List.length_append]; omega) (by simp only [List.length_append]; omega)
      rw [List.append_assoc, value_append seed hA (by omega) (by omega)
        (by simp only [List.length_append]; omega) (by rw [List.length_append]; omega) (by omega), hhead,
        hfull]
      rfl
    intro heq
    rw [hval x hlen, hval y (by omega)] at heq
    exact hne (word32At_injective hlen (by omega) (mix4_word_injective _ (bytes1_injective _
      (avalanche_injective heq))))
  · -- A single byte.
    obtain ⟨c, hc, hac, -⟩ := dvd_and_append_rest 8 a'
    obtain ⟨d, hd, had, -⟩ := dvd_and_append_rest 4 (rest 8 a')
    have h8 := length_rest (n := 8) a'
    have h4 := length_rest (n := 4) (rest 8 a')
    generalize rest 4 (rest 8 a') = m at had h4
    rw [had] at hac h8 h4
    subst hac
    simp only [List.length_append] at hoff hfit h8 h4 ha'
    obtain ⟨βx, rfl⟩ := List.length_eq_one_iff.mp hlen
    obtain ⟨βy, rfl⟩ := List.length_eq_one_iff.mp (hxy.symm.trans hlen)
    have hval : ∀ β : UInt8, value seed (A ++ (c ++ (d ++ m)) ++ ([β] ++ b)) =
        avalanche (bytes1 (mix1 (bytes1 (words4 (words8
          (head seed (A ++ (c ++ (d ++ (m ++ ([βx] ++ b)))))) (full 8 c)) (full 4 d)) m) β) b) := by
      intro β
      have hsplit : A ++ (c ++ (d ++ m)) ++ ([β] ++ b) = A ++ (c ++ (d ++ (m ++ ([β] ++ b)))) := by
        simp only [List.append_assoc]
      have hhead := head_append seed hA (x := c ++ (d ++ (m ++ ([β] ++ b))))
        (y := c ++ (d ++ (m ++ ([βx] ++ b))))
        (by simp only [List.length_append, List.length_singleton]; omega)
        (by simp only [List.length_append, List.length_singleton])
      rw [hsplit, value_append seed hA hc hd
        (by simp only [List.length_append, List.length_singleton]; omega)
        (by simp only [List.length_append, List.length_singleton]; omega)
        (by simp only [List.length_append, List.length_singleton]; omega), hhead, bytes1,
        List.foldl_append, List.foldl_append]
      rfl
    intro heq
    rw [hval βx, hval βy] at heq
    exact hne (congrArg (fun β => [β]) (mix1_byte_injective _ (bytes1_injective _
      (avalanche_injective heq))))

end Xxh64

/-- Two keys of one length that differ in one piece of their last bytes never have the same XXH64: a word of
8 bytes at a multiple of 8 after the last block of 32 bytes, the word of 4 bytes, or one of the last bytes. -/
theorem hashKeyXxh64_ne (B : XxhBuild) {a x y b : Bytes} (hxy : x.length = y.length) (hne : x ≠ y)
    (hpiece : Xxh64.Piece (a ++ (x ++ b)).length a.length x.length) :
    hashKeyXxh64 B (a ++ (x ++ b)) ≠ hashKeyXxh64 B (a ++ (y ++ b)) := by
  rw [hashKeyXxh64_eq, hashKeyXxh64_eq]
  exact mt Option.some.inj (Xxh64.value_ne 0 hxy hne hpiece)

/-- Counters of 8 bytes behind a prefix of 32 bytes. -/
theorem hashKeyXxh64_ne_counter :
    hashKeyXxh64 .x86 (List.replicate 32 7 ++ ([1, 0, 0, 0, 0, 0, 0, 0] ++ [])) ≠
      hashKeyXxh64 .x86 (List.replicate 32 7 ++ ([2, 0, 0, 0, 0, 0, 0, 0] ++ [])) :=
  hashKeyXxh64_ne .x86 (by decide) (by decide) (.inl (by decide))

/-! ## Short keys under XXH3 -/

namespace Xxh3

theorem rrmxmx_injective {len : UInt64} (hlen : len.toNat ≤ 8) : Function.Injective (rrmxmx · len) := by
  intro x y h
  have h1 := xorShift_injective (s := 28) (by decide) (by decide) h
  have h2 := mul_injective (c := PRIME_MX2) (d := 0x02ab9c720d1024ad) (by decide) h1
  have h3 := xorShiftAdd_injective (s := 35) (a := len) (by decide)
    (by rw [show (35 : UInt64).toNat = 35 from rfl]; omega) h2
  have h4 := mul_injective (c := PRIME_MX2) (d := 0x02ab9c720d1024ad) (by decide) h3
  exact rotl_49_24_injective h4

/-- The four bytes of `combine`, the lowest first. -/
theorem combine_toNat {input : Bytes} (h3 : input.length ≤ 3) :
    (combine input).toNat = LittleEndian.value [input.getD (input.length - 1) 0,
      UInt8.ofNat input.length, input.getD 0 0, input.getD (input.length >>> 1) 0] := by
  have hlen : UInt32.ofNat input.length = (UInt8.ofNat input.length).toUInt32 := by
    have hcases : input.length = 0 ∨ input.length = 1 ∨ input.length = 2 ∨ input.length = 3 := by omega
    rcases hcases with h | h | h | h <;> rw [h] <;> rfl
  have hreorder : ∀ a b c d : UInt32, a ||| b ||| c ||| d = c ||| d ||| a ||| b := by
    intro a b c d
    ac_rfl
  rw [combine, UInt32.shiftLeft_zero, hreorder, hlen]
  exact or_four _ _ _ _

/-- The bytes that are combined make up the key. -/
theorem combine_injective {x y : Bytes} (hlen : x.length = y.length) (h3 : x.length ≤ 3)
    (h : combine x = combine y) : x = y := by
  have hvalue := congrArg UInt32.toNat h
  rw [combine_toNat h3, combine_toNat (by omega), ← hlen] at hvalue
  have hbytes := LittleEndian.value_injective (by rfl) hvalue
  simp only [List.cons.injEq, and_true, true_and] at hbytes
  obtain ⟨hlast, hfirst, hmid⟩ := hbytes
  rw [Nat.shiftRight_eq_div_pow] at hmid
  have hgetD : ∀ i, i < x.length → x.getD i 0 = y.getD i 0 := by
    intro i hi
    have hcases : i = x.length - 1 ∨ i = 0 ∨ i = x.length / 2 ^ 1 := by omega
    rcases hcases with rfl | rfl | rfl
    · exact hlast
    · exact hfirst
    · exact hmid
  refine List.ext_getElem hlen fun i hi hi' => ?_
  rw [← List.getD_eq_getElem _ 0 hi, ← List.getD_eq_getElem _ 0 hi', hgetD i hi]

theorem inputWord_eq_join (input : Bytes) :
    inputWord input = Vectors.join (word32At input (input.length - 4)) (word32At input 0) := by
  have hlow := (word32At input (input.length - 4)).toNat_lt
  have hhigh := (word32At input 0).toNat_lt
  apply UInt64.toNat_inj.mp
  rw [inputWord, Vectors.join_toNat, UInt64.toNat_add, UInt64.toNat_shiftLeft, UInt32.toNat_toUInt64,
    UInt32.toNat_toUInt64]
  show (_ + (word32At input 0).toNat <<< 32 % 2 ^ 64) % 2 ^ 64 = _
  rw [Nat.shiftLeft_eq]
  omega

/-- The first and the last 4 bytes make up a key of 4 to 8 bytes. -/
theorem inputWord_injective {x y : Bytes} (hlen : x.length = y.length) (h4 : 4 ≤ x.length)
    (h8 : x.length ≤ 8) (h : inputWord x = inputWord y) : x = y := by
  rw [inputWord_eq_join, inputWord_eq_join] at h
  have hlast : word32At x (x.length - 4) = word32At y (y.length - 4) := by
    rw [← Vectors.join_toUInt32 (word32At x _) (word32At x 0), h, Vectors.join_toUInt32]
  have hfirst : word32At x 0 = word32At y 0 := by
    rw [← Vectors.join_shiftRight (word32At x (x.length - 4)) (word32At x 0), h,
      Vectors.join_shiftRight]
  have htake : slice x 0 4 = slice y 0 4 := by
    rw [slice_eq_writeU32 (by omega), slice_eq_writeU32 (by omega), hfirst]
  have hdrop : slice x (x.length - 4) 4 = slice y (x.length - 4) 4 := by
    rw [slice_eq_writeU32 (by omega), slice_eq_writeU32 (by omega), hlast, hlen]
  refine List.ext_getElem? fun i => ?_
  by_cases hi : i < 4
  · have hget := congrArg (·[i]?) htake
    simp only [getElem?_slice hi, Nat.zero_add] at hget
    exact hget
  · by_cases hlt : i < x.length
    · have hget := congrArg (·[i - (x.length - 4)]?) hdrop
      simp only [getElem?_slice (show i - (x.length - 4) < 4 by omega),
        Nat.add_sub_cancel' (show x.length - 4 ≤ i by omega)] at hget
      exact hget
    · rw [List.getElem?_eq_none (by omega), List.getElem?_eq_none (by omega)]

/-- `XXH3_64bits_internal` on keys of 4 to 8 bytes and of 1 to 3 bytes. -/
theorem bits64Internal_4to8 (B : XxhBuild) {input secret : Bytes} (seed : UInt64)
    (h4 : input.length ≥ 4) (h8 : input.length ≤ 8) :
    bits64Internal B input secret seed = len4to8 B input secret seed := by
  rw [bits64Internal, if_pos (by omega), len0to16, if_neg (by omega), if_pos h4]

theorem bits64Internal_1to3 (B : XxhBuild) {input secret : Bytes} (seed : UInt64)
    (h0 : input.length ≠ 0) (h3 : input.length ≤ 3) :
    bits64Internal B input secret seed = len1to3 B input secret seed := by
  rw [bits64Internal, if_pos (by omega), len0to16, if_neg (by omega), if_neg (by omega), if_pos h0]

/-- XXH3 keeps the keys of each length up to 8 bytes apart, with every secret and every seed. -/
theorem bits64Internal_ne (B : XxhBuild) {x y secret : Bytes} (seed : UInt64)
    (hs : 136 ≤ secret.length) (hlen : x.length = y.length) (h8 : x.length ≤ 8) (hne : x ≠ y) :
    bits64Internal B x secret seed ≠ bits64Internal B y secret seed := by
  intro heq
  by_cases h4 : x.length ≥ 4
  · rw [bits64Internal_4to8 B seed h4 h8, bits64Internal_4to8 B seed (by omega) (by omega),
      len4to8_eq B seed h4 hs, len4to8_eq B seed (by omega) hs, ← hlen] at heq
    have hword := rrmxmx_injective (by rw [UInt64.toNat_ofNat']; omega) (Option.some.inj heq)
    exact hne (inputWord_injective hlen h4 h8 ((UInt64.xor_left_inj _).mp hword))
  by_cases h0 : x.length = 0
  · have hx : x = [] := List.eq_nil_of_length_eq_zero h0
    have hy : y = [] := List.eq_nil_of_length_eq_zero (by omega)
    exact hne (hx.trans hy.symm)
  · rw [bits64Internal_1to3 B seed h0 (by omega), bits64Internal_1to3 B seed (by omega) (by omega),
      len1to3_eq B seed (by omega) (by omega) hs, len1to3_eq B seed (by omega) (by omega) hs] at heq
    have hword := Xxh64.avalanche_injective (Option.some.inj heq)
    exact hne (combine_injective hlen (by omega) (UInt32.toUInt64_inj.mp ((UInt64.xor_left_inj _).mp hword)))

end Xxh3

/-- No two keys of one length up to 8 bytes have the same XXH3. -/
theorem hashKeyXxh3_ne (B : XxhBuild) {x y : Bytes} (hlen : x.length = y.length) (h8 : x.length ≤ 8)
    (hne : x ≠ y) : hashKeyXxh3 B x ≠ hashKeyXxh3 B y :=
  Xxh3.bits64Internal_ne B 0 (by rw [Xxh3.length_kSecret]; decide) hlen h8 hne

theorem hashKeyXxh3_ne_two : hashKeyXxh3 .x86 [1, 2, 3, 4, 5] ≠ hashKeyXxh3 .x86 [1, 2, 3, 4, 6] :=
  hashKeyXxh3_ne .x86 (by decide) (by decide) (by decide)

end FastConstMap
