import FastConstMap.Proofs.Xxh3Proofs

/-!
# Proofs: XXH3 on long keys

The scalar code and the code for vector registers do the same to the eight accumulators, so all builds
return one hash.
-/

namespace FastConstMap.Xxh3

open CLoop Vectors

/-! ## What a stripe does to an accumulator -/

section Lanes

variable (input : Bytes) (ioff : Nat) (secret : Bytes) (soff : Nat)

/-- The word of the input for an accumulator. -/
def dataWord (j : Nat) : UInt64 := wordAt input (ioff + j * 8)

/-- That word with its word of the secret. -/
def keyWord (j : Nat) : UInt64 := dataWord input ioff j ^^^ wordAt secret (soff + j * 8)

/-- What a stripe makes of the accumulator `j`. -/
def accLane (j : Nat) (x : UInt64) : UInt64 :=
  x + dataWord input ioff (j ^^^ 1) + mulLow (keyWord input ioff secret soff j)
    (keyWord input ioff secret soff j >>> 32)

/-- What the scramble makes of it. -/
def scrambleLane (j : Nat) (x : UInt64) : UInt64 :=
  (xorshift64 x 47 ^^^ wordAt secret (soff + j * 8)) * PRIME32_1.toUInt64

end Lanes

theorem xor_one_even (i : Nat) : 2 * i ^^^ 1 = 2 * i + 1 := Nat.xor_one_of_even (even_two_mul i)

theorem xor_one_odd (i : Nat) : (2 * i + 1) ^^^ 1 = 2 * i :=
  Nat.xor_one_of_odd (odd_two_mul_add_one i)

theorem xor_one_cases (j : Nat) : ∃ i, (j = 2 * i ∧ j ^^^ 1 = 2 * i + 1) ∨
    (j = 2 * i + 1 ∧ j ^^^ 1 = 2 * i) := by
  rcases Nat.even_or_odd' j with ⟨i, rfl | rfl⟩
  · exact ⟨i, .inl ⟨rfl, xor_one_even i⟩⟩
  · exact ⟨i, .inr ⟨rfl, xor_one_odd i⟩⟩

/-! ## Scalar code -/

section Scalar

variable (B : XxhBuild) {input : Bytes} {ioff : Nat} {secret : Bytes} {soff : Nat}

/-- The accumulators between the rounds `lo` and `k`: a round adds the word of the input to the other
accumulator of the pair. -/
def roundPart (input : Bytes) (ioff : Nat) (secret : Bytes) (soff lo k : Nat) (a : Nat → UInt64)
    (j : Nat) : UInt64 :=
  a j + (if lo ≤ j ^^^ 1 ∧ j ^^^ 1 < k then dataWord input ioff (j ^^^ 1) else 0) +
    (if lo ≤ j ∧ j < k then
      mulLow (keyWord input ioff secret soff j) (keyWord input ioff secret soff j >>> 32) else 0)

theorem scalarRound_eq {acc : List UInt64} {a : Nat → UInt64} {lo k : Nat} (hlo : lo ≤ k) (hk : k < 8)
    (hi : ioff + 64 ≤ input.length) (hs : soff + 64 ≤ secret.length)
    (h : Holds acc 8 (roundPart input ioff secret soff lo k a)) :
    ∃ acc', scalarRound B input ioff secret soff k acc = some acc' ∧
      Holds acc' 8 (roundPart input ioff secret soff lo (k + 1) a) := by
  obtain ⟨i, hpair⟩ := xor_one_cases k
  have hother : k ^^^ 1 < 8 := by omega
  have hne : k ≠ k ^^^ 1 := by omega
  obtain ⟨acc1, hstore1, h1⟩ := h.store hother
    (roundPart input ioff secret soff lo k a (k ^^^ 1) + wordAt input (ioff + k * 8))
  obtain ⟨acc2, hstore2, h2⟩ := h1.store hk
    (mulLow (keyWord input ioff secret soff k) (keyWord input ioff secret soff k >>> 32) +
      roundPart input ioff secret soff lo k a k)
  have hload := h1.load hk
  rw [Function.update_of_ne hne] at hload
  refine ⟨acc2, ?_, h2.congr ?_⟩
  · rw [scalarRound]
    simp only [readLE64_eq, readU64_of_le (show ioff + k * 8 + 8 ≤ input.length by omega),
      readU64_of_le (show soff + k * 8 + 8 ≤ secret.length by omega), h.load hother, hstore1, hload,
      Option.bind_eq_bind, Option.bind_some]
    exact hstore2
  · intro j hj
    by_cases hjk : j = k
    · subst hjk
      rw [Function.update_self, roundPart, roundPart, if_neg (show ¬(lo ≤ j ∧ j < j) by omega),
        if_pos (show lo ≤ j ∧ j < j + 1 by omega), UInt64.add_zero, UInt64.add_comm]
      congr 2
      exact if_congr (by omega) rfl rfl
    · rw [Function.update_of_ne hjk]
      by_cases hjo : j = k ^^^ 1
      · have hjk1 : j ^^^ 1 = k := by
          rw [hjo, Nat.xor_assoc, Nat.xor_self, Nat.xor_zero]
        rw [hjo, Function.update_self, ← hjo, roundPart, roundPart, hjk1,
          if_neg (show ¬(lo ≤ k ∧ k < k) by omega), if_pos (show lo ≤ k ∧ k < k + 1 by omega),
          UInt64.add_zero, UInt64.add_assoc, UInt64.add_comm _ (wordAt _ _), ← UInt64.add_assoc]
        congr 1
        exact if_congr (by omega) rfl rfl
      · have hne1 : j ^^^ 1 ≠ k := by
          rintro rfl
          exact hjo (by rw [Nat.xor_assoc, Nat.xor_self, Nat.xor_zero])
        rw [Function.update_of_ne hjo, roundPart, roundPart]
        congr 1
        · congr 1
          exact if_congr (by omega) rfl rfl
        · exact if_congr (by omega) rfl rfl

/-- The scalar rounds from an even accumulator on. -/
theorem forUp_scalarRound {acc : List UInt64} {a : Nat → UInt64} {lo : Nat} (hlo : lo ≤ 8)
    (heven : lo % 2 = 0) (hi : ioff + 64 ≤ input.length) (hs : soff + 64 ≤ secret.length)
    (h : Holds acc 8 a) :
    ∃ acc', forUp (scalarRound B input ioff secret soff) lo (8 - lo) acc = some acc' ∧
      Holds acc' 8 fun j => if lo ≤ j then accLane input ioff secret soff j (a j) else a j := by
  have h0 : Holds acc 8 (roundPart input ioff secret soff lo lo a) := by
    refine h.congr ?_
    intro j _
    rw [roundPart, if_neg (by omega), if_neg (by omega), UInt64.add_zero, UInt64.add_zero]
  obtain ⟨acc', hloop, h'⟩ := forUp_spec
    (fun k acc => Holds acc 8 (roundPart input ioff secret soff lo k a)) (Nat.add_sub_cancel' hlo)
    (fun k acc hk h8 hacc => scalarRound_eq B hk h8 hi hs hacc) h0
  refine ⟨acc', hloop, h'.congr ?_⟩
  intro j hj
  obtain ⟨i, hpair⟩ := xor_one_cases j
  by_cases hge : lo ≤ j
  · rw [if_pos hge, roundPart, if_pos (by omega), if_pos ⟨hge, hj⟩, accLane]
  · rw [if_neg hge, roundPart, if_neg (by omega), if_neg (by omega), UInt64.add_zero, UInt64.add_zero]

/-- The scalar scramble from an accumulator on. -/
theorem forUp_scalarScrambleRound {acc : List UInt64} {a : Nat → UInt64} {lo : Nat} (hlo : lo ≤ 8)
    (hs : soff + 64 ≤ secret.length) (h : Holds acc 8 a) :
    ∃ acc', forUp (scalarScrambleRound B secret soff) lo (8 - lo) acc = some acc' ∧
      Holds acc' 8 fun j => if lo ≤ j then scrambleLane secret soff j (a j) else a j := by
  have hstep : ∀ i, lo ≤ i → i < 8 → ∀ acc f, Holds acc 8 f →
      ∃ acc', scalarScrambleRound B secret soff i acc = some acc' ∧
        Holds acc' 8 fun j => if j / 1 = i then scrambleLane secret soff j (f j) else f j := by
    intro i _ hi acc f hf
    obtain ⟨acc', hstore, h'⟩ := hf.store hi (scrambleLane secret soff i (f i))
    refine ⟨acc', ?_, h'.congr ?_⟩
    · rw [scalarScrambleRound]
      simp only [readLE64_eq, readU64_of_le (show soff + i * 8 + 8 ≤ secret.length by omega), hf.load hi,
        Option.bind_eq_bind, Option.bind_some]
      exact hstore
    · intro j _
      rw [Nat.div_one]
      by_cases hji : j = i
      · rw [hji, Function.update_self, if_pos rfl]
      · rw [Function.update_of_ne hji, if_neg hji]
  obtain ⟨acc', hloop, h'⟩ := Blocks.forUp_blocks lo (8 - lo) (Nat.add_sub_cancel' hlo) hstep h
  refine ⟨acc', hloop, h'.congr ?_⟩
  intro j hj
  exact if_congr (by omega) rfl rfl

end Scalar

/-! ## Vector registers -/

section Registers

variable {input : Bytes} {ioff : Nat} {secret : Bytes} {soff i : Nat} {acc : List UInt64}
  {f : Nat → UInt64}

theorem loadu_eq {p : Bytes} {off : Nat} (h : off + 16 ≤ p.length) :
    loadu p off = some ⟨wordAt p off, wordAt p (off + 8)⟩ := if_pos h

theorem loadAcc_eq (h : Holds acc 8 f) (hi : i < 4) : loadAcc acc i = some ⟨f (2 * i), f (2 * i + 1)⟩ := by
  rw [loadAcc, h.load (by omega), h.load (by omega)]
  rfl

/-- A register that is written back with what `g` makes of its two accumulators. -/
theorem storeAcc_eq (h : Holds acc 8 f) (hi : i < 4) (g : Nat → UInt64 → UInt64) {v : V128}
    (hv : v = ⟨g (2 * i) (f (2 * i)), g (2 * i + 1) (f (2 * i + 1))⟩) :
    ∃ acc', storeAcc acc i v = some acc' ∧
      Holds acc' 8 fun j => if j / 2 = i then g j (f j) else f j := by
  obtain ⟨acc1, hstore1, h1⟩ := h.store (show 2 * i < 8 by omega) v.lo
  obtain ⟨acc2, hstore2, h2⟩ := h1.store (show 2 * i + 1 < 8 by omega) v.hi
  refine ⟨acc2, ?_, h2.congr ?_⟩
  · rw [storeAcc, hstore1]
    exact hstore2
  · intro j _
    subst hv
    by_cases hlo : j = 2 * i
    · subst hlo
      rw [Function.update_of_ne (by omega), Function.update_self, if_pos (by omega)]
    by_cases hhi : j = 2 * i + 1
    · subst hhi
      rw [Function.update_self, if_pos (by omega)]
    · rw [Function.update_of_ne hhi, Function.update_of_ne hlo, if_neg (by omega)]

theorem accLane_even (x : UInt64) :
    accLane input ioff secret soff (2 * i) x = x + wordAt input (ioff + i * 16 + 8) +
      mulLow (wordAt input (ioff + i * 16) ^^^ wordAt secret (soff + i * 16))
        ((wordAt input (ioff + i * 16) ^^^ wordAt secret (soff + i * 16)) >>> 32) := by
  rw [accLane, keyWord, xor_one_even, dataWord, dataWord, show (2 * i + 1) * 8 = i * 16 + 8 by omega,
    show 2 * i * 8 = i * 16 by omega, ← Nat.add_assoc]

theorem accLane_odd (x : UInt64) :
    accLane input ioff secret soff (2 * i + 1) x = x + wordAt input (ioff + i * 16) +
      mulLow (wordAt input (ioff + i * 16 + 8) ^^^ wordAt secret (soff + i * 16 + 8))
        ((wordAt input (ioff + i * 16 + 8) ^^^ wordAt secret (soff + i * 16 + 8)) >>> 32) := by
  rw [accLane, keyWord, xor_one_odd, dataWord, dataWord, show (2 * i + 1) * 8 = i * 16 + 8 by omega,
    show 2 * i * 8 = i * 16 by omega, ← Nat.add_assoc, ← Nat.add_assoc]

theorem scrambleLane_even (x : UInt64) :
    scrambleLane secret soff (2 * i) x =
      (xorshift64 x 47 ^^^ wordAt secret (soff + i * 16)) * PRIME32_1.toUInt64 := by
  rw [scrambleLane, show 2 * i * 8 = i * 16 by omega]

theorem scrambleLane_odd (x : UInt64) :
    scrambleLane secret soff (2 * i + 1) x =
      (xorshift64 x 47 ^^^ wordAt secret (soff + i * 16 + 8)) * PRIME32_1.toUInt64 := by
  rw [scrambleLane, show (2 * i + 1) * 8 = i * 16 + 8 by omega, ← Nat.add_assoc]

/-! ## SSE2 -/

/-- A register in `XXH3_accumulate_512_sse2`. -/
theorem accumulateSse2_eq (h : Holds acc 8 f) (hi : i < 4) (hin : ioff + 64 ≤ input.length)
    (hs : soff + 64 ≤ secret.length) :
    ∃ acc', accumulateSse2 input ioff secret soff i acc = some acc' ∧
      Holds acc' 8 fun j => if j / 2 = i then accLane input ioff secret soff j (f j) else f j := by
  rw [accumulateSse2, Nat.mul_comm 16 i]
  simp only [loadu_eq (show ioff + i * 16 + 16 ≤ input.length by omega),
    loadu_eq (show soff + i * 16 + 16 ≤ secret.length by omega), loadAcc_eq h hi, Option.bind_eq_bind,
    Option.bind_some]
  refine storeAcc_eq h hi _ ?_
  rw [accLane_even, accLane_odd, V128.mulEpu32_shuffle, V128.shuffle_swap]
  simp only [V128.add, V128.mulEpu32, V128.xor, V128.shiftRight, UInt64.add_comm, UInt64.add_assoc]

/-- A register in `XXH3_scrambleAcc_sse2`. -/
theorem scrambleSse2_eq (h : Holds acc 8 f) (hi : i < 4) (hs : soff + 64 ≤ secret.length) :
    ∃ acc', scrambleSse2 secret soff i acc = some acc' ∧
      Holds acc' 8 fun j => if j / 2 = i then scrambleLane secret soff j (f j) else f j := by
  rw [scrambleSse2, Nat.mul_comm 16 i]
  simp only [loadu_eq (show soff + i * 16 + 16 ≤ secret.length by omega), loadAcc_eq h hi,
    Option.bind_eq_bind, Option.bind_some]
  refine storeAcc_eq h hi _ ?_
  rw [scrambleLane_even, scrambleLane_odd, V128.mul_set1]
  rfl

/-! ## NEON -/

/-- One register in `XXH3_accumulate_512_neon`. -/
theorem accumulateNeon2_eq (h : Holds acc 8 f) (hi : i < 4) (hin : ioff + 64 ≤ input.length)
    (hs : soff + 64 ≤ secret.length) :
    ∃ acc', accumulateNeon2 input ioff secret soff i acc = some acc' ∧
      Holds acc' 8 fun j => if j / 2 = i then accLane input ioff secret soff j (f j) else f j := by
  rw [accumulateNeon2]
  simp only [loadu_eq (show ioff + i * 16 + 16 ≤ input.length by omega),
    loadu_eq (show soff + i * 16 + 16 ≤ secret.length by omega), loadAcc_eq h hi, Option.bind_eq_bind,
    Option.bind_some]
  refine storeAcc_eq h hi _ ?_
  rw [accLane_even, accLane_odd]
  simp only [V128.add, V128.mlal, V128.narrow, V128.xor, V128.ext1, mulLow, UInt64.shiftRight_zero,
    UInt64.add_assoc]

/-- Two registers at once. -/
theorem accumulateNeon4_eq {k : Nat} (h : Holds acc 8 f) (hk : k < 2) (hin : ioff + 64 ≤ input.length)
    (hs : soff + 64 ≤ secret.length) :
    ∃ acc', accumulateNeon4 input ioff secret soff (2 * k) acc = some acc' ∧
      Holds acc' 8 fun j => if j / 4 = k then accLane input ioff secret soff j (f j) else f j := by
  obtain ⟨acc1, hstore1, h1⟩ := storeAcc_eq (i := 2 * k) h (by omega) (accLane input ioff secret soff) rfl
  obtain ⟨acc2, hstore2, h2⟩ := storeAcc_eq (i := 2 * k + 1) h1 (by omega) (accLane input ioff secret soff)
    rfl
  refine ⟨acc2, ?_, h2.congr ?_⟩
  · have hload2 := loadAcc_eq (i := 2 * k + 1) h1 (by omega)
    rw [if_neg (by omega), if_neg (by omega)] at hload2 hstore2
    rw [accumulateNeon4]
    simp only [loadu_eq (show ioff + 2 * k * 16 + 16 ≤ input.length by omega),
      loadu_eq (show soff + 2 * k * 16 + 16 ≤ secret.length by omega),
      loadu_eq (show ioff + (2 * k + 1) * 16 + 16 ≤ input.length by omega),
      loadu_eq (show soff + (2 * k + 1) * 16 + 16 ≤ secret.length by omega), loadAcc_eq h (show 2 * k < 4 by omega),
      Option.bind_eq_bind, Option.bind_some, V128.mlal_uzp_low, V128.mlal_uzp_high]
    rw [accLane_even, accLane_odd] at hstore1 hstore2
    simp only [V128.add, V128.xor, V128.ext1, ← UInt64.add_assoc, hstore1, hload2, Option.bind_some, hstore2]
  · intro j _
    by_cases hj : j / 2 = 2 * k + 1
    · rw [if_pos hj, if_neg (by omega), if_pos (by omega)]
    · rw [if_neg hj]
      exact if_congr (by omega) rfl rfl

/-- A register in `XXH3_scrambleAcc_neon`. -/
theorem scrambleNeon_eq (h : Holds acc 8 f) (hi : i < 4) (hs : soff + 64 ≤ secret.length) :
    ∃ acc', scrambleNeon secret soff i acc = some acc' ∧
      Holds acc' 8 fun j => if j / 2 = i then scrambleLane secret soff j (f j) else f j := by
  rw [scrambleNeon]
  simp only [loadu_eq (show soff + i * 16 + 16 ≤ secret.length by omega), loadAcc_eq h hi,
    Option.bind_eq_bind, Option.bind_some]
  refine storeAcc_eq h hi _ ?_
  rw [scrambleLane_even, scrambleLane_odd, V128.mul_dup]
  rfl

end Registers

/-! ## All builds -/

section Builds

variable (B : XxhBuild) {input : Bytes} {ioff : Nat} {secret : Bytes} {soff : Nat} {acc : List UInt64}
  {a : Nat → UInt64}

/-- Every build of `XXH3_accumulate_512` does the same to the accumulators. -/
theorem accumulate512_eq (h : Holds acc 8 a) (hin : ioff + 64 ≤ input.length)
    (hs : soff + 64 ≤ secret.length) :
    ∃ acc', accumulate512 B input ioff secret soff acc = some acc' ∧
      Holds acc' 8 fun j => accLane input ioff secret soff j (a j) := by
  rw [accumulate512]
  cases B.vector with
  | scalar =>
    obtain ⟨acc', hloop, h'⟩ := forUp_scalarRound B (Nat.zero_le 8) (by decide) hin hs h
    exact ⟨acc', hloop, h'.congr fun j _ => if_pos (Nat.zero_le j)⟩
  | sse2 =>
    obtain ⟨acc', hloop, h'⟩ := Blocks.forUp_blocks 0 4 rfl
      (fun i _ hi acc f hf => accumulateSse2_eq hf hi hin hs) h
    exact ⟨acc', hloop, h'.congr fun j hj => if_pos (by omega)⟩
  | neon lanes =>
    obtain ⟨lanes, hpos, hle, heven⟩ := lanes
    obtain ⟨acc1, hloop1, h1⟩ := forUp_scalarRound B hle heven hin hs h
    obtain ⟨acc2, hloop2, h2⟩ := Blocks.forUp_blocks (n := 4) 0 (lanes / 2 / 2)
      (Nat.zero_add _) (fun k _ hk acc f hf => accumulateNeon4_eq hf (by omega) hin hs) h1
    obtain ⟨acc3, hloop3, h3⟩ := Blocks.forUp_blocks (n := 2) (2 * (lanes / 2 / 2))
      (lanes / 2 - 2 * (lanes / 2 / 2)) (show _ = lanes / 2 by omega)
      (fun i _ hi acc f hf => accumulateNeon2_eq hf (by omega) hin hs) h2
    refine ⟨acc3, ?_, h3.congr ?_⟩
    · simp only [accumulate512Neon, hloop1, hloop2, Option.bind_eq_bind, Option.bind_some]
      exact hloop3
    · -- Each accumulator belongs to one of the three loops.
      intro j hj
      by_cases hlast : 2 * (lanes / 2 / 2) ≤ j / 2 ∧ j / 2 < lanes / 2
      · rw [if_pos hlast, if_neg (by omega), if_neg (by omega)]
      · rw [if_neg hlast]
        by_cases hmid : 0 ≤ j / 4 ∧ j / 4 < lanes / 2 / 2
        · rw [if_pos hmid, if_neg (by omega)]
        · rw [if_neg hmid, if_pos (by omega)]

/-- Every build of `XXH3_scrambleAcc` too. -/
theorem scrambleAcc_eq (h : Holds acc 8 a) (hs : soff + 64 ≤ secret.length) :
    ∃ acc', scrambleAcc B secret soff acc = some acc' ∧
      Holds acc' 8 fun j => scrambleLane secret soff j (a j) := by
  rw [scrambleAcc]
  cases B.vector with
  | scalar =>
    obtain ⟨acc', hloop, h'⟩ := forUp_scalarScrambleRound B (Nat.zero_le 8) hs h
    exact ⟨acc', hloop, h'.congr fun j _ => if_pos (Nat.zero_le j)⟩
  | sse2 =>
    obtain ⟨acc', hloop, h'⟩ := Blocks.forUp_blocks 0 4 rfl
      (fun i _ hi acc f hf => scrambleSse2_eq hf hi hs) h
    exact ⟨acc', hloop, h'.congr fun j hj => if_pos (by omega)⟩
  | neon lanes =>
    obtain ⟨lanes, hpos, hle, heven⟩ := lanes
    obtain ⟨acc1, hloop1, h1⟩ := forUp_scalarScrambleRound B hle hs h
    obtain ⟨acc2, hloop2, h2⟩ := Blocks.forUp_blocks (n := 2) 0 (lanes / 2)
      (Nat.zero_add _) (fun i _ hi acc f hf => scrambleNeon_eq hf (by omega) hs) h1
    refine ⟨acc2, ?_, h2.congr ?_⟩
    · simp only [scrambleAccNeon, hloop1, Option.bind_eq_bind, Option.bind_some]
      exact hloop2
    · intro j hj
      by_cases hreg : 0 ≤ j / 2 ∧ j / 2 < lanes / 2
      · rw [if_pos hreg, if_neg (by omega)]
      · rw [if_neg hreg, if_pos (by omega)]

/-- The accumulators after `n` stripes. -/
def stripes (input : Bytes) (ioff : Nat) (secret : Bytes) (soff : Nat) :
    Nat → (Nat → UInt64) → Nat → UInt64
  | 0, a => a
  | n + 1, a => fun j =>
    accLane input (ioff + n * 64) secret (soff + n * 8) j (stripes input ioff secret soff n a j)

theorem accumulate_eq {n : Nat} (h : Holds acc 8 a) (hin : ioff + n * 64 ≤ input.length)
    (hs : soff + n * 8 + 56 ≤ secret.length) :
    ∃ acc', accumulate B input ioff secret soff n acc = some acc' ∧
      Holds acc' 8 (stripes input ioff secret soff n a) :=
  forUp_spec (fun k acc => Holds acc 8 (stripes input ioff secret soff k a)) (Nat.zero_add n)
    (fun _ _ _ hk hacc => accumulate512_eq B hacc (by omega) (by omega)) h

/-- The stripes of a block. -/
def perBlock (secret : Bytes) : Nat := (secret.length - 64) / 8

/-- The accumulators after `n` blocks. -/
def blocks (input secret : Bytes) : Nat → (Nat → UInt64) → Nat → UInt64
  | 0, a => a
  | n + 1, a => fun j =>
    scrambleLane secret (secret.length - 64) j
      (stripes input (n * (64 * perBlock secret)) secret 0 (perBlock secret)
        (blocks input secret n a) j)

theorem block_eq {n : Nat} (h : Holds acc 8 (blocks input secret n a))
    (hin : (n + 1) * (64 * perBlock secret) ≤ input.length) (hs : 64 ≤ secret.length) :
    ∃ acc', (do
      let acc ← accumulate B input (n * (64 * perBlock secret)) secret 0 (perBlock secret) acc
      scrambleAcc B secret (secret.length - 64) acc) = some acc' ∧
      Holds acc' 8 (blocks input secret (n + 1) a) := by
  have hper : perBlock secret * 8 ≤ secret.length - 64 := Nat.div_mul_le_self _ 8
  rw [Nat.succ_mul] at hin
  obtain ⟨acc1, hacc1, h1⟩ := accumulate_eq B h
    (show n * (64 * perBlock secret) + perBlock secret * 64 ≤ input.length by omega)
    (show 0 + perBlock secret * 8 + 56 ≤ secret.length by omega)
  obtain ⟨acc2, hacc2, h2⟩ := scrambleAcc_eq B h1
    (show secret.length - 64 + 64 ≤ secret.length by omega)
  refine ⟨acc2, ?_, h2⟩
  rw [hacc1]
  exact hacc2

/-- The accumulators after all blocks, the partial one and the last stripe. -/
def longAcc (input secret : Bytes) (a : Nat → UInt64) : Nat → UInt64 :=
  let blockLen := 64 * perBlock secret
  let nbBlocks := (input.length - 1) / blockLen
  fun j => accLane input (input.length - 64) secret (secret.length - 64 - 7) j
    (stripes input (nbBlocks * blockLen) secret 0 ((input.length - 1 - blockLen * nbBlocks) / 64)
      (blocks input secret nbBlocks a) j)

/-- `XXH3_hashLong_internal_loop` stays inside of the key and of the secret. -/
theorem hashLongInternalLoop_eq (h : Holds acc 8 a) (hlen : 64 < input.length)
    (hs : 136 ≤ secret.length) :
    ∃ acc', hashLongInternalLoop B input secret acc = some acc' ∧
      Holds acc' 8 (longAcc input secret a) := by
  obtain ⟨per, hper⟩ : ∃ per, per = perBlock secret := ⟨_, rfl⟩
  have hpos : 0 < 64 * per := by
    rw [hper, perBlock]
    omega
  have hstripes : per * 8 ≤ secret.length - 64 := hper ▸ Nat.div_mul_le_self _ 8
  obtain ⟨nb, hnb⟩ : ∃ nb, nb = (input.length - 1) / (64 * per) := ⟨_, rfl⟩
  have hfit : nb * (64 * per) ≤ input.length - 1 := hnb ▸ Nat.div_mul_le_self _ _
  have hrest : input.length - 1 - 64 * per * nb < 64 * per := by
    have hmod := Nat.mod_lt (input.length - 1) hpos
    have hdiv := Nat.div_add_mod (input.length - 1) (64 * per)
    rw [← hnb] at hdiv
    omega
  have hcomm := Nat.mul_comm (64 * per) nb
  obtain ⟨acc1, hloop1, h1⟩ := forUp_spec (fun n acc => Holds acc 8 (blocks input secret n a))
    (Nat.zero_add nb) (fun n acc _ hn hacc => block_eq B hacc (by
      have hmul := Nat.mul_le_mul_right (64 * per) (Nat.succ_le_of_lt hn)
      rw [← hper]
      exact hmul.trans (by omega)) (by omega)) h
  obtain ⟨acc2, hloop2, h2⟩ := accumulate_eq B h1
    (show nb * (64 * per) + (input.length - 1 - 64 * per * nb) / 64 * 64 ≤ input.length by omega)
    (show 0 + (input.length - 1 - 64 * per * nb) / 64 * 8 + 56 ≤ secret.length by omega)
  obtain ⟨acc3, hlast, h3⟩ := accumulate512_eq B h2
    (show input.length - 64 + 64 ≤ input.length by omega)
    (show secret.length - 64 - 7 + 64 ≤ secret.length by omega)
  subst hper hnb
  refine ⟨acc3, ?_, h3⟩
  simp only [perBlock, Option.bind_eq_bind] at hloop1 hloop2
  simp only [hashLongInternalLoop, Option.bind_eq_bind, hloop1, Option.bind_some, hloop2]
  exact hlast

/-- The merge of the accumulators. -/
def merged (secret : Bytes) (soff : Nat) (a : Nat → UInt64) (start : UInt64) : UInt64 :=
  avalanche ((List.range' 0 4).foldl (fun result64 i => result64 +
    fold64 (a (2 * i) ^^^ wordAt secret (soff + 16 * i))
      (a (2 * i + 1) ^^^ wordAt secret (soff + 16 * i + 8))) start)

theorem mergeAccs_eq (h : Holds acc 8 a) (hs : soff + 64 ≤ secret.length) (start : UInt64) :
    mergeAccs B secret acc soff start = some (merged secret soff a start) := by
  have hmix : ∀ i, i < 4 → mix2Accs B secret acc (2 * i) (soff + 16 * i) =
      some (fold64 (a (2 * i) ^^^ wordAt secret (soff + 16 * i))
        (a (2 * i + 1) ^^^ wordAt secret (soff + 16 * i + 8))) := by
    intro i hi
    rw [mix2Accs]
    simp only [h.load (show 2 * i < 8 by omega), h.load (show 2 * i + 1 < 8 by omega), readLE64_eq,
      readU64_of_le (show soff + 16 * i + 8 ≤ secret.length by omega),
      readU64_of_le (show soff + 16 * i + 8 + 8 ≤ secret.length by omega), Option.bind_eq_bind,
      Option.bind_some, mul128Fold64_eq]
  have hround : ∀ i result64, 0 ≤ i → i < 0 + 4 → (do
      let m ← mix2Accs B secret acc (2 * i) (soff + 16 * i)
      some (result64 + m)) = some (result64 + fold64 (a (2 * i) ^^^ wordAt secret (soff + 16 * i))
        (a (2 * i + 1) ^^^ wordAt secret (soff + 16 * i + 8))) := by
    intro i result64 _ hi
    rw [hmix i (by omega)]
    rfl
  have hloop := forUp_eq_foldl (fun result64 i => result64 +
    fold64 (a (2 * i) ^^^ wordAt secret (soff + 16 * i))
      (a (2 * i + 1) ^^^ wordAt secret (soff + 16 * i + 8))) hround start
  rw [mergeAccs, hloop]
  rfl

set_option maxRecDepth 2000 in
theorem length_kSecret : kSecret.length = 192 := rfl

theorem hashLong64bInternal_eq (hlen : 64 < input.length) (hs : 136 ≤ secret.length) :
    ∃ v, ∀ B, hashLong64bInternal B input secret = some v := by
  have hinit : Holds initAcc 8 fun j => initAcc.getD j 0 := by
    have hlen8 : initAcc.length = 8 := rfl
    refine ⟨hlen8, fun i hi => ?_⟩
    rw [← hlen8] at hi
    exact (load_of_lt hi).trans (congrArg some (List.getD_eq_getElem _ _ hi).symm)
  refine ⟨merged secret 11 (longAcc input secret fun j => initAcc.getD j 0)
    (UInt64.ofNat input.length * PRIME64_1), fun B => ?_⟩
  obtain ⟨acc, hloop, hacc⟩ := hashLongInternalLoop_eq B hinit hlen hs
  rw [hashLong64bInternal, hloop]
  exact mergeAccs_eq B hacc (by omega) _

/-- `XXH3_64bits_internal` returns one hash in every build, for every key and every secret of the minimal
size. -/
theorem bits64Internal_eq (input : Bytes) {secret : Bytes} (hs : 136 ≤ secret.length) (seed : UInt64) :
    ∃ v, ∀ B, bits64Internal B input secret seed = some v := by
  by_cases h16 : input.length ≤ 16
  · obtain ⟨v, hv⟩ := len0to16_eq seed hs
    exact ⟨v, fun B => by rw [bits64Internal, if_pos h16, hv B]⟩
  by_cases h128 : input.length ≤ 128
  · exact ⟨_, fun B => by
      rw [bits64Internal, if_neg h16, if_pos h128, len17to128_eq B seed (not_le.mp h16) h128 hs]⟩
  by_cases h240 : input.length ≤ 240
  · exact ⟨_, fun B => by
      rw [bits64Internal, if_neg h16, if_neg h128, if_pos h240,
        len129to240_eq B seed (not_le.mp h128) h240 hs]⟩
  · obtain ⟨v, hv⟩ := hashLong64bInternal_eq (show 64 < input.length by omega)
      (show 136 ≤ kSecret.length by rw [length_kSecret]; decide)
    exact ⟨v, fun B => by rw [bits64Internal, if_neg h16, if_neg h128, if_neg h240, hv B]⟩

end Builds

end FastConstMap.Xxh3

namespace FastConstMap

theorem hashKeyXxh3_eq (key : Bytes) : ∃ h, ∀ B, hashKeyXxh3 B key = some h :=
  Xxh3.bits64Internal_eq key
    (show 136 ≤ Xxh3.kSecret.length by rw [Xxh3.length_kSecret]; decide) 0

/-- The contract of `fcm_hash_key_xxh3`: on every key it reads inside of the key and of the secret only and
returns `XXH3_64bits(key, len)`, also when the two are compiled for different hosts, with different vector
units, byte orders and products. -/
theorem hashKeyXxh3_exact (key : Bytes) :
    ∃ h, ∀ B B', hashKeyXxh3 B key = some h ∧ Xxh3.bits64 B' key = some h := by
  obtain ⟨h, hv⟩ := hashKeyXxh3_eq key
  exact ⟨h, fun B B' => ⟨hv B, hv B'⟩⟩

end FastConstMap
