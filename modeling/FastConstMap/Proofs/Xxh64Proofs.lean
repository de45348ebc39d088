import FastConstMap.Lib.Blocks
import FastConstMap.Proofs.XxHashProofs
import FastConstMap.Xxh64

/-!
# Proofs: XXH64 as a function of blocks

What `XXH64` computes, as folds over the blocks of 32, 8 and 4 bytes of its input. The code reads inside
of the input only, and gets this value in one call and streamed, however it is compiled.
-/

namespace FastConstMap.Xxh64

open CLoop Blocks Slices

/-! ## The value -/

/-- What a block of 32 bytes does to the accumulators. -/
def stripe (v : Lanes) (b : Bytes) : Lanes :=
  ⟨round v.v1 (wordAt b 0), round v.v2 (wordAt b 8), round v.v3 (wordAt b 16),
    round v.v4 (wordAt b 24)⟩

/-- The accumulators after the full blocks. -/
def lanes (seed : UInt64) (l : Bytes) : Lanes := (full 32 l).foldl stripe (start seed)

/-- The hash before the last bytes. -/
def head (seed : UInt64) (l : Bytes) : UInt64 :=
  (if 32 ≤ l.length then converge (lanes seed l) else seed + PRIME64_5) + UInt64.ofNat l.length

/-- Words of 8 bytes, words of 4 bytes and single bytes, one after the other. -/
def words8 (hash : UInt64) (bs : List Bytes) : UInt64 := bs.foldl (fun h b => mix8 h (wordAt b 0)) hash

def words4 (hash : UInt64) (bs : List Bytes) : UInt64 := bs.foldl (fun h b => mix4 h (word32At b 0)) hash

def bytes1 (hash : UInt64) (l : Bytes) : UInt64 := l.foldl mix1 hash

/-- The last bytes. -/
def tail (hash : UInt64) (l : Bytes) : UInt64 :=
  avalanche (bytes1 (words4 (words8 hash (full 8 l)) (full 4 (rest 8 l))) (rest 4 (rest 8 l)))

/-- XXH64 of the bytes `l`. -/
def value (seed : UInt64) (l : Bytes) : UInt64 := tail (head seed l) (rest 32 l)

/-! ## The last bytes -/

variable (B : XxhBuild) {p : Bytes} {ptr len : Nat}

/-- A word inside of a slice. -/
theorem wordAt_slice {off n i : Nat} (hi : i + 8 ≤ n) :
    wordAt (slice p off n) i = wordAt p (off + i) :=
  congrArg nativeU64 (slice_slice p off hi)

theorem word32At_slice {off n i : Nat} (hi : i + 4 ≤ n) :
    word32At (slice p off n) i = word32At p (off + i) := by
  rw [word32At, slice_slice p off hi, word32At]

/-- The rest of a slice is the slice that starts after its blocks. -/
theorem rest_slice {n : Nat} (h : ptr + len ≤ p.length) :
    rest n (slice p ptr len) = slice p (ptr + len / n * n) (len % n) := by
  have hmod := Nat.div_add_mod' len n
  rw [rest, length_slice h, slice, List.drop_take, List.drop_drop, slice,
    show len - len / n * n = len % n by omega]

/-- The loop over words of 8 bytes. -/
theorem loop_finalizeWord (align : XxhAlignment) (hash : UInt64) (h : ptr + len ≤ p.length) :
    loop (finalizeWord B align p) (len + 1) (hash, ptr, len) =
      some (words8 hash (full 8 (slice p ptr len)),
        ptr + len / 8 * 8, len % 8) := by
  have hlen : (slice p ptr len).length = len := length_slice h
  have hmod := Nat.div_add_mod' len 8
  have hnext : ∀ k x, k < len / 8 →
      finalizeWord B align p (x, ptr + k * 8, len - k * 8) =
        some (.next (mix8 x (wordAt (slice (slice p ptr len) (k * 8) 8) 0), ptr + (k + 1) * 8,
          len - (k + 1) * 8)) := by
    intro k x hk
    have hge : len - k * 8 ≥ 8 := by omega
    have hread : readU64 p (ptr + k * 8) = some (wordAt p (ptr + k * 8)) := readU64_of_le (by omega)
    rw [finalizeWord, if_pos hge, readLE64Align_eq, hread, wordAt_slice (by decide),
      wordAt_slice (by omega), Nat.add_mul, Nat.one_mul, ← Nat.add_assoc, ← Nat.sub_sub]
    rfl
  obtain ⟨s, hloop, hs⟩ : ∃ s, loop (finalizeWord B align p) (len + 1) (hash, ptr, len) = some s ∧ _ :=
    loop_while (n := 8) (l := slice p ptr len) (f := fun h b => mix8 h (wordAt b 0)) (x := hash)
      (fun k x s => s = (x, ptr + k * 8, len - k * 8))
      (by rintro k x s hk rfl; exact ⟨_, hnext k x (by omega), rfl⟩)
      (by rintro x s rfl; rw [hlen, finalizeWord, if_neg (by simp only; omega)])
      (by simp) (by omega)
  rw [hloop, hs, hlen, show len - len / 8 * 8 = len % 8 by omega, words8]

/-- The loop over single bytes. -/
theorem loop_finalizeByte (hash : UInt64) (h : ptr + len ≤ p.length) :
    loop (finalizeByte p) (len + 1) (hash, ptr, len) =
      some (bytes1 hash (slice p ptr len), ptr + len, 0) := by
  induction len generalizing hash ptr with
  | zero => rfl
  | succ len ih =>
    have hlt : ptr < p.length := by omega
    have hlater := ih (mix1 hash p[ptr]) (show ptr + 1 + len ≤ p.length by omega)
    have hcons : slice p ptr (len + 1) = p[ptr] :: slice p (ptr + 1) len := by
      rw [slice, List.drop_eq_getElem_cons hlt, List.take_succ_cons, slice]
    have hbody : finalizeByte p (hash, ptr, len + 1) =
        some (.next (mix1 hash p[ptr], ptr + 1, len)) := by
      rw [finalizeByte, if_pos (by simp), load_of_lt hlt]
      rfl
    rw [hcons, bytes1, List.foldl_cons, ← bytes1, show ptr + (len + 1) = ptr + 1 + len by omega, ← hlater]
    simp only [loop, hbody]

/-- The word of 4 bytes between the loops. -/
theorem words4_half (hash : UInt64) (h : ptr + len ≤ p.length) (hlt : len < 8) :
    words4 hash (full 4 (slice p ptr len)) =
      if len ≥ 4 then mix4 hash (word32At p ptr) else hash := by
  have hlen : (slice p ptr len).length = len := length_slice h
  by_cases hge : len ≥ 4
  · rw [if_pos hge, full_of_lt_two (by omega) (by omega), words4, List.foldl_cons, List.foldl_nil,
      word32At_slice (by decide), word32At_slice hge]
    rfl
  · rw [if_neg hge, full_of_lt (by omega), words4, List.foldl_nil]

/-- `XXH64_finalize`. -/
theorem finalize_eq (align : XxhAlignment) (hash : UInt64) {len : Nat}
    (h : ptr + len % 32 ≤ p.length) :
    finalize B align p hash ptr len = some (tail hash (slice p ptr (len % 32))) := by
  have hand : len &&& 31 = len % 32 := Nat.and_two_pow_sub_one_eq_mod len 5
  have hdiv := Nat.div_add_mod' (len % 32) 8
  have hbyte := fun hash => loop_finalizeByte hash
    (show ptr + len % 32 / 8 * 8 + len % 32 % 8 / 4 * 4 + len % 32 % 8 % 4 ≤ p.length by omega)
  rw [finalize, hand, loop_finalizeWord B align hash h]
  simp only [Option.bind_eq_bind, Option.bind_some, tail]
  rw [rest_slice h, rest_slice (by omega), words4_half _ (by omega) (Nat.mod_lt _ (by decide))]
  by_cases hge : len % 32 % 8 ≥ 4
  · rw [show len % 32 % 8 / 4 = 1 by omega, show len % 32 % 8 % 4 = len % 32 % 8 - 4 by omega] at hbyte
    rw [if_pos hge, if_pos hge, readLE32Align_eq, readU32_of_le (by omega), Option.bind_some, hbyte,
      show len % 32 % 8 / 4 = 1 by omega, show len % 32 % 8 % 4 = len % 32 % 8 - 4 by omega]
    rfl
  · simp only [show len % 32 % 8 / 4 = 0 by omega, show len % 32 % 8 % 4 = len % 32 % 8 by omega,
      Nat.zero_mul, Nat.add_zero] at hbyte
    rw [if_neg hge, if_neg hge, hbyte, show len % 32 % 8 / 4 = 0 by omega,
      show len % 32 % 8 % 4 = len % 32 % 8 by omega]
    rfl

/-! ## One call -/

/-- A block that is read word by word. -/
theorem readStripe_eq (v : Lanes) (h : ptr + 32 ≤ p.length) :
    readStripe (readU64 p) v ptr = some (stripe v (slice p ptr 32)) := by
  rw [readStripe, readU64_of_le (by omega), readU64_of_le (by omega), readU64_of_le (by omega),
    readU64_of_le (by omega)]
  rw [stripe, wordAt_slice (by decide), wordAt_slice (by decide), wordAt_slice (by decide),
    wordAt_slice (by decide)]
  rfl

/-- The loop over the blocks. -/
theorem loop_stripeStep (align : XxhAlignment) (seed : UInt64) (h : 32 ≤ p.length) :
    loop (stripeStep B align p (p.length - 31)) p.length (start seed, 0) =
      some (lanes seed p, p.length / 32 * 32) := by
  have hpass : ∀ k x, k < p.length / 32 →
      stripeStep B align p (p.length - 31) (x, k * 32) =
        some (if k + 1 < p.length / 32 then .next (stripe x (slice p (k * 32) 32), (k + 1) * 32)
          else .stop (stripe x (slice p (k * 32) 32), (k + 1) * 32)) := by
    intro k x hk
    have hread : readStripe (readLE64Align B align p) x (k * 32) =
        some (stripe x (slice p (k * 32) 32)) := by
      rw [show readLE64Align B align p = readU64 p from funext (readLE64Align_eq B align p)]
      exact readStripe_eq x (by omega)
    rw [stripeStep, hread, Nat.add_mul, Nat.one_mul]
    simp only [Option.bind_eq_bind, Option.bind_some]
    by_cases hlast : k + 1 < p.length / 32
    · rw [if_pos (by omega), if_pos hlast]
    · rw [if_neg (by omega), if_neg hlast]
  obtain ⟨s, hloop, hs⟩ :
      ∃ s, loop (stripeStep B align p (p.length - 31)) p.length (start seed, 0) = some s ∧ _ :=
    loop_doWhile (n := 32) (l := p) (f := stripe) (x := start seed)
      (fun k x s => s = (x, k * 32)) (by omega)
      (by rintro k x s hk rfl; exact ⟨_, hpass k x hk, rfl⟩) (by simp) (by omega)
  rw [hloop, hs, lanes]

/-- `XXH64_endian_align` returns the value, whatever the build and the alignment. -/
theorem endianAlign_eq (align : XxhAlignment) (p : Bytes) (seed : UInt64) :
    endianAlign B align p seed = some (value seed p) := by
  have hdiv := Nat.div_add_mod' p.length 32
  have hrest : rest 32 p = slice p (p.length / 32 * 32) (p.length % 32) := by
    rw [rest, slice, List.take_of_length_le]
    rw [List.length_drop]
    omega
  by_cases h : p.length ≥ 32
  · simp only [endianAlign, if_pos h, loop_stripeStep B align seed h, Option.bind_eq_bind,
      Option.bind_some]
    rw [finalize_eq B align _ (by omega), value, head, if_pos h, hrest]
  · simp only [endianAlign, if_neg h, Option.bind_eq_bind, Option.bind_some]
    rw [finalize_eq B align _ (by omega), value, head, if_neg h, hrest, Nat.div_eq_of_lt (by omega),
      Nat.zero_mul]

/-! ## Streaming -/

/-- The state after the bytes `l`: the blocks are in the accumulators and the rest is in `mem64`. -/
structure Streamed (seed : UInt64) (l : Bytes) (s : State) : Prop where
  total : s.totalLen = UInt64.ofNat l.length
  lanes : s.v = lanes seed l
  size : s.mem.length = 32
  memsize : s.memsize = l.length % 32
  mem : s.mem.take s.memsize = rest 32 l

theorem lanes_append (seed : UInt64) (l m : Bytes) :
    lanes seed (l ++ m) = (full 32 (rest 32 l ++ m)).foldl stripe (lanes seed l) := by
  rw [lanes, full_append (by decide), List.foldl_append, lanes]

/-- A copy inside of both buffers, and the first bytes of the destination after it. -/
theorem copyBytes_eq {dst src : Bytes} {dstOff srcOff : Nat} (hdst : dstOff + len ≤ dst.length)
    (hsrc : srcOff + len ≤ src.length) :
    ∃ mem, copyBytes dst dstOff src srcOff len = some mem ∧ mem.length = dst.length ∧
      mem.take (dstOff + len) = dst.take dstOff ++ slice src srcOff len := by
  have hlen : ((src.drop srcOff).take len).length = len := length_slice hsrc
  refine ⟨dst.take dstOff ++ (src.drop srcOff).take len ++ dst.drop (dstOff + len), ?_, ?_, ?_⟩
  · rw [copyBytes, if_pos hsrc, memcpy, hlen, if_pos hdst]
  · rw [List.length_append, List.length_append, hlen, List.length_take, List.length_drop]
    omega
  · rw [List.take_left' (by rw [List.length_append, hlen, List.length_take]; omega), slice]

theorem streamed_reset (seed : UInt64) : Streamed seed [] (reset seed) where
  total := rfl
  lanes := rfl
  size := List.length_replicate
  memsize := rfl
  mem := rfl

/-- The block that completes `mem64`: after it the state has taken in a number of full blocks. -/
theorem fillBlock_eq {seed : UInt64} {l m : Bytes} {s : State} (hv : s.v = lanes seed l)
    (hsize : s.mem.length = 32) (hmemsize : s.memsize = l.length % 32)
    (hmem : s.mem.take s.memsize = rest 32 l) (h : 32 ≤ s.memsize + m.length) :
    ∃ mem p, fillBlock B s m =
        some ({ s with v := lanes seed (l ++ m.take p), mem := mem, memsize := 0 }, p) ∧
      mem.length = 32 ∧ p ≤ m.length ∧ 32 ∣ (l ++ m.take p).length := by
  have hdiv := Nat.div_add_mod' l.length 32
  by_cases h0 : s.memsize = 0
  · refine ⟨s.mem, 0, ?_, hsize, Nat.zero_le _, ?_⟩
    · rw [fillBlock, if_neg (not_not.mpr h0), List.take_zero, List.append_nil, ← hv, ← h0]
    · rw [List.take_zero, List.append_nil]
      omega
  · obtain ⟨mem, hcopy, hlen, htake⟩ := copyBytes_eq
      (show s.memsize + (32 - s.memsize) ≤ s.mem.length by omega)
      (show 0 + (32 - s.memsize) ≤ m.length by omega)
    have hblock : mem = rest 32 l ++ m.take (32 - s.memsize) := by
      rw [show s.memsize + (32 - s.memsize) = mem.length by omega, List.take_length, hmem,
        slice_zero] at htake
      exact htake
    refine ⟨mem, 32 - s.memsize, ?_, by omega, by omega, ?_⟩
    · have hread : readStripe (readLE64 B mem) s.v 0 = some (stripe s.v (slice mem 0 32)) := by
        rw [show readLE64 B mem = readU64 mem from funext (readLE64_eq B mem)]
        exact readStripe_eq s.v (by omega)
      have hone := full_of_lt_two (n := 32) (l := mem) (by omega) (by omega)
      rw [fillBlock, if_pos h0, hcopy]
      simp only [Option.bind_eq_bind, Option.bind_some, hread]
      rw [lanes_append, ← hblock, hone, List.foldl_cons, List.foldl_nil, hv]
    · rw [List.length_append, List.length_take]
      omega

/-- The loop of `XXH64_update` over the blocks that are still in the input. -/
theorem loop_updateStep {m : Bytes} (v : Lanes) (h : ptr + 32 ≤ m.length) :
    loop (updateStep B m (m.length - 32)) m.length (v, ptr) =
      some ((full 32 (m.drop ptr)).foldl stripe v, ptr + (m.length - ptr) / 32 * 32) := by
  have hlen : (m.drop ptr).length = m.length - ptr := List.length_drop
  have hpass : ∀ k x, k < (m.length - ptr) / 32 →
      updateStep B m (m.length - 32) (x, ptr + k * 32) =
        some (if k + 1 < (m.length - ptr) / 32 then
            .next (stripe x (slice (m.drop ptr) (k * 32) 32), ptr + (k + 1) * 32)
          else .stop (stripe x (slice (m.drop ptr) (k * 32) 32), ptr + (k + 1) * 32)) := by
    intro k x hk
    have hread : readStripe (readLE64 B m) x (ptr + k * 32) =
        some (stripe x (slice (m.drop ptr) (k * 32) 32)) := by
      rw [show readLE64 B m = readU64 m from funext (readLE64_eq B m),
        readStripe_eq x (by omega), slice, slice, List.drop_drop]
    rw [updateStep, hread, Nat.add_mul, Nat.one_mul, ← Nat.add_assoc]
    simp only [Option.bind_eq_bind, Option.bind_some]
    by_cases hlast : k + 1 < (m.length - ptr) / 32
    · rw [if_pos (by omega), if_pos hlast]
    · rw [if_neg (by omega), if_neg hlast]
  obtain ⟨s, hloop, hs⟩ :
      ∃ s, loop (updateStep B m (m.length - 32)) m.length (v, ptr) = some s ∧ _ :=
    loop_doWhile (n := 32) (l := m.drop ptr) (f := stripe) (x := v)
      (fun k x s => s = (x, ptr + k * 32)) (by omega)
      (by rintro k x s hk rfl; exact ⟨_, hlen ▸ hpass k x (hlen ▸ hk), rfl⟩) (by simp) (by omega)
  rw [hloop, hs, hlen]

/-- The end of `XXH64_update`: the bytes from `q` on go to `mem64`. -/
theorem keepRest_eq {seed : UInt64} {l m : Bytes} {s : State} {q : Nat}
    (htotal : s.totalLen = UInt64.ofNat l.length) (hv : s.v = lanes seed l)
    (hsize : s.mem.length = 32) (hmemsize : s.memsize = 0) (hrest : rest 32 l = m.drop q) :
    ∃ s', (if q < m.length then do
        let mem ← copyBytes s.mem 0 m q (m.length - q)
        some { s with mem := mem, memsize := m.length - q }
      else some s) = some s' ∧ Streamed seed l s' := by
  have hmod : m.length - q = l.length % 32 := by
    rw [← length_rest, hrest, List.length_drop]
  by_cases hq : q < m.length
  · obtain ⟨mem, hcopy, hlen, htake⟩ := copyBytes_eq
      (show 0 + (m.length - q) ≤ s.mem.length by omega) (show q + (m.length - q) ≤ m.length by omega)
    have hall : slice m q (m.length - q) = m.drop q :=
      List.take_of_length_le (by rw [List.length_drop])
    rw [if_pos hq, hcopy]
    refine ⟨_, rfl, htotal, hv, by rw [hlen, hsize], hmod, ?_⟩
    rw [Nat.zero_add, List.take_zero, List.nil_append, hall] at htake
    rw [hrest]
    exact htake
  · refine ⟨s, if_neg hq, htotal, hv, hsize, by omega, ?_⟩
    rw [hrest, hmemsize, List.take_zero, List.drop_eq_nil_of_le (by omega)]

/-- `XXH64_update` appends its input. -/
theorem update_eq {seed : UInt64} {l : Bytes} {s : State} (hs : Streamed seed l s) (m : Bytes) :
    ∃ s', update B s m = some s' ∧ Streamed seed (l ++ m) s' := by
  have htotal : s.totalLen + UInt64.ofNat m.length = UInt64.ofNat (l ++ m).length := by
    rw [hs.total, List.length_append, UInt64.ofNat_add]
  have hmemsize := hs.memsize
  have hsize := hs.size
  by_cases hshort : s.memsize + m.length < 32
  · obtain ⟨mem, hcopy, hlen, htake⟩ := copyBytes_eq
      (show s.memsize + m.length ≤ s.mem.length by omega) (show 0 + m.length ≤ m.length by omega)
    have hrest : (rest 32 l ++ m).length < 32 := by
      rw [List.length_append, length_rest]
      omega
    rw [update]
    dsimp only
    rw [if_pos hshort, hcopy]
    refine ⟨_, rfl, htotal, ?_, by rw [hlen, hsize], ?_, ?_⟩
    · rw [lanes_append, full_of_lt hrest, List.foldl_nil]
      exact hs.lanes
    · rw [List.length_append]
      show s.memsize + m.length = _
      omega
    · rw [rest_append (by decide), rest_of_lt hrest]
      rw [hs.mem, slice_zero, List.take_length] at htake
      exact htake
  · obtain ⟨mem, p, hfill, hlen, hp, hdvd⟩ := fillBlock_eq B (m := m)
      (s := { s with totalLen := s.totalLen + UInt64.ofNat m.length }) hs.lanes hs.size hs.memsize hs.mem
      (not_lt.mp hshort)
    have hsplit : l ++ m = (l ++ m.take p) ++ m.drop p := by
      rw [List.append_assoc, List.take_append_drop]
    have hlanes : lanes seed (l ++ m) =
        (full 32 (m.drop p)).foldl stripe (lanes seed (l ++ m.take p)) := by
      rw [hsplit, lanes, full_append_of_dvd (by decide) hdvd, List.foldl_append, lanes]
    have hrest : rest 32 (l ++ m) = m.drop (p + (m.length - p) / 32 * 32) := by
      rw [hsplit, rest_append_of_dvd (by decide) hdvd, rest, List.drop_drop, List.length_drop]
    have hkeep := keepRest_eq (m := m) (q := p + (m.length - p) / 32 * 32)
      (s := { totalLen := s.totalLen + UInt64.ofNat m.length, v := lanes seed (l ++ m), mem := mem, memsize := 0 })
      htotal rfl hlen rfl hrest
    rw [update]
    dsimp only
    rw [if_neg hshort, hfill]
    simp only [Option.bind_eq_bind, Option.bind_some]
    by_cases hbulk : p + 32 ≤ m.length
    · rw [if_pos hbulk, loop_updateStep B _ hbulk, ← hlanes]
      exact hkeep
    · rw [if_neg hbulk]
      rw [Nat.div_eq_of_lt (by omega), Nat.zero_mul, Nat.add_zero, hlanes,
        full_of_lt (by rw [List.length_drop]; omega), List.foldl_nil] at hkeep
      exact hkeep

/-- `XXH64_digest` returns the value of the bytes that came in. -/
theorem digest_eq {seed : UInt64} {l : Bytes} {s : State} (hs : Streamed seed l s)
    (hl : l.length < 2 ^ 64) : digest B s = some (value seed l) := by
  have htotal : s.totalLen.toNat = l.length := by
    rw [hs.total, UInt64.toNat_ofNat', Nat.mod_eq_of_lt hl]
  have hsize := hs.size
  have hmemsize := hs.memsize
  have hge : s.totalLen ≥ 32 ↔ 32 ≤ l.length := by
    rw [ge_iff_le, UInt64.le_iff_toNat_le, htotal]
    rfl
  have hrest : slice s.mem 0 (l.length % 32) = rest 32 l := by
    rw [slice_zero, ← hmemsize, hs.mem]
  have hhead : (if s.totalLen ≥ 32 then converge s.v else s.v.v3 + PRIME64_5) + s.totalLen =
      head seed l := by
    by_cases h : 32 ≤ l.length
    · rw [if_pos (hge.mpr h), head, if_pos h, hs.lanes, hs.total]
    · rw [if_neg (mt hge.mp h), head, if_neg h, hs.lanes, hs.total, lanes,
        full_of_lt (by omega), List.foldl_nil, start, UInt64.add_zero]
  have hfin := finalize_eq B .aligned (head seed l) (show 0 + l.length % 32 ≤ s.mem.length by omega)
  simp only [digest, hhead, htotal]
  rw [hfin, hrest, value]

/-- The input in any pieces. -/
theorem streamed_update {seed : UInt64} (ms : List Bytes) {l : Bytes} {s : State}
    (hs : Streamed seed l s) :
    ∃ s', ms.foldlM (update B) s = some s' ∧ Streamed seed (l ++ ms.flatten) s' := by
  induction ms generalizing l s with
  | nil => exact ⟨s, rfl, by rwa [List.flatten_nil, List.append_nil]⟩
  | cons m ms ih =>
    obtain ⟨s1, h1, hs1⟩ := update_eq B hs m
    obtain ⟨s', h', hs'⟩ := ih hs1
    refine ⟨s', ?_, ?_⟩
    · rw [List.foldlM_cons, h1]
      exact h'
    · rwa [List.flatten_cons, ← List.append_assoc]

/-- Every path through `XXH64`: streamed when it is built for size, else in one call at either alignment. -/
theorem hash_eq (addr : Nat) {p : Bytes} (seed : UInt64) (hlen : p.length < 2 ^ 64) :
    hash B addr p seed = some (value seed p) := by
  unfold hash
  by_cases hsize : B.noStream = false ∧ B.sizeOpt ≥ 2
  · obtain ⟨s, hs, hstream⟩ := update_eq B (streamed_reset seed) p
    rw [if_pos hsize, hs]
    exact digest_eq B hstream hlen
  · rw [if_neg hsize]
    by_cases halign : B.alignCheck = true ∧ addr &&& 7 = 0
    · rw [if_pos halign, endianAlign_eq]
    · rw [if_neg halign, endianAlign_eq]

end FastConstMap.Xxh64

namespace FastConstMap

theorem hashKeyXxh64_eq (B : XxhBuild) (key : Bytes) :
    hashKeyXxh64 B key = some (Xxh64.value 0 key) :=
  Xxh64.endianAlign_eq B .unaligned key 0

/-- The contract of `fcm_hash_key_xxh64`: it reads inside of the key only and returns `XXH64(key, len, 0)`,
also when the two are compiled for different hosts, wherever the key lies, and when the key is streamed in
any pieces. -/
theorem hashKeyXxh64_exact (B B' : XxhBuild) (addr : Nat) (pieces : List Bytes)
    (hlen : pieces.flatten.length < 2 ^ 64) :
    ∃ h, hashKeyXxh64 B pieces.flatten = some h ∧ Xxh64.hash B' addr pieces.flatten 0 = some h ∧
      (do
        let state ← pieces.foldlM (Xxh64.update B') (Xxh64.reset 0)
        Xxh64.digest B' state) = some h := by
  obtain ⟨s, hs, hstream⟩ := Xxh64.streamed_update B' pieces (Xxh64.streamed_reset 0)
  refine ⟨Xxh64.value 0 pieces.flatten, hashKeyXxh64_eq B _, Xxh64.hash_eq B' addr 0 hlen, ?_⟩
  rw [hs]
  exact Xxh64.digest_eq B' hstream hlen

theorem hashKeyXxh64_exact_two :
    ∃ h, hashKeyXxh64 .portable [97, 98, 99] = some h ∧ Xxh64.hash .bigEndian 3 [97, 98, 99] 0 = some h ∧
      (do
        let state ← [[97], [98, 99]].foldlM (Xxh64.update .bigEndian) (Xxh64.reset 0)
        Xxh64.digest .bigEndian state) = some h :=
  hashKeyXxh64_exact .portable .bigEndian 3 [[97], [98, 99]] (by decide)

end FastConstMap
