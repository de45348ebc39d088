import FastConstMap.Proofs.CorruptionProofs
import Mathlib.Data.Int.ModEq

/-!
# Proofs: bursts of changed bytes

What changed bytes do to the checksum adds up as the digits of a number to the base of the multiplier do.
Modulo `2^64` no such number of four small digits is 0, so a reader sees every change of up to four
consecutive bytes.
-/

namespace FastConstMap

open CLoop Slices

/-! ## Numbers to the base of the multiplier -/

/-- The multiplier of `fcm_fnv1a64`. -/
def fnvPrime : Int := 0x100000001b3

/-- The number with the digits `l` after the number `x`, times the base. -/
def horner (x : Int) (l : List Int) : Int := l.foldl (fun x e => (x + e) * fnvPrime) x

/-- The multiplier is `2^40 + 435`. So the part below `2^40` is the number with the same digits to the
base 435, which is too small to wrap, and the part above is its derivative; both vanish at 0 only. -/
theorem digits_eq_zero {a b c d : Int} (ha : -510 ≤ a ∧ a ≤ 510) (hb : -510 ≤ b ∧ b ≤ 510)
    (hc : -510 ≤ c ∧ c ≤ 510) (hd : -2 ^ 24 < d ∧ d < 2 ^ 24)
    (h : (2 ^ 64 : Int) ∣ ((a * fnvPrime + b) * fnvPrime + c) * fnvPrime + d) :
    a = 0 ∧ b = 0 ∧ c = 0 ∧ d = 0 := by
  rw [fnvPrime] at h
  obtain ⟨k, hk⟩ := h
  obtain ⟨U, hU⟩ : ∃ U, U = 567675 * a + 870 * b + c := ⟨_, rfl⟩
  obtain ⟨V, hV⟩ : ∃ V, V = 82312875 * a + 189225 * b + 435 * c + d := ⟨_, rfl⟩
  obtain ⟨j, hj⟩ : ∃ j : Int, 2 ^ 40 * U + V = 2 ^ 64 * j := by
    refine ⟨k - (2 ^ 56 + 1305 * 2 ^ 16) * a - 2 ^ 16 * b, ?_⟩
    rw [hU, hV]
    omega
  have hV0 : V = 0 := by omega
  have hUj : U = 2 ^ 24 * j := by omega
  -- As 435 divides `d`, the quotient by the root 435 has small digits too.
  have hquot : 435 * (189225 * a + 435 * b + c) = -d := by omega
  have hj0 : j = 0 := by omega
  obtain rfl | rfl | rfl : a = -1 ∨ a = 0 ∨ a = 1 := by omega
  · omega
  · omega
  · omega

/-- At most four digits, and a number below the power of 256 that has the bytes left of four. -/
theorem digits_all_zero {l : List Int} {D : Int} (h4 : l.length ≤ 4)
    (hbound : ∀ e ∈ l, -510 ≤ e ∧ e ≤ 510)
    (hD : -256 ^ (4 - l.length) < D ∧ D < 256 ^ (4 - l.length))
    (hdvd : (2 ^ 64 : Int) ∣ horner 0 l + D) : ∀ e ∈ l, e = 0 := by
  have hzero : (-510 : Int) ≤ 0 ∧ (0 : Int) ≤ 510 := by decide
  match l with
  | [] => exact fun _ he => absurd he List.not_mem_nil
  | [a] =>
    have hdigits := digits_eq_zero hzero hzero (hbound a (by simp))
      (show -2 ^ 24 < D ∧ D < 2 ^ 24 from hD) (by simpa [horner] using hdvd)
    simp [hdigits]
  | [a, b] =>
    have hD' : -2 ^ 16 < D ∧ D < 2 ^ 16 := hD
    have hdigits := digits_eq_zero hzero (hbound a (by simp)) (hbound b (by simp))
      (show -2 ^ 24 < D ∧ D < 2 ^ 24 by omega) (by simpa [horner] using hdvd)
    simp [hdigits]
  | [a, b, c] =>
    have hD' : -2 ^ 8 < D ∧ D < 2 ^ 8 := hD
    have hdigits := digits_eq_zero (hbound a (by simp)) (hbound b (by simp)) (hbound c (by simp))
      (show -2 ^ 24 < D ∧ D < 2 ^ 24 by omega) (by simpa [horner] using hdvd)
    simp [hdigits]
  | [a, b, c, d] =>
    -- The last factor is odd, so the number before it vanishes too.
    have hD' : -1 < D ∧ D < 1 := hD
    have hD0 : D = 0 := by omega
    rw [hD0, add_zero] at hdvd
    have hcoprime : Int.gcd (2 ^ 64) fnvPrime = 1 := by decide
    have hdvd' := Int.dvd_of_dvd_mul_left_of_gcd_one hdvd hcoprime
    have hd := hbound d (by simp)
    have hdigits := digits_eq_zero (hbound a (by simp)) (hbound b (by simp)) (hbound c (by simp))
      (show -2 ^ 24 < d ∧ d < 2 ^ 24 by omega) (by simpa [horner] using hdvd')
    simp [hdigits]
  | a :: b :: c :: d :: e :: l =>
    have hlen : (a :: b :: c :: d :: e :: l).length = l.length + 5 := rfl
    omega

/-! ## The checksum as a number -/

/-- What XORing a byte adds to a word. -/
def byteDelta (h : UInt64) (b : UInt8) : Int := ((h ^^^ b.toUInt64).toNat : Int) - h.toNat

theorem byteDelta_bound (h : UInt64) (b : UInt8) : -255 ≤ byteDelta h b ∧ byteDelta h b ≤ 255 := by
  have hb : b.toUInt64.toNat < 2 ^ 8 := by
    rw [UInt8.toNat_toUInt64]
    exact b.toNat_lt
  have hdiv : (h ^^^ b.toUInt64).toNat / 2 ^ 8 = h.toNat / 2 ^ 8 := by
    rw [UInt64.toNat_xor, Words.xor_div_of_lt hb]
  unfold byteDelta
  omega

theorem byteDelta_injective (h : UInt64) : Function.Injective (byteDelta h) := by
  intro b b' heq
  have hxor : h ^^^ b.toUInt64 = h ^^^ b'.toUInt64 := by
    apply UInt64.toNat_inj.mp
    unfold byteDelta at heq
    omega
  exact fnvStep_injective_byte h (congrArg (· * 0x100000001b3) hxor)

theorem fnvStep_modEq (h : UInt64) (b : UInt8) :
    ((fnvStep h b).toNat : Int) ≡ (h.toNat + byteDelta h b) * fnvPrime [ZMOD 2 ^ 64] := by
  have hstep : ((fnvStep h b).toNat : Int) = (h.toNat + byteDelta h b) * fnvPrime % 2 ^ 64 := by
    rw [fnvStep, UInt64.toNat_mul, byteDelta, fnvPrime]
    push_cast
    congr 2
    omega
  rw [hstep]
  exact Int.mod_modEq _ _

/-- The digits that two strings put on two states, one minus the other. -/
def drifts : (h h' : UInt64) → Bytes → Bytes → List Int
  | h, h', b :: x, b' :: y =>
    (byteDelta h b - byteDelta h' b') :: drifts (fnvStep h b) (fnvStep h' b') x y
  | _, _, _, _ => []

theorem drifts_bound (h h' : UInt64) (x y : Bytes) :
    ∀ e ∈ drifts h h' x y, -510 ≤ e ∧ e ≤ 510 := by
  induction x generalizing h h' y with
  | nil => exact fun _ he => absurd he List.not_mem_nil
  | cons b x ih =>
    cases y with
    | nil => exact fun _ he => absurd he List.not_mem_nil
    | cons b' y =>
      intro e he
      rcases List.mem_cons.mp he with rfl | he
      · have h1 := byteDelta_bound h b
        have h2 := byteDelta_bound h' b'
        omega
      · exact ih _ _ y e he

theorem length_drifts (h h' : UInt64) {x y : Bytes} (hlen : x.length = y.length) :
    (drifts h h' x y).length = x.length := by
  induction x generalizing h h' y with
  | nil => rfl
  | cons b x ih =>
    cases y with
    | nil => exact absurd hlen (by simp)
    | cons b' y => exact congrArg (· + 1) (ih _ _ (Nat.succ.inj hlen))

/-- The difference of two runs of the checksum is the number of their digits. -/
theorem foldl_fnvStep_modEq (h h' : UInt64) {x y : Bytes} (hlen : x.length = y.length) :
    ((x.foldl fnvStep h).toNat : Int) - (y.foldl fnvStep h').toNat ≡
      horner (h.toNat - h'.toNat) (drifts h h' x y) [ZMOD 2 ^ 64] := by
  suffices hgen : ∀ D : Int, D ≡ h.toNat - h'.toNat [ZMOD 2 ^ 64] →
      ((x.foldl fnvStep h).toNat : Int) - (y.foldl fnvStep h').toNat ≡
        horner D (drifts h h' x y) [ZMOD 2 ^ 64] from hgen _ rfl
  induction x generalizing h h' y with
  | nil =>
    obtain rfl := List.length_eq_zero_iff.mp hlen.symm
    exact fun D hD => hD.symm
  | cons b x ih =>
    cases y with
    | nil => exact absurd hlen (by simp)
    | cons b' y =>
      intro D hD
      refine ih (fnvStep h b) (fnvStep h' b') (Nat.succ.inj hlen) _ ?_
      have hsub := (fnvStep_modEq h b).sub (fnvStep_modEq h' b')
      refine Int.ModEq.trans ?_ hsub.symm
      rw [← Int.sub_mul]
      refine Int.ModEq.mul_right _ ?_
      have hadd := hD.add_right (byteDelta h b - byteDelta h' b')
      rwa [show (h.toNat : Int) - h'.toNat + (byteDelta h b - byteDelta h' b') =
        h.toNat + byteDelta h b - (h'.toNat + byteDelta h' b') by omega] at hadd

/-- From one state, strings whose digits are all 0 are equal. -/
theorem eq_of_drifts {h : UInt64} {x y : Bytes} (hlen : x.length = y.length)
    (hzero : ∀ e ∈ drifts h h x y, e = 0) : x = y := by
  induction x generalizing h y with
  | nil => exact (List.length_eq_zero_iff.mp hlen.symm).symm
  | cons b x ih =>
    cases y with
    | nil => exact absurd hlen (by simp)
    | cons b' y =>
      have hb : b = b' := byteDelta_injective h (Int.sub_eq_zero.mp (hzero _ List.mem_cons_self))
      subst hb
      rw [ih (Nat.succ.inj hlen) fun e he => hzero e (List.mem_cons_of_mem _ he)]

/-- Up to four bytes move the checksum further than the bytes that are left of four can. -/
theorem eq_of_foldl_fnvStep {h : UInt64} {x y : Bytes} (hlen : x.length = y.length)
    (h4 : x.length ≤ 4)
    (hlt : (x.foldl fnvStep h).toNat < (y.foldl fnvStep h).toNat + 256 ^ (4 - x.length))
    (hgt : (y.foldl fnvStep h).toNat < (x.foldl fnvStep h).toNat + 256 ^ (4 - x.length)) :
    x = y := by
  have hmod := foldl_fnvStep_modEq h h hlen
  rw [Int.sub_self] at hmod
  have hdvd := hmod.dvd
  rw [sub_eq_add_neg] at hdvd
  have hcount := length_drifts h h hlen
  refine eq_of_drifts hlen (digits_all_zero (hcount ▸ h4) (drifts_bound h h x y) ?_ hdvd)
  rw [hcount]
  have hcast : (((256 ^ (4 - x.length) : Nat)) : Int) = 256 ^ (4 - x.length) := by push_cast; rfl
  omega

/-! ## Bursts -/

/-- `p` is `b` with other bytes in at most `n` consecutive places. -/
structure Burst (n : Nat) (b p : Bytes) : Prop where
  length : p.length = b.length
  ne : p ≠ b
  window : ∃ i, ∀ k, k < i ∨ i + n ≤ k → p[k]? = b[k]?

/-- The checksum of a body in three parts. -/
theorem fnv1a64_parts (q : Bytes) {s m r : Nat} :
    fnv1a64 (q.take (s + (m + r))) = (slice q (s + m) r).foldl fnvStep
      ((slice q s m).foldl fnvStep ((q.take s).foldl fnvStep 0xcbf29ce484222325)) := by
  rw [take_add_slice, slice_add]
  show (q.take s ++ (slice q s m ++ slice q (s + m) r)).foldl fnvStep _ = _
  rw [List.foldl_append, List.foldl_append]

/-- States of the checksum that lead to trailers with the same bytes from `4 - m` on: they are equal if
`m` is 4, and close if no bytes follow. -/
theorem lt_of_trailer {a a' : UInt64} {rest : Bytes} {m : Nat} (hr : m = 4 ∨ rest = [])
    (hdrop : (writeU64 (rest.foldl fnvStep a)).drop (4 - m) =
      (writeU64 (rest.foldl fnvStep a')).drop (4 - m)) :
    a.toNat < a'.toNat + 256 ^ (4 - m) := by
  rcases hr with rfl | rfl
  · rw [Nat.sub_self, List.drop_zero, List.drop_zero] at hdrop
    rw [foldl_injective fnvStep_injective_state rest (writeU64_injective hdrop)]
    exact Nat.lt_succ_self _
  · have hlt := LittleEndian.value_lt_of_drop (by rw [length_writeU64]; omega) hdrop
    rwa [value_writeU64, value_writeU64] at hlt

/-- The checksum sees a burst of four bytes, also one that reaches into the trailer. -/
theorem Burst.checksum {b p : Bytes} {size : Nat} (h : Burst 4 b p) (hsize : b.length = size + 8)
    (hsum : slice b size 8 = writeU64 (fnv1a64 (b.take size))) :
    wordAt p size ≠ fnv1a64 (p.take size) := by
  intro hword
  obtain ⟨i, hi⟩ := h.window
  have hp : p.length = size + 8 := h.length.trans hsize
  have hsum' : slice p size 8 = writeU64 (fnv1a64 (p.take size)) := by
    rw [slice_eq_writeU64 (by omega), hword]
  suffices hbody : p.take size = b.take size by
    refine h.ne ?_
    rw [← List.take_of_length_le hp.le, ← List.take_of_length_le hsize.le, take_add_slice,
      take_add_slice, hsum, hsum', hbody]
  obtain ⟨s, m, r, rfl, hs, hm, hr⟩ :
      ∃ s m r, size = s + (m + r) ∧ (s = i ∨ s ≤ i ∧ m = 0 ∧ r = 0) ∧
      m ≤ 4 ∧ (m = 4 ∨ r = 0) :=
    ⟨min i size, min 4 (size - min i size), size - min i size - min 4 (size - min i size), by omega,
      by omega, by omega, by omega⟩
  have htake : p.take s = b.take s := by
    rw [← slice_zero, ← slice_zero]
    exact slice_congr fun k _ hk => hi k (by omega)
  have hsuffix : slice p (s + m) r = slice b (s + m) r := slice_congr fun k _ _ => hi k (by omega)
  rw [fnv1a64_parts] at hsum hsum'
  rw [htake, hsuffix] at hsum'
  rw [take_add_slice, take_add_slice, slice_add, slice_add, htake, hsuffix]
  generalize (b.take s).foldl fnvStep 0xcbf29ce484222325 = h0 at hsum hsum'
  have hlenp : (slice p s m).length = m := length_slice (by omega)
  have hlenb : (slice b s m).length = m := length_slice (by omega)
  suffices hwindow : slice p s m = slice b s m by rw [hwindow]
  rcases hs with rfl | ⟨-, rfl, -⟩
  swap
  · rw [List.length_eq_zero_iff.mp hlenp, List.length_eq_zero_iff.mp hlenb]
  have hdrop : (slice p (s + (m + r)) 8).drop (4 - m) = (slice b (s + (m + r)) 8).drop (4 - m) := by
    rw [drop_slice, drop_slice]
    exact slice_congr fun k _ _ => hi k (by omega)
  rw [hsum, hsum'] at hdrop
  have hr' : m = 4 ∨ slice b (s + m) r = [] := hr.imp_right fun h0 => by rw [h0]; rfl
  refine eq_of_foldl_fnvStep (h := h0) (hlenp.trans hlenb.symm) (hlenp.trans_le hm) ?_ ?_
  · rw [hlenp]
    exact lt_of_trailer hr' hdrop
  · rw [hlenp]
    exact lt_of_trailer hr' hdrop.symm

/-! ## The parser after a burst -/

section Parse

variable {formats : List Format} {entryBytes : Nat} {b p : Bytes} {h : Header}

/-- When `data_len` and the size of the header stay, a burst makes the checksum fail. -/
theorem parse_burst_checksum (hf : ProperFormats formats) (hentry : entryBytes ≤ 16)
    (hb : Exact formats entryBytes b h) (hburst : Burst 4 b p) {f : Format} (hmem : f ∈ formats)
    (hmagic : p.take 8 = f.magic) (h32 : f.headerSize = 32) (hword : word32At p 24 = h.dataLen) :
    parse 64 formats entryBytes p = some (.error .checksum) := by
  have hlength := hb.length
  have hbody := hb.body_ge
  have hp := hburst.length
  rw [parse_eq hf hentry, if_neg (by omega), hmagic, hf.find_magic f hmem]
  simp only
  rw [bodySize_headerAt h32 hb hword, if_neg (by omega), if_pos]
  exact hburst.checksum hlength hb.accepted.checksum

/-- A burst is reported unless it turns the magic into one with a shorter header or lowers
`data_len`. -/
theorem parse_burst (hf : ProperFormats formats) (hentry : entryBytes ≤ 16) (hpos : 0 < entryBytes)
    (hb : Exact formats entryBytes b h) (hburst : Burst 4 b p)
    (hold : ∀ f ∈ formats, p.take 8 = f.magic → f.headerSize = 32)
    (hlower : ¬ word32At p 24 < h.dataLen) :
    ∃ rc, rc ≠ .ok ∧ parse 64 formats entryBytes p = some (.error rc) := by
  have hlength := hb.length
  have hbody := hb.body_ge
  have hp := hburst.length
  cases hfind : formats.find? fun f => p.take 8 = f.magic with
  | none =>
    refine ⟨.invalidFormat, by decide, ?_⟩
    rw [parse_eq hf hentry, if_neg (by omega), hfind]
  | some f =>
    have hmem := List.mem_of_find?_eq_some hfind
    have hmagic : p.take 8 = f.magic := by simpa using List.find?_some hfind
    have h32 := hold f hmem hmagic
    by_cases hword : word32At p 24 = h.dataLen
    · exact ⟨.checksum, by decide, parse_burst_checksum hf hentry hb hburst hmem hmagic h32 hword⟩
    -- A larger `data_len` makes the buffer too short.
    refine ⟨.shortBuffer, by decide, ?_⟩
    rw [parse_eq hf hentry, if_neg (by omega), hfind]
    simp only
    rw [if_pos]
    have hne := mt UInt32.toNat_inj.mp hword
    rw [UInt32.lt_iff_toNat_lt] at hlower
    have hmul := Nat.mul_lt_mul_of_pos_right
      (show h.dataLen.toNat < (word32At p 24).toNat by omega) hpos
    show p.length < f.headerSize + (word32At p 24).toNat * entryBytes + 8
    rw [hp, hlength, Header.bodySize, hb.size, h32]
    omega

end Parse

/-! ## Readers and views -/

/-- What the reader and the view say of the written buffer `b` after a burst of up to four bytes; `old p`
says that the magic of `p` is one with a shorter header. -/
structure DetectsBursts {τ : Type} (read : Heap → Bytes → Option (Rc × MapOf τ))
    (view : Nat → Bytes → Option (Rc × MapOf τ)) (old : Bytes → Prop) (b : Bytes) : Prop where
  changed : ∀ p, Burst 4 b p → ¬ old p →
    ¬ (∃ d d', readU32 b 24 = some d ∧ readU32 p 24 = some d' ∧ d' < d) →
    ∃ rc, rc ≠ .ok ∧ Rejects read view p rc
  checksum : ∀ p, Burst 4 b p → p.take 8 = b.take 8 → readU32 p 24 = readU32 b 24 →
    Rejects read view p .checksum

theorem Exact.detectsBursts {τ : Type} {Cd : Codec τ} {Rep : τ → Nat → (Nat → Slot) → Prop}
    {answer : Slot → UInt64 → UInt64} {b : Bytes} {h : Header} (hCd : Cd.Lawful Rep answer)
    (hpos : 0 < Cd.entryBytes) (hb : Exact Cd.formats Cd.entryBytes b h) {old : Bytes → Prop}
    (hold : ∀ f ∈ Cd.formats, ∀ p : Bytes, p.take 8 = f.magic → ¬ old p → f.headerSize = 32) :
    DetectsBursts (read Cd 64) (view Cd 64 true) old b := by
  have hlength := hb.length
  have hbody := hb.body_ge
  have hread : ∀ p : Bytes, p.length = b.length → readU32 p 24 = some (word32At p 24) :=
    fun p hp => readU32_of_le (by omega)
  constructor
  · intro p hburst hno hlower
    obtain ⟨rc, hrc, hparse⟩ := parse_burst hCd.formats hCd.entryBytes hpos hb hburst
      (fun f hf hmagic => hold f hf p hmagic hno)
      (fun hlt => hlower ⟨_, _, hread b rfl, hread p hburst.length, by rwa [hb.dataLen_eq]⟩)
    exact ⟨rc, hrc, rejects_of_parse hparse⟩
  · intro p hburst hmagic hword
    rw [hread p hburst.length, hread b rfl, Option.some.injEq, hb.dataLen_eq] at hword
    exact rejects_of_parse (parse_burst_checksum hCd.formats hCd.entryBytes hb hburst
      hb.accepted.mem (hmagic.trans hb.accepted.magic) hb.size hword)

/-- What a writer has written is rejected after any change that is confined to four consecutive bytes,
except possibly one that lowers `data_len` or that turns the magic of a `ConstMap` into `CMAP0001`. -/
theorem bursts_detected :
    (∀ cm buf out, constmapWrite cm buf = some (.ok, out) →
      DetectsBursts (constmapRead 64) (constmapView 64 true)
        (fun p => p.take 8 = magicOf ['C', 'M', 'A', 'P', '0', '0', '0', '1'])
        (out.take (constmapSerializedSize 64 cm))) ∧
    (∀ vm buf out, verifiedConstmapWrite vm buf = some (.ok, out) →
      DetectsBursts (verifiedConstmapRead 64) (verifiedConstmapView 64 true) (fun _ => False)
        (out.take (verifiedConstmapSerializedSize 64 vm))) ∧
    ∀ pm buf out, pairedVerifiedConstmapWrite pm buf = some (.ok, out) →
      DetectsBursts (pairedVerifiedConstmapRead 64) (pairedVerifiedConstmapView 64 true)
        (fun _ => False) (out.take (pairedVerifiedConstmapSerializedSize 64 pm)) := by
  refine ⟨?_, ?_, ?_⟩
  · intro cm buf out hwrite
    obtain ⟨h, hb⟩ := write_exact constmapCodec_lawful length_encode_constmap hwrite
    refine hb.detectsBursts constmapCodec_lawful (by decide) ?_
    have hsize : ∀ f ∈ constmapFormats, f.headerSize = 32 ∨
        f.magic = magicOf ['C', 'M', 'A', 'P', '0', '0', '0', '1'] := by decide
    intro f hf p hmagic hno
    exact (hsize f hf).resolve_right fun heq => hno (hmagic.trans heq)
  · intro vm buf out hwrite
    obtain ⟨h, hb⟩ := write_exact verifiedCodec_lawful length_encode_verified hwrite
    have hsize : ∀ f ∈ verifiedFormats, f.headerSize = 32 := by decide
    exact hb.detectsBursts verifiedCodec_lawful (by decide) fun f hf _ _ _ => hsize f hf
  · intro pm buf out hwrite
    obtain ⟨h, hb⟩ := write_exact pairedCodec_lawful length_encode_paired hwrite
    have hsize : ∀ f ∈ pairedFormats, f.headerSize = 32 := by decide
    exact hb.detectsBursts pairedCodec_lawful (by decide) fun f hf _ _ _ => hsize f hf

/-- The map of one key, with the last two bytes of its header and the first two of its slots changed. -/
theorem bursts_detected_one : ∃ vm out,
    verifiedConstmapNewWithHash smallEnv smallHeap verifiedLayout.zeroMap [([0x61], 100)]
      HASH_XXH64 = some (.ok, vm) ∧
    verifiedConstmapWrite vm (List.replicate 232 0) = some (.ok, out) ∧
    ∃ m, verifiedConstmapRead 64 smallHeap
      (((((out.take 232).set 30 1).set 31 2).set 32 3).set 33 4) = some (.checksum, m) := by
  obtain ⟨vm, out, hvm, hout, hsize, -, hbyte, -⟩ := exists_written
  have hdetects := bursts_detected.2.1 vm (List.replicate 232 0) out hout
  rw [hsize] at hdetects
  refine ⟨vm, out, hvm, hout, (hdetects.checksum _ ⟨?_, ?_, 30, ?_⟩ ?_ ?_).1 smallHeap⟩
  · simp
  · intro heq
    have h := congrArg (·[30]?) heq
    simp [List.getElem?_set, hbyte] at h
  · intro k hk
    rw [List.getElem?_set_ne (by omega), List.getElem?_set_ne (by omega),
      List.getElem?_set_ne (by omega), List.getElem?_set_ne (by omega)]
  · rw [List.take_set_of_le (by decide), List.take_set_of_le (by decide),
      List.take_set_of_le (by decide), List.take_set_of_le (by decide)]
  · simp [readU32, load]

end FastConstMap
