import FastConstMap.Proofs.MapsProofs
import FastConstMap.Proofs.ParamsProofs
import FastConstMap.Proofs.SerialProofs

/-!
# Proofs: the arrays of the three map types in a buffer

For each map type the reader and the view get the same arrays from a buffer, and the bytes that the
writer makes of them are those that they came from.
-/

namespace FastConstMap

open CLoop Slices

/-- The properties of a codec that the writers, the readers and the views rely on. -/
structure Codec.Lawful {τ : Type} (Cd : Codec τ) (Rep : τ → Nat → (Nat → Slot) → Prop)
    (answer : Slot → UInt64 → UInt64) : Prop where
  layout : Cd.layout.Lawful Rep answer
  formats : ProperFormats Cd.formats
  entryBytes : Cd.entryBytes ≤ 16
  paramsOk_zero : Cd.paramsOk 0 0 0 = true
  paramsOk_valid : ∀ {p : Params}, p.Valid →
    Cd.paramsOk p.segmentLength p.segmentCount p.arrayLen = true
  null : ∃ f, Rep Cd.layout.null 0 f
  encode : ∀ {table n f}, Rep table n f →
    ∃ bs, Cd.encode table n = some bs ∧ bs.length = n * Cd.entryBytes
  encode_injective : ∀ {table table' n f f'}, Rep table n f → Rep table' n f' →
    Cd.encode table n = Cd.encode table' n → table = table'
  borrow : ∀ (w : Nat) (p : Bytes) (off n : Nat), ∃ f, Rep (Cd.borrow w p off n) n f
  decode_rep : ∀ {w : Nat} {p : Bytes} {off n : Nat} {table : τ}, Cd.decode w p off n = some table →
    ∃ f, Rep table n f
  decode : ∀ {p : Bytes} {off n : Nat}, n < 2 ^ 32 → off + n * Cd.entryBytes ≤ p.length →
    Cd.decode 64 p off n = some (Cd.borrow 64 p off n)
  decode_borrow : ∀ {w : Nat} {p : Bytes} {off n : Nat} {table : τ}, 16 ∣ 2 ^ w →
    p.length < 2 ^ w → Cd.decode w p off n = some table → table = Cd.borrow w p off n
  encode_borrow : ∀ {p : Bytes} {off n : Nat}, n < 2 ^ 32 → off + n * Cd.entryBytes ≤ p.length →
    Cd.encode (Cd.borrow 64 p off n) n = some (slice p off (n * Cd.entryBytes))

/-! ## Arrays of words -/

/-- The words of a buffer from `off` on. -/
def wordsAt (p : Bytes) (off n : Nat) : List UInt64 :=
  (List.range n).map fun i => wordAt p (off + i * 8)

theorem holds_wordsAt (p : Bytes) (off n : Nat) :
    Holds (wordsAt p off n) n fun i => wordAt p (off + i * 8) := Holds.map_range _ n

/-- Where no offset wraps, the byte-wise reader sees the words of the host. -/
theorem tabulate_readU64 {w : Nat} {p : Bytes} {off n : Nat} (hn : n * 8 < 2 ^ w)
    (h : off + n * 8 ≤ p.length) :
    tabulate (fun i => readU64 p (off + i * 8 % 2 ^ w)) n = some (wordsAt p off n) := by
  refine tabulate_eq ?_
  intro i hi
  rw [Nat.mod_eq_of_lt (by omega)]
  exact readU64_of_le (by omega)

/-- Whatever the size of `size_t`, a reader that stays within the buffer sees the words of the
host. -/
theorem wordsAt_of_tabulate {w : Nat} (hw : 16 ∣ 2 ^ w) {p : Bytes} (hp : p.length < 2 ^ w)
    {off n : Nat} {words : List UInt64}
    (h : tabulate (fun i => readU64 p (off + i * 8 % 2 ^ w)) n = some words) :
    n * 8 < 2 ^ w ∧ words = wordsAt p off n := by
  have hread : ∀ i, i < n → off + i * 8 % 2 ^ w + 8 ≤ p.length := by
    intro i hi
    obtain ⟨x, hx⟩ := exists_of_tabulate h hi
    exact readU64_le hx
  have h8 : 8 ∣ 2 ^ w := Nat.dvd_trans (by decide) hw
  have hlt : n * 8 < 2 ^ w := Words.mul_lt_of_mod_add_le h8 hp fun i hi =>
    Nat.le_trans (by omega) (hread i hi)
  refine ⟨hlt, Option.some.inj (h.symm.trans (tabulate_eq ?_))⟩
  intro i hi
  have hle := hread i hi
  rw [Nat.mod_eq_of_lt (by omega)] at hle ⊢
  exact readU64_of_le hle

/-- The words of a buffer write out its bytes. -/
theorem flatMap_wordsAt {p : Bytes} {off n : Nat} (h : off + n * 8 ≤ p.length) :
    (wordsAt p off n).flatMap writeU64 = slice p off (n * 8) := by
  rw [wordsAt, List.flatMap_map, ← flatMap_slice]
  refine List.flatMap_congr ?_
  intro i hi
  have hi' := List.mem_range.mp hi
  exact (slice_eq_writeU64 (by omega)).symm

theorem flatMap_writeU64_injective {l l' : List UInt64} (hlen : l.length = l'.length)
    (h : l.flatMap writeU64 = l'.flatMap writeU64) : l = l' :=
  flatMap_injective length_writeU64 writeU64_injective hlen h

/-- Copying the entries that an array holds. -/
theorem tabulate_holds {α : Type} {a : List α} {n : Nat} {f : Nat → α} (h : Holds a n f) :
    tabulate (load a) n = some a := h.1 ▸ tabulate_load a

/-! ## The three codecs -/

theorem constmapCodec_decode {w : Nat} {p : Bytes} {off n : Nat} (hn : n * 8 < 2 ^ w)
    (h : off + n * 8 ≤ p.length) :
    constmapCodec.decode w p off n = some (constmapCodec.borrow w p off n) :=
  tabulate_readU64 hn h

theorem verifiedCodec_decode {w : Nat} {p : Bytes} {off n : Nat} (hn : n * 16 < 2 ^ w)
    (h : off + n * 16 ≤ p.length) :
    verifiedCodec.decode w p off n = some (verifiedCodec.borrow w p off n) := by
  have hmod : n * 8 % 2 ^ w = n * 8 := Nat.mod_eq_of_lt (by omega)
  simp only [verifiedCodec, hmod]
  rw [tabulate_readU64 (by omega) (by omega), tabulate_readU64 (by omega) (by omega)]
  rfl

theorem pairedCodec_decode {w : Nat} {p : Bytes} {off n : Nat} (hn : n * 16 < 2 ^ w)
    (h : off + n * 16 ≤ p.length) :
    pairedCodec.decode w p off n = some (pairedCodec.borrow w p off n) := by
  refine tabulate_eq ?_
  intro i hi
  rw [Nat.mod_eq_of_lt (by omega), readU64_of_le (by omega), readU64_of_le (by omega)]
  rfl

theorem constmapCodec_lawful : constmapCodec.Lawful constmapRep constmapAnswer where
  layout := constmapLayout_lawful
  formats := constmapFormats_proper
  entryBytes := by decide
  paramsOk_zero := rfl
  paramsOk_valid _ := rfl
  null := ⟨fun _ => ⟨0, 0⟩, rfl, fun i hi => absurd hi (Nat.not_lt_zero i)⟩
  encode {data n f} h := by
    refine ⟨data.flatMap writeU64, ?_, ?_⟩
    · simp only [constmapCodec, tabulate_holds h, Option.bind_eq_bind, Option.bind_some]
    · rw [length_flatMap length_writeU64, h.1]
      rfl
  encode_injective {data data' n f f'} h h' he := by
    simp only [constmapCodec, tabulate_holds h, tabulate_holds h', Option.bind_eq_bind,
      Option.bind_some, Option.some.injEq] at he
    exact flatMap_writeU64_injective (h.1.trans h'.1.symm) he
  borrow _ p off n := ⟨fun i => ⟨wordAt p (off + i * 8), 0⟩, holds_wordsAt p off n⟩
  decode_rep {w p off n data} h :=
    ⟨fun i => ⟨data.getD i 0, 0⟩, holds_of_length (length_of_tabulate h) 0⟩
  decode hn h := constmapCodec_decode (by omega) h
  decode_borrow hw hp h := (wordsAt_of_tabulate hw hp h).2
  encode_borrow {p off n} _ h := by
    show (tabulate (load (wordsAt p off n)) n).bind _ = _
    rw [tabulate_holds (holds_wordsAt p off n)]
    exact congrArg some (flatMap_wordsAt h)

theorem verifiedCodec_lawful : verifiedCodec.Lawful verifiedRep verifiedAnswer where
  layout := verifiedLayout_lawful
  formats := verifiedFormats_proper
  entryBytes := by decide
  paramsOk_zero := rfl
  paramsOk_valid _ := rfl
  null := ⟨fun _ => ⟨0, 0⟩, ⟨rfl, fun i hi => absurd hi (Nat.not_lt_zero i)⟩,
    ⟨rfl, fun i hi => absurd hi (Nat.not_lt_zero i)⟩⟩
  encode {table n f} h := by
    refine ⟨table.data.flatMap writeU64 ++ table.checks.flatMap writeU64, ?_, ?_⟩
    · simp only [verifiedCodec, tabulate_holds h.1, tabulate_holds h.2, Option.bind_eq_bind,
        Option.bind_some]
    · rw [List.length_append, length_flatMap length_writeU64, length_flatMap length_writeU64, h.1.1,
        h.2.1, ← Nat.mul_add]
      rfl
  encode_injective {table table' n f f'} h h' he := by
    obtain ⟨data, checks⟩ := table
    obtain ⟨data', checks'⟩ := table'
    simp only [verifiedCodec, tabulate_holds h.1, tabulate_holds h.2, tabulate_holds h'.1,
      tabulate_holds h'.2, Option.bind_eq_bind, Option.bind_some, Option.some.injEq] at he
    have hlen : data.length = data'.length := h.1.1.trans h'.1.1.symm
    have hlenc : checks.length = checks'.length := h.2.1.trans h'.2.1.symm
    obtain ⟨hd, hc⟩ := List.append_inj he (by
      rw [length_flatMap length_writeU64, length_flatMap length_writeU64, hlen])
    exact congrArg₂ Tables.mk (flatMap_writeU64_injective hlen hd)
      (flatMap_writeU64_injective hlenc hc)
  borrow w p off n :=
    ⟨fun i => ⟨wordAt p (off + i * 8), wordAt p (off + n * 8 % 2 ^ w + i * 8)⟩,
      holds_wordsAt p off n, holds_wordsAt p (off + n * 8 % 2 ^ w) n⟩
  decode_rep {w p off n table} h := by
    obtain ⟨data, hdata, h⟩ := Option.bind_eq_some_iff.mp h
    obtain ⟨checks, hchecks, h⟩ := Option.bind_eq_some_iff.mp h
    obtain rfl := Option.some.inj h
    exact ⟨fun i => ⟨data.getD i 0, checks.getD i 0⟩, holds_of_length (length_of_tabulate hdata) 0,
      holds_of_length (length_of_tabulate hchecks) 0⟩
  decode hn h := verifiedCodec_decode (by omega) h
  decode_borrow {w p off n table} hw hp h := by
    obtain ⟨data, hdata, h⟩ := Option.bind_eq_some_iff.mp h
    obtain ⟨checks, hchecks, h⟩ := Option.bind_eq_some_iff.mp h
    rw [(wordsAt_of_tabulate hw hp hdata).2, (wordsAt_of_tabulate hw hp hchecks).2] at h
    exact (Option.some.inj h).symm
  encode_borrow {p off n} hn h := by
    have h16 : off + n * 16 ≤ p.length := h
    have hmod : n * 8 % 2 ^ 64 = n * 8 := Nat.mod_eq_of_lt (by omega)
    show (tabulate (load (wordsAt p off n)) n).bind (fun data =>
      (tabulate (load (wordsAt p (off + n * 8 % 2 ^ 64) n)) n).bind _) = _
    rw [tabulate_holds (holds_wordsAt p off n), tabulate_holds (holds_wordsAt p _ n), hmod]
    refine congrArg some ?_
    rw [flatMap_wordsAt (by omega), flatMap_wordsAt (by omega), ← slice_add, ← Nat.mul_add]
    rfl

/-! ## Slots -/

/-- The slots of a buffer from `off` on. -/
def slotsAt (p : Bytes) (off n : Nat) : List Slot :=
  (List.range n).map fun i => ⟨wordAt p (off + i * 16), wordAt p (off + i * 16 + 8)⟩

/-- The bytes of a slot: its value, then its check word. -/
def writeSlot (s : Slot) : Bytes := writeU64 s.value ++ writeU64 s.check

theorem holds_slotsAt (p : Bytes) (off n : Nat) : Holds (slotsAt p off n) n fun i =>
    ⟨wordAt p (off + i * 16), wordAt p (off + i * 16 + 8)⟩ := Holds.map_range _ n

theorem length_writeSlot (s : Slot) : (writeSlot s).length = 16 := rfl

theorem writeSlot_injective : Function.Injective writeSlot := by
  intro a b h
  obtain ⟨hv, hc⟩ := List.append_inj h rfl
  exact Slot.ext (writeU64_injective hv) (writeU64_injective hc)

/-- The slots of a buffer write out its bytes. -/
theorem flatMap_slotsAt {p : Bytes} {off n : Nat} (h : off + n * 16 ≤ p.length) :
    (slotsAt p off n).flatMap writeSlot = slice p off (n * 16) := by
  rw [slotsAt, List.flatMap_map, ← flatMap_slice]
  refine List.flatMap_congr ?_
  intro i hi
  have hi' := List.mem_range.mp hi
  rw [writeSlot, ← slice_eq_writeU64 (by omega), ← slice_eq_writeU64 (by omega), ← slice_add]

/-- Consistent segment parameters pass the check of the paired reader. -/
theorem SegmentsOk.pairedParamsOk {L mask count scl len : UInt32}
    (h : SegmentsOk L mask count scl len) : pairedParamsOk L count len = true := by
  obtain ⟨k, hk⟩ := h.pow
  have hL := h.pos
  have hand : L &&& (L - 1) = 0 := by
    apply UInt32.toNat_inj.mp
    have hsub : (L - 1).toNat = 2 ^ k - 1 := by
      rw [UInt32.toNat_sub_of_le L 1 (UInt32.le_iff_toNat_le.mpr hL), hk]
      rfl
    rw [UInt32.toNat_and, hsub, Nat.and_two_pow_sub_one_eq_mod, hk, Nat.mod_self]
    rfl
  have hne : ∀ x : UInt32, 0 < x.toNat → x ≠ 0 := by
    rintro x hx rfl
    exact absurd hx (by decide)
  unfold FastConstMap.pairedParamsOk
  rw [if_neg (hne _ h.len_pos), if_neg (not_or.mpr ⟨hne _ hL, not_not.mpr hand⟩),
    if_neg (hne _ h.count_pos), decide_eq_true h.len_eq.symm]

theorem pairedCodec_lawful : pairedCodec.Lawful Holds verifiedAnswer where
  layout := pairedLayout_lawful
  formats := pairedFormats_proper
  entryBytes := by decide
  paramsOk_zero := rfl
  paramsOk_valid hp := hp.pairedParamsOk
  null := ⟨fun _ => ⟨0, 0⟩, rfl, fun i hi => absurd hi (Nat.not_lt_zero i)⟩
  encode {slots n f} h := by
    refine ⟨slots.flatMap writeSlot, ?_, ?_⟩
    · simp only [pairedCodec, tabulate_holds h, Option.bind_eq_bind, Option.bind_some]
      rfl
    · rw [length_flatMap length_writeSlot, h.1]
      rfl
  encode_injective {slots slots' n f f'} h h' he := by
    simp only [pairedCodec, tabulate_holds h, tabulate_holds h', Option.bind_eq_bind,
      Option.bind_some, Option.some.injEq] at he
    exact flatMap_injective length_writeSlot writeSlot_injective (h.1.trans h'.1.symm) he
  borrow _ p off n := ⟨_, holds_slotsAt p off n⟩
  decode_rep h := ⟨_, holds_of_length (length_of_tabulate h) ⟨0, 0⟩⟩
  decode hn h := pairedCodec_decode (by omega) h
  decode_borrow {w p off n slots} hw hp h := by
    have hread : ∀ i, i < n → off + i * 16 % 2 ^ w + 8 + 8 ≤ p.length := by
      intro i hi
      obtain ⟨s, hs⟩ := exists_of_tabulate h hi
      obtain ⟨value, -, hs⟩ := Option.bind_eq_some_iff.mp hs
      obtain ⟨check, hcheck, -⟩ := Option.bind_eq_some_iff.mp hs
      exact readU64_le hcheck
    have hlt : n * 16 < 2 ^ w := Words.mul_lt_of_mod_add_le hw hp fun i hi =>
      Nat.le_trans (by omega) (hread i hi)
    refine Option.some.inj (h.symm.trans (tabulate_eq ?_))
    intro i hi
    have hle := hread i hi
    rw [Nat.mod_eq_of_lt (by omega)] at hle ⊢
    rw [readU64_of_le (by omega), readU64_of_le hle]
    rfl
  encode_borrow {p off n} _ h := by
    show (tabulate (load (slotsAt p off n)) n).bind _ = _
    rw [tabulate_holds (holds_slotsAt p off n)]
    exact congrArg some (flatMap_slotsAt h)

end FastConstMap
