import FastConstMap.Lookup
import FastConstMap.Proofs.MapsProofs

/-!
# Proofs: batched lookups

A batched lookup writes exactly the answers of the single lookups: its blocks hash and gather in
separate phases, but each entry of a block is computed from its own key only.
-/

namespace FastConstMap

open CLoop

variable {τ : Type} {Ly : Layout τ} {Rep : τ → Nat → (Nat → Slot) → Prop}
  {answer : Slot → UInt64 → UInt64} {K : KeyHash} {m : MapOf τ} {keys : List Bytes}

/-! ## The output array -/

/-- The first `k` cells of the output hold the answers `v`, the others what they held before. -/
structure Filled (out : List UInt64) (v : Nat → UInt64) (k : Nat) (out' : List UInt64) : Prop where
  length : out'.length = out.length
  done : ∀ i, i < k → load out' i = some (v i)
  rest : ∀ i, k ≤ i → load out' i = load out i

theorem Filled.start (out : List UInt64) (v : Nat → UInt64) : Filled out v 0 out :=
  ⟨rfl, fun i hi => absurd hi (Nat.not_lt_zero i), fun _ _ => rfl⟩

/-- Writing the next answer. -/
theorem Filled.store {out out' : List UInt64} {v : Nat → UInt64} {k : Nat} (h : Filled out v k out')
    (hk : k < out.length) :
    ∃ out'', CLoop.store out' k (v k) = some out'' ∧ Filled out v (k + 1) out'' := by
  have hk' : k < out'.length := h.length.symm ▸ hk
  refine ⟨_, store_of_lt _ hk', by rw [List.length_set, h.length], ?_, ?_⟩
  · intro i hi
    by_cases hik : i = k
    · rw [hik, load, List.getElem?_set_self hk']
    · rw [load, List.getElem?_set_ne (Ne.symm hik)]
      exact h.done i (by omega)
  · intro i hi
    rw [load, List.getElem?_set_ne (by omega)]
    exact h.rest i (by omega)

/-! ## Blocks -/

/-- Both kinds of lookup give the answer `v i` for key `i`. -/
structure Answers (Ly : Layout τ) (K : KeyHash) (m : MapOf τ) (keys : List Bytes)
    (v : Nat → UInt64) : Prop where
  single : ∀ i (hi : i < keys.length), lookup Ly K m keys[i] = some (v i)
  batched : ∀ i (hi : i < keys.length), Ly.gather m.table (m.pos (m.mixed K keys[i]) 0)
    (m.pos (m.mixed K keys[i]) 1) (m.pos (m.mixed K keys[i]) 2) (m.mixed K keys[i]) = some (v i)

/-- A block writes the answers of its `B` keys. -/
theorem lookupBlock_spec {v : Nat → UInt64} (hv : Answers Ly K m keys v) {B i : Nat}
    (hi : i + B ≤ keys.length) {out out' : List UInt64} (hout : keys.length ≤ out.length)
    (h : Filled out v i out') :
    ∃ out'', lookupBlock K.code Ly m B keys i out' = some out'' ∧ Filled out v (i + B) out'' := by
  have hlen : ((keys.drop i).take B).length = B := by
    rw [List.length_take, List.length_drop]
    omega
  unfold lookupBlock
  refine forUp_spec (fun j o => Filled out v (i + j) o) (Nat.zero_add B) ?_ h
  intro j o _ hj ho
  have hij : i + j < keys.length := by omega
  have hkey : load ((keys.drop i).take B) j = some keys[i + j] := by
    rw [load_of_lt (by omega), List.getElem_take, List.getElem_drop]
  have hhash : load (hashBlock K m.hash ((keys.drop i).take B) m.seed) j =
      some (m.mixed K keys[i + j]) := by
    rw [hashBlock_eq, load, List.getElem?_map]
    exact congrArg (Option.map _) hkey
  have hpos : load ((hashBlock K m.hash ((keys.drop i).take B) m.seed).map fun hash =>
      K.code.getH012 hash m.segmentLength m.segmentLengthMask m.segmentCountLength) j =
      some (getH012 (m.mixed K keys[i + j]) m.segmentLength m.segmentLengthMask
        m.segmentCountLength) := by
    rw [load, List.getElem?_map]
    exact congrArg (Option.map _) hhash
  obtain ⟨o', hst, ho'⟩ := ho.store (by omega)
  refine ⟨o', ?_, ho'⟩
  simp only [hpos, hhash, Option.bind_eq_bind, Option.bind_some]
  exact (congrArg (fun x => x.bind fun v => store o (i + j) v) (hv.batched (i + j) hij)).trans hst

/-- A batched lookup writes the answers of the single lookups, and nothing past them. -/
theorem lookupMany_spec {v : Nat → UInt64} (hv : Answers Ly K m keys v) {B : Nat} (hB : 1 ≤ B)
    (hlen : m.dataLen ≠ 0) {out : List UInt64} (hout : keys.length ≤ out.length) :
    ∃ out', lookupMany Ly K B m keys out = some out' ∧ Filled out v keys.length out' := by
  have hstep : ∀ s : Nat × List UInt64, (s.1 ≤ keys.length ∧ Filled out v s.1 s.2) →
      (∃ s', lookupManyStep K.code Ly m B keys s = some (.stop s') ∧
        (s'.1 ≤ keys.length ∧ Filled out v s'.1 s'.2)) ∨
      ∃ s', lookupManyStep K.code Ly m B keys s = some (.next s') ∧
        (s'.1 ≤ keys.length ∧ Filled out v s'.1 s'.2) ∧
        keys.length - s'.1 < keys.length - s.1 := by
    rintro ⟨i, out1⟩ ⟨hi, h⟩
    simp only at hi h
    unfold lookupManyStep
    simp only
    split_ifs with hblock
    · right
      obtain ⟨out2, hb, h2⟩ := lookupBlock_spec hv hblock hout h
      refine ⟨(i + B, out2), by rw [hb]; rfl, ⟨hblock, h2⟩, ?_⟩
      simp only
      omega
    · exact Or.inl ⟨_, rfl, hi, h⟩
  obtain ⟨⟨i, out1⟩, hloop, hi, h1⟩ := loop_spec (fun s : Nat × List UInt64 => keys.length - s.1)
    _ _ hstep (s := (0, out)) ⟨Nat.zero_le _, Filled.start out v⟩
    (show keys.length - 0 < keys.length + 1 by omega)
  simp only at hi h1
  unfold lookupMany lookupManyWith
  rw [if_neg hlen, hloop]
  -- The tail is looked up key by key.
  refine forUp_spec (Filled out v) (Nat.add_sub_cancel' hi) ?_ h1
  intro j o _ hj ho
  obtain ⟨o', hst, ho'⟩ := ho.store (by omega)
  have hsingle : lookupWith K.code Ly m keys[j] = some (v j) := hv.single j hj
  refine ⟨o', ?_, ho'⟩
  simp only [load_of_lt hj, hsingle, Option.bind_eq_bind, Option.bind_some]
  exact hst

/-- A batched lookup on a map without entries writes the answer of the single lookups. -/
theorem lookupMany_missing (Ly : Layout τ) (K : KeyHash) (B : Nat) (hlen : m.dataLen = 0)
    {out : List UInt64} (hout : keys.length ≤ out.length) :
    ∃ out', lookupMany Ly K B m keys out = some out' ∧
      Filled out (fun _ => Ly.missing) keys.length out' := by
  unfold lookupMany lookupManyWith
  rw [if_pos hlen]
  exact forUp_spec (Filled out fun _ => Ly.missing) (Nat.zero_add _)
    (fun i o _ hi ho => ho.store (by omega)) (Filled.start out _)

/-! ## Batched and single lookups -/

/-- The positions of the keys are in range, unless the map has no entries. -/
def MapOf.InRange (m : MapOf τ) (K : KeyHash) (keys : List Bytes) : Prop :=
  m.dataLen ≠ 0 → ∀ key ∈ keys, ∀ j, m.pos (m.mixed K key) j < m.dataLen.toNat

/-- The output holds the answer of `single` for each key, and past them what it held before. -/
structure Batched (single : Bytes → Option UInt64) (keys : List Bytes) (out out' : List UInt64) :
    Prop where
  length : out'.length = out.length
  each : ∀ i (hi : i < keys.length), load out' i = single keys[i]
  rest : ∀ i, keys.length ≤ i → load out' i = load out i

/-- Answers for all keys are the first part of the output. -/
theorem Batched.eq_append {ans : Bytes → UInt64} {out out' : List UInt64}
    (h : Batched (some ∘ ans) keys out out') : out' = keys.map ans ++ out.drop keys.length := by
  refine List.ext_getElem? ?_
  intro i
  rcases Nat.lt_or_ge i keys.length with hi | hi
  · rw [List.getElem?_append_left (by rwa [List.length_map]), List.getElem?_map,
      List.getElem?_eq_getElem hi]
    exact h.each i hi
  · rw [List.getElem?_append_right (by rwa [List.length_map]), List.length_map,
      List.getElem?_drop, Nat.add_sub_cancel' hi]
    exact h.rest i hi

/-- Where all positions are in range, single and batched lookups give the same answers. -/
theorem answers_of_inRange (hLy : Ly.Lawful Rep answer) {f : Nat → Slot}
    (hrep : Rep m.table m.dataLen.toNat f) (hlen : m.dataLen ≠ 0) (hrange : m.InRange K keys) :
    ∃ v, Answers Ly K m keys v := by
  have hin : ∀ i (hi : i < keys.length) j, m.pos (m.mixed K keys[i]) j < m.dataLen.toNat :=
    fun i hi j => hrange hlen _ (List.getElem_mem hi) j
  have hkey : ∀ i (hi : i < keys.length), keys.getD i [] = keys[i] := fun i hi =>
    List.getD_eq_getElem _ _ hi
  refine ⟨fun i => answer (((f (m.pos (m.mixed K (keys.getD i [])) 0)).xor
    (f (m.pos (m.mixed K (keys.getD i [])) 1))).xor (f (m.pos (m.mixed K (keys.getD i [])) 2)))
    (m.mixed K (keys.getD i [])), ?_, ?_⟩
  · intro i hi
    simp only [hkey i hi]
    unfold lookup lookupWith
    rw [if_neg hlen]
    exact hLy.get hrep (hin i hi 0) (hin i hi 1) (hin i hi 2) _
  · intro i hi
    simp only [hkey i hi]
    exact hLy.gather hrep (hin i hi 0) (hin i hi 1) (hin i hi 2) _

/-- A batched lookup is a loop of single lookups, for every block size. -/
theorem lookupMany_batched (hLy : Ly.Lawful Rep answer) {f : Nat → Slot}
    (hrep : Rep m.table m.dataLen.toNat f) (hrange : m.InRange K keys) {B : Nat} (hB : 1 ≤ B)
    {out : List UInt64} (hout : keys.length ≤ out.length) :
    ∃ out', lookupMany Ly K B m keys out = some out' ∧ Batched (lookup Ly K m) keys out out' := by
  by_cases hlen : m.dataLen = 0
  · obtain ⟨out', hmany, h⟩ := lookupMany_missing Ly K B hlen hout
    refine ⟨out', hmany, h.length, ?_, h.rest⟩
    intro i hi
    rw [h.done i hi, lookup, lookupWith, if_pos hlen]
  · obtain ⟨v, hv⟩ := answers_of_inRange hLy hrep hlen hrange
    obtain ⟨out', hmany, h⟩ := lookupMany_spec hv hB hlen hout
    refine ⟨out', hmany, h.length, ?_, h.rest⟩
    intro i hi
    rw [h.done i hi, hv.single i hi]

/-- Batched lookup equals single lookup: for each map type, every map whose arrays have `data_len`
entries and every block size, the batched lookup writes for every key the answer of the single
lookup, when the positions of the keys are in range, and leaves the rest of the output alone. -/
theorem lookupMany_eq_lookup (K : KeyHash) (B : Nat) (hB : 1 ≤ B) (keys : List Bytes)
    (out : List UInt64) (hout : keys.length ≤ out.length) :
    (∀ cm : ConstMap, cm.table.length = cm.dataLen.toNat → cm.InRange K keys →
      ∃ out', constmapLookupMany K B cm keys out = some out' ∧
        Batched (constmapLookup K cm) keys out out') ∧
    (∀ vm : VerifiedConstMap, vm.table.data.length = vm.dataLen.toNat →
      vm.table.checks.length = vm.dataLen.toNat → vm.InRange K keys →
      ∃ out', verifiedConstmapLookupMany K B vm keys out = some out' ∧
        Batched (verifiedConstmapLookup K vm) keys out out') ∧
    (∀ pm : PairedVerifiedConstMap, pm.table.length = pm.dataLen.toNat → pm.InRange K keys →
      ∃ out', pairedVerifiedConstmapLookupMany K B pm keys out = some out' ∧
        Batched (pairedVerifiedConstmapLookup K pm) keys out out') := by
  refine ⟨?_, ?_, ?_⟩
  · intro cm hdata hr
    have hrep : constmapRep cm.table cm.dataLen.toNat fun i => ⟨cm.table.getD i 0, 0⟩ :=
      holds_of_length hdata 0
    exact lookupMany_batched constmapLayout_lawful hrep hr hB hout
  · intro vm hdata hchecks hr
    have hrep : verifiedRep vm.table vm.dataLen.toNat fun i =>
        ⟨vm.table.data.getD i 0, vm.table.checks.getD i 0⟩ :=
      ⟨holds_of_length hdata 0, holds_of_length hchecks 0⟩
    exact lookupMany_batched verifiedLayout_lawful hrep hr hB hout
  · intro pm hslots hr
    have hrep : Holds pm.table pm.dataLen.toNat fun i => pm.table.getD i ⟨0, 0⟩ :=
      holds_of_length hslots ⟨0, 0⟩
    exact lookupMany_batched pairedLayout_lawful hrep hr hB hout

/-- Three keys in blocks of two, on a map of three slots, with room for four answers. -/
theorem lookupMany_eq_lookup_three :
    let m : ConstMap := ⟨7, 1, 0, 1, 1, 3, 2, [5, 6, 8], 0⟩
    ∃ out, constmapLookupMany smallKeyHash 2 m [[0x61], [0x62], [0x61]] [0, 0, 0, 9] = some out ∧
      Batched (constmapLookup smallKeyHash m) [[0x61], [0x62], [0x61]] [0, 0, 0, 9] out := by
  intro m
  have hrange : m.InRange smallKeyHash [[0x61], [0x62], [0x61]] := by
    unfold MapOf.InRange
    decide +kernel
  exact (lookupMany_eq_lookup smallKeyHash 2 (by decide) [[0x61], [0x62], [0x61]] [0, 0, 0, 9]
    (by decide)).1 m rfl hrange

end FastConstMap
