import FastConstMap.Maps
import FastConstMap.Proofs.HashProofs

/-!
# Proofs: the three layouts

Each map type stores one function from slots to pairs of a value and a check word: a `ConstMap` its
values, a verified map both in two arrays, a paired map both interleaved. The assignment writes the
same pair in all three, and a lookup reads the XOR of three pairs.
-/

namespace FastConstMap

open CLoop

/-! ## Positions in a map -/

/-- The mixed hash of a key in the map `m`. -/
def MapOf.mixed {τ : Type} (m : MapOf τ) (K : KeyHash) (key : Bytes) : UInt64 :=
  mixsplit (hashKey K m.hash key) m.seed

/-- The positions that a lookup in the map `m` derives from a mixed hash. -/
def MapOf.pos {τ : Type} (m : MapOf τ) (hash : UInt64) (j : Fin 3) : Nat :=
  (position m.segmentLength m.segmentLengthMask m.segmentCountLength hash j).toNat

/-! ## Slots under XOR -/

/-- The XOR of two slots. -/
def Slot.xor (a b : Slot) : Slot := ⟨a.value ^^^ b.value, a.check ^^^ b.check⟩

instance : Std.Associative Slot.xor :=
  ⟨fun a b c => by simp only [Slot.xor, UInt64.xor_assoc]⟩

instance : Std.Commutative Slot.xor :=
  ⟨fun a b => by simp only [Slot.xor, UInt64.xor_comm]⟩

theorem slot_xor_self (a b : Slot) : a.xor (a.xor b) = b := by
  simp only [Slot.xor, Words.xor_self_cancel]

/-- What the slots of a mixed hash with the value `val` must combine to. -/
def entrySlot (val hash : UInt64) : Slot := ⟨val, fingerprint hash⟩

/-! ## Arrays of words and of slots -/

theorem xor3_spec {a : List UInt64} {len : Nat} {f : Nat → UInt64} (h : Holds a len f)
    {h0 h1 h2 : Nat} (l0 : h0 < len) (l1 : h1 < len) (l2 : h2 < len) :
    xor3 a h0 h1 h2 = some (f h0 ^^^ f h1 ^^^ f h2) := by
  simp only [xor3, h.load l0, h.load l1, h.load l2, Option.bind_eq_bind, Option.bind_some]

theorem putWord_spec {a : List UInt64} {len : Nat} {f : Nat → UInt64} (h : Holds a len f)
    {t o1 o2 : Nat} (lt : t < len) (l1 : o1 < len) (l2 : o2 < len) (x : UInt64) :
    ∃ a', putWord a t o1 o2 x = some a' ∧
      Holds a' len (Function.update f t (x ^^^ f o1 ^^^ f o2)) := by
  obtain ⟨a', hst, ha'⟩ := h.store lt (x ^^^ f o1 ^^^ f o2)
  refine ⟨a', ?_, ha'⟩
  simp only [putWord, h.load l1, h.load l2, hst, Option.bind_eq_bind, Option.bind_some]

theorem slotXor3_spec {a : List Slot} {len : Nat} {f : Nat → Slot} (h : Holds a len f)
    {h0 h1 h2 : Nat} (l0 : h0 < len) (l1 : h1 < len) (l2 : h2 < len) :
    slotXor3 a h0 h1 h2 = some (((f h0).xor (f h1)).xor (f h2)) := by
  simp only [slotXor3, h.load l0, h.load l1, h.load l2, Option.bind_eq_bind, Option.bind_some]
  rfl

theorem putValue_spec {a : List Slot} {len : Nat} {f : Nat → Slot} (h : Holds a len f)
    {t o1 o2 : Nat} (lt : t < len) (l1 : o1 < len) (l2 : o2 < len) (x : UInt64) :
    ∃ a', putValue a t o1 o2 x = some a' ∧ Holds a' len (Function.update f t
      { f t with value := x ^^^ (f o1).value ^^^ (f o2).value }) := by
  obtain ⟨a', hst, ha'⟩ := h.store lt { f t with value := x ^^^ (f o1).value ^^^ (f o2).value }
  refine ⟨a', ?_, ha'⟩
  simp only [putValue, h.load l1, h.load l2, h.load lt, hst, Option.bind_eq_bind, Option.bind_some]

theorem putCheck_spec {a : List Slot} {len : Nat} {f : Nat → Slot} (h : Holds a len f)
    {t o1 o2 : Nat} (lt : t < len) (l1 : o1 < len) (l2 : o2 < len) (x : UInt64) :
    ∃ a', putCheck a t o1 o2 x = some a' ∧ Holds a' len (Function.update f t
      { f t with check := x ^^^ (f o1).check ^^^ (f o2).check }) := by
  obtain ⟨a', hst, ha'⟩ := h.store lt { f t with check := x ^^^ (f o1).check ^^^ (f o2).check }
  refine ⟨a', ?_, ha'⟩
  simp only [putCheck, h.load l1, h.load l2, h.load lt, hst, Option.bind_eq_bind, Option.bind_some]

/-! ## Lawful layouts -/

/-- The layout stores slots: `Rep table len f` says that `table` stores the `len` slots `f`, and
`answer slot hash` is the answer of a lookup whose three slots combine to `slot`. -/
structure Layout.Lawful {τ : Type} (Ly : Layout τ) (Rep : τ → Nat → (Nat → Slot) → Prop)
    (answer : Slot → UInt64 → UInt64) : Prop where
  calloc : ∀ len, Rep (Ly.calloc len) len fun _ => ⟨0, 0⟩
  put : ∀ {table len f t o1 o2}, Rep table len f → t < len → o1 < len → o2 < len → o1 ≠ t →
    o2 ≠ t → ∀ val hash, ∃ table', Ly.put table t o1 o2 val hash = some table' ∧
      Rep table' len (Function.update f t (((entrySlot val hash).xor (f o1)).xor (f o2)))
  get : ∀ {table len f h0 h1 h2}, Rep table len f → h0 < len → h1 < len → h2 < len →
    ∀ hash, Ly.get table h0 h1 h2 hash = some (answer (((f h0).xor (f h1)).xor (f h2)) hash)
  gather : ∀ {table len f h0 h1 h2}, Rep table len f → h0 < len → h1 < len → h2 < len →
    ∀ hash, Ly.gather table h0 h1 h2 hash = some (answer (((f h0).xor (f h1)).xor (f h2)) hash)
  ext : ∀ {table table' len f}, Rep table len f → Rep table' len f → table = table'
  answer_entry : ∀ val hash, answer (entrySlot val hash) hash = val

/-- The words `data` store the values of the slots `f`. -/
def constmapRep (data : List UInt64) (len : Nat) (f : Nat → Slot) : Prop :=
  Holds data len fun i => (f i).value

/-- The two arrays store the values and the check words of the slots `f`. -/
def verifiedRep (table : Tables) (len : Nat) (f : Nat → Slot) : Prop :=
  Holds table.data len (fun i => (f i).value) ∧ Holds table.checks len fun i => (f i).check

/-- A `ConstMap` answers every key. -/
def constmapAnswer (slot : Slot) (_hash : UInt64) : UInt64 := slot.value

/-- A verified map answers a key that the check words confirm. -/
def verifiedAnswer (slot : Slot) (hash : UInt64) : UInt64 :=
  if slot.check = fingerprint hash then slot.value else NOT_FOUND

theorem verifiedAnswer_entry (val hash : UInt64) :
    verifiedAnswer (entrySlot val hash) hash = val := if_pos rfl

/-- An array holds what it holds. -/
theorem holds_of_length {α : Type} {a : List α} {len : Nat} (h : a.length = len) (default : α) :
    Holds a len fun i => a.getD i default :=
  ⟨h, fun i hi => by
    have hi' : i < a.length := h.symm ▸ hi
    exact (load_of_lt hi').trans (congrArg some (List.getD_eq_getElem a default hi').symm)⟩

/-- The update of a slot, on one of its words. -/
theorem update_word {f : Nat → Slot} {t : Nat} {s : Slot} (g : Slot → UInt64) :
    (fun i => g (Function.update f t s i)) = Function.update (fun i => g (f i)) t (g s) := by
  funext i
  by_cases hi : i = t
  · rw [hi, Function.update_self, Function.update_self]
  · rw [Function.update_of_ne hi, Function.update_of_ne hi]

theorem constmapLayout_lawful : constmapLayout.Lawful constmapRep constmapAnswer where
  calloc len := Holds.replicate len 0
  put h lt l1 l2 _ _ val hash := by
    obtain ⟨data', hput, hdata'⟩ := putWord_spec h lt l1 l2 val
    refine ⟨data', hput, ?_⟩
    unfold constmapRep
    rw [update_word Slot.value]
    exact hdata'
  get h l0 l1 l2 _ := xor3_spec h l0 l1 l2
  gather h l0 l1 l2 _ := xor3_spec h l0 l1 l2
  ext h h' := h.ext h'
  answer_entry _ _ := rfl

theorem verifiedLayout_lawful : verifiedLayout.Lawful verifiedRep verifiedAnswer where
  calloc len := ⟨Holds.replicate len 0, Holds.replicate len 0⟩
  put h lt l1 l2 _ _ val hash := by
    obtain ⟨data', hput, hdata'⟩ := putWord_spec h.1 lt l1 l2 val
    obtain ⟨checks', hput', hchecks'⟩ := putWord_spec h.2 lt l1 l2 (fingerprint hash)
    refine ⟨⟨data', checks'⟩, ?_, ?_, ?_⟩
    · simp only [verifiedLayout, hput, hput', Option.bind_eq_bind, Option.bind_some]
    · rw [update_word Slot.value]
      exact hdata'
    · rw [update_word Slot.check]
      exact hchecks'
  get h l0 l1 l2 hash := by
    have hc := xor3_spec h.2 l0 l1 l2
    have hd := xor3_spec h.1 l0 l1 l2
    simp only [verifiedLayout, hc, hd, Option.bind_eq_bind, Option.bind_some]
    unfold verifiedAnswer
    split_ifs with h1 h2 h2
    · exact absurd h2 h1
    · rfl
    · rfl
    · exact absurd (not_not.mp h1) h2
  gather h l0 l1 l2 hash := by
    have hc := xor3_spec h.2 l0 l1 l2
    have hd := xor3_spec h.1 l0 l1 l2
    simp only [verifiedLayout, hc, hd, Option.bind_eq_bind, Option.bind_some]
    rfl
  ext {table table'} _ _ h h' := by
    obtain ⟨data, checks⟩ := table
    obtain ⟨data', checks'⟩ := table'
    exact congrArg₂ Tables.mk (h.1.ext h'.1) (h.2.ext h'.2)
  answer_entry := verifiedAnswer_entry

/-- The two writes of a slot: the second one reads its two other slots after the first one, which
left them alone. -/
theorem pairedLayout_lawful : pairedLayout.Lawful Holds verifiedAnswer where
  calloc len := Holds.replicate len (Slot.mk 0 0)
  put {slots len f t o1 o2} h lt l1 l2 n1 n2 val hash := by
    obtain ⟨slots1, hput1, h1⟩ := putValue_spec h lt l1 l2 val
    obtain ⟨slots2, hput2, h2⟩ := putCheck_spec h1 lt l1 l2 (fingerprint hash)
    refine ⟨slots2, ?_, ?_⟩
    · simp only [pairedLayout, hput1, hput2, Option.bind_eq_bind, Option.bind_some]
    · rw [Function.update_self, Function.update_of_ne n1, Function.update_of_ne n2,
        Function.update_idem] at h2
      exact h2
  get h l0 l1 l2 hash := by
    have hs := slotXor3_spec h l0 l1 l2
    simp only [pairedLayout, hs, Option.bind_eq_bind, Option.bind_some]
    rfl
  gather h l0 l1 l2 hash := by
    have hs := slotXor3_spec h l0 l1 l2
    simp only [pairedLayout, hs, Option.bind_eq_bind, Option.bind_some]
    rfl
  ext h h' := h.ext h'
  answer_entry := verifiedAnswer_entry

/-- A heap without failures. -/
def smallHeap : Heap := ⟨fun _ => true, fun _ _ => 0⟩

end FastConstMap
