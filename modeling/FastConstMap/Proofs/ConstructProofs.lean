import FastConstMap.Construct
import FastConstMap.Proofs.MapsProofs
import FastConstMap.Proofs.PeelProofs

/-!
# Proofs: the constructors

After a successful search the assignment loop is back substitution along the stack, in every layout,
so the three slots of each entry combine to its value and its check word.
-/

namespace FastConstMap

open CLoop Peeling

/-! ## Sorted pairs -/

theorem pairCmp_nonpos {a b : Pair} : pairCmp a b ≤ 0 ↔ a.hash.toNat ≤ b.hash.toNat := by
  unfold pairCmp
  simp only [gt_iff_lt, UInt64.lt_iff_toNat_lt]
  split_ifs <;> omega

/-- The pairs are sorted by their hashes. -/
def SortedPairs (l : List Pair) : Prop := l.Pairwise fun a b => a.hash.toNat ≤ b.hash.toNat

/-- Insertion sort is a `qsort`. -/
def Qsort.insertion : Qsort where
  sort := List.insertionSort fun a b => a.hash.toNat ≤ b.hash.toNat
  perm := List.perm_insertionSort _
  sorted l := by
    have : Std.Total fun a b : Pair => a.hash.toNat ≤ b.hash.toNat := ⟨fun _ _ => Nat.le_total _ _⟩
    have : IsTrans Pair fun a b => a.hash.toNat ≤ b.hash.toNat := ⟨fun _ _ _ => Nat.le_trans⟩
    exact (List.pairwise_insertionSort _ l).imp fun h => pairCmp_nonpos.mpr h

theorem Qsort.sortedPairs (Q : Qsort) (l : List Pair) : SortedPairs (Q.sort l) :=
  (Q.sorted l).imp pairCmp_nonpos.mp

/-- The invariant of the binary search for `h`: what is below `lo` is too small, what is from `hi`
on is not. -/
structure SearchInv (l : List Pair) (h : UInt64) (s : Nat × Nat) : Prop where
  le : s.1 ≤ s.2
  hi_le : s.2 ≤ l.length
  below : ∀ i (hi : i < l.length), i < s.1 → l[i].hash.toNat < h.toNat
  above : ∀ i (hi : i < l.length), s.2 ≤ i → h.toNat ≤ l[i].hash.toNat

theorem SortedPairs.getElem_le {l : List Pair} (hs : SortedPairs l) {i j : Nat} (hij : i ≤ j)
    (hj : j < l.length) : l[i].hash.toNat ≤ l[j].hash.toNat := by
  rcases Nat.lt_or_eq_of_le hij with h | rfl
  · exact List.pairwise_iff_getElem.mp hs i j _ hj h
  · exact le_rfl

/-- One pass of the binary search halves the interval around the position of `h`. -/
theorem pairSearchStep_spec {l : List Pair} (hs : SortedPairs l) {h : UInt64} (s : Nat × Nat)
    (hinv : SearchInv l h s) :
    (∃ s', pairSearchStep l h s = some (.stop s') ∧ SearchInv l h s' ∧ s'.1 = s'.2) ∨
    ∃ s', pairSearchStep l h s = some (.next s') ∧ SearchInv l h s' ∧
      s'.2 - s'.1 < s.2 - s.1 := by
  obtain ⟨lo, hi⟩ := s
  obtain ⟨hle, hhi, hbelow, habove⟩ := hinv
  simp only at hle hhi hbelow habove
  unfold pairSearchStep
  by_cases hlt : lo < hi
  · right
    have hmid : lo + (hi - lo) / 2 < l.length := by omega
    rw [if_pos hlt]
    simp only [load_of_lt hmid, Option.bind_eq_bind, Option.bind_some, UInt64.lt_iff_toNat_lt]
    split_ifs with hx
    · refine ⟨_, rfl, ⟨by simp only; omega, hhi, ?_, habove⟩, ?_⟩
      · intro i hi' hlt'
        simp only at hlt'
        exact lt_of_le_of_lt (hs.getElem_le (by omega) hmid) hx
      · simp only
        omega
    · refine ⟨_, rfl, ⟨by simp only; omega, by simp only; omega, hbelow, ?_⟩, ?_⟩
      · intro i hi' hge
        simp only at hge
        exact le_trans (not_lt.mp hx) (hs.getElem_le hge hi')
      · simp only
        omega
  · rw [if_neg hlt]
    left
    have : lo = hi := by omega
    exact ⟨_, rfl, ⟨hle, hhi, hbelow, habove⟩, this⟩

/-- The binary search for the hash of a pair ends at the pair, when the hashes are distinct. -/
theorem pairSearch_spec {l : List Pair} (hs : SortedPairs l)
    (hnd : (l.map Pair.hash).Nodup) {x : Pair} (hx : x ∈ l) :
    ∃ lo, loop (pairSearchStep l x.hash) (l.length + 1) (0, l.length) = some (lo, lo) ∧
      load l lo = some x := by
  obtain ⟨⟨lo, hi⟩, hloop, hinv, heq⟩ := loop_spec (fun s : Nat × Nat => s.2 - s.1)
    (SearchInv l x.hash) _ (pairSearchStep_spec hs)
    (s := (0, l.length)) ⟨Nat.zero_le _, le_rfl, fun i _ hi => absurd hi (Nat.not_lt_zero i),
      fun i hi hge => absurd hi (not_lt.mpr hge)⟩ (Nat.lt_succ_self l.length)
  obtain ⟨k, hk, rfl⟩ := List.getElem_of_mem hx
  obtain rfl : lo = hi := heq
  have hlo : lo ≤ k := by
    by_contra hlt
    exact lt_irrefl _ (hinv.below k hk (not_le.mp hlt))
  have hlolt : lo < l.length := lt_of_le_of_lt hlo hk
  -- The entry at `lo` has the hash that was looked for, so it is the entry `k`.
  have hhash : l[lo].hash = l[k].hash := UInt64.toNat_inj.mp <|
    le_antisymm (hs.getElem_le hlo hk) (hinv.above lo hlolt le_rfl)
  obtain rfl : lo = k := by
    rcases Nat.lt_or_eq_of_le hlo with hlt | heq
    · exact absurd hhash (List.pairwise_iff_getElem.mp (List.pairwise_map.mp hnd) lo k hlolt hk hlt)
    · exact heq
  exact ⟨lo, hloop, load_of_lt hlolt⟩

/-- The binary search finds the value of a pair. -/
theorem pairLookup_spec {l : List Pair} (hs : SortedPairs l)
    (hnd : (l.map Pair.hash).Nodup) {x : Pair} (hx : x ∈ l) :
    pairLookup l l.length x.hash = some x.value := by
  obtain ⟨lo, hloop, hload⟩ := pairSearch_spec hs hnd hx
  unfold pairLookup
  simp only [hloop, hload, Option.bind_eq_bind, Option.bind_some]

/-! ## The assignment loop -/

section Assign

variable {τ : Type} {Ly : Layout τ} {Rep : τ → Nat → (Nat → Slot) → Prop}
  {answer : Slot → UInt64 → UInt64} {q : Params}

/-- The assignment of one stack entry: the body of the assignment loop after its two loads. -/
def assignEntry (Ly : Layout τ) (p : Params) (pairs : List Pair) (n : Nat) (table : τ)
    (e : UInt64 × UInt8) : Option τ := do
  let val ← pairLookup pairs n e.1
  let h := p.getH012 e.1
  let h012 := [h.1, h.2.1, h.2.2, h.1, h.2.1]
  let t ← load h012 e.2.toNat
  let o1 ← load h012 (e.2.toNat + 1)
  let o2 ← load h012 (e.2.toNat + 2)
  Ly.put table t.toNat o1.toNat o2.toNat val e.1

/-- Below `2^31` entries, the assignment loop goes down the stack. -/
theorem assign_eq_foldlM {T : List (UInt64 × UInt8)} {size : UInt32} {st : PeelState}
    (hst : st.Stacked q T size.toNat) (hpos : 0 < size.toNat) (hsize : size.toNat < 2 ^ 31)
    (pairs : List Pair) (n : Nat) (table : τ) :
    assign Ly q pairs n size st.reverseOrder st.reverseH table =
      T.foldlM (assignEntry Ly q pairs n) table := by
  have hlen : T.reverse.length = size.toNat := by
    rw [← hst.entries, List.length_zip, List.length_take, hst.reverseOrder, hst.reverseH]
    omega
  have hstart : int32Pred size = some ((size.toNat : Int) - 1) := by
    unfold int32Pred
    simp only [if_pos hsize]
    rw [if_neg (by omega)]
  have hbody : ∀ i (hi : i < T.reverse.length) (table : τ),
      assignOne Ly q pairs n st.reverseOrder st.reverseH i table =
        assignEntry Ly q pairs n table T.reverse[i] := by
    intro i hi table
    have hi' : i < size.toNat := hlen ▸ hi
    have hro : i < st.reverseOrder.length := by rw [hst.reverseOrder]; omega
    have hrh : i < st.reverseH.length := by rw [hst.reverseH]; omega
    have hentry : T.reverse[i] = (st.reverseOrder[i], st.reverseH[i]) := by
      simp only [← hst.entries, List.getElem_zip, List.getElem_take]
    rw [hentry]
    unfold assignOne assignEntry
    simp only [load_of_lt hro, load_of_lt hrh, Option.bind_eq_bind, Option.bind_some]
  unfold assign
  simp only [hstart, Option.bind_eq_bind, Option.bind_some]
  rw [show ((size.toNat : Int) - 1 + 1).toNat = T.reverse.length by omega,
    forDown_eq_foldlM _ _ hbody, List.reverse_reverse]

/-- From `2^31` entries on, where the index of the assignment loop wraps, it does not run. -/
theorem assign_of_le {size : UInt32} (hsize : 2 ^ 31 ≤ size.toNat) {pairs : List Pair} {n : Nat}
    {reverseOrder : List UInt64} {reverseH : List UInt8} {table table' : τ}
    (h : assign Ly q pairs n size reverseOrder reverseH table = some table') : table' = table := by
  have hlt := size.toNat_lt
  obtain ⟨start, hstart, h⟩ := Option.bind_eq_some_iff.mp h
  unfold int32Pred at hstart
  simp only [if_neg (not_lt.mpr hsize)] at hstart
  split_ifs at hstart
  obtain rfl := Option.some.inj hstart
  have hcount : ((size.toNat : Int) - 2 ^ 32 - 1 + 1).toNat = 0 := by omega
  rw [hcount] at h
  exact (Option.some.inj h).symm

/-- Back substitution: the slots after the assignment of the stack `S`, with the values `val`. -/
def solution (p : Params) (val : UInt64 → UInt64) (S : List (UInt64 × Fin 3)) : Nat → Slot :=
  S.foldl (Peeling.assign Slot.xor (fun hash => entrySlot (val hash) hash) p.pos) fun _ => ⟨0, 0⟩

/-- The three slots of a stack entry, from its number on in cyclic order. -/
theorem load_cyclic (a : UInt64) (j : Fin 3) :
    let h := q.getH012 a
    let h012 := [h.1, h.2.1, h.2.2, h.1, h.2.1]
    load h012 (foundByte j).toNat = some (q.slot a j) ∧
      load h012 ((foundByte j).toNat + 1) = some (q.slot a (j + 1)) ∧
      load h012 ((foundByte j).toNat + 2) = some (q.slot a (j + 2)) := by
  match j with
  | 0 => exact ⟨rfl, rfl, rfl⟩
  | 1 => exact ⟨rfl, rfl, rfl⟩
  | 2 => exact ⟨rfl, rfl, rfl⟩

/-- The assignment of a stack is back substitution, in every lawful layout. -/
theorem assign_stack (hLy : Ly.Lawful Rep answer) (hq : q.Valid) {pairs : List Pair} {n : Nat}
    {val : UInt64 → UInt64} {S : List (UInt64 × Fin 3)}
    (hval : ∀ e ∈ S, pairLookup pairs n e.1 = some (val e.1)) {table : τ} {f : Nat → Slot}
    (htable : Rep table q.arrayLen.toNat f) :
    ∃ table', (stackBytes S).foldlM (assignEntry Ly q pairs n) table = some table' ∧
      Rep table' q.arrayLen.toNat
        (S.foldl (Peeling.assign Slot.xor (fun hash => entrySlot (val hash) hash) q.pos) f) := by
  induction S generalizing table f with
  | nil => exact ⟨table, rfl, htable⟩
  | cons e S ih =>
    obtain ⟨a, j⟩ := e
    have hinj := hq.pos_injective a
    obtain ⟨table1, hput, h1⟩ := hLy.put htable (hq.pos_lt a j) (hq.pos_lt a (j + 1))
      (hq.pos_lt a (j + 2)) (hinj.ne (add_one_ne j)) (hinj.ne (add_two_ne j)) (val a) a
    obtain ⟨table', hfold, h'⟩ := ih (fun e he => hval e (List.mem_cons_of_mem _ he)) h1
    obtain ⟨hl0, hl1, hl2⟩ := load_cyclic (q := q) a j
    refine ⟨table', ?_, h'⟩
    have hentry : assignEntry Ly q pairs n table (a, foundByte j) = some table1 := by
      unfold assignEntry
      simp only [hval (a, j) (List.mem_cons_self ..), hl0, hl1, hl2, Option.bind_eq_bind,
        Option.bind_some]
      exact hput
    show (((a, foundByte j) :: stackBytes S).foldlM (assignEntry Ly q pairs n) table) = some table'
    rw [List.foldlM_cons, hentry]
    exact hfold

/-- The three slots of every stack entry combine to its value and its check word. -/
theorem solution_spec (hq : q.Valid) (val : UInt64 → UInt64) {S : List (UInt64 × Fin 3)}
    (hS : ElimStack q.pos S) {a : UInt64} (ha : a ∈ S.map Prod.fst) :
    ((solution q val S (q.pos a 0)).xor (solution q val S (q.pos a 1))).xor
      (solution q val S (q.pos a 2)) = entrySlot (val a) a := by
  obtain ⟨e, he, rfl⟩ := List.mem_map.mp ha
  exact combine_foldl_assign Slot.xor (fun hash => entrySlot (val hash) hash) slot_xor_self hS
    (fun e _ => hq.pos_injective e.1) _ e he

end Assign

/-! ## The constructors -/

section New

variable {τ : Type}

/-- The map with the parameters `p`. -/
def Params.toMap (p : Params) (n hash : UInt32) (table : τ) : MapOf τ :=
  { seed := p.seed
    segmentLength := p.segmentLength
    segmentLengthMask := p.segmentLengthMask
    segmentCount := p.segmentCount
    segmentCountLength := p.segmentCountLength
    dataLen := p.arrayLen
    n := n
    table := table
    hash := hash }

/-- The map without entries: what a constructor leaves in `*out` unless it succeeds on some entry. -/
def Layout.emptyMap (Ly : Layout τ) (hash : UInt32) : MapOf τ := { Ly.zeroMap with hash := hash }

/-- The key hashes of the entries. -/
def Env.hashed (E : Env) (hash : UInt32) (entries : List (Bytes × UInt64)) : List UInt64 :=
  entries.map fun e => hashKey E.keyHash hash e.1

/-- The sorted pairs of the assignment phase. -/
def Env.sortedPairs (E : Env) (hash : UInt32) (entries : List (Bytes × UInt64)) (p : Params) :
    List Pair :=
  E.qsort.sort (entries.map fun e => ⟨mixsplit (hashKey E.keyHash hash e.1) p.seed, e.2⟩)

/-- The value of a mixed hash in the assignment phase. -/
def Env.valueOf (E : Env) (hash : UInt32) (entries : List (Bytes × UInt64)) (p : Params)
    (a : UInt64) : UInt64 :=
  (pairLookup (E.sortedPairs hash entries p) entries.length a).getD 0

/-- `q` and `S` are the parameters and the stack of a successful search over the entries. -/
structure Env.Solves (E : Env) (hash : UInt32) (entries : List (Bytes × UInt64)) (q : Params)
    (S : List (UInt64 × Fin 3)) : Prop where
  valid : q.Valid
  elim : ElimStack q.pos S
  perm : (S.map Prod.fst).Perm (q.mixed (E.hashed hash entries))
  search : search (initParams E.libm (UInt32.ofNat entries.length))
    (UInt32.ofNat entries.length) (E.hashed hash entries) = some (.ok q (stackBytes S))

variable {E : Env} {hash : UInt32} {entries : List (Bytes × UInt64)} {q : Params}
  {S : List (UInt64 × Fin 3)}

theorem Env.zipWith_hashed (E : Env) (hash : UInt32) (entries : List (Bytes × UInt64))
    (seed : UInt64) :
    List.zipWith (fun h e => (⟨mixsplit h seed, e.2⟩ : Pair)) (E.hashed hash entries) entries =
      entries.map fun e => ⟨mixsplit (hashKey E.keyHash hash e.1) seed, e.2⟩ := by
  rw [Env.hashed, List.zipWith_map_left, List.zipWith_self]

theorem Env.length_sortedPairs (E : Env) (hash : UInt32) (entries : List (Bytes × UInt64))
    (p : Params) : (E.sortedPairs hash entries p).length = entries.length := by
  rw [Env.sortedPairs, (E.qsort.perm _).length_eq, List.length_map]

/-- The mixed hashes of the pairs are distinct. -/
theorem Env.Solves.nodup_pairs (h : E.Solves hash entries q S) :
    ((E.sortedPairs hash entries q).map Pair.hash).Nodup := by
  have hmap : ((E.sortedPairs hash entries q).map Pair.hash).Perm
      (q.mixed (E.hashed hash entries)) := by
    refine ((E.qsort.perm _).map Pair.hash).trans ?_
    unfold Params.mixed Env.hashed
    rw [List.map_map, List.map_map]
    exact List.Perm.refl _
  exact (hmap.trans h.perm.symm).nodup_iff.mpr h.elim.nodup

/-- Every entry finds its value. -/
theorem Env.Solves.pairLookup_entry (h : E.Solves hash entries q S) {e : Bytes × UInt64}
    (he : e ∈ entries) : pairLookup (E.sortedPairs hash entries q) entries.length
      (mixsplit (hashKey E.keyHash hash e.1) q.seed) = some e.2 := by
  have hmem : (⟨mixsplit (hashKey E.keyHash hash e.1) q.seed, e.2⟩ : Pair) ∈
      E.sortedPairs hash entries q :=
    (E.qsort.perm _).mem_iff.mpr (List.mem_map.mpr ⟨e, he, rfl⟩)
  have hsorted : SortedPairs (E.sortedPairs hash entries q) := E.qsort.sortedPairs _
  have hlookup := pairLookup_spec hsorted h.nodup_pairs hmem
  rwa [E.length_sortedPairs] at hlookup

theorem Env.Solves.valueOf_entry (h : E.Solves hash entries q S) {e : Bytes × UInt64}
    (he : e ∈ entries) :
    E.valueOf hash entries q (mixsplit (hashKey E.keyHash hash e.1) q.seed) = e.2 := by
  rw [Env.valueOf, h.pairLookup_entry he, Option.getD_some]

/-- Every hash of the stack finds a value. -/
theorem Env.Solves.pairLookup_stack (h : E.Solves hash entries q S) :
    ∀ e ∈ S, pairLookup (E.sortedPairs hash entries q) entries.length e.1 =
      some (E.valueOf hash entries q e.1) := by
  intro e he
  have hmem := h.perm.mem_iff.mp (List.mem_map_of_mem he)
  unfold Params.mixed Env.hashed at hmem
  rw [List.map_map, List.mem_map] at hmem
  obtain ⟨entry, hentry, heq⟩ := hmem
  have hl := h.pairLookup_entry hentry
  rw [show mixsplit (hashKey E.keyHash hash entry.1) q.seed = e.1 from heq] at hl
  rw [Env.valueOf, hl, Option.getD_some]

/-- A successful search solves the entries. -/
theorem Env.solves_of_search {T : List (UInt64 × UInt8)}
    (h : search (initParams E.libm (UInt32.ofNat entries.length))
      (UInt32.ofNat entries.length) (E.hashed hash entries) = some (.ok q T)) :
    ∃ S, T = stackBytes S ∧ E.Solves hash entries q S := by
  obtain ⟨S, rfl, hq, helim, hperm⟩ :=
    search_ok (initParams_initial E.libm (UInt32.ofNat entries.length)) h
  exact ⟨S, rfl, hq, helim, hperm, h⟩

variable {Ly : Layout τ} {H : Heap} {out : MapOf τ}

@[simp] theorem length_malloc {α : Type} (H : Heap) (b : Buffer) (len : Nat) (cast : UInt64 → α) :
    (H.malloc b len cast).length = len := by simp [Heap.malloc]

/-- With an unknown hash a constructor leaves `*out` alone. -/
theorem newWithHash_unknown (hno : ¬ KnownHash hash) (out : MapOf τ) :
    newWithHash Ly E H out entries hash = some (.invalidFormat, out) := by
  unfold newWithHash
  rw [if_pos (not_or.mp hno)]

theorem newWithHash_nil (hknown : KnownHash hash) (out : MapOf τ) :
    newWithHash Ly E H out [] hash = some (.ok, Ly.emptyMap hash) := by
  unfold newWithHash
  rw [if_neg (fun hno => hknown.elim hno.1 hno.2)]
  rfl

/-- From `2^32` entries on a constructor rejects the arrays. -/
theorem newWithHash_of_le (hknown : KnownHash hash) (out : MapOf τ)
    (hlen : 2 ^ 32 ≤ entries.length) :
    newWithHash Ly E H out entries hash = some (.lengthMismatch, Ly.emptyMap hash) := by
  unfold newWithHash
  rw [if_neg (fun hno => hknown.elim hno.1 hno.2)]
  simp only
  rw [if_neg (by omega), if_pos (by omega)]
  rfl

/-- The call of `fcm_peel` in the constructors. -/
def Env.peelRun (E : Env) (H : Heap) (hash : UInt32) (entries : List (Bytes × UInt64)) :
    Option (Rc × PeelState) :=
  let size := UInt32.ofNat entries.length
  let params := initParams E.libm size
  let arrayLen := params.arrayLen.toNat
  peel H (E.hashed hash entries) size params (H.malloc .alone arrayLen UInt64.toUInt32)
    (List.replicate arrayLen 0) (List.replicate arrayLen 0)
    (H.malloc .reverseH entries.length UInt64.toUInt8) (List.replicate (entries.length + 1) 0)

/-- The call ends as the search does, unless an allocation fails. -/
theorem Env.peelRun_spec (E : Env) (H : Heap) (hash : UInt32) (hlen : entries.length < 2 ^ 32) :
    (∃ st, E.peelRun H hash entries = some (.nomem, st) ∧ ∃ b, H.ok b = false) ∨
    ∃ o st, search (initParams E.libm (UInt32.ofNat entries.length))
        (UInt32.ofNat entries.length) (E.hashed hash entries) = some o ∧
      E.peelRun H hash entries = some (o.rc, st) ∧
      ∀ q T, o = .ok q T → st.Stacked q T entries.length := by
  have hsize : (UInt32.ofNat entries.length).toNat = entries.length := by
    rw [UInt32.toNat_ofNat', Nat.mod_eq_of_lt hlen]
  have hlenh : (E.hashed hash entries).length = (UInt32.ofNat entries.length).toNat := by
    rw [hsize, Env.hashed, List.length_map]
  have hpeel := peel_spec (H := H) (initParams_initial E.libm (UInt32.ofNat entries.length)) hlenh
    (length_malloc H .alone (initParams E.libm (UInt32.ofNat entries.length)).arrayLen.toNat
      UInt64.toUInt32)
    ((length_malloc H .reverseH entries.length UInt64.toUInt8).trans hsize.symm)
  rw [hsize] at hpeel
  rcases hpeel with ⟨k, st, hpeel, hk⟩ | h
  · exact Or.inl ⟨st, hpeel, _, hk⟩
  · exact Or.inr h

/-- On at least one entry a constructor allocates its memory, calls `fcm_peel`, and returns its error or
assigns its stack. -/
theorem newWithHash_eq (Ly : Layout τ) (E : Env) (H : Heap) (out : MapOf τ)
    (hknown : KnownHash hash) (hpos : 0 < entries.length) (hlen : entries.length < 2 ^ 32) :
    newWithHash Ly E H out entries hash =
      if ¬ (∀ b ∈ scratchBuffers ++ Ly.buffers, H.ok b = true) then some (.nomem, Ly.emptyMap hash)
      else (E.peelRun H hash entries).bind fun r =>
        if r.1 ≠ .ok then some (r.1, Ly.emptyMap hash)
        else (assign Ly r.2.params (E.sortedPairs hash entries r.2.params) entries.length
          (UInt32.ofNat entries.length) r.2.reverseOrder r.2.reverseH
          (Ly.calloc (initParams E.libm (UInt32.ofNat entries.length)).arrayLen.toNat)).map
            fun table => (.ok, r.2.params.toMap (UInt32.ofNat entries.length) hash table) := by
  have hknown' : ¬ (hash ≠ HASH_XXH64 ∧ hash ≠ HASH_XXH3) := by
    rintro ⟨h1, h2⟩
    exact hknown.elim h1 h2
  unfold newWithHash
  rw [if_neg hknown']
  simp only
  rw [if_neg (by omega), if_neg (by omega)]
  simp only [show (entries.map fun e => hashKey E.keyHash hash e.1) = E.hashed hash entries from rfl,
    E.zipWith_hashed, Option.bind_eq_bind, Option.map_eq_bind]
  rfl

/-- With a known hash and at least one entry, a constructor fails to allocate, or ends as the search
does: with its error and no entries, or with the assignment of its stack. -/
theorem newWithHash_cases (Ly : Layout τ) (E : Env) (H : Heap) (out : MapOf τ)
    (hhash : KnownHash hash) (hpos : 0 < entries.length) (hlen : entries.length < 2 ^ 32) :
    (newWithHash Ly E H out entries hash = some (.nomem, Ly.emptyMap hash) ∧
      ∃ b, H.ok b = false) ∨
    ∃ (o : Outcome) (st : PeelState), search (initParams E.libm (UInt32.ofNat entries.length))
        (UInt32.ofNat entries.length) (E.hashed hash entries) = some o ∧
      (o.rc ≠ .ok → newWithHash Ly E H out entries hash = some (o.rc, Ly.emptyMap hash)) ∧
      ∀ q T, o = .ok q T → st.Stacked q T entries.length ∧
        newWithHash Ly E H out entries hash =
          (assign Ly q (E.sortedPairs hash entries q) entries.length (UInt32.ofNat entries.length)
            st.reverseOrder st.reverseH (Ly.calloc q.arrayLen.toNat)).map fun table =>
              (.ok, q.toMap (UInt32.ofNat entries.length) hash table) := by
  have hnew := newWithHash_eq Ly E H out hhash hpos hlen
  by_cases halloc : ∀ b ∈ scratchBuffers ++ Ly.buffers, H.ok b = true
  · rw [if_neg (not_not.mpr halloc)] at hnew
    rcases E.peelRun_spec H hash hlen with ⟨st, hpeel, hb⟩ | ⟨o, st, hsearch, hpeel, hst⟩
    · rw [hpeel] at hnew
      exact Or.inl ⟨hnew, hb⟩
    · rw [hpeel, Option.bind_some] at hnew
      refine Or.inr ⟨o, st, hsearch, fun hrc => hnew.trans (if_pos hrc), ?_⟩
      rintro q T rfl
      refine ⟨hst q T rfl, ?_⟩
      obtain ⟨k, rng, hq, -⟩ :=
        searchFrom_ok (initParams_initial E.libm (UInt32.ofNat entries.length)) hsearch
      have harr : (initParams E.libm (UInt32.ofNat entries.length)).arrayLen = q.arrayLen := by
        rw [hq, seeded_arrayLen]
      simp only [Outcome.rc, ne_eq, not_true_eq_false, if_false, (hst q T rfl).params, harr] at hnew
      exact hnew
  · rw [if_pos halloc] at hnew
    push Not at halloc
    obtain ⟨b, -, hb⟩ := halloc
    exact Or.inl ⟨hnew, b, by simpa using hb⟩

/-- Below `2^31` entries, the assignment loop solves the entries, in every lawful layout. -/
theorem Env.Solves.assign {Rep : τ → Nat → (Nat → Slot) → Prop}
    {answer : Slot → UInt64 → UInt64} {S : List (UInt64 × Fin 3)} {st : PeelState}
    (hS : E.Solves hash entries q S) (hLy : Ly.Lawful Rep answer)
    (hst : st.Stacked q (stackBytes S) entries.length) (hpos : 0 < entries.length)
    (hlen : entries.length < 2 ^ 31) :
    ∃ table, assign Ly q (E.sortedPairs hash entries q) entries.length
        (UInt32.ofNat entries.length) st.reverseOrder st.reverseH (Ly.calloc q.arrayLen.toNat) =
          some table ∧
      Rep table q.arrayLen.toNat (solution q (E.valueOf hash entries q) S) := by
  have hsize : (UInt32.ofNat entries.length).toNat = entries.length := by
    rw [UInt32.toNat_ofNat', Nat.mod_eq_of_lt (by omega)]
  rw [← hsize] at hst
  obtain ⟨table, hfold, hrep⟩ := assign_stack hLy hS.valid hS.pairLookup_stack
    (hLy.calloc q.arrayLen.toNat)
  exact ⟨table, (assign_eq_foldlM hst (by omega) (by omega) _ _ _).trans hfold, hrep⟩

/-- Below `2^31` entries a constructor that succeeds builds the solution of its search, in every
lawful layout. -/
theorem newWithHash_spec (E : Env) (H : Heap) (out : MapOf τ)
    {Rep : τ → Nat → (Nat → Slot) → Prop} {answer : Slot → UInt64 → UInt64}
    (hLy : Ly.Lawful Rep answer) (hhash : KnownHash hash) (hpos : 0 < entries.length)
    (hlen : entries.length < 2 ^ 31) :
    (newWithHash Ly E H out entries hash = some (.nomem, Ly.emptyMap hash) ∧
      ∃ b, H.ok b = false) ∨
    ∃ o, search (initParams E.libm (UInt32.ofNat entries.length))
        (UInt32.ofNat entries.length) (E.hashed hash entries) = some o ∧
      (o.rc ≠ .ok → newWithHash Ly E H out entries hash = some (o.rc, Ly.emptyMap hash)) ∧
      ∀ q T, o = .ok q T → ∃ S table, T = stackBytes S ∧ E.Solves hash entries q S ∧
        Rep table q.arrayLen.toNat (solution q (E.valueOf hash entries q) S) ∧
        newWithHash Ly E H out entries hash =
          some (.ok, q.toMap (UInt32.ofNat entries.length) hash table) := by
  rcases newWithHash_cases Ly E H out hhash hpos (by omega) with
    h | ⟨o, st, hsearch, herr, hok⟩
  · exact Or.inl h
  · refine Or.inr ⟨o, hsearch, herr, ?_⟩
    rintro q T rfl
    obtain ⟨hst, hnew⟩ := hok q T rfl
    obtain ⟨S, rfl, hS⟩ := E.solves_of_search hsearch
    obtain ⟨table, hassign, hrep⟩ := hS.assign hLy hst hpos hlen
    refine ⟨S, table, rfl, hS, hrep, ?_⟩
    rw [hnew, hassign]
    rfl

/-- What a constructor that succeeds has done: there is no entry, or its search ended with a stack,
which it assigned. -/
theorem newWithHash_ok_cases {m : MapOf τ}
    (h : newWithHash Ly E H out entries hash = some (.ok, m)) :
    KnownHash hash ∧ (entries = [] ∧ m = Ly.emptyMap hash ∨
      0 < entries.length ∧ entries.length < 2 ^ 32 ∧ ∃ q S, ∃ st : PeelState, ∃ table,
        E.Solves hash entries q S ∧ st.Stacked q (stackBytes S) entries.length ∧
        assign Ly q (E.sortedPairs hash entries q) entries.length (UInt32.ofNat entries.length)
          st.reverseOrder st.reverseH (Ly.calloc q.arrayLen.toNat) = some table ∧
        m = q.toMap (UInt32.ofNat entries.length) hash table) := by
  have hknown : KnownHash hash := by
    by_contra hno
    rw [newWithHash_unknown hno] at h
    simp at h
  refine ⟨hknown, ?_⟩
  rcases Nat.eq_zero_or_pos entries.length with h0 | hpos
  · obtain rfl := List.length_eq_zero_iff.mp h0
    rw [newWithHash_nil hknown, Option.some.injEq, Prod.mk.injEq] at h
    exact Or.inl ⟨rfl, h.2.symm⟩
  have hlen : entries.length < 2 ^ 32 := by
    by_contra hge
    rw [newWithHash_of_le hknown out (not_lt.mp hge)] at h
    simp at h
  refine Or.inr ⟨hpos, hlen, ?_⟩
  rcases newWithHash_cases Ly E H out hknown hpos hlen with ⟨hnomem, -⟩ | ⟨o, st, hsearch, herr, hok⟩
  · rw [hnomem] at h
    simp at h
  by_cases hrc : o.rc = .ok
  · obtain ⟨q, T, rfl⟩ := Outcome.ok_of_rc hrc
    obtain ⟨S, rfl, hS⟩ := E.solves_of_search hsearch
    obtain ⟨hst, hnew⟩ := hok q _ rfl
    rw [hnew] at h
    obtain ⟨table, hassign, hm⟩ := Option.map_eq_some_iff.mp h
    exact ⟨q, S, st, table, hS, hst, hassign, (Prod.mk.inj hm).2.symm⟩
  · rw [herr hrc, Option.some.injEq, Prod.mk.injEq] at h
    exact absurd h.1 hrc

/-- What a constructor leaves in `*out` when it succeeds below `2^31` entries. -/
theorem newWithHash_ok {Rep : τ → Nat → (Nat → Slot) → Prop} {answer : Slot → UInt64 → UInt64}
    (hLy : Ly.Lawful Rep answer) (hlen : entries.length < 2 ^ 31) {m : MapOf τ}
    (h : newWithHash Ly E H out entries hash = some (.ok, m)) :
    KnownHash hash ∧ (entries = [] ∧ m = Ly.emptyMap hash ∨
      0 < entries.length ∧ ∃ q S table, E.Solves hash entries q S ∧
        Rep table q.arrayLen.toNat (solution q (E.valueOf hash entries q) S) ∧
        m = q.toMap (UInt32.ofNat entries.length) hash table) := by
  obtain ⟨hknown, hnil | ⟨hpos, -, q, S, st, table, hS, hst, hassign, rfl⟩⟩ := newWithHash_ok_cases h
  · exact ⟨hknown, Or.inl hnil⟩
  · obtain ⟨table', hassign', hrep⟩ := hS.assign hLy hst hpos hlen
    obtain rfl : table = table' := Option.some.inj (hassign.symm.trans hassign')
    exact ⟨hknown, Or.inr ⟨hpos, q, S, table, hS, hrep, rfl⟩⟩

/-- Whatever the number of entries, a constructor that succeeds leaves a map with valid parameters and
arrays of their length, or the empty map. -/
theorem newWithHash_ok_rep {Rep : τ → Nat → (Nat → Slot) → Prop} {answer : Slot → UInt64 → UInt64}
    (hLy : Ly.Lawful Rep answer) {m : MapOf τ}
    (h : newWithHash Ly E H out entries hash = some (.ok, m)) :
    KnownHash hash ∧ (m = Ly.emptyMap hash ∨
      ∃ (q : Params) (n : UInt32) (table : τ) (f : Nat → Slot),
        q.Valid ∧ Rep table q.arrayLen.toNat f ∧ m = q.toMap n hash table) := by
  obtain ⟨hknown, ⟨-, hm⟩ | ⟨hpos, hlen32, q, S, st, table, hS, hst, hassign, hm⟩⟩ :=
    newWithHash_ok_cases h
  · exact ⟨hknown, Or.inl hm⟩
  rcases Nat.lt_or_ge entries.length (2 ^ 31) with hlen | hlen
  · obtain ⟨table', hassign', hrep⟩ := hS.assign hLy hst hpos hlen
    obtain rfl : table = table' := Option.some.inj (hassign.symm.trans hassign')
    exact ⟨hknown, Or.inr ⟨q, _, table, _, hS.valid, hrep, hm⟩⟩
  · have hsize : (UInt32.ofNat entries.length).toNat = entries.length := by
      rw [UInt32.toNat_ofNat', Nat.mod_eq_of_lt hlen32]
    obtain rfl := assign_of_le (hsize.symm ▸ hlen) hassign
    exact ⟨hknown, Or.inr ⟨q, _, _, _, hS.valid, hLy.calloc q.arrayLen.toNat, hm⟩⟩

end New

end FastConstMap
