import FastConstMap.Peel
import FastConstMap.Proofs.HashProofs
import Mathlib.Data.Finset.Card
import Mathlib.Order.Interval.Finset.Nat
import Mathlib.Tactic.Linarith

/-!
# Proofs: the bucketed placement

The placement marks an empty cell by 0, which is also a possible mixed hash. What carries the proof
is the set of cells that were ever written: the first cell of every run of cells never written is at
some cursor, and with fewer hashes placed than cells there is such a run. A hash 0 that is written
over leaves a 0 in another cell, so the cells still hold all hashes.
-/

namespace FastConstMap

open CLoop

/-! ## The search for a block -/

/-- The search finds a free block when one is within its number of probes. -/
theorem findBlock_spec {ro : List UInt64} {sp : List Nat} {B : Nat} (bits : Nat) (hB : B = 2 ^ bits)
    (hlen : sp.length = B) (hin : ∀ pos ∈ sp, pos < ro.length) {fuel seg d : Nat} (hseg : seg < B)
    (hd : d < fuel)
    (hfree : ∀ pos, load sp ((seg + d) % B) = some pos → load ro pos = some 0) :
    ∃ s pos, findBlock ro sp B fuel seg = some s ∧ load sp s = some pos ∧ load ro pos = some 0 := by
  induction fuel generalizing seg d with
  | zero => omega
  | succ fuel ih =>
    have hseg' : seg < sp.length := by omega
    have hsp : load sp seg = some sp[seg] := load_of_lt hseg'
    have hpos : sp[seg] < ro.length := hin _ (List.getElem_mem hseg')
    have hro : load ro sp[seg] = some ro[sp[seg]] := load_of_lt hpos
    unfold findBlock
    simp only [hsp, hro, Option.bind_eq_bind, Option.bind_some]
    by_cases hx : ro[sp[seg]] = 0
    · rw [if_neg (by simp [hx])]
      exact ⟨seg, _, rfl, hsp, by rw [hro, hx]⟩
    · rw [if_pos hx]
      -- An occupied block is not the free one, which is then one probe closer.
      have hd0 : d ≠ 0 := by
        rintro rfl
        rw [Nat.add_zero, Nat.mod_eq_of_lt hseg] at hfree
        have := hfree _ hsp
        rw [hro] at this
        exact hx (Option.some.inj this)
      have hnext : (seg + 1) &&& (B - 1) = (seg + 1) % B := by
        rw [hB, Nat.and_two_pow_sub_one_eq_mod]
      rw [hnext]
      refine ih (d := d - 1) (Nat.mod_lt _ (by omega)) (by omega) ?_
      rw [Nat.mod_add_mod, show seg + 1 + (d - 1) = seg + d by omega]
      exact hfree

/-! ## The invariant -/

/-- The state of the placement after the hashes `done`; `touched` are the cells written so far. -/
structure PlaceInv (size bits : Nat) (done : List UInt64) (ro : List UInt64) (sp : List Nat)
    (touched : Finset Nat) : Prop where
  ro_len : ro.length = size + 1
  sentinel : load ro size = some 1
  sp_len : sp.length = 2 ^ bits
  cursor_le : ∀ pos ∈ sp, pos ≤ size
  card_le : touched.card ≤ done.length
  fresh : ∀ q, q < size → q ∉ touched → load ro q = some 0
  runs : ∀ q, q < size → q ∉ touched → (q = 0 ∨ q - 1 ∈ touched) → q ∈ sp
  cells : ((ro.take size).filter (· ≠ 0)).Perm (done.filter (· ≠ 0))

/-- Before the first placement nothing is written, and the cursor of block 0 is at cell 0. -/
theorem PlaceInv.init (size bits : Nat) :
    PlaceInv size bits [] (List.replicate size 0 ++ [1]) (startPositions size bits) ∅ where
  ro_len := by simp
  sentinel := by simp [load]
  sp_len := by simp [startPositions]
  cursor_le := by
    intro pos hpos
    obtain ⟨i, hi, rfl⟩ := List.mem_map.mp hpos
    rw [List.mem_range] at hi
    rw [Nat.shiftRight_eq_div_pow]
    exact Nat.div_le_of_le_mul (Nat.mul_le_mul_right size hi.le)
  card_le := by simp
  fresh := by
    intro q hq _
    rw [load_eq_some_iff]
    refine ⟨by simp; omega, ?_⟩
    rw [List.getElem_append_left (by simpa using hq), List.getElem_replicate]
  runs := by
    intro q hq _ h
    rcases h with rfl | h
    · exact List.mem_map.mpr ⟨0, by simp, by simp⟩
    · simp at h
  cells := by simp

/-- While fewer hashes than cells are placed, some cursor is at a zero cell. -/
theorem PlaceInv.exists_free {size bits : Nat} {done ro : List UInt64} {sp : List Nat}
    {touched : Finset Nat} (h : PlaceInv size bits done ro sp touched)
    (hlt : done.length < size) : ∃ q ∈ sp, load ro q = some 0 := by
  have hex : ∃ q, q < size ∧ q ∉ touched := by
    by_contra hno
    push Not at hno
    have hsub : Finset.range size ⊆ touched := fun q hq => hno q (Finset.mem_range.mp hq)
    have := Finset.card_le_card hsub
    rw [Finset.card_range] at this
    have := h.card_le
    omega
  -- The least cell never written starts a run.
  obtain ⟨⟨hq, hqt⟩, hmin⟩ := Nat.find_spec hex, fun m => Nat.find_min (H := hex) (m := m)
  set q := Nat.find hex
  refine ⟨q, h.runs q hq hqt ?_, h.fresh q hq hqt⟩
  rcases Nat.eq_zero_or_pos q with h0 | hpos
  · exact Or.inl h0
  · right
    by_contra hnt
    exact hmin (q - 1) (by omega) ⟨by omega, hnt⟩

/-- Writing a hash over a zero cell adds it to the cells that are not zero. -/
theorem filter_set_perm {l : List UInt64} {i : Nat} (x : UInt64) (h : load l i = some 0) :
    ((l.set i x).filter (· ≠ 0)).Perm (([x].filter (· ≠ 0)) ++ l.filter (· ≠ 0)) := by
  obtain ⟨hi, hx⟩ := load_eq_some_iff.mp h
  have hl : l = l.take i ++ 0 :: l.drop (i + 1) := by
    rw [← hx, List.cons_getElem_drop_succ, List.take_append_drop]
  have hset : l.set i x = l.take i ++ x :: l.drop (i + 1) := by
    rw [List.set_eq_take_append_cons_drop, if_pos hi]
  have hfilter : l.filter (· ≠ 0) =
      (l.take i).filter (· ≠ 0) ++ (l.drop (i + 1)).filter (· ≠ 0) := by
    conv_lhs => rw [hl, List.filter_append, List.filter_cons_of_neg (by simp)]
  rw [hset, hfilter, List.filter_append,
    show x :: l.drop (i + 1) = [x] ++ l.drop (i + 1) from rfl, List.filter_append]
  exact List.perm_append_comm_assoc _ _ _

/-- The block of a hash: its top `bits` bits. -/
theorem top_bits_lt (hash : UInt64) {bits : Nat} (hbits : 1 ≤ bits) (hbits' : bits ≤ 31) :
    (hash >>> UInt64.ofNat (64 - bits)).toNat < 2 ^ bits := by
  rw [UInt64.toNat_shiftRight, UInt64.toNat_ofNat', show (64 - bits) % 2 ^ 64 % 64 = 64 - bits by omega,
    Nat.shiftRight_eq_div_pow, Nat.div_lt_iff_lt_mul (Nat.two_pow_pos _), ← pow_add,
    show bits + (64 - bits) = 64 by omega]
  exact hash.toNat_lt

/-- While fewer hashes than cells are placed, the search for a block ends, from every block, at one
whose cursor is at a zero cell below `size`. -/
theorem PlaceInv.findBlock {size bits : Nat} {done ro : List UInt64} {sp : List Nat}
    {touched : Finset Nat} (h : PlaceInv size bits done ro sp touched) (hlt : done.length < size)
    {seg : Nat} (hseg : seg < 2 ^ bits) :
    ∃ s pos, findBlock ro sp (2 ^ bits) (2 ^ bits) seg = some s ∧ load sp s = some pos ∧
      load ro pos = some 0 ∧ pos < size := by
  obtain ⟨q, hqsp, hq0⟩ := h.exists_free hlt
  obtain ⟨b, hb, hbq⟩ := List.getElem_of_mem hqsp
  -- The free block `b` is `(b - seg) mod 2^bits` probes away.
  have hdist : (seg + (b + 2 ^ bits - seg) % 2 ^ bits) % 2 ^ bits = b := by
    rw [h.sp_len] at hb
    rw [Nat.add_mod_mod, show seg + (b + 2 ^ bits - seg) = b + 2 ^ bits by omega,
      Nat.add_mod_right, Nat.mod_eq_of_lt hb]
  have hin : ∀ pos ∈ sp, pos < ro.length := by
    intro pos hp
    rw [h.ro_len]
    exact Nat.lt_succ_of_le (h.cursor_le pos hp)
  have hfree : ∀ pos, load sp ((seg + (b + 2 ^ bits - seg) % 2 ^ bits) % 2 ^ bits) = some pos →
      load ro pos = some 0 := by
    intro pos hp
    rw [hdist, load_of_lt hb, hbq] at hp
    rw [← Option.some.inj hp]
    exact hq0
  obtain ⟨s, pos, hfind, hs, hpos0⟩ := findBlock_spec bits rfl h.sp_len hin hseg
    (Nat.mod_lt _ (Nat.two_pow_pos bits)) hfree
  refine ⟨s, pos, hfind, hs, hpos0, ?_⟩
  -- The cell past the last one holds the sentinel, which is not zero.
  obtain ⟨hslt, hspos⟩ := load_eq_some_iff.mp hs
  have hle := h.cursor_le pos (hspos ▸ List.getElem_mem hslt)
  rcases Nat.lt_or_eq_of_le hle with hl | rfl
  · exact hl
  · have hsent := h.sentinel
    rw [hpos0] at hsent
    exact absurd (Option.some.inj hsent) (by decide)

/-- Writing a hash at the cursor of a block and advancing the cursor keeps the invariant. -/
theorem PlaceInv.write {size bits : Nat} {done ro : List UInt64} {sp : List Nat}
    {touched : Finset Nat} (h : PlaceInv size bits done ro sp touched) {s pos : Nat}
    (hs : load sp s = some pos) (hpos0 : load ro pos = some 0) (hposlt : pos < size)
    (hash : UInt64) :
    PlaceInv size bits (hash :: done) (ro.set pos hash) (sp.set s (pos + 1))
      (insert pos touched) where
  ro_len := by rw [List.length_set, h.ro_len]
  sentinel := by
    rw [load, List.getElem?_set_ne (by omega)]
    exact h.sentinel
  sp_len := by rw [List.length_set, h.sp_len]
  cursor_le := by
    intro p hp
    rcases List.mem_or_eq_of_mem_set hp with hp | rfl
    · exact h.cursor_le p hp
    · exact hposlt
  card_le := le_trans (Finset.card_insert_le _ _) (Nat.succ_le_succ h.card_le)
  fresh := by
    intro r hr hrt
    rw [Finset.mem_insert, not_or] at hrt
    rw [load, List.getElem?_set_ne (Ne.symm hrt.1)]
    exact h.fresh r hr hrt.2
  runs := by
    -- A run that now starts after `pos` is at the advanced cursor; the others kept theirs.
    obtain ⟨hslt, hspos⟩ := load_eq_some_iff.mp hs
    intro r hr hrt hrun
    rw [Finset.mem_insert, not_or] at hrt
    by_cases hrp : r - 1 = pos ∧ r ≠ 0
    · have hnext : r = pos + 1 := by omega
      rw [hnext]
      exact List.mem_set hslt _
    · have hold : r ∈ sp := by
        apply h.runs r hr hrt.2
        rcases hrun with h0 | hmem
        · exact Or.inl h0
        · rcases Finset.mem_insert.mp hmem with heq | hmem
          · exact Or.inl (by omega)
          · exact Or.inr hmem
      obtain ⟨c, hc, hcr⟩ := List.getElem_of_mem hold
      have hcs : s ≠ c := by
        rintro rfl
        rw [hcr] at hspos
        exact hrt.1 hspos
      refine List.mem_iff_getElem.mpr ⟨c, by rw [List.length_set]; exact hc, ?_⟩
      rw [List.getElem_set_ne hcs]
      exact hcr
  cells := by
    have htake : load (ro.take size) pos = some 0 := by
      rw [load, List.getElem?_take_of_lt hposlt]
      exact hpos0
    rw [List.take_set]
    refine (filter_set_perm hash htake).trans ?_
    rw [show hash :: done = [hash] ++ done from rfl, List.filter_append]
    exact List.Perm.append_left _ h.cells

/-- Placing one more hash: the search ends, the write is below `size`, and the invariant is kept. -/
theorem PlaceInv.step {size bits : Nat} {done ro : List UInt64} {sp : List Nat}
    {touched : Finset Nat} (h : PlaceInv size bits done ro sp touched) (hbits : 1 ≤ bits)
    (hbits' : bits ≤ 31) (hlt : done.length < size) (seed key : UInt64) :
    ∃ s pos, FastConstMap.findBlock ro sp (2 ^ bits) (2 ^ bits)
        (mixsplit key seed >>> UInt64.ofNat (64 - bits)).toNat = some s ∧
      load sp s = some pos ∧ pos < size ∧
      placeOne seed bits (ro, sp) key =
        some (ro.set pos (mixsplit key seed), sp.set s (pos + 1)) ∧
      PlaceInv size bits (mixsplit key seed :: done) (ro.set pos (mixsplit key seed))
        (sp.set s (pos + 1)) (insert pos touched) := by
  have hseg := top_bits_lt (mixsplit key seed) hbits hbits'
  obtain ⟨s, pos, hfind, hs, hpos0, hposlt⟩ := h.findBlock hlt hseg
  refine ⟨s, pos, hfind, hs, hposlt, ?_, h.write hs hpos0 hposlt (mixsplit key seed)⟩
  have hrolt : pos < ro.length := by rw [h.ro_len]; omega
  obtain ⟨hslt, -⟩ := load_eq_some_iff.mp hs
  unfold placeOne
  simp only [hfind, hs, store_of_lt _ hrolt, store_of_lt _ hslt, Option.bind_eq_bind,
    Option.bind_some]

/-! ## The placement loop -/

theorem place_foldlM {size bits : Nat} (hbits : 1 ≤ bits) (hbits' : bits ≤ 31) (seed : UInt64)
    (hashed : List UInt64) {done ro : List UInt64} {sp : List Nat} {touched : Finset Nat}
    (h : PlaceInv size bits done ro sp touched) (hlen : hashed.length + done.length ≤ size) :
    ∃ ro' sp' touched', hashed.foldlM (placeOne seed bits) (ro, sp) = some (ro', sp') ∧
      PlaceInv size bits ((hashed.map (mixsplit · seed)).reverse ++ done) ro' sp' touched' := by
  induction hashed generalizing done ro sp touched with
  | nil => exact ⟨ro, sp, touched, rfl, by simpa using h⟩
  | cons key rest ih =>
    rw [List.length_cons] at hlen
    obtain ⟨_, _, -, -, -, h1, hinv⟩ := h.step hbits hbits' (by omega) seed key
    obtain ⟨ro', sp', t', h2, hinv'⟩ := ih hinv (by rw [List.length_cons]; omega)
    refine ⟨ro', sp', t', ?_, by simpa using hinv'⟩
    rw [List.foldlM_cons, h1]
    exact h2

/-- Lists of one length with the same entries other than 0 have the same entries. -/
theorem perm_of_filter_ne_zero {l l' : List UInt64} (hlen : l.length = l'.length)
    (h : (l.filter (· ≠ 0)).Perm (l'.filter (· ≠ 0))) : l.Perm l' := by
  have hzero : ∀ l : List UInt64, l.filter (fun x => !decide (x ≠ 0)) =
      List.replicate (l.length - (l.filter (· ≠ 0)).length) 0 := by
    intro l
    rw [List.eq_replicate_iff]
    constructor
    · have := (List.filter_append_perm (fun x => decide (x ≠ 0)) l).length_eq
      rw [List.length_append] at this
      omega
    · intro b hb
      simpa using (List.mem_filter.mp hb).2
  refine (List.filter_append_perm (fun x => decide (x ≠ 0)) l).symm.trans
    (List.Perm.trans ?_ (List.filter_append_perm (fun x => decide (x ≠ 0)) l'))
  rw [hzero l, hzero l', hlen, h.length_eq]
  exact h.append_right _

/-- The placement ends without writing to the sentinel, and leaves a permutation of the mixed hashes
in `reverse_order[0..size)`. -/
theorem place_spec {size bits : Nat} (hbits : 1 ≤ bits) (hbits' : bits ≤ 31)
    (seed : UInt64) {hashed : List UInt64} (hlen : hashed.length = size) :
    ∃ ro, place seed bits size hashed (List.replicate size 0 ++ [1]) = some ro ∧
      ro.length = size + 1 ∧ load ro size = some 1 ∧
      (ro.take size).Perm (hashed.map (mixsplit · seed)) := by
  obtain ⟨ro, sp, t, hfold, h⟩ := place_foldlM hbits hbits' seed hashed
    (PlaceInv.init size bits) (by simp [hlen])
  refine ⟨ro, ?_, h.ro_len, h.sentinel, ?_⟩
  · unfold place
    rw [hfold]
    rfl
  · have hperm := h.cells
    rw [List.append_nil] at hperm
    refine perm_of_filter_ne_zero ?_ (hperm.trans ((List.reverse_perm _).filter _))
    rw [List.length_take, h.ro_len, List.length_map]
    omega

/-! ## The probes of a search -/

/-- The inner `while` without a bound: in `n` probes it gets from the block `seg` to the block `s`, whose
cursor is at a zero cell. -/
inductive Probes (ro : List UInt64) (sp : List Nat) (blockCount : Nat) : Nat → Nat → Nat → Prop
  | stop {seg pos : Nat} : load sp seg = some pos → load ro pos = some 0 →
      Probes ro sp blockCount 1 seg seg
  | next {seg pos n s : Nat} {x : UInt64} : load sp seg = some pos → load ro pos = some x → x ≠ 0 →
      Probes ro sp blockCount n ((seg + 1) &&& (blockCount - 1)) s →
      Probes ro sp blockCount (n + 1) seg s

/-- The search with a bound finds what the `while` finds within as many probes. -/
theorem findBlock_eq_some_iff {ro : List UInt64} {sp : List Nat} {B fuel seg s : Nat} :
    findBlock ro sp B fuel seg = some s ↔ ∃ n, n ≤ fuel ∧ Probes ro sp B n seg s := by
  constructor
  · intro h
    induction fuel generalizing seg with
    | zero => exact absurd h nofun
    | succ fuel ih =>
      obtain ⟨pos, hpos, h⟩ := Option.bind_eq_some_iff.mp h
      obtain ⟨x, hx, h⟩ := Option.bind_eq_some_iff.mp h
      by_cases hx0 : x = 0
      · rw [if_neg (not_not.mpr hx0)] at h
        obtain rfl := Option.some.inj h
        exact ⟨1, by omega, .stop hpos (hx0 ▸ hx)⟩
      · rw [if_pos hx0] at h
        obtain ⟨n, hn, hprobes⟩ := ih h
        exact ⟨n + 1, by omega, .next hpos hx hx0 hprobes⟩
  · rintro ⟨n, hn, h⟩
    induction h generalizing fuel with
    | stop hpos hx =>
      cases fuel with
      | zero => omega
      | succ fuel =>
        simp only [findBlock, hpos, hx, Option.bind_eq_bind, Option.bind_some]
        rw [if_neg (not_not.mpr rfl)]
    | next hpos hx hx0 _ ih =>
      cases fuel with
      | zero => omega
      | succ fuel =>
        simp only [findBlock, hpos, hx, Option.bind_eq_bind, Option.bind_some]
        rw [if_pos hx0]
        exact ih (by omega)

/-- The bucketed placement ends and loses nothing: the search for each hash ends within `2^bits` probes
at a cell below `size`, and at the end the cells below `size` hold all mixed hashes, however many of
them are 0 and whatever their top bits. -/
theorem placement_complete {bits : Nat} (hbits : 1 ≤ bits) (hbits' : bits ≤ 31) (seed : UInt64)
    (hashed : List UInt64) :
    let size := hashed.length
    let empty : List UInt64 := List.replicate size 0 ++ [1]
    (∀ done key rest, hashed = done ++ key :: rest → ∃ ro sp n seg pos,
      done.foldlM (placeOne seed bits) (empty, startPositions size bits) = some (ro, sp) ∧
      Probes ro sp (2 ^ bits) n (mixsplit key seed >>> UInt64.ofNat (64 - bits)).toNat seg ∧
      n ≤ 2 ^ bits ∧ load sp seg = some pos ∧ pos < size ∧
      placeOne seed bits (ro, sp) key =
        some (ro.set pos (mixsplit key seed), sp.set seg (pos + 1))) ∧
    ∃ ro, place seed bits size hashed empty = some ro ∧ ro.length = size + 1 ∧
      load ro size = some 1 ∧ (ro.take size).Perm (hashed.map (mixsplit · seed)) := by
  intro size empty
  refine ⟨?_, place_spec hbits hbits' seed rfl⟩
  rintro done key rest heq
  have hlt : done.length < size := by
    show done.length < hashed.length
    rw [heq, List.length_append, List.length_cons]
    omega
  obtain ⟨ro, sp, touched, hfold, hinv⟩ := place_foldlM hbits hbits' seed done
    (PlaceInv.init size bits) hlt.le
  have hdone : ((done.map (mixsplit · seed)).reverse ++ []).length < size := by
    rwa [List.append_nil, List.length_reverse, List.length_map]
  obtain ⟨seg, pos, hfind, hseg, hpos, hone, -⟩ := hinv.step hbits hbits' hdone seed key
  obtain ⟨n, hn, hprobes⟩ := findBlock_eq_some_iff.mp hfind
  exact ⟨ro, sp, n, seg, pos, hfold, hprobes, hn, hseg, hpos, hone⟩

/-- Three keys in two blocks, two of which mix to 0: the second search cannot tell the cell of the first
one from an empty one. -/
theorem placement_complete_zero :
    ∃ ro, place 7 1 3 [unmix 0 7, unmix 5 7, unmix 0 7] [0, 0, 0, 1] = some ro ∧
      (ro.take 3).Perm [0, 5, 0] := by
  obtain ⟨-, ro, hplace, -, -, hperm⟩ :=
    placement_complete (le_refl 1) (by decide) 7 [unmix 0 7, unmix 5 7, unmix 0 7]
  refine ⟨ro, hplace, ?_⟩
  simp only [List.map_cons, List.map_nil, mixsplit_unmix] at hperm
  exact hperm

end FastConstMap
