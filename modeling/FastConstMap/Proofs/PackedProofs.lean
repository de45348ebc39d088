import FastConstMap.Proofs.BoundsProofs

/-!
# Proofs: the packed counters

The counter of a slot packs the number of hashes at the slot with their position numbers into one byte
that wraps. Where the counting loop reports neither a duplicate nor an error, both parts are exact; and
every pass of the peel loop keeps them exact for the hashes that are left, at every slot but those that
a hash was popped at, which keep a stale count and a stale hash.
-/

namespace FastConstMap

open CLoop Peeling

variable {p : Params} {M R : List UInt64}

/-! ## Exact slots -/

/-- The tables describe the hashes `R` at the slot `s`: the counter is their number with the XOR of
their position numbers, and the XOR word is their XOR. -/
structure Params.Describes (p : Params) (R : List UInt64) (t2count : List UInt8)
    (t2hash : List UInt64) (s : Nat) : Prop where
  count : ∃ c : UInt8, load t2count s = some c ∧ (c >>> 2).toNat = p.deg R s ∧ c &&& 3 = p.bitsAt R s
  hash : load t2hash s = some (p.xorAt R s)

/-- A slot with less than 64 hashes whose cells hold the tallies is described exactly. -/
theorem describes_of_small {tc : List UInt8} {th : List UInt64} {s : Nat} (hsmall : p.deg R s < 64)
    (hc : load tc s = some (p.counter R s)) (hx : load th s = some (p.xorAt R s)) :
    p.Describes R tc th s :=
  ⟨⟨_, hc, counter_shift R s hsmall, counter_and_three R s⟩, hx⟩

/-- Some hash was popped at the slot `s`: it is the position of a hash of the stack whose number is
noted next to it. -/
def Drain.Used (p : Params) (d : Drain) (s : Nat) : Prop :=
  ∃ hash j, (hash, foundByte j) ∈
    (d.reverseOrder.take d.stacksize).zip (d.reverseH.take d.stacksize) ∧ p.pos hash j = s

/-- `R` are the hashes not peeled yet, and the tables describe them at every slot not used. -/
structure Drain.Exact (p : Params) (M : List UInt64) (d : Drain) (R : List UInt64) : Prop where
  left : M.Perm (d.reverseOrder.take d.stacksize ++ R)
  describes : ∀ s, s < p.arrayLen.toNat → ¬ d.Used p s → p.Describes R d.t2count d.t2hash s

/-- What the pass from `d` to `d'` has done to the hashes `R` that are left: nothing, or it took away a
hash at the slot on top of the worklist, which is used from now on. -/
inductive Drain.Peeled (p : Params) (d d' : Drain) (R : List UInt64) : List UInt64 → Prop
  | none : (∀ s, d'.Used p s ↔ d.Used p s) → Peeled p d d' R R
  | one {idx : UInt32} {hash : UInt64} {R' : List UInt64} :
      load d.alone (d.qsize - 1) = some idx → R.Perm (hash :: R') →
      (∀ s, d'.Used p s ↔ s = idx.toNat ∨ d.Used p s) → Peeled p d d' R R'

/-! ## The stack in its arrays -/

/-- The used slots are those of the stack. -/
theorem WorkInv.used_iff {d : Drain} {S : List (UInt64 × Fin 3)} (h : WorkInv p M d.toWork S R)
    (s : Nat) : d.Used p s ↔ p.Used S s := by
  have hstack : (d.reverseOrder.take d.stacksize).zip (d.reverseH.take d.stacksize) =
      (S.map fun e => (e.1, foundByte e.2)).reverse := by
    rw [← h.stack]
    exact (List.reverse_reverse _).symm
  unfold Drain.Used Params.Used
  rw [hstack]
  constructor
  · rintro ⟨hash, j, hmem, rfl⟩
    obtain ⟨e, he, heq⟩ := List.mem_map.mp (List.mem_reverse.mp hmem)
    obtain ⟨rfl, hj⟩ := Prod.mk.inj heq
    exact ⟨e, he, by rw [foundByte_injective hj]⟩
  · rintro ⟨e, he, rfl⟩
    exact ⟨e.1, e.2, List.mem_reverse.mpr (List.mem_map_of_mem he), rfl⟩

/-- The hashes of the stack. -/
theorem WorkInv.popped_hashes {d : Drain} {S : List (UInt64 × Fin 3)} {size : Nat}
    (hd : d.Sized p.arrayLen.toNat size) (h : WorkInv p M d.toWork S R) :
    d.reverseOrder.take d.stacksize = (S.map Prod.fst).reverse := by
  have hlen : (d.reverseOrder.take d.stacksize).length ≤ (d.reverseH.take d.stacksize).length := by
    have hle := hd.stacksize
    rw [List.length_take, List.length_take, hd.reverseOrder, hd.reverseH]
    omega
  have hfst : (d.toWork.stack.map Prod.fst).reverse = d.reverseOrder.take d.stacksize := by
    show (List.map Prod.fst (List.reverse _)).reverse = _
    rw [List.map_reverse, List.reverse_reverse, List.map_fst_zip hlen]
  rw [← hfst, h.stack, List.map_map]
  rfl

/-! ## The peel loop -/

/-- The invariant of the peel loop makes the tables exact. -/
theorem WorkInv.exact {d : Drain} {S : List (UInt64 × Fin 3)} {size : Nat}
    (hd : d.Sized p.arrayLen.toNat size) (h : WorkInv p M d.toWork S R) : d.Exact p M R where
  left := by
    rw [h.popped_hashes hd]
    exact h.peels.perm.trans ((List.reverse_perm _).symm.append_right _)
  describes := by
    intro s hs hused
    rw [h.used_iff] at hused
    obtain ⟨cnt, hcnt, hcnt'⟩ := h.count
    obtain ⟨x, hx, hx'⟩ := h.hash
    exact describes_of_small (h.small s) (by rw [← hcnt' s hused]; exact hcnt.load hs)
      (by rw [← hx' s hused]; exact hx.load hs)

theorem Params.Describes.perm {R' : List UInt64} {tc : List UInt8} {th : List UInt64} {s : Nat}
    (h : p.Describes R tc th s) (hR : R.Perm R') : p.Describes R' tc th s := by
  obtain ⟨c, hc, hdeg, hbits⟩ := h.count
  refine ⟨⟨c, hc, hdeg.trans (degree_perm hR s), hbits.trans (tally_perm hR s)⟩, ?_⟩
  rw [h.hash, xorAt_perm hR]

/-- The hashes that are left are determined up to their order. -/
theorem Drain.Exact.perm {d : Drain} {R' : List UInt64} (h : d.Exact p M R) (h' : d.Exact p M R') :
    R.Perm R' := (List.perm_append_left_iff _).mp (h.left.symm.trans h'.left)

theorem Drain.Exact.of_perm {d : Drain} {R' : List UInt64} (h : d.Exact p M R) (hR : R.Perm R') :
    d.Exact p M R' :=
  ⟨h.left.trans (hR.append_left _), fun s hs hused => (h.describes s hs hused).perm hR⟩

/-- One pass of the peel loop keeps the tables exact. -/
theorem Drain.Exact.pass (hp : p.Valid) {d d' : Drain} (hd : d.Inv p M) (h : d.Exact p M R)
    (hpass : Drain.Pass p d d') : ∃ R', d'.Exact p M R' ∧ d.Peeled p d' R R' := by
  obtain ⟨S, R0, hinv⟩ := hd.work
  have hR : R.Perm R0 := h.perm (hinv.exact hd.sized)
  have hd' := hd.pass hp hpass
  -- The pass of the lists that this pass stands for.
  have hmap := (step_toWork (p := p) hd.sized).1
  rw [show d.step p = some (.next d') from hpass] at hmap
  obtain ⟨idx, queue, hq, hnext⟩ := hinv.next hp hmap
  have hidx := hd.sized.load_top hq
  rcases hnext with hskip | ⟨a, j, R', rfl, hpop, hinv'⟩
  · refine ⟨R, (hskip.exact hd'.sized).of_perm hR.symm, .none ?_⟩
    intro s
    rw [hskip.used_iff, hinv.used_iff]
  · refine ⟨R', hinv'.exact hd'.sized, .one hidx (hR.trans hpop.perm) ?_⟩
    intro s
    rw [hinv'.used_iff, hinv.used_iff, used_cons, slot_toNat]

/-- The packed counters are exact whenever they are used: for every valid parameters and all hashes,
when the counting loop reports no duplicate, it reports an error exactly if some slot has 64 hashes or
more; and when it reports neither, the tables describe the hashes at every slot, and keep describing
those that are left after every pass of the peel loop, at every slot not used. -/
theorem packed_counters_exact (hp : p.Valid) (M : List UInt64) :
    ∃ c, countAll p M ⟨List.replicate p.arrayLen.toNat 0, List.replicate p.arrayLen.toNat 0, false,
        false⟩ = some c ∧
      (c.duplicate = false → (c.hasError = true ↔ ∃ s, 64 ≤ p.deg M s)) ∧
      (c.duplicate = false → c.hasError = false →
        (∀ s, s < p.arrayLen.toNat → p.Describes M c.t2count c.t2hash s) ∧
        ∀ alone reverseH, alone.length = p.arrayLen.toNat → reverseH.length = M.length →
          ∃ alone' qsize, scanAlone c.t2count p.arrayLen.toNat alone = some (alone', qsize) ∧
          ∀ d, Relation.ReflTransGen (Drain.Pass p)
              ⟨alone', qsize, c.t2count, c.t2hash, reverseH, M ++ [1], 0⟩ d →
            (∃ R, d.Exact p M R) ∧
            ∀ R d', d.Exact p M R → Drain.Pass p d d' →
              ∃ R', d'.Exact p M R' ∧ d.Peeled p d' R R') := by
  obtain ⟨c, hcount, hc⟩ := countAll_clean hp M
  refine ⟨c, hcount, fun hd => (hc hd).2, ?_⟩
  intro hd he
  obtain ⟨ht, herr⟩ := hc hd
  have hsmall : ∀ s, p.deg M s < 64 := deg_lt_of_hasError herr he
  refine ⟨fun s hs => describes_of_small (hsmall s) (ht.count.load hs) (ht.hash.load hs), ?_⟩
  intro alone reverseH halone hreverseH
  have hsent : load (M ++ [1]) M.length = some 1 := by simp
  obtain ⟨alone', qsize, hscan, hsized, hwork⟩ := scanAlone_start c.t2hash ht.count.1 halone hreverseH
    (List.length_append ..) hsent
  refine ⟨alone', qsize, hscan, ?_⟩
  intro d hreach
  have hstart : Drain.Inv p M ⟨alone', qsize, c.t2count, c.t2hash, reverseH, M ++ [1], 0⟩ :=
    ⟨hsized, [], M, hwork ▸ WorkInv.init ht hsmall⟩
  have hinv := hstart.reach hp hreach
  obtain ⟨S, R, hwork⟩ := hinv.work
  exact ⟨⟨R, hwork.exact hinv.sized⟩, fun R' d' h hpass => h.pass hp hinv hpass⟩

/-- Two hashes in three segments of four slots. -/
theorem packed_counters_exact_two :
    let p := Params.ofCapacity 4 0
    let M : List UInt64 := [1, 0x8000000000000000]
    ∃ c, countAll p M ⟨List.replicate 12 0, List.replicate 12 0, false, false⟩ = some c ∧
      ∀ s, s < 12 → p.Describes M c.t2count c.t2hash s := by
  intro p M
  have hp : p.Valid := ofCapacity_valid (by decide : 2 ≤ 18) rfl 0
  have hflags : (countAll p M ⟨List.replicate 12 0, List.replicate 12 0, false, false⟩).map
      (fun c => (c.duplicate, c.hasError)) = some (false, false) := by decide +kernel
  obtain ⟨c, hcount, -, hexact⟩ := packed_counters_exact hp M
  obtain ⟨c', hcount', hcf⟩ := Option.map_eq_some_iff.mp hflags
  obtain rfl : c = c' := Option.some.inj (hcount.symm.trans hcount')
  obtain ⟨hd, he⟩ := Prod.mk.inj hcf
  exact ⟨c, hcount, (hexact hd he).1⟩

end FastConstMap
