import FastConstMap.Proofs.BuiltMapProofs

/-!
# Proofs: the peel loop finds an elimination order

The peel loop is greedy, and its choices do not matter: when its worklist is empty, hashes are left
exactly if they have no elimination order. The stack that it leaves is such an order.
-/

namespace FastConstMap

open CLoop Peeling

variable {p : Params}

/-! ## The stack in its arrays -/

section Arrays

variable {cap size : Nat} {d : Drain} {S : List (UInt64 × Fin 3)}

theorem Drain.Sized.stacksize_eq (h : d.Sized cap size) (hstack : d.toWork.stack = stackBytes S) :
    d.stacksize = S.length := by
  rw [← h.length_stack, hstack]
  exact List.length_map ..

/-- Entry `i` of `reverse_order` and `reverse_h` is entry `i` of the stack, oldest first. -/
theorem Drain.Sized.load_stack (h : d.Sized cap size) (hstack : d.toWork.stack = stackBytes S)
    {i : Nat} (hi : i < S.reverse.length) :
    load d.reverseOrder i = some S.reverse[i].1 ∧
      load d.reverseH i = some (foundByte S.reverse[i].2) := by
  have hss := h.stacksize
  have hi' : i < d.stacksize := by
    rw [h.stacksize_eq hstack]
    simpa using hi
  have hro : i < d.reverseOrder.length := by rw [h.reverseOrder]; omega
  have hrh : i < d.reverseH.length := by rw [h.reverseH]; omega
  have hzip : (d.reverseOrder.take d.stacksize).zip (d.reverseH.take d.stacksize) =
      stackBytes S.reverse := by
    have hrev := congrArg List.reverse hstack
    unfold Drain.toWork at hrev
    rw [List.reverse_reverse] at hrev
    rw [hrev]
    exact (List.map_reverse ..).symm
  have hget := congrArg (fun l => l[i]?) hzip
  simp only [stackBytes, List.getElem?_zip_eq_some, List.getElem?_map,
    List.getElem?_eq_getElem hi, Option.map_some, List.getElem?_take_of_lt hi'] at hget
  exact hget

theorem Drain.Sized.take_reverseOrder (h : d.Sized cap size)
    (hstack : d.toWork.stack = stackBytes S) :
    d.reverseOrder.take d.stacksize = S.reverse.map Prod.fst := by
  have hlen := h.stacksize_eq hstack
  refine List.ext_getElem? ?_
  intro i
  by_cases hi : i < S.reverse.length
  · rw [List.getElem?_take_of_lt (by rw [hlen]; simpa using hi), List.getElem?_map,
      List.getElem?_eq_getElem hi]
    exact (h.load_stack hstack hi).1
  · rw [List.getElem?_eq_none (by rw [List.length_take, hlen]; simp at hi; omega),
      List.getElem?_eq_none (by rw [List.length_map]; omega)]

/-- In the arrays of a stack that is an elimination order, the position that `reverse_h` gives for a
hash is no position of the hashes after it. -/
theorem Drain.Sized.eliminates (h : d.Sized cap size) (hstack : d.toWork.stack = stackBytes S)
    (helim : ElimStack p.pos S) {i : Nat} (hi : i < d.stacksize) :
    ∃ hash j, load d.reverseOrder i = some hash ∧ load d.reverseH i = some (foundByte j) ∧
      ∀ k hash', i < k → k < d.stacksize → load d.reverseOrder k = some hash' →
        ¬ Touches p.pos hash' (p.pos hash j) := by
  have hlen : S.reverse.length = d.stacksize := by
    rw [h.stacksize_eq hstack, List.length_reverse]
  have hi' : i < S.reverse.length := hlen.symm ▸ hi
  obtain ⟨hro, hrh⟩ := h.load_stack hstack hi'
  refine ⟨S.reverse[i].1, S.reverse[i].2, hro, hrh, ?_⟩
  intro k hash' hik hk hload
  have hk' : k < S.reverse.length := hlen.symm ▸ hk
  have hhash' : S.reverse[k].1 = hash' :=
    Option.some.inj ((h.load_stack hstack hk').1.symm.trans hload)
  have hpair := List.pairwise_iff_getElem.mp (List.pairwise_reverse.mpr helim) i k hi' hk' hik
  rwa [hhash'] at hpair

end Arrays

/-! ## The peel loop of an attempt -/

/-- When the counting loop of an attempt over the hashes in `reverse_order` ends without a flag, the
peel loop ends, it has taken all hashes exactly if they have an elimination order, and then it leaves
one in `reverse_order` and `reverse_h`. -/
theorem peel_loop_complete (lm : Libm) (size : UInt32) (iteration : Nat) (seed : UInt64)
    (alone : List UInt32) (reverseH : List UInt8) (reverseOrder : List UInt64) (c : Counts)
    (halone : alone.length = (initParams lm size).arrayLen.toNat)
    (hreverseH : reverseH.length = size.toNat)
    (hreverseOrder : reverseOrder.length = size.toNat + 1)
    (hsentinel : load reverseOrder size.toNat = some 1) :
    let p := ((initParams lm size).atAttempt size iteration).withSeed seed
    let arrayLen := p.arrayLen.toNat
    let hashes := reverseOrder.take size.toNat
    countAll p hashes ⟨List.replicate arrayLen 0, List.replicate arrayLen 0, false, false⟩ = some c →
    c.duplicate = false → c.hasError = false →
    ∃ alone' qsize d, scanAlone c.t2count arrayLen alone = some (alone', qsize) ∧
      loop (Drain.step p) (drainFuel size.toNat arrayLen)
        { alone := alone', qsize := qsize, t2count := c.t2count, t2hash := c.t2hash
          reverseH := reverseH, reverseOrder := reverseOrder, stacksize := 0 } = some d ∧
      (d.stacksize = size.toNat ↔ ∃ order, order.Perm hashes ∧ Eliminates p.pos order) ∧
      (d.stacksize = size.toNat → (d.reverseOrder.take size.toNat).Perm hashes ∧
        ∀ i, i < size.toNat → ∃ hash j, load d.reverseOrder i = some hash ∧
          load d.reverseH i = some (foundByte j) ∧
          ∀ k hash', i < k → k < size.toNat → load d.reverseOrder k = some hash' →
            ¬ Touches p.pos hash' (p.pos hash j)) := by
  intro p arrayLen hashes hcount hdup herr
  have hp : p.Valid := ((initParams_initial lm size).atAttempt_valid size iteration).withSeed seed
  have hlen : hashes.length = size.toNat := by
    rw [List.length_take, hreverseOrder]
    omega
  have halone' : alone.length = p.arrayLen.toNat := by
    rw [halone, withSeed_arrayLen, atAttempt_arrayLen]
  obtain ⟨c', hcount', hc⟩ := countAll_clean hp hashes
  obtain rfl := Option.some.inj (hcount.symm.trans hcount')
  obtain ⟨ht, herr'⟩ := hc hdup
  have hsmall : ∀ s, p.deg hashes s < 64 := deg_lt_of_hasError herr' herr
  obtain ⟨alone', qsize, d, S, R, hscan, hloop, hd, -, -, hpeels, hstuck, hstack, -⟩ :=
    drain_spec hp ht hsmall halone' (hreverseH.trans hlen.symm)
      (hreverseOrder.trans (congrArg (· + 1) hlen.symm)) (by rw [hlen]; exact hsentinel)
  rw [hlen] at hloop hd
  refine ⟨alone', qsize, d, hscan, hloop, ?_, ?_⟩
  · rw [← hpeels.rest_eq_nil_iff hstuck, hd.stacksize_eq hstack, ← hlen]
    have hperm := hpeels.perm.length_eq
    rw [List.length_append, List.length_map] at hperm
    rw [← List.length_eq_zero_iff]
    omega
  · intro hall
    have hR : R = [] := by
      have hperm := hpeels.perm.length_eq
      rw [List.length_append, List.length_map, ← hd.stacksize_eq hstack, hall, hlen] at hperm
      exact List.length_eq_zero_iff.mp (by omega)
    subst hR
    have hperm := hpeels.perm
    rw [List.append_nil] at hperm
    rw [← hall]
    refine ⟨?_, fun i hi => hd.eliminates hstack hpeels.elim hi⟩
    rw [hd.take_reverseOrder hstack, List.map_reverse]
    exact (List.reverse_perm _).trans hperm.symm

/-- Two hashes with a slot each of their own. -/
theorem peel_loop_complete_two :
    let p := ((initParams smallEnv.libm 2).atAttempt 2 0).withSeed 7
    ∃ c, countAll p [1, 0x8000000000000000]
        ⟨List.replicate 12 0, List.replicate 12 0, false, false⟩ = some c ∧
      ∃ alone' qsize d, scanAlone c.t2count 12 (List.replicate 12 0) = some (alone', qsize) ∧
        loop (Drain.step p) (drainFuel 2 12)
          { alone := alone', qsize := qsize, t2count := c.t2count, t2hash := c.t2hash
            reverseH := [0, 0], reverseOrder := [1, 0x8000000000000000, 1], stacksize := 0 } = some d ∧
        (d.stacksize = 2 ↔ ∃ order, order.Perm [1, 0x8000000000000000] ∧ Eliminates p.pos order) := by
  intro p
  have hflags : ∃ c, countAll p [1, 0x8000000000000000]
      ⟨List.replicate 12 0, List.replicate 12 0, false, false⟩ = some c ∧
      c.duplicate = false ∧ c.hasError = false := by
    have hsome : ((countAll p [1, 0x8000000000000000]
        ⟨List.replicate 12 0, List.replicate 12 0, false, false⟩).map fun c =>
          (c.duplicate, c.hasError)) = some (false, false) := by
      decide +kernel
    obtain ⟨c, hc, hcf⟩ := Option.map_eq_some_iff.mp hsome
    exact ⟨c, hc, congrArg Prod.fst hcf, congrArg Prod.snd hcf⟩
  obtain ⟨c, hc, hdup, herr⟩ := hflags
  obtain ⟨alone', qsize, d, hscan, hloop, hiff, -⟩ := peel_loop_complete smallEnv.libm 2 0 7
    (List.replicate 12 0) [0, 0] [1, 0x8000000000000000, 1] c rfl rfl rfl rfl hc hdup herr
  exact ⟨c, hc, alone', qsize, d, hscan, hloop, hiff⟩

end FastConstMap
