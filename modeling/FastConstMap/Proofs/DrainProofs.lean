import FastConstMap.Attempt

/-!
# Proofs: the arrays of the peel loop

The peel loop on its arrays, with `qsize` and `stacksize`, is the peel loop on lists.
-/

namespace FastConstMap

open CLoop

variable {p : Params}

/-! ## The worklist and the stack as lists -/

/-- The lists that the arrays of the peel loop stand for. -/
def Drain.toWork (d : Drain) : Work :=
  { queue := (d.alone.take d.qsize).reverse
    stack := ((d.reverseOrder.take d.stacksize).zip (d.reverseH.take d.stacksize)).reverse
    t2count := d.t2count
    t2hash := d.t2hash }

@[simp] theorem toWork_t2count (d : Drain) : d.toWork.t2count = d.t2count := rfl

@[simp] theorem toWork_t2hash (d : Drain) : d.toWork.t2hash = d.t2hash := rfl

/-- The lengths of the arrays of the peel loop, and the bounds of the two counters. -/
structure Drain.Sized (cap size : Nat) (d : Drain) : Prop where
  alone : d.alone.length = cap
  qsize : d.qsize ≤ cap
  reverseH : d.reverseH.length = size
  reverseOrder : d.reverseOrder.length = size + 1
  sentinel : load d.reverseOrder size = some 1
  stacksize : d.stacksize ≤ size

theorem take_set_self {α : Type} (l : List α) (n : Nat) (x : α) : (l.set n x).take n = l.take n := by
  rw [List.take_set, List.set_eq_of_length_le]
  rw [List.length_take]
  exact Nat.min_le_left _ _

theorem take_succ_set {α : Type} {l : List α} {n : Nat} (x : α) (h : n < l.length) :
    (l.set n x).take (n + 1) = l.take n ++ [x] := by
  rw [List.take_succ_eq_append_getElem (by rw [List.length_set]; exact h), take_set_self,
    List.getElem_set_self]

theorem Drain.Sized.length_queue {cap size : Nat} {d : Drain} (h : d.Sized cap size) :
    d.toWork.queue.length = d.qsize := by
  show (d.alone.take d.qsize).reverse.length = _
  rw [List.length_reverse, List.length_take, h.alone]
  exact Nat.min_eq_left h.qsize

theorem Drain.Sized.length_stack {cap size : Nat} {d : Drain} (h : d.Sized cap size) :
    d.toWork.stack.length = d.stacksize := by
  have hle := h.stacksize
  show ((d.reverseOrder.take d.stacksize).zip (d.reverseH.take d.stacksize)).reverse.length = _
  rw [List.length_reverse, List.length_zip, List.length_take, List.length_take, h.reverseOrder,
    h.reverseH]
  omega

/-- The top of the worklist. -/
theorem toWork_queue_cons {d : Drain} (hq : d.qsize ≠ 0) (hlt : d.qsize - 1 < d.alone.length) :
    d.toWork.queue = d.alone[d.qsize - 1] :: (d.alone.take (d.qsize - 1)).reverse := by
  show (d.alone.take d.qsize).reverse = _
  conv_lhs => rw [show d.qsize = d.qsize - 1 + 1 by omega]
  rw [List.take_succ_eq_append_getElem hlt, List.reverse_append]
  rfl

/-- The top of the worklist is where the next pass looks. -/
theorem Drain.Sized.load_top {cap size : Nat} {d : Drain} (h : d.Sized cap size) {idx : UInt32}
    {queue : List UInt32} (hq : d.toWork.queue = idx :: queue) :
    load d.alone (d.qsize - 1) = some idx := by
  have hlen := h.length_queue
  rw [hq, List.length_cons] at hlen
  have hlt : d.qsize - 1 < d.alone.length := by
    have hle := h.qsize
    rw [h.alone]
    omega
  rw [toWork_queue_cons (by omega) hlt, List.cons.injEq] at hq
  rw [load_of_lt hlt, hq.1]

/-- The update of a neighbour on the arrays is the update on the lists. -/
theorem untouch_toWork {cap size : Nat} {d : Drain} (h : d.Sized cap size) (other : UInt32)
    (f : UInt8) (hash : UInt64) :
    d.toWork.untouch cap other f hash = (d.untouch other f hash).map Drain.toWork ∧
      ∀ d', d.untouch other f hash = some d' → d'.Sized cap size := by
  unfold Work.untouch Drain.untouch
  rw [h.length_queue]
  by_cases hlt : d.qsize < cap
  · have halone : d.qsize < d.alone.length := h.alone.symm ▸ hlt
    rw [if_pos hlt, store_of_lt _ halone, toWork_t2count, toWork_t2hash]
    simp only [Option.bind_eq_bind, Option.bind_some]
    cases load d.t2count other.toNat with
    | none => exact ⟨rfl, fun _ h => by cases h⟩
    | some c =>
      simp only [Option.bind_some]
      cases store d.t2count other.toNat ((c - 4) ^^^ f) with
      | none => exact ⟨rfl, fun _ h => by cases h⟩
      | some tc =>
        simp only [Option.bind_some]
        cases load d.t2hash other.toNat with
        | none => exact ⟨rfl, fun _ h => by cases h⟩
        | some x =>
          simp only [Option.bind_some]
          cases store d.t2hash other.toNat (x ^^^ hash) with
          | none => exact ⟨rfl, fun _ h => by cases h⟩
          | some th =>
            simp only [Option.bind_some, Option.map_some, Option.some.injEq]
            constructor
            · unfold Drain.toWork
              simp only [Work.mk.injEq, and_true]
              split_ifs
              · rw [take_succ_set _ halone, List.reverse_append]
                rfl
              · rw [take_set_self]
            · rintro d' rfl
              refine ⟨?_, ?_, h.reverseH, h.reverseOrder, h.sentinel, h.stacksize⟩
              · rw [List.length_set]
                exact h.alone
              · show (if c >>> 2 = 2 then d.qsize + 1 else d.qsize) ≤ cap
                split_ifs <;> omega
  · rw [if_neg hlt, show store d.alone d.qsize other = none from if_neg (by rw [h.alone]; exact hlt)]
    simp

/-- The updates of both neighbours. -/
theorem untouch_two_toWork {cap size : Nat} {d : Drain} (h : d.Sized cap size)
    (o : (UInt32 × UInt8) × UInt32 × UInt8) (hash : UInt64) :
    ((d.toWork.untouch cap o.1.1 o.1.2 hash).bind fun w =>
        (w.untouch cap o.2.1 o.2.2 hash).bind fun w => some (Ctl.next w)) =
      (((d.untouch o.1.1 o.1.2 hash).bind fun d =>
        (d.untouch o.2.1 o.2.2 hash).bind fun d => some (Ctl.next d)) : Option (Ctl Drain)).map
          (Ctl.map Drain.toWork) ∧
      ∀ c, ((d.untouch o.1.1 o.1.2 hash).bind fun d =>
        (d.untouch o.2.1 o.2.2 hash).bind fun d => some (Ctl.next d)) = some c →
          c.state.Sized cap size := by
  obtain ⟨hu1, hs1⟩ := untouch_toWork h o.1.1 o.1.2 hash
  rw [hu1]
  cases hd1 : d.untouch o.1.1 o.1.2 hash with
  | none => exact ⟨rfl, fun c hc => by cases hc⟩
  | some d1 =>
    obtain ⟨hu2, hs2⟩ := untouch_toWork (hs1 d1 hd1) o.2.1 o.2.2 hash
    simp only [Option.map_some, Option.bind_some]
    rw [hu2]
    cases hd2 : d1.untouch o.2.1 o.2.2 hash with
    | none => exact ⟨rfl, fun c hc => by cases hc⟩
    | some d2 =>
      refine ⟨rfl, ?_⟩
      intro c hc
      cases hc
      exact hs2 d2 hd2

/-- Popping a slot off the worklist and pushing a hash on the stack. -/
theorem Drain.Sized.push {cap size : Nat} {d : Drain} (h : d.Sized cap size) {queue : Nat}
    (hq : queue ≤ d.qsize) (hs : d.stacksize < size) (hash : UInt64) (found : UInt8) :
    let d' : Drain := { d with
      qsize := queue, reverseH := d.reverseH.set d.stacksize found
      reverseOrder := d.reverseOrder.set d.stacksize hash, stacksize := d.stacksize + 1 }
    d'.Sized cap size ∧
      d'.toWork =
        { queue := (d.alone.take queue).reverse, stack := (hash, found) :: d.toWork.stack
          t2count := d.t2count, t2hash := d.t2hash } := by
  intro d'
  refine ⟨⟨h.alone, Nat.le_trans hq h.qsize, ?_, ?_, ?_, hs⟩, ?_⟩
  · show (d.reverseH.set d.stacksize found).length = size
    rw [List.length_set]
    exact h.reverseH
  · show (d.reverseOrder.set d.stacksize hash).length = size + 1
    rw [List.length_set]
    exact h.reverseOrder
  · show load (d.reverseOrder.set d.stacksize hash) size = some 1
    rw [load, List.getElem?_set_ne (by omega)]
    exact h.sentinel
  · have hlen : (d.reverseOrder.take d.stacksize).length = (d.reverseH.take d.stacksize).length := by
      rw [List.length_take, List.length_take, h.reverseOrder, h.reverseH]
      omega
    unfold Drain.toWork
    simp only [Work.mk.injEq, true_and, and_true, d']
    rw [take_succ_set _ (by rw [h.reverseOrder]; omega),
      take_succ_set _ (by rw [h.reverseH]; exact hs),
      List.zip_append hlen, List.reverse_append]
    rfl

/-- One pass of the peel loop on the arrays is one pass on the lists. -/
theorem step_toWork {cap size : Nat} {d : Drain} (h : d.Sized cap size) :
    d.toWork.step p cap size = (d.step p).map (Ctl.map Drain.toWork) ∧
      ∀ c, d.step p = some c → c.state.Sized cap size := by
  have hnone : ∀ {x : Option (Ctl Work)} {y : Option (Ctl Drain)}, x = none → y = none →
      x = y.map (Ctl.map Drain.toWork) ∧ ∀ c, y = some c → c.state.Sized cap size := by
    rintro _ _ rfl rfl
    exact ⟨rfl, fun c hc => by cases hc⟩
  unfold Drain.step
  by_cases hq : d.qsize = 0
  · rw [if_pos hq]
    have hnil : d.toWork.queue = [] := by simp [Drain.toWork, hq]
    refine ⟨?_, fun c hc => by cases hc; exact h⟩
    unfold Work.step
    rw [hnil]
    rfl
  · rw [if_neg hq]
    have hqlt : d.qsize - 1 < d.alone.length := by
      have hle := h.qsize
      rw [h.alone]
      omega
    unfold Work.step
    rw [toWork_queue_cons hq hqlt, toWork_t2count, toWork_t2hash]
    simp only [load_of_lt hqlt, Option.bind_eq_bind, Option.bind_some]
    set idx := d.alone[d.qsize - 1]
    cases load d.t2count idx.toNat with
    | none => exact hnone rfl rfl
    | some c =>
      simp only [Option.bind_some]
      by_cases hc : c >>> 2 = 1
      · rw [if_neg (not_not.mpr hc), if_neg (not_not.mpr hc)]
        cases load d.t2hash idx.toNat with
        | none => exact hnone rfl rfl
        | some hash =>
          simp only [Option.bind_some, h.length_stack]
          by_cases hss : d.stacksize < size
          · rw [if_pos hss, store_of_lt _ (by rw [h.reverseH]; exact hss),
              store_of_lt _ (by rw [h.reverseOrder]; omega)]
            simp only [Option.bind_some]
            obtain ⟨h1, hw⟩ := h.push (Nat.sub_le d.qsize 1) hss hash (c &&& 3)
            rw [← hw]
            exact untouch_two_toWork h1 (others p hash (c &&& 3) idx) hash
          · rw [if_neg hss, show store d.reverseH d.stacksize (c &&& 3) = none from
              if_neg (by rw [h.reverseH]; exact hss)]
            exact hnone rfl rfl
      · rw [if_pos hc, if_pos hc]
        refine ⟨rfl, ?_⟩
        intro c' hc'
        cases hc'
        refine ⟨h.alone, ?_, h.reverseH, h.reverseOrder, h.sentinel, h.stacksize⟩
        show d.qsize - 1 ≤ cap
        have := h.qsize
        omega

/-- The peel loop on the arrays is the peel loop on the lists. -/
theorem drain_loop {cap size : Nat} {d : Drain} (h : d.Sized cap size) (fuel : Nat) :
    loop (Work.step p cap size) fuel d.toWork = (loop (Drain.step p) fuel d).map Drain.toWork ∧
      ∀ d', loop (Drain.step p) fuel d = some d' → d'.Sized cap size :=
  loop_map Drain.toWork (Drain.Sized cap size) (fun _ hd => step_toWork hd) h

/-! ## The first worklist -/

/-- The singletons below `n`, in increasing order. -/
theorem singletons_succ (t2count : List UInt8) (n : Nat) (c : UInt8)
    (hc : load t2count n = some c) : singletons t2count (n + 1) =
      if c >>> 2 = 1 then UInt32.ofNat n :: singletons t2count n else singletons t2count n := by
  unfold singletons
  rw [List.range_succ, List.filter_append]
  split_ifs with h <;> simp [hc, h]

/-- The scan fills the worklist with the singletons, the last one on top. -/
theorem scanAlone_spec {t2count : List UInt8} {len : Nat} {alone : List UInt32}
    (hcount : t2count.length = len) (halone : alone.length = len) :
    ∃ alone' q, scanAlone t2count len alone = some (alone', q) ∧ alone'.length = len ∧ q ≤ len ∧
      (alone'.take q).reverse = singletons t2count len := by
  have hstep : ∀ i (st : List UInt32 × Nat), 0 ≤ i → i < len →
      (st.1.length = len ∧ st.2 ≤ i ∧ (st.1.take st.2).reverse = singletons t2count i) →
      ∃ st', ((do
        let alone ← store st.1 st.2 (UInt32.ofNat i)
        let c ← load t2count i
        some (alone, if c >>> 2 = 1 then st.2 + 1 else st.2)) : Option (List UInt32 × Nat)) =
          some st' ∧
        st'.1.length = len ∧ st'.2 ≤ i + 1 ∧
          (st'.1.take st'.2).reverse = singletons t2count (i + 1) := by
    rintro i ⟨alone, q⟩ - hi ⟨hlen, hq, htake⟩
    simp only at hlen hq htake
    have hqlt : q < alone.length := by omega
    have hi2 : i < t2count.length := by omega
    have hc : load t2count i = some t2count[i] := load_of_lt hi2
    simp only [store_of_lt _ hqlt, hc, Option.bind_eq_bind, Option.bind_some]
    refine ⟨_, rfl, ?_⟩
    refine ⟨by rw [List.length_set]; exact hlen, ?_, ?_⟩
    · simp only
      split_ifs <;> omega
    · rw [singletons_succ t2count i _ hc]
      simp only
      split_ifs
      · rw [take_succ_set _ hqlt, List.reverse_append, ← htake]
        rfl
      · rw [take_set_self, htake]
  obtain ⟨⟨alone', q⟩, hscan, hlen, hq, htake⟩ := forUp_spec
    (fun i (st : List UInt32 × Nat) => st.1.length = len ∧ st.2 ≤ i ∧
      (st.1.take st.2).reverse = singletons t2count i) (Nat.zero_add len) hstep
    (s := (alone, 0)) ⟨halone, Nat.le_refl 0, by simp [singletons]⟩
  exact ⟨alone', q, hscan, hlen, hq, htake⟩

/-- The state in which the peel loop starts. -/
theorem scanAlone_start {len size : Nat} {t2count : List UInt8} (t2hash : List UInt64)
    {alone : List UInt32} {reverseH : List UInt8} {reverseOrder : List UInt64}
    (hcount : t2count.length = len) (halone : alone.length = len) (hrev : reverseH.length = size)
    (horder : reverseOrder.length = size + 1) (hsent : load reverseOrder size = some 1) :
    ∃ alone' q, scanAlone t2count len alone = some (alone', q) ∧
      (Drain.mk alone' q t2count t2hash reverseH reverseOrder 0).Sized len size ∧
      (Drain.mk alone' q t2count t2hash reverseH reverseOrder 0).toWork =
        { queue := singletons t2count len, stack := [], t2count := t2count, t2hash := t2hash } := by
  obtain ⟨alone', q, hscan, hlen, hq, htake⟩ := scanAlone_spec hcount halone
  refine ⟨alone', q, hscan, ⟨hlen, hq, hrev, horder, hsent, Nat.zero_le _⟩, ?_⟩
  unfold Drain.toWork
  simp only [htake, List.take_zero, List.zip_nil_left, List.reverse_nil]

end FastConstMap
