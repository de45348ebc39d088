import FastConstMap.Memory
import FastConstMap.Lib.Runs
import FastConstMap.Proofs.BuiltMapProofs

/-!
# The core neither leaks nor frees twice

With its blocks, each function returns what it returns without them, and what it leaves live is what was
live before and the arrays of the map that it returns. Over a run of a program, the live blocks are
therefore those of its structs, and those that it has overwritten there.
-/

namespace FastConstMap

open CLoop Heaps

variable {τ : Type} {H : Heap} {M : Mem} {rest : List Nat} {rc : Rc}

/-- A function without its blocks and with them, from the heap `M`: both are undefined, or they return
the same, and what is live then are the arrays that it returns, none of them with an error, and what was
live before. -/
inductive SameRun {α : Type} (M : Mem) :
    Option (Rc × α) → Option (Rc × α × List Ptr × Mem) → Prop where
  | undefined : SameRun M none none
  | returns {rc : Rc} {a : α} {arrays : List Ptr} {M' : Mem} (hM : M'.Sound)
      (hlive : M'.live.Perm (blocks arrays ++ M.live)) (herr : rc ≠ .ok → arrays = []) :
      SameRun M (some (rc, a)) (some (rc, a, arrays, M'))

/-- A return before the first allocation. -/
theorem SameRun.early {α : Type} (rc : Rc) (a : α) (hM : M.Sound) :
    SameRun M (some (rc, a)) (some (rc, a, [], M)) :=
  .returns hM (List.Perm.refl _) fun _ => rfl

theorem SameRun.of_returns {α : Type} {a : α} {arrays : List Ptr} {M' : Mem} {x : Option (Rc × α)}
    (h : SameRun M x (some (rc, a, arrays, M'))) :
    M'.Sound ∧ M'.live.Perm (blocks arrays ++ M.live) ∧ (rc ≠ .ok → arrays = []) := by
  cases h with
  | returns hM hlive herr => exact ⟨hM, hlive, herr⟩

/-! ## Peeling -/

section Peeling

variable {hashed : List UInt64} {size : UInt32} {st st' : PeelState} {startPos : Ptr}

/-- An attempt that is defined has a block count. -/
theorem peelIteration_bits {iteration : Nat} {f : Flow}
    (h : peelIteration H hashed size iteration st = some f) :
    ∃ bits, blockBits (adjustSegments size iteration st.params).segmentCount = some bits := by
  obtain ⟨bits, hbits, -⟩ := Option.bind_eq_some_iff.mp h
  exact ⟨bits, hbits⟩

/-- The growth of `start_pos` touches no other block, also when it fails. -/
theorem growStartPos_spec (iteration bits cap : Nat) (hM : M.Sound)
    (hlive : M.live.Perm (startPos.toList ++ rest)) :
    ∃ p M', growStartPos H iteration bits cap startPos M = some (p, M') ∧ M'.Sound ∧
      M'.live.Perm (p.toList ++ rest) := by
  unfold growStartPos
  by_cases hgrow : 2 ^ bits > cap
  · rw [if_pos hgrow]
    cases hok : H.ok (.startPos iteration) with
    | false => exact ⟨startPos, M, rfl, hM, hlive⟩
    | true =>
      obtain ⟨q, M', hrealloc, hlive'⟩ := realloc_spec hlive
      refine ⟨some q, M', ?_, realloc_sound hM hrealloc, hlive'⟩
      rw [hrealloc]
      rfl
  · rw [if_neg hgrow]
    exact ⟨startPos, M, rfl, hM, hlive⟩

/-- The attempt loop frees `start_pos` on every way out. -/
theorem peelFromMem_spec {left iteration : Nat}
    (h : peelFrom H hashed size left iteration st = some (rc, st')) (hM : M.Sound)
    (hlive : M.live.Perm (startPos.toList ++ rest)) :
    ∃ M', peelFromMem H hashed size left iteration st startPos M = some (rc, st', M') ∧ M'.Sound ∧
      M'.live.Perm rest := by
  induction left generalizing iteration st startPos M with
  | zero =>
    obtain ⟨rfl, rfl⟩ := Prod.mk.inj (Option.some.inj h)
    obtain ⟨M', hfree, hlive', -⟩ := free_spec hlive
    refine ⟨M', ?_, free_sound hM hfree, hlive'⟩
    unfold peelFromMem
    rw [hfree]
    rfl
  | succ left ih =>
    obtain ⟨f, hiter, h⟩ := Option.bind_eq_some_iff.mp h
    obtain ⟨bits, hbits⟩ := peelIteration_bits hiter
    obtain ⟨p, M1, hgrow, hM1, hlive1⟩ :=
      growStartPos_spec (H := H) iteration bits st.startPosCap hM hlive
    rw [peelFromMem]
    simp only [hbits, hgrow, hiter, Option.bind_eq_bind, Option.bind_some]
    cases f with
    | ret rc1 st1 =>
      obtain ⟨rfl, rfl⟩ := Prod.mk.inj (Option.some.inj h)
      obtain ⟨M', hfree, hlive', -⟩ := free_spec hlive1
      refine ⟨M', ?_, free_sound hM1 hfree, hlive'⟩
      rw [hfree]
      rfl
    | again st1 => exact ih h hM1 hlive1

/-- The blocks do not change what the attempt loop computes. -/
theorem peelFrom_of_mem {left iteration : Nat} {M' : Mem}
    (h : peelFromMem H hashed size left iteration st startPos M = some (rc, st', M')) :
    peelFrom H hashed size left iteration st = some (rc, st') := by
  induction left generalizing iteration st startPos M with
  | zero =>
    obtain ⟨M1, -, h⟩ := Option.bind_eq_some_iff.mp h
    obtain ⟨rfl, hst⟩ := Prod.mk.inj (Option.some.inj h)
    obtain ⟨rfl, -⟩ := Prod.mk.inj hst
    rfl
  | succ left ih =>
    obtain ⟨bits, -, h⟩ := Option.bind_eq_some_iff.mp h
    obtain ⟨⟨p, M1⟩, -, h⟩ := Option.bind_eq_some_iff.mp h
    obtain ⟨f, hiter, h⟩ := Option.bind_eq_some_iff.mp h
    rw [peelFrom, hiter, Option.bind_eq_bind, Option.bind_some]
    cases f with
    | ret rc1 st1 =>
      obtain ⟨M2, -, h⟩ := Option.bind_eq_some_iff.mp h
      obtain ⟨rfl, hst⟩ := Prod.mk.inj (Option.some.inj h)
      obtain ⟨rfl, -⟩ := Prod.mk.inj hst
      rfl
    | again st1 => exact ih h

variable {params : Params} {alone : List UInt32} {t2count : List UInt8} {t2hash : List UInt64}
  {reverseH : List UInt8} {reverseOrder : List UInt64}

theorem peelMem_spec (h : peel H hashed size params alone t2count t2hash reverseH reverseOrder =
      some (rc, st')) (hM : M.Sound) :
    ∃ M', peelMem H hashed size params alone t2count t2hash reverseH reverseOrder M =
      some (rc, st', M') ∧ M'.Sound ∧ M'.live.Perm M.live := by
  obtain ⟨ro, hstore, h⟩ := Option.bind_eq_some_iff.mp h
  have hnull : M.live.Perm (Option.toList none ++ M.live) := List.Perm.refl _
  obtain ⟨M', hmem, hM', hlive⟩ := peelFromMem_spec h hM hnull
  refine ⟨M', ?_, hM', hlive⟩
  unfold peelMem
  simp only [hstore, Option.bind_eq_bind, Option.bind_some]
  exact hmem

theorem peel_of_mem {M' : Mem}
    (h : peelMem H hashed size params alone t2count t2hash reverseH reverseOrder M =
      some (rc, st', M')) :
    peel H hashed size params alone t2count t2hash reverseH reverseOrder = some (rc, st') := by
  obtain ⟨ro, hstore, h⟩ := Option.bind_eq_some_iff.mp h
  unfold peel
  simp only [hstore, Option.bind_eq_bind, Option.bind_some]
  exact peelFrom_of_mem h

theorem peelMem_eq_none
    (h : peel H hashed size params alone t2count t2hash reverseH reverseOrder = none) :
    peelMem H hashed size params alone t2count t2hash reverseH reverseOrder M = none := by
  rw [Option.eq_none_iff_forall_ne_some] at h ⊢
  intro r hr
  exact h _ (peel_of_mem hr)

end Peeling

/-! ## Construction -/

/-- A null pointer among those that were allocated says that an allocation failed. -/
theorem none_mem_mallocAll (oks : List Bool) (M : Mem) :
    none ∈ (mallocAll oks M).1 ↔ false ∈ oks := by
  have hsome := mallocAll_isSome oks M
  constructor
  · intro hmem
    rw [← hsome]
    exact List.mem_map_of_mem hmem
  · intro hmem
    rw [← hsome] at hmem
    obtain ⟨p, hp, hnone⟩ := List.mem_map.mp hmem
    rw [Option.isSome_eq_false_iff, Option.isNone_iff_eq_none] at hnone
    exact hnone ▸ hp

/-- What the allocations of a constructor leave. -/
structure Allocated (Ly : Layout τ) (H : Heap) (M : Mem) (hashedPtr : Ptr) (arrays later : List Ptr)
    (M' : Mem) : Prop where
  sound : M'.Sound
  live : M'.live.Perm (blocks (hashedPtr :: later) ++ (blocks arrays ++ M.live))
  failed_iff : none ∈ hashedPtr :: (arrays ++ later) ↔
    ¬ ∀ b ∈ scratchBuffers ++ Ly.buffers, H.ok b = true

theorem allocBuffers_spec {Ly : Layout τ} {hashedPtr : Ptr} {arrays later : List Ptr} {M' : Mem}
    (h : allocBuffers Ly H M = (hashedPtr, arrays, later, M')) (hM : M.Sound) :
    Allocated Ly H M hashedPtr arrays later M' := by
  have hM1 := malloc_sound (H.ok .hashed) hM
  have hlive1 := malloc_live (H.ok .hashed) M
  rcases hr1 : malloc (H.ok .hashed) M with ⟨p, M1⟩
  rw [hr1] at hM1 hlive1
  have hnone1 : none = p ↔ H.ok .hashed = false := eq_comm.trans (malloc_eq_none hr1)
  have hM2 := mallocAll_sound (Ly.buffers.map H.ok) hM1
  have hlive2 := mallocAll_live (Ly.buffers.map H.ok) M1
  have hnone2 := none_mem_mallocAll (Ly.buffers.map H.ok) M1
  rcases hr2 : mallocAll (Ly.buffers.map H.ok) M1 with ⟨ps, M2⟩
  rw [hr2] at hM2 hlive2 hnone2
  have hM3 := mallocAll_sound (laterBuffers.map H.ok) hM2
  have hlive3 := mallocAll_live (laterBuffers.map H.ok) M2
  have hnone3 := none_mem_mallocAll (laterBuffers.map H.ok) M2
  rcases hr3 : mallocAll (laterBuffers.map H.ok) M2 with ⟨qs, M3⟩
  rw [hr3] at hM3 hlive3 hnone3
  simp only [allocBuffers, hr1, hr2, hr3, Prod.mk.injEq] at h
  obtain ⟨rfl, rfl, rfl, rfl⟩ := h
  refine ⟨hM3, hlive3.trans ?_, ?_⟩
  · rw [hlive1] at hlive2
    rw [List.perm_iff_count] at hlive2 ⊢
    intro b
    have hcount := hlive2 b
    simp only [List.count_append, blocks_cons] at hcount ⊢
    omega
  · rw [List.mem_cons, List.mem_append, hnone1, hnone2, hnone3]
    simp only [scratchBuffers, laterBuffers, List.mem_map, List.mem_append, List.mem_cons,
      List.not_mem_nil, or_false]
    grind

/-- The cleanup after an error frees the arrays with the rest. -/
theorem Allocated.live_all {Ly : Layout τ} {hashedPtr : Ptr} {arrays later : List Ptr} {M' : Mem}
    (h : Allocated Ly H M hashedPtr arrays later M') :
    M'.live.Perm (blocks (hashedPtr :: (arrays ++ later)) ++ M.live) := by
  refine h.live.trans ?_
  rw [blocks_cons, blocks_cons, blocks_append, List.perm_iff_count]
  intro b
  simp only [List.count_append]
  omega

section Construction

variable {Ly : Layout τ} {E : Env} {out : MapOf τ} {entries : List (Bytes × UInt64)} {hash : UInt32}

/-- A constructor leaves the arrays of its map, and nothing if it fails. -/
theorem newWithHash_sameRun (hM : M.Sound) :
    SameRun M (newWithHash Ly E H out entries hash) (newWithHashMem Ly E H out entries hash M) := by
  unfold newWithHash newWithHashMem
  by_cases hno : hash ≠ HASH_XXH64 ∧ hash ≠ HASH_XXH3
  · rw [if_pos hno, if_pos hno]
    exact .early _ _ hM
  rw [if_neg hno, if_neg hno]
  simp only
  by_cases hnil : entries.length = 0
  · rw [if_pos hnil, if_pos hnil]
    exact .early _ _ hM
  rw [if_neg hnil, if_neg hnil]
  by_cases hlong : entries.length > 0xFFFFFFFF
  · rw [if_pos hlong, if_pos hlong]
    exact .early _ _ hM
  rw [if_neg hlong, if_neg hlong]
  rcases halloc : allocBuffers Ly H M with ⟨hashedPtr, arrays, later, M1⟩
  have hall := allocBuffers_spec halloc hM
  simp only
  by_cases hnomem : ¬ ∀ b ∈ scratchBuffers ++ Ly.buffers, H.ok b = true
  · rw [if_pos hnomem, if_pos (hall.failed_iff.mpr hnomem)]
    obtain ⟨M', hfree, hlive⟩ := freeAll_spec hall.live_all
    rw [hfree]
    exact .returns (freeAll_sound hall.sound hfree) hlive fun _ => rfl
  rw [if_neg hnomem, if_neg (mt hall.failed_iff.mp hnomem)]
  generalize hpeel : peel H _ _ _ _ _ _ _ _ = r
  cases r with
  | none =>
    rw [peelMem_eq_none hpeel]
    exact .undefined
  | some r =>
    obtain ⟨M2, hmem, hM2, hlive2⟩ := peelMem_spec hpeel hall.sound
    simp only [hmem, Option.bind_eq_bind, Option.bind_some]
    by_cases hrc : r.1 ≠ .ok
    · rw [if_pos hrc, if_pos hrc]
      obtain ⟨M', hfree, hlive⟩ := freeAll_spec (hlive2.trans hall.live_all)
      rw [hfree]
      exact .returns (freeAll_sound hM2 hfree) hlive fun _ => rfl
    rw [if_neg hrc, if_neg hrc]
    generalize assign Ly _ _ _ _ _ _ _ = t
    cases t with
    | none => exact .undefined
    | some table =>
      obtain ⟨M', hfree, hlive⟩ := freeAll_spec (hlive2.trans hall.live)
      rw [hfree]
      exact .returns (freeAll_sound hM2 hfree) hlive fun hne => absurd rfl hne

end Construction

/-! ## Readers -/

/-- A reader leaves the arrays of its map, and nothing if it fails. -/
theorem read_sameRun (Cd : Codec τ) (w : Nat) (H : Heap) (p : Bytes) (hM : M.Sound) :
    SameRun M (read Cd w H p) (readMem Cd w H p M) := by
  unfold read readMem
  cases parse w Cd.formats Cd.entryBytes p with
  | none => exact .undefined
  | some r =>
    cases r with
    | error rc => exact .early _ _ hM
    | ok h =>
      simp only [Option.bind_eq_bind, Option.bind_some]
      by_cases hparams : Cd.paramsOk h.segmentLength h.segmentCount h.dataLen = false
      · rw [if_pos hparams, if_pos hparams]
        exact .early _ _ hM
      rw [if_neg hparams, if_neg hparams]
      by_cases hlen : h.dataLen > 0
      · rw [if_pos hlen, if_pos hlen]
        have hM1 := mallocAll_sound (Cd.layout.buffers.map H.ok) hM
        have hlive1 := mallocAll_live (Cd.layout.buffers.map H.ok) M
        have hnone := none_mem_mallocAll (Cd.layout.buffers.map H.ok) M
        rcases halloc : mallocAll (Cd.layout.buffers.map H.ok) M with ⟨arrays, M1⟩
        rw [halloc] at hM1 hlive1 hnone
        have hfailed : none ∈ arrays ↔ ¬ ∀ b ∈ Cd.layout.buffers, H.ok b = true := by
          simpa using hnone
        simp only
        by_cases hnomem : ¬ ∀ b ∈ Cd.layout.buffers, H.ok b = true
        · rw [if_pos hnomem, if_pos (hfailed.mpr hnomem)]
          obtain ⟨M', hfree, hlive⟩ := freeAll_spec hlive1
          rw [hfree]
          exact .returns (freeAll_sound hM1 hfree) hlive fun _ => rfl
        rw [if_neg hnomem, if_neg (mt hfailed.mp hnomem)]
        cases Cd.decode w p h.payload h.dataLen.toNat with
        | none => exact .undefined
        | some table => exact .returns hM1 hlive1 fun hne => absurd rfl hne
      · rw [if_neg hlen, if_neg hlen]
        exact .early _ _ hM

/-! ## Programs -/

/-- The live blocks are those of the structs and those that were overwritten in one. -/
structure CoreState.Accounted (s : CoreState) : Prop where
  sound : s.mem.Sound
  live : s.mem.live.Perm (s.structs.flatMap blocks ++ blocks s.lost)

theorem CoreState.accounted_of_initial {s : CoreState} (h : s.Initial) : s.Accounted := by
  obtain ⟨mem, structs, lost⟩ := s
  obtain ⟨rfl, rfl, rfl⟩ := h
  exact ⟨⟨List.nodup_nil, fun _ hb => absurd hb List.not_mem_nil⟩, List.Perm.refl _⟩

section Programs

variable {s s' : CoreState} {c : CoreCall} {i : Nat} {old arrays : List Ptr} {M' : Mem}

/-- What a function returns belongs to its struct, and what the struct had is lost. -/
theorem CoreState.Accounted.overwrite (hs : s.Accounted) (hi : s.structs[i]? = some old)
    {α : Type} {a : α} {x : Option (Rc × α)} (h : SameRun s.mem x (some (rc, a, arrays, M'))) :
    (s.overwrite i old arrays M').Accounted := by
  obtain ⟨hM, hlive, -⟩ := h.of_returns
  obtain ⟨rest, hhad, hset⟩ := flatMap_set_perm blocks hi
  refine ⟨hM, hlive.trans ?_⟩
  calc blocks arrays ++ s.mem.live
      _ |>.Perm (blocks arrays ++ (s.structs.flatMap blocks ++ blocks s.lost)) :=
        hs.live.append_left _
      _ |>.Perm (blocks arrays ++ ((blocks old ++ rest) ++ blocks s.lost)) :=
        (hhad.append_right _).append_left _
      _ |>.Perm (blocks arrays ++ (rest ++ (blocks old ++ blocks s.lost))) := by
        rw [List.append_assoc]
        exact (List.perm_append_comm_assoc ..).append_left _
      _ |>.Perm ((s.structs.set i arrays).flatMap blocks ++ blocks (old ++ s.lost)) := by
        rw [← List.append_assoc, blocks_append]
        exact ((hset arrays).symm).append_right _

/-- The map of a struct can be freed. -/
theorem CoreState.Accounted.freed (hs : s.Accounted) (hi : s.structs[i]? = some arrays) :
    ∃ M', freeAll arrays s.mem = some M' ∧
      CoreState.Accounted ⟨M', s.structs.set i [], s.lost⟩ := by
  obtain ⟨rest, hhad, hset⟩ := flatMap_set_perm blocks hi
  have hlive : s.mem.live.Perm (blocks arrays ++ (rest ++ blocks s.lost)) := by
    rw [← List.append_assoc]
    exact hs.live.trans (hhad.append_right _)
  obtain ⟨M', hfree, hlive'⟩ := freeAll_spec hlive
  exact ⟨M', hfree, freeAll_sound hs.sound hfree, hlive'.trans ((hset []).symm.append_right _)⟩

theorem CoreStep.accounted (hs : s.Accounted) (h : CoreStep s c s') : s'.Accounted := by
  cases h with
  | zero =>
    refine ⟨hs.sound, ?_⟩
    rw [List.flatMap_append]
    simpa using hs.live
  | @new i old τ Ly E H out entries hash rc m arrays M hi h =>
    by_cases hknown : KnownHash hash
    · rw [if_pos hknown]
      exact hs.overwrite hi (h ▸ newWithHash_sameRun hs.sound)
    · rw [if_neg hknown]
      exact hs
  | read hi h => exact hs.overwrite hi (h ▸ read_sameRun _ _ _ _ hs.sound)
  | free hi h =>
    obtain ⟨M', hfree, hs'⟩ := hs.freed hi
    obtain rfl := Option.some.inj (hfree.symm.trans h)
    exact hs'

/-- A careful call loses nothing. -/
theorem CoreStep.lost_of_careful (h : CoreStep s c s') (hc : c.Careful s) : s'.lost = s.lost := by
  cases h with
  | zero => rfl
  | @new i old τ Ly E H out entries hash rc m arrays M hi h =>
    obtain rfl := Option.some.inj (hi.symm.trans hc)
    split_ifs <;> rfl
  | read hi h =>
    obtain rfl := Option.some.inj (hi.symm.trans hc)
    rfl
  | free => rfl

/-- A program of careful calls loses nothing. -/
theorem CoreState.lost_of_careful
    (hs : Runs.Reachable (fun s c s' => CoreStep s c s' ∧ c.Careful s) CoreState.Initial s) :
    s.lost = [] := by
  obtain ⟨s₀, h₀, hrun⟩ := hs
  refine hrun.invariant (fun s => s.lost = []) ?_ h₀.2.2
  rintro s c s' hlost ⟨hstep, hc⟩
  exact (hstep.lost_of_careful hc).trans hlost

/-- Whatever a program has built, read and freed in its structs, with any allocator: no block is live
twice, the live blocks are those of its structs and those that a constructor or a reader has overwritten,
of which a careful program has none, each struct can be freed, and the constructors and the readers do
what they do on values, leaving only what they return. -/
theorem no_leak (hs : Runs.Reachable CoreStep CoreState.Initial s) :
    s.mem.Sound ∧ s.mem.live.Perm (s.structs.flatMap blocks ++ blocks s.lost) ∧
    (Runs.Reachable (fun s c s' => CoreStep s c s' ∧ c.Careful s) CoreState.Initial s →
      s.lost = []) ∧
    (∀ i, i < s.structs.length →
      ∃ s', CoreStep s (.free i) s' ∧ s'.structs = s.structs.set i [] ∧ s'.lost = s.lost) ∧
    (∀ (τ : Type) (Ly : Layout τ) (E : Env) (H : Heap) (out : MapOf τ)
      (entries : List (Bytes × UInt64)) (hash : UInt32),
      SameRun s.mem (newWithHash Ly E H out entries hash)
        (newWithHashMem Ly E H out entries hash s.mem)) ∧
    ∀ (τ : Type) (Cd : Codec τ) (w : Nat) (H : Heap) (p : Bytes),
      SameRun s.mem (read Cd w H p) (readMem Cd w H p s.mem) := by
  have hacc : s.Accounted :=
    hs.invariant (fun _ => CoreState.accounted_of_initial) fun _ _ _ => CoreStep.accounted
  refine ⟨hacc.sound, hacc.live, CoreState.lost_of_careful, ?_, ?_, ?_⟩
  · intro i hi
    obtain ⟨M', hfree, -⟩ := hacc.freed (List.getElem?_eq_getElem hi)
    exact ⟨_, .free (List.getElem?_eq_getElem hi) hfree, rfl, rfl⟩
  · exact fun τ Ly E H out entries hash => newWithHash_sameRun hacc.sound
  · exact fun τ Cd w H p => read_sameRun Cd w H p hacc.sound

/-- A verified map is built in a struct that holds one: its two arrays are lost, and those of the second
map can be freed. -/
theorem no_leak_two : ∃ s : CoreState, Runs.Reachable CoreStep CoreState.Initial s ∧
    s.structs = [[some 11, some 12]] ∧ s.lost = [some 1, some 2] ∧ s.mem.live.Perm [11, 12, 1, 2] ∧
    ∃ s', CoreStep s (.free 0) s' ∧ s'.structs = [[]] ∧ s'.lost = [some 1, some 2] := by
  let build := newWithHashMem verifiedLayout smallEnv smallHeap verifiedLayout.zeroMap
    [([0x61], 100), ([0x62], 200)] HASH_XXH64
  let seen := fun r : Rc × VerifiedConstMap × List Ptr × Mem =>
    (r.1, r.2.2.1, r.2.2.2.next, r.2.2.2.live)
  have hbuild : ∀ M r, (build M).map seen = some r →
      ∃ m, build M = some (r.1, m, r.2.1, ⟨r.2.2.1, r.2.2.2⟩) := by
    intro M r h
    obtain ⟨⟨rc, m, arrays, M'⟩, hnew, rfl⟩ := Option.map_eq_some_iff.mp h
    exact ⟨m, hnew⟩
  obtain ⟨m, h1⟩ := hbuild ⟨0, []⟩ (.ok, [some 1, some 2], 10, [2, 1]) (by decide +kernel)
  obtain ⟨m', h2⟩ := hbuild ⟨10, [2, 1]⟩ (.ok, [some 11, some 12], 20, [12, 11, 2, 1])
    (by decide +kernel)
  let s1 : CoreState := ⟨⟨0, []⟩, [[]], []⟩
  let s2 : CoreState := ⟨⟨10, [2, 1]⟩, [[some 1, some 2]], []⟩
  let s3 : CoreState := ⟨⟨20, [12, 11, 2, 1]⟩, [[some 11, some 12]], [some 1, some 2]⟩
  have hstep0 : CoreStep ⟨⟨0, []⟩, [], []⟩ .zero s1 := .zero
  have hstep1 : CoreStep s1 (.new 0 .ok) s2 := by
    have h := CoreStep.new (s := s1) (i := 0) rfl h1
    rwa [if_pos (Or.inl rfl)] at h
  have hstep2 : CoreStep s2 (.new 0 .ok) s3 := by
    have h := CoreStep.new (s := s2) (i := 0) rfl h2
    rwa [if_pos (Or.inl rfl)] at h
  have hreach : Runs.Reachable CoreStep CoreState.Initial s3 :=
    ⟨_, ⟨rfl, rfl, rfl⟩, ((Runs.Steps.single hstep0).trans (.single hstep1)).trans (.single hstep2)⟩
  obtain ⟨-, hlive, -, hfree, -, -⟩ := no_leak hreach
  exact ⟨s3, hreach, rfl, rfl, hlive, hfree 0 Nat.one_pos⟩

end Programs

end FastConstMap
