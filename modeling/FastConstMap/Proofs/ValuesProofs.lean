import FastConstMap.Proofs.BuiltMapProofs

/-!
# Proofs: what the values do to a map

The search of a constructor sees the keys only. So the values neither decide whether it succeeds nor change
anything but the value words, and these depend on them linearly.
-/

namespace FastConstMap

open CLoop Peeling

/-! ## Solutions -/

section Solution

variable (q : Params) (S : List (UInt64 × Fin 3))

theorem solution_value (val : UInt64 → UInt64) : (fun i => (solution q val S i).value) =
    S.foldl (Peeling.assign (· ^^^ ·) val q.pos) fun _ => 0 :=
  foldl_assign_map Slot.xor (fun hash => entrySlot (val hash) hash) (· ^^^ ·) Slot.value
    (fun _ _ => rfl) S _

theorem solution_check (val : UInt64 → UInt64) : (fun i => (solution q val S i).check) =
    S.foldl (Peeling.assign (· ^^^ ·) fingerprint q.pos) fun _ => 0 :=
  foldl_assign_map Slot.xor (fun hash => entrySlot (val hash) hash) (· ^^^ ·) Slot.check
    (fun _ _ => rfl) S _

/-- The check words do not depend on the values. -/
theorem solution_check_eq (v w : UInt64 → UInt64) (i : Nat) :
    (solution q v S i).check = (solution q w S i).check :=
  congrFun ((solution_check q S v).trans (solution_check q S w).symm) i

/-- The value words are linear in the values. -/
theorem solution_xor {u v w : UInt64 → UInt64} (h : ∀ e ∈ S, u e.1 = v e.1 ^^^ w e.1) (i : Nat) :
    (solution q u S i).value = (solution q v S i).value ^^^ (solution q w S i).value := by
  have hlinear : S.foldl (Peeling.assign _ _ q.pos) _ = _ :=
    foldl_assign_op (fun a b : UInt64 => a ^^^ b) v w S (fun _ => 0) fun _ => 0
  rw [← foldl_assign_congr _ _ h, ← solution_value, ← solution_value] at hlinear
  exact (congrFun (solution_value q S u) i).trans (congrFun hlinear i)

end Solution

/-! ## Rows -/

/-- Rows of a key and two values, as entries with one value. -/
def withValues (rows : List (Bytes × UInt64 × UInt64)) (g : UInt64 × UInt64 → UInt64) :
    List (Bytes × UInt64) := rows.map fun r => (r.1, g r.2)

section Rows

variable {τ : Type} {Ly : Layout τ} {Rep : τ → Nat → (Nat → Slot) → Prop}
  {answer : Slot → UInt64 → UInt64} {E : Env} {hash : UInt32}
  {rows : List (Bytes × UInt64 × UInt64)} {g : UInt64 × UInt64 → UInt64} {q : Params}
  {S : List (UInt64 × Fin 3)}

theorem hashed_withValues (E : Env) (hash : UInt32) (rows : List (Bytes × UInt64 × UInt64))
    (g : UInt64 × UInt64 → UInt64) :
    E.hashed hash (withValues rows g) = rows.map fun r => hashKey E.keyHash hash r.1 := by
  rw [Env.hashed, withValues, List.map_map]
  rfl

/-- Every hash of the stack is that of a row, and finds the value of the row. -/
theorem Env.Solves.exists_row (h : E.Solves hash (withValues rows g) q S) {e : UInt64 × Fin 3}
    (he : e ∈ S) : ∃ r ∈ rows, mixsplit (hashKey E.keyHash hash r.1) q.seed = e.1 := by
  have hmem := h.perm.mem_iff.mp (List.mem_map_of_mem he)
  rw [hashed_withValues, Params.mixed, List.map_map] at hmem
  exact List.mem_map.mp hmem

theorem Env.Solves.valueOf_row (h : E.Solves hash (withValues rows g) q S)
    {r : Bytes × UInt64 × UInt64} (hr : r ∈ rows) :
    E.valueOf hash (withValues rows g) q (mixsplit (hashKey E.keyHash hash r.1) q.seed) = g r.2 := by
  have hmem : (r.1, g r.2) ∈ withValues rows g := List.mem_map.mpr ⟨r, hr, rfl⟩
  exact h.valueOf_entry (e := (r.1, g r.2)) hmem

/-- The values of the three stacks. -/
theorem Env.Solves.valueOf_xor (h : E.Solves hash (withValues rows Prod.fst) q S)
    (h' : E.Solves hash (withValues rows Prod.snd) q S)
    (h'' : E.Solves hash (withValues rows fun p => p.1 ^^^ p.2) q S) :
    ∀ e ∈ S, E.valueOf hash (withValues rows fun p => p.1 ^^^ p.2) q e.1 =
      E.valueOf hash (withValues rows Prod.fst) q e.1 ^^^
        E.valueOf hash (withValues rows Prod.snd) q e.1 := by
  intro e he
  obtain ⟨r, hr, hmix⟩ := h.exists_row he
  rw [← hmix, h.valueOf_row hr, h'.valueOf_row hr, h''.valueOf_row hr]

/-- What a constructor makes of the rows with the first values, with the second ones and with their XOR:
one error, three empty maps, or three maps with one header, one stack and slots that add up. -/
theorem newWithHash_xor (hLy : Ly.Lawful Rep answer) (E : Env) (hash : UInt32)
    (rows : List (Bytes × UInt64 × UInt64)) (hlen : rows.length < 2 ^ 31) {H H' H'' : Heap}
    (hok : ∀ b, H.ok b = true) (hok' : ∀ b, H'.ok b = true) (hok'' : ∀ b, H''.ok b = true)
    (out out' out'' : MapOf τ) :
    ∃ rc m m' m'', newWithHash Ly E H out (withValues rows Prod.fst) hash = some (rc, m) ∧
      newWithHash Ly E H' out' (withValues rows Prod.snd) hash = some (rc, m') ∧
      newWithHash Ly E H'' out'' (withValues rows fun p => p.1 ^^^ p.2) hash = some (rc, m'') ∧
      (rc = .ok →
        (m = Ly.emptyMap hash ∧ m' = Ly.emptyMap hash ∧ m'' = Ly.emptyMap hash) ∨
        ∃ (q : Params) (n : UInt32) (f f' f'' : Nat → Slot) (t t' t'' : τ),
          m = q.toMap n hash t ∧ m' = q.toMap n hash t' ∧ m'' = q.toMap n hash t'' ∧
          Rep t q.arrayLen.toNat f ∧ Rep t' q.arrayLen.toNat f' ∧ Rep t'' q.arrayLen.toNat f'' ∧
          ∀ i, (f'' i).value = (f i).value ^^^ (f' i).value ∧ (f' i).check = (f i).check ∧
            (f'' i).check = (f i).check) := by
  have hlength : ∀ g, (withValues rows g).length = rows.length := fun g => List.length_map ..
  by_cases hknown : KnownHash hash
  · rcases Nat.eq_zero_or_pos rows.length with h0 | hpos
    · obtain rfl := List.length_eq_zero_iff.mp h0
      exact ⟨.ok, _, _, _, newWithHash_nil hknown out, newWithHash_nil hknown out',
        newWithHash_nil hknown out'', fun _ => Or.inl ⟨rfl, rfl, rfl⟩⟩
    have hspec : ∀ (g : UInt64 × UInt64 → UInt64) (H : Heap) (out : MapOf τ),
        (∀ b, H.ok b = true) →
        ∃ o, search (initParams E.libm (UInt32.ofNat rows.length)) (UInt32.ofNat rows.length)
            (rows.map fun r => hashKey E.keyHash hash r.1) = some o ∧
          (o.rc ≠ .ok →
            newWithHash Ly E H out (withValues rows g) hash = some (o.rc, Ly.emptyMap hash)) ∧
          ∀ q T, o = .ok q T → ∃ S t, T = stackBytes S ∧ E.Solves hash (withValues rows g) q S ∧
            Rep t q.arrayLen.toNat (solution q (E.valueOf hash (withValues rows g) q) S) ∧
            newWithHash Ly E H out (withValues rows g) hash =
              some (.ok, q.toMap (UInt32.ofNat rows.length) hash t) := by
      intro g H out hH
      have hpos' : 0 < (withValues rows g).length := (hlength g).symm ▸ hpos
      have h := newWithHash_spec E H out hLy hknown hpos' (by rw [hlength]; exact hlen)
      rw [hlength, hashed_withValues] at h
      refine h.resolve_left ?_
      rintro ⟨-, b, hb⟩
      rw [hH] at hb
      exact absurd hb (by decide)
    obtain ⟨o, ho, herr, hslots⟩ := hspec Prod.fst H out hok
    obtain ⟨o', ho', herr', hslots'⟩ := hspec Prod.snd H' out' hok'
    obtain ⟨o'', ho'', herr'', hslots''⟩ := hspec (fun p => p.1 ^^^ p.2) H'' out'' hok''
    -- One search, with one outcome.
    obtain rfl : o = o' := Option.some.inj (ho.symm.trans ho')
    obtain rfl : o = o'' := Option.some.inj (ho.symm.trans ho'')
    by_cases hrc : o.rc = .ok
    · obtain ⟨q, T, rfl⟩ := Outcome.ok_of_rc hrc
      obtain ⟨S, t, rfl, hS, hrep, hnew⟩ := hslots q T rfl
      obtain ⟨S', t', hT', hS', hrep', hnew'⟩ := hslots' q _ rfl
      obtain ⟨S'', t'', hT'', hS'', hrep'', hnew''⟩ := hslots'' q _ rfl
      obtain rfl := stackBytes_injective hT'
      obtain rfl := stackBytes_injective hT''
      refine ⟨.ok, _, _, _, hnew, hnew', hnew'', fun _ => Or.inr
        ⟨q, _, _, _, _, t, t', t'', rfl, rfl, rfl, hrep, hrep', hrep'', fun i => ⟨?_, ?_, ?_⟩⟩⟩
      · exact solution_xor q S (hS.valueOf_xor hS' hS'') i
      · exact solution_check_eq q S _ _ i
      · exact solution_check_eq q S _ _ i
    · exact ⟨o.rc, _, _, _, herr hrc, herr' hrc, herr'' hrc, fun h => absurd h hrc⟩
  · exact ⟨.invalidFormat, out, out', out'', newWithHash_unknown hknown out,
      newWithHash_unknown hknown out', newWithHash_unknown hknown out'', fun h => absurd h (by decide)⟩

end Rows

/-- The values do not decide whether a constructor succeeds, and nothing but the value words of the map
depends on them; these are linear: the words for the XOR of two value arrays are the XORs of their
words. -/
theorem values_linear (E : Env) (hash : UInt32) (rows : List (Bytes × UInt64 × UInt64))
    (hn : rows.length ≤ 2 ^ 31 - 1) (H H' H'' : Heap) (hok : ∀ b, H.ok b = true)
    (hok' : ∀ b, H'.ok b = true) (hok'' : ∀ b, H''.ok b = true) :
    (∀ out out' out'', ∃ rc cm cm' cm'',
      constmapNewWithHash E H out (withValues rows Prod.fst) hash = some (rc, cm) ∧
      constmapNewWithHash E H' out' (withValues rows Prod.snd) hash = some (rc, cm') ∧
      constmapNewWithHash E H'' out'' (withValues rows fun p => p.1 ^^^ p.2) hash = some (rc, cm'') ∧
      (rc = .ok → cm.header = cm'.header ∧ cm.header = cm''.header ∧
        cm''.table = List.zipWith (· ^^^ ·) cm.table cm'.table)) ∧
    (∀ out out' out'', ∃ rc vm vm' vm'',
      verifiedConstmapNewWithHash E H out (withValues rows Prod.fst) hash = some (rc, vm) ∧
      verifiedConstmapNewWithHash E H' out' (withValues rows Prod.snd) hash = some (rc, vm') ∧
      verifiedConstmapNewWithHash E H'' out'' (withValues rows fun p => p.1 ^^^ p.2) hash =
        some (rc, vm'') ∧
      (rc = .ok → vm.header = vm'.header ∧ vm.header = vm''.header ∧
        vm.table.checks = vm'.table.checks ∧ vm.table.checks = vm''.table.checks ∧
        vm''.table.data = List.zipWith (· ^^^ ·) vm.table.data vm'.table.data)) ∧
    ∀ out out' out'', ∃ rc pm pm' pm'',
      pairedVerifiedConstmapNewWithHash E H out (withValues rows Prod.fst) hash = some (rc, pm) ∧
      pairedVerifiedConstmapNewWithHash E H' out' (withValues rows Prod.snd) hash = some (rc, pm') ∧
      pairedVerifiedConstmapNewWithHash E H'' out'' (withValues rows fun p => p.1 ^^^ p.2) hash =
        some (rc, pm'') ∧
      (rc = .ok → pm.header = pm'.header ∧ pm.header = pm''.header ∧
        pm.table.map Slot.check = pm'.table.map Slot.check ∧
        pm''.table =
          List.zipWith (fun s s' => ⟨s.value ^^^ s'.value, s.check⟩) pm.table pm'.table) := by
  have hlen : rows.length < 2 ^ 31 := by omega
  refine ⟨?_, ?_, ?_⟩
  · intro out out' out''
    obtain ⟨rc, m, m', m'', h, h', h'', hm⟩ :=
      newWithHash_xor constmapLayout_lawful E hash rows hlen hok hok' hok'' out out' out''
    refine ⟨rc, m, m', m'', h, h', h'', fun hrc => ?_⟩
    obtain ⟨rfl, rfl, rfl⟩ | ⟨q, n, f, f', f'', t, t', t'', rfl, rfl, rfl, hr, hr', hr'', hf⟩ := hm hrc
    · exact ⟨rfl, rfl, rfl⟩
    · exact ⟨rfl, rfl, hr''.ext ((hr.zipWith (· ^^^ ·) hr').congr fun i _ => (hf i).1.symm)⟩
  · intro out out' out''
    obtain ⟨rc, m, m', m'', h, h', h'', hm⟩ :=
      newWithHash_xor verifiedLayout_lawful E hash rows hlen hok hok' hok'' out out' out''
    refine ⟨rc, m, m', m'', h, h', h'', fun hrc => ?_⟩
    obtain ⟨rfl, rfl, rfl⟩ | ⟨q, n, f, f', f'', t, t', t'', rfl, rfl, rfl, hr, hr', hr'', hf⟩ := hm hrc
    · exact ⟨rfl, rfl, rfl, rfl, rfl⟩
    · exact ⟨rfl, rfl, hr.2.ext (hr'.2.congr fun i _ => (hf i).2.1),
        hr.2.ext (hr''.2.congr fun i _ => (hf i).2.2),
        hr''.1.ext ((hr.1.zipWith (· ^^^ ·) hr'.1).congr fun i _ => (hf i).1.symm)⟩
  · intro out out' out''
    obtain ⟨rc, m, m', m'', h, h', h'', hm⟩ :=
      newWithHash_xor pairedLayout_lawful E hash rows hlen hok hok' hok'' out out' out''
    refine ⟨rc, m, m', m'', h, h', h'', fun hrc => ?_⟩
    obtain ⟨rfl, rfl, rfl⟩ | ⟨q, n, f, f', f'', t, t', t'', rfl, rfl, rfl, hr, hr', hr'', hf⟩ := hm hrc
    · exact ⟨rfl, rfl, rfl, rfl⟩
    · have hslot : ∀ i, (⟨(f i).value ^^^ (f' i).value, (f i).check⟩ : Slot) = f'' i := by
        intro i
        rw [← (hf i).1, ← (hf i).2.2]
      exact ⟨rfl, rfl, (hr.map Slot.check).ext ((hr'.map Slot.check).congr fun i _ => (hf i).2.1),
        hr''.ext ((hr.zipWith _ hr').congr fun i _ => hslot i)⟩

/-- Two keys, with two values each. -/
theorem values_linear_two : ∃ cm cm' cm'',
    constmapNewWithHash smallEnv smallHeap constmapLayout.zeroMap [([0x61], 100), ([0x62], 200)]
      HASH_XXH64 = some (.ok, cm) ∧
    constmapNewWithHash smallEnv smallHeap constmapLayout.zeroMap [([0x61], 7), ([0x62], 8)]
      HASH_XXH64 = some (.ok, cm') ∧
    constmapNewWithHash smallEnv smallHeap constmapLayout.zeroMap
      [([0x61], 100 ^^^ 7), ([0x62], 200 ^^^ 8)] HASH_XXH64 = some (.ok, cm'') ∧
    cm''.table = List.zipWith (· ^^^ ·) cm.table cm'.table := by
  obtain ⟨rc, cm, cm', cm'', h, h', h'', hxor⟩ := (values_linear smallEnv HASH_XXH64
    [([0x61], 100, 7), ([0x62], 200, 8)] (by decide) smallHeap smallHeap smallHeap (fun _ => rfl)
    (fun _ => rfl) fun _ => rfl).1 constmapLayout.zeroMap constmapLayout.zeroMap constmapLayout.zeroMap
  obtain ⟨m, hm⟩ := exists_ok (x := constmapNewWithHash smallEnv smallHeap constmapLayout.zeroMap
    (withValues [([0x61], 100, 7), ([0x62], 200, 8)] Prod.fst) HASH_XXH64) (by decide +kernel)
  obtain ⟨rfl, -⟩ := Prod.mk.inj (Option.some.inj (hm.symm.trans h))
  exact ⟨cm, cm', cm'', h, h', h'', (hxor rfl).2.2⟩

/-! ## Slots of their own -/

section Slots

variable {τ : Type} {Ly : Layout τ} {Rep : τ → Nat → (Nat → Slot) → Prop}
  {answer : Slot → UInt64 → UInt64} {E : Env} {H : Heap} {hash : UInt32}
  {entries : List (Bytes × UInt64)} {q : Params} {S : List (UInt64 × Fin 3)}

/-- A stack has a slot of its own for each entry, and all other slots stay empty. -/
theorem Env.Solves.slots_le (h : E.Solves hash entries q S) (val : UInt64 → UInt64) :
    entries.length ≤ q.arrayLen.toNat ∧
      ((List.range q.arrayLen.toNat).filter fun i => solution q val S i ≠ ⟨0, 0⟩).length ≤
        entries.length := by
  have hlen : (S.map fun e => q.pos e.1 e.2).length = entries.length := by
    have hperm := h.perm.length_eq
    rw [List.length_map, Params.mixed, List.length_map, Env.hashed, List.length_map] at hperm
    rw [List.length_map, hperm]
  have hnodup := h.elim.nodup_alone
  refine ⟨?_, ?_⟩
  · have hsub : (S.map fun e => q.pos e.1 e.2) ⊆ List.range q.arrayLen.toNat := by
      intro i hi
      obtain ⟨e, -, rfl⟩ := List.mem_map.mp hi
      exact List.mem_range.mpr (h.valid.pos_lt e.1 e.2)
    have hle := (hnodup.subperm hsub).length_le
    rwa [hlen, List.length_range] at hle
  · have hsub : ((List.range q.arrayLen.toNat).filter fun i => solution q val S i ≠ ⟨0, 0⟩) ⊆
        S.map fun e => q.pos e.1 e.2 := by
      intro i hi
      by_contra hno
      have hne : ∀ e ∈ S, q.pos e.1 e.2 ≠ i := fun e he heq => hno (List.mem_map.mpr ⟨e, he, heq⟩)
      have hzero := foldl_assign_of_ne Slot.xor (fun hash => entrySlot (val hash) hash) hne
        fun _ => ⟨0, 0⟩
      simp only [List.mem_filter, decide_eq_true_eq] at hi
      exact hi.2 hzero
    have hle := ((List.nodup_range.filter _).subperm hsub).length_le
    rwa [hlen] at hle

/-- So at most `n` entries of each array are not 0. -/
theorem Env.Solves.nonzero_le (h : E.Solves hash entries q S) {val : UInt64 → UInt64} {α : Type}
    [DecidableEq α] {a : List α} (g : Slot → α)
    (ha : Holds a q.arrayLen.toNat fun i => g (solution q val S i)) :
    (a.filter fun x => x ≠ g ⟨0, 0⟩).length ≤ entries.length := by
  rw [ha.ext (Holds.map_range _ _), List.filter_map, List.length_map]
  refine (List.Sublist.length_le (List.monotone_filter_right _ ?_)).trans (h.slots_le val).2
  intro i hi
  simp only [Function.comp_apply, decide_eq_true_eq] at hi ⊢
  exact fun heq => hi (congrArg g heq)

end Slots

/-- A constructor that succeeds has a slot of its own for each entry: it never builds a map with fewer
slots than entries, and at most `n` words of each array, or slots, are not 0. -/
theorem slots_of_entries (E : Env) (H : Heap) (hash : UInt32) (entries : List (Bytes × UInt64))
    (hn : entries.length ≤ 2 ^ 31 - 1) :
    (∀ out cm, constmapNewWithHash E H out entries hash = some (.ok, cm) →
      entries.length ≤ cm.dataLen.toNat ∧ cm.table.length = cm.dataLen.toNat ∧
        (cm.table.filter fun x => x ≠ 0).length ≤ entries.length) ∧
    (∀ out vm, verifiedConstmapNewWithHash E H out entries hash = some (.ok, vm) →
      entries.length ≤ vm.dataLen.toNat ∧ vm.table.data.length = vm.dataLen.toNat ∧
        vm.table.checks.length = vm.dataLen.toNat ∧
        (vm.table.data.filter fun x => x ≠ 0).length ≤ entries.length ∧
        (vm.table.checks.filter fun x => x ≠ 0).length ≤ entries.length) ∧
    ∀ out pm, pairedVerifiedConstmapNewWithHash E H out entries hash = some (.ok, pm) →
      entries.length ≤ pm.dataLen.toNat ∧ pm.table.length = pm.dataLen.toNat ∧
        (pm.table.filter fun s => s ≠ ⟨0, 0⟩).length ≤ entries.length := by
  have hlen : entries.length < 2 ^ 31 := by omega
  refine ⟨?_, ?_, ?_⟩
  · intro out cm h
    obtain ⟨-, ⟨rfl, rfl⟩ | ⟨-, q, S, table, hS, hrep, rfl⟩⟩ :=
      newWithHash_ok constmapLayout_lawful hlen h
    · exact ⟨Nat.le_refl 0, rfl, Nat.le_refl 0⟩
    · exact ⟨(hS.slots_le fun _ => 0).1, hrep.1, hS.nonzero_le Slot.value hrep⟩
  · intro out vm h
    obtain ⟨-, ⟨rfl, rfl⟩ | ⟨-, q, S, table, hS, hrep, rfl⟩⟩ :=
      newWithHash_ok verifiedLayout_lawful hlen h
    · exact ⟨Nat.le_refl 0, rfl, rfl, Nat.le_refl 0, Nat.le_refl 0⟩
    · exact ⟨(hS.slots_le fun _ => 0).1, hrep.1.1, hrep.2.1, hS.nonzero_le Slot.value hrep.1,
        hS.nonzero_le Slot.check hrep.2⟩
  · intro out pm h
    obtain ⟨-, ⟨rfl, rfl⟩ | ⟨-, q, S, table, hS, hrep, rfl⟩⟩ :=
      newWithHash_ok pairedLayout_lawful hlen h
    · exact ⟨Nat.le_refl 0, rfl, Nat.le_refl 0⟩
    · exact ⟨(hS.slots_le fun _ => 0).1, hrep.1, hS.nonzero_le id hrep⟩

/-- A map of two keys. -/
theorem slots_of_entries_two : ∃ pm,
    pairedVerifiedConstmapNewWithHash smallEnv smallHeap pairedLayout.zeroMap
      [([0x61], 100), ([0x62], 200)] HASH_XXH64 = some (.ok, pm) ∧
    2 ≤ pm.dataLen.toNat ∧ (pm.table.filter fun s => s ≠ ⟨0, 0⟩).length ≤ 2 := by
  obtain ⟨pm, hpm⟩ := exists_ok (x := pairedVerifiedConstmapNewWithHash smallEnv smallHeap
    pairedLayout.zeroMap [([0x61], 100), ([0x62], 200)] HASH_XXH64) (by decide +kernel)
  obtain ⟨hle, -, hzero⟩ := (slots_of_entries smallEnv smallHeap HASH_XXH64
    [([0x61], 100), ([0x62], 200)] (by decide)).2.2 _ pm hpm
  exact ⟨pm, hpm, hle, hzero⟩

end FastConstMap
