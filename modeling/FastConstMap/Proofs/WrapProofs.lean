import FastConstMap.Proofs.ReadProofs

/-!
# Proofs: the length check with 32-bit sizes

The parser computes the size of the whole map in a `size_t`, before it compares it with the length of
the buffer. With 32 bits that size wraps when the header asks for `2^32` bytes or more, and a short
buffer can then pass as a long one.
-/

namespace FastConstMap

open CLoop

/-! ## The check -/

/-- The codec of a map type for the formats of another table. -/
def Codec.withFormats {τ : Type} (Cd : Codec τ) (formats : List Format) : Codec τ :=
  { Cd with formats := formats }

/-- With 32-bit sizes the length check is exact on the buffer `p`: unless the parser returns an error,
it returns a header whose map has room in the buffer, and neither the parser nor the reader touches a
byte outside of it. -/
def Codec.LengthExact {τ : Type} (Cd : Codec τ) (H : Heap) (p : Bytes) : Prop :=
  (∃ rc, parse 32 Cd.formats Cd.entryBytes p = some (.error rc)) ∨
    ∃ h, parse 32 Cd.formats Cd.entryBytes p = some (.ok h) ∧
      h.format.headerSize + h.dataLen.toNat * Cd.entryBytes + 8 ≤ p.length ∧
      ∃ r, read Cd 32 H p = some r

/-- The header of `p` asks for `2^32` bytes or more, but what is left of that size modulo `2^32` has
room in the buffer; and the checksum in front of that place, if there is one, is right. -/
def PassesWrapped (formats : List Format) (entryBytes : Nat) (p : Bytes) : Prop :=
  ∃ f size, (formats.find? fun f => p.take 8 = f.magic) = some f ∧ f.headerSize + 8 ≤ p.length ∧
    size = f.headerSize + (word32At p 24).toNat * entryBytes + 8 ∧ 2 ^ 32 ≤ size ∧
    size % 2 ^ 32 ≤ p.length ∧
    (8 ≤ size % 2 ^ 32 → wordAt p (size % 2 ^ 32 - 8) = fnv1a64 (p.take (size % 2 ^ 32 - 8)))

variable {τ : Type} {Cd : Codec τ} {w : Nat} {H : Heap} {p : Bytes} {f : Format} {h : Header}

/-- When the size leaves no room for the checksum, the parser looks for it outside of the buffer. -/
theorem parse_of_underflow {formats : List Format} {entryBytes : Nat}
    (hfind : (formats.find? fun f => p.take 8 = f.magic) = some f)
    (hheader : f.headerSize = 28 ∨ f.headerSize = 32) (hroom : f.headerSize + 8 ≤ p.length)
    (hp : p.length < 2 ^ w) (h8 : ((headerAt f p).bodySize entryBytes + 8) % 2 ^ w < 8) :
    parse w formats entryBytes p = none := by
  rw [parse_of_format hfind hheader hroom rfl, if_neg (by omega)]
  set size := ((headerAt f p).bodySize entryBytes + 8) % 2 ^ w
  have hsum : (size + 2 ^ w - 8) % 2 ^ w = size + 2 ^ w - 8 := Nat.mod_eq_of_lt (by omega)
  rw [hsum, readU64_eq_none (by omega)]
  rfl

/-- Once the format is known, the condition is about the size that its header asks for. -/
theorem passesWrapped_iff {formats : List Format} {entryBytes : Nat}
    (hfind : (formats.find? fun f => p.take 8 = f.magic) = some f) :
    PassesWrapped formats entryBytes p ↔ f.headerSize + 8 ≤ p.length ∧
      2 ^ 32 ≤ (headerAt f p).bodySize entryBytes + 8 ∧
      ((headerAt f p).bodySize entryBytes + 8) % 2 ^ 32 ≤ p.length ∧
      (8 ≤ ((headerAt f p).bodySize entryBytes + 8) % 2 ^ 32 →
        wordAt p (((headerAt f p).bodySize entryBytes + 8) % 2 ^ 32 - 8) =
          fnv1a64 (p.take (((headerAt f p).bodySize entryBytes + 8) % 2 ^ 32 - 8))) := by
  constructor
  · rintro ⟨g, s, hg, hroom, rfl, hpass⟩
    obtain rfl : f = g := Option.some.inj (hfind.symm.trans hg)
    exact ⟨hroom, hpass⟩
  · rintro ⟨hroom, hpass⟩
    exact ⟨f, _, hfind, hroom, rfl, hpass⟩

/-- A reader whose arrays lie in the buffer returns. -/
theorem read_of_parse (hparse : parse w Cd.formats Cd.entryBytes p = some (.ok h))
    (hdecode : ∃ table, Cd.decode w p h.payload h.dataLen.toNat = some table) :
    ∃ r, read Cd w H p = some r := by
  obtain ⟨table, hdecode⟩ := hdecode
  unfold read
  simp only [hparse, hdecode, Option.bind_eq_bind, Option.bind_some]
  split_ifs <;> exact ⟨_, rfl⟩

/-- A reader whose arrays reach out of the buffer has no result. -/
theorem read_eq_none (hparse : parse w Cd.formats Cd.entryBytes p = some (.ok h))
    (hparams : Cd.paramsOk h.segmentLength h.segmentCount h.dataLen = true) (hlen : h.dataLen > 0)
    (hok : ∀ b, H.ok b = true) (hdecode : Cd.decode w p h.payload h.dataLen.toNat = none) :
    read Cd w H p = none := by
  unfold read
  simp only [hparse, hparams, hlen, hok, hdecode, Option.bind_eq_bind, Option.bind_some]
  simp

/-- The length check is exact on all buffers but those that pass with a wrapped size. -/
theorem Codec.lengthExact_iff (hformats : ∀ f ∈ Cd.formats, f.headerSize = 28 ∨ f.headerSize = 32)
    (hdecode : ∀ off n, n * Cd.entryBytes < 2 ^ 32 → off + n * Cd.entryBytes ≤ p.length →
      Cd.decode 32 p off n = some (Cd.borrow 32 p off n)) (hp : p.length < 2 ^ 32) :
    Cd.LengthExact H p ↔ ¬ PassesWrapped Cd.formats Cd.entryBytes p := by
  -- Where the parser rejects the buffer, nothing passes.
  have herror : ∀ rc, parse 32 Cd.formats Cd.entryBytes p = some (.error rc) →
      ¬ PassesWrapped Cd.formats Cd.entryBytes p →
      (Cd.LengthExact H p ↔ ¬ PassesWrapped Cd.formats Cd.entryBytes p) := by
    intro rc hparse hpass
    exact iff_of_true (Or.inl ⟨rc, hparse⟩) hpass
  cases hfind : Cd.formats.find? fun f => p.take 8 = f.magic with
  | none =>
    have hpass : ¬ PassesWrapped Cd.formats Cd.entryBytes p := by
      rintro ⟨f, size, hf, -⟩
      rw [hfind] at hf
      exact absurd hf (by simp)
    by_cases h8 : p.length < 8
    · exact herror .shortBuffer (by unfold parse; rw [if_pos h8]) hpass
    · exact herror .invalidFormat (by unfold parse; rw [if_neg h8, hfind]) hpass
  | some f =>
    have hheader := hformats f (List.mem_of_find?_eq_some hfind)
    have hiff : PassesWrapped Cd.formats Cd.entryBytes p ↔ _ := passesWrapped_iff hfind
    set size := (headerAt f p).bodySize Cd.entryBytes + 8 with hsize
    have hbody : size = f.headerSize + (word32At p 24).toNat * Cd.entryBytes + 8 := rfl
    by_cases hroom : p.length < f.headerSize + 8
    · refine herror .shortBuffer ?_ (fun hpass => absurd (hiff.mp hpass).1 (by omega))
      unfold parse TRAILER_SIZE
      split_ifs with h8
      · rfl
      · rw [hfind]
        exact if_pos hroom
    have hroom := not_lt.mp hroom
    by_cases h8 : size % 2 ^ 32 < 8
    · -- The checksum would lie in front of the buffer.
      have hnone := parse_of_underflow hfind hheader hroom hp h8
      have hwrap : 2 ^ 32 ≤ size := by
        by_contra hlt
        rw [Nat.mod_eq_of_lt (not_le.mp hlt)] at h8
        omega
      refine iff_of_false ?_ (not_not.mpr (hiff.mpr ⟨hroom, hwrap, by omega, by omega⟩))
      rintro (⟨rc, hparse⟩ | ⟨h, hparse, -⟩)
      · rw [hnone] at hparse
        exact absurd hparse (by simp)
      · rw [hnone] at hparse
        exact absurd hparse (by simp)
    have h8 := not_lt.mp h8
    have hparse := parse_of_size hfind hheader hroom rfl h8
    by_cases hshort : p.length < size % 2 ^ 32
    · rw [if_pos hshort] at hparse
      exact herror _ hparse fun hpass => absurd (hiff.mp hpass).2.2.1 (by omega)
    by_cases hsum : wordAt p (size % 2 ^ 32 - 8) ≠ fnv1a64 (p.take (size % 2 ^ 32 - 8))
    · rw [if_neg hshort, if_pos hsum] at hparse
      exact herror _ hparse fun hpass => hsum ((hiff.mp hpass).2.2.2 h8)
    rw [if_neg hshort, if_neg hsum] at hparse
    by_cases hwrap : 2 ^ 32 ≤ size
    · -- The buffer is accepted, though it is shorter than what its header asks for.
      refine iff_of_false ?_ (not_not.mpr
        (hiff.mpr ⟨hroom, hwrap, not_lt.mp hshort, fun _ => not_not.mp hsum⟩))
      rintro (⟨rc, herr⟩ | ⟨h, hok, hfits, -⟩)
      · rw [hparse] at herr
        exact absurd herr (by simp)
      · rw [hparse] at hok
        obtain rfl : headerAt f p = h := by simpa using hok
        have hsize' : size ≤ p.length := hfits
        omega
    · rw [Nat.mod_eq_of_lt (not_le.mp hwrap)] at hshort
      refine iff_of_true (Or.inr ⟨headerAt f p, hparse, not_lt.mp hshort, ?_⟩)
        fun hpass => hwrap (hiff.mp hpass).2.1
      exact read_of_parse hparse ⟨_, hdecode f.headerSize (word32At p 24).toNat (by omega) (by omega)⟩

/-! ## The three readers -/

/-- The length check with 32-bit sizes is exact for the readers of the three map types on every buffer
and under every table of formats, unless the buffer passes with a wrapped size. -/
theorem parse_length_exact_iff {formats : List Format}
    (hformats : ∀ f ∈ formats, f.headerSize = 28 ∨ f.headerSize = 32) {p : Bytes}
    (hp : p.length < 2 ^ 32) (H : Heap) :
    ((constmapCodec.withFormats formats).LengthExact H p ↔ ¬ PassesWrapped formats 8 p) ∧
    ((verifiedCodec.withFormats formats).LengthExact H p ↔ ¬ PassesWrapped formats 16 p) ∧
    ((pairedCodec.withFormats formats).LengthExact H p ↔ ¬ PassesWrapped formats 16 p) := by
  refine ⟨?_, ?_, ?_⟩
  · exact Codec.lengthExact_iff hformats (fun _ _ hn hle => constmapCodec_decode hn hle) hp
  · exact Codec.lengthExact_iff hformats (fun _ _ hn hle => verifiedCodec_decode hn hle) hp
  · exact Codec.lengthExact_iff hformats (fun _ _ hn hle => pairedCodec_decode hn hle) hp

/-- A header of 32 bytes and its checksum, of a paired map with `2^28` slots, whose arrays would have
`2^32` bytes. -/
def bareHeader : Bytes :=
  withChecksum (writeHeader ⟨magicOf ['P', 'M', 'A', 'P', '0', '0', '0', '1'], HASH_XXH64, 32⟩
    0 262144 1022 268435456 0)

/-- On a 32-bit host the bare header passes as a whole map, whose slots the reader then looks for behind
the end of the buffer. -/
theorem bareHeader_accepted :
    bareHeader.length = 40 ∧
    ∃ h, parse 32 pairedFormats 16 bareHeader = some (.ok h) ∧
      bareHeader.length < h.format.headerSize + h.dataLen.toNat * 16 + 8 ∧
      pairedVerifiedConstmapRead 32 smallHeap bareHeader = none := by
  have hlen : bareHeader.length = 40 := by decide +kernel
  obtain ⟨h, hh⟩ : ∃ h : Header, h = ⟨pairedFormats[0], 0, 262144, 1022, 268435456, 0, 32⟩ := ⟨_, rfl⟩
  have hparse : parse 32 pairedFormats 16 bareHeader = some (.ok h) := by
    subst hh
    decide +kernel
  refine ⟨hlen, h, hparse, ?_, ?_⟩
  · rw [hlen, hh]
    decide
  · have hdecode : pairedCodec.decode 32 bareHeader h.payload h.dataLen.toNat = none := by
      rw [Option.eq_none_iff_forall_ne_some]
      rintro slots hslots
      have hone : 1 < h.dataLen.toNat := by
        rw [hh]
        decide
      obtain ⟨s, hs⟩ := exists_of_tabulate hslots hone
      obtain ⟨value, hvalue, -⟩ := Option.bind_eq_some_iff.mp hs
      have hle := readU64_le hvalue
      rw [hlen, hh] at hle
      exact absurd hle (by decide)
    exact read_eq_none hparse (by rw [hh]; decide) (by rw [hh]; decide) (fun _ => rfl) hdecode

theorem parse_length_exact_iff_bareHeader :
    (∀ f ∈ pairedFormats, f.headerSize = 28 ∨ f.headerSize = 32) ∧ bareHeader.length < 2 ^ 32 ∧
      ((pairedCodec.withFormats pairedFormats).LengthExact smallHeap bareHeader ↔
        ¬ PassesWrapped pairedFormats 16 bareHeader) := by
  have hformats : ∀ f ∈ pairedFormats, f.headerSize = 28 ∨ f.headerSize = 32 := by decide
  have hlen : bareHeader.length < 2 ^ 32 := by decide +kernel
  exact ⟨hformats, hlen, (parse_length_exact_iff hformats hlen smallHeap).2.2⟩

end FastConstMap
