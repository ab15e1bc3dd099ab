import UnrolledList.Proofs.Packed.Validity

/-!
# The format, told apart from its reader

`UnrolledList.Packed.ofBytes` says which strings of bytes are packed lists by reading them.
This file says it **without a reader**, as the format is written down in prose, and shows
that the two agree (`UnrolledList.Format.isBlob_iff`).

A blob is

| part | bytes |
|------|-------|
| total | four, little endian: the length of the blob |
| tail | four, little endian: the position of the last entry, 10 if there is none |
| count | two, little endian: the number of entries, or 65535 |
| entries | one behind the other |
| end | `0xFF` |

and an entry is a link and a body. The link is the length of the entry before, in one byte
or in five; the body is a header and a payload, and the header is any of those that can
announce the payload. **Nothing here asks for the shortest spelling**, neither of a link nor
of a header: a list that has shrunk keeps its wide links, and a writer elsewhere may have
chosen its headers by another rule.

## How the two sides meet

Each part of the grammar is the set of spellings of a part of the data: the links, the
bodies that can be written, the entries that are linked. These are three lemmas, each an
equivalence with the writer, and the blob is put together from them by
`UnrolledList.Packed.ofBytes_eq_ok_iff`, which says that reading accepts what is written.
-/

namespace UnrolledList

namespace Format

/-! ### The grammar -/

/-- The bytes that record a length. -/
inductive IsLink : Nat → Bytes → Prop
  /-- One byte, below 254. -/
  | narrow (b : UInt8) : b.toNat < 254 → IsLink b.toNat [b]
  /-- A marker and four bytes, whatever the length. -/
  | wide (digits : Bytes) : digits.length = 4 →
      IsLink (Bytes.ofLittleEndian digits) (0xFE :: digits)

/-- The bytes that announce an integer, each with the number of bytes that follow it. -/
def wordSizes : List (UInt8 × Nat) :=
  [(0xFE, 1), (0xC0, 2), (0xF0, 3), (0xD0, 4), (0xE0, 8)]

/-- The bytes of a header and its payload. -/
inductive IsBody : Bytes → Prop
  /-- A string whose length has six bits. -/
  | short (payload : Bytes) : payload.length < 64 →
      IsBody (UInt8.ofNat payload.length :: payload)
  /-- A string whose length has fourteen bits. -/
  | medium (payload : Bytes) : payload.length < 16384 →
      IsBody (UInt8.ofNat (0x40 + payload.length / 256) :: UInt8.ofNat payload.length :: payload)
  /-- A string whose length has thirty-two bits. The low six bits of the first byte are
  free. -/
  | long (spare : Fin 64) (payload : Bytes) : payload.length < 0x100000000 →
      IsBody (UInt8.ofNat (0x80 + spare) :: (Bytes.bigEndian 4 payload.length ++ payload))
  /-- An integer from 0 to 12. -/
  | immediate (n : Fin 13) : IsBody [UInt8.ofNat (0xF1 + n)]
  /-- An integer in a word. -/
  | word (tag : UInt8) (payload : Bytes) : (tag, payload.length) ∈ wordSizes →
      IsBody (tag :: payload)

/-- Entries that stand one behind the other, the first of them behind one of length
`before`. -/
inductive AreEntries : Nat → List Bytes → Prop
  /-- There is none. -/
  | nil (before : Nat) : AreEntries before []
  /-- One entry, and the others behind it. -/
  | cons {before : Nat} {link body : Bytes} {rest : List Bytes} :
      IsLink before link → IsBody body → AreEntries (link ++ body).length rest →
      AreEntries before ((link ++ body) :: rest)

/-- The position of the last of some entries, or of the end marker if there is none. -/
def tailOffset (entries : List Bytes) : Nat :=
  10 + entries.dropLast.flatten.length

/-- **The blobs of packed lists.** -/
def IsBlob (d : Bytes) : Prop :=
  ∃ entries : List Bytes, ∃ count : Nat,
    AreEntries 0 entries ∧ (count = entries.length ∨ count = 65535) ∧
    count < 0x10000 ∧ d.length < 0x100000000 ∧
    d = Bytes.littleEndian 4 d.length ++ (Bytes.littleEndian 4 (tailOffset entries) ++
      (Bytes.littleEndian 2 count ++ (entries.flatten ++ [0xFF])))

/-! ### Links -/

/-- The bytes that record a length are those of the links that do. -/
theorem isLink_iff {n : Nat} {bs : Bytes} :
    IsLink n bs ↔ ∃ link : Link, link.len = n ∧ link.encode = bs := by
  constructor
  · intro h
    cases h with
    | narrow b hb =>
      refine ⟨.narrow ⟨b.toNat, hb⟩, rfl, ?_⟩
      rw [Link.encode_narrow, UInt8.ofNat_toNat]
    | wide digits hlen =>
      have hcap := Bytes.ofLittleEndian_lt digits
      rw [hlen, Bytes.capacity_four] at hcap
      have hn : (UInt32.ofNat (Bytes.ofLittleEndian digits)).toNat =
          Bytes.ofLittleEndian digits := by
        rw [UInt32.toNat_ofNat']
        exact Nat.mod_eq_of_lt hcap
      refine ⟨.wide (UInt32.ofNat (Bytes.ofLittleEndian digits)), hn, ?_⟩
      rw [Link.encode_wide, hn, Packed.littleEndian_of_length hlen]
      rfl
  · rintro ⟨link, rfl, rfl⟩
    cases link with
    | narrow n =>
      have hn : (UInt8.ofNat n.val).toNat = n.val := by
        rw [UInt8.toNat_ofNat']
        omega
      have hlt : (UInt8.ofNat n.val).toNat < 254 := by
        rw [hn]
        exact n.isLt
      have hspelt := IsLink.narrow (UInt8.ofNat n.val) hlt
      rwa [hn] at hspelt
    | wide n =>
      have hspelt := IsLink.wide (Bytes.littleEndian 4 n.toNat) (Bytes.length_littleEndian 4 _)
      rwa [Packed.ofLittleEndian_four n.toNat_lt] at hspelt

/-! ### Bodies -/

/-- A word is announced by its tag and has the bytes that its width says. -/
theorem mem_wordSizes_iff {tag : UInt8} {n : Nat} :
    (tag, n) ∈ wordSizes ↔ ∃ w : WordWidth, tag = w.tag ∧ n = w.bytes := by
  constructor
  · intro h
    simp only [wordSizes, List.mem_cons, Prod.mk.injEq, List.not_mem_nil, or_false] at h
    rcases h with h | h | h | h | h
    · exact ⟨.one, h⟩
    · exact ⟨.two, h⟩
    · exact ⟨.three, h⟩
    · exact ⟨.four, h⟩
    · exact ⟨.eight, h⟩
  · rintro ⟨w, rfl, rfl⟩
    cases w <;> decide

/-- The word with given bytes. -/
theorem exists_word {w : WordWidth} {payload : Bytes} (h : payload.length = w.bytes) :
    ∃ bits : BitVec w.bits, (Number.word w bits).payload = payload := by
  refine ⟨BitVec.ofNat w.bits (Bytes.ofLittleEndian payload), ?_⟩
  rw [Number.payload, WordWidth.toNat_ofLittleEndian h, Packed.littleEndian_of_length h]

/-- **The bytes of bodies** are what is written for the bodies that can be written. -/
theorem isBody_iff {bs : Bytes} : IsBody bs ↔ ∃ b : Body, b.Writable ∧ b.encode = bs := by
  constructor
  · intro h
    cases h with
    | short payload hlen =>
      exact ⟨.text ⟨.short, payload.length, payload, rfl, hlen⟩,
        Nat.lt_trans hlen (by decide), rfl⟩
    | medium payload hlen =>
      refine ⟨.text ⟨.medium, payload.length, payload, rfl, hlen⟩,
        Nat.lt_trans hlen (by decide), ?_⟩
      have hhigh : payload.length / 256 % 64 = payload.length / 256 := by omega
      rw [Body.encode, LengthForm.header, hhigh]
      rfl
    | long spare payload hlen =>
      exact ⟨.text ⟨.long spare, payload.length, payload, rfl, trivial⟩, hlen, rfl⟩
    | immediate n => exact ⟨.number (.immediate n), trivial, rfl⟩
    | word tag payload hsize =>
      obtain ⟨w, rfl, hlen⟩ := mem_wordSizes_iff.mp hsize
      obtain ⟨bits, rfl⟩ := exists_word hlen
      exact ⟨.number (.word w bits), trivial, rfl⟩
  · rintro ⟨b, hb, rfl⟩
    cases b with
    | text t =>
      obtain ⟨form, length, payload, rfl, fits⟩ := t
      cases form with
      | short => exact .short payload fits
      | medium =>
        have hlen : payload.length < 16384 := fits
        have hhigh : payload.length / 256 % 64 = payload.length / 256 := by omega
        have hspelt := IsBody.medium payload hlen
        rw [← hhigh] at hspelt
        exact hspelt
      | long spare => exact .long spare payload hb
    | number n =>
      cases n with
      | immediate n => exact .immediate n
      | word w bits =>
        exact .word w.tag _ (mem_wordSizes_iff.mpr ⟨w, rfl, Number.length_payload (.word w bits)⟩)

/-! ### Entries -/

/-- The entries of a blob are what is written for entries that are linked. -/
theorem areEntries_iff {before : Nat} {bss : List Bytes} :
    AreEntries before bss ↔
      ∃ es : List Entry, Packed.Linked before es ∧ (∀ e ∈ es, e.Writable) ∧
        es.map Entry.encode = bss := by
  constructor
  · intro h
    induction h with
    | nil before => exact ⟨[], trivial, by simp, rfl⟩
    | cons hlink hbody _ ih =>
      obtain ⟨link, rfl, rfl⟩ := isLink_iff.mp hlink
      obtain ⟨body, hwritable, rfl⟩ := isBody_iff.mp hbody
      obtain ⟨es, hlinked, hes, rfl⟩ := ih
      have hsize : (link.encode ++ body.encode).length = (⟨link, body⟩ : Entry).size :=
        Entry.length_encode ⟨link, body⟩
      refine ⟨⟨link, body⟩ :: es, ⟨rfl, hsize ▸ hlinked⟩, ?_, rfl⟩
      intro e he
      rcases List.mem_cons.mp he with rfl | he
      · exact hwritable
      · exact hes e he
  · rintro ⟨es, hlinked, hes, rfl⟩
    induction es generalizing before with
    | nil => exact .nil before
    | cons e es ih =>
      obtain ⟨hlen, hrest⟩ := hlinked
      refine .cons (isLink_iff.mpr ⟨e.link, hlen, rfl⟩)
        (isBody_iff.mpr ⟨e.body, hes e List.mem_cons_self, rfl⟩) ?_
      have hbehind := ih hrest fun f hf => hes f (List.mem_cons_of_mem e hf)
      rwa [← e.length_encode] at hbehind

/-- The last entry begins behind all others. -/
theorem tailOffset_map_encode (p : Packed) :
    tailOffset (p.entries.toList.map Entry.encode) = p.tailPos := by
  have hsize := p.size_eq
  have hflat : ∀ es : List Entry, (es.map Entry.encode).flatten.length = Packed.totalSize es := by
    intro es
    rw [← List.flatMap_def, Packed.length_flatMap_encode]
  rw [tailOffset, ← List.map_dropLast, hflat, Packed.tailPos, Packed.endPos, Packed.lastSize_eq,
    hsize]
  simp only [Packed.envelopeSize]
  rcases List.eq_nil_or_concat p.entries.toList with hnil | ⟨es, e, hlast⟩
  · simp [hnil]
  · rw [hlast, List.concat_eq_append, List.dropLast_concat,
      Packed.totalSize_append, Packed.endSize_append]
    simp only [Packed.totalSize_cons, Packed.totalSize_nil, Packed.endSize_cons,
      Packed.endSize_nil]
    omega

/-! ### Blobs -/

theorem toBytes_eq_flatten (p : Packed) :
    p.toBytes = Bytes.littleEndian 4 p.toBytes.length ++
      (Bytes.littleEndian 4 (tailOffset (p.entries.toList.map Entry.encode)) ++
        (Bytes.littleEndian 2 p.lengthField.toNat ++
          ((p.entries.toList.map Entry.encode).flatten ++ [0xFF]))) := by
  rw [Packed.length_toBytes, tailOffset_map_encode, ← List.flatMap_def]
  exact p.toBytes_eq

/-- A length field that counts the entries, or says that they have to be counted. -/
theorem counted_iff {p : Packed} :
    p.Counted ↔ p.lengthField.toNat = p.entries.size ∨ p.lengthField.toNat = 65535 := by
  have hfull : Packed.saturated.toNat = 65535 := rfl
  have hlt := p.lengthField.toNat_lt
  rw [Packed.Counted, UInt16.lt_iff_toNat_lt, hfull]
  constructor
  · intro h
    rcases Nat.lt_or_ge p.lengthField.toNat 65535 with hless | hmore
    · exact .inl (h hless)
    · exact .inr (by omega)
  · rintro (h | h) hless
    · exact h
    · omega

/-- **The blobs that are accepted are those of the format.** -/
theorem isBlob_iff {d : Bytes} : IsBlob d ↔ ∃ p, Packed.ofBytes d = .ok p := by
  simp only [Packed.ofBytes_eq_ok_iff]
  constructor
  · rintro ⟨bss, count, hentries, hcount, hcountlt, hlen, hd⟩
    obtain ⟨es, hlinked, hes, rfl⟩ := areEntries_iff.mp hentries
    -- the list that the blob spells is built from its entries and its length field
    let p : Packed :=
      { entries := es.toArray
        lengthField := UInt16.ofNat count
        size := Packed.envelopeSize + Packed.totalSize es
        size_eq := rfl }
    have hfield : p.lengthField.toNat = count := by
      rw [UInt16.toNat_ofNat']
      exact Nat.mod_eq_of_lt hcountlt
    have hsize : d.length = p.size := by
      have hcongr := congrArg List.length hd
      rw [← List.flatMap_def] at hcongr
      simp only [List.length_append, Bytes.length_littleEndian, Packed.length_flatMap_encode,
        List.length_singleton] at hcongr
      change d.length = Packed.envelopeSize + Packed.totalSize es
      simp only [Packed.envelopeSize]
      omega
    refine ⟨p, ?_, hlinked, ?_, hsize ▸ hlen⟩
    · have hp := toBytes_eq_flatten p
      rw [Packed.length_toBytes, hfield, ← hsize] at hp
      rw [hp]
      exact hd.symm
    · rw [counted_iff, hfield]
      simpa [p] using hcount
  · rintro ⟨p, rfl, hwell⟩
    have hwritable : ∀ e ∈ p.entries.toList, e.Writable := fun e he =>
      Entry.writable_of_size_lt (Nat.lt_of_le_of_lt (Packed.size_le_totalSize he)
        (Packed.totalSize_lt hwell.size_lt))
    refine ⟨p.entries.toList.map Entry.encode, p.lengthField.toNat,
      areEntries_iff.mpr ⟨_, hwell.linked, hwritable, rfl⟩, ?_, p.lengthField.toNat_lt, ?_,
      toBytes_eq_flatten p⟩
    · rw [List.length_map, Array.length_toList]
      exact counted_iff.mp hwell.counted
    · rw [Packed.length_toBytes]
      exact hwell.size_lt

end Format

end UnrolledList
