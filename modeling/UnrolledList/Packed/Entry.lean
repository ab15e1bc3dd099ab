import UnrolledList.Packed.Body
import UnrolledList.Packed.Defect
import UnrolledList.Packed.Link

/-!
# Entries

An entry of a packed list is a back link and a body. This file writes entries
(`UnrolledList.Entry.encode`) and reads them (`UnrolledList.Entry.read`). A reader is
given the length that the back link has to record, so that a list is checked in the
same pass in which it is decoded.
-/

namespace UnrolledList

/-- An entry of a packed list. -/
structure Entry where
  /-- The length of the entry before, as recorded. -/
  link : Link
  /-- What the entry holds. -/
  body : Body
deriving DecidableEq

namespace Entry

/-- The entry that stores the string `s` after an entry of length `before`. -/
def ofBytes (before : Nat) (s : Bytes) : Entry where
  link := .ofLen before
  body := .ofBytes s

/-- The size in bytes. -/
def size (e : Entry) : Nat :=
  e.link.width + e.body.size

/-- The size of all that precedes the payload. -/
def headerSize (e : Entry) : Nat :=
  e.link.width + e.body.headerSize

/-- The value held. -/
def value (e : Entry) : Value :=
  e.body.value

/-- The same entry after an entry of length `before`. -/
def relink (e : Entry) (before : Nat) : Entry :=
  { e with link := e.link.record before }

/-- The bytes of an entry. -/
def encode (e : Entry) : Bytes :=
  e.link.encode ++ e.body.encode

@[simp] theorem body_relink (e : Entry) (before : Nat) : (e.relink before).body = e.body := rfl

@[simp] theorem length_encode (e : Entry) : e.encode.length = e.size := by
  simp [encode, size]

theorem size_pos (e : Entry) : 0 < e.size := by
  have : 0 < e.link.width := by cases e.link <;> simp
  simp only [size]
  omega

end Entry

/-! ### Reading -/

/-- Reads the payload of a string whose header has been read. -/
def Text.read (form : LengthForm) (n : Nat) (fits : form.Holds n) (s : Bytes) :
    Except Defect (Body × Bytes) :=
  match h : Bytes.split? n s with
  | none => .error .payloadOutOfRange
  | some (bytes, rest) =>
    .ok (.text ⟨form, n, bytes, Bytes.length_of_split? h, fits⟩, rest)

/-- Reads the payload of an integer whose encoding has been read. -/
def Number.read (w : WordWidth) (s : Bytes) : Except Defect (Body × Bytes) :=
  match Bytes.split? w.bytes s with
  | none => .error .payloadOutOfRange
  | some (bytes, rest) =>
    .ok (.number (.word w (BitVec.ofNat _ (Bytes.ofLittleEndian bytes))), rest)

/-- Reads a body off the front of a string. -/
def Body.read : Bytes → Except Defect (Body × Bytes)
  | [] => .error .headerOutOfRange
  | b :: rest =>
    match Encoding.ofTag? (Encoding.clearLength b) with
    | none => .error .badEncoding
    | some .short =>
      Text.read .short (b.toNat % 64) (Nat.mod_lt _ (by decide)) rest
    | some .medium =>
      match rest with
      | [] => .error .headerOutOfRange
      | c :: rest =>
        Text.read .medium (b.toNat % 64 * 256 + c.toNat)
          (by
            have := Nat.mod_lt b.toNat (show 0 < 64 by decide)
            have := c.toNat_lt
            simp only [LengthForm.Holds]
            omega)
          rest
    | some .long =>
      match Bytes.split? 4 rest with
      | none => .error .headerOutOfRange
      | some (digits, rest) =>
        Text.read (.long ⟨b.toNat % 64, Nat.mod_lt _ (by decide)⟩) (Bytes.ofBigEndian digits)
          trivial rest
    | some (.immediate n) => .ok (.number (.immediate n), rest)
    | some (.word w) => Number.read w rest

/-- Reads an entry off the front of a string. It has to stand after an entry of
length `before`, and something has to follow its back link. -/
def Entry.read (before : Nat) (s : Bytes) : Except Defect (Entry × Bytes) :=
  if s.head? = some 0xFF then .error .innerEnd
  else
    match Link.read? s with
    | none => .error .headerOutOfRange
    | some (link, rest) =>
      if rest.isEmpty then .error .headerOutOfRange
      else if link.len ≠ before then .error .wrongLink
      else
        match Body.read rest with
        | .error d => .error d
        | .ok (body, rest) => .ok (⟨link, body⟩, rest)

/-! ### Readers make progress -/

theorem Text.length_le_of_read {form : LengthForm} {n : Nat} {fits : form.Holds n}
    {s rest : Bytes} {body : Body} (h : Text.read form n fits s = .ok (body, rest)) :
    rest.length ≤ s.length := by
  unfold Text.read at h
  split at h
  · contradiction
  · next hsplit =>
    simp only [Except.ok.injEq, Prod.mk.injEq] at h
    exact h.2 ▸ Bytes.length_rest_of_split? hsplit

theorem Number.length_le_of_read {w : WordWidth} {s rest : Bytes} {body : Body}
    (h : Number.read w s = .ok (body, rest)) : rest.length ≤ s.length := by
  unfold Number.read at h
  split at h
  · contradiction
  · next hsplit =>
    simp only [Except.ok.injEq, Prod.mk.injEq] at h
    exact h.2 ▸ Bytes.length_rest_of_split? hsplit

theorem Body.length_lt_of_read {s rest : Bytes} {body : Body}
    (h : Body.read s = .ok (body, rest)) : rest.length < s.length := by
  match s with
  | [] => simp [Body.read] at h
  | b :: tail =>
    simp only [Body.read] at h
    simp only [List.length_cons]
    split at h
    · contradiction
    · have := Text.length_le_of_read h
      omega
    · split at h
      · contradiction
      · have := Text.length_le_of_read h
        simp only [List.length_cons]
        omega
    · split at h
      · contradiction
      · next hsplit =>
        have := Text.length_le_of_read h
        have := Bytes.length_rest_of_split? hsplit
        omega
    · simp only [Except.ok.injEq, Prod.mk.injEq] at h
      simp [h.2]
    · have := Number.length_le_of_read h
      omega

/-- **Reading an entry consumes bytes**, so a list of entries is read in finitely many
steps. -/
theorem Entry.length_lt_of_read {before : Nat} {s rest : Bytes} {e : Entry}
    (h : Entry.read before s = .ok (e, rest)) : rest.length < s.length := by
  simp only [Entry.read] at h
  split at h
  · contradiction
  · split at h
    · contradiction
    · next hlink =>
      have hl := Link.length_lt_of_read? hlink
      split at h
      · contradiction
      · split at h
        · contradiction
        · split at h
          · contradiction
          · next hbody =>
            simp only [Except.ok.injEq, Prod.mk.injEq] at h
            have := Body.length_lt_of_read hbody
            rw [h.2] at this
            omega

end UnrolledList
