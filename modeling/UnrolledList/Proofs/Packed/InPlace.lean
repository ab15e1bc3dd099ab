import UnrolledList.Proofs.Packed.Validity

/-!
# Reading a blob where it stands

`UnrolledList.Packed.ofBytes` takes a blob apart from its front and cannot look past its
end, because what it has not reached yet is all that it holds. A reader that works **in
place** has the whole blob and a position, adds to the position what the bytes there tell
it to, and reads again; whether it stays inside is a question about the bytes. This file
holds such readers for the check of a blob and for everything that is asked of a blob that
has passed it.

## Two kinds of nothing

Every reader here answers in an outer `Option` that is **`none` exactly if it left the
blob**: a byte was asked for that is not there, a slice began or ended behind the end, or a
position became negative. An index that names no entry, or an end that a walk has come to,
are answers of their own and stand inside.

The check asks its questions in the order of `UnrolledList.Defect`, and before each one it
has made sure that the bytes it is about are there; that is
`UnrolledList.Proofs.Packed.Checking`. The other readers make sure of nothing. That they
stay inside all the same, on a blob that has passed, is
`UnrolledList.Proofs.Packed.Inside`.
-/

namespace UnrolledList

namespace InPlace

open Packed (endMarker)

/-! ### Bytes at a position -/

/-- The bytes from a position on. The position behind the last byte still counts. -/
def from? (d : Bytes) (p : Nat) : Option Bytes :=
  if p ≤ d.length then some (d.drop p) else none

/-- So many bytes at a position. -/
def slice? (d : Bytes) (p n : Nat) : Option Bytes :=
  if p + n ≤ d.length then some ((d.drop p).take n) else none

/-- A field of the header. -/
def field? (d : Bytes) (p width : Nat) : Option Nat :=
  (slice? d p width).map Bytes.ofLittleEndian

/-- The link at a position. -/
def link? (d : Bytes) (p : Nat) : Option Link := do
  let (link, _) ← Link.read? (← from? d p)
  return link

/-- The place of a position from which a length is subtracted. -/
def back? (p len : Nat) : Option Nat :=
  if len ≤ p then some (p - len) else none

variable {d : Bytes} {p : Nat}

theorem from?_eq {s : Bytes} (hd : d.drop p = s) (hs : s ≠ []) : from? d p = some s := by
  have hlen : p < d.length := by
    rcases Nat.lt_or_ge p d.length with h | h
    · exact h
    · exact absurd (hd ▸ List.drop_of_length_le h) hs
  rw [from?, if_pos (Nat.le_of_lt hlen), hd]

theorem getElem?_eq_head? {s : Bytes} (hd : d.drop p = s) : d[p]? = s.head? := by
  rw [← hd, List.head?_drop]

theorem drop_add {s : Bytes} (hd : d.drop p = s) (n : Nat) : d.drop (p + n) = s.drop n := by
  rw [← hd, List.drop_drop]

theorem slice?_eq {n : Nat} (h : p + n ≤ d.length) : slice? d p n = some ((d.drop p).take n) :=
  if_pos h

/-! ### The check -/

/-- The width of a link that begins with a byte. -/
def linkWidth (b : UInt8) : Nat :=
  if b.toNat < 254 then 1 else 5

theorem linkWidth_pos (b : UInt8) : 0 < linkWidth b := by
  unfold linkWidth
  split <;> decide

/-- Where the link at a position ends. It has to record the length `before`, and something
has to follow it. -/
def linkEnd? (d : Bytes) (p before : Nat) : Option (Except Defect Nat) :=
  d[p]?.bind fun b =>
    if b = endMarker then some (.error .innerEnd)
    else if d.length - 1 ≤ p + linkWidth b then some (.error .headerOutOfRange)
    else
      (link? d p).bind fun link =>
        if link.len ≠ before then some (.error .wrongLink) else some (.ok (p + linkWidth b))

/-- Where the body at a position ends. -/
def bodyEnd? (d : Bytes) (p : Nat) : Option (Except Defect Nat) :=
  d[p]?.bind fun b =>
    match Encoding.ofTag? (Encoding.clearLength b) with
    | none => some (.error .badEncoding)
    | some e =>
      if d.length - 1 < p + e.headerSize then some (.error .headerOutOfRange)
      else
        ((from? d p).bind e.payloadSize?).bind fun n =>
          if d.length - 1 < p + e.headerSize + n then some (.error .payloadOutOfRange)
          else some (.ok (p + e.headerSize + n))

/-- Where the entry at a position ends. It has to stand behind an entry of length
`before`. -/
def entryEnd? (d : Bytes) (p before : Nat) : Option (Except Defect Nat) :=
  (linkEnd? d p before).bind fun
    | .error defect => some (.error defect)
    | .ok q => bodyEnd? d q

theorem lt_of_linkEnd? {before q : Nat} (h : linkEnd? d p before = some (.ok q)) : p < q := by
  obtain ⟨b, -, h⟩ := Option.bind_eq_some_iff.mp h
  split at h
  · simp at h
  split at h
  · simp at h
  obtain ⟨link, -, h⟩ := Option.bind_eq_some_iff.mp h
  split at h
  · simp at h
  · obtain rfl : _ = q := by simpa using h
    have := linkWidth_pos b
    omega

theorem le_of_bodyEnd? {next : Nat} (h : bodyEnd? d p = some (.ok next)) :
    p ≤ next ∧ next ≤ d.length - 1 := by
  obtain ⟨b, -, h⟩ := Option.bind_eq_some_iff.mp h
  split at h
  · simp at h
  split at h
  · simp at h
  obtain ⟨n, -, h⟩ := Option.bind_eq_some_iff.mp h
  split at h
  · simp at h
  · obtain rfl : _ = next := by simpa using h
    omega

/-- An entry that passes ends behind where it began, and before the end marker. -/
theorem lt_of_entryEnd? {before next : Nat} (h : entryEnd? d p before = some (.ok next)) :
    p < next ∧ next ≤ d.length - 1 := by
  obtain ⟨q, hlink, hbody⟩ := Option.bind_eq_some_iff.mp h
  cases q with
  | error defect => simp at hbody
  | ok q =>
    have hlt := lt_of_linkEnd? hlink
    have hle := le_of_bodyEnd? hbody
    omega

/-- Checks the entries from a position on, of which the first has to stand behind an entry
of length `before`. Of those already checked, `count` in number, the last stands at `last`.
The answer is where the last of all stands, and how many there are. -/
def checkFrom? (d : Bytes) (p before last count : Nat) : Option (Except Defect (Nat × Nat)) :=
  if p < d.length - 1 then
    match _h : entryEnd? d p before with
    | none => none
    | some (.error defect) => some (.error defect)
    | some (.ok next) => checkFrom? d next (next - p) p (count + 1)
  else some (.ok (last, count))
termination_by d.length - p
decreasing_by
  have := lt_of_entryEnd? _h
  omega

/-- Checks the fields of the header that are about the entries. -/
def checkFields? (d : Bytes) (last count : Nat) : Option (Except Defect Unit) :=
  (field? d 4 4).bind fun tail =>
    if tail ≠ last then some (.error .wrongTail)
    else
      (field? d 8 2).bind fun n =>
        if n < 65535 ∧ n ≠ count then some (.error .wrongCount) else some (.ok ())

/-- **Whether a blob is a packed list**, found out in place. -/
def check? (d : Bytes) : Option (Except Defect Unit) :=
  if d.length < 11 then some (.error .shorterThanHeader)
  else
    (field? d 0 4).bind fun total =>
      if total ≠ d.length then some (.error .wrongTotal)
      else
        d[d.length - 1]?.bind fun b =>
          if b ≠ endMarker then some (.error .missingEnd)
          else
            (checkFrom? d 10 0 10 0).bind fun
              | .error defect => some (.error defect)
              | .ok (last, count) => checkFields? d last count

/-! ### Entries -/

/-- What stands before the payload of an entry. -/
structure Header where
  /-- The link. -/
  link : Link
  /-- The byte of the encoding, without a length. -/
  tag : UInt8
  /-- The bytes that announce the payload. -/
  lenSize : Nat
  /-- The size of the payload. -/
  len : Nat

/-- The size of an encoding byte with what belongs to it, and of the payload it announces.
A byte that stands for nothing announces nothing. -/
def lengths? (d : Bytes) (p : Nat) (tag : UInt8) : Option (Nat × Nat) :=
  match Encoding.ofTag? tag with
  | none => some (0, 0)
  | some e => ((from? d p).bind e.payloadSize?).map fun n => (e.headerSize, n)

/-- The header of the entry at a position. -/
def header? (d : Bytes) (p : Nat) : Option Header := do
  let link ← link? d p
  let b ← d[p + link.width]?
  let tag := Encoding.clearLength b
  let (lenSize, len) ← lengths? d (p + link.width) tag
  return ⟨link, tag, lenSize, len⟩

/-- The length of the entry at a position. -/
def entrySize? (d : Bytes) (p : Nat) : Option Nat :=
  (header? d p).map fun h => h.link.width + h.lenSize + h.len

/-- Whether a position is that of an end marker. -/
def atEnd? (d : Bytes) (p : Nat) : Option Bool :=
  d[p]?.map fun b => b == endMarker

/-- The value of the entry at a position. There is none at an end marker. -/
def get? (d : Bytes) (p : Nat) : Option (Option Value) := do
  if ← atEnd? d p then return none
  else
    let h ← header? d p
    let start := p + h.link.width + h.lenSize
    if Encoding.opensText h.tag then
      let payload ← slice? d start h.len
      return some (.text payload)
    else
      let n ← integerOfPayload? h.tag (← from? d start)
      return some (.number n)

/-! ### Walking -/

/-- The position after that of an entry, unless it is the last one. -/
def next? (d : Bytes) (p : Nat) : Option (Option Nat) := do
  if ← atEnd? d p then return none
  else
    let size ← entrySize? d p
    return if ← atEnd? d (p + size) then none else some (p + size)

/-- The position of the last entry, if there is one. -/
def tail? (d : Bytes) : Option (Option Nat) := do
  let tail ← field? d 4 4
  return if ← atEnd? d tail then none else some tail

/-- The position before that of an entry, unless it is the first one. Before the end marker
stands the last entry. -/
def prev? (d : Bytes) (p : Nat) : Option (Option Nat) := do
  if ← atEnd? d p then tail? d
  else if p = 10 then return none
  else
    let link ← link? d p
    return some (← back? p link.len)

/-- Walks over so many entries, or to the end marker. -/
def skip? (d : Bytes) : (steps p : Nat) → Option Nat
  | 0, p => some p
  | steps + 1, p => do
    if ← atEnd? d p then return p
    else
      let size ← entrySize? d p
      skip? d steps (p + size)

/-- Walks so many entries back. A link of zero marks the first entry. -/
def walkBack? (d : Bytes) : (steps p : Nat) → Option (Option Nat)
  | 0, p => some (some p)
  | steps + 1, p => do
    let link ← link? d p
    if link.len = 0 then return none
    else walkBack? d steps (← back? p link.len)

/-- The position of the entry with an index. -/
def seek? (d : Bytes) (i : Int) : Option (Option Nat) := do
  if i < 0 then
    match ← tail? d with
    | none => return none
    | some tail => walkBack? d (-(i + 1)).toNat tail
  else
    let p ← skip? d i.toNat 10
    return if ← atEnd? d p then none else some p

/-! ### Whole walks -/

/-- The positions to which a walk leads that begins at one of them. A walk that takes more
than `fuel` steps has no answer. -/
def walk? (step : Nat → Option (Option Nat)) : (fuel p : Nat) → Option (List Nat)
  | 0, _ => none
  | fuel + 1, p => do
    match ← step p with
    | none => return []
    | some q => return q :: (← walk? step fuel q)

/-- The positions of all entries, from head to tail. -/
def positions? (d : Bytes) : Option (List Nat) := do
  match ← seek? d 0 with
  | none => return []
  | some p => return p :: (← walk? (next? d) d.length p)

/-- The positions of all entries, from tail to head. -/
def positionsBackward? (d : Bytes) : Option (List Nat) :=
  walk? (prev? d) d.length (d.length - 1)

/-- The values at some positions; a position without one is passed over. -/
def valuesAt? (d : Bytes) : List Nat → Option (List Value)
  | [] => some []
  | p :: ps => do
    let v ← get? d p
    return v.toList ++ (← valuesAt? d ps)

/-- The values from head to tail. -/
def values? (d : Bytes) : Option (List Value) := do
  valuesAt? d (← positions? d)

/-- The values from tail to head. -/
def valuesBackward? (d : Bytes) : Option (List Value) := do
  valuesAt? d (← positionsBackward? d)

end InPlace

end UnrolledList
