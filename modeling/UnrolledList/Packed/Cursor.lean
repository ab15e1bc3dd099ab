import UnrolledList.Packed.Edit

/-!
# Places in a packed list

A `UnrolledList.Cursor` names a place in a packed list twice over: by the number of the
entry that begins there and by the position, which is the offset of a byte in the blob.
The end marker is a place as well; its number is the number of entries. A cursor stays
good until the list is changed.

## Two ways to walk

Forward, the next position is found by adding the **size** of an entry, which its own
header gives; backward, by subtracting the **link** of an entry, which records the size
of the one before. The two agree on every list whose links are right, and nothing here
uses one in place of the other: `UnrolledList.Packed.next?` never looks at a link and
`UnrolledList.Packed.prev?` never at the size of the entry it goes to.

An index is found from the end that its sign names, so a negative one is found by links
alone (`UnrolledList.Packed.walkBack?`).
-/

namespace UnrolledList

/-- A place in a packed list. -/
structure Cursor where
  /-- The number of the entry that begins there. -/
  idx : Nat
  /-- The offset of its first byte. -/
  pos : Nat
deriving DecidableEq, Repr

namespace Packed

/-! ### Landmarks -/

/-- The position of the end marker. -/
def endPos (p : Packed) : Nat :=
  p.size - 1

/-- The position of the last entry; that of the end marker if there is none. -/
def tailPos (p : Packed) : Nat :=
  p.endPos - lastSize p.entries

/-- The place of the end marker. -/
def endCursor (p : Packed) : Cursor where
  idx := p.entries.size
  pos := p.endPos

/-- The place of the last entry, if there is one. -/
def tail? (p : Packed) : Option Cursor :=
  if p.isEmpty then none else some ⟨p.entries.size - 1, p.tailPos⟩

/-- The position of entry number `k`, or of the end marker if there are only `k`. -/
def posOfIdx (p : Packed) (k : Nat) : Nat :=
  headerSize + spanSize p.entries 0 k

/-- The entry at a place. There is none at the end marker. -/
def entry? (p : Packed) (place : Cursor) : Option Entry :=
  p.entries[place.idx]?

/-- The value at a place. -/
def get? (p : Packed) (place : Cursor) : Option Value :=
  (p.entry? place).map Entry.value

/-! ### Walking -/

/-- The place after that of an entry, unless it is the last one. -/
def next? (p : Packed) (place : Cursor) : Option Cursor :=
  (p.entry? place).bind fun e =>
    if place.idx + 1 < p.entries.size then some ⟨place.idx + 1, place.pos + e.size⟩ else none

/-- The place before that of an entry, unless it is the first one. Before the end
marker stands the last entry. -/
def prev? (p : Packed) (place : Cursor) : Option Cursor :=
  match p.entry? place with
  | none => p.tail?
  | some e => if place.idx = 0 then none else some ⟨place.idx - 1, place.pos - e.link.len⟩

/-- The positions of all entries, by their sizes. -/
def positions (p : Packed) : List Nat :=
  go headerSize p.entries.toList
where
  /-- The positions of entries of which the first begins at `pos`. -/
  go (pos : Nat) : List Entry → List Nat
    | [] => []
    | e :: es => pos :: go (pos + e.size) es

/-- Walks `steps` entries back from entry number `k`, which stands at `pos`. A link of
zero marks the first entry. -/
def walkBack? (entries : Array Entry) : (steps k pos : Nat) → Option Cursor
  | 0, k, pos => some ⟨k, pos⟩
  | steps + 1, k, pos =>
    match entries[k]? with
    | none => none
    | some e =>
      let before := e.link.len
      if before = 0 then none else walkBack? entries steps (k - 1) (pos - before)

/-- The place of the entry with index `i`. A negative index counts from the tail,
where `-1` is the last entry, and is found by walking back. -/
def seek? (p : Packed) (i : Int) : Option Cursor :=
  if i < 0 then
    if p.isEmpty then none
    else walkBack? p.entries (-(i + 1)).toNat (p.entries.size - 1) p.tailPos
  else if i.toNat < p.entries.size then some ⟨i.toNat, p.posOfIdx i.toNat⟩
  else none

/-- The values from tail to head, found from the end marker by walking back. -/
def valuesBackward (p : Packed) : List Value :=
  go p.entries.size p.endCursor
where
  /-- The values before a place, of which there are at most `n`. -/
  go : (n : Nat) → Cursor → List Value
    | 0, _ => []
    | n + 1, place =>
      match p.prev? place with
      | none => []
      | some before => (p.get? before).toList ++ go n before

/-- Removes the entry at a place, and gives the place back if an entry has moved up to
it. -/
def erase (p : Packed) (place : Cursor) : Packed × Option Cursor :=
  let rest := p.eraseIdx place.idx 1
  (rest, (rest.entry? place).map fun _ => place)

/-- Removes up to `num` entries from index `i` on, and tells how many. Nothing happens if
there is no entry with that index. -/
def eraseRange (p : Packed) (i : Int) (num : Nat) : Packed × Nat :=
  match p.seek? i with
  | none => (p, 0)
  | some place =>
    let gone := p.available place.idx num
    (p.eraseIdx place.idx num, gone)

/-! ### Searching -/

/-- Whether an entry with the value `s` stands at a place. -/
def Holds (p : Packed) (place : Cursor) (s : Bytes) : Prop :=
  ∃ v, p.get? place = some v ∧ v.Matches s

instance (p : Packed) (place : Cursor) (s : Bytes) : Decidable (p.Holds place s) :=
  match h : p.get? place with
  | none => .isFalse fun ⟨_, hv, _⟩ => by simp [h] at hv
  | some v =>
    if hm : v.Matches s then .isTrue ⟨v, h, hm⟩
    else .isFalse fun ⟨_, hv, hm'⟩ => hm (by simp_all)

/-- The place of the first entry with the value `s`, looking at the entry at a place
and then at every entry that comes after `skip` others. -/
def find? (p : Packed) (place : Cursor) (s : Bytes) (skip : Nat) : Option Cursor :=
  go place 0 (p.entries.toList.drop place.idx)
where
  /-- Searches entries of which the first stands at a place, passing over `wait` of them
  before it looks. -/
  go (place : Cursor) (wait : Nat) : List Entry → Option Cursor
    | [] => none
    | e :: es =>
      let after : Cursor := ⟨place.idx + 1, place.pos + e.size⟩
      match wait with
      | 0 => if e.value.Matches s then some place else go after skip es
      | wait + 1 => go after wait es

end Packed

end UnrolledList
