import UnrolledList.Chain.Handle

/-!
# Walking through a list

A walk goes through the elements in one direction, from an end or from any index, and may
erase each element that it has just returned.

## Blocks on the way

A block is opened for use when the walk enters it, and its compression is restored when
the walk leaves it. The walk keeps its place in the block as a cursor into the packed list
and, beside it, as an offset that grows from zero when the walk goes towards the tail and
falls from `-1` when it goes towards the head. After an erasure the cursor means nothing
any more, but the offset still does: towards the tail the next entry has slid into it, and
towards the head it counts from the end and now names the entry before. So the cursor is
forgotten and found again from the offset.

The same holds of blocks. When a block goes with its last entry, the block after it slides
into its number, and the one before keeps its own.
-/

namespace UnrolledList

/-- A walk through a list. -/
structure Walk where
  /-- The end that the walk comes from. -/
  origin : Side
  /-- The number of the block it is in; there is none once it has run out. -/
  current : Option Nat
  /-- Its place in that block, once it has one. -/
  place : Option Cursor := none
  /-- Its offset in that block. -/
  offset : Int
deriving DecidableEq

namespace Walk

/-! ### Beginning -/

/-- The offset at which a walk enters a block. -/
def entryOffset : Side → Int
  | .head => 0
  | .tail => -1

/-- The walk from an end of a list. -/
def ofEnd (c : Chain) (origin : Side) : Walk where
  origin := origin
  current := c.endIdx? origin
  offset := entryOffset origin

/-- The walk whose first element is the one with an index, if there is one. -/
def ofIndex (c : Chain) (origin : Side) (i : Int) : Except Fault (Chain × Option Walk) := do
  let (c, found) ← c.find? i
  match found with
  | none => return (c, none)
  | some (j, h) => do
    let n := (← c.block j).count
    let offset := match origin with
      | .head => if h.offset < 0 then h.offset + n else h.offset
      | .tail => if 0 ≤ h.offset then h.offset - n else h.offset
    return (c, some { origin := origin, current := some j, offset := offset })

/-- The name of the block that a walk is in. -/
def block? (w : Walk) (c : Chain) : Option BlockId :=
  w.current.bind c.id?

/-! ### Going on -/

/-- The number of the block that a walk goes to from block number `i` of `n`. -/
def step? (origin : Side) (n i : Nat) : Option Nat :=
  match origin with
  | .head => if i + 1 < n then some (i + 1) else none
  | .tail => if i = 0 then none else some (i - 1)

/-- Puts a walk at the beginning of a block, or ends it if there is none. -/
def enter (w : Walk) (i : Option Nat) : Walk :=
  { w with current := i, place := none, offset := entryOffset w.origin }

/-- Moves a walk on within its block. A walk that has no place yet takes the one of its
offset. -/
def advance (w : Walk) (p : Packed) : Walk :=
  match w.place with
  | none => { w with place := p.seek? w.offset }
  | some place =>
    match w.origin with
    | .head => { w with place := p.next? place, offset := w.offset + 1 }
    | .tail => { w with place := p.prev? place, offset := w.offset - 1 }

/-- Opens block number `i`, in which a walk is, and for use if the walk has just entered
it. -/
def openBlock (w : Walk) (c : Chain) (i : Nat) : Except Fault Chain :=
  if w.place.isNone then c.openForUse i else c.modifyBlock i Block.inflate

/-- The handle of the element at the place of a walk in block number `i`, if it has one. -/
def handle? (w : Walk) (c : Chain) (i : Nat) : Except Fault (Option Handle) :=
  match w.place with
  | some place => c.handleAt? i place w.offset
  | none => .ok none

/-- Goes on through as many as `blocks` blocks until there is an element. -/
def nextAmong : (blocks : Nat) → Walk → Chain → Except Fault (Walk × Chain × Option Handle)
  | 0, w, c => .ok (w, c, none)
  | blocks + 1, w, c =>
    match w.current with
    | none => .ok (w, c, none)
    | some i => do
      let c ← w.openBlock c i
      let w := w.advance (← (← c.block i).packed)
      match ← w.handle? c i with
      | some h => return (w, c, some h)
      | none => do
        -- the block has run out: it is left as any other, and the place in it with it
        let c ← c.recompress i
        nextAmong blocks (w.enter (step? w.origin c.length i)) c

/-- The next element of a walk. -/
def next (w : Walk) (c : Chain) : Except Fault (Walk × Chain × Option Handle) :=
  nextAmong (c.length + 1) w c

/-! ### Erasing -/

/-- Erases the element that the walk has just returned. Tells whether its block is gone. -/
def erase (w : Walk) (c : Chain) (h : Handle) : Except Fault (Walk × Chain × Bool) :=
  match w.current with
  | none => .error .notCurrent
  | some i =>
    if c.id? i = some h.block then do
      let (c, gone) ← c.eraseAt i h.place.idx
      let w :=
        if gone then
          match w.origin with
          | .head => w.enter (if i < c.length then some i else none)
          | .tail => w.enter (step? .tail c.length i)
        -- in a block that is still there the offset names the element that comes next
        else { w with place := none }
      return (w, c.touch, gone)
    else .error .notCurrent

/-- Ends a walk: the block it is in is left as any other. -/
def finish (w : Walk) (c : Chain) : Except Fault Chain :=
  match w.current with
  | some i => c.recompress i
  | none => .ok c

/-- The elements that are left of a walk, of which there are at most `n`. -/
def collect : (n : Nat) → Walk → Chain → Except Fault (List Value)
  | n, w, c => go n w c []
where
  /-- Adds the elements that are left to those already met, the last one first. -/
  go : (n : Nat) → Walk → Chain → List Value → Except Fault (List Value)
    | 0, _, _, met => .ok met.reverse
    | n + 1, w, c, met => do
      let (w, c, h) ← w.next c
      match h with
      | some h => go n w c (h.value :: met)
      | none => return met.reverse

end Walk

end UnrolledList
