import UnrolledList.Chain.Depth

/-!
# Adding and removing blocks

Blocks enter the chain beside a block that is already there. Whether they come or go, other
blocks may cross the boundaries of compression, so both ways end by restoring them.
-/

namespace UnrolledList

/-- One of the two places beside an element or a block. -/
inductive Place where
  /-- On the side of the head. -/
  | before
  /-- On the side of the tail. -/
  | after
deriving DecidableEq, Repr

/-- The end of the list towards which the place lies. -/
def Place.side : Place → Side
  | before => .head
  | after => .tail

/-- The place towards an end of the list. -/
def Side.place : Side → Place
  | head => .before
  | tail => .after

/-- The number of entries before the place beside entry number `k`. -/
def Place.cut : Place → (k : Nat) → Nat
  | .before, k => k
  | .after, k => k + 1

namespace Chain

/-- The name of the block beside which another one is put. Only the first block of a list is
put beside none. -/
def idBeside (c : Chain) (beside : Option Nat) : Except Fault (Option BlockId) :=
  match beside with
  | some i =>
    match c.id? i with
    | some id => .ok (some id)
    | none => .error .missingBlock
  | none => if c.length = 0 then .ok none else .error .missingBlock

/-- Puts a block beside another one, if there is one, and links the two. Its name has to be
taken beforehand. -/
def linkCell (c : Chain) (beside : Option Nat) (place : Place) (new : Cell) :
    Except Fault Chain := do
  let old ← c.idBeside beside
  let arena ← c.arena.insertNode old place.side new.id
  (c.withArena arena).insertCell (beside.elim 0 place.cut) new

/-- Puts a block beside block number `i`. Its name has to be taken beforehand. -/
def linkBeside (c : Chain) (i : Nat) (place : Place) (new : Cell) : Except Fault Chain :=
  match place with
  | .before => do
    let c ← c.linkCell (some i) .before new
    let c ← c.recompress (i + 1)
    c.recompress i
  | .after => do
    let c ← c.linkCell (some i) .after new
    let c ← c.recompress i
    c.recompress (i + 1)

/-- Puts a block at an end of the list. Its name has to be taken beforehand. -/
def linkAt (c : Chain) (side : Side) (new : Cell) : Except Fault Chain :=
  match c.endIdx? side with
  | some i => c.linkBeside i side.place new
  | none => do
    let c ← c.linkCell none side.place new
    c.recompress 0

/-- Removes block number `i`, dropping its elements from the count and giving up its
name. -/
def unlink (c : Chain) (i : Nat) : Except Fault Chain := do
  let (c, b) ← c.removeCell i
  let n ← subtract c.count b.count
  -- the gap may have drawn a compressed block over one of the boundaries
  (c.withCount n).enforce none

/-- Removes entry number `k` of block number `i`, and the block with its last entry. Tells
whether the block is gone. -/
def eraseAt (c : Chain) (i k : Nat) : Except Fault (Chain × Bool) := do
  let c ← c.modifyBlock i fun b => do
    let n ← subtract b.count 1
    let b ← b.modify fun p => p.eraseIdx k 1
    return b.withCount n
  let gone := (← c.block i).count = 0
  let c ← if gone then c.unlink i else pure c
  let n ← subtract c.count 1
  return (c.withCount n, gone)

end Chain

end UnrolledList
