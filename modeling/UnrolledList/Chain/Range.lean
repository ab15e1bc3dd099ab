import UnrolledList.Chain.Handle

/-!
# Erasing a range

A range of elements is erased block by block: blocks that lie in the range as a whole are
removed without being opened, and only at the two ends of the range are entries erased
from within a block.

The range begins at an index of either sign and never wraps around: one that is too long
ends with the list.
-/

namespace UnrolledList

namespace Chain

/-- How many elements a range has that begins at index `start` of a list of `count`, if
`n` were asked for. A start before the head of the list is counted as if it were within. -/
def rangeLength (count : Nat) (start : Int) (n : Nat) : Nat :=
  if 0 ≤ start then min n (count - start.toNat) else min n start.natAbs

/-- How many of the `extent` elements to be erased lie in a block of `count` entries, of
which the first to go is at `offset`. -/
def shareOfBlock (count : Nat) (offset : Int) (extent : Nat) : Nat :=
  if offset < 0 then min offset.natAbs extent
  else min (count - offset.toNat) extent

/-- Erases `n` entries of block number `i` from an offset on, and the block if it had no
others. Tells whether the block is gone. -/
def eraseWithin (c : Chain) (i : Nat) (offset : Int) (n : Nat) :
    Except Fault (Chain × Bool) := do
  let c ← c.openForUse i
  let c ← c.modifyBlock i fun b => do
    let left ← subtract b.count n
    let b ← b.modify fun p => (p.eraseRange offset n).1
    return b.withCount left
  let left ← subtract c.count n
  let c := c.withCount left
  let gone := (← c.block i).count = 0
  let c ← if gone then c.unlink i else c.settle i
  return (c, gone)

/-- Erases `extent` elements from block number `i` on, beginning at an offset of that block.
`blocks` is how many blocks there are from there on. -/
def eraseFrom : (blocks : Nat) → (i : Nat) → (offset : Int) → (extent : Nat) → Chain →
    Except Fault Chain
  | 0, _, _, _, c => .ok c
  | blocks + 1, i, offset, extent, c =>
    if extent = 0 then .ok c
    else do
      let count := (← c.block i).count
      if offset = 0 ∧ count ≤ extent then do
        let c ← c.unlink i
        eraseFrom blocks i 0 (extent - count) c
      else do
        let share := shareOfBlock count offset extent
        let (c, gone) ← c.eraseWithin i offset share
        eraseFrom blocks (if gone then i else i + 1) 0 (extent - share) c

/-- Erases `n` elements from index `start` on. Tells whether there was one to erase. -/
def eraseRange (c : Chain) (start n : Int) : Except Fault (Chain × Bool) :=
  if n ≤ 0 then .ok (c, false)
  else do
    let extent := rangeLength c.count start n.toNat
    let (c, found) ← c.find? start
    match found with
    | none => return (c, false)
    | some (i, h) => do
      let c ← eraseFrom (c.length - i) i h.offset extent c
      return (c.touch, true)

end Chain

end UnrolledList
