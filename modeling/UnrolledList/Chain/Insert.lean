import UnrolledList.Chain.Handle

/-!
# Inserting beside an element

A string is inserted beside an element into the block that holds it, if the block admits
one more entry. A block that is full is passed over in this order:

1. At the outer edge of the block, the string may go to the neighbour that it then stands
   next to, **if that neighbour admits it**.
2. At the outer edge of the block, with a neighbour that is full as well, the string gets a
   block of its own between the two.
3. Otherwise the block is split at the element, the string goes to the end of the new half
   that faces the cut, and the blocks around the cut are merged again as far as they fit.

## The merge sweep

A split leaves two blocks where there was one, and at most five of the blocks around it are
looked at: the two before the block that was split, the block itself, and the two after
it. The outer pairs are merged first, then the middle with its left neighbour, then the
result with its right neighbour.
-/

namespace UnrolledList

namespace Packed

/-- The entries up to number `k`, and those after it. -/
def splitAfter (p : Packed) (k : Nat) : Packed × Packed :=
  ((p.eraseRange (k + 1) p.entries.size).1, (p.eraseRange 0 (k + 1)).1)

/-- The entries before number `k`, and those from it on. -/
def splitBefore (p : Packed) (k : Nat) : Packed × Packed :=
  ((p.eraseRange k p.entries.size).1, (p.eraseRange 0 k).1)

/-- The half with entry number `k`, and the other one, which lies on the given side of
it. -/
def halves (p : Packed) (k : Nat) : Place → Packed × Packed
  | .after => p.splitAfter k
  | .before => ((p.splitBefore k).2, (p.splitBefore k).1)

end Packed

/-- Adds a string at the end of a block that faces another one, on whose given side it
is. -/
def Block.pushFacing (place : Place) (s : Bytes) (b : Block) : Except Fault Block :=
  match place with
  | .after => b.pushFront s
  | .before => b.pushBack s

namespace Chain

/-! ### Merging -/

/-- Moves the entries of the block after number `i` behind those of block number `i`, and
removes that block. -/
def mergeWithNext (c : Chain) (i : Nat) : Except Fault Chain := do
  let right ← c.block (i + 1)
  let q ← right.packed
  let c ← c.modifyBlock i fun left => do
    let n := left.count + right.count
    let left ← left.modify fun p => p ++ q
    return left.withCount n
  -- the entries live on in block `i`, so removing the other must not take them off the count
  let c ← c.modifyBlock (i + 1) fun b => .ok (b.withCount 0)
  let c ← c.unlink (i + 1)
  c.recompress i

/-- Merges block number `i` and the one after it, if they are there and fit into one. -/
def mergeIfFits (c : Chain) (i : Nat) : Except Fault (Chain × Bool) :=
  if i + 1 < c.length then do
    if ← c.admitsMerge i then
      let c ← c.mergeWithNext i
      return (c, true)
    else return (c, false)
  else .ok (c, false)

/-- Merges block number `i - distance` and the one after it, if they are there and fit into
one, and tells the number that block `i` or what it became has then. -/
def mergeBefore (c : Chain) (i distance : Nat) : Except Fault (Chain × Nat) :=
  if distance ≤ i then do
    let (c, merged) ← c.mergeIfFits (i - distance)
    return (c, if merged then i - 1 else i)
  else .ok (c, i)

/-- **Merges the blocks around number `i`** as far as they fit. -/
def mergeAround (c : Chain) (i : Nat) : Except Fault Chain := do
  let (c, i) ← c.mergeBefore i 2
  let (c, _) ← c.mergeIfFits (i + 1)
  let (c, i) ← c.mergeBefore i 1
  let (c, _) ← c.mergeIfFits i
  return c

/-! ### Splitting -/

/-- Splits block number `i` at entry number `k` and returns the new half, which is not yet
in the list. The block keeps entry `k`; the new half is what lies on the given side of
it. -/
def splitBlock (c : Chain) (i k : Nat) (place : Place) : Except Fault (Chain × Cell) := do
  let p ← (← c.block i).packed
  let (kept, split) := p.halves k place
  let c ← c.modifyBlock i fun b => do
    let b ← b.modify fun _ => kept
    return b.withCount kept.length
  let (new, c) := c.takeId
  return (c, ⟨new, Block.ofPacked split⟩)

/-- Inserts a string beside entry number `k` of a full block by splitting it there. -/
def insertSplitting (c : Chain) (i k : Nat) (place : Place) (s : Bytes) :
    Except Fault Chain := do
  let c ← c.openForUse i
  let (c, half) ← c.splitBlock i k place
  -- the string goes to the side of the new half that faces the cut, admitted or not
  let b ← half.block.pushFacing place s
  let c ← c.linkBeside i place ⟨half.id, b⟩
  c.mergeAround <|
    match place with
    | .after => i
    | .before => i + 1

/-! ### Inserting -/

/-- Inserts a string beside an entry of a block that admits it. -/
def insertWithin (c : Chain) (i : Nat) (entry : Cursor) (place : Place) (s : Bytes) :
    Except Fault Chain := do
  let c ← c.openForUse i
  let c ← c.modifyBlock i fun b => do
    let n := b.count
    let b ← b.modify fun p => p.insertIdx (place.cut entry.idx) s
    return b.withCount (n + 1)
  c.settle i

/-- Inserts a string at the end of the neighbour `j` of block number `i` that faces it. -/
def insertInNeighbour (c : Chain) (i j : Nat) (facing : Side) (s : Bytes) :
    Except Fault Chain := do
  let c ← c.openForUse j
  let c ← c.pushInto j facing s
  let c ← c.settle j
  c.settle i

/-- The neighbour that an insertion beside entry number `k` of block number `i` would stand
next to, and the end of it that faces the block. -/
def neighbourAt? (c : Chain) (i : Nat) (k : Int) (place : Place) :
    Except Fault (Option (Nat × Side)) := do
  let b ← c.block i
  return match place with
    | .after => if k = b.count - 1 ∧ i + 1 < c.length then some (i + 1, .head) else none
    | .before => if k = 0 ∧ 0 < i then some (i - 1, .tail) else none

/-- Inserts a string beside entry number `k` of a full block. -/
def insertBeyond (c : Chain) (i : Nat) (k : Int) (place : Place) (s : Bytes) :
    Except Fault Chain := do
  match ← c.neighbourAt? i k place with
  | some (j, facing) => do
    if ← c.admits j s.length then c.insertInNeighbour i j facing s
    else do
      let b ← Block.singleton s
      let (new, c) := c.takeId
      c.linkBeside i place ⟨new, b⟩
  | none => c.insertSplitting i k.toNat place s

/-- Inserts a string beside the element that a handle names. -/
def insertBeside (c : Chain) (h : Handle) (place : Place) (s : Bytes) :
    Except Fault Chain := do
  c.checkFresh h
  let i ← c.idxOf h.block
  let n := (← c.block i).count
  let k := if h.offset < 0 then h.offset + n else h.offset
  let c ← if ← c.admits i s.length then c.insertWithin i h.place place s
    else c.insertBeyond i k place s
  let n := c.count
  return (c.withCount (n + 1)).touch

/-- Inserts a string beside an element, or without one at the end of the list that the
place stands for. -/
def insert (c : Chain) (h : Option Handle) (place : Place) (s : Bytes) :
    Except Fault Chain :=
  match h with
  | some h => c.insertBeside h place s
  | none => do
    let side : Side := match place with
      | .after => .tail
      | .before => .head
    let (c, _) ← c.push side s
    return c

end Chain

end UnrolledList
