import UnrolledList.Chain.Ends

/-!
# Handles

A handle says where an element is: in which block, at which place of its packed list, and
at which offset counted in entries – from zero on when it was found from the head, from
`-1` downwards when it was found from the tail. It also carries the value that was read
there.

Finding an element opens its block for use and leaves it open, because the caller usually
goes on to work there. `UnrolledList.Chain.get?` is the access that does not: it settles
the block again.

A handle is checked by its stamp whenever something is to be changed through it.
-/

namespace UnrolledList

/-- Where an element is. -/
structure Handle where
  /-- The block. -/
  block : BlockId
  /-- The place in the packed list of the block. -/
  place : Cursor
  /-- The number of entries before it in the block; if negative, counted from the end. -/
  offset : Int
  /-- The element. -/
  value : Value
  /-- The stamp of the list when the handle was taken. -/
  stamp : UInt64
deriving DecidableEq

namespace Chain

/-! ### Finding -/

/-- The handle of the entry at a place of block number `i`, if there is one. -/
def handleAt? (c : Chain) (i : Nat) (place : Cursor) (offset : Int) :
    Except Fault (Option Handle) := do
  let p ← (← c.block i).packed
  return do
    let id ← c.id? i
    let v ← p.get? place
    return ⟨id, place, offset, v, c.stamp⟩

/-- The block that holds entry number `k` of those from block number `i` on, and the number
of the entry there. -/
def seekForward? (cells : Array Cell) (i k : Nat) : Option (Nat × Nat) :=
  if h : i < cells.size then
    let n := cells[i].block.count
    if k < n then some (i, k) else seekForward? cells (i + 1) (k - n)
  else none
termination_by cells.size - i

/-- The block that holds entry number `k` of those in the blocks before number `i`, counted
from the last one, and the number of the entry there, counted in the same way. -/
def seekBackward? (cells : Array Cell) : (i k : Nat) → Option (Nat × Nat)
  | 0, _ => none
  | i + 1, k =>
    match cells[i]? with
    | none => none
    | some cell =>
      let n := cell.block.count
      if k < n then some (i, k) else seekBackward? cells i (k - n)

/-- The block that holds the element with an index, and its offset there. -/
def locate? (c : Chain) (i : Int) : Option (Nat × Int) :=
  if i < 0 then
    let k := (-(i + 1)).toNat
    if k < c.count then
      (seekBackward? c.cells c.length k).map fun (j, k) => (j, -(k : Int) - 1)
    else none
  else
    let k := i.toNat
    if k < c.count then (seekForward? c.cells 0 k).map fun (j, k) => (j, (k : Int)) else none

/-- Finds the element with an index, and the number of its block. The block is left open
for use. -/
def find? (c : Chain) (i : Int) : Except Fault (Chain × Option (Nat × Handle)) :=
  match c.locate? i with
  | none => .ok (c, none)
  | some (j, offset) => do
    let c ← c.openForUse j
    let p ← (← c.block j).packed
    match p.seek? offset with
    | none => return (c, none)
    | some place => do
      let h ← c.handleAt? j place offset
      return (c, h.map fun h => (j, h))

/-- Finds the element with an index; a negative one counts from the tail. The block that
holds it is left open for use. -/
def index (c : Chain) (i : Int) : Except Fault (Chain × Option Handle) := do
  let (c, found) ← c.find? i
  return (c, found.map Prod.snd)

/-- The element with an index. The compression of the list is left as it was. -/
def get? (c : Chain) (i : Int) : Except Fault (Chain × Option Value) := do
  let (c, found) ← c.find? i
  match found with
  | none => return (c, none)
  | some (j, h) => do
    let c ← c.settle j
    return (c, some h.value)

/-! ### Overwriting -/

/-- Fails if the list was changed since a handle was taken. -/
def checkFresh (c : Chain) (h : Handle) : Except Fault Unit :=
  if h.stamp = c.stamp then .ok () else .error .staleHandle

/-- Overwrites entry number `k` of block number `i`. -/
def overwrite (c : Chain) (i k : Nat) (s : Bytes) : Except Fault Chain := do
  let c ← c.modifyBlock i fun b => b.modify fun p => (p.eraseIdx k 1).insertIdx k s
  let c ← c.recompress i
  return c.touch

/-- Overwrites the element that a handle names. -/
def replace (c : Chain) (h : Handle) (s : Bytes) : Except Fault Chain := do
  c.checkFresh h
  c.overwrite (← c.idxOf h.block) h.place.idx s

/-- Overwrites the element with an index. Tells whether there is one. -/
def replaceAt (c : Chain) (i : Int) (s : Bytes) : Except Fault (Chain × Bool) := do
  let (c, found) ← c.find? i
  match found with
  | none => return (c, false)
  | some (j, h) => do
    let c ← c.overwrite j h.place.idx s
    return (c, true)

end Chain

end UnrolledList
