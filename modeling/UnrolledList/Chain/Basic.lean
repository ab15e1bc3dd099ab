import UnrolledList.Block
import UnrolledList.Chain.Arena
import UnrolledList.Fill

/-!
# The chain of blocks

A `UnrolledList.Chain` is a row of blocks from head to tail. What it holds, as seen from
outside, is the sequence of the elements of its blocks
(`UnrolledList.Chain.elements`).

## Numbers and names

Inside an operation a block is addressed by its **number**, counted from the head; its
neighbours are the numbers on either side. A number is good until a block is added or
removed.

From outside a block is addressed by its **name** (`UnrolledList.BlockId`), which stays with
it while blocks come and go around it. The names, and the links from each block to the two
beside it, are kept in the arena of the list (`UnrolledList.Chain.arena`).

## The stamp

A handle to an element is good until the list is changed. Every change of what the list
holds advances the stamp by one, and a handle carries the stamp under which it was
taken.
-/

namespace UnrolledList

/-- A block with its name. -/
structure Cell where
  /-- The name. -/
  id : BlockId
  /-- The block. -/
  block : Block
deriving DecidableEq, Inhabited

/-- A list of blocks. -/
structure Chain where
  /-- The blocks from head to tail. -/
  cells : Array Cell := #[]
  /-- The names of the blocks, and how the blocks are linked. -/
  arena : Arena := .empty
  /-- The number of elements. -/
  count : Nat := 0
  /-- How much goes into one block. -/
  fill : Fill := .default
  /-- How many blocks at each end are kept plain; with zero, all of them are. -/
  depth : Nat := 0
  /-- How often the list was changed. -/
  stamp : UInt64 := 0
deriving DecidableEq

namespace Chain

/-! ### Options -/

/-- The greatest depth. -/
def maxDepth : Int := 65536

/-- The empty list with the default options. -/
def empty : Chain := {}

instance : Inhabited Chain := ⟨empty⟩

/-- The same list under another fill. Blocks that exist are left as they are. -/
def withFill (c : Chain) (setting : Int) : Chain :=
  { c with fill := .ofSetting setting }

/-- The same list under another depth, which is moved into range. Blocks that exist are
left as they are. -/
def withDepth (c : Chain) (depth : Int) : Chain :=
  { c with depth := (min depth maxDepth).toNat }

/-- The same list under other options. -/
def withOptions (c : Chain) (setting depth : Int) : Chain :=
  (c.withFill setting).withDepth depth

/-- The empty list with the given options. -/
def ofOptions (setting depth : Int) : Chain :=
  empty.withOptions setting depth

/-! ### Reading -/

/-- The blocks from head to tail. -/
def blocks (c : Chain) : List Block :=
  c.cells.toList.map Cell.block

/-- The names of the blocks from head to tail. -/
def ids (c : Chain) : List BlockId :=
  c.cells.toList.map Cell.id

/-- The names that were given up, the last one first. -/
def vacant (c : Chain) : List BlockId :=
  c.arena.free

/-- How many names have been made. -/
def slots (c : Chain) : Nat :=
  c.arena.nodes.size

/-- The elements from head to tail. -/
def elements (c : Chain) : List Value :=
  c.blocks.flatMap Block.values

/-- The number of blocks. -/
def length (c : Chain) : Nat :=
  c.cells.size

/-- Whether the list has no element. -/
def isEmpty (c : Chain) : Bool :=
  c.count = 0

/-- The number of the block at an end. -/
def endIdx? (c : Chain) (side : Side) : Option Nat :=
  if c.length = 0 then none
  else
    match side with
    | .head => some 0
    | .tail => some (c.length - 1)

/-- Block number `i`. -/
def block (c : Chain) (i : Nat) : Except Fault Block :=
  match c.cells[i]? with
  | some cell => .ok cell.block
  | none => .error .missingBlock

/-- The name of block number `i`. -/
def id? (c : Chain) (i : Nat) : Option BlockId :=
  c.cells[i]?.map Cell.id

/-- The number of the block with a name. -/
def idxOf (c : Chain) (id : BlockId) : Except Fault Nat :=
  match c.cells.findIdx? fun cell => cell.id = id with
  | some i => .ok i
  | none => .error .missingBlock

/-! ### Changing blocks -/

/-- Takes block number `i` out of its cell, so that it can be changed in place. -/
@[noinline] def takeCell (cells : Array Cell) (i : Nat) (h : i < cells.size) :
    Cell × Array Cell :=
  (cells[i], cells.set i default h)

/-- Changes block number `i`. -/
def modifyBlock (c : Chain) (i : Nat) (f : Block → Except Fault Block) : Except Fault Chain :=
  match c with
  | ⟨cells, arena, count, fill, depth, stamp⟩ =>
    if h : i < cells.size then
      match takeCell cells i h with
      | (⟨id, b⟩, cells) => do
        let b ← f b
        return ⟨cells.setIfInBounds i ⟨id, b⟩, arena, count, fill, depth, stamp⟩
    else .error .missingBlock

/-- What is left of a change is the block in its cell. -/
theorem modifyBlock_eq (c : Chain) {i : Nat} (h : i < c.cells.size)
    (f : Block → Except Fault Block) :
    c.modifyBlock i f =
      (f c.cells[i].block).map fun b =>
        { c with cells := c.cells.set i ⟨c.cells[i].id, b⟩ } := by
  obtain ⟨cells, arena, count, fill, depth, stamp⟩ := c
  simp only at h
  simp only [modifyBlock, takeCell, h, dite_true]
  cases f cells[i].block <;>
    simp [bind, Except.bind, pure, Except.pure, Except.map, Array.setIfInBounds, h]

/-- Puts a block before block number `i`, or at the tail if there are only `i`. -/
def insertCell (c : Chain) (i : Nat) (new : Cell) : Except Fault Chain :=
  match c with
  | ⟨cells, arena, count, fill, depth, stamp⟩ =>
    if h : i ≤ cells.size then
      .ok ⟨cells.insertIdx i new h, arena, count, fill, depth, stamp⟩
    else .error .missingBlock

/-- Takes block number `i` out, unlinks it and gives up its name. -/
def removeCell (c : Chain) (i : Nat) : Except Fault (Chain × Block) :=
  match c with
  | ⟨cells, arena, count, fill, depth, stamp⟩ =>
    if h : i < cells.size then
      match cells[i] with
      | ⟨id, b⟩ => do
        let arena ← arena.removeNode id
        return (⟨cells.eraseIdx i h, arena, count, fill, depth, stamp⟩, b)
    else .error .missingBlock

/-- Advances the stamp: handles taken before are no longer good. -/
def touch (c : Chain) : Chain :=
  { c with stamp := c.stamp + 1 }

/-- Sets the number of elements. -/
def withCount (c : Chain) (n : Nat) : Chain :=
  { c with count := n }

/-- The same list with another arena. -/
def withArena (c : Chain) (arena : Arena) : Chain :=
  { c with arena := arena }

/-- A name that is not in use, and the list that knows it is. -/
def takeId (c : Chain) : BlockId × Chain :=
  match c with
  | ⟨cells, arena, count, fill, depth, stamp⟩ =>
    match arena.alloc with
    | (id, arena) => (id, ⟨cells, arena, count, fill, depth, stamp⟩)

/-! ### Admission -/

/-- Whether block number `i` takes one more entry of `n` bytes. -/
def admits (c : Chain) (i n : Nat) : Except Fault Bool := do
  let b ← c.block i
  match c.fill.admits? b.size b.count n with
  | some answer => return answer
  | none => throw .overflow

/-- Whether block number `i` and the one after it fit into one. -/
def admitsMerge (c : Chain) (i : Nat) : Except Fault Bool := do
  let a ← c.block i
  let b ← c.block (i + 1)
  match c.fill.admitsMerge? a.size a.count b.size b.count with
  | some answer => return answer
  | none => throw .overflow

end Chain

end UnrolledList
