import UnrolledList.Fault

/-!
# Names and links

A block is known by its name, and with each name goes what the block knows of its
neighbours: the names of the two blocks beside it. They are kept in an **arena**
(`UnrolledList.Arena`), in a slot for each name, together with the names of the blocks at the
two ends and the number of the blocks.

## Names

Names are reused: the name that was given up last is the first to be given out again, and a
new one is made only when there is none to reuse. So a slot is either empty, and its name
free, or it belongs to a block.

## Links

A block that comes is linked beside one that is there, and up to three blocks get to know a
new neighbour; when a block goes, its two neighbours get to know each other. Towards the head
and towards the tail everything is the same with the sides exchanged.

A name whose slot is empty must not be asked for its neighbours. Whoever does it all the same
stops (`UnrolledList.Arena.node`).
-/

namespace UnrolledList

/-- The name of a block. -/
structure BlockId where
  /-- The number of the name, in the order in which names are made. -/
  slot : Nat
deriving DecidableEq, Inhabited, Repr

/-- One of the two ends of a list. -/
inductive Side where
  /-- The beginning. -/
  | head
  /-- The end. -/
  | tail
deriving DecidableEq, Repr

/-- The other end. -/
def Side.opposite : Side → Side
  | head => tail
  | tail => head

/-- The blocks beside a block. -/
structure Links where
  /-- The one on the side of the head. -/
  prev : Option BlockId := none
  /-- The one on the side of the tail. -/
  next : Option BlockId := none
deriving DecidableEq, Inhabited, Repr

namespace Links

/-- The block on one side. -/
def beside (k : Links) : Side → Option BlockId
  | .head => k.prev
  | .tail => k.next

/-- Another block on one side. -/
def link (k : Links) (side : Side) (id : Option BlockId) : Links :=
  match side with
  | .head => { k with prev := id }
  | .tail => { k with next := id }

end Links

/-- The names of the blocks of a list, and how the blocks are linked. -/
structure Arena where
  /-- The blocks beside each block. The slot of a name that was given up is empty. -/
  nodes : Array (Option Links) := #[]
  /-- The names that were given up, the last one first. -/
  free : List BlockId := []
  /-- A name that was given up was made. -/
  free_lt : ∀ id ∈ free, id.slot < nodes.size := by simp
  /-- The block at the beginning. -/
  head : Option BlockId := none
  /-- The block at the end. -/
  tail : Option BlockId := none
  /-- The number of blocks. -/
  len : Nat := 0
deriving DecidableEq

namespace Arena

/-- The arena of a list without blocks. -/
def empty : Arena := {}

instance : Inhabited Arena := ⟨empty⟩

/-! ### Reading -/

/-- The neighbours of a block, if the name is that of one. -/
def link? (a : Arena) (id : BlockId) : Option Links :=
  a.nodes[id.slot]?.join

/-- The neighbours of a block. -/
def node (a : Arena) (id : BlockId) : Except Fault Links :=
  match a.link? id with
  | some k => .ok k
  | none => .error .missingBlock

/-- The block at an end. -/
def endId? (a : Arena) : Side → Option BlockId
  | .head => a.head
  | .tail => a.tail

/-! ### Changing neighbours -/

/-- The arena in which a block has another neighbour on a side. An empty slot stays empty. -/
def withLink (a : Arena) (id : BlockId) (side : Side) (other : Option BlockId) : Arena :=
  { a with
    nodes := a.nodes.modify id.slot (Option.map (·.link side other))
    free_lt := by simpa using a.free_lt }

/-- Gives a block another neighbour on a side. -/
def link (a : Arena) (id : BlockId) (side : Side) (other : Option BlockId) :
    Except Fault Arena := do
  let _ ← a.node id
  return a.withLink id side other

/-- Gives a block another neighbour on a side, if there is such a block. -/
def linkIfAny (a : Arena) (id : Option BlockId) (side : Side) (other : Option BlockId) :
    Except Fault Arena :=
  match id with
  | some id => a.link id side other
  | none => .ok a

/-- Another block at an end. -/
def withEnd (a : Arena) (side : Side) (id : Option BlockId) : Arena :=
  match side with
  | .head => { a with head := id }
  | .tail => { a with tail := id }

/-- Another block at an end, if the block `old` was there. -/
def replaceEnd (a : Arena) (side : Side) (old new : Option BlockId) : Arena :=
  if a.endId? side = old then a.withEnd side new else a

/-! ### Taking names and giving them up -/

/-- A name that is not in use, for a block that has no neighbours yet. -/
def alloc (a : Arena) : BlockId × Arena :=
  match a with
  | ⟨nodes, id :: free, hfree, head, tail, len⟩ =>
    (id, ⟨nodes.setIfInBounds id.slot (some {}), free,
      fun id' hid' => by simpa using hfree id' (List.mem_cons_of_mem id hid'), head, tail, len⟩)
  | ⟨nodes, [], _, head, tail, len⟩ =>
    (⟨nodes.size⟩, ⟨nodes.push (some {}), [], by simp, head, tail, len⟩)

/-- Gives up the name of a block, whose neighbours are returned. -/
def release (a : Arena) (id : BlockId) : Except Fault (Links × Arena) :=
  match a with
  | ⟨nodes, free, hfree, head, tail, len⟩ =>
    if h : id.slot < nodes.size then
      match nodes[id.slot] with
      | some k =>
        .ok (k, ⟨nodes.set id.slot none, id :: free, by simpa using ⟨h, hfree⟩, head, tail, len⟩)
      | none => .error .missingBlock
    else .error .missingBlock

/-! ### Linking -/

/-- Makes the block `new` the neighbour of the block `old` on a side of it, and of the one that
was there. -/
def linkBeside (a : Arena) (old : Option BlockId) (side : Side) (new : BlockId) :
    Except Fault Arena := do
  let a ← a.link new side.opposite old
  match old with
  | some old => do
    let beyond := (← a.node old).beside side
    let a ← a.link new side beyond
    let a ← a.linkIfAny beyond side.opposite new
    a.link old side new
  | none => return a

/-- Makes the block `new` an end, if the block `old` was that, or if it is the first one. -/
def stretch (a : Arena) (old : Option BlockId) (side : Side) (new : BlockId) : Arena :=
  let a := a.replaceEnd side old new
  if a.len = 0 then (a.withEnd .head new).withEnd .tail new else a

/-- Links the block `new`, whose name was taken for it, on a side of the block `old`. Only the
first block of a list is linked beside none. -/
def insertNode (a : Arena) (old : Option BlockId) (side : Side) (new : BlockId) :
    Except Fault Arena := do
  let a ← a.linkBeside old side new
  let a := a.stretch old side new
  let n := a.len
  return { a with len := n + 1 }

/-- Makes the neighbours of a block the ends where the block was an end. -/
def shrink (a : Arena) (id : BlockId) (k : Links) : Arena :=
  (a.replaceEnd .tail id k.prev).replaceEnd .head id k.next

/-- Unlinks a block and gives up its name. -/
def removeNode (a : Arena) (id : BlockId) : Except Fault Arena := do
  let (k, a) ← a.release id
  let a ← a.linkIfAny k.next .head k.prev
  let a ← a.linkIfAny k.prev .tail k.next
  let a := a.shrink id k
  let n ← subtract a.len 1
  return { a with len := n }

/-! ### Copying -/

/-- Links a block at the tail, whose name was taken for it. -/
def linkTail (a : Arena) (id : BlockId) : Arena :=
  let last := a.tail
  let n := a.len
  let a := a.withLink id .head last
  let a := match last with
    | some last => a.withLink last .tail id
    | none => a.withEnd .head id
  { a.withEnd .tail id with len := n + 1 }

/-- The arena of so many blocks that were linked one after the other. -/
def row : (n : Nat) → Arena
  | 0 => empty
  | n + 1 =>
    let (id, a) := (row n).alloc
    a.linkTail id

end Arena

end UnrolledList
