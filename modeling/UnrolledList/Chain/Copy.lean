import UnrolledList.Chain.Walk

/-!
# Copying a list

A copy holds the same blocks, compressed or not, under names of its own: they are numbered
from head to tail. Nobody has a handle to it, so it starts with a stamp of zero, and none
of its blocks is open for use.

A walk opens blocks and restores their compression, so it changes the list even when it
only reads. To read a list and leave it alone, one walks through a copy
(`UnrolledList.Chain.read`).
-/

namespace UnrolledList

namespace Chain

/-- A copy of a list. -/
def duplicate (c : Chain) : Chain where
  cells := c.cells.mapIdx fun i cell => ⟨⟨i⟩, cell.block.duplicate⟩
  arena := .row c.length
  count := c.cells.foldl (fun n cell => n + cell.block.count) 0
  fill := c.fill
  depth := c.depth

/-- The elements of a list from an end on, read from a copy. -/
def read (c : Chain) (origin : Side) : Except Fault (List Value) :=
  let copy := c.duplicate
  (Walk.ofEnd copy origin).collect (copy.count + 1) copy

end Chain

end UnrolledList
