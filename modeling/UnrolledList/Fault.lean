/-!
# Faults

A fault is a broken promise: a handle used after the list was changed, a size that no
machine can hold, or a state that no sequence of operations should reach. Operations that
could meet one say so in their type and stop there; what a caller may legitimately ask in
vain – an index out of range, the end of an empty list – is an `Option` and not a fault.
-/

namespace UnrolledList

/-- Why an operation cannot go on. -/
inductive Fault where
  /-- The list was changed after the handle was taken. -/
  | staleHandle
  /-- The list has no such block. -/
  | missingBlock
  /-- The compressed bytes of a block do not give back a packed list. -/
  | corruptBlock
  /-- The element to be erased is not the one that a walk has just returned. -/
  | notCurrent
  /-- A counter would become negative. -/
  | underflow
  /-- A size is beyond what a machine word, memory, or the header of a packed list can
  hold. -/
  | overflow
  /-- A compressor was about to write beyond the end of its output. -/
  | outputOverrun
deriving DecidableEq, Repr

/-- The difference of two counters. -/
def subtract (a b : Nat) : Except Fault Nat :=
  if b ≤ a then .ok (a - b) else .error .underflow

end UnrolledList
