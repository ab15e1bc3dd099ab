import UnrolledList.Lzf.Instruction

/-!
# Writing instructions

The compressor decides byte by byte, but literal bytes are written in runs whose length
stands in front of them. A `UnrolledList.Lzf.Writer` therefore holds the instructions
that are finished and, apart from them, the **open run**. A run is closed when it is full
or when a copy follows.

An open run takes room while it is still empty: the byte for its length is set aside when
the run is opened, before it is known whether a literal byte will come. What an empty run
has set aside is given back when a copy or the end follows instead.
-/

namespace UnrolledList

namespace Lzf

/-- The output of a compressor under way. -/
structure Writer where
  /-- The finished instructions. -/
  out : Array UInt8 := #[]
  /-- The bytes of the open run. -/
  pending : Array UInt8 := #[]

namespace Writer

/-- Writes the open run, if it has any bytes. -/
def close (w : Writer) : Writer :=
  if w.pending.isEmpty then w
  else { out := w.out ++ (Instruction.run w.pending.size).encode ++ w.pending, pending := #[] }

/-- Adds a literal byte to the open run, and closes it when it is full. -/
def literal (w : Writer) (b : UInt8) : Writer :=
  let w := { w with pending := w.pending.push b }
  if w.pending.size = maxRun then w.close else w

/-- Writes a copy. -/
def copy (w : Writer) (distance length : Nat) : Writer :=
  let w := w.close
  { w with out := w.out ++ (Instruction.copy distance length).encode }

/-- Where the byte for the length of the open run belongs. -/
def lengthPos (w : Writer) : Nat :=
  w.out.size

/-- The room taken so far, with the byte for the length of the open run. -/
def size (w : Writer) : Nat :=
  w.lengthPos + 1 + w.pending.size

/-- All that was written. -/
def finish (w : Writer) : Bytes :=
  w.close.out.toList

end Writer

end Lzf

end UnrolledList
