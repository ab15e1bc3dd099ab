import UnrolledList.Bytes

/-!
# The LZF format

A compressed string is a sequence of instructions that write an output from left to
right:

* a **run** puts down between 1 and 32 bytes that follow the instruction;
* a **copy** repeats between 3 and 264 bytes that begin at most 8192 bytes back in the
  output. The distance may be shorter than the length, in which case the copy reads
  bytes that it has itself put down.

The first byte tells which: below 32 it is a run of one byte more; otherwise its three
high bits and five low bits begin the length and the distance of a copy. This file holds
the instructions and their bytes; `UnrolledList.Lzf.Expand` runs them and
`UnrolledList.Lzf.Compress` chooses them.
-/

namespace UnrolledList

namespace Lzf

/-- The longest run of literal bytes. -/
def maxRun : Nat := 32

/-- The longest copy. -/
def maxCopy : Nat := 264

/-- The farthest that a copy reaches back. -/
def maxDistance : Nat := 8192

/-- What an instruction does, without the bytes of a run. -/
inductive Instruction where
  /-- Put down the next `n` bytes of the input. -/
  | run (n : Nat)
  /-- Repeat `length` bytes that begin `distance` bytes back. -/
  | copy (distance length : Nat)
deriving DecidableEq, Repr

namespace Instruction

/-- The bytes of an instruction. A length below nine fits the three bits it shares with
the distance; a longer one takes a byte of its own. -/
def encode : Instruction → Bytes
  | run n => [UInt8.ofNat (n - 1)]
  | copy distance length =>
    let back := distance - 1
    if length < 9 then [UInt8.ofNat (back / 256 + (length - 2) * 32), UInt8.ofNat back]
    else [UInt8.ofNat (back / 256 + 224), UInt8.ofNat (length - 9), UInt8.ofNat back]

/-- Reads an instruction off the front of a string, if all its bytes are there. -/
def read? : Bytes → Option (Instruction × Bytes)
  | [] => none
  | b :: rest =>
    if b < 32 then some (run (b.toNat + 1), rest)
    else
      let high := b.toNat % 32 * 256
      if b < 224 then
        match rest with
        | low :: rest => some (copy (high + low.toNat + 1) (b.toNat / 32 + 2), rest)
        | [] => none
      else
        match rest with
        | more :: low :: rest => some (copy (high + low.toNat + 1) (more.toNat + 9), rest)
        | _ => none

/-- An instruction has at least one byte. -/
theorem length_lt_of_read? {s rest : Bytes} {i : Instruction} (h : read? s = some (i, rest)) :
    rest.length < s.length := by
  match s with
  | [] => simp [read?] at h
  | b :: tail =>
    simp only [read?] at h
    split at h
    · simp only [Option.some.injEq, Prod.mk.injEq] at h
      simp [h.2]
    · split at h <;> split at h
      · simp only [Option.some.injEq, Prod.mk.injEq] at h
        simp only [← h.2, List.length_cons]
        omega
      · contradiction
      · simp only [Option.some.injEq, Prod.mk.injEq] at h
        simp only [← h.2, List.length_cons]
        omega
      · contradiction

end Instruction

end Lzf

end UnrolledList
