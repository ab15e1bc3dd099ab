import UnrolledList.Fault
import UnrolledList.Lzf.Instruction

/-!
# Expanding

`UnrolledList.Lzf.expand` runs the instructions of a compressed string. It is told how
long the output may become and **writes no byte beyond that**, nor does it read one
before the beginning of the output, so a string that was not made by the compressor does
no harm.

`UnrolledList.Lzf.inflate` asks in addition that the output has exactly the length that
was recorded when the string was compressed. It sets that length aside in one piece, so a
length that memory cannot have is a fault, whatever the string says.
-/

namespace UnrolledList

namespace Lzf

/-- Why a string cannot be expanded. -/
inductive ExpandError where
  /-- The output would become longer than allowed. -/
  | outputFull
  /-- The string breaks off, or a copy reaches before the beginning of the output. -/
  | corrupted
  /-- The output is shorter or longer than recorded. -/
  | wrongLength (expected actual : Nat)
deriving DecidableEq, Repr

/-- The text shown for a string that cannot be expanded. -/
def ExpandError.message (e : ExpandError) : String :=
  "[QuickList] lzf decompression failed: " ++
    match e with
    | outputFull => "the given buffer is too small to handle the uncompressed data"
    | corrupted => "the given data is corrupted"
    | wrongLength expected actual =>
      "expected " ++ toString expected ++ " bytes, got " ++ toString actual

/-- Repeats, `n` times over, the byte that stands `distance` bytes back. -/
def repeatBack (distance : Nat) : (n : Nat) → (out : Array UInt8) → Array UInt8
  | 0, out => out
  | n + 1, out => repeatBack distance n (out.push (out.getD (out.size - distance) 0))

/-- Carries out an instruction on the output so far. The bytes of a run are taken off the
input. -/
def execute (limit : Nat) (i : Instruction) (input : Bytes) (out : Array UInt8) :
    Except ExpandError (Bytes × Array UInt8) :=
  match i with
  | .run n =>
    if limit < out.size + n then .error .outputFull
    else
      match Bytes.split? n input with
      | none => .error .corrupted
      | some (bytes, rest) => .ok (rest, out ++ bytes)
  | .copy distance length =>
    if limit < out.size + length then .error .outputFull
    else if out.size < distance then .error .corrupted
    else .ok (input, repeatBack distance length out)

theorem length_le_of_execute {limit : Nat} {i : Instruction} {input rest : Bytes}
    {out out' : Array UInt8} (h : execute limit i input out = .ok (rest, out')) :
    rest.length ≤ input.length := by
  unfold execute at h
  split at h
  · split at h
    · contradiction
    · split at h
      · contradiction
      · next hsplit =>
        simp only [Except.ok.injEq, Prod.mk.injEq] at h
        exact h.1 ▸ Bytes.length_rest_of_split? hsplit
  · split at h
    · contradiction
    · split at h
      · contradiction
      · simp only [Except.ok.injEq, Prod.mk.injEq] at h
        simp [h.1]

/-- Runs the instructions of a string that is not empty. -/
def run (limit : Nat) (input : Bytes) (out : Array UInt8) : Except ExpandError (Array UInt8) :=
  match _hread : Instruction.read? input with
  | none => .error .corrupted
  | some (i, rest) =>
    match _hexec : execute limit i rest out with
    | .error e => .error e
    | .ok (rest, out) => if rest.isEmpty then .ok out else run limit rest out
termination_by input.length
decreasing_by
  exact Nat.lt_of_le_of_lt (length_le_of_execute _hexec) (Instruction.length_lt_of_read? _hread)

/-- The output of a compressed string, of at most `limit` bytes. The empty string is
corrupted. -/
def expand (limit : Nat) (input : Bytes) : Except ExpandError Bytes :=
  (run limit input #[]).map Array.toList

/-- The greatest length that can be set aside in one piece. -/
def maxOutput : Nat := 0x7FFFFFFFFFFFFFFF

/-- The output of a compressed string whose length is known to be `size`. The empty string
is found out before anything is set aside. -/
def inflate (size : Nat) (input : Bytes) : Except Fault (Except ExpandError Bytes) :=
  if input ≠ [] ∧ maxOutput < size then .error .overflow
  else
    match expand size input with
    | .error e => .ok (.error e)
    | .ok out =>
      .ok (if out.length = size then .ok out else .error (.wrongLength size out.length))

end Lzf

end UnrolledList
