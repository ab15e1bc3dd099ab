import UnrolledList.Bytes

/-!
# Reading UTF-8

Two readers of text are built on one step (`UnrolledList.Utf8.step`): the strict one
takes a string of bytes only if all of it is UTF-8, and the lenient one puts the
replacement character U+FFFD wherever it is not.

## What one replacement stands for

A character that breaks off is replaced as **the longest piece that could still have
become one**: the step consumes the first byte and then only bytes that may follow
those before them, so the byte at which it fails is looked at again as the beginning
of something else. The ranges of the second byte rule out the overlong forms, the
surrogates and all that lies beyond U+10FFFF, so a step that succeeds has a scalar
value.
-/

namespace UnrolledList

namespace Utf8

/-- What the first byte of a longer character says: how many bytes follow it, the range
that the second byte must lie in, and the bits it contributes. -/
structure Lead where
  /-- The number of bytes that follow. -/
  follow : Nat
  /-- The least second byte. -/
  low : UInt8
  /-- The greatest second byte. -/
  high : UInt8
  /-- The bits of the first byte that belong to the character. -/
  bits : Nat

/-- The meaning of a first byte from `0x80` on, if it can begin a character. -/
def lead? (b : UInt8) : Option Lead :=
  if b < 0xC2 then none
  else if b < 0xE0 then some ⟨1, 0x80, 0xBF, b.toNat % 32⟩
  else if b = 0xE0 then some ⟨2, 0xA0, 0xBF, 0⟩
  else if b = 0xED then some ⟨2, 0x80, 0x9F, 13⟩
  else if b < 0xF0 then some ⟨2, 0x80, 0xBF, b.toNat % 16⟩
  else if b = 0xF0 then some ⟨3, 0x90, 0xBF, 0⟩
  else if b < 0xF4 then some ⟨3, 0x80, 0xBF, b.toNat % 8⟩
  else if b = 0xF4 then some ⟨3, 0x80, 0x8F, 4⟩
  else none

/-- Reads `n` further bytes of a character onto the bits before them. The first of them
has to lie between `low` and `high`, the others in the range of all later bytes. -/
def tails (n : Nat) (low high : UInt8) (bits : Nat) (s : Bytes) : Option Nat × Bytes :=
  match n, s with
  | 0, s => (some bits, s)
  | _ + 1, [] => (none, [])
  | n + 1, c :: s =>
    if low ≤ c ∧ c ≤ high then tails n 0x80 0xBF (bits * 64 + c.toNat % 64) s
    else (none, c :: s)

/-- Reads what begins with the byte `b`: a character, or a piece that is none. -/
def step (b : UInt8) (s : Bytes) : Option Char × Bytes :=
  if b < 0x80 then (some (Char.ofNat b.toNat), s)
  else
    match lead? b with
    | none => (none, s)
    | some lead =>
      let (code, rest) := tails lead.follow lead.low lead.high lead.bits s
      (code.map Char.ofNat, rest)

theorem length_tails (n : Nat) (low high : UInt8) (bits : Nat) (s : Bytes) :
    (tails n low high bits s).2.length ≤ s.length := by
  fun_induction tails n low high bits s with
  | case1 => exact Nat.le_refl _
  | case2 => exact Nat.le_refl _
  | case3 _ _ _ _ _ _ _ ih =>
    simp only [List.length_cons]
    omega
  | case4 => exact Nat.le_refl _

/-- A step does not look back. -/
theorem length_step (b : UInt8) (s : Bytes) : (step b s).2.length ≤ s.length := by
  unfold step
  split
  · exact Nat.le_refl _
  · split
    · exact Nat.le_refl _
    · exact length_tails ..

/-- The characters of a string of bytes, if all of it is UTF-8. -/
def decode? (s : Bytes) : Option (List Char) :=
  match s with
  | [] => some []
  | b :: s =>
    match step b s, length_step b s with
    | (none, _), _ => none
    | (some c, rest), _h => (decode? rest).map (c :: ·)
termination_by s.length
decreasing_by
  exact Nat.lt_succ_of_le _h

/-- The characters of a string of bytes, with a replacement character for every piece
that is not UTF-8. -/
def decodeLossy (s : Bytes) : List Char :=
  match s with
  | [] => []
  | b :: s =>
    match step b s, length_step b s with
    | (c, rest), _h => c.getD '\uFFFD' :: decodeLossy rest
termination_by s.length
decreasing_by
  exact Nat.lt_succ_of_le _h

end Utf8

end UnrolledList
