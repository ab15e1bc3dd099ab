import UnrolledList.Bytes

/-!
# Canonical decimal numerals

A string that is the decimal text of a 64-bit signed integer is stored as that
integer, so the reader of numerals has to accept **exactly the texts the writer
produces**: no sign but a leading minus, no leading zero, no minus zero, no blank.
`UnrolledList.Numeral.render` writes and `UnrolledList.Numeral.parse` reads.

## Which refusal is given

A refusal names the first thing wrong with the text, in reading order. The length
is looked at before anything else, and it bounds the work: no 64-bit integer needs
more than 20 characters, so a text of 20 can spoil only its last step of
accumulation. A character that is no digit is therefore never hidden behind an
overflow, and an overflow is reported only for a text that is otherwise a numeral.
-/

namespace UnrolledList

/-- Why a text is not a canonical 64-bit numeral. -/
inductive NumeralError where
  /-- The text is empty, longer than 20 characters, or a lone minus. -/
  | badLength
  /-- The first character of the magnitude is not one of the digits 1 to 9. -/
  | badFirstDigit
  /-- A later character is not a digit. -/
  | badDigit
  /-- Ten times the value read so far does not fit 64 bits. -/
  | overflowTimesTen
  /-- Adding the last digit leaves 64 bits. -/
  | overflowPlusDigit
  /-- The magnitude is larger than that of the least 64-bit integer. -/
  | belowRange
  /-- The value is larger than the greatest 64-bit integer. -/
  | aboveRange
deriving DecidableEq, Repr

/-- The text shown for a refusal. -/
def NumeralError.message : NumeralError → String
  | badLength => "A string of zero length or excessive length"
  | badFirstDigit => "FirstDigitError"
  | badDigit => "InvalidChar"
  | overflowTimesTen => "Mul overflow"
  | overflowPlusDigit => "Add overflow"
  | belowRange => "Negative overflow"
  | aboveRange => "Positive overflow"

namespace Numeral

/-- The minus sign. -/
def minus : UInt8 := 0x2D

/-- The digit zero; the other digits follow it. -/
def zero : UInt8 := 0x30

/-- The longest text read as a numeral. -/
def maxLength : Nat := 20

/-- The least 64-bit integer. -/
def minValue : Int := -0x8000000000000000

/-- The greatest 64-bit integer. -/
def maxValue : Int := 0x7FFFFFFFFFFFFFFF

/-- The number of values of the 64 bits in which a magnitude is read. -/
def magnitudeLimit : Nat := 0x10000000000000000

/-! ### Writing -/

/-- The decimal digits of a natural number, the most significant first. -/
def digits (n : Nat) : Bytes :=
  if n < 10 then [UInt8.ofNat (zero.toNat + n)]
  else digits (n / 10) ++ [UInt8.ofNat (zero.toNat + n % 10)]

/-- The decimal text of an integer. -/
def render (i : Int) : Bytes :=
  if i < 0 then minus :: digits i.natAbs else digits i.natAbs

/-! ### Reading -/

/-- The value of a decimal digit. -/
def digit? (c : UInt8) : Option Nat :=
  if zero ≤ c ∧ c ≤ 0x39 then some (c.toNat - zero.toNat) else none

/-- Reads digits onto the value `v` of those before them, within 64 bits. -/
def accumulate (v : Nat) : Bytes → Except NumeralError Nat
  | [] => .ok v
  | c :: cs =>
    match digit? c with
    | none => .error .badDigit
    | some d =>
      if magnitudeLimit ≤ v * 10 then .error .overflowTimesTen
      else if magnitudeLimit ≤ v * 10 + d then .error .overflowPlusDigit
      else accumulate (v * 10 + d) cs

/-- Reads a magnitude other than zero: a digit from 1 to 9, then digits. -/
def magnitude : Bytes → Except NumeralError Nat
  | [] => .error .badLength
  | c :: cs =>
    match digit? c with
    | some (d + 1) => accumulate (d + 1) cs
    | _ => .error .badFirstDigit

/-- **The integer whose canonical decimal text this is.** -/
def parse (s : Bytes) : Except NumeralError Int :=
  if s.isEmpty ∨ maxLength < s.length then .error .badLength
  else if s = [zero] then .ok 0
  else if s.head? = some minus then
    match magnitude s.tail with
    | .error e => .error e
    | .ok v => if -(v : Int) < minValue then .error .belowRange else .ok (-(v : Int))
  else
    match magnitude s with
    | .error e => .error e
    | .ok v => if maxValue < (v : Int) then .error .aboveRange else .ok v

end Numeral

end UnrolledList
