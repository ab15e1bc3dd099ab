import UnrolledList.Toml.Text

/-!
# Numbers and dates

Of the values that are not strings, arrays or tables only integers are kept; of all others
it matters only that they are well formed.

An underscore may stand between two digits of a number. A decimal number has no leading
zero; a number in base 16, 8 or 2 has no sign. Integers have 64 bits. A number with a
fraction or an exponent is a double, and one that is too large for a double is refused,
although one that is too far below zero is not.

Dates and times are those of the calendar and the clock, with leap seconds. A year has four
digits, and a day has to exist in its month.
-/

namespace UnrolledList

namespace Toml

/-! ### Digits -/

/-- Reads digits with single underscores between them. -/
def digitsOf (p : Char → Bool) : Reader (List Char) := do
  let first ← Reader.oneOf p
  let others ← Reader.many (do
    let _ ← Reader.optional (Reader.char '_')
    Reader.oneOf p)
  return first :: others

/-- The number that digits stand for in a base. -/
def valueOf (base : Nat) (digits : List Char) : Nat :=
  digits.foldl (fun n c => n * base + (Text.hexDigit? c).getD 0) 0

/-- Reads a sign. Without one the number is positive. -/
def sign : Reader Bool := do
  match ← Reader.optional (Reader.oneOf fun c => c = '+' || c = '-') with
  | some c => return c = '+'
  | none => return true

/-- Reads a decimal number without leading zeros. -/
def decimalDigits : Reader (List Char) := do
  let digits ← digitsOf Char.isDigit
  Reader.check (digits.head? ≠ some '0' || digits.length = 1)
  return digits

/-! ### Integers -/

/-- The least integer that is read. -/
def minInteger : Int := -0x8000000000000000

/-- The greatest integer that is read. -/
def maxInteger : Int := 0x7FFFFFFFFFFFFFFF

/-- Reads an integer in the base that a letter announces. -/
def basedInteger (letter : Char) (base : Nat) : Reader Int := do
  Reader.chars ['0', letter]
  let digits ← digitsOf fun c => (Text.hexDigit? c).any (· < base)
  let n : Int := valueOf base digits
  Reader.check (n ≤ maxInteger)
  return n

/-- Reads an integer. -/
def integer : Reader Int :=
  basedInteger 'x' 16 <|> basedInteger 'o' 8 <|> basedInteger 'b' 2 <|> do
    let positive ← sign
    let digits ← decimalDigits
    let n : Int := valueOf 10 digits
    let n := if positive then n else -n
    Reader.check (minInteger ≤ n && n ≤ maxInteger)
    return n

/-! ### Doubles -/

/-- The least number that rounds to infinity: half a unit beyond the greatest double. -/
def doubleLimit : Nat := (1 <<< 1024) - (1 <<< 970)

/-- Whether a decimal number rounds to a double, and not to infinity. -/
def isFinite (digits : List Char) (exponent : Int) : Bool :=
  let significand := valueOf 10 digits
  if significand = 0 || exponent + digits.length ≤ 308 then true
  else if 400 < exponent + digits.length - (digits.takeWhile (· = '0')).length then false
  else if 0 ≤ exponent then significand * Nat.pow 10 exponent.toNat < doubleLimit
  else significand < doubleLimit * Nat.pow 10 exponent.natAbs

/-- Reads an exponent. -/
def exponent : Reader Int := do
  let _ ← Reader.oneOf fun c => c = 'e' || c = 'E'
  let positive ← sign
  let digits ← digitsOf Char.isDigit
  let n : Int := valueOf 10 digits
  return if positive then n else -n

/-- Reads a fraction. -/
def fraction : Reader (List Char) := do
  Reader.char '.'
  digitsOf Char.isDigit

/-- Reads a number with a fraction or an exponent. -/
def double : Reader Unit := do
  let positive ← sign
  let whole ← decimalDigits
  let decimals ← Reader.optional fraction
  let e ← Reader.optional exponent
  Reader.check (decimals.isSome || e.isSome)
  let decimals := decimals.getD []
  Reader.check (!positive || isFinite (whole ++ decimals) (e.getD 0 - decimals.length))

/-- Reads one of the doubles that are no numbers. -/
def specialDouble : Reader Unit := do
  let _ ← sign
  Reader.chars ['i', 'n', 'f'] <|> Reader.chars ['n', 'a', 'n']

/-! ### Dates and times -/

/-- Reads a number of exactly `n` digits between two bounds. -/
def clockPart (n least greatest : Nat) : Reader Nat := do
  let digits ← (List.replicate n ()).mapM fun _ => Reader.oneOf Char.isDigit
  let value := valueOf 10 digits
  Reader.check (least ≤ value && value ≤ greatest)
  return value

/-- The number of days in a month. -/
def daysIn (year month : Nat) : Nat :=
  if month = 2 then
    if year % 4 = 0 && (year % 100 ≠ 0 || year % 400 = 0) then 29 else 28
  else if month = 4 || month = 6 || month = 9 || month = 11 then 30
  else 31

/-- Reads a date. -/
def date : Reader Unit := do
  let year ← clockPart 4 0 9999
  Reader.char '-'
  let month ← clockPart 2 1 12
  Reader.char '-'
  let day ← clockPart 2 1 31
  Reader.check (day ≤ daysIn year month)

/-- Reads a time of day. -/
def time : Reader Unit := do
  let _ ← clockPart 2 0 23
  Reader.char ':'
  let _ ← clockPart 2 0 59
  Reader.char ':'
  let _ ← clockPart 2 0 60
  let _ ← Reader.optional (do
    Reader.char '.'
    let _ ← Reader.someOf Char.isDigit)

/-- Reads the offset of a time. -/
def offset : Reader Unit :=
  (do let _ ← Reader.oneOf fun c => c = 'Z' || c = 'z') <|> do
    let _ ← Reader.oneOf fun c => c = '+' || c = '-'
    let _ ← clockPart 2 0 23
    Reader.char ':'
    let _ ← clockPart 2 0 59

/-- Reads a date, a time, or both. -/
def moment : Reader Unit :=
  (do
    date
    let _ ← Reader.optional (do
      let _ ← Reader.oneOf fun c => c = 'T' || c = 't' || c = ' '
      time
      let _ ← Reader.optional offset))
    <|> time

/-- Reads a truth value. -/
def truth : Reader Unit :=
  Reader.chars ['t', 'r', 'u', 'e'] <|> Reader.chars ['f', 'a', 'l', 's', 'e']

end Toml

end UnrolledList
