/-!
# Characters that stand for something else

Settings are written in one of two formats, and both have strings in which a backslash makes
the next character stand for another one: a letter for a control character, or a `u` for the
character whose code is written in hexadecimal digits behind it. What a digit and what a letter
stand for is the same in both. How many digits there are, and which other characters may stand
behind a backslash, is not, and is left to their readers.
-/

namespace UnrolledList

namespace Text

/-- The value of a hexadecimal digit. -/
def hexDigit? (c : Char) : Option Nat :=
  if '0' ≤ c ∧ c ≤ '9' then some (c.toNat - '0'.toNat)
  else if 'a' ≤ c ∧ c ≤ 'f' then some (c.toNat - 'a'.toNat + 10)
  else if 'A' ≤ c ∧ c ≤ 'F' then some (c.toNat - 'A'.toNat + 10)
  else none

/-- The character that a single one stands for behind a backslash. -/
def shortEscape? (c : Char) : Option Char :=
  if c = '"' || c = '\\' then some c
  else if c = 'b' then some '\x08'
  else if c = 'f' then some '\x0c'
  else if c = 'n' then some '\n'
  else if c = 'r' then some '\r'
  else if c = 't' then some '\t'
  else none

end Text

end UnrolledList
