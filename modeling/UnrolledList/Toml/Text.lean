import UnrolledList.Text.Character
import UnrolledList.Toml.Reader

/-!
# Strings and keys

A string is written between double quotes, where a backslash begins an escape, or between
single quotes, where nothing does; and either kind may be tripled, and then run over
several lines and hold one or two of its own quotes in a row.

Only the strings of one line can be keys, so only of those the characters are kept. A key
may also stand without quotes, if it consists of letters, digits, dashes and underscores,
and keys joined by dots name a path.
-/

namespace UnrolledList

namespace Toml

/-! ### Characters in quotes -/

/-- Reads a character as the `n` hexadecimal digits of its code. -/
def codePoint (n : Nat) : Reader Char := do
  let code ← digits n 0
  Reader.check (Nat.isValidChar code)
  return Char.ofNat code
where
  /-- Reads digits onto the number before them. -/
  digits : Nat → Nat → Reader Nat
    | 0, code => pure code
    | n + 1, code => do
      let c ← Reader.oneOf fun c => (Text.hexDigit? c).isSome
      digits n (code * 16 + (Text.hexDigit? c).getD 0)

/-- Reads an escape. -/
def escape : Reader Char := do
  Reader.char '\\'
  let c ← Reader.oneOf fun _ => true
  if c = 'u' then codePoint 4
  else if c = 'U' then codePoint 8
  else
    match Text.shortEscape? c with
    | some c => return c
    | none => Reader.fail

/-! ### Strings of one line -/

/-- Reads a string between double quotes. -/
def basicString : Reader (List Char) := do
  Reader.char '"'
  let cs ← Reader.many (escape <|> Reader.oneOf fun c => isPlain c && c ≠ '"' && c ≠ '\\')
  Reader.char '"'
  return cs

/-- Reads a string between single quotes. -/
def literalString : Reader (List Char) := do
  Reader.char '\''
  let cs ← Reader.allOf fun c => isPlain c && c ≠ '\''
  Reader.char '\''
  return cs

/-! ### Strings of several lines -/

/-- Reads a backslash at the end of a line. -/
def continuation : Reader Unit := do
  Reader.char '\\'
  blanks
  lineBreak

/-- Reads a piece of a string of several lines that has no quote in it. -/
def linePiece (quote : Char) : Reader Unit :=
  lineBreak
    <|> (do let _ ← Reader.oneOf fun c => isPlain c && c ≠ quote && (quote = '\'' || c ≠ '\\'))
    <|> (do
      Reader.check (quote = '"')
      continuation <|> do let _ ← escape)

/-- Reads a string between triple quotes. The quotes that close it are the last of those
that stand together; there may be up to two more before them. -/
def tripleQuoted (quote : Char) : Reader Unit := do
  Reader.chars [quote, quote, quote]
  let _ ← Reader.many (do
    let _ ← Reader.many (linePiece quote)
    let quotes ← Reader.someOf (· = quote)
    Reader.check (quotes.length < 3)
    linePiece quote)
  let _ ← Reader.many (linePiece quote)
  let quotes ← Reader.someOf (· = quote)
  Reader.check (3 ≤ quotes.length && quotes.length ≤ 5)

/-- Reads a string of any kind. -/
def string : Reader Unit :=
  tripleQuoted '"' <|> tripleQuoted '\''
    <|> (do let _ ← basicString)
    <|> (do let _ ← literalString)

/-! ### Keys -/

/-- A character of a key without quotes. -/
def isBare (c : Char) : Bool :=
  c.isAlphanum || c = '-' || c = '_'

/-- Reads a key that is no path. -/
def simpleKey : Reader (List Char) :=
  basicString <|> literalString <|> Reader.someOf isBare

/-- How deep a document may be nested. -/
def maxNesting : Nat := 80

/-- Reads a key: the path to its table and its last part. Blanks may stand around every
part. -/
def key : Reader (List (List Char) × List Char) := do
  let part : Reader (List Char) := do
    blanks
    let k ← simpleKey
    blanks
    return k
  let first ← part
  let others ← Reader.many (do
    Reader.char '.'
    part)
  let parts := first :: others
  Reader.check (parts.length < maxNesting)
  return (parts.dropLast, parts.getLastD first)

end Toml

end UnrolledList
