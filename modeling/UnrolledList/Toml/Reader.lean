/-!
# Reading from a text

A `UnrolledList.Toml.Reader` takes something off the front of a text or fails, and a failed
reader has taken nothing. It says no more than that: a text is either a document or it is
not, and where and why it is not matters to nobody here.

## Choice

Alternatives are tried in order, and the first that succeeds is final. In this format that
loses nothing, since what may follow a construct never continues it: an alternative that
took too little is found out by the character behind it.
-/

namespace UnrolledList

namespace Toml

/-- Takes a value off the front of a text, or fails. -/
abbrev Reader := StateT (List Char) Option

namespace Reader

/-- Reads a character of which `p` is true. -/
def oneOf (p : Char → Bool) : Reader Char := fun s =>
  match s with
  | c :: rest => if p c then some (c, rest) else none
  | [] => none

/-- Reads a given character. -/
def char (c : Char) : Reader Unit := do
  let _ ← oneOf (· = c)

/-- Reads given characters. -/
def chars : List Char → Reader Unit
  | [] => pure ()
  | c :: cs => do
    char c
    chars cs

/-- Reads characters for as long as `p` is true of them. -/
def allOf (p : Char → Bool) : Reader (List Char) := fun s =>
  some (s.takeWhile p, s.dropWhile p)

/-- Reads at least one character of which `p` is true, and all that follow. -/
def someOf (p : Char → Bool) : Reader (List Char) := do
  let c ← oneOf p
  let cs ← allOf p
  return c :: cs

/-- Reads something if it is there. -/
def optional {α : Type} (r : Reader α) : Reader (Option α) := fun s =>
  match r s with
  | some (a, rest) => some (some a, rest)
  | none => some (none, s)

/-- Reads something as often as it is there. A reader that takes nothing is not repeated. -/
def many {α : Type} (r : Reader α) : Reader (List α) := fun s => go s s
where
  /-- Reads no more often than there are characters in the first text. -/
  go : List Char → List Char → Option (List α × List Char)
    | [], s => some ([], s)
    | _ :: turns, s =>
      match r s with
      | none => some ([], s)
      | some (a, rest) =>
        match go turns rest with
        | none => none
        | some (as, rest) => some (a :: as, rest)

/-- Fails. -/
def fail {α : Type} : Reader α := fun _ => none

/-- Succeeds at the end of the text only. -/
def atEnd : Reader Unit := fun s =>
  if s.isEmpty then some ((), s) else none

/-- Fails unless a condition holds. -/
def check (p : Bool) : Reader Unit := fun s =>
  if p then some ((), s) else none

end Reader

/-! ### What stands between the parts of a document -/

/-- A blank within a line. -/
def isBlank (c : Char) : Bool :=
  c = ' ' || c = '\t'

/-- A character that may stand in a comment: no control character but the tab. -/
def isPlain (c : Char) : Bool :=
  c = '\t' || (' ' ≤ c && c ≠ '\x7f')

/-- Reads blanks. -/
def blanks : Reader Unit := do
  let _ ← Reader.allOf isBlank

/-- Reads a line break: a line feed, with or without a carriage return before it. -/
def lineBreak : Reader Unit :=
  Reader.char '\n' <|> Reader.chars ['\r', '\n']

/-- Reads a comment, without the end of its line. -/
def comment : Reader Unit := do
  Reader.char '#'
  let _ ← Reader.allOf isPlain

/-- Reads all that may stand behind the last part of a line, and the end of the line. -/
def lineEnd : Reader Unit := do
  blanks
  let _ ← Reader.optional comment
  lineBreak <|> Reader.atEnd

/-- Reads blanks, line breaks and comments, as they may stand in an array. -/
def padding : Reader Unit := do
  blanks
  let _ ← Reader.many (do
    let _ ← Reader.optional comment
    lineBreak
    blanks)

end Toml

end UnrolledList
