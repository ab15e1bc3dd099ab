/-!
# Comments in JSON

JSON has no comments, so they are blanked out before the text is read: `//` and `#` up to
the end of the line, and `/*` up to the next `*/`. A comment sign inside a string is text.

The text is blanked as it is read, and that may go wrong before its end: a lone slash
starts nothing, and a string or a comment may never be closed. What was read until then
still counts, since the reader may stop before it. So the outcome is the blanked text
together with the knowledge of whether its end is a real end
(`UnrolledList.Json.Source`).
-/

namespace UnrolledList

namespace Json

/-- A text without comments, as far as it could be made out. -/
structure Source where
  /-- What has not been read yet. -/
  rest : List Char
  /-- The text really ends where it ends here. -/
  intact : Bool

/-- Where the search for comments stands. -/
inductive Scan where
  /-- Outside of strings and comments. -/
  | text
  /-- In a string. -/
  | string
  /-- After a backslash in a string. -/
  | escape
  /-- After a slash. -/
  | slash
  /-- In a comment that ends with its line. -/
  | line
  /-- In a comment that has to be closed. -/
  | block
  /-- In such a comment, after a star. -/
  | star
deriving DecidableEq, Repr

/-- What follows a character: the character that stands for it and the next state. A lone
slash is found out by the character after it, which then stands for nothing. -/
def Scan.step : Scan → Char → Option (Char × Scan)
  | text, c =>
    if c = '"' then some (c, string)
    else if c = '/' then some (' ', slash)
    else if c = '#' then some (' ', line)
    else some (c, text)
  | string, c =>
    if c = '"' then some (c, text)
    else if c = '\\' then some (c, escape)
    else some (c, string)
  | escape, c => some (c, string)
  | slash, c =>
    if c = '*' then some (' ', block)
    else if c = '/' then some (' ', line)
    else none
  | line, c => if c = '\n' then some (c, text) else some (' ', line)
  | block, c => if c = '*' then some (' ', star) else some (' ', block)
  | star, c =>
    if c = '/' then some (' ', text)
    else if c = '*' then some (' ', star)
    else some (' ', block)

/-- Whether a text may end here. -/
def Scan.mayEnd : Scan → Bool
  | text => true
  | line => true
  | _ => false

/-- Blanks out the comments of a text that is read from a given state on. -/
def Scan.run (state : Scan) : List Char → Source
  | [] => ⟨[], state.mayEnd⟩
  | c :: rest =>
    match state.step c with
    | none => ⟨[], false⟩
    | some (c, state) =>
      let source := state.run rest
      { source with rest := c :: source.rest }

/-- The text without its comments. -/
def Source.ofText (s : List Char) : Source :=
  Scan.text.run s

end Json

end UnrolledList
