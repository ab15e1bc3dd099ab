import UnrolledList.Toml.Scalar
import UnrolledList.Toml.Table

/-!
# Documents

A document is a sequence of lines: assignments of values to keys, and headers that say
which table the assignments after them belong to. Values may hold values – arrays, and
tables written inline – down to a fixed depth.
-/

namespace UnrolledList

namespace Toml

/-! ### Values -/

/-- The table of the members of an inline table, if no key is defined twice. -/
def inlineTable? (members : List (List (List Char) × List Char × Node)) : Option Node :=
  members.foldlM (fun table (path, name, value) => table.define path name value)
    (Node.emptyTable false false)

/-- Reads an assignment, given how its value is read. -/
def assignment (value : Reader Node) : Reader (List (List Char) × List Char × Node) := do
  let (path, name) ← key
  Reader.char '='
  blanks
  let v ← value
  return (path, name, v)

/-- Reads an array, given how its elements are read. A comma may stand after the last
one. -/
def array (value : Reader Node) : Reader Node := do
  Reader.char '['
  padding
  let element : Reader Unit := do
    let _ ← value
    padding
  let _ ← Reader.optional (do
    element
    let _ ← Reader.many (do
      Reader.char ','
      padding
      element)
    let _ ← Reader.optional (do
      Reader.char ','
      padding))
  Reader.char ']'
  return .leaf

/-- Reads an inline table, given how its values are read. -/
def inlineTable (value : Reader Node) : Reader Node := do
  Reader.char '\x7b'
  blanks
  let member := do
    let m ← assignment value
    blanks
    return m
  let members ← Reader.optional (do
    let first ← member
    let others ← Reader.many (do
      Reader.char ','
      blanks
      member)
    return first :: others)
  Reader.char '\x7d'
  Reader.check (inlineTable? (members.getD [])).isSome
  return .leaf

/-- Reads a value that is no array and no inline table. -/
def scalar : Reader Node :=
  (do
    string <|> truth <|> moment <|> double <|> specialDouble
    return .leaf)
    <|> do
      let n ← integer
      return .integer n

/-- Reads a value that is nested no deeper than `depth`. -/
def value : (depth : Nat) → Reader Node
  | 0 => scalar
  | depth + 1 => scalar <|> array (value depth) <|> inlineTable (value depth)

/-! ### Lines -/

/-- A line of a document. -/
inductive Line where
  /-- An assignment. -/
  | assign (path : List (List Char)) (name : List Char) (value : Node)
  /-- The header of a table. -/
  | table (path : List (List Char)) (name : List Char)
  /-- The header of a table in an array. -/
  | series (path : List (List Char)) (name : List Char)
  /-- Nothing, or a comment. -/
  | empty

/-- Reads a header between brackets. -/
def header (opening closing : List Char) : Reader (List (List Char) × List Char) := do
  Reader.chars opening
  let k ← key
  Reader.chars closing
  return k

/-- Reads what a line says. -/
def statement : Reader Line :=
  (do
    let (path, name) ← header ['[', '['] [']', ']']
    return .series path name)
    <|> (do
      let (path, name) ← header ['['] [']']
      return .table path name)
    <|> (do
      let (path, name, value) ← assignment (value (maxNesting - 1))
      return .assign path name value)

/-- Reads a line to its end. The text must not be at its end already. -/
def line : Reader Line := do
  Reader.check (!(← get).isEmpty)
  blanks
  let said ← Reader.optional statement
  lineEnd
  return said.getD .empty

/-- Reads the lines of a whole text, which may begin with a byte order mark. -/
def lines : Reader (List Line) := do
  let _ ← Reader.optional (Reader.char '\uFEFF')
  let all ← Reader.many line
  Reader.atEnd
  return all

/-! ### The document -/

/-- A document under way. -/
structure State where
  /-- The tables so far. -/
  root : Node := .emptyTable false false
  /-- The path of the header that assignments stand under. -/
  under : List (List Char) := []

/-- The document after one more line, if the line fits into it. -/
def State.add (st : State) : Line → Option State
  | .empty => some st
  | .assign path name value => do
    let root ← st.root.inHeader st.under fun table => table.define path name value
    return { st with root := root }
  | .table path name => do
    let root ← st.root.openTable path name
    return { root := root, under := path ++ [name] }
  | .series path name => do
    let root ← st.root.openSeries path name
    return { root := root, under := path ++ [name] }

/-- **The document that a text is**, as its topmost table. -/
def parse? (text : List Char) : Option Node := do
  let (all, _) ← lines text
  let st ← all.foldlM State.add {}
  return st.root

end Toml

end UnrolledList
