import UnrolledList.Numeral

/-!
# Elements as they are read

An element goes in as a string of bytes and comes out as a
`UnrolledList.Value`: the string itself, or, when it was the canonical text of an
integer, that integer. `UnrolledList.Value.render` gives the string back in both
cases, so nothing is lost by the detour; and a comparison with a string goes
through the reader of numerals instead of writing the integer out
(`UnrolledList.Value.Matches`).
-/

namespace UnrolledList

/-- An element as it is read. -/
inductive Value where
  /-- A string of bytes. -/
  | text (bytes : Bytes)
  /-- An integer of at most 64 bits. -/
  | number (n : Int)
deriving DecidableEq, Repr

namespace Value

/-- The element as bytes; an integer is written in decimal. -/
def render : Value → Bytes
  | text bytes => bytes
  | number n => Numeral.render n

/-- Whether the element is the string `s`. An integer is matched by the text that
reads as it. -/
def Matches : Value → Bytes → Prop
  | text bytes, s => bytes = s
  | number n, s => (Numeral.parse s).toOption = some n

instance (v : Value) (s : Bytes) : Decidable (v.Matches s) :=
  match v with
  | text bytes => inferInstanceAs (Decidable (bytes = s))
  | number n => inferInstanceAs (Decidable ((Numeral.parse s).toOption = some n))

/-- The number of bytes of a string; an integer has no bytes of its own. -/
def byteLength : Value → Nat
  | text bytes => bytes.length
  | number _ => 0

@[simp] theorem render_text (bytes : Bytes) : (text bytes).render = bytes := rfl

@[simp] theorem render_number (n : Int) : (number n).render = Numeral.render n := rfl

end Value

end UnrolledList
