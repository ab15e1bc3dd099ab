import UnrolledList.Packed.Cursor
import UnrolledList.Text.Utf8

/-!
# A packed list in words

`UnrolledList.Packed.dump` shows a packed list for inspection: the fields of its
header, then for each entry where it stands, how its bytes are divided, and what it
holds. Numbers are padded on the left so that the columns of one list line up; of a
long string only the beginning is shown.
-/

namespace UnrolledList

namespace Packed

/-- A number, padded with blanks on the left to at least `width` characters. -/
def column (width n : Nat) : String :=
  let digits := toString n
  String.ofList (List.replicate (width - digits.length) ' ') ++ digits

/-- How many bytes of a string are shown. -/
def shownBytes : Nat := 40

/-- A value as it is shown. -/
def dumpValue : Value → String
  | .number n => "\t[int]" ++ toString n
  | .text s =>
    let shown := String.ofList (Utf8.decodeLossy (s.take shownBytes))
    "\t[str]" ++ shown ++ if shownBytes < s.length then "..." else ""

/-- An entry as it is shown: number `k` of its list, at position `pos`. -/
def dumpEntry (k pos : Nat) (e : Entry) : String :=
  "\x7b\n\taddr " ++ toString pos ++
    ",\n\tindex " ++ column 2 k ++
    ",\n\toffset " ++ column 5 pos ++
    ",\n\thdr+entry len: " ++ column 5 e.size ++
    ",\n\thdr len" ++ column 2 e.headerSize ++
    ",\n\tprevrawlen: " ++ column 5 e.link.len ++
    ",\n\tprevrawlensize: " ++ column 2 e.link.width ++
    ",\n\tpayload " ++ column 5 e.body.payloadSize ++ "\n" ++
    dumpValue e.value ++ "\n\x7d\n"

/-- The list as it is shown. -/
def dump (p : Packed) : String :=
  let shown := (p.positions.zip p.entries.toList).zipIdx.map fun ((pos, e), k) => dumpEntry k pos e
  "\x7btotal bytes " ++ toString p.size ++ "\x7d \x7bnum entries " ++ toString p.length ++
    "\x7d\n\x7btail offset " ++ toString p.tailPos ++ "\x7d\n" ++ String.join shown ++
    "\x7bend\x7d\n\n"

end Packed

end UnrolledList
