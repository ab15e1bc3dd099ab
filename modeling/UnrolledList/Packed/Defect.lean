/-!
# Defects of a packed list

A string of bytes from outside is accepted as a packed list only if every field in it
is right. These are the ways in which one can be wrong, in the order in which
`UnrolledList.Packed.ofBytes` finds them.
-/

namespace UnrolledList

/-- Why a string of bytes is not a packed list. -/
inductive Defect where
  /-- The string is too short for the list header and the end marker. -/
  | shorterThanHeader
  /-- The total in the header is not the length of the string. -/
  | wrongTotal
  /-- The last byte is not the end marker. -/
  | missingEnd
  /-- An end marker stands where an entry should begin. -/
  | innerEnd
  /-- The header of an entry runs past the end. -/
  | headerOutOfRange
  /-- A back link is not the length of the entry before. -/
  | wrongLink
  /-- An encoding byte stands for nothing. -/
  | badEncoding
  /-- The payload of an entry runs past the end. -/
  | payloadOutOfRange
  /-- The tail position in the header is not that of the last entry. -/
  | wrongTail
  /-- The count in the header is not the number of entries. -/
  | wrongCount
deriving DecidableEq, Repr

namespace Defect

/-- What is wrong, in words. -/
def reason : Defect → String
  | shorterThanHeader => "blob shorter than the header"
  | wrongTotal => "total bytes field does not match the blob"
  | missingEnd => "missing end marker"
  | innerEnd => "end marker inside the entries"
  | headerOutOfRange => "entry header out of range"
  | wrongLink => "prevlen does not match the previous entry"
  | badEncoding => "invalid entry encoding"
  | payloadOutOfRange => "entry payload out of range"
  | wrongTail => "tail offset does not point at the last entry"
  | wrongCount => "entry count does not match the length field"

/-- The text shown for a defect. -/
def message (d : Defect) : String :=
  "Corrupt ziplist: " ++ d.reason

end Defect

end UnrolledList
