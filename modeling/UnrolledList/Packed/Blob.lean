import UnrolledList.Packed.Cursor

/-!
# The bytes of a packed list

The blob of a packed list is

* a header: the total length in four bytes, the position of the last entry in four (the
  position after the header if there is none), the length field in two, each with the
  least significant byte first;
* the entries;
* the end marker `0xFF`.

`UnrolledList.Packed.toBytes` writes it. `UnrolledList.Packed.ofBytes` reads it **and
trusts nothing**: a blob is accepted only if every length, link, position and count in
it agrees with the bytes, so whatever is accepted is a packed list like any other.
-/

namespace UnrolledList

namespace Packed

/-- The byte that closes a blob. No entry begins with it. -/
def endMarker : UInt8 := 0xFF

/-- The bytes of entries, with `rest` after them. -/
def encodeEntries (es : List Entry) (rest : Bytes) : Bytes :=
  es.foldr (fun e rest => e.encode ++ rest) rest

theorem encodeEntries_eq (es : List Entry) (rest : Bytes) :
    encodeEntries es rest = es.flatMap Entry.encode ++ rest := by
  induction es with
  | nil => rfl
  | cons e es ih =>
    rw [encodeEntries, List.foldr_cons, ← encodeEntries, ih, List.flatMap_cons, List.append_assoc]

/-- The bytes of a packed list. -/
def toBytes (p : Packed) : Bytes :=
  Bytes.littleEndian 4 p.size ++ (Bytes.littleEndian 4 p.tailPos ++
    (Bytes.littleEndian 2 p.lengthField.toNat ++ encodeEntries p.entries.toList [endMarker]))

/-- Reads entries until the string ends, onto those already read. The first of them has
to stand after an entry of length `before`. -/
def readEntries (before : Nat) (entries : Array Entry) (s : Bytes) :
    Except Defect (Array Entry) :=
  if s.isEmpty then .ok entries
  else
    match _h : Entry.read before s with
    | .error d => .error d
    | .ok (e, rest) => readEntries e.size (entries.push e) rest
termination_by s.length
decreasing_by exact Entry.length_lt_of_read _h

/-- **The packed list with the given bytes**, or what is wrong with them. -/
def ofBytes (blob : Bytes) : Except Defect Packed :=
  let total := Bytes.ofLittleEndian (blob.take 4)
  let tail := Bytes.ofLittleEndian ((blob.drop 4).take 4)
  let count := Bytes.ofLittleEndian ((blob.drop 8).take 2)
  if blob.length < envelopeSize then .error .shorterThanHeader
  else if total ≠ blob.length then .error .wrongTotal
  else if blob.getLast? ≠ some endMarker then .error .missingEnd
  else
    match readEntries 0 #[] (blob.drop headerSize).dropLast with
    | .error d => .error d
    | .ok entries =>
      let p : Packed :=
        { entries := entries
          lengthField := UInt16.ofNat count
          size := envelopeSize + totalSize entries.toList
          size_eq := rfl }
      if tail ≠ p.tailPos then .error .wrongTail
      else if p.length ≠ entries.size then .error .wrongCount
      else .ok p

end Packed

end UnrolledList
