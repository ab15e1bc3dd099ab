import UnrolledList.Packed.Entry

/-!
# Packed lists

A packed list is a list of strings and integers laid out in one string of bytes: a
header of ten bytes, the entries, an end marker. `UnrolledList.Packed` holds the
entries as data; what the bytes are is in `UnrolledList.Packed.Blob`.

## What is stored and what follows

Most of the header follows from the entries: the total length, and the position of
the last entry. What does not follow is the **length field**, sixteen bits that count
the entries until they reach 65535. From then on the field says only “count them”, and
it does not come back when entries are deleted. The links of the entries do not
follow either: a link that was widened once stays wide.

The size in bytes is kept beside the entries, because admission to a block asks for it
on every push. That it is the right size is a field of the structure.

## Kinds of change

This file holds the type and what is read off it. The entries are changed in
`UnrolledList.Packed.Edit`, and the links that a change breaks are mended in
`UnrolledList.Packed.Repair`.
-/

namespace UnrolledList

/-- The bytes of a packed list before its first entry. -/
def Packed.headerSize : Nat := 10

/-- The bytes of a packed list that belong to no entry: the header and the end
marker. -/
def Packed.envelopeSize : Nat := 11

/-- The number of sizes that the header of a packed list can tell. A list that reaches it
has no right header. -/
def Packed.sizeLimit : Nat := 0x100000000

/-- The bytes that a list of entries takes. -/
def Packed.totalSize (es : List Entry) : Nat :=
  es.foldl (fun n e => n + e.size) 0

/-- A packed list of strings and integers. -/
structure Packed where
  /-- The entries from head to tail. -/
  entries : Array Entry
  /-- The number of entries, or 65535 if they have to be counted. -/
  lengthField : UInt16
  /-- The size in bytes. -/
  size : Nat
  /-- The size is that of the entries and of what surrounds them. -/
  size_eq : size = Packed.envelopeSize + Packed.totalSize entries.toList
deriving DecidableEq

namespace Packed

/-! ### Sizes -/

theorem foldl_size (es : List Entry) (n : Nat) :
    es.foldl (fun n e => n + e.size) n = n + totalSize es := by
  unfold totalSize
  induction es generalizing n with
  | nil => simp
  | cons e es ih =>
    rw [List.foldl_cons, List.foldl_cons, ih, ih (0 + e.size)]
    omega

@[simp] theorem totalSize_nil : totalSize [] = 0 := rfl

@[simp] theorem totalSize_cons (e : Entry) (es : List Entry) :
    totalSize (e :: es) = e.size + totalSize es := by
  rw [totalSize, List.foldl_cons, foldl_size, Nat.zero_add]

@[simp] theorem totalSize_append (es fs : List Entry) :
    totalSize (es ++ fs) = totalSize es + totalSize fs := by
  rw [totalSize, List.foldl_append, ← totalSize, foldl_size]

/-- A cut divides the size. -/
theorem totalSize_take_add_drop (es : List Entry) (k : Nat) :
    totalSize (es.take k) + totalSize (es.drop k) = totalSize es := by
  rw [← totalSize_append, List.take_append_drop]

/-- The bytes that the entries from number `i` to number `j` take, without the last. -/
def spanSize (es : Array Entry) (i j : Nat) : Nat :=
  es.foldl (fun n e => n + e.size) 0 i j

theorem spanSize_eq (es : Array Entry) (i j : Nat) :
    spanSize es i j = totalSize (es.toList.extract i j) := by
  rw [spanSize, Array.foldl_eq_foldl_extract, ← Array.foldl_toList, Array.toList_extract, totalSize]

/-! ### Building and reading -/

/-- The empty list. -/
def empty : Packed where
  entries := #[]
  lengthField := 0
  size := envelopeSize
  size_eq := rfl

instance : Inhabited Packed := ⟨empty⟩

/-- Whether the list has no entry. -/
def isEmpty (p : Packed) : Bool :=
  p.entries.isEmpty

/-- The length field that no longer counts. -/
def saturated : UInt16 := 65535

/-- The number of entries, by the length field as long as it counts. -/
def length (p : Packed) : Nat :=
  if p.lengthField < saturated then p.lengthField.toNat else p.entries.size

/-- The values from head to tail. -/
def values (p : Packed) : List Value :=
  p.entries.toList.map Entry.value

/-- The size of the last of some entries, or zero if there is none. -/
def lastSize (es : Array Entry) : Nat :=
  match es.back? with
  | some e => e.size
  | none => 0

/-! ### The length field -/

/-- The length field after one more entry. -/
def countUp (field : UInt16) : UInt16 :=
  if field < saturated then field + 1 else field

/-- The length field after `n` entries fewer. -/
def countDown (field : UInt16) (n : Nat) : UInt16 :=
  if field < saturated then UInt16.ofNat (field.toNat - n) else field

end Packed

end UnrolledList
