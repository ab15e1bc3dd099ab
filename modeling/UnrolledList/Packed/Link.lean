import UnrolledList.Bytes

/-!
# Back links

Every entry of a packed list begins with the length in bytes of the entry before
it, which is what lets the list be walked from its tail. The field is one byte wide
for a length below 254, and otherwise a marker byte and four bytes, the least
significant first.

The wide form may carry a small length as well: **a field once widened is never
narrowed**, so that a deletion cannot set off a chain of changes. That is why the
width is part of the data (`UnrolledList.Link`) and not a function of the length.
-/

namespace UnrolledList

/-- A back link: the length of the entry before, in one of the two widths. -/
inductive Link where
  /-- One byte, for a length below 254. -/
  | narrow (len : Fin 254)
  /-- A marker and four bytes, for any length of 32 bits. -/
  | wide (len : UInt32)
deriving DecidableEq, Repr

namespace Link

/-- The byte that opens a wide field; a smaller first byte is a narrow field. -/
def wideMarker : UInt8 := 254

/-- The number of bytes that a field needs to hold `len`. -/
def widthFor (len : Nat) : Nat :=
  if len < 254 then 1 else 5

/-- The length a link records. -/
def len : Link → Nat
  | narrow len => len
  | wide len => len.toNat

/-- The number of bytes a link occupies. -/
def width : Link → Nat
  | narrow _ => 1
  | wide _ => 5

/-- The link that records `len` in the fewest bytes. -/
def ofLen (len : Nat) : Link :=
  if h : len < 254 then narrow ⟨len, h⟩ else wide (UInt32.ofNat len)

/-- The link with another length. A narrow field widens if the new length asks for
it; a wide field stays wide. -/
def record (link : Link) (len : Nat) : Link :=
  match link with
  | narrow _ => ofLen len
  | wide _ => wide (UInt32.ofNat len)

/-- Whether a length does not fit the width that the link has. -/
def Overflows (link : Link) (len : Nat) : Prop :=
  link.width < widthFor len

instance (link : Link) (len : Nat) : Decidable (link.Overflows len) :=
  inferInstanceAs (Decidable (_ < _))

/-! ### Bytes of a link -/

/-- A field of the given width that holds `len`: width one keeps the low byte, any
other width is the wide form with the low 32 bits. -/
def field (len width : Nat) : Bytes :=
  if width = 1 then [UInt8.ofNat len] else wideMarker :: Bytes.littleEndian 4 len

/-- The bytes of a link. -/
def encode (link : Link) : Bytes :=
  field link.len link.width

/-- Reads a link off the front of a string, if the string is long enough. -/
def read? : Bytes → Option (Link × Bytes)
  | [] => none
  | b :: rest =>
    if h : b.toNat < 254 then some (narrow ⟨b.toNat, h⟩, rest)
    else (Bytes.split? 4 rest).map fun (digits, rest) =>
      (wide (UInt32.ofNat (Bytes.ofLittleEndian digits)), rest)

@[simp] theorem width_narrow (len : Fin 254) : (narrow len).width = 1 := rfl

@[simp] theorem width_wide (len : UInt32) : (wide len).width = 5 := rfl

@[simp] theorem length_encode (link : Link) : link.encode.length = link.width := by
  cases link <;> simp [encode, field]

/-- A link is at least one byte, so reading one makes progress. -/
theorem length_lt_of_read? {s rest : Bytes} {link : Link} (h : read? s = some (link, rest)) :
    rest.length < s.length := by
  match s with
  | [] => simp [read?] at h
  | b :: tail =>
    rw [read?] at h
    split at h
    · simp only [Option.some.injEq, Prod.mk.injEq] at h
      simp [h.2]
    · obtain ⟨⟨digits, rest'⟩, hsplit, heq⟩ := Option.map_eq_some_iff.mp h
      simp only [Prod.mk.injEq] at heq
      have := Bytes.length_rest_of_split? hsplit
      rw [heq.2] at this
      simp only [List.length_cons]
      omega

end Link

end UnrolledList
