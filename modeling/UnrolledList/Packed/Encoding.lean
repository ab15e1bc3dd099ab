import UnrolledList.Bytes

/-!
# Encodings

After its back link an entry says what it holds: a byte that names the **encoding**,
for a string also its length, and then the payload. This file is the table of
encodings – the byte that stands for each, the size of the header it opens, the size
of the payload it announces – and the two's complement words that integers are
stored in.

## The byte

* Strings use the two high bits of the byte and leave the low six to the length:
  `00` and six bits, `01` and fourteen, `10` and a 32-bit length in the next four
  bytes, whose low six bits mean nothing. Two strings of one encoding may therefore
  have different bytes, and the *tag* of an encoding is the byte with those bits
  cleared (`UnrolledList.Encoding.clearLength`).
* Integers use whole bytes: one for each of five word widths, and thirteen for the
  integers from 0 to 12, which need no payload at all.

The other bytes from `0xC0` on stand for nothing.
-/

namespace UnrolledList

/-! ### Words -/

/-- The widths in bytes of the words an integer is stored in. -/
inductive WordWidth where
  /-- One byte. -/
  | one
  /-- Two bytes. -/
  | two
  /-- Three bytes. -/
  | three
  /-- Four bytes. -/
  | four
  /-- Eight bytes. -/
  | eight
deriving DecidableEq, Repr

namespace WordWidth

/-- The width in bytes. -/
def bytes : WordWidth → Nat
  | one => 1
  | two => 2
  | three => 3
  | four => 4
  | eight => 8

/-- The width in bits. -/
abbrev bits (w : WordWidth) : Nat := 8 * w.bytes

/-- The byte that announces a word of this width. -/
def tag : WordWidth → UInt8
  | one => 0xFE
  | two => 0xC0
  | three => 0xF0
  | four => 0xD0
  | eight => 0xE0

/-- The width that a byte announces. -/
def ofTag? (t : UInt8) : Option WordWidth :=
  if t = 0xFE then some one
  else if t = 0xC0 then some two
  else if t = 0xF0 then some three
  else if t = 0xD0 then some four
  else if t = 0xE0 then some eight
  else none

/-- Half the number of values of a word. The least integer that it holds is the negation
of this number, and the greatest is one less. -/
def half : WordWidth → Nat
  | one => 0x80
  | two => 0x8000
  | three => 0x800000
  | four => 0x80000000
  | eight => 0x8000000000000000

/-- Whether a word of this width holds the integer. -/
def Holds (w : WordWidth) (n : Int) : Prop :=
  -(w.half : Int) ≤ n ∧ n < w.half

instance (w : WordWidth) (n : Int) : Decidable (w.Holds n) :=
  inferInstanceAs (Decidable (_ ∧ _))

/-- The narrowest width that holds an integer of at most 64 bits. -/
def narrowest (n : Int) : WordWidth :=
  if one.Holds n then one
  else if two.Holds n then two
  else if three.Holds n then three
  else if four.Holds n then four
  else eight

/-- The bytes of a word, the least significant first. An integer that does not fit
loses its high bits. -/
def encode (w : WordWidth) (n : Int) : Bytes :=
  Bytes.littleEndian w.bytes (BitVec.ofInt w.bits n).toNat

/-- The integer that the bytes of a word stand for. -/
def decode (w : WordWidth) (bs : Bytes) : Int :=
  (BitVec.ofNat w.bits (Bytes.ofLittleEndian bs)).toInt

@[simp] theorem ofTag?_tag (w : WordWidth) : ofTag? w.tag = some w := by
  cases w <;> decide

end WordWidth

/-! ### The table -/

/-- What kind of payload an entry has. -/
inductive Encoding where
  /-- A string whose length has six bits. -/
  | short
  /-- A string whose length has fourteen bits. -/
  | medium
  /-- A string whose length has thirty-two bits. -/
  | long
  /-- An integer from 0 to 12, held by the encoding byte itself. -/
  | immediate (n : Fin 13)
  /-- An integer in a word. -/
  | word (w : WordWidth)
deriving DecidableEq, Repr

namespace Encoding

/-- Clears the six bits in which the encoding byte of a string may hold a part of
its length. The byte of an integer has none. -/
def clearLength (b : UInt8) : UInt8 :=
  if b < 0xC0 then b &&& 0xC0 else b

/-- Whether a byte opens the header of a string. -/
def opensText (b : UInt8) : Bool :=
  b &&& 0xC0 < 0xC0

/-- The tag of an encoding. -/
def tag : Encoding → UInt8
  | short => 0x00
  | medium => 0x40
  | long => 0x80
  | immediate n => UInt8.ofNat (0xF1 + n)
  | word w => w.tag

/-- The encoding with the given tag. -/
def ofTag? (t : UInt8) : Option Encoding :=
  if t = 0x00 then some short
  else if t = 0x40 then some medium
  else if t = 0x80 then some long
  else if h : 0xF1 ≤ t.toNat ∧ t.toNat ≤ 0xFD then some (immediate ⟨t.toNat - 0xF1, by omega⟩)
  else (WordWidth.ofTag? t).map word

/-- The number of bytes from the encoding byte to the payload. -/
def headerSize : Encoding → Nat
  | short => 1
  | medium => 2
  | long => 5
  | immediate _ => 1
  | word _ => 1

/-- The payload size of an integer; that of a string is in its header. -/
def integerSize? : Encoding → Option Nat
  | immediate _ => some 0
  | word w => some w.bytes
  | _ => none

/-- The payload size that a header announces. `header` begins with the encoding byte;
nothing is returned if it ends before the length does. -/
def payloadSize? (e : Encoding) (header : Bytes) : Option Nat :=
  match e, header with
  | short, b :: _ => some (b.toNat % 64)
  | medium, b :: c :: _ => some (b.toNat % 64 * 256 + c.toNat)
  | long, _ :: rest => (Bytes.split? 4 rest).map fun (digits, _) => Bytes.ofBigEndian digits
  | immediate _, _ => some 0
  | word w, _ => some w.bytes
  | _, _ => none

@[simp] theorem ofTag?_tag (e : Encoding) : ofTag? e.tag = some e := by
  match e with
  | short | medium | long => rfl
  | word w => cases w <;> decide
  | immediate n => revert n; decide

end Encoding

/-! ### Reading by tag

The two halves of the integer codec for a tag that is given apart from the bytes. -/

/-- The payload that stores `n` under a tag: a word for the tag of a word, and
nothing for any other. -/
def integerPayload (tag : UInt8) (n : Int) : Bytes :=
  match WordWidth.ofTag? tag with
  | some w => w.encode n
  | none => []

/-- The integer that a payload stores under a tag. A tag that is not that of a word is
taken for an immediate one, whose low four bits are one more than the integer. Nothing
is returned if the payload is too short for its word. -/
def integerOfPayload? (tag : UInt8) (payload : Bytes) : Option Int :=
  match WordWidth.ofTag? tag with
  | some w => (Bytes.split? w.bytes payload).map fun (bs, _) => w.decode bs
  | none => some ((tag.toNat % 16 : Nat) - 1)

end UnrolledList
