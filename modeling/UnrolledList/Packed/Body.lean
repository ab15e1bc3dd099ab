import UnrolledList.Packed.Encoding
import UnrolledList.Value

/-!
# Bodies

The body of an entry is what follows its back link: encoding byte, the rest of the
header, payload. It is either a string (`UnrolledList.Text`) or an integer
(`UnrolledList.Number`), and **a body is data, not bytes**: one that exists can be
written (`UnrolledList.Body.encode`), and the length that its header announces is
the length of its payload.

## What a value does not determine

A value is written in one way, the shortest (`UnrolledList.Body.ofBytes`), but a
list from outside may hold others – a short string under a long header, the numeral
`7` as a string or as a word of eight bytes. Such a body keeps its form for as long
as it lives, so the form is part of the data: `UnrolledList.LengthForm` for a string,
with the six free bits of the longest header, and the width of the word for an
integer.
-/

namespace UnrolledList

/-! ### Strings -/

/-- The three ways to write the length of a string. -/
inductive LengthForm where
  /-- Six bits in the encoding byte. -/
  | short
  /-- Fourteen bits, the high six of them in the encoding byte. -/
  | medium
  /-- Four bytes after the encoding byte, whose low six bits are `spare`. -/
  | long (spare : Fin 64)
deriving DecidableEq, Repr

namespace LengthForm

/-- The encoding that a form belongs to. -/
def encoding : LengthForm → Encoding
  | short => .short
  | medium => .medium
  | long _ => .long

/-- The number of bytes from the encoding byte to the payload. -/
def headerSize : LengthForm → Nat
  | short => 1
  | medium => 2
  | long _ => 5

theorem headerSize_encoding (form : LengthForm) :
    form.encoding.headerSize = form.headerSize := by
  cases form <;> rfl

/-- Whether a length can be written in a form. The longest form drops what does not
fit its four bytes, so it takes any length. -/
def Holds : LengthForm → Nat → Prop
  | short, n => n < 64
  | medium, n => n < 16384
  | long _, _ => True

instance (form : LengthForm) (n : Nat) : Decidable (form.Holds n) :=
  match form with
  | short => inferInstanceAs (Decidable (n < 64))
  | medium => inferInstanceAs (Decidable (n < 16384))
  | long _ => inferInstanceAs (Decidable True)

/-- The shortest form for a length. -/
def ofLength (n : Nat) : LengthForm :=
  if n < 64 then short else if n < 16384 then medium else long 0

theorem holds_ofLength (n : Nat) : (ofLength n).Holds n := by
  unfold ofLength
  split
  · assumption
  · split
    · assumption
    · exact trivial

/-- The header of a string of length `n`. -/
def header (form : LengthForm) (n : Nat) : Bytes :=
  match form with
  | short => [UInt8.ofNat n]
  | medium => [UInt8.ofNat (0x40 + n / 256 % 64), UInt8.ofNat n]
  | long spare => UInt8.ofNat (0x80 + spare) :: Bytes.bigEndian 4 n

@[simp] theorem length_header (form : LengthForm) (n : Nat) :
    (form.header n).length = form.headerSize := by
  cases form <;> simp [header, headerSize]

end LengthForm

/-- A stored string. -/
structure Text where
  /-- How the length is written. -/
  form : LengthForm
  /-- The length that is written. -/
  length : Nat
  /-- The payload. -/
  bytes : Bytes
  /-- The payload is as long as the header says. -/
  length_eq : bytes.length = length
  /-- The length can be written in the form. -/
  fits : form.Holds length
deriving DecidableEq

/-- The stored form of a string. -/
def Text.ofBytes (s : Bytes) : Text where
  form := .ofLength s.length
  length := s.length
  bytes := s
  length_eq := rfl
  fits := LengthForm.holds_ofLength _

/-! ### Integers -/

/-- A stored integer. -/
inductive Number where
  /-- An integer from 0 to 12, without payload. -/
  | immediate (n : Fin 13)
  /-- A word. -/
  | word (w : WordWidth) (bits : BitVec w.bits)
deriving DecidableEq

namespace Number

/-- The integer that is stored. -/
def toInt : Number → Int
  | immediate n => n
  | word _ bits => bits.toInt

/-- The shortest stored form of an integer of at most 64 bits. -/
def ofInt (n : Int) : Number :=
  if h : 0 ≤ n ∧ n < 13 then immediate ⟨n.toNat, by omega⟩
  else
    let w := WordWidth.narrowest n
    word w (BitVec.ofInt w.bits n)

/-- The encoding of a stored integer. -/
def encoding : Number → Encoding
  | immediate n => .immediate n
  | word w _ => .word w

/-- The payload of a stored integer. -/
def payload : Number → Bytes
  | immediate _ => []
  | word w bits => Bytes.littleEndian w.bytes bits.toNat

/-- The size of the payload. -/
def payloadSize : Number → Nat
  | immediate _ => 0
  | word w _ => w.bytes

@[simp] theorem length_payload (n : Number) : n.payload.length = n.payloadSize := by
  cases n <;> simp [payload, payloadSize]

end Number

/-! ### Bodies -/

/-- What an entry holds. -/
inductive Body where
  /-- A string. -/
  | text (t : Text)
  /-- An integer. -/
  | number (n : Number)
deriving DecidableEq

namespace Body

/-- **The body that stores a string**: an integer if the string is the canonical text
of one, and the string itself otherwise. -/
def ofBytes (s : Bytes) : Body :=
  match Numeral.parse s with
  | .ok n => number (.ofInt n)
  | .error _ => text (.ofBytes s)

/-- The value stored. -/
def value : Body → Value
  | text t => .text t.bytes
  | number n => .number n.toInt

/-- The encoding used. -/
def encoding : Body → Encoding
  | text t => t.form.encoding
  | number n => n.encoding

/-- The number of payload bytes. -/
def payloadSize : Body → Nat
  | text t => t.length
  | number n => n.payloadSize

/-- The number of bytes from the encoding byte to the payload. -/
def headerSize : Body → Nat
  | text t => t.form.headerSize
  | number _ => 1

theorem headerSize_encoding (b : Body) : b.encoding.headerSize = b.headerSize := by
  match b with
  | text t => exact t.form.headerSize_encoding
  | number (.immediate n) => rfl
  | number (.word w bits) => rfl

/-- The size in bytes, header and payload. -/
def size : Body → Nat
  | text t => t.form.headerSize + t.length
  | number n => n.payloadSize + 1

theorem size_eq (b : Body) : b.size = b.headerSize + b.payloadSize := by
  cases b with
  | text t => rfl
  | number n => exact Nat.add_comm _ _

/-- The bytes of a body. -/
def encode : Body → Bytes
  | text t => t.form.header t.length ++ t.bytes
  | number n => n.encoding.tag :: n.payload

@[simp] theorem length_encode (b : Body) : b.encode.length = b.size := by
  cases b with
  | text t => simp [encode, size, t.length_eq]
  | number n => simp [encode, size]

end Body

end UnrolledList
