import UnrolledList.Proofs.Packed.Inside
import UnrolledList.Proofs.Packed.Numerals

/-!
# What is written for a string

`UnrolledList.Entry.ofBytes` chooses how a string is stored: as an integer if it is the text of
one, under the shortest header, behind the shortest link. This file says what the readers make
of the bytes, **wherever in a blob they stand and whatever is before and behind them**
(`UnrolledList.Entry.ofBytes_readsBack`): the link and the size are found as they were written,
and the value renders as the string.

## What is canonical

A value that is read back is not yet stored well: a list from outside may hold the number 7 in
eight bytes, and it is read as well as any other. The writer takes **the fewest payload bytes
from which the integer can be read at all** (`UnrolledList.Encoding.Stores.payloadSize_le`). This
is stated against the reader, by tag and payload, so nothing about how the writer looks for a
width enters into it.
-/

namespace UnrolledList

/-! ### The narrowest encoding -/

namespace WordWidth

/-- No narrower width holds the integer. -/
theorem bytes_narrowest_le {w : WordWidth} {n : Int} (h : w.Holds n) :
    (narrowest n).bytes ≤ w.bytes := by
  unfold narrowest
  repeat' split
  all_goals cases w <;> first | contradiction | decide

end WordWidth

/-- An integer can be read under a tag from a payload of so many bytes. -/
structure Encoding.Stores (e : Encoding) (n : Int) (size : Nat) : Prop where
  /-- The payload that goes with the tag has that size. -/
  size_eq : e.integerSize? = some size
  /-- Some such payload reads as the integer. -/
  exists_payload : ∃ payload : Bytes, payload.length = size ∧
    integerOfPayload? e.tag payload = some n

namespace Number

/-- A stored integer is read under its tag. -/
theorem stores (x : Number) : x.encoding.Stores x.toInt x.payloadSize where
  size_eq := by cases x <;> rfl
  exists_payload := by
    have hread := x.integerOfPayload?_append []
    rw [List.append_nil] at hread
    exact ⟨x.payload, x.length_payload, hread⟩

end Number

/-- **The writer takes the fewest bytes** from which the integer can be read. -/
theorem Encoding.Stores.payloadSize_le {e : Encoding} {n : Int} {size : Nat}
    (h : e.Stores n size) : (Number.ofInt n).payloadSize ≤ size := by
  obtain ⟨hsize, payload, -, hread⟩ := h
  unfold Number.ofInt
  split
  · exact Nat.zero_le size
  · next hlarge =>
    match e with
    | .short | .medium | .long => contradiction
    | .immediate m =>
      -- the tag tells the integer, which is then one that needs no payload
      have hm : integerOfPayload? (Encoding.immediate m).tag payload = some m.val :=
        (Number.immediate m).integerOfPayload?_append payload
      obtain rfl := Option.some.inj (hm.symm.trans hread)
      exact absurd ⟨by omega, by omega⟩ hlarge
    | .word w =>
      obtain rfl : w.bytes = size := Option.some.inj hsize
      rw [integerOfPayload?, tag, WordWidth.ofTag?_tag] at hread
      obtain ⟨⟨bs, rest⟩, -, rfl⟩ := Option.map_eq_some_iff.mp hread
      exact WordWidth.bytes_narrowest_le (WordWidth.holds_toInt _)

/-! ### The value of a string -/

namespace Body

theorem ofBytes_render {n : Int} (h : Numeral.InRange n) :
    ofBytes (Numeral.render n) = number (.ofInt n) := by
  rw [ofBytes, Numeral.parse_render h]

theorem ofBytes_of_ne_render {s : Bytes} (h : ∀ n, Numeral.InRange n → s ≠ Numeral.render n) :
    ofBytes s = text (.ofBytes s) := by
  unfold ofBytes
  split
  · next n hn =>
    obtain ⟨hrange, hs⟩ := Numeral.parse_eq_ok_iff.mp hn
    exact absurd hs (h n hrange)
  · rfl

/-- A string is stored as an integer exactly if it is the text of that integer, -/
theorem value_ofBytes_eq_number_iff {s : Bytes} {n : Int} :
    (ofBytes s).value = .number n ↔ Numeral.InRange n ∧ s = Numeral.render n := by
  constructor
  · intro h
    unfold ofBytes at h
    split at h
    · next m hm =>
      obtain ⟨hrange, hs⟩ := Numeral.parse_eq_ok_iff.mp hm
      obtain rfl : m = n := by
        rw [← Value.number.inj h, Number.toInt_ofInt hrange.1 hrange.2]
      exact ⟨hrange, hs⟩
    · contradiction
  · rintro ⟨hrange, rfl⟩
    rw [ofBytes_render hrange, value, Number.toInt_ofInt hrange.1 hrange.2]

/-- and as itself exactly if it is not the text of any. -/
theorem value_ofBytes_eq_text_iff {s : Bytes} :
    (ofBytes s).value = .text s ↔ ∀ n, Numeral.InRange n → s ≠ Numeral.render n := by
  constructor
  · intro h n hrange hs
    rw [value_ofBytes_eq_number_iff.mpr ⟨hrange, hs⟩] at h
    contradiction
  · intro h
    rw [ofBytes_of_ne_render h]
    rfl

/-- An integer that a string is stored as takes the fewest bytes that it can. -/
theorem payloadSize_ofBytes_le {s : Bytes} {n : Int} (h : (ofBytes s).value = .number n)
    {e : Encoding} {size : Nat} (hstores : e.Stores n size) : (ofBytes s).payloadSize ≤ size := by
  obtain ⟨hrange, rfl⟩ := value_ofBytes_eq_number_iff.mp h
  rw [ofBytes_render hrange]
  exact hstores.payloadSize_le

theorem stores_of_value_eq {b : Body} {n : Int} (h : b.value = .number n) :
    b.encoding.Stores n b.payloadSize := by
  cases b with
  | text t => contradiction
  | number x =>
    obtain rfl := Value.number.inj h
    exact x.stores

theorem writable_ofBytes {s : Bytes} (h : s.length < 0x100000000) : (ofBytes s).Writable := by
  unfold ofBytes
  split
  · trivial
  · exact h

end Body

/-! ### Reading the entry back -/

namespace Entry

/-- **What is found at a position** of a blob at which the entry of a string was written:
its header and its value. -/
structure ReadsBack (d : Bytes) (q before : Nat) (s : Bytes) (header : InPlace.Header)
    (value : Value) : Prop where
  /-- The header is read there. -/
  header_eq : InPlace.header? d q = some header
  /-- The link records the length that was given. -/
  len_link : header.link.len = before
  /-- The entry is as long as what was written. -/
  size_eq : header.link.width + header.lenSize + header.len = (ofBytes before s).encode.length
  /-- So is its length, as it is found by adding up. -/
  entrySize_eq : InPlace.entrySize? d q = some (ofBytes before s).encode.length
  /-- The value is read there. -/
  get_eq : InPlace.get? d q = some (some value)
  /-- It is an integer exactly if the string is the text of that integer. -/
  number_iff : ∀ n, value = .number n ↔ Numeral.InRange n ∧ s = Numeral.render n
  /-- It is the string exactly if that is not the text of any. -/
  text_iff : value = .text s ↔ ∀ n, Numeral.InRange n → s ≠ Numeral.render n
  /-- It renders as the string. -/
  render_eq : value.render = s
  /-- An integer is stored under a tag and in a size from which it can be read. -/
  stores : ∀ n, value = .number n → ∃ e : Encoding, e.tag = header.tag ∧ e.Stores n header.len
  /-- No encoding from which it can be read is smaller. -/
  smallest : ∀ n, value = .number n → ∀ (e : Encoding) (size : Nat), e.Stores n size →
    header.len ≤ size

/-- Wherever the entry of a string stands, it is found as it was written. -/
theorem readsBack_of_drop {d behind s : Bytes} {q before : Nat} (hbefore : before < 0x100000000)
    (hs : s.length < 0x100000000) (hd : d.drop q = (ofBytes before s).encode ++ behind) :
    ReadsBack d q before s
      ⟨(ofBytes before s).link, (Body.ofBytes s).encoding.tag, (Body.ofBytes s).headerSize,
        (Body.ofBytes s).payloadSize⟩ (Body.ofBytes s).value :=
  have hwritable : (ofBytes before s).Writable := Body.writable_ofBytes hs
  { header_eq := InPlace.header?_of_drop hwritable hd
    len_link := Link.len_ofLen hbefore
    size_eq := by rw [length_encode, size, Body.size_eq, Nat.add_assoc]; rfl
    entrySize_eq := by rw [InPlace.entrySize?_of_drop hwritable hd, length_encode]
    get_eq := InPlace.get?_of_drop hwritable hd
    number_iff := fun _ => Body.value_ofBytes_eq_number_iff
    text_iff := Body.value_ofBytes_eq_text_iff
    render_eq := Body.render_ofBytes s
    stores := fun _ hn => ⟨_, rfl, Body.stores_of_value_eq hn⟩
    smallest := fun _ hn _ _ hstores => Body.payloadSize_ofBytes_le hn hstores }

/-- **The entry codec round-trips and is canonical.** Whatever blob the entry of a string
stands in, it is read back there: its link, its size, and a value that renders as the string,
stored in the fewest bytes if it is an integer. The reader that trusts nothing reads it as it
was written too. -/
theorem ofBytes_readsBack {before : Nat} {s : Bytes} (hbefore : before < 0x100000000)
    (hs : s.length < 0x100000000) (front behind : Bytes) :
    (∃ header value, ReadsBack (front ++ ((ofBytes before s).encode ++ behind)) front.length
      before s header value) ∧
      read before ((ofBytes before s).encode ++ behind) = .ok (ofBytes before s, behind) := by
  have hread := read_encode (e := ofBytes before s) (Body.writable_ofBytes hs) behind
  rw [show (ofBytes before s).link.len = before from Link.len_ofLen hbefore] at hread
  exact ⟨⟨_, _, readsBack_of_drop hbefore hs List.drop_left⟩, hread⟩

/-- An integer that takes three bytes, behind an entry of 300 bytes and before an end marker. -/
theorem ofBytes_readsBack_threeBytes :
    let s : Bytes := [45, 56, 51, 56, 56, 54, 48, 56]
    let d : Bytes := [7] ++ ([0xFE, 44, 1, 0, 0, 0xF0, 0, 0, 0x80] ++ [0xFF])
    300 < 0x100000000 ∧ s.length < 0x100000000 ∧
      ∃ header, ReadsBack d 1 300 s header (.number (-8388608)) := by
  intro s d
  have hbytes : (ofBytes 300 s).encode = [0xFE, 44, 1, 0, 0, 0xF0, 0, 0, 0x80] := by decide
  have hs : Numeral.parse s = .ok (-8388608) := rfl
  have hbefore : 300 < 0x100000000 := by decide
  have hlength : s.length < 0x100000000 := by decide
  obtain ⟨header, value, h⟩ := (ofBytes_readsBack hbefore hlength [7] [0xFF]).1
  rw [hbytes] at h
  obtain rfl := (h.number_iff _).mpr (Numeral.parse_eq_ok_iff.mp hs)
  exact ⟨hbefore, hlength, header, h⟩

end Entry

end UnrolledList
