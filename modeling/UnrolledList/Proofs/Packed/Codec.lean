import Mathlib.Algebra.Group.Nat.Defs
import UnrolledList.Packed.Entry

/-!
# The entry codec

Reading an entry and writing one are inverse to each other: what was written is read back,
with whatever follows it left alone (`UnrolledList.Entry.read_encode`), and what is read
is what the writer would have written (`UnrolledList.Entry.encode_of_read`). The second
half is the one that makes a blob from outside harmless: the six free bits of the longest
header, a needlessly wide link and a string under too long a header are all **part of the
entry**, so an accepted entry has no second spelling.

The one thing that an entry can have and its bytes cannot is a string of 2³² bytes or more
(`UnrolledList.Entry.Writable`).
-/

namespace UnrolledList

theorem Bytes.capacity_four : Bytes.capacity 4 = 0x100000000 := rfl

/-! ### Links -/

namespace Link

theorem encode_narrow (n : Fin 254) : (narrow n).encode = [UInt8.ofNat n.val] := rfl

theorem encode_wide (n : UInt32) :
    (wide n).encode = wideMarker :: Bytes.littleEndian 4 n.toNat := rfl

/-- A link is read back. -/
theorem read?_encode (link : Link) (rest : Bytes) :
    read? (link.encode ++ rest) = some (link, rest) := by
  cases link with
  | narrow n =>
    have hn : (UInt8.ofNat n.val).toNat = n.val := by
      rw [UInt8.toNat_ofNat']
      omega
    have hlt : n.val < 254 := n.isLt
    simp only [encode_narrow, List.cons_append, List.nil_append, read?, hn, hlt, dite_true]
  | wide n =>
    have hmarker : ¬ wideMarker.toNat < 254 := by decide
    have hdigits := Bytes.split?_append (Bytes.littleEndian 4 n.toNat) rest
    rw [Bytes.length_littleEndian] at hdigits
    have hn : Bytes.ofLittleEndian (Bytes.littleEndian 4 n.toNat) = n.toNat := by
      rw [Bytes.ofLittleEndian_littleEndian, Bytes.capacity_four]
      exact Nat.mod_eq_of_lt n.toNat_lt
    rw [encode_wide, List.cons_append, read?, dif_neg hmarker, hdigits, Option.map_some]
    simp only [hn, UInt32.ofNat_toNat]

/-- A link that was read is written as it stood, unless an end marker stood there. -/
theorem encode_of_read? {s rest : Bytes} {link : Link} (h : read? s = some (link, rest))
    (hend : s.head? ≠ some 0xFF) : s = link.encode ++ rest := by
  match s with
  | [] => simp [read?] at h
  | b :: tail =>
    rw [read?] at h
    split at h
    · obtain ⟨rfl, rfl⟩ : narrow _ = link ∧ tail = rest := by simpa using h
      rw [encode_narrow, UInt8.ofNat_toNat, List.singleton_append]
    · next hb =>
      obtain ⟨⟨digits, rest'⟩, hsplit, heq⟩ := Option.map_eq_some_iff.mp h
      obtain ⟨rfl, rfl⟩ : wide _ = link ∧ rest' = rest := by simpa using heq
      obtain ⟨hlen, rfl⟩ := Bytes.split?_eq_some_iff.mp hsplit
      have hmarker : b = wideMarker := by
        have hne : b ≠ 0xFF := by simpa using hend
        have hne' : b.toNat ≠ 255 := fun hc => hne (UInt8.toNat_inj.mp hc)
        have hlt := b.toNat_lt
        exact UInt8.toNat_inj.mp (show b.toNat = 254 by omega)
      have hval : Bytes.ofLittleEndian digits < 2 ^ 32 := by
        have hcap := Bytes.ofLittleEndian_lt digits
        rwa [hlen, Bytes.capacity_four] at hcap
      have hspell := Bytes.littleEndian_ofLittleEndian digits
      rw [hlen] at hspell
      rw [encode_wide, UInt32.toNat_ofNat', Nat.mod_eq_of_lt hval, hspell, hmarker,
        List.cons_append]

end Link

/-! ### Encoding bytes -/

namespace Encoding

/-- The bytes that open the header of an encoding: those of a string begin with its two
high bits, and an integer has the one byte of its tag. -/
def OpenedBy (b : UInt8) : Encoding → Prop
  | short => b.toNat < 0x40
  | medium => 0x40 ≤ b.toNat ∧ b.toNat < 0x80
  | long => 0x80 ≤ b.toNat ∧ b.toNat < 0xC0
  | immediate n => b = (immediate n).tag
  | word w => b = w.tag

instance (b : UInt8) (e : Encoding) : Decidable (e.OpenedBy b) :=
  match e with
  | short => inferInstanceAs (Decidable (_ < _))
  | medium => inferInstanceAs (Decidable (_ ∧ _))
  | long => inferInstanceAs (Decidable (_ ∧ _))
  | immediate n => inferInstanceAs (Decidable (b = (immediate n).tag))
  | word w => inferInstanceAs (Decidable (b = w.tag))

/-- **The table of encodings**, read from the side of the bytes. -/
theorem ofTag?_clearLength_eq_some_iff {b : UInt8} {e : Encoding} :
    ofTag? (clearLength b) = some e ↔ e.OpenedBy b := by
  have hall : ∀ n : Fin 256, (ofTag? (clearLength (UInt8.ofNat n))).all
      (fun e => e.OpenedBy (UInt8.ofNat n)) = true := by decide +kernel
  have hstrings : ∀ n : Fin 256, ∀ e ∈ [short, medium, long], e.OpenedBy (UInt8.ofNat n) →
      ofTag? (clearLength (UInt8.ofNat n)) = some e := by decide +kernel
  have hb : UInt8.ofNat (⟨b.toNat, b.toNat_lt⟩ : Fin 256).val = b := UInt8.ofNat_toNat
  constructor
  · intro h
    simpa [hb, h] using hall ⟨b.toNat, b.toNat_lt⟩
  · intro h
    match e with
    | short => simpa [hb] using hstrings ⟨b.toNat, b.toNat_lt⟩ short (by simp) (hb.symm ▸ h)
    | medium => simpa [hb] using hstrings ⟨b.toNat, b.toNat_lt⟩ medium (by simp) (hb.symm ▸ h)
    | long => simpa [hb] using hstrings ⟨b.toNat, b.toNat_lt⟩ long (by simp) (hb.symm ▸ h)
    | immediate n =>
      obtain rfl : b = (immediate n).tag := h
      revert n
      decide
    | word w =>
      obtain rfl : b = w.tag := h
      cases w <;> decide

end Encoding

/-! ### Words -/

namespace WordWidth

/-- A word has as many bits as its bytes can tell. -/
theorem capacity_bytes (w : WordWidth) : Bytes.capacity w.bytes = 2 ^ w.bits := by
  cases w <;> rfl

/-- A word is read back from its bytes, -/
theorem ofLittleEndian_littleEndian (w : WordWidth) (bits : BitVec w.bits) :
    Bytes.ofLittleEndian (Bytes.littleEndian w.bytes bits.toNat) = bits.toNat := by
  rw [Bytes.ofLittleEndian_littleEndian, capacity_bytes]
  exact Nat.mod_eq_of_lt bits.isLt

/-- and bytes are those of a word. -/
theorem toNat_ofLittleEndian {w : WordWidth} {bs : Bytes} (h : bs.length = w.bytes) :
    (BitVec.ofNat w.bits (Bytes.ofLittleEndian bs)).toNat = Bytes.ofLittleEndian bs := by
  have hlt := Bytes.ofLittleEndian_lt bs
  rw [h, capacity_bytes] at hlt
  rw [BitVec.toNat_ofNat, Nat.mod_eq_of_lt hlt]

end WordWidth

/-! ### Bodies -/

/-- Whether the header of a body has room for its length. -/
def Body.Writable : Body → Prop
  | text t => t.length < 0x100000000
  | number _ => True

/-- A payload of the announced length is read back. -/
theorem Text.read_append (t : Text) (rest : Bytes) :
    Text.read t.form t.length t.fits (t.bytes ++ rest) = .ok (.text t, rest) := by
  obtain ⟨form, length, bytes, rfl, fits⟩ := t
  unfold Text.read
  split
  · next hnone => simp [Bytes.split?_append] at hnone
  · next bytes' rest' hsome =>
    have heq := hsome.symm.trans (Bytes.split?_append bytes rest)
    obtain ⟨rfl, rfl⟩ : bytes' = bytes ∧ rest' = rest := by simpa using heq
    rfl

/-- A payload that was read has the announced length, and stood there. -/
theorem Text.append_of_read {form : LengthForm} {n : Nat} {fits : form.Holds n}
    {s rest : Bytes} {body : Body} (h : Text.read form n fits s = .ok (body, rest)) :
    ∃ t : Text, body = .text t ∧ t.form = form ∧ t.length = n ∧ s = t.bytes ++ rest := by
  unfold Text.read at h
  split at h
  · contradiction
  · next bytes rest' hsplit =>
    obtain ⟨rfl, rfl⟩ : _ = body ∧ rest' = rest := by simpa using h
    exact ⟨_, rfl, rfl, rfl, (Bytes.split?_eq_some_iff.mp hsplit).2⟩

namespace Body

/-- A string is read back. -/
theorem read_encode_text (t : Text) (h : t.length < 0x100000000) (rest : Bytes) :
    read ((text t).encode ++ rest) = .ok (text t, rest) := by
  have hpayload := t.read_append rest
  obtain ⟨form, length, bytes, length_eq, fits⟩ := t
  simp only at h hpayload
  cases form with
  | short =>
    have hlen : length < 64 := fits
    have hb : (UInt8.ofNat length).toNat = length := by
      rw [UInt8.toNat_ofNat']
      omega
    have htag : Encoding.ofTag? (Encoding.clearLength (UInt8.ofNat length)) = some .short :=
      Encoding.ofTag?_clearLength_eq_some_iff.mpr (by simp only [Encoding.OpenedBy]; omega)
    simp only [encode, LengthForm.header, List.cons_append, List.nil_append, read, htag, hb,
      Nat.mod_eq_of_lt hlen]
    exact hpayload
  | medium =>
    have hlen : length < 16384 := fits
    have hb : (UInt8.ofNat (0x40 + length / 256 % 64)).toNat = 0x40 + length / 256 % 64 := by
      rw [UInt8.toNat_ofNat']
      omega
    have hc : (UInt8.ofNat length).toNat = length % 256 := UInt8.toNat_ofNat'
    have htag : Encoding.ofTag? (Encoding.clearLength (UInt8.ofNat (0x40 + length / 256 % 64))) =
        some .medium :=
      Encoding.ofTag?_clearLength_eq_some_iff.mpr (by simp only [Encoding.OpenedBy]; omega)
    have hspelt : (0x40 + length / 256 % 64) % 64 * 256 + length % 256 = length := by omega
    simp only [encode, LengthForm.header, List.cons_append, List.nil_append, read, htag, hb, hc,
      hspelt]
    exact hpayload
  | long spare =>
    have hspare := spare.isLt
    have hb : (UInt8.ofNat (0x80 + spare.val)).toNat = 0x80 + spare.val := by
      rw [UInt8.toNat_ofNat']
      omega
    have htag : Encoding.ofTag? (Encoding.clearLength (UInt8.ofNat (0x80 + spare.val))) =
        some .long :=
      Encoding.ofTag?_clearLength_eq_some_iff.mpr (by simp only [Encoding.OpenedBy]; omega)
    have hdigits := Bytes.split?_append (Bytes.bigEndian 4 length) (bytes ++ rest)
    rw [Bytes.length_bigEndian] at hdigits
    have hspelt : Bytes.ofBigEndian (Bytes.bigEndian 4 length) = length := by
      rw [Bytes.ofBigEndian, Bytes.bigEndian, List.reverse_reverse,
        Bytes.ofLittleEndian_littleEndian, Bytes.capacity_four]
      exact Nat.mod_eq_of_lt h
    have hmod : (0x80 + spare.val) % 64 = spare.val := by omega
    simp only [encode, LengthForm.header, List.cons_append, List.append_assoc, read, htag,
      hdigits, hspelt, hb, hmod]
    exact hpayload

/-- An integer is read back. -/
theorem read_encode_number (n : Number) (rest : Bytes) :
    read ((number n).encode ++ rest) = .ok (number n, rest) := by
  have htag : Encoding.ofTag? (Encoding.clearLength n.encoding.tag) = some n.encoding := by
    cases n with
    | immediate n => exact Encoding.ofTag?_clearLength_eq_some_iff.mpr rfl
    | word w bits => exact Encoding.ofTag?_clearLength_eq_some_iff.mpr rfl
  simp only [encode, List.cons_append, read, htag]
  cases n with
  | immediate n => rfl
  | word w bits =>
    have hsplit := Bytes.split?_append (Bytes.littleEndian w.bytes bits.toNat) rest
    rw [Bytes.length_littleEndian] at hsplit
    simp only [Number.encoding, Number.payload, Number.read, hsplit, w.ofLittleEndian_littleEndian,
      BitVec.ofNat_toNat, BitVec.setWidth_eq]

/-- **A body is read back.** -/
theorem read_encode {b : Body} (h : b.Writable) (rest : Bytes) :
    read (b.encode ++ rest) = .ok (b, rest) := by
  cases b with
  | text t => exact read_encode_text t h rest
  | number n => exact read_encode_number n rest

/-- A string is written under the header that it was read under. -/
theorem encode_of_read_text {form : LengthForm} {n : Nat} {fits : form.Holds n}
    {s rest : Bytes} {body : Body} (header : Bytes)
    (h : Text.read form n fits s = .ok (body, rest)) (hheader : form.header n = header)
    (hn : n < 0x100000000) :
    header ++ s = body.encode ++ rest ∧ body.Writable := by
  obtain ⟨t, rfl, rfl, rfl, rfl⟩ := Text.append_of_read h
  refine ⟨?_, hn⟩
  rw [← hheader, encode, List.append_assoc]

/-- A word is written as it was read. -/
theorem encode_of_read_word {w : WordWidth} {s rest : Bytes} {body : Body}
    (h : Number.read w s = .ok (body, rest)) :
    w.tag :: s = body.encode ++ rest ∧ body.Writable := by
  unfold Number.read at h
  split at h
  · contradiction
  · next bytes rest' hsplit =>
    obtain ⟨rfl, rfl⟩ : _ = body ∧ rest' = rest := by simpa using h
    obtain ⟨hlen, rfl⟩ := Bytes.split?_eq_some_iff.mp hsplit
    have hspell := Bytes.littleEndian_ofLittleEndian bytes
    rw [hlen] at hspell
    refine ⟨?_, trivial⟩
    rw [encode, Number.encoding, Number.payload, WordWidth.toNat_ofLittleEndian hlen, hspell,
      Encoding.tag, List.cons_append]

/-- **A body that was read is written as it stood.** -/
theorem encode_of_read {s rest : Bytes} {body : Body} (h : read s = .ok (body, rest)) :
    s = body.encode ++ rest ∧ body.Writable := by
  match s with
  | [] => simp [read] at h
  | b :: tail =>
    have hlt := b.toNat_lt
    simp only [read] at h
    split at h
    · contradiction
    · next htag =>
      have hb : b.toNat < 0x40 := Encoding.ofTag?_clearLength_eq_some_iff.mp htag
      have hmod : b.toNat % 64 = b.toNat := Nat.mod_eq_of_lt hb
      exact encode_of_read_text [b] h
        (by rw [LengthForm.header, hmod, UInt8.ofNat_toNat]) (by omega)
    · next htag =>
      obtain ⟨hlow, hhigh⟩ := Encoding.ofTag?_clearLength_eq_some_iff.mp htag
      split at h
      · contradiction
      · next c tail =>
        have hc := c.toNat_lt
        have hhead : 0x40 + (b.toNat % 64 * 256 + c.toNat) / 256 % 64 = b.toNat := by omega
        have hnext : UInt8.ofNat (b.toNat % 64 * 256 + c.toNat) = c := by
          apply UInt8.toNat_inj.mp
          rw [UInt8.toNat_ofNat']
          omega
        exact encode_of_read_text [b, c] h
          (by rw [LengthForm.header, hhead, UInt8.ofNat_toNat, hnext]) (by omega)
    · next htag =>
      obtain ⟨hlow, hhigh⟩ := Encoding.ofTag?_clearLength_eq_some_iff.mp htag
      split at h
      · contradiction
      · next digits tail' hsplit =>
        obtain ⟨hlen, rfl⟩ := Bytes.split?_eq_some_iff.mp hsplit
        have hhead : 0x80 + b.toNat % 64 = b.toNat := by omega
        have hcap := Bytes.ofLittleEndian_lt digits.reverse
        have hspell := Bytes.littleEndian_ofLittleEndian digits.reverse
        rw [List.length_reverse, hlen] at hcap hspell
        refine encode_of_read_text (b :: digits) h ?_ hcap
        rw [LengthForm.header, hhead, UInt8.ofNat_toNat, Bytes.bigEndian, Bytes.ofBigEndian,
          hspell, List.reverse_reverse]
    · next n htag =>
      obtain ⟨rfl, rfl⟩ : _ = body ∧ tail = rest := by simpa using h
      have hb : b = (Encoding.immediate n).tag := Encoding.ofTag?_clearLength_eq_some_iff.mp htag
      exact ⟨by rw [hb]; rfl, trivial⟩
    · next w htag =>
      have hb : b = w.tag := Encoding.ofTag?_clearLength_eq_some_iff.mp htag
      rw [hb]
      exact encode_of_read_word h

end Body

/-! ### Entries -/

/-- Whether an entry has bytes that give it back. -/
def Entry.Writable (e : Entry) : Prop :=
  e.body.Writable

namespace Entry

/-- No entry begins with the end marker. -/
theorem head?_encode (e : Entry) (rest : Bytes) : (e.encode ++ rest).head? ≠ some 0xFF := by
  obtain ⟨link, body⟩ := e
  cases link with
  | narrow n =>
    have hn := n.isLt
    simp only [encode, Link.encode_narrow, List.cons_append, List.head?_cons, ne_eq,
      Option.some.injEq]
    intro hc
    have := congrArg UInt8.toNat hc
    rw [UInt8.toNat_ofNat'] at this
    have h255 : (0xFF : UInt8).toNat = 255 := rfl
    omega
  | wide n => simp [encode, Link.encode_wide, Link.wideMarker]

theorem isEmpty_encode_body (b : Body) (rest : Bytes) : (b.encode ++ rest).isEmpty = false := by
  cases b with
  | text t =>
    obtain ⟨form, length, bytes, length_eq, fits⟩ := t
    cases form <;> rfl
  | number n => rfl

/-- **An entry is read back**, and what follows it is left alone. -/
theorem read_encode {e : Entry} (h : e.Writable) (rest : Bytes) :
    read e.link.len (e.encode ++ rest) = .ok (e, rest) := by
  obtain ⟨link, body⟩ := e
  have hlink := Link.read?_encode link (body.encode ++ rest)
  have hbody := Body.read_encode h rest
  rw [read, if_neg (head?_encode _ rest)]
  simp only [encode, List.append_assoc, hlink, isEmpty_encode_body, hbody, Bool.false_eq_true,
    ne_eq, not_true, if_false]

/-- **An entry that was read is written as it stood**, and its link records what was asked
for. -/
theorem encode_of_read {before : Nat} {s rest : Bytes} {e : Entry}
    (h : read before s = .ok (e, rest)) :
    s = e.encode ++ rest ∧ e.link.len = before ∧ e.Writable := by
  simp only [read] at h
  split at h
  · contradiction
  · next hend =>
    split at h
    · contradiction
    · next link tail hlink =>
      split at h
      · contradiction
      · split at h
        · contradiction
        · next hlen =>
          split at h
          · contradiction
          · next body rest' hbody =>
            obtain ⟨rfl, rfl⟩ : ⟨link, body⟩ = e ∧ rest' = rest := by simpa using h
            obtain ⟨rfl, hwritable⟩ := Body.encode_of_read hbody
            refine ⟨?_, by simpa using hlen, hwritable⟩
            rw [encode, List.append_assoc]
            exact Link.encode_of_read? hlink hend

end Entry

end UnrolledList
