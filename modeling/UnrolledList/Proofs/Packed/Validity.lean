import UnrolledList.Packed.Blob
import UnrolledList.Proofs.Packed.Links

/-!
# Which bytes are a packed list

`UnrolledList.Packed.ofBytes` trusts nothing that it reads, and
`UnrolledList.Packed.toBytes` writes whatever it is given. The two meet in
`UnrolledList.Packed.ofBytes_eq_ok_iff`: a blob is accepted **exactly if it is what is
written for a packed list that is well formed**, and then it is read as that list. So the
checks of the reader and the promise of the writer are one and the same predicate,
`UnrolledList.Packed.WellFormed`:

* every back link records the length of the entry before it;
* the length field counts the entries, as long as it counts at all;
* the size is one that the header can tell.

The total length and the tail position in the header are not on this list. They follow
from the entries, and the writer works them out.
-/

namespace UnrolledList

namespace Packed

/-! ### The predicate -/

/-- The length field counts the entries, or says that they have to be counted. -/
def Counted (p : Packed) : Prop :=
  p.lengthField < saturated → p.lengthField.toNat = p.entries.size

/-- A packed list whose bytes are those of a packed list. -/
structure WellFormed (p : Packed) : Prop where
  /-- Every link records the length of the entry before. -/
  linked : Linked 0 p.entries.toList
  /-- The length field is right. -/
  counted : p.Counted
  /-- The header can tell the size. -/
  size_lt : p.size < sizeLimit

/-- The number of entries is the true one, by whichever way it is found. -/
theorem length_eq_iff {p : Packed} : p.length = p.entries.size ↔ p.Counted := by
  unfold length Counted
  split
  · next h => simp [h]
  · next h => simp [h]

theorem wellFormed_empty : empty.WellFormed where
  linked := trivial
  counted := fun _ => rfl
  size_lt := by decide

/-! ### The entries of a blob -/

/-- Entries that are linked are read back. -/
theorem readEntries_flatMap_encode {before : Nat} {es : List Entry} (acc : Array Entry)
    (hlinked : Linked before es) (hwritable : ∀ e ∈ es, e.Writable) :
    readEntries before acc (es.flatMap Entry.encode) = .ok (acc ++ es.toArray) := by
  induction es generalizing before acc with
  | nil => simp [readEntries]
  | cons e es ih =>
    obtain ⟨rfl, hrest⟩ := hlinked
    have hread := Entry.read_encode (hwritable e List.mem_cons_self) (es.flatMap Entry.encode)
    have hne : (e.encode ++ es.flatMap Entry.encode).isEmpty = false := by
      have := e.size_pos
      rw [← e.length_encode] at this
      rw [List.isEmpty_eq_false_iff, ne_eq, ← List.length_eq_zero_iff, List.length_append]
      omega
    rw [List.flatMap_cons, readEntries, hne, if_neg (by decide)]
    split
    · next hread' =>
      rw [hread] at hread'
      contradiction
    · next e' rest hread' =>
      rw [hread] at hread'
      obtain ⟨rfl, rfl⟩ : e = e' ∧ es.flatMap Entry.encode = rest := by simpa using hread'
      rw [ih (acc.push e) hrest fun f hf => hwritable f (List.mem_cons_of_mem e hf)]
      simp

/-- Entries that were read are linked, and stood in the blob as they are written. -/
theorem flatMap_encode_of_readEntries {before : Nat} {acc entries : Array Entry} {s : Bytes}
    (h : readEntries before acc s = .ok entries) :
    ∃ es : List Entry, entries = acc ++ es.toArray ∧ s = es.flatMap Entry.encode ∧
      Linked before es := by
  fun_induction readEntries before acc s with
  | case1 before acc s hempty =>
    obtain rfl : acc = entries := Except.ok.inj h
    exact ⟨[], by simp, by simpa using hempty, trivial⟩
  | case2 => contradiction
  | case3 before acc s hempty e rest hread ih =>
    obtain ⟨es, rfl, rfl, hlinked⟩ := ih h
    obtain ⟨rfl, rfl, -⟩ := Entry.encode_of_read hread
    exact ⟨e :: es, by simp, by simp, rfl, hlinked⟩

/-! ### The header -/

theorem length_flatMap_encode (es : List Entry) :
    (es.flatMap Entry.encode).length = totalSize es := by
  induction es with
  | nil => rfl
  | cons e es ih => simp [ih]

theorem toBytes_eq (p : Packed) :
    p.toBytes = Bytes.littleEndian 4 p.size ++ (Bytes.littleEndian 4 p.tailPos ++
      (Bytes.littleEndian 2 p.lengthField.toNat ++
        (p.entries.toList.flatMap Entry.encode ++ [endMarker]))) := by
  rw [toBytes, encodeEntries_eq]

/-- The cached size is the length of the blob. -/
@[simp] theorem length_toBytes (p : Packed) : p.toBytes.length = p.size := by
  rw [toBytes_eq, p.size_eq, envelopeSize]
  simp only [List.length_append, Bytes.length_littleEndian, length_flatMap_encode,
    List.length_singleton]
  omega

/-- A blob, cut into its fields. -/
theorem eq_append_of_length {blob : Bytes} (h : envelopeSize ≤ blob.length) :
    blob = blob.take 4 ++ ((blob.drop 4).take 4 ++ ((blob.drop 8).take 2 ++
      ((blob.drop headerSize).dropLast ++ blob.getLast?.toList))) := by
  have hlast : (blob.drop headerSize).getLast? = blob.getLast? := by
    rw [List.getLast?_drop, if_neg (by simp only [headerSize, envelopeSize] at *; omega)]
  have hdrop : blob.drop headerSize ≠ [] := by
    rw [ne_eq, List.drop_eq_nil_iff]
    simp only [headerSize, envelopeSize] at *
    omega
  have htail : (blob.drop headerSize).dropLast ++ blob.getLast?.toList =
      blob.drop headerSize := by
    rw [← hlast, List.getLast?_eq_some_getLast hdrop, Option.toList_some]
    exact List.dropLast_concat_getLast hdrop
  have h8 : blob.drop headerSize = (blob.drop 8).drop 2 := by rw [List.drop_drop]; rfl
  have h4 : blob.drop 8 = (blob.drop 4).drop 4 := by rw [List.drop_drop]
  rw [htail, h8, List.take_append_drop, h4, List.take_append_drop, List.take_append_drop]

/-- The fields of a blob that was written. -/
theorem fields_toBytes (p : Packed) :
    p.toBytes.take 4 = Bytes.littleEndian 4 p.size ∧
      (p.toBytes.drop 4).take 4 = Bytes.littleEndian 4 p.tailPos ∧
      (p.toBytes.drop 8).take 2 = Bytes.littleEndian 2 p.lengthField.toNat ∧
      (p.toBytes.drop headerSize).dropLast = p.entries.toList.flatMap Entry.encode ∧
      p.toBytes.getLast? = some endMarker := by
  have h4 : p.toBytes.drop 4 = Bytes.littleEndian 4 p.tailPos ++
      (Bytes.littleEndian 2 p.lengthField.toNat ++
        (p.entries.toList.flatMap Entry.encode ++ [endMarker])) := by
    rw [toBytes_eq, List.drop_left' (Bytes.length_littleEndian 4 _)]
  have h8 : p.toBytes.drop 8 = Bytes.littleEndian 2 p.lengthField.toNat ++
      (p.entries.toList.flatMap Entry.encode ++ [endMarker]) := by
    rw [show (8 : Nat) = 4 + 4 from rfl, ← List.drop_drop, h4,
      List.drop_left' (Bytes.length_littleEndian 4 _)]
  have h10 : p.toBytes.drop headerSize = p.entries.toList.flatMap Entry.encode ++ [endMarker] := by
    rw [show headerSize = 8 + 2 from rfl, ← List.drop_drop, h8,
      List.drop_left' (Bytes.length_littleEndian 2 _)]
  refine ⟨?_, ?_, ?_, ?_, ?_⟩
  · rw [toBytes_eq, List.take_left' (Bytes.length_littleEndian 4 _)]
  · rw [h4, List.take_left' (Bytes.length_littleEndian 4 _)]
  · rw [h8, List.take_left' (Bytes.length_littleEndian 2 _)]
  · rw [h10, List.dropLast_concat]
  · rw [toBytes_eq, ← List.append_assoc, ← List.append_assoc, ← List.append_assoc]
    exact List.getLast?_concat

theorem ofLittleEndian_four {n : Nat} (h : n < sizeLimit) :
    Bytes.ofLittleEndian (Bytes.littleEndian 4 n) = n := by
  rw [Bytes.ofLittleEndian_littleEndian, Bytes.capacity_four]
  exact Nat.mod_eq_of_lt h

theorem ofLittleEndian_two (n : UInt16) :
    UInt16.ofNat (Bytes.ofLittleEndian (Bytes.littleEndian 2 n.toNat)) = n := by
  rw [Bytes.ofLittleEndian_littleEndian, Nat.mod_eq_of_lt (show n.toNat < Bytes.capacity 2 from
    n.toNat_lt), UInt16.ofNat_toNat]

theorem tailPos_lt {p : Packed} (h : p.size < sizeLimit) : p.tailPos < sizeLimit := by
  unfold tailPos endPos
  omega

/-- Two packed lists are the same if their entries and their length fields are. -/
theorem ext_entries {p q : Packed} (hentries : p.entries = q.entries)
    (hfield : p.lengthField = q.lengthField) : p = q := by
  obtain ⟨entries, lengthField, size, size_eq⟩ := p
  obtain ⟨entries', lengthField', size', size_eq'⟩ := q
  obtain rfl : entries = entries' := hentries
  obtain rfl : lengthField = lengthField' := hfield
  obtain rfl : size = size' := size_eq.trans size_eq'.symm
  rfl

/-! ### Reading what was written -/

/-- A packed list that is well formed is read back. -/
theorem ofBytes_toBytes {p : Packed} (h : p.WellFormed) : ofBytes p.toBytes = .ok p := by
  obtain ⟨htotal, htail, hcount, hentries, hlast⟩ := fields_toBytes p
  have hwritable : ∀ e ∈ p.entries.toList, e.Writable := fun e he =>
    Entry.writable_of_size_lt (Nat.lt_of_le_of_lt (size_le_totalSize he) (totalSize_lt h.size_lt))
  have hread : readEntries 0 #[] (p.entries.toList.flatMap Entry.encode) = .ok p.entries := by
    rw [readEntries_flatMap_encode #[] h.linked hwritable]
    simp
  have hlength : p.length = p.entries.size := length_eq_iff.mpr h.counted
  have hself : (⟨p.entries, p.lengthField, envelopeSize + totalSize p.entries.toList, rfl⟩ :
      Packed) = p := ext_entries rfl rfl
  have hsize : ¬ p.size < envelopeSize := by
    have := p.size_eq
    omega
  simp only [ofBytes, htotal, htail, hcount, hentries, hlast, hread, length_toBytes,
    ofLittleEndian_four h.size_lt, ofLittleEndian_four (tailPos_lt h.size_lt),
    ofLittleEndian_two, hself, hsize, hlength, ne_eq, not_true, if_false]

theorem littleEndian_of_length {bs : Bytes} {width : Nat} (h : bs.length = width) :
    Bytes.littleEndian width (Bytes.ofLittleEndian bs) = bs := by
  rw [← h]
  exact Bytes.littleEndian_ofLittleEndian bs

/-- A blob is determined by its fields. -/
theorem toBytes_of_fields {blob : Bytes} {p : Packed} (hlen : envelopeSize ≤ blob.length)
    (htotal : Bytes.ofLittleEndian (blob.take 4) = blob.length)
    (hlast : blob.getLast? = some endMarker)
    (hentries : (blob.drop headerSize).dropLast = p.entries.toList.flatMap Entry.encode)
    (htail : Bytes.ofLittleEndian ((blob.drop 4).take 4) = p.tailPos)
    (hfield : p.lengthField = UInt16.ofNat (Bytes.ofLittleEndian ((blob.drop 8).take 2))) :
    p.toBytes = blob := by
  simp only [envelopeSize] at hlen
  have hfour : (blob.take 4).length = 4 := by
    rw [List.length_take]
    omega
  have htailFour : ((blob.drop 4).take 4).length = 4 := by
    rw [List.length_take, List.length_drop]
    omega
  have htwo : ((blob.drop 8).take 2).length = 2 := by
    rw [List.length_take, List.length_drop]
    omega
  have hsize : p.size = blob.length := by
    rw [p.size_eq, ← length_flatMap_encode, ← hentries, List.length_dropLast, List.length_drop]
    simp only [headerSize, envelopeSize]
    omega
  have hcount : p.lengthField.toNat = Bytes.ofLittleEndian ((blob.drop 8).take 2) := by
    have hcap := Bytes.ofLittleEndian_lt ((blob.drop 8).take 2)
    rw [htwo] at hcap
    rw [hfield, UInt16.toNat_ofNat']
    exact Nat.mod_eq_of_lt hcap
  have hcut := eq_append_of_length hlen
  rw [hlast, Option.toList_some] at hcut
  rw [toBytes_eq, hsize, ← htotal, ← htail, hcount, ← hentries, littleEndian_of_length hfour,
    littleEndian_of_length htailFour, littleEndian_of_length htwo]
  exact hcut.symm

/-- What is accepted is well formed, and is what would be written. -/
theorem wellFormed_of_ofBytes {blob : Bytes} {p : Packed} (h : ofBytes blob = .ok p) :
    p.toBytes = blob ∧ p.WellFormed := by
  simp only [ofBytes] at h
  split at h
  · contradiction
  · next hlen =>
    split at h
    · contradiction
    · next htotal =>
      split at h
      · contradiction
      · next hlast =>
        split at h
        · contradiction
        · next entries hread =>
          split at h
          · contradiction
          · next htail =>
            split at h
            · contradiction
            · next hcount =>
              obtain ⟨es, rfl, hes, hlinked⟩ := flatMap_encode_of_readEntries hread
              obtain rfl := Except.ok.inj h
              simp only [ne_eq, Decidable.not_not] at htotal hlast htail hcount
              have hlen' : envelopeSize ≤ blob.length := Nat.le_of_not_lt hlen
              have hbytes := toBytes_of_fields hlen' htotal hlast (by simpa using hes) htail rfl
              refine ⟨hbytes, ?_, length_eq_iff.mp hcount, ?_⟩
              · simp only [List.append_toArray, List.nil_append]
                exact hlinked
              · have hcap := Bytes.ofLittleEndian_lt (blob.take 4)
                rw [List.length_take, Nat.min_eq_left (Nat.le_trans (by decide) hlen'),
                  Bytes.capacity_four, htotal, ← hbytes, length_toBytes] at hcap
                exact hcap

/-- **The blobs that are accepted are those that are written** for packed lists that are
well formed. -/
theorem ofBytes_eq_ok_iff {blob : Bytes} {p : Packed} :
    ofBytes blob = .ok p ↔ p.toBytes = blob ∧ p.WellFormed := by
  constructor
  · exact wellFormed_of_ofBytes
  · rintro ⟨rfl, h⟩
    exact ofBytes_toBytes h

end Packed

end UnrolledList
