import UnrolledList.Proofs.Packed.InPlace

/-!
# The check never leaves the blob

The check of a blob in place (`UnrolledList.InPlace.check?`) has to be safe on **any**
string of bytes, because it is what stands between the bytes and every reader that makes
sure of nothing. This file shows that it is, and that it says what
`UnrolledList.Packed.ofBytes` says (`UnrolledList.InPlace.check?_eq`): for every string the
check has an answer, so no read of it leaves the string, and the answer is the same
defect, or the same acceptance.

## The two readers side by side

Reading from the front has the bytes `s` before it that no entry has taken yet; reading in
place has the whole blob and a position, and there stand those bytes **and the end marker**:
`d.drop p = s ++ [endMarker]`. That is the invariant of the walk. Under it the position
where a reader in place stops is told by how much the other reader has left, and each bound
that the check compares with is the length of `s` in disguise.

A link and a body are read in the same way with the marker behind them as without it, as
long as they are complete; that a reader asks only for what it then uses is
`UnrolledList.Link.read?_append` and `UnrolledList.Encoding.payloadSize?_append`.
-/

namespace UnrolledList

/-! ### What a reader takes -/

namespace Bytes

variable {n : Nat} {s : Bytes}

theorem split?_of_le (h : n ≤ s.length) : split? n s = some (s.take n, s.drop n) :=
  split?_eq_some_iff.mpr
    ⟨by rw [List.length_take, Nat.min_eq_left h], (List.take_append_drop n s).symm⟩

theorem split?_of_lt (h : s.length < n) : split? n s = none := by
  rw [Option.eq_none_iff_forall_not_mem]
  rintro ⟨xs, ys⟩ hmem
  obtain ⟨hlen, rfl⟩ := split?_eq_some_iff.mp hmem
  rw [List.length_append] at h
  omega

end Bytes

open InPlace (linkWidth)

namespace Link

variable {b : UInt8} {s rest : Bytes} {link : Link}

theorem read?_of_lt (h : b.toNat < 254) : read? (b :: s) = some (narrow ⟨b.toNat, h⟩, s) := by
  rw [read?, dif_pos h]

theorem read?_of_not_lt (h : ¬ b.toNat < 254) :
    read? (b :: s) = (Bytes.split? 4 s).map fun r =>
      (wide (UInt32.ofNat (Bytes.ofLittleEndian r.1)), r.2) := by
  rw [read?, dif_neg h]

/-- The first byte of a link tells its width. -/
theorem drop_of_read? (h : read? (b :: s) = some (link, rest)) :
    link.width = linkWidth b ∧ rest = (b :: s).drop (linkWidth b) := by
  unfold linkWidth
  by_cases hb : b.toNat < 254
  · rw [read?_of_lt hb] at h
    obtain ⟨rfl, rfl⟩ : narrow _ = link ∧ s = rest := by simpa using h
    rw [if_pos hb]
    exact ⟨rfl, rfl⟩
  · rw [read?_of_not_lt hb] at h
    obtain ⟨⟨digits, rest'⟩, hsplit, heq⟩ := Option.map_eq_some_iff.mp h
    obtain ⟨rfl, rfl⟩ : wide _ = link ∧ rest' = rest := by simpa using heq
    obtain ⟨hlen, rfl⟩ := Bytes.split?_eq_some_iff.mp hsplit
    rw [if_neg hb]
    refine ⟨rfl, ?_⟩
    rw [List.drop_succ_cons, ← hlen, List.drop_left]

/-- A link is missing bytes only if there are too few. -/
theorem length_lt_of_read?_eq_none (h : read? (b :: s) = none) : s.length + 1 < linkWidth b := by
  unfold linkWidth
  by_cases hb : b.toNat < 254
  · rw [read?_of_lt hb] at h
    contradiction
  · rw [read?_of_not_lt hb, Option.map_eq_none_iff] at h
    rw [if_neg hb]
    rcases Nat.lt_or_ge s.length 4 with hlt | hle
    · omega
    · rw [Bytes.split?_of_le hle] at h
      contradiction

/-- What stands behind a link does not matter to it. -/
theorem read?_append (h : read? (b :: s) = some (link, rest)) (t : Bytes) :
    read? (b :: (s ++ t)) = some (link, rest ++ t) := by
  by_cases hb : b.toNat < 254
  · rw [read?_of_lt hb] at h ⊢
    obtain ⟨rfl, rfl⟩ : narrow _ = link ∧ s = rest := by simpa using h
    rfl
  · rw [read?_of_not_lt hb] at h ⊢
    obtain ⟨⟨digits, rest'⟩, hsplit, heq⟩ := Option.map_eq_some_iff.mp h
    obtain ⟨rfl, rfl⟩ : wide _ = link ∧ rest' = rest := by simpa using heq
    obtain ⟨hlen, rfl⟩ := Bytes.split?_eq_some_iff.mp hsplit
    rw [List.append_assoc, ← hlen, Bytes.split?_append]
    rfl

end Link

namespace Encoding

/-- A header says how long the payload is unless bytes of it are missing. -/
theorem payloadSize?_eq_none_iff {e : Encoding} {b : UInt8} {s : Bytes} :
    e.payloadSize? (b :: s) = none ↔ (b :: s).length < e.headerSize := by
  match e, s with
  | short, s | immediate n, s | word w, s => simp [payloadSize?, headerSize]
  | medium, [] => simp [payloadSize?, headerSize]
  | medium, c :: s => simp [payloadSize?, headerSize]
  | long, s =>
    rw [payloadSize?, Option.map_eq_none_iff, List.length_cons, headerSize]
    rcases Nat.lt_or_ge s.length 4 with hlt | hle
    · simp only [Bytes.split?_of_lt hlt, true_iff]
      omega
    · simp [Bytes.split?_of_le hle, hle]

/-- What stands behind a header does not matter to it. -/
theorem payloadSize?_append {e : Encoding} {b : UInt8} {s : Bytes} {n : Nat}
    (h : e.payloadSize? (b :: s) = some n) (t : Bytes) :
    e.payloadSize? (b :: (s ++ t)) = some n := by
  match e, s with
  | short, s => exact h
  | medium, [] => simp [payloadSize?] at h
  | medium, c :: s => exact h
  | long, s =>
    obtain ⟨⟨digits, rest⟩, hsplit, rfl⟩ := Option.map_eq_some_iff.mp h
    obtain ⟨hlen, rfl⟩ := Bytes.split?_eq_some_iff.mp hsplit
    rw [payloadSize?, List.append_assoc, ← hlen, Bytes.split?_append]
    rfl
  | immediate n, s => exact h
  | word w, s => exact h

end Encoding

/-- What a reader of a string leaves of one that begins with bytes already read. -/
theorem Text.map_read {α : Type} (f : Bytes → α) {form : LengthForm} {n : Nat}
    (fits : form.Holds n) (front s : Bytes) :
    (Text.read form n fits s).map (fun r => f r.2) =
      if (front ++ s).length < front.length + n then .error .payloadOutOfRange
      else .ok (f ((front ++ s).drop (front.length + n))) := by
  rw [List.length_append, ← List.drop_drop, List.drop_left]
  unfold Text.read
  split
  · next hnone =>
    have hlt : s.length < n := by
      rcases Nat.lt_or_ge s.length n with hlt | hle
      · exact hlt
      · rw [Bytes.split?_of_le hle] at hnone
        contradiction
    rw [if_pos (by omega)]
    rfl
  · next bytes rest hsplit =>
    obtain ⟨hlen, rfl⟩ := Bytes.split?_eq_some_iff.mp hsplit
    have hdrop : (bytes ++ rest).drop n = rest := by rw [← hlen, List.drop_left]
    rw [if_neg (by rw [List.length_append]; omega), hdrop]
    rfl

/-- What a reader of a word leaves. -/
theorem Number.map_read {α : Type} (f : Bytes → α) {w : WordWidth} (b : UInt8) (s : Bytes) :
    (Number.read w s).map (fun r => f r.2) =
      if (b :: s).length < 1 + w.bytes then .error .payloadOutOfRange
      else .ok (f ((b :: s).drop (1 + w.bytes))) := by
  rw [List.length_cons, Nat.add_comm 1, List.drop_succ_cons]
  unfold Number.read
  rcases Nat.lt_or_ge s.length w.bytes with hlt | hle
  · rw [Bytes.split?_of_lt hlt, if_pos (by omega)]
    rfl
  · rw [Bytes.split?_of_le hle, if_neg (by omega)]
    rfl

/-- **What a reader of a body leaves**: the bytes behind the header and the payload that it
announces. -/
theorem Body.map_read {α : Type} (f : Bytes → α) (b : UInt8) (s : Bytes) :
    (Body.read (b :: s)).map (fun r => f r.2) =
      match Encoding.ofTag? (Encoding.clearLength b) with
      | none => .error .badEncoding
      | some e =>
        match e.payloadSize? (b :: s) with
        | none => .error .headerOutOfRange
        | some n =>
          if (b :: s).length < e.headerSize + n then .error .payloadOutOfRange
          else .ok (f ((b :: s).drop (e.headerSize + n))) := by
  cases htag : Encoding.ofTag? (Encoding.clearLength b) with
  | none =>
    simp only [Body.read, htag]
    rfl
  | some e =>
    simp only [Body.read, htag]
    cases e with
    | short => exact Text.map_read f _ [b] s
    | medium =>
      cases s with
      | nil => rfl
      | cons c s => exact Text.map_read f _ [b, c] s
    | long =>
      rcases Nat.lt_or_ge s.length 4 with hlt | hle
      · simp only [Bytes.split?_of_lt hlt, Encoding.payloadSize?]
        rfl
      · have hcut : b :: s = (b :: s.take 4) ++ s.drop 4 := by
          rw [List.cons_append, List.take_append_drop]
        have hfits : (LengthForm.long ⟨b.toNat % 64, Nat.mod_lt _ (by decide)⟩).Holds
            (Bytes.ofBigEndian (s.take 4)) := trivial
        have hlen : (b :: s.take 4).length = 4 + 1 := by
          rw [List.length_cons, List.length_take, Nat.min_eq_left hle]
        have hread := Text.map_read f hfits (b :: s.take 4) (s.drop 4)
        rw [← hcut, hlen] at hread
        simp only [Bytes.split?_of_le hle, Encoding.payloadSize?]
        exact hread
    | immediate n =>
      refine Eq.trans ?_ (if_neg ?_).symm
      · rfl
      · exact Nat.not_lt.mpr (Nat.le_add_left 1 _)
    | word w => exact Number.map_read f b s

/-! ### Side by side -/

namespace InPlace

open Packed (endMarker)

variable {d s : Bytes} {p before : Nat}

/-- The end marker stands as far behind a position as there are bytes before it. -/
theorem stop_eq (hd : d.drop p = s ++ [endMarker]) : d.length - 1 = p + s.length := by
  have hlen := congrArg List.length hd
  rw [List.length_drop, List.length_append, List.length_singleton] at hlen
  omega

/-- A body ends in place where the other reader stops. -/
theorem bodyEnd?_eq {b : UInt8} (hd : d.drop p = (b :: s) ++ [endMarker]) :
    bodyEnd? d p = some ((Body.read (b :: s)).map fun r => d.length - 1 - r.2.length) := by
  have hstop := stop_eq hd
  rw [bodyEnd?, getElem?_eq_head? hd, Body.map_read (fun rest => d.length - 1 - rest.length)]
  simp only [List.cons_append, List.head?_cons, Option.bind_some]
  cases Encoding.ofTag? (Encoding.clearLength b) with
  | none => rfl
  | some e =>
    simp only
    cases hsize : e.payloadSize? (b :: s) with
    | none =>
      have hlt := Encoding.payloadSize?_eq_none_iff.mp hsize
      rw [if_pos (by omega)]
    | some n =>
      have hle : ¬ (b :: s).length < e.headerSize := fun hlt => by
        rw [Encoding.payloadSize?_eq_none_iff.mpr hlt] at hsize
        contradiction
      rw [if_neg (by omega), from?_eq hd (by simp), Option.bind_some, List.cons_append,
        Encoding.payloadSize?_append hsize [endMarker], Option.bind_some]
      dsimp only
      by_cases hfit : (b :: s).length < e.headerSize + n
      · rw [if_pos hfit, if_pos (by omega)]
      · rw [if_neg hfit, if_neg (by omega), List.length_drop]
        congr 2
        omega

/-- **An entry ends in place where the other reader stops**, and is refused by both for the
same defect. -/
theorem entryEnd?_eq (before : Nat) (hd : d.drop p = s ++ [endMarker]) (hs : s ≠ []) :
    entryEnd? d p before =
      some ((Entry.read before s).map fun r => d.length - 1 - r.2.length) := by
  obtain ⟨b, s, rfl⟩ := List.exists_cons_of_ne_nil hs
  have hstop := stop_eq hd
  rw [List.length_cons] at hstop
  rw [entryEnd?, linkEnd?, getElem?_eq_head? hd, Entry.read]
  simp only [List.cons_append, List.head?_cons, Option.bind_some, Option.some.injEq]
  by_cases hend : b = endMarker
  · rw [if_pos hend, if_pos (show b = 0xFF from hend)]
    rfl
  rw [if_neg hend, if_neg (show ¬ b = 0xFF from hend)]
  cases hread : Link.read? (b :: s) with
  | none =>
    have hlt := Link.length_lt_of_read?_eq_none hread
    rw [if_pos (by omega)]
    rfl
  | some r =>
    obtain ⟨link, rest⟩ := r
    obtain ⟨-, hrest⟩ := Link.drop_of_read? hread
    have hrestlen := congrArg List.length hrest
    rw [List.length_drop, List.length_cons] at hrestlen
    simp only
    cases rest with
    | nil =>
      rw [if_pos (by simp only [List.length_nil] at hrestlen; omega)]
      rfl
    | cons c rest =>
      have hlink : link? d p = some link := by
        have happend := Link.read?_append hread [endMarker]
        simp only [link?, from?_eq hd (by simp), Option.bind_eq_bind, Option.bind_some,
          List.cons_append, happend]
        rfl
      rw [List.length_cons] at hrestlen
      rw [if_neg (by omega), hlink, Option.bind_some]
      simp only [List.isEmpty_cons, Bool.false_eq_true, if_false]
      by_cases hlen : link.len ≠ before
      · rw [if_pos hlen, if_pos hlen]
        rfl
      · rw [if_neg hlen, if_neg hlen, Option.bind_some]
        -- behind the link both have the body before them, and its bytes begin the rest
        have hbody : d.drop (p + linkWidth b) = (c :: rest) ++ [endMarker] := by
          rw [drop_add hd, List.drop_append_of_le_length (by rw [List.length_cons]; omega), hrest]
        simp only [bodyEnd?_eq hbody, Option.some.injEq]
        cases Body.read (c :: rest) with
        | error defect => rfl
        | ok r => rfl

/-- The walk of the check goes from entry to entry as the other reader does. What it carries
along is told by the entries already read. -/
theorem checkFrom?_eq (before : Nat) (acc : Array Entry) (hd : d.drop p = s ++ [endMarker]) :
    checkFrom? d p before (p - Packed.lastSize acc) acc.size =
      some ((Packed.readEntries before acc s).map fun es =>
        (d.length - 1 - Packed.lastSize es, es.size)) := by
  fun_induction Packed.readEntries before acc s generalizing p with
  | case1 before acc s hempty =>
    rw [List.isEmpty_iff] at hempty
    have hstop := stop_eq hd
    rw [hempty, List.length_nil] at hstop
    rw [checkFrom?, if_neg (by omega), hstop]
    rfl
  | case2 before acc s hempty defect hread =>
    rw [List.isEmpty_iff] at hempty
    have hstop := stop_eq hd
    have hpos := List.length_pos_iff.mpr hempty
    have hend := entryEnd?_eq before hd hempty
    rw [hread] at hend
    rw [checkFrom?, if_pos (by omega)]
    split
    · next h => simp [hend, Except.map] at h
    · next h =>
      rw [hend] at h
      obtain rfl := Except.error.inj (Option.some.inj h)
      rfl
    · next h => simp [hend, Except.map] at h
  | case3 before acc s hempty e rest hread ih =>
    rw [List.isEmpty_iff] at hempty
    have hstop := stop_eq hd
    have hpos := List.length_pos_iff.mpr hempty
    have hend := entryEnd?_eq before hd hempty
    obtain ⟨hs, -, -⟩ := Entry.encode_of_read hread
    rw [hread] at hend
    have hlen : s.length = e.size + rest.length := by rw [hs, List.length_append, e.length_encode]
    rw [checkFrom?, if_pos (by omega)]
    split
    · next h => simp [hend] at h
    · next h => simp [hend, Except.map] at h
    · next next h =>
      rw [hend] at h
      have hnext : d.length - 1 - rest.length = next := Except.ok.inj (Option.some.inj h)
      obtain rfl : next = p + e.size := by omega
      have hrest : d.drop (p + e.size) = rest ++ [endMarker] := by
        rw [drop_add hd, hs, List.append_assoc, ← e.length_encode, List.drop_left]
      have hgo := ih hrest
      have hlast : Packed.lastSize (acc.push e) = e.size := by simp [Packed.lastSize]
      rw [hlast, Nat.add_sub_cancel, Array.size_push] at hgo
      rw [Nat.add_sub_cancel_left]
      exact hgo

/-! ### The whole blob -/

theorem field?_eq {width : Nat} (h : p + width ≤ d.length) :
    field? d p width = some (Bytes.ofLittleEndian ((d.drop p).take width)) := by
  rw [field?, slice?_eq h, Option.map_some]

/-- A blob that ends with the end marker has the bytes of its entries before it. -/
theorem drop_eq_dropLast_append {n : Nat} (h : n < d.length)
    (hlast : d.getLast? = some endMarker) :
    d.drop n = (d.drop n).dropLast ++ [endMarker] := by
  have hne : d.drop n ≠ [] := List.ne_nil_of_length_pos (by rw [List.length_drop]; omega)
  have hgetLast : (d.drop n).getLast hne = endMarker := by
    apply Option.some.inj
    rw [← List.getLast?_eq_some_getLast, List.getLast?_drop, if_neg (by omega), hlast]
  rw [← hgetLast, List.dropLast_concat_getLast hne]

/-- The length field of a packed list counts wrongly if it counts, and not what is there. -/
theorem length_ne_iff {q : Packed} {n : Nat} (hn : q.lengthField.toNat = n) :
    q.length ≠ q.entries.size ↔ n < 65535 ∧ n ≠ q.entries.size := by
  have hfull : Packed.saturated.toNat = 65535 := rfl
  rw [ne_eq, Packed.length_eq_iff, Packed.Counted, UInt16.lt_iff_toNat_lt, hfull, hn]
  exact Classical.not_imp

/-- The fields that are about the entries are checked against the packed list that has those
entries. -/
theorem checkFields?_eq {q : Packed} (hlen : 11 ≤ d.length) (hsize : q.size = d.length)
    (hfield : q.lengthField = UInt16.ofNat (Bytes.ofLittleEndian ((d.drop 8).take 2))) :
    checkFields? d (d.length - 1 - Packed.lastSize q.entries) q.entries.size =
      some (if Bytes.ofLittleEndian ((d.drop 4).take 4) ≠ q.tailPos then .error .wrongTail
        else if q.length ≠ q.entries.size then .error .wrongCount else .ok ()) := by
  have htail : d.length - 1 - Packed.lastSize q.entries = q.tailPos := by
    rw [Packed.tailPos, Packed.endPos, hsize]
  have hn : q.lengthField.toNat = Bytes.ofLittleEndian ((d.drop 8).take 2) := by
    have hcap := Bytes.ofLittleEndian_lt ((d.drop 8).take 2)
    rw [List.length_take, List.length_drop, Nat.min_eq_left (by omega)] at hcap
    rw [hfield, UInt16.toNat_ofNat']
    exact Nat.mod_eq_of_lt hcap
  rw [checkFields?, field?_eq (by omega), Option.bind_some, htail]
  by_cases hwrong : Bytes.ofLittleEndian ((d.drop 4).take 4) ≠ q.tailPos
  · rw [if_pos hwrong, if_pos hwrong]
  rw [if_neg hwrong, if_neg hwrong, field?_eq (by omega), Option.bind_some]
  by_cases hcount : q.length ≠ q.entries.size
  · rw [if_pos hcount, if_pos ((length_ne_iff hn).mp hcount)]
  · rw [if_neg hcount, if_neg (mt (length_ne_iff hn).mpr hcount)]

/-- **The check in place says what reading says, and never leaves the blob.** -/
theorem check?_eq (d : Bytes) : check? d = some ((Packed.ofBytes d).map fun _ => ()) := by
  unfold check? Packed.ofBytes
  by_cases hshort : d.length < Packed.envelopeSize
  · rw [if_pos hshort, if_pos (show d.length < 11 from hshort)]
    rfl
  have hlen : 11 ≤ d.length := Nat.le_of_not_lt hshort
  rw [if_neg hshort, if_neg (show ¬ d.length < 11 from hshort), field?_eq (by omega),
    Option.bind_some, List.drop_zero]
  by_cases htotal : Bytes.ofLittleEndian (d.take 4) ≠ d.length
  · rw [if_pos htotal, if_pos htotal]
    rfl
  rw [if_neg htotal, if_neg htotal]
  have hlast : d[d.length - 1]? = d.getLast? := List.getLast?_eq_getElem?.symm
  obtain ⟨b, hb⟩ : ∃ b, d.getLast? = some b := by
    rw [List.getLast?_eq_some_getLast (List.ne_nil_of_length_pos (by omega))]
    exact ⟨_, rfl⟩
  rw [hlast, hb, Option.bind_some]
  by_cases hmark : b ≠ endMarker
  · rw [if_pos hmark, if_pos (by simpa using hmark)]
    rfl
  rw [if_neg hmark, if_neg (by simpa using hmark)]
  obtain rfl : b = endMarker := by simpa using hmark
  have hcut := drop_eq_dropLast_append (n := Packed.headerSize)
    (Nat.lt_of_lt_of_le (by decide) hlen) hb
  have hwalk : checkFrom? d 10 0 10 0 = some _ :=
    checkFrom?_eq 0 #[] hcut
  rw [hwalk, Option.bind_some]
  cases hread : Packed.readEntries 0 #[] (d.drop Packed.headerSize).dropLast with
  | error defect => rfl
  | ok es =>
    obtain ⟨es, rfl, hes, -⟩ := Packed.flatMap_encode_of_readEntries hread
    have hsize : Packed.envelopeSize + Packed.totalSize (#[] ++ es.toArray).toList = d.length := by
      have hbytes := congrArg List.length hes
      rw [Packed.length_flatMap_encode, List.length_dropLast, List.length_drop] at hbytes
      rw [Array.empty_append, List.toList_toArray, ← hbytes]
      simp only [Packed.envelopeSize, Packed.headerSize]
      omega
    have hfields := checkFields?_eq hlen
      (q := ⟨#[] ++ es.toArray, UInt16.ofNat (Bytes.ofLittleEndian ((d.drop 8).take 2)), _, rfl⟩)
      hsize rfl
    refine hfields.trans (congrArg some ?_)
    dsimp only
    split
    · rfl
    · split <;> rfl

end InPlace

end UnrolledList
