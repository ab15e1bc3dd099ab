import UnrolledList.Proofs.Packed.Inside
import UnrolledList.Proofs.Packed.Relinking

/-!
# Insertion, deletion and joining, entry by entry

`UnrolledList.Proofs.Packed.Contents` says which strings a packed list holds after a change.
This file says what becomes of its **bytes**. What stands in front of the cut is not
touched. What stands behind it keeps its encodings and payloads, and of its links only
those are wider that had to be (`UnrolledList.Entry.Relinked`). So the size of the blob is
known exactly: what was put in, what was taken out, and four bytes for each field that had
to widen.

* `UnrolledList.Packed.insertIdx_inserts`: the new entry begins where the place was, and the
  blob grows by its length and by the widened fields;
* `UnrolledList.Packed.eraseRange_erases`: exactly those entries go that there are, and a
  list with other entries behind the gap may even become **longer** than it was, because a
  long entry can come to stand before short ones;
* `UnrolledList.Packed.append_joins`: a join is a concatenation, and an associative one as
  far as contents go.

## What a removal does not need

The bound on the size is needed for the header and for nothing else. A removal is given a
list whose header is right, and its entries are right afterwards whatever has become of the
size, because no entry of such a list is too long for a link even after it has widened
(`UnrolledList.Packed.WellFormed.size_add_four_lt`). Only that the blob is accepted again
rests on its size.
-/

namespace UnrolledList

namespace Packed

/-! ### The bytes in front of a place -/

variable {p q : Packed}

/-- Between the header and a place stand the entries before it. -/
theorem front_toBytes (p : Packed) (k : Nat) :
    (p.toBytes.take (p.posOfIdx k)).drop headerSize =
      (p.entries.toList.take k).flatMap Entry.encode := by
  have hall := InPlace.drop_posOfIdx p 0
  have hcut : p.entries.toList.flatMap Entry.encode =
      (p.entries.toList.take k).flatMap Entry.encode ++
        (p.entries.toList.drop k).flatMap Entry.encode := by
    rw [← List.flatMap_append, List.take_append_drop]
  rw [posOfIdx_zero, List.drop_zero, hcut, List.append_assoc] at hall
  rw [List.drop_take, hall, posOfIdx_eq, Nat.add_sub_cancel_left, ← length_flatMap_encode,
    List.take_left]

/-- At the place of an entry stand its bytes. -/
theorem encode_isPrefix {k : Nat} {e : Entry} (h : p.entries[k]? = some e) :
    e.encode <+: p.toBytes.drop (p.posOfIdx k) := by
  obtain ⟨hk, rfl⟩ := Array.getElem?_eq_some_iff.mp h
  rw [InPlace.drop_posOfIdx_of_lt hk]
  exact List.prefix_append _ _

/-- Two packed lists agree in front of place number `k`: it is the same place in both, and
the same bytes stand between it and the header. -/
structure SameFront (p q : Packed) (k : Nat) : Prop where
  /-- The place. -/
  posOfIdx_eq : q.posOfIdx k = p.posOfIdx k
  /-- The bytes. -/
  bytes_eq : (q.toBytes.take (p.posOfIdx k)).drop headerSize =
    (p.toBytes.take (p.posOfIdx k)).drop headerSize

theorem SameFront.of_take {k : Nat} (h : q.entries.toList.take k = p.entries.toList.take k) :
    SameFront p q k := by
  have hpos : q.posOfIdx k = p.posOfIdx k := by
    rw [Packed.posOfIdx_eq, Packed.posOfIdx_eq, h]
  refine ⟨hpos, ?_⟩
  rw [front_toBytes, ← hpos, front_toBytes, h]

/-! ### Insertion -/

/-- `q` is `p` with the string `s` put in at place number `k`. -/
structure Inserts (p : Packed) (k : Nat) (s : Bytes) (q : Packed) : Prop where
  /-- The blob passes all checks. -/
  accepted : ofBytes q.toBytes = .ok q
  /-- There is one entry more. -/
  length_eq : q.length = p.length + 1
  /-- The values are the old ones in order, with the stored form of `s` between them. -/
  values_eq : q.values = p.values.take k ++ (Body.ofBytes s).value :: p.values.drop k
  /-- The other entries keep their encodings and payloads. -/
  kept : List.Forall₂ Entry.Relinked p.entries.toList (q.entries.toList.eraseIdx k)
  /-- The new entry has its number, and records the length of the entry before it. -/
  entry_eq : q.entries[k]? = some (p.entryAt k s)
  /-- Its bytes begin at the place. -/
  starts : (p.entryAt k s).encode <+: q.toBytes.drop (p.posOfIdx k)
  /-- Nothing is changed between the header and the place. -/
  front : SameFront p q k
  /-- The blob grows by the new entry, and by four bytes for each field that widens. -/
  length_toBytes : q.toBytes.length = p.toBytes.length + (p.entryAt k s).size +
    4 * widened p.entries.toList (q.entries.toList.eraseIdx k)

/-- **Insertion.** The stored form of the string comes to stand at the place, nothing in
front of it is touched, and the blob grows by just what it has to. -/
theorem insertIdx_inserts (hp : p.WellFormed) {k : Nat} (hk : k ≤ p.entries.size) (s : Bytes)
    (hsize : (p.insertIdx k s).size < sizeLimit) : p.Inserts k s (p.insertIdx k s) := by
  have hwell := hp.insertIdx hsize
  have hentries := toList_insertIdx_of_linked hp.linked hk s
  have hkept := relinked_insertIdx hp hk hsize
  have hlen : (p.entries.toList.take k).length = k := by simp [Nat.min_eq_left hk]
  have hentry : (p.insertIdx k s).entries[k]? = some (p.entryAt k s) := by
    rw [← Array.getElem?_toList, hentries, List.getElem?_append_right (Nat.le_of_eq hlen), hlen,
      Nat.sub_self, List.getElem?_cons_zero]
  have hfront : SameFront p (p.insertIdx k s) k := .of_take (by
    rw [hentries, List.take_left' hlen])
  constructor
  case accepted => exact ofBytes_toBytes hwell
  case length_eq =>
    rw [length_eq_iff.mpr hwell.counted, length_eq_iff.mpr hp.counted, size_insertIdx]
  case values_eq => simp [values_eq, bodies_insertIdx p hk]
  case kept => exact hkept
  case entry_eq => exact hentry
  case starts =>
    rw [← hfront.posOfIdx_eq]
    exact encode_isPrefix hentry
  case front => exact hfront
  case length_toBytes =>
    have htotal := totalSize_insertIdx_of_linked hp.linked hk s
    have hold := p.size_eq
    have hnew := (p.insertIdx k s).size_eq
    rw [totalSize_of_relinked hkept] at htotal
    rw [length_toBytes, length_toBytes]
    omega

/-- A list of three strings of 250 bytes. Every entry takes 253 bytes, the most that a narrow
field can tell. -/
def brimful : Packed :=
  ((empty.push (List.replicate 250 97)).push (List.replicate 250 98)).push (List.replicate 250 99)

theorem wellFormed_brimful : brimful.WellFormed :=
  ((wellFormed_empty.push (by decide +kernel)).push (by decide +kernel)).push (by decide +kernel)

/-! ### Removal -/

/-- `q` is `p` without the `gone` entries from place number `k` on. -/
structure Erases (p : Packed) (k gone : Nat) (q : Packed) : Prop where
  /-- The length tells how many entries have gone. -/
  length_eq : q.length + gone = p.length
  /-- The other values are kept in order. -/
  values_eq : q.values = p.values.take k ++ p.values.drop (k + gone)
  /-- The other entries keep their encodings and payloads. -/
  kept : List.Forall₂ Entry.Relinked (p.entries.toList.take k ++ p.entries.toList.drop (k + gone))
    q.entries.toList
  /-- The entry behind the gap, if there is one, now begins at the place. -/
  starts : ∀ e, p.entries[k + gone]? = some e →
    ∃ f, q.entries[k]? = some f ∧ e.Relinked f ∧ f.encode <+: q.toBytes.drop (p.posOfIdx k)
  /-- Nothing is changed between the header and the place. -/
  front : SameFront p q k
  /-- The blob loses the entries removed, and **grows** by four bytes for each field that
  widens. -/
  length_toBytes : q.toBytes.length + totalSize (p.entries.toList.extract k (k + gone)) =
    p.toBytes.length +
      4 * widened (p.entries.toList.take k ++ p.entries.toList.drop (k + gone)) q.entries.toList
  /-- The blob passes all checks, if the header can tell its size. -/
  accepted : q.size < sizeLimit → ofBytes q.toBytes = .ok q

theorem eraseIdx_erases (h : p.WellFormed) {k : Nat} (hk : k < p.entries.size) (num : Nat) :
    p.Erases k (p.available k num) (p.eraseIdx k num) := by
  have hcounted := counted_eraseIdx h.counted k num
  -- what is asked for beyond the end does not count
  have hgone : p.entries.toList.drop (k + p.available k num) =
      p.entries.toList.drop (k + num) := by
    simpa [available] using drop_add_min p.entries.toList k num
  have hkept := relinked_eraseIdx h k num
  rw [← hgone] at hkept
  have hlen : (p.entries.toList.take k).length = k := by simp [Nat.min_eq_left (Nat.le_of_lt hk)]
  have hfront : SameFront p (p.eraseIdx k num) k := .of_take (by
    rw [toList_eraseIdx_of_linked h.linked, List.take_left' hlen])
  constructor
  case length_eq =>
    have hle : p.available k num ≤ p.entries.size := by
      rw [available]
      omega
    rw [length_eq_iff.mpr hcounted, length_eq_iff.mpr h.counted, size_entries_eraseIdx]
    omega
  case values_eq => rw [values_eraseIdx, values, ← List.map_drop, ← hgone, List.map_drop]
  case kept => exact hkept
  case starts =>
    intro e he
    have hbehind : (p.entries.toList.take k ++
        p.entries.toList.drop (k + p.available k num))[k]? = some e := by
      rw [List.getElem?_append_right (Nat.le_of_eq hlen), hlen, Nat.sub_self, List.getElem?_drop,
        Nat.add_zero, Array.getElem?_toList, he]
    obtain ⟨f, hf, hrelinked⟩ := exists_relinked hkept hbehind
    rw [Array.getElem?_toList] at hf
    rw [← hfront.posOfIdx_eq]
    exact ⟨f, hf, hrelinked, encode_isPrefix hf⟩
  case front => exact hfront
  case length_toBytes =>
    have hcut := totalSize_take_add_drop p.entries.toList k
    have hspan := totalSize_take_add_drop (p.entries.toList.drop k) (p.available k num)
    have hold := p.size_eq
    rw [List.drop_drop] at hspan
    rw [length_toBytes, length_toBytes, size_of_relinked hkept, totalSize_append,
      List.extract_eq_take_drop, Nat.add_sub_cancel_left]
    omega
  case accepted => exact fun hsize => ofBytes_toBytes (h.eraseIdx hsize)

/-- A removal at a place gives the place back exactly if an entry followed. -/
theorem erase_cursor (p : Packed) {k : Nat} (hk : k < p.entries.size) :
    p.erase (p.cursor k) =
      (p.eraseIdx k 1, if k + 1 < p.entries.size then some (p.cursor k) else none) := by
  have hsize : (p.eraseIdx k 1).entries.size = p.entries.size - 1 := by
    rw [size_entries_eraseIdx, available]
    omega
  rw [erase, idx_cursor, entry?, idx_cursor]
  split
  · next hlt => simp [Array.getElem?_eq_getElem (show k < (p.eraseIdx k 1).entries.size by omega)]
  · next hge => simp [Array.getElem?_eq_none (show (p.eraseIdx k 1).entries.size ≤ k by omega)]

/-- **Removal**, by index and at a place. An index that names no entry changes nothing;
otherwise those of the `num` entries go that there are, and their number is told. -/
theorem eraseRange_erases (h : p.WellFormed) (i : Int) (num : Nat) :
    (match idxOf? p.entries.size i with
      | none => p.eraseRange i num = (p, 0)
      | some k => (p.eraseRange i num).2 = min num (p.entries.size - k) ∧
          p.Erases k (min num (p.entries.size - k)) (p.eraseRange i num).1) ∧
      ∀ k < p.entries.size, p.Erases k 1 (p.erase (p.cursor k)).1 ∧
        (p.erase (p.cursor k)).2 = if k + 1 < p.entries.size then some (p.cursor k) else none := by
  constructor
  · cases hi : idxOf? p.entries.size i with
    | none => exact eraseRange_of_idxOf?_eq_none h.linked hi num
    | some k =>
      rw [eraseRange_of_idxOf? h.linked hi]
      exact ⟨rfl, eraseIdx_erases h (lt_of_idxOf? hi) num⟩
  · intro k hk
    have hone : p.available k 1 = 1 := by
      rw [available]
      omega
    have herases := eraseIdx_erases h hk 1
    rw [hone] at herases
    rw [erase_cursor p hk]
    exact ⟨herases, rfl⟩

/-- A short string between a long one and the brimful list. -/
def dammed : Packed :=
  (brimful.pushFront [120]).pushFront (List.replicate 252 100)

theorem wellFormed_dammed : dammed.WellFormed :=
  (wellFormed_brimful.pushFront (by decide +kernel)).pushFront (by decide +kernel)

/-! ### Joining -/

/-- `r` is `p` followed by `q`. -/
structure Joins (p q r : Packed) : Prop where
  /-- The number of entries is right, whatever the length fields of the two say. -/
  length_eq : r.length = p.length + q.length
  /-- The values of the one come before those of the other. -/
  values_eq : r.values = p.values ++ q.values
  /-- All entries keep their encodings and payloads. -/
  kept : List.Forall₂ Entry.Relinked (p.entries.toList ++ q.entries.toList) r.entries.toList
  /-- The bytes of the first list are kept up to its end marker. -/
  front : SameFront p r p.entries.size
  /-- One envelope is saved, and four bytes are added for each field that widens. -/
  length_toBytes : r.toBytes.length + envelopeSize = p.toBytes.length + q.toBytes.length +
    4 * widened (p.entries.toList ++ q.entries.toList) r.entries.toList
  /-- The blob passes all checks, if the header can tell its size. -/
  accepted : r.size < sizeLimit → ofBytes r.toBytes = .ok r
  /-- An empty list gives way to the list behind it. -/
  of_isEmpty_left : p.isEmpty = true → r = q
  /-- An empty list adds nothing to a list that is not empty. -/
  of_isEmpty_right : p.isEmpty = false → q.isEmpty = true → r = p

/-- **A join is a concatenation**, and an associative one up to links. Of two empty lists the
second is kept. -/
theorem append_joins (hp : p.WellFormed) (hq : q.WellFormed) :
    p.Joins q (p ++ q) ∧ ∀ r : Packed, (p ++ q ++ r).bodies = (p ++ (q ++ r)).bodies := by
  have hcounted := counted_append hp.counted hq.counted
  have hkept := relinked_append hp hq
  constructor
  · constructor
    case length_eq =>
      have hlen := congrArg List.length (bodies_append p q)
      rw [List.length_append, length_bodies, length_bodies, length_bodies] at hlen
      rw [length_eq_iff.mpr hcounted, length_eq_iff.mpr hp.counted, length_eq_iff.mpr hq.counted,
        hlen]
    case values_eq => simp [values_eq, bodies_append]
    case kept => exact hkept
    case front =>
      apply SameFront.of_take
      rw [toList_append_of_linked hq.linked, ← Array.length_toList, List.take_left,
        List.take_length]
    case length_toBytes =>
      have hold := p.size_eq
      have hold' := q.size_eq
      rw [length_toBytes, length_toBytes, length_toBytes, size_of_relinked hkept, totalSize_append]
      omega
    case accepted => exact fun hsize => ofBytes_toBytes (hp.append hq hsize)
    case of_isEmpty_left => exact append_of_isEmpty_left
    case of_isEmpty_right => exact append_of_isEmpty_right
  · intro r
    rw [bodies_append, bodies_append, bodies_append, bodies_append, List.append_assoc]

/-- An empty list under a length field that does not count. -/
def emptyUncounted : Packed where
  entries := #[]
  lengthField := saturated
  size := envelopeSize
  size_eq := rfl

/-- Joined with a new list it is not given back as it was: **of two empty lists the second is
kept**. -/
theorem append_emptyUncounted :
    let blob : Bytes := [11, 0, 0, 0, 10, 0, 0, 0, 255, 255, 255]
    ofBytes blob = .ok emptyUncounted ∧ empty.isEmpty = true ∧
      (emptyUncounted ++ empty).toBytes ≠ blob := by
  have hblob : emptyUncounted.toBytes = [11, 0, 0, 0, 10, 0, 0, 0, 255, 255, 255] := by decide
  refine ⟨?_, rfl, by decide⟩
  exact ofBytes_eq_ok_iff.mpr ⟨hblob, trivial, by unfold Counted; decide, by decide⟩

end Packed

end UnrolledList
