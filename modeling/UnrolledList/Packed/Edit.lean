import UnrolledList.Packed.Repair

/-!
# Changing a packed list

Entries are added, removed and joined in place: the array of entries is changed where the
edit happens, the links behind the cut are repaired, and the size is brought up to date by
what was added, what was removed and how far the repair made the entries grow.

## What is taken over

A new entry takes over the link of the entry it displaces, and the entry behind a gap
takes over the link of the first one removed. Both name the same predecessor as before, so
only the entry *behind* the edit has to be repaired.
-/

namespace UnrolledList

namespace Packed

/-! ### Adding entries -/

/-- Adds the string `s` at the tail. -/
def push (p : Packed) (s : Bytes) : Packed :=
  match p with
  | ⟨entries, lengthField, size, size_eq⟩ =>
    let e := Entry.ofBytes (lastSize entries) s
    { entries := entries.push e
      lengthField := countUp lengthField
      size := size + e.size
      size_eq := by simp [size_eq, Nat.add_assoc] }

@[simp] theorem toList_entries_push (p : Packed) (s : Bytes) :
    (p.push s).entries.toList =
      p.entries.toList ++ [Entry.ofBytes (lastSize p.entries) s] := by
  simp [push]

/-- An insertion divides a list at its place. -/
theorem insertIdx_eq_take_drop {α : Type} (es : List α) {k : Nat} (h : k ≤ es.length) (e : α) :
    es.insertIdx k e = es.take k ++ e :: es.drop k := by
  induction es generalizing k with
  | nil =>
    obtain rfl : k = 0 := by simpa using h
    simp
  | cons e' es ih =>
    cases k with
    | zero => simp
    | succ k =>
      rw [List.insertIdx_succ_cons, ih (by simpa using h)]
      simp

theorem totalSize_insertIdx (es : List Entry) {k : Nat} (h : k ≤ es.length) (e : Entry) :
    totalSize (es.insertIdx k e) = totalSize es + e.size := by
  have hcut := totalSize_take_add_drop es k
  rw [insertIdx_eq_take_drop es h, totalSize_append, totalSize_cons]
  omega

/-- Adds the string `s` before entry number `k`, or at the tail if there is none. The
new entry takes over the link of the one it displaces. -/
def insertIdx (p : Packed) (k : Nat) (s : Bytes) : Packed :=
  match p with
  | ⟨entries, lengthField, size, size_eq⟩ =>
    if h : k < entries.size then
      let e := Entry.ofBytes entries[k].link.len s
      let added := entries.insertIdx k e (Nat.le_of_lt h)
      let repaired := repairFrom added (k + 1) e.size 0
      { entries := repaired.1
        lengthField := countUp lengthField
        size := size + e.size + repaired.2
        size_eq := by
          have hrepaired : totalSize repaired.1.toList + 0 = totalSize added.toList + repaired.2 :=
            totalSize_repairFrom added (k + 1) e.size 0
          have hadded : totalSize added.toList = totalSize entries.toList + e.size := by
            rw [Array.toList_insertIdx, totalSize_insertIdx _ (by simpa using Nat.le_of_lt h)]
          omega }
    else push ⟨entries, lengthField, size, size_eq⟩ s

/-- What stands before the place of an insertion is kept, and what stands behind it is
repaired. -/
theorem toList_entries_insertIdx (p : Packed) {k : Nat} (h : k < p.entries.size) (s : Bytes) :
    let e := Entry.ofBytes p.entries[k].link.len s
    (p.insertIdx k s).entries.toList =
      p.entries.toList.take k ++ e :: repair e.size (p.entries.toList.drop k) := by
  obtain ⟨entries, lengthField, size, size_eq⟩ := p
  simp only at h
  have hk : k ≤ entries.toList.length := by simpa using Nat.le_of_lt h
  have hlen : (entries.toList.take k).length = k := by simp [Nat.min_eq_left (Nat.le_of_lt h)]
  simp only [insertIdx, h, dite_true]
  rw [toList_repairFrom, Array.toList_insertIdx, insertIdx_eq_take_drop _ hk,
    List.take_append, List.drop_append, hlen, List.take_take, List.drop_take]
  simp [Nat.sub_eq_zero_of_le (Nat.le_succ k)]

/-- Adds the string `s` at the head. -/
def pushFront (p : Packed) (s : Bytes) : Packed :=
  p.insertIdx 0 s

/-! ### Removing entries -/

/-- The entries without the `n` from number `k` on. -/
def cutOut (es : Array Entry) (k n : Nat) : Array Entry :=
  if n = 1 then es.eraseIdxIfInBounds k
  else es.extract 0 k ++ es.extract (k + n) es.size

theorem toList_cutOut (es : Array Entry) (k n : Nat) :
    (cutOut es k n).toList = es.toList.take k ++ es.toList.drop (k + n) := by
  rw [cutOut]
  split
  · next hn =>
    subst hn
    rw [Array.eraseIdxIfInBounds]
    split
    · rw [Array.toList_eraseIdx, List.eraseIdx_eq_take_drop_succ]
    · next hk =>
      rw [List.take_of_length_le (by simpa using hk),
        List.drop_of_length_le (by simp only [Array.length_toList]; omega), List.append_nil]
  · have hall : es.size - (k + n) = (es.toList.drop (k + n)).length := by simp
    rw [Array.toList_append, Array.toList_extract, Array.toList_extract, List.extract_eq_take_drop,
      List.extract_eq_take_drop, List.drop_zero, Nat.sub_zero, hall, List.take_length]

theorem totalSize_cutOut (es : Array Entry) (k n : Nat) :
    totalSize (cutOut es k n).toList + spanSize es k (k + n) = totalSize es.toList := by
  have hfront := totalSize_take_add_drop es.toList k
  have hback := totalSize_take_add_drop (es.toList.drop k) n
  rw [List.drop_drop] at hback
  rw [toList_cutOut, spanSize_eq, totalSize_append, List.extract_eq_take_drop,
    Nat.add_sub_cancel_left]
  omega

/-- A cut beyond the end is a cut at the end. -/
theorem drop_min_length {α : Type} (es : List α) (m : Nat) :
    es.drop (min m es.length) = es.drop m := by
  rcases Nat.le_total m es.length with hle | hle
  · rw [Nat.min_eq_left hle]
  · rw [Nat.min_eq_right hle, List.drop_length, List.drop_of_length_le hle]

/-- To leave out as many as there are is to leave out as many as were asked for. -/
theorem drop_add_min {α : Type} (es : List α) (k n : Nat) :
    es.drop (k + min n (es.length - k)) = es.drop (k + n) := by
  have hmin : min (k + min n (es.length - k)) es.length = min (k + n) es.length := by omega
  rw [← drop_min_length, hmin, drop_min_length]

/-- How many of the `num` entries from number `k` on there are. -/
def available (p : Packed) (k num : Nat) : Nat :=
  min num (p.entries.size - k)

/-- Removes the `num` entries from number `k` on, or as many as there are. The entry
behind the gap takes over the link of the first one removed. -/
def eraseIdx (p : Packed) (k num : Nat) : Packed :=
  match p with
  | ⟨entries, lengthField, size, size_eq⟩ =>
    let gone := min num (entries.size - k)
    if h : 0 < gone then
      have hk : k < entries.size := by omega
      let before := entries[k].link.len
      let lost := spanSize entries k (k + gone)
      let rest := cutOut entries k gone
      let repaired := repairFrom rest k before 0
      { entries := repaired.1
        lengthField := countDown lengthField gone
        size := size - lost + repaired.2
        size_eq := by
          have hrepaired : totalSize repaired.1.toList + 0 = totalSize rest.toList + repaired.2 :=
            totalSize_repairFrom rest k before 0
          have hrest : totalSize rest.toList + lost = totalSize entries.toList :=
            totalSize_cutOut entries k gone
          omega }
    else ⟨entries, lengthField, size, size_eq⟩

/-- What stands before a gap is kept, and what stands behind it is repaired. -/
theorem toList_entries_eraseIdx (p : Packed) {k num : Nat} (h : k < p.entries.size)
    (hnum : 0 < num) :
    (p.eraseIdx k num).entries.toList =
      p.entries.toList.take k ++
        repair p.entries[k].link.len (p.entries.toList.drop (k + num)) := by
  obtain ⟨entries, lengthField, size, size_eq⟩ := p
  simp only at h
  have hgone : 0 < min num (entries.size - k) := by omega
  have hlen : (entries.toList.take k).length = k := by simp [Nat.min_eq_left (Nat.le_of_lt h)]
  have hdrop : entries.toList.drop (k + min num (entries.size - k)) =
      entries.toList.drop (k + num) := by
    simpa using drop_add_min entries.toList k num
  simp only [eraseIdx, hgone, dite_true]
  rw [toList_repairFrom, toList_cutOut, List.take_append, List.drop_append, hlen, hdrop,
    List.take_take]
  simp

/-! ### Joining -/

/-- The entries of `p` followed by those of `q`. The length field starts afresh from
the true number of entries. -/
def append (p q : Packed) : Packed :=
  if p.isEmpty then q
  else if q.isEmpty then p
  else
    let length := p.length + q.length
    match p with
    | ⟨entries, _, size, size_eq⟩ =>
      match q with
      | ⟨entries', _, size', size_eq'⟩ =>
        let start := entries.size
        let before := lastSize entries
        let joined := entries ++ entries'
        let repaired := repairFrom joined start before 0
        { entries := repaired.1
          lengthField := UInt16.ofNat (min length 65535)
          size := size + size' - envelopeSize + repaired.2
          size_eq := by
            have hrepaired :
                totalSize repaired.1.toList + 0 = totalSize joined.toList + repaired.2 :=
              totalSize_repairFrom joined start before 0
            have hjoined : totalSize joined.toList =
                totalSize entries.toList + totalSize entries'.toList := by
              rw [Array.toList_append, totalSize_append]
            omega }

instance : Append Packed := ⟨append⟩

/-- Joining two lists repairs the second one behind the last entry of the first. -/
theorem toList_entries_append (p q : Packed) (hp : p.isEmpty = false) (hq : q.isEmpty = false) :
    (p ++ q).entries.toList =
      p.entries.toList ++ repair (lastSize p.entries) q.entries.toList := by
  change (append p q).entries.toList = _
  rw [append, if_neg (by simp [hp]), if_neg (by simp [hq])]
  simp [toList_repairFrom]

end Packed

end UnrolledList
