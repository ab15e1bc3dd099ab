import UnrolledList.Packed.Cursor
import UnrolledList.Proofs.Packed.Links

/-!
# Where the entries stand

A `UnrolledList.Cursor` says the same thing twice, by a number and by a position, and the
operations that make one find its two halves in different ways. This file shows that the
halves never part. There is **one right cursor for each number**
(`UnrolledList.Packed.cursor`), and on a list that is linked

* an index finds the right cursor of the entry that it names, from either end
  (`UnrolledList.Packed.seek?_eq`);
* a step forward, which adds a size, and a step backward, which subtracts a link, lead
  from a right cursor to the right cursor beside it (`UnrolledList.Packed.next?_cursor`,
  `UnrolledList.Packed.prev?_cursor`);
* the end marker stands at the right cursor behind the last entry
  (`UnrolledList.Packed.endCursor_eq`).

So a walk from either end meets every entry once, and where it stands is known from how
far it has come.

## Counting from the tail

From the tail a search goes by links, and stops early only at a link of zero. On a list
that is linked, that is the first entry and no other, because an entry is at least two
bytes long and the link behind it says so (`UnrolledList.Packed.walkBack?_cursor`).
-/

namespace UnrolledList

namespace Packed

/-! ### Indexes -/

/-- The number of the element with an index in a sequence of `n`. A negative index counts
from the end, where `-1` is the last element. -/
def idxOf? (n : Nat) (i : Int) : Option Nat :=
  if i < 0 then if (-i).toNat ≤ n then some (n - (-i).toNat) else none
  else if i.toNat < n then some i.toNat else none

/-- The element is there, and the index is its number or is short of it by `n`. -/
theorem idxOf?_eq_some {n k : Nat} {i : Int} (h : idxOf? n i = some k) :
    k < n ∧ (i = k ∨ i = k - n) := by
  rw [idxOf?] at h
  split at h
  · next hneg =>
    obtain ⟨hle, hk⟩ := Option.ite_none_right_eq_some.mp h
    obtain rfl := Option.some.inj hk
    exact ⟨by omega, .inr (by omega)⟩
  · next hnonneg =>
    obtain ⟨hlt, hk⟩ := Option.ite_none_right_eq_some.mp h
    obtain rfl := Option.some.inj hk
    exact ⟨hlt, .inl (by omega)⟩

theorem lt_of_idxOf? {n k : Nat} {i : Int} (h : idxOf? n i = some k) : k < n :=
  (idxOf?_eq_some h).1

theorem idxOf?_natCast {n k : Nat} (h : k < n) : idxOf? n k = some k := by
  rw [idxOf?, if_neg (by omega), Int.toNat_natCast, if_pos h]

/-- An index that counts from the end is short by the number of elements. -/
theorem idxOf?_sub {n k : Nat} (h : k < n) : idxOf? n ((k : Int) - n) = some k := by
  rw [idxOf?, if_pos (by omega), if_pos (by omega)]
  exact congrArg some (by omega)

/-- The entry that `k` others follow. -/
theorem idxOf?_neg_sub_one {n k : Nat} (h : k < n) : idxOf? n (-k - 1) = some (n - (k + 1)) := by
  rw [show -(k : Int) - 1 = (n - (k + 1) : Nat) - n by omega, idxOf?_sub (by omega)]

theorem idxOf?_eq_none {n : Nat} {i : Int} (h : i < -n ∨ (n : Int) ≤ i) : idxOf? n i = none := by
  unfold idxOf?
  split
  · rw [if_neg (by omega)]
  · rw [if_neg (by omega)]

/-! ### Positions -/

variable {p : Packed} {k : Nat}

theorem posOfIdx_eq (p : Packed) (k : Nat) :
    p.posOfIdx k = headerSize + totalSize (p.entries.toList.take k) := by
  rw [posOfIdx, spanSize_eq, List.extract_eq_take_drop, List.drop_zero, Nat.sub_zero]

@[simp] theorem posOfIdx_zero (p : Packed) : p.posOfIdx 0 = headerSize := by
  simp [posOfIdx_eq]

/-- The next entry begins where an entry ends. -/
theorem posOfIdx_succ (hk : k < p.entries.size) :
    p.posOfIdx (k + 1) = p.posOfIdx k + p.entries[k].size := by
  rw [posOfIdx_eq, posOfIdx_eq, List.take_succ_eq_append_getElem (by simpa using hk),
    totalSize_append, totalSize_cons, totalSize_nil, Array.getElem_toList]
  omega

/-- An entry begins behind every entry before it. -/
theorem posOfIdx_lt {j : Nat} (hjk : j < k) (hk : k ≤ p.entries.size) :
    p.posOfIdx j < p.posOfIdx k := by
  induction k with
  | zero => contradiction
  | succ k ih =>
    have hpos := p.entries[k].size_pos
    rw [posOfIdx_succ hk]
    rcases Nat.lt_or_eq_of_le (Nat.le_of_lt_succ hjk) with hlt | rfl
    · have hbefore := ih hlt (Nat.le_of_succ_le hk)
      omega
    · omega

/-- A position is that of one entry only. -/
theorem posOfIdx_inj {j : Nat} (hj : j ≤ p.entries.size) (hk : k ≤ p.entries.size) :
    p.posOfIdx j = p.posOfIdx k ↔ j = k := by
  constructor
  · intro h
    rcases Nat.lt_trichotomy j k with hlt | heq | hgt
    · exact absurd h (Nat.ne_of_lt (posOfIdx_lt hlt hk))
    · exact heq
    · exact absurd h.symm (Nat.ne_of_lt (posOfIdx_lt hgt hj))
  · exact congrArg p.posOfIdx

/-- Behind the last entry stands the end marker. -/
theorem posOfIdx_size (p : Packed) : p.posOfIdx p.entries.size = p.endPos := by
  have hsize := p.size_eq
  rw [posOfIdx_eq, ← Array.length_toList, List.take_length, endPos, hsize]
  simp only [headerSize, envelopeSize]
  omega

/-- The last entry ends where the end marker stands. -/
theorem posOfIdx_tail (h : 0 < p.entries.size) : p.posOfIdx (p.entries.size - 1) = p.tailPos := by
  have hlt : p.entries.size - 1 < p.entries.size := by omega
  have hlast : lastSize p.entries = p.entries[p.entries.size - 1].size := by
    rw [lastSize, Array.back?_eq_getElem?, Array.getElem?_eq_getElem hlt]
  have hstep := posOfIdx_succ hlt
  rw [Nat.sub_add_cancel h, posOfIdx_size] at hstep
  rw [tailPos, hlast]
  omega

/-! ### Cursors -/

/-- **The right cursor** for the entry with a number, or for the end marker if the number
is that of the entries. -/
def cursor (p : Packed) (k : Nat) : Cursor where
  idx := k
  pos := p.posOfIdx k

@[simp] theorem idx_cursor (p : Packed) (k : Nat) : (p.cursor k).idx = k := rfl

@[simp] theorem pos_cursor (p : Packed) (k : Nat) : (p.cursor k).pos = p.posOfIdx k := rfl

theorem endCursor_eq (p : Packed) : p.endCursor = p.cursor p.entries.size := by
  rw [cursor, posOfIdx_size]
  rfl

theorem isEmpty_eq_false (h : k < p.entries.size) : p.isEmpty = false := by
  rw [isEmpty, Array.isEmpty_eq_false_iff]
  exact Array.size_pos_iff.mp (Nat.zero_lt_of_lt h)

theorem tail?_eq (p : Packed) :
    p.tail? = if p.entries.size = 0 then none else some (p.cursor (p.entries.size - 1)) := by
  unfold tail?
  split
  · next h =>
    rw [isEmpty, Array.isEmpty_iff_size_eq_zero] at h
    rw [if_pos h]
  · next h =>
    have hsize : p.entries.size ≠ 0 := fun hzero =>
      h (by rwa [isEmpty, Array.isEmpty_iff_size_eq_zero])
    rw [if_neg hsize, cursor, posOfIdx_tail (Nat.pos_of_ne_zero hsize)]

theorem entry?_cursor (p : Packed) (k : Nat) : p.entry? (p.cursor k) = p.entries[k]? := rfl

theorem get?_cursor (p : Packed) (k : Nat) : p.get? (p.cursor k) = p.values[k]? := by
  simp [get?, entry?_cursor, values]

/-! ### Walking -/

/-- The link of an entry is the distance to the entry before it. -/
theorem posOfIdx_eq_add_len (h : Linked 0 p.entries.toList) (hk : k + 1 < p.entries.size) :
    p.posOfIdx (k + 1) = p.posOfIdx k + p.entries[k + 1].link.len := by
  have hlt : k < p.entries.size := by omega
  have hlen : p.entries[k + 1].link.len = endSize 0 (p.entries.toList.take (k + 1)) :=
    h.len_link (by simpa using hk)
  rw [List.take_succ_eq_append_getElem (by simpa using hlt), endSize_append, endSize_cons,
    endSize_nil, Array.getElem_toList] at hlen
  rw [hlen, posOfIdx_succ hlt]

theorem posOfIdx_sub_len (h : Linked 0 p.entries.toList) (hk : k + 1 < p.entries.size) :
    p.posOfIdx (k + 1) - p.entries[k + 1].link.len = p.posOfIdx k := by
  rw [posOfIdx_eq_add_len h hk, Nat.add_sub_cancel]

/-- Only the first entry has a link of zero. -/
theorem len_link_eq_zero_iff (h : Linked 0 p.entries.toList) (hk : k < p.entries.size) :
    p.entries[k].link.len = 0 ↔ k = 0 := by
  have hlen : p.entries[k].link.len = endSize 0 (p.entries.toList.take k) :=
    h.len_link (by simpa using hk)
  rw [hlen]
  cases k with
  | zero => simp
  | succ k =>
    have hpos := p.entries[k].size_pos
    rw [List.take_succ_eq_append_getElem (by simpa using Nat.lt_of_succ_lt hk), endSize_append,
      endSize_cons, endSize_nil, Array.getElem_toList]
    omega

/-- **A search by links** finds the entry that stands so many before, if there are so
many. -/
theorem walkBack?_cursor (h : Linked 0 p.entries.toList) {steps k : Nat}
    (hk : k < p.entries.size) :
    walkBack? p.entries steps k (p.posOfIdx k) =
      if steps ≤ k then some (p.cursor (k - steps)) else none := by
  induction steps generalizing k with
  | zero => rw [walkBack?, if_pos (Nat.zero_le k), Nat.sub_zero, cursor]
  | succ steps ih =>
    rw [walkBack?, Array.getElem?_eq_getElem hk]
    simp only [len_link_eq_zero_iff h hk]
    -- the only link of zero is that of the first entry, and there the search has run out
    cases k with
    | zero => rw [if_pos rfl, if_neg (by omega)]
    | succ k =>
      rw [if_neg (by omega), posOfIdx_sub_len h hk, Nat.add_sub_cancel, ih (by omega)]
      simp only [Nat.add_le_add_iff_right, Nat.add_sub_add_right]

/-- **An index finds the entry that it names**, from either end, and stands right there. -/
theorem seek?_eq (h : Linked 0 p.entries.toList) (i : Int) :
    p.seek? i = (idxOf? p.entries.size i).map p.cursor := by
  unfold seek? idxOf?
  split
  · next hneg =>
    rcases Nat.eq_zero_or_pos p.entries.size with hzero | hpos
    · have hempty : p.isEmpty = true := by
        rwa [isEmpty, Array.isEmpty_iff_size_eq_zero]
      rw [if_pos hempty, if_neg (by omega), Option.map_none]
    · rw [isEmpty_eq_false hpos, if_neg Bool.false_ne_true, ← posOfIdx_tail hpos,
        walkBack?_cursor h (by omega)]
      split <;> split <;> first | omega | rfl | skip
      rw [Option.map_some]
      congr 2
      omega
  · split <;> rfl

theorem idx_seek? (h : Linked 0 p.entries.toList) (i : Int) :
    (p.seek? i).map Cursor.idx = idxOf? p.entries.size i := by
  rw [seek?_eq h, Option.map_map]
  exact Option.map_id'

theorem seek?_eq_some (h : Linked 0 p.entries.toList) {i : Int}
    (hk : idxOf? p.entries.size i = some k) : ∃ place, p.seek? i = some place ∧ place.idx = k :=
  ⟨p.cursor k, by rw [seek?_eq h, hk, Option.map_some], rfl⟩

/-- What a removal by index answers, and what it leaves. -/
theorem eraseRange_of_idxOf? (h : Linked 0 p.entries.toList) {i : Int}
    (hi : idxOf? p.entries.size i = some k) (num : Nat) :
    p.eraseRange i num = (p.eraseIdx k num, p.available k num) := by
  rw [eraseRange, seek?_eq h, hi]
  rfl

theorem eraseRange_of_idxOf?_eq_none (h : Linked 0 p.entries.toList) {i : Int}
    (hi : idxOf? p.entries.size i = none) (num : Nat) : p.eraseRange i num = (p, 0) := by
  rw [eraseRange, seek?_eq h, hi]
  rfl

/-- A step forward leads to the next entry, if there is one. -/
theorem next?_cursor (p : Packed) (k : Nat) :
    p.next? (p.cursor k) = if k + 1 < p.entries.size then some (p.cursor (k + 1)) else none := by
  unfold next?
  rw [entry?_cursor]
  by_cases h : k + 1 < p.entries.size
  · have hk : k < p.entries.size := by omega
    simp [h, Array.getElem?_eq_getElem hk, cursor, posOfIdx_succ hk]
  · cases p.entries[k]? <;> simp [h]

/-- A step backward leads to the entry before, from the end marker as well. -/
theorem prev?_cursor (h : Linked 0 p.entries.toList) (hk : k ≤ p.entries.size) :
    p.prev? (p.cursor k) = if k = 0 then none else some (p.cursor (k - 1)) := by
  unfold prev?
  rw [entry?_cursor]
  rcases Nat.lt_or_eq_of_le hk with hlt | rfl
  · rw [Array.getElem?_eq_getElem hlt]
    cases k with
    | zero => rfl
    | succ k =>
      simp only [idx_cursor, pos_cursor, posOfIdx_sub_len h hlt, Nat.add_sub_cancel]
      rfl
  · rw [Array.getElem?_eq_none (Nat.le_refl _)]
    exact tail?_eq p

/-- The next place is that of the next entry, wherever the step was taken from. -/
theorem idx_next? (p : Packed) (place : Cursor) :
    (p.next? place).map Cursor.idx =
      if place.idx + 1 < p.entries.size then some (place.idx + 1) else none := by
  unfold next? entry?
  by_cases h : place.idx + 1 < p.entries.size
  · simp [h, Array.getElem?_eq_getElem (Nat.lt_of_succ_lt h)]
  · cases p.entries[place.idx]? <;> simp [h]

/-- The place before that of an entry is that of the entry before. -/
theorem idx_prev? {place : Cursor} (h : place.idx < p.entries.size) :
    (p.prev? place).map Cursor.idx = if place.idx = 0 then none else some (place.idx - 1) := by
  unfold prev? entry?
  rw [Array.getElem?_eq_getElem h]
  split
  · contradiction
  · split <;> rfl

/-! ### Whole walks -/

theorem positions_go_eq (es : List Entry) (pos : Nat) :
    positions.go pos es =
      (List.range es.length).map fun k => pos + totalSize (es.take k) := by
  induction es generalizing pos with
  | nil => rfl
  | cons e es ih =>
    rw [positions.go, ih, List.length_cons, List.range_succ_eq_map, List.map_cons, List.map_map]
    simp [Nat.add_assoc]

/-- A walk from the head stands at the position of every entry once, in order. -/
theorem positions_eq (p : Packed) : p.positions = (List.range p.entries.size).map p.posOfIdx := by
  rw [positions, positions_go_eq, Array.length_toList]
  exact List.map_congr_left fun k _ => (posOfIdx_eq p k).symm

theorem length_values (p : Packed) : p.values.length = p.entries.size := by
  simp [values]

theorem valuesBackward_go_eq (h : Linked 0 p.entries.toList) {n : Nat} (hn : n ≤ p.entries.size) :
    valuesBackward.go p n (p.cursor n) = (p.values.take n).reverse := by
  induction n with
  | zero => rfl
  | succ n ih =>
    have hlt : n < p.values.length := by
      rw [length_values]
      exact hn
    rw [valuesBackward.go, prev?_cursor h hn, if_neg (Nat.succ_ne_zero n), Nat.add_sub_cancel]
    simp only
    rw [ih (Nat.le_of_succ_le hn), get?_cursor, List.getElem?_eq_getElem hlt, Option.toList_some,
      List.take_succ_eq_append_getElem hlt, List.reverse_append, List.reverse_singleton]

/-- **A walk from the tail** finds the values in the opposite order. -/
theorem valuesBackward_eq (h : Linked 0 p.entries.toList) :
    p.valuesBackward = p.values.reverse := by
  rw [valuesBackward, endCursor_eq, valuesBackward_go_eq h (Nat.le_refl _), ← length_values,
    List.take_length]

end Packed

end UnrolledList
