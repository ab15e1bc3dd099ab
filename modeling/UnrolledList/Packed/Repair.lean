import UnrolledList.Packed.Basic

/-!
# Repairing back links

Each change cuts a packed list, and at the cut one entry has a new predecessor. Its link
is set anew; if the new length does not fit the width of the old field, the entry grows
by four bytes, so the entry after it has a longer predecessor as well, and so on.
`UnrolledList.Packed.repair` is this walk. **It stops at the first field that did not have
to grow**, because the entry behind that field has kept its size.

`UnrolledList.Packed.repairFrom` does the same in place on an array, and tells by how many
bytes the entries have grown. A repair that stops early leaves the rest of the array
untouched, so an edit near the head of a long list costs no more than the edit.
-/

namespace UnrolledList

/-! ### Growth -/

/-- An entry whose link has to widen grows by four bytes. -/
theorem Entry.size_relink_of_overflows {e : Entry} {before : Nat}
    (h : e.link.Overflows before) : (e.relink before).size = e.size + 4 := by
  obtain ⟨link, body⟩ := e
  cases link with
  | narrow len =>
    have hb : ¬ before < 254 := by
      intro hb
      simp [Link.Overflows, Link.widthFor, hb] at h
    simp only [relink, Link.record, Link.ofLen, hb, dite_false, size, Link.width_wide,
      Link.width_narrow]
    omega
  | wide len =>
    simp only [Link.Overflows, Link.width_wide, Link.widthFor] at h
    split at h <;> omega

/-- An entry whose link is wide enough keeps its size. -/
theorem Entry.size_relink_of_not_overflows {e : Entry} {before : Nat}
    (h : ¬ e.link.Overflows before) : (e.relink before).size = e.size := by
  obtain ⟨link, body⟩ := e
  cases link with
  | narrow len =>
    have hb : before < 254 := by
      simp only [Link.Overflows, Link.width_narrow, Link.widthFor] at h
      split at h <;> omega
    simp [relink, Link.record, Link.ofLen, hb, size]
  | wide len => rfl

namespace Packed

/-- Putting another entry in the place of one changes the size by their difference. -/
theorem totalSize_set (es : List Entry) {i : Nat} (h : i < es.length) (e : Entry) :
    totalSize (es.set i e) + es[i].size = totalSize es + e.size := by
  have hcut := totalSize_take_add_drop es i
  rw [List.drop_eq_getElem_cons h, totalSize_cons] at hcut
  rw [List.set_eq_take_append_cons_drop, if_pos h, totalSize_append, totalSize_cons]
  omega

/-! ### On lists -/

/-- **Repairs the back links** of entries that now stand after an entry of length
`before`. Only the first link can be wrong to begin with. -/
def repair (before : Nat) : List Entry → List Entry
  | [] => []
  | e :: es =>
    if e.link.len = before then e :: es
    else if e.link.Overflows before then
      let wider := e.relink before
      wider :: repair wider.size es
    else e.relink before :: es

@[simp] theorem repair_nil (before : Nat) : repair before [] = [] := rfl

/-- A repair changes no body. -/
theorem map_body_repair (before : Nat) (es : List Entry) :
    (repair before es).map Entry.body = es.map Entry.body := by
  induction es generalizing before with
  | nil => rfl
  | cons e es ih =>
    rw [repair]
    split
    · rfl
    · split
      · simp [ih]
      · simp

@[simp] theorem length_repair (before : Nat) (es : List Entry) :
    (repair before es).length = es.length := by
  simpa using congrArg List.length (map_body_repair before es)

/-! ### In place -/

/-- Repairs the back links from entry number `i` on, which now stands after an entry of
length `before`. Adds to `grown` the bytes by which the entries grow. -/
def repairFrom (es : Array Entry) (i before grown : Nat) : Array Entry × Nat :=
  if h : i < es.size then
    let e := es[i]
    if e.link.len = before then (es, grown)
    else if e.link.Overflows before then
      let wider := e.relink before
      repairFrom (es.set i wider) (i + 1) wider.size (grown + 4)
    else (es.set i (e.relink before), grown)
  else (es, grown)
termination_by es.size - i

/-- The array walk is the walk on lists. -/
theorem toList_repairFrom (es : Array Entry) (i before grown : Nat) :
    (repairFrom es i before grown).1.toList =
      es.toList.take i ++ repair before (es.toList.drop i) := by
  fun_induction repairFrom es i before grown with
  | case1 es i grown h e =>
    have hi : i < es.toList.length := by simpa using h
    rw [List.drop_eq_getElem_cons hi, repair, if_pos (by simp [e]),
      ← List.drop_eq_getElem_cons, List.take_append_drop]
  | case2 es i before grown h e hlen hover wider ih =>
    have hi : i < es.toList.length := by simpa using h
    rw [ih, Array.toList_set, List.drop_set_of_lt (Nat.lt_succ_self i),
      List.take_set, List.take_succ_eq_append_getElem hi,
      List.drop_eq_getElem_cons hi, repair, if_neg (by simpa [e] using hlen),
      if_pos (by simpa [e] using hover)]
    simp [wider, e, Nat.min_eq_left (Nat.le_of_lt h)]
  | case3 es i before grown h e hlen hover =>
    have hi : i < es.toList.length := by simpa using h
    rw [Array.toList_set, List.drop_eq_getElem_cons hi, repair,
      if_neg (by simpa [e] using hlen), if_neg (by simpa [e] using hover),
      List.set_eq_take_append_cons_drop, if_pos hi]
    simp [e]
  | case4 es i before grown h =>
    rw [List.drop_of_length_le (by simpa using h), List.take_of_length_le (by simpa using h)]
    simp

/-- The array grows by as many bytes as the walk tells. -/
theorem totalSize_repairFrom (es : Array Entry) (i before grown : Nat) :
    totalSize (repairFrom es i before grown).1.toList + grown =
      totalSize es.toList + (repairFrom es i before grown).2 := by
  fun_induction repairFrom es i before grown with
  | case1 => rfl
  | case2 es i before grown h e hlen hover wider ih =>
    have hset := totalSize_set es.toList (by simpa using h) wider
    have hsize : wider.size = e.size + 4 := Entry.size_relink_of_overflows hover
    have he : es[i].size = e.size := rfl
    rw [Array.toList_set] at ih
    simp only [Array.getElem_toList] at hset
    omega
  | case3 es i before grown h e hlen hover =>
    have hset := totalSize_set es.toList (by simpa using h) (e.relink before)
    have hsize : (e.relink before).size = e.size := Entry.size_relink_of_not_overflows hover
    have he : es[i].size = e.size := rfl
    simp only [Array.getElem_toList] at hset
    rw [Array.toList_set]
    omega
  | case4 => rfl

end Packed

end UnrolledList
