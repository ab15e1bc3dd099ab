import UnrolledList.Proofs.Chain.Exact

/-!
# The elements of a layout

The strings of a layout (`UnrolledList.Layout.texts`) do not tell an integer from the text
that it was read from. Where a list is compared with itself, before and after some of its
elements are erased, the values can be told as they are: what is left is the same value, not
only the same string. So here the elements of a layout are its values
(`UnrolledList.Layout.elements`), and they are those of every list that has it
(`UnrolledList.Chain.Has.elements_eq`).
-/

namespace UnrolledList

namespace Layout

/-- The elements of blocks. -/
def elementsOf (leaves : List Leaf) : List Value :=
  leaves.flatMap fun x => x.list.values

/-- The elements from head to tail. -/
def elements (l : Layout) : List Value :=
  elementsOf l.leaves

@[simp] theorem elementsOf_nil : elementsOf [] = [] := rfl

@[simp] theorem elementsOf_cons (x : Leaf) (leaves : List Leaf) :
    elementsOf (x :: leaves) = x.list.values ++ elementsOf leaves := rfl

@[simp] theorem elementsOf_append (xs ys : List Leaf) :
    elementsOf (xs ++ ys) = elementsOf xs ++ elementsOf ys := by
  simp [elementsOf]

/-- An element renders to the string at its place. -/
theorem map_elementsOf (leaves : List Leaf) :
    (elementsOf leaves).map Value.render = textsOf leaves := by
  rw [elementsOf, textsOf, List.map_flatMap]
  rfl

/-- Blocks that count their entries count their elements. -/
theorem length_elementsOf {leaves : List Leaf}
    (h : ∀ x ∈ leaves, x.count = x.list.entries.size) :
    (elementsOf leaves).length = total leaves := by
  rw [← length_textsOf h, ← map_elementsOf, List.length_map]

variable {l : Layout} {pre post : List Leaf} {x : Leaf} {k : Nat}

theorem Sound.length_elements (hs : l.Sound) : l.elements.length = l.count := by
  rw [elements, length_elementsOf hs.counted, hs.count_eq]

/-- The elements in front of a block. -/
theorem Sound.length_front (hs : l.Sound) (hl : l.leaves = pre ++ x :: post) :
    (elementsOf pre).length = total pre :=
  length_elementsOf fun y hy => hs.counted y (by simp [hl, hy])

/-- Entry number `k` of a block is an element of the sequence. -/
theorem Sound.getElem?_elements (hs : l.Sound) (hl : l.leaves = pre ++ x :: post)
    (hk : k < x.count) : l.elements[total pre + k]? = x.list.values[k]? := by
  have hlt : k < x.list.values.length := by
    rwa [Packed.length_values, ← hs.counted_split hl]
  rw [elements, hl, elementsOf_append, elementsOf_cons, ← hs.length_front hl,
    List.getElem?_append_right (Nat.le_add_right _ _), Nat.add_sub_cancel_left,
    List.getElem?_append_left hlt]

/-- An entry that is erased from its block is erased from the sequence. -/
theorem Sound.eraseIdx_elements (hs : l.Sound) (hl : l.leaves = pre ++ x :: post)
    (hk : k < x.count) :
    l.elements.eraseIdx (total pre + k) =
      elementsOf pre ++ ((x.list.eraseIdx k 1).values ++ elementsOf post) := by
  have hlt : k < x.list.values.length := by
    rwa [Packed.length_values, ← hs.counted_split hl]
  rw [elements, hl, elementsOf_append, elementsOf_cons, ← hs.length_front hl,
    List.eraseIdx_append_of_length_le (Nat.le_add_right _ _), Nat.add_sub_cancel_left,
    List.eraseIdx_append_of_lt_length hlt, Packed.values_eraseIdx, List.eraseIdx_eq_take_drop_succ]

end Layout

namespace Chain

variable {c : Chain} {l : Layout} {pre post : List Leaf} {x : Leaf} {k : Nat}

theorem flatMap_values {cells : List Cell} {leaves : List Leaf}
    (h : List.Forall₂ Cell.Shows cells leaves) :
    (cells.map Cell.block).flatMap Block.values = Layout.elementsOf leaves := by
  induction h with
  | nil => rfl
  | cons hx _ ih =>
    rw [List.map_cons, List.flatMap_cons, Layout.elementsOf_cons, ih,
      Block.values_of_keeps hx.keeps]

/-- **A chain has the elements of its layout.** -/
theorem Has.elements_eq (h : c.Has l) : c.elements = l.elements :=
  flatMap_values h.cells

/-- The elements in front of a block. -/
theorem Has.flatMap_take (h : c.Has l) (hl : l.leaves = pre ++ x :: post) :
    (c.blocks.take pre.length).flatMap Block.values = Layout.elementsOf pre := by
  obtain ⟨cells, cell, cells', hsplit, hlen, hpre, -, -⟩ := h.exists_cell hl
  rw [blocks, hsplit, List.map_append, List.take_left' (by rw [List.length_map, hlen])]
  exact flatMap_values hpre

end Chain

/-- **Erasing the element that was just passed** erases it from the sequence, and its block
with it if it was the only one there. -/
theorem Walk.On.erase_elements {w : Walk} {c : Chain} {l : Layout} {pre post : List Leaf}
    {x : Leaf} {k : Nat} (hw : w.On pre x k) (h : c.Has l) (hs : l.Sound)
    (hl : l.leaves = pre ++ x :: post) {handle : Handle} (hblock : handle.block = x.id)
    (hidx : handle.place.idx = k) :
    Ensures (w.erase c handle) fun r =>
      r.2.1.elements = l.elements.eraseIdx (Layout.total pre + k) ∧
        r.2.2 = decide (x.count = 1) := by
  have hlt := hw.lt
  have hcount := hs.count_split hl
  simp only [Walk.erase, hw.current_eq, h.id?_eq hl, hblock, if_true, hidx]
  refine (h.eraseAt hl (by omega) (by omega) k).bind fun r hr => ?_
  obtain ⟨c₁, gone⟩ := r
  obtain ⟨hgone, h₁⟩ := hr
  refine ⟨?_, hgone⟩
  change c₁.elements = _
  rw [hs.eraseIdx_elements hl hlt, h₁.elements_eq]
  split
  · next hone =>
    have hnone : (x.list.eraseIdx k 1).values = [] := by
      rw [← List.length_eq_zero_iff, Packed.length_values, Packed.size_entries_eraseIdx,
        Packed.available, ← hs.counted_split hl]
      omega
    rw [hnone]
    simp [Layout.elements]
  · simp [Layout.elements]

end UnrolledList
