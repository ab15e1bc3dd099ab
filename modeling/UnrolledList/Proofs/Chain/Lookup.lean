import UnrolledList.Proofs.Chain.Compression
import UnrolledList.Proofs.Chain.Elements
import UnrolledList.Proofs.Chain.Invisible

/-!
# Indexes from both ends

An element has two indexes, its number and the negative number that is short of it by the length
of the list, and they are looked for on two ways that share nothing. The blocks are counted from
the head or from the tail, and within the block the entry is found by the sizes of the entries
before it or by the links of those behind it. **Both ways end at the same entry**
(`UnrolledList.Session.run_looksUp`): the two handles have the same block, the same cursor and
the same value, and their offsets differ by the number of entries of the block. The first one
counts from the head of the block and the second one from its tail.

A lookup opens the block for use and does nothing else, so it cannot fail, and the list shows the
same afterwards (`UnrolledList.Chain.view`). In particular it does not matter for a lookup which
ones were made before.
-/

namespace UnrolledList

/-- A block that keeps a list can be opened. -/
theorem Block.Keeps.exists_openForUse {b : Block} {p : Packed} (h : b.Keeps p) :
    ∃ b', b.openForUse = .ok b' := by
  unfold Block.openForUse
  split
  · rw [Block.inflate_eq h.packed_eq]
    exact ⟨_, rfl⟩
  · exact ⟨b, rfl⟩

namespace Chain

variable {c c' : Chain} {l : Layout} {pre post : List Leaf} {x : Leaf} {j k : Nat} {i : Int}

/-- The element with the number `k` is entry number `m` of the block `b`, which has the
number `j`. -/
structure IsEntry (c : Chain) (k j m : Nat) (b : Block) : Prop where
  /-- The block is there. -/
  block_eq : c.block j = .ok b
  /-- It has the entry. -/
  lt_count : m < b.count
  /-- In front of the entry are the blocks before, and the entries before in its own block. -/
  number_eq : ((c.blocks.take j).map Block.count).sum + m = k

/-! ### What a layout decides -/

theorem Has.exists_openForUse (h : c.Has l) (hl : l.leaves = pre ++ x :: post) :
    ∃ c', c.openForUse pre.length = .ok c' ∧ c'.Has l := by
  obtain ⟨hlt, hx⟩ := h.getElem_cells hl
  obtain ⟨b, hb⟩ := hx.keeps.exists_openForUse
  have hhas := h.openForUse (show pre.length < l.leaves.length by simp [hl])
  rw [Chain.openForUse, modifyBlock_eq c hlt, hb] at hhas ⊢
  exact ⟨_, rfl, hhas⟩

/-- Lists with the same layout show the same. -/
theorem Has.view_eq (h : c.Has l) (h' : c'.Has l) : c'.view = c.view := by
  have hblocks : ∀ {c : Chain}, c.Has l →
      c.cells.toList.map (fun cell => (cell.id, cell.block.count, cell.block.size)) =
        l.leaves.map fun x => (x.id, x.count, x.list.size) := by
    intro c h
    rw [← List.forall₂_eq_eq_eq, List.forall₂_map_left_iff, List.forall₂_map_right_iff]
    refine h.cells.imp fun cell x hx => ?_
    rw [hx.id_eq, hx.count_eq, hx.keeps.size_eq]
  simp only [view, h.count_eq, h'.count_eq, h.length_eq, h'.length_eq, h.elements_eq,
    h'.elements_eq, h.stamp_eq, h'.stamp_eq, hblocks h, hblocks h']

/-- An entry of a layout is an element of the list. -/
theorem Has.isEntry (h : c.Has l) (hl : l.leaves = pre ++ x :: post) {m : Nat}
    (hm : m < x.count) :
    ∃ b, c.IsEntry (Layout.total pre + m) pre.length m b ∧ b.Keeps x.list ∧
      b.count = x.count := by
  obtain ⟨b, hb, hkeeps, hcount⟩ := h.block_eq hl
  refine ⟨b, ⟨hb, hcount ▸ hm, ?_⟩, hkeeps, hcount⟩
  rw [List.map_take, h.map_count_eq, hl, List.map_append, List.take_left' (by simp), Layout.total]

/-! ### Both ways -/

/-- An offset counts from the same end as the index. -/
theorem neg_iff_of_locate? {offset : Int} (h : c.locate? i = some (j, offset)) :
    i < 0 ↔ offset < 0 := by
  unfold locate? at h
  split at h
  · next hneg =>
    obtain ⟨-, h⟩ := Option.ite_none_right_eq_some.mp h
    obtain ⟨⟨j', k⟩, -, heq⟩ := Option.map_eq_some_iff.mp h
    obtain ⟨-, rfl⟩ := Prod.mk.inj heq
    exact ⟨fun _ => by omega, fun _ => hneg⟩
  · next hneg =>
    obtain ⟨-, h⟩ := Option.ite_none_right_eq_some.mp h
    obtain ⟨⟨j', k⟩, -, heq⟩ := Option.map_eq_some_iff.mp h
    obtain ⟨-, rfl⟩ := Prod.mk.inj heq
    exact ⟨fun hlt => absurd hlt hneg, fun hlt => by omega⟩

/-- **Either index of an entry leads to its block**, with the offset that counts from the same
end. -/
theorem Has.locate?_entry (h : c.Has l) (hs : l.Sound) (hl : l.leaves = pre ++ x :: post) {m : Nat}
    (hm : m < x.count) (hi : Packed.idxOf? l.count i = some (Layout.total pre + m)) :
    c.locate? i = some (pre.length, if i < 0 then (m : Int) - x.count else m) := by
  obtain ⟨pre', x', post', m', offset, hl', htotal, hm', hoffset, hlocate⟩ := h.locate?_eq hs hi
  have hlen := length_eq_of_total_eq (hl.symm.trans hl') hm hm' htotal
  obtain ⟨rfl, hrest⟩ := List.append_inj (hl.symm.trans hl') hlen
  obtain ⟨rfl, -⟩ := List.cons.inj hrest
  obtain rfl : m = m' := Nat.add_left_cancel htotal
  have hsign := neg_iff_of_locate? hlocate
  obtain ⟨-, hvalue⟩ := Packed.idxOf?_eq_some hoffset
  rw [hlocate]
  congr 2
  split <;> omega

/-- **A lookup opens the block of the entry** and finds it there, whichever index of the entry it
is given. -/
theorem Has.find?_entry (h : c.Has l) (hs : l.Sound) (hl : l.leaves = pre ++ x :: post) {m : Nat}
    {v : Value} (hv : x.list.values[m]? = some v) (hopen : c.openForUse pre.length = .ok c')
    (hc' : c'.Has l) (hi : Packed.idxOf? l.count i = some (Layout.total pre + m)) :
    c.find? i = .ok (c', some (pre.length, ⟨x.id, x.list.cursor m,
      if i < 0 then (m : Int) - x.count else m, v, l.stamp⟩)) := by
  have hcounted := hs.counted_split hl
  have hm : m < x.count := by
    rw [hcounted, ← Packed.length_values]
    exact (List.getElem?_eq_some_iff.mp hv).1
  obtain ⟨b, hb, hkeeps, -⟩ := hc'.block_eq hl
  have hoffset : Packed.idxOf? x.list.entries.size
      (if i < 0 then (m : Int) - x.count else m) = some m := by
    rw [← hcounted]
    split
    · exact Packed.idxOf?_sub hm
    · exact Packed.idxOf?_natCast hm
  simp only [Chain.find?, h.locate?_entry hs hl hm hi, hopen, ok_bind, hb,
    hkeeps.packed_eq, Packed.seek?_eq hkeeps.wellFormed.linked, hoffset, Option.map_some,
    handleAt?, hc'.id?_eq hl, Packed.get?_cursor, hv, hc'.stamp_eq]
  rfl

theorem Has.index_entry (h : c.Has l) (hs : l.Sound) (hl : l.leaves = pre ++ x :: post) {m : Nat}
    {v : Value} (hv : x.list.values[m]? = some v) (hopen : c.openForUse pre.length = .ok c')
    (hc' : c'.Has l) (hi : Packed.idxOf? l.count i = some (Layout.total pre + m)) :
    c.index i = .ok (c', some ⟨x.id, x.list.cursor m, if i < 0 then (m : Int) - x.count else m, v,
      l.stamp⟩) := by
  rw [Chain.index, h.find?_entry hs hl hv hopen hc' hi]
  rfl

/-- What a lookup answers is decided by the layout. -/
theorem Has.index_congr (h : c.Has l) (h' : c'.Has l) (hs : l.Sound) (i : Int) :
    (c'.index i).map Prod.snd = (c.index i).map Prod.snd := by
  cases hi : Packed.idxOf? l.count i with
  | none => simp only [Chain.index, h.find?_eq_none hi, h'.find?_eq_none hi]; rfl
  | some pos =>
    obtain ⟨pre, x, post, m, -, hl, rfl, hm, -⟩ := h.locate?_eq hs hi
    have hv := List.getElem?_eq_getElem (show m < x.list.values.length by
      rwa [Packed.length_values, ← hs.counted_split hl])
    obtain ⟨c₁, hopen, h₁⟩ := h.exists_openForUse hl
    obtain ⟨c₂, hopen', h₂⟩ := h'.exists_openForUse hl
    rw [h.index_entry hs hl hv hopen h₁ hi, h'.index_entry hs hl hv hopen' h₂ hi]
    rfl

/-- **Every index is answered as it should be.** -/
structure LooksUp (c : Chain) : Prop where
  /-- An index beyond the ends finds nothing, and nothing happens. -/
  outside : ∀ i : Int, i < -c.elements.length ∨ (c.elements.length : Int) ≤ i →
    c.index i = .ok (c, none)
  /-- The two indexes of an element find the same entry, at the place of its bytes, with offsets
  that count from the two ends of its block. The list shows the same afterwards, and answers the
  same. -/
  inside : ∀ k v, c.elements[k]? = some v → ∃ c' j m b id p,
    c.IsEntry k j m b ∧ c.id? j = some id ∧ b.packed = .ok p ∧
      c.index k = .ok (c', some ⟨id, p.cursor m, m, v, c.stamp⟩) ∧
      c.index ((k : Int) - c.elements.length) =
        .ok (c', some ⟨id, p.cursor m, (m : Int) - b.count, v, c.stamp⟩) ∧
      c'.view = c.view ∧ ∀ i, (c'.index i).map Prod.snd = (c.index i).map Prod.snd

/-- **A list with a sound layout answers every index.** -/
theorem Has.looksUp (h : c.Has l) (hs : l.Sound) : c.LooksUp := by
  have hcount : c.elements.length = l.count := by rw [h.elements_eq, hs.length_elements]
  constructor
  · intro i hi
    rw [hcount] at hi
    rw [Chain.index, h.find?_eq_none (Packed.idxOf?_eq_none hi)]
    rfl
  · intro k v hv
    have hk : k < l.count := hcount ▸ (List.getElem?_eq_some_iff.mp hv).1
    obtain ⟨pre, x, post, m, -, hl, rfl, hm, -⟩ := h.locate?_eq hs (Packed.idxOf?_natCast hk)
    obtain ⟨b, hentry, hkeeps, hb⟩ := h.isEntry hl hm
    obtain ⟨c', hopen, hc'⟩ := h.exists_openForUse hl
    rw [h.elements_eq, hs.getElem?_elements hl hm] at hv
    have hhead := h.index_entry hs hl hv hopen hc' (Packed.idxOf?_natCast hk)
    have htail := h.index_entry hs hl hv hopen hc' (Packed.idxOf?_sub hk)
    rw [if_neg (by omega)] at hhead
    rw [if_pos (by omega), ← hb] at htail
    rw [hcount, h.stamp_eq]
    exact ⟨c', _, m, b, x.id, x.list, hentry, h.id?_eq hl, hkeeps.packed_eq, hhead, htail,
      h.view_eq hc', h.index_congr hc' hs⟩

end Chain

namespace Session

/-- **Every list answers every index**, after every run and under whatever options. -/
theorem run_looksUp (setting depth : Int) (as : List Action) :
    Ensures ((ofOptions setting depth).run as) (·.1.chain.LooksUp) := by
  refine ((follows_ofOptions setting depth).run as).imp fun r hr => ?_
  obtain ⟨⟨l, hl, hs, -, -⟩, -⟩ := hr
  exact hl.looksUp hs

end Session

end UnrolledList
