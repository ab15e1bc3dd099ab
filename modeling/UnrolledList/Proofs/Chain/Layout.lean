import Mathlib.Algebra.GroupWithZero.Nat
import Mathlib.Data.List.Forall2
import UnrolledList.Chain.Depth
import UnrolledList.Proofs.Block
import UnrolledList.Proofs.Chain.Arena

/-!
# Layouts

Between a chain and the sequence of its elements stands its **layout**
(`UnrolledList.Layout`): the packed lists of the blocks under their names, the counters and
the names that are vacant, but not whether a block is compressed, nor its flags. A chain
*has* a layout (`UnrolledList.Chain.Has`) if its blocks, one by one, keep those lists, and
its links lead through them in that order.

The chain operations are followed on layouts. Whatever opens blocks, settles them or
restores the boundaries of compression leaves the layout as it is
(`UnrolledList.Chain.Has.enforce`, `UnrolledList.Chain.Has.recompress`), so it disappears
from view, and what remains are changes of lists.

A layout is **sound** (`UnrolledList.Layout.Sound`) if its counters are right, no block is
empty, and the names in use and the vacant ones are together the names ever made, each of
them once. Halfway through an operation a layout need not be sound; at its end it is.
-/

namespace UnrolledList

/-- A block as it appears in a layout. -/
structure Leaf where
  /-- The name. -/
  id : BlockId
  /-- The packed list. -/
  list : Packed
  /-- The number of entries that is recorded. -/
  count : Nat

/-- What a chain is apart from the way its blocks are kept. -/
structure Layout where
  /-- The blocks from head to tail. -/
  leaves : List Leaf
  /-- The names that were given up. -/
  vacant : List BlockId
  /-- How many names have been made. -/
  slots : Nat
  /-- The number of elements that is recorded. -/
  count : Nat
  /-- How often the list was changed. -/
  stamp : UInt64

/-- A block with its name appears as `x`. -/
structure Cell.Shows (cell : Cell) (x : Leaf) : Prop where
  /-- The name is the same. -/
  id_eq : cell.id = x.id
  /-- The block keeps the list. -/
  keeps : cell.block.Keeps x.list
  /-- The number of entries is the same. -/
  count_eq : cell.block.count = x.count

/-- A chain has a layout. -/
structure Chain.Has (c : Chain) (l : Layout) : Prop where
  /-- The blocks appear one by one. -/
  cells : List.Forall₂ Cell.Shows c.cells.toList l.leaves
  /-- The same names are vacant. -/
  vacant_eq : c.vacant = l.vacant
  /-- As many names have been made. -/
  slots_eq : c.slots = l.slots
  /-- The same number of elements is recorded. -/
  count_eq : c.count = l.count
  /-- The stamp is the same. -/
  stamp_eq : c.stamp = l.stamp
  /-- The links lead through the blocks in this order. -/
  orders : c.arena.Orders (l.leaves.map Leaf.id)

namespace Layout

/-- The strings of blocks. -/
def textsOf (leaves : List Leaf) : List Bytes :=
  leaves.flatMap fun x => x.list.texts

/-- The strings from head to tail. -/
def texts (l : Layout) : List Bytes :=
  textsOf l.leaves

/-- The names of the blocks. -/
def ids (l : Layout) : List BlockId :=
  l.leaves.map Leaf.id

/-- The number of entries that the blocks record between them. -/
def total (leaves : List Leaf) : Nat :=
  (leaves.map Leaf.count).sum

/-- A layout in order. -/
structure Sound (l : Layout) : Prop where
  /-- Every block counts its entries. -/
  counted : ∀ x ∈ l.leaves, x.count = x.list.entries.size
  /-- No block is empty. -/
  pos : ∀ x ∈ l.leaves, 0 < x.count
  /-- The list counts its elements. -/
  count_eq : l.count = total l.leaves
  /-- Every name ever made is in use or vacant, and only one of them, and only once. -/
  named : (l.ids ++ l.vacant).Perm (BlockId.names l.slots)

@[simp] theorem textsOf_nil : textsOf [] = [] := rfl

@[simp] theorem textsOf_cons (x : Leaf) (leaves : List Leaf) :
    textsOf (x :: leaves) = x.list.texts ++ textsOf leaves := rfl

@[simp] theorem textsOf_append (xs ys : List Leaf) :
    textsOf (xs ++ ys) = textsOf xs ++ textsOf ys := by
  simp [textsOf]

@[simp] theorem total_nil : total [] = 0 := rfl

@[simp] theorem total_cons (x : Leaf) (leaves : List Leaf) :
    total (x :: leaves) = x.count + total leaves := by
  simp [total]

@[simp] theorem total_append (xs ys : List Leaf) : total (xs ++ ys) = total xs + total ys := by
  simp [total]

/-- A number stands for a block, with others before it and behind it. -/
theorem exists_leaf (l : Layout) {i : Nat} (hi : i < l.leaves.length) :
    ∃ pre x post, l.leaves = pre ++ x :: post ∧ pre.length = i := by
  refine ⟨l.leaves.take i, l.leaves[i], l.leaves.drop (i + 1), ?_, ?_⟩
  · rw [← List.drop_eq_getElem_cons, List.take_append_drop]
  · exact List.length_take_of_le (Nat.le_of_lt hi)

/-- So do two numbers that follow each other. -/
theorem exists_pair (l : Layout) {i : Nat} (hi : i + 1 < l.leaves.length) :
    ∃ pre a b post, l.leaves = pre ++ a :: b :: post ∧ pre.length = i := by
  refine ⟨l.leaves.take i, l.leaves[i], l.leaves[i + 1], l.leaves.drop (i + 2), ?_,
    List.length_take_of_le (by omega)⟩
  rw [← List.drop_eq_getElem_cons, ← List.drop_eq_getElem_cons, List.take_append_drop]

/-- Blocks that count their entries count their strings. -/
theorem length_textsOf {leaves : List Leaf} (h : ∀ x ∈ leaves, x.count = x.list.entries.size) :
    (textsOf leaves).length = total leaves := by
  induction leaves with
  | nil => rfl
  | cons x leaves ih =>
    have hx := h x List.mem_cons_self
    have hrest := ih fun y hy => h y (List.mem_cons_of_mem x hy)
    simp [hrest, hx]

/-- The list counts its strings. -/
theorem Sound.length_texts {l : Layout} (h : l.Sound) : l.texts.length = l.count := by
  rw [texts, length_textsOf h.counted, h.count_eq]

/-! ### One block of a sound layout -/

section Split

variable {l : Layout} {pre post : List Leaf} {x : Leaf}

/-- A block counts its entries. -/
theorem Sound.counted_split (h : l.Sound) (hl : l.leaves = pre ++ x :: post) :
    x.count = x.list.entries.size :=
  h.counted x (by simp [hl])

/-- It has some. -/
theorem Sound.pos_split (h : l.Sound) (hl : l.leaves = pre ++ x :: post) : 0 < x.count :=
  h.pos x (by simp [hl])

/-- The list counts what is before the block, in it and behind it. -/
theorem Sound.count_split (h : l.Sound) (hl : l.leaves = pre ++ x :: post) :
    l.count = total pre + (x.count + total post) := by
  rw [h.count_eq, hl, total_append, total_cons]

end Split

/-! ### Names -/

/-- No two blocks have the same name, and none has a name that is vacant. -/
theorem Sound.nodup_named {l : Layout} (h : l.Sound) : (l.ids ++ l.vacant).Nodup :=
  h.named.nodup_iff.mpr (BlockId.nodup_names l.slots)

theorem Sound.nodup_ids {l : Layout} (h : l.Sound) : l.ids.Nodup :=
  (List.nodup_append.mp h.nodup_named).1

/-- The blocks before a block and those behind it have other names. -/
theorem Sound.id_not_mem {l : Layout} {pre post : List Leaf} {x : Leaf} (h : l.Sound)
    (hl : l.leaves = pre ++ x :: post) :
    x.id ∉ pre.map Leaf.id ∧ x.id ∉ post.map Leaf.id := by
  have hnodup := h.nodup_ids
  rw [ids, hl, List.map_append, List.map_cons, List.nodup_append] at hnodup
  obtain ⟨-, hback, hapart⟩ := hnodup
  constructor
  · exact fun hmem => hapart _ hmem _ List.mem_cons_self rfl
  · exact (List.nodup_cons.mp hback).1

/-! ### Places -/

/-- The strings before a place in the block `x`. -/
theorem Sound.take_texts {l : Layout} {pre post : List Leaf} {x : Leaf} (h : l.Sound)
    (hl : l.leaves = pre ++ x :: post) {j : Nat} (hj : j ≤ x.count) :
    l.texts.take (total pre + j) = textsOf pre ++ x.list.texts.take j := by
  have hx := h.counted_split hl
  have hpre : (textsOf pre).length = total pre :=
    length_textsOf fun y hy => h.counted y (by simp [hl, hy])
  rw [texts, hl, textsOf_append, textsOf_cons, ← hpre, List.take_length_add_append,
    List.take_append_of_le_length (by rw [Packed.length_texts]; omega)]

/-- The strings behind a place in the block `x`. -/
theorem Sound.drop_texts {l : Layout} {pre post : List Leaf} {x : Leaf} (h : l.Sound)
    (hl : l.leaves = pre ++ x :: post) {j : Nat} (hj : j ≤ x.count) :
    l.texts.drop (total pre + j) = x.list.texts.drop j ++ textsOf post := by
  have hx := h.counted_split hl
  have hpre : (textsOf pre).length = total pre :=
    length_textsOf fun y hy => h.counted y (by simp [hl, hy])
  rw [texts, hl, textsOf_append, textsOf_cons, ← hpre, List.drop_length_add_append,
    List.drop_append_of_le_length (by rw [Packed.length_texts]; omega)]

end Layout

namespace Chain

variable {c : Chain} {l : Layout} {pre post : List Leaf} {x y : Leaf}

/-- The strings from head to tail. -/
def texts (c : Chain) : List Bytes :=
  c.elements.map Value.render

theorem block_eq_ok {i : Nat} (h : i < c.cells.size) : c.block i = .ok c.cells[i].block := by
  rw [block, Array.getElem?_eq_getElem h]

/-- There is nothing to read beyond the last block, -/
theorem block_eq_missing {i : Nat} (h : ¬ i < c.cells.size) :
    c.block i = .error .missingBlock := by
  rw [block, Array.getElem?_eq_none (Nat.le_of_not_lt h)]

/-- and nothing to change. -/
theorem modifyBlock_eq_missing {i : Nat} (h : ¬ i < c.cells.size)
    (f : Block → Except Fault Block) : c.modifyBlock i f = .error .missingBlock := by
  obtain ⟨cells, arena, count, fill, depth, stamp⟩ := c
  exact dif_neg h

/-- A block that is put in moves those behind it. -/
theorem insertCell_eq (c : Chain) {i : Nat} (h : i ≤ c.cells.size) (new : Cell) :
    c.insertCell i new = .ok { c with cells := c.cells.insertIdx i new h } := by
  obtain ⟨cells, arena, count, fill, depth, stamp⟩ := c
  exact dif_pos h

/-- It has to be next to another one. -/
theorem insertCell_eq_missing {i : Nat} (h : ¬ i ≤ c.cells.size) (new : Cell) :
    c.insertCell i new = .error .missingBlock := by
  obtain ⟨cells, arena, count, fill, depth, stamp⟩ := c
  exact dif_neg h

/-- What is left of a removal is the arena. -/
theorem removeCell_eq (c : Chain) {i : Nat} (h : i < c.cells.size) :
    c.removeCell i = (c.arena.removeNode c.cells[i].id).map fun arena =>
      ({ c with cells := c.cells.eraseIdx i h, arena := arena }, c.cells[i].block) := by
  obtain ⟨cells, arena, count, fill, depth, stamp⟩ := c
  simp only at h
  simp only [removeCell, h, dite_true]
  cases arena.removeNode cells[i].id <;> rfl

theorem removeCell_eq_missing {i : Nat} (h : ¬ i < c.cells.size) :
    c.removeCell i = .error .missingBlock := by
  obtain ⟨cells, arena, count, fill, depth, stamp⟩ := c
  exact dif_neg h

section Gives

variable {i : Nat}

/-- What is so of the list with the changed block in its cell is so after the change. -/
theorem gives_modifyBlock {P : Chain → Prop} {f : Block → Except Fault Block}
    (h : ∀ hi : i < c.cells.size, Gives (f c.cells[i].block) fun b =>
      P { c with cells := c.cells.set i ⟨c.cells[i].id, b⟩ }) :
    Gives (c.modifyBlock i f) P := by
  by_cases hi : i < c.cells.size
  · rw [modifyBlock_eq c hi]
    exact (h hi).map fun _ hb => hb
  · rw [modifyBlock_eq_missing hi]
    exact gives_error

/-- What is so of the list with the block among the others is so when it is put in. -/
theorem gives_insertCell {P : Chain → Prop} {new : Cell}
    (h : ∀ hi : i ≤ c.cells.size, P { c with cells := c.cells.insertIdx i new hi }) :
    Gives (c.insertCell i new) P := by
  by_cases hi : i ≤ c.cells.size
  · rw [insertCell_eq c hi]
    exact gives_ok.mpr (h hi)
  · rw [insertCell_eq_missing hi]
    exact gives_error

/-- What is so of the list without the block, however the others are linked, is so when it is
taken out. -/
theorem gives_removeCell {P : Chain × Block → Prop}
    (h : ∀ (hi : i < c.cells.size) (arena : Arena),
      P ({ c with cells := c.cells.eraseIdx i hi, arena := arena }, c.cells[i].block)) :
    Gives (c.removeCell i) P := by
  by_cases hi : i < c.cells.size
  · rw [removeCell_eq c hi]
    exact Gives.map (fun _ _ => trivial) fun arena (_ : True) => h hi arena
  · rw [removeCell_eq_missing hi]
    exact gives_error

end Gives

namespace Has

/-! ### Reading -/

theorem length_eq (h : c.Has l) : c.length = l.leaves.length := by
  rw [length, ← h.cells.length_eq, Array.length_toList]

theorem ids_eq (h : c.Has l) : c.ids = l.ids := by
  rw [ids, Layout.ids, ← List.forall₂_eq_eq_eq, List.forall₂_map_left_iff,
    List.forall₂_map_right_iff]
  exact h.cells.imp fun _ _ hx => hx.id_eq

theorem map_count_eq (h : c.Has l) : c.blocks.map Block.count = l.leaves.map Leaf.count := by
  rw [blocks, List.map_map, ← List.forall₂_eq_eq_eq, List.forall₂_map_left_iff,
    List.forall₂_map_right_iff]
  exact h.cells.imp fun _ _ hx => hx.count_eq

/-- A chain holds what its layout holds. -/
theorem texts_eq (h : c.Has l) : c.texts = l.texts := by
  have hcells : ∀ {cells : List Cell} {leaves : List Leaf},
      List.Forall₂ Cell.Shows cells leaves →
        (cells.map Cell.block).flatMap (fun b => b.values.map Value.render) =
          Layout.textsOf leaves := by
    intro cells leaves hshows
    induction hshows with
    | nil => rfl
    | cons hx _ ih =>
      rw [List.map_cons, List.flatMap_cons, Layout.textsOf_cons, ih,
        Block.values_of_keeps hx.keeps, Packed.texts]
  rw [texts, elements, List.map_flatMap]
  exact hcells h.cells

/-- A block of a layout is a block of the chain. -/
theorem exists_cell (h : c.Has l) (hl : l.leaves = pre ++ x :: post) :
    ∃ cells cell cells', c.cells.toList = cells ++ cell :: cells' ∧ cells.length = pre.length ∧
      List.Forall₂ Cell.Shows cells pre ∧ cell.Shows x ∧ List.Forall₂ Cell.Shows cells' post := by
  have hcells := h.cells
  rw [hl] at hcells
  have hpre := List.forall₂_take_append _ _ _ hcells
  have hpost := List.forall₂_drop_append _ _ _ hcells
  obtain ⟨cell, cells', hx, hrest, hdrop⟩ := List.forall₂_cons_right_iff.mp hpost
  refine ⟨_, cell, cells', ?_, hpre.length_eq, hpre, hx, hrest⟩
  rw [← hdrop, List.take_append_drop]

/-- A block of a chain appears in its layout. -/
theorem exists_leaf_of_mem (h : c.Has l) {b : Block} (hb : b ∈ c.blocks) :
    ∃ x ∈ l.leaves, b.Keeps x.list ∧ b.count = x.count := by
  obtain ⟨cell, hcell, rfl⟩ := List.mem_map.mp hb
  obtain ⟨i, hi, rfl⟩ := List.mem_iff_getElem.mp hcell
  have hlt : i < l.leaves.length := h.cells.length_eq ▸ hi
  have hshows := (List.forall₂_iff_get.mp h.cells).2 i hi hlt
  exact ⟨_, List.getElem_mem hlt, hshows.keeps, hshows.count_eq⟩

theorem getElem?_cells (h : c.Has l) (hl : l.leaves = pre ++ x :: post) :
    ∃ cell, c.cells[pre.length]? = some cell ∧ cell.Shows x := by
  obtain ⟨cells, cell, cells', hsplit, hlen, -, hx, -⟩ := h.exists_cell hl
  refine ⟨cell, ?_, hx⟩
  rw [← Array.getElem?_toList, hsplit, ← hlen]
  simp

theorem block_eq (h : c.Has l) (hl : l.leaves = pre ++ x :: post) :
    ∃ b, c.block pre.length = .ok b ∧ b.Keeps x.list ∧ b.count = x.count := by
  obtain ⟨cell, hcell, hx⟩ := h.getElem?_cells hl
  exact ⟨cell.block, by rw [block, hcell], hx.keeps, hx.count_eq⟩

/-- A block that can be read is one of the layout. -/
theorem exists_leaf_of_block (h : c.Has l) {i : Nat} {b : Block} (hb : c.block i = .ok b) :
    ∃ pre x post, l.leaves = pre ++ x :: post ∧ pre.length = i ∧ b.Keeps x.list ∧
      b.count = x.count := by
  have hi : i < l.leaves.length := by
    rw [← h.length_eq]
    by_contra hi
    rw [block_eq_missing hi] at hb
    contradiction
  obtain ⟨pre, x, post, hl, rfl⟩ := l.exists_leaf hi
  obtain ⟨b', hb', hkeeps, hcount⟩ := h.block_eq hl
  obtain rfl := Except.ok.inj (hb.symm.trans hb')
  exact ⟨pre, x, post, hl, rfl, hkeeps, hcount⟩

theorem id?_eq (h : c.Has l) (hl : l.leaves = pre ++ x :: post) :
    c.id? pre.length = some x.id := by
  obtain ⟨cell, hcell, hx⟩ := h.getElem?_cells hl
  rw [id?, hcell, Option.map_some, hx.id_eq]

/-! ### Changing a block -/

/-- A change of a block is a change of the layout. -/
theorem modifyBlock (h : c.Has l) (hl : l.leaves = pre ++ x :: post)
    {f : Block → Except Fault Block} (hid : y.id = x.id)
    (hf : ∀ b : Block, b.Keeps x.list → b.count = x.count →
      Ensures (f b) fun b' => b'.Keeps y.list ∧ b'.count = y.count) :
    Ensures (c.modifyBlock pre.length f) (·.Has { l with leaves := pre ++ y :: post }) := by
  obtain ⟨cells, cell, cells', hsplit, hlen, hpre, hx, hpost⟩ := h.exists_cell hl
  have hlt : pre.length < c.cells.size := by
    rw [← Array.length_toList, hsplit, ← hlen]
    simp
  have hcell : c.cells[pre.length] = cell := by
    rw [← Array.getElem_toList]
    simp [hsplit, ← hlen]
  rw [modifyBlock_eq c hlt, hcell]
  refine (hf cell.block hx.keeps hx.count_eq).map fun b hb => ?_
  have horders : c.arena.Orders ((pre ++ y :: post).map Leaf.id) := by
    have horders := h.orders
    rw [hl] at horders
    simpa [hid] using horders
  refine ⟨?_, h.vacant_eq, h.slots_eq, h.count_eq, h.stamp_eq, horders⟩
  have hset : (c.cells.set pre.length ⟨cell.id, b⟩).toList = cells ++ ⟨cell.id, b⟩ :: cells' := by
    rw [Array.toList_set, hsplit, ← hlen]
    simp
  rw [hset]
  exact List.rel_append hpre (.cons ⟨hx.id_eq.trans hid.symm, hb.1, hb.2⟩ hpost)

/-- A change of the way a block is kept is not a change of the layout. -/
theorem recode (h : c.Has l) {i : Nat} (hi : i < l.leaves.length)
    {f : Block → Except Fault Block}
    (hf : ∀ (b : Block) (p : Packed), b.Keeps p →
      Ensures (f b) fun b' => b'.Keeps p ∧ b'.count = b.count) :
    Ensures (c.modifyBlock i f) (·.Has l) := by
  obtain ⟨pre, x, post, hl, rfl⟩ := l.exists_leaf hi
  have hmod := h.modifyBlock (y := x) hl rfl fun b hb hcount =>
    (hf b _ hb).imp fun b' hb' => ⟨hb'.1, hb'.2.trans hcount⟩
  rw [← hl] at hmod
  exact hmod

/-- Whichever block it is, if it is there. -/
theorem gives_recode (h : c.Has l) (i : Nat) {f : Block → Except Fault Block}
    (hf : ∀ (b : Block) (p : Packed), b.Keeps p →
      Ensures (f b) fun b' => b'.Keeps p ∧ b'.count = b.count) :
    Gives (c.modifyBlock i f) (·.Has l) := by
  by_cases hi : i < c.cells.size
  · refine (h.recode ?_ hf).gives
    rwa [← h.length_eq]
  · rw [modifyBlock_eq_missing hi]
    exact gives_error

/-! ### What leaves the layout as it is -/

theorem openForUse (h : c.Has l) {i : Nat} (hi : i < l.leaves.length) :
    Ensures (c.openForUse i) (·.Has l) :=
  h.recode hi fun _ _ hb => hb.openForUse

theorem settle (h : c.Has l) {i : Nat} (hi : i < l.leaves.length) :
    Ensures (c.settle i) (·.Has l) :=
  h.recode hi fun _ _ hb => hb.settle

theorem modifyBlocks (h : c.Has l) {f : Block → Except Fault Block}
    (hf : ∀ (b : Block) (p : Packed), b.Keeps p →
      Ensures (f b) fun b' => b'.Keeps p ∧ b'.count = b.count)
    {idxs : List Nat} (hidxs : ∀ i ∈ idxs, i < l.leaves.length) :
    Ensures (c.modifyBlocks f idxs) (·.Has l) := by
  induction idxs generalizing c with
  | nil => exact h
  | cons i idxs ih =>
    refine (h.recode (hidxs i List.mem_cons_self) hf).bind fun c' hc' => ?_
    exact ih hc' fun j hj => hidxs j (List.mem_cons_of_mem i hj)

/-- **Restoring the boundaries** changes how blocks are kept and nothing else. -/
theorem enforce (h : c.Has l) {touched : Option Nat} (ht : ∀ i ∈ touched, i < l.leaves.length) :
    Ensures (c.enforce touched) (·.Has l) := by
  unfold Chain.enforce
  dsimp only
  split
  · exact h
  · next hcond =>
    have hlen := h.length_eq
    have houter : ∀ i ∈ outerIdxs c.depth c.length, i < l.leaves.length := by
      intro i hi
      simp only [outerIdxs, List.mem_append, List.mem_range, List.mem_map] at hi
      omega
    have hinner : ∀ i ∈ innerIdxs c.depth c.length touched, i < l.leaves.length := by
      intro i hi
      simp only [innerIdxs, List.mem_filter, List.mem_append, List.mem_cons, Option.mem_toList,
        List.not_mem_nil, or_false] at hi
      rcases hi.1 with hi | rfl | rfl
      · exact ht i hi
      · omega
      · omega
    refine (h.modifyBlocks (fun _ _ hb => hb.keepPlain) houter).bind fun c' hc' => ?_
    exact hc'.modifyBlocks (fun _ _ hb => hb.compress) hinner

theorem recompress (h : c.Has l) {i : Nat} (hi : i < l.leaves.length) :
    Ensures (c.recompress i) (·.Has l) := by
  obtain ⟨pre, x, post, hl, rfl⟩ := l.exists_leaf hi
  obtain ⟨b, hb, -⟩ := h.block_eq hl
  simp only [Chain.recompress, hb, bind, Except.bind]
  split
  · exact h.settle hi
  · refine h.enforce fun j hj => ?_
    obtain rfl := Option.some.inj hj
    exact hi

end Has

end Chain

end UnrolledList
