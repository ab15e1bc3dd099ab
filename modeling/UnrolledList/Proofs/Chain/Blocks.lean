import UnrolledList.Chain.Link
import UnrolledList.Proofs.Chain.Layout

/-!
# Blocks that come and go

What the operations of `UnrolledList.Chain.Link` do to a layout. A block is named by the
leaves before it: where `l.leaves = pre ++ x :: post`, it is block number `pre.length`.

Names are followed by permutations. A name that is taken moves from the vacant ones, or
from beyond the last one made, to the front (`UnrolledList.Layout.named_takeId`), and one
that is given up moves back; the list of all names stays what it is.

Both ways end by restoring the boundaries of compression. A property that does not mind how
the blocks are kept (`UnrolledList.Chain.Enduring`) is not concerned by that, so all there is to
say of it is what becomes of it when the block stands in its place.
-/

namespace UnrolledList

/-- The number that block `i` has when another one was put beside it. -/
def Place.moved : Place → (i : Nat) → Nat
  | .before, i => i + 1
  | .after, i => i

/-- The block that was there is closed before the new one restores the boundaries. -/
theorem Chain.linkBeside_eq (c : Chain) (i : Nat) (place : Place) (new : Cell) :
    c.linkBeside i place new = (do
      let c ← c.linkCell (some i) place new
      let c ← c.recompress (place.moved i)
      c.recompress (place.cut i)) := by
  cases place <;> rfl

/-- What is so when a block stands in its place, however it is linked, is so when it is linked. -/
theorem Chain.gives_linkCell {c : Chain} {beside : Option Nat} {place : Place} {new : Cell}
    {P : Chain → Prop}
    (h : ∀ arena, Gives ((c.withArena arena).insertCell (beside.elim 0 place.cut) new) P) :
    Gives (c.linkCell beside place new) P :=
  Gives.bind_any fun _ => Gives.bind_any fun arena => h arena

namespace Layout

/-! ### Names -/

/-- A name that is not in use, and the layout in which it is taken. -/
def takeId (l : Layout) : BlockId × Layout :=
  match l.vacant with
  | id :: rest => (id, { l with vacant := rest })
  | [] => (⟨l.slots⟩, { l with slots := l.slots + 1 })

@[simp] theorem leaves_takeId (l : Layout) : l.takeId.2.leaves = l.leaves := by
  unfold takeId
  split <;> rfl

@[simp] theorem count_takeId (l : Layout) : l.takeId.2.count = l.count := by
  unfold takeId
  split <;> rfl

@[simp] theorem stamp_takeId (l : Layout) : l.takeId.2.stamp = l.stamp := by
  unfold takeId
  split <;> rfl

/-- Which name is taken depends on the names alone. -/
theorem takeId_with (l : Layout) (leaves : List Leaf) (n : Nat) :
    takeId { l with leaves := leaves, count := n } =
      (l.takeId.1, { l.takeId.2 with leaves := leaves, count := n }) := by
  obtain ⟨leaves', vacant, slots, count, stamp⟩ := l
  cases vacant <;> rfl

/-- **A name that is taken is new to the blocks**, and is no longer vacant. -/
theorem named_takeId {l : Layout} (h : (l.ids ++ l.vacant).Perm (BlockId.names l.slots)) :
    (l.takeId.1 :: (l.ids ++ l.takeId.2.vacant)).Perm (BlockId.names l.takeId.2.slots) := by
  unfold takeId
  split
  · next id rest hvacant =>
    rw [hvacant] at h
    exact List.perm_middle.symm.trans h
  · next hvacant =>
    rw [hvacant] at h
    simp only [hvacant, BlockId.names_succ]
    exact (List.perm_append_singleton _ _).symm.trans (h.append_right _)

/-! ### Changes that keep a layout sound -/

namespace Sound

variable {l : Layout} {pre post : List Leaf} {x y : Leaf}

/-- Another list under the same name. -/
theorem set (h : l.Sound) (hl : l.leaves = pre ++ x :: post) (hid : y.id = x.id)
    (hcounted : y.count = y.list.entries.size) (hpos : 0 < y.count) {n : Nat}
    (hn : n + x.count = l.count + y.count) :
    Sound { l with leaves := pre ++ y :: post, count := n } where
  counted z hz := by
    have hall := h.counted
    simp only [hl, List.mem_append, List.mem_cons] at hall hz
    rcases hz with hz | rfl | hz
    · exact hall z (.inl hz)
    · exact hcounted
    · exact hall z (.inr (.inr hz))
  pos z hz := by
    have hall := h.pos
    simp only [hl, List.mem_append, List.mem_cons] at hall hz
    rcases hz with hz | rfl | hz
    · exact hall z (.inl hz)
    · exact hpos
    · exact hall z (.inr (.inr hz))
  count_eq := by
    have hcount := h.count_eq
    simp only [hl, total_append, total_cons] at hcount ⊢
    omega
  named := by
    have hnamed := h.named
    simpa [ids, hl, hid] using hnamed

/-- One block fewer. -/
theorem remove (h : l.Sound) (hl : l.leaves = pre ++ x :: post) {n : Nat}
    (hn : n + x.count = l.count) :
    Sound { l with leaves := pre ++ post, vacant := x.id :: l.vacant, count := n } where
  counted z hz := h.counted z (by
    simp only [hl, List.mem_append, List.mem_cons] at hz ⊢
    exact hz.imp_right .inr)
  pos z hz := h.pos z (by
    simp only [hl, List.mem_append, List.mem_cons] at hz ⊢
    exact hz.imp_right .inr)
  count_eq := by
    have hcount := h.count_eq
    simp only [hl, total_append, total_cons] at hcount ⊢
    omega
  named := by
    refine .trans ?_ h.named
    simp only [ids, hl, List.map_append, List.map_cons, List.append_assoc, List.cons_append]
    exact (List.perm_middle.append_left _).trans (by
      simp)

/-- One block more, under a name that was taken for it. -/
theorem insert (h : l.Sound) (hl : l.leaves = pre ++ post) (hid : y.id = l.takeId.1)
    (hcounted : y.count = y.list.entries.size) (hpos : 0 < y.count) :
    Sound { l.takeId.2 with leaves := pre ++ y :: post, count := l.count + y.count } where
  counted z hz := by
    have hall := h.counted
    simp only [hl, List.mem_append, List.mem_cons] at hall hz
    rcases hz with hz | rfl | hz
    · exact hall z (.inl hz)
    · exact hcounted
    · exact hall z (.inr hz)
  pos z hz := by
    have hall := h.pos
    simp only [hl, List.mem_append, List.mem_cons] at hall hz
    rcases hz with hz | rfl | hz
    · exact hall z (.inl hz)
    · exact hpos
    · exact hall z (.inr hz)
  count_eq := by
    have hcount := h.count_eq
    simp only [hl, total_append, total_cons] at hcount ⊢
    omega
  named := by
    refine .trans ?_ (named_takeId h.named)
    simp only [ids, hl, List.map_append, List.map_cons, List.append_assoc, hid]
    exact List.perm_middle

theorem withStamp (h : l.Sound) (stamp : UInt64) : Sound { l with stamp := stamp } :=
  ⟨h.counted, h.pos, h.count_eq, h.named⟩

end Sound

end Layout

/-- A block that is put beside number `beside`, if there is one, stands between the blocks `pre`
and the blocks `post`. -/
inductive Between : (beside : Option Nat) → Place → (pre post : List Leaf) → Prop
  /-- It is the first block. -/
  | first (place : Place) : Between none place [] []
  /-- It is put before the block `x`. -/
  | before {pre post : List Leaf} {x : Leaf} : Between (some pre.length) .before pre (x :: post)
  /-- It is put behind the block `x`. -/
  | after {pre post : List Leaf} {x : Leaf} : Between (some pre.length) .after (pre ++ [x]) post

namespace Between

variable {beside : Option Nat} {place : Place} {pre post : List Leaf}

/-- The number it gets. -/
theorem number_eq (h : Between beside place pre post) :
    beside.elim 0 place.cut = pre.length := by
  cases h with
  | first => rfl
  | before => rfl
  | after => simp [Place.cut]

/-- Only the first block is put beside none. -/
theorem seam_eq_none (h : Between beside place pre post)
    (hseam : Arena.seam (pre.map Leaf.id) (post.map Leaf.id) place.side = none) :
    pre.map Leaf.id ++ post.map Leaf.id = [] := by
  cases h with
  | first => rfl
  | before => contradiction
  | after => simp [Arena.seam, Place.side] at hseam

end Between

namespace Chain

variable {c : Chain} {l : Layout} {pre post : List Leaf} {x : Leaf} {new : Cell}
  {beside : Option Nat} {place : Place}

namespace Has

/-- The name that is taken is the same, and its block is not linked yet. -/
theorem takeId (h : c.Has l) :
    c.takeId.1 = l.takeId.1 ∧ c.takeId.2.Has l.takeId.2 ∧
      c.takeId.2.arena.Spare (l.takeId.2.leaves.map Leaf.id) c.takeId.1 := by
  obtain ⟨horders, hspare⟩ := h.orders.alloc
  obtain ⟨cells, arena, count, fill, depth, stamp⟩ := c
  obtain ⟨leaves, vacant, slots, count', stamp'⟩ := l
  obtain ⟨hcells, rfl, rfl, rfl, rfl, -⟩ := h
  obtain ⟨nodes, free, hfree, head, tail, len⟩ := arena
  cases free with
  | nil => exact ⟨rfl, ⟨hcells, rfl, Array.size_push _, rfl, rfl, horders⟩, hspare⟩
  | cons id rest =>
    exact ⟨rfl, ⟨hcells, rfl, Array.size_setIfInBounds, rfl, rfl, horders⟩, hspare⟩

theorem spare_takeId (h : c.Has l) : c.takeId.2.arena.Spare c.takeId.2.ids c.takeId.1 := by
  obtain ⟨-, htaken, hspare⟩ := h.takeId
  rw [htaken.ids_eq]
  exact hspare

theorem withCount (h : c.Has l) (n : Nat) : (c.withCount n).Has { l with count := n } :=
  ⟨h.cells, h.vacant_eq, h.slots_eq, rfl, h.stamp_eq, h.orders⟩

theorem touch (h : c.Has l) : c.touch.Has { l with stamp := l.stamp + 1 } :=
  ⟨h.cells, h.vacant_eq, h.slots_eq, h.count_eq, by rw [← h.stamp_eq]; rfl, h.orders⟩

theorem withOptions (h : c.Has l) (fill : Fill) (depth : Nat) :
    Chain.Has { c with fill := fill, depth := depth } l :=
  ⟨h.cells, h.vacant_eq, h.slots_eq, h.count_eq, h.stamp_eq, h.orders⟩

/-! ### Adding a block -/

/-- The name of the block beside which another one is put is the one at the seam. -/
theorem idBeside_eq (h : c.Has l) (hl : l.leaves = pre ++ post)
    (hb : Between beside place pre post) :
    c.idBeside beside =
      .ok (Arena.seam (pre.map Leaf.id) (post.map Leaf.id) place.side) := by
  cases hb with
  | first =>
    have hlen : c.length = 0 := by rw [h.length_eq, hl]; rfl
    rw [idBeside, if_pos hlen]
    cases place <;> rfl
  | before =>
    rw [idBeside, h.id?_eq hl]
    rfl
  | after =>
    rw [List.append_assoc, List.singleton_append] at hl
    rw [idBeside, h.id?_eq hl]
    simp [Arena.seam, Place.side]

/-- There is a block with that name, or none at all. -/
theorem exists_between (h : c.Has l) {id : Option BlockId} (hid : c.idBeside beside = .ok id)
    (place : Place) : ∃ pre post, l.leaves = pre ++ post ∧ Between beside place pre post := by
  cases beside with
  | none =>
    rw [idBeside, h.length_eq] at hid
    split at hid
    · next hzero => exact ⟨[], [], List.length_eq_zero_iff.mp hzero, .first place⟩
    · contradiction
  | some i =>
    have hi : i < l.leaves.length := by
      rw [← h.length_eq]
      by_contra hi
      rw [idBeside, id?, Array.getElem?_eq_none (Nat.le_of_not_lt hi)] at hid
      contradiction
    obtain ⟨pre, x, post, hl, rfl⟩ := l.exists_leaf hi
    cases place with
    | before => exact ⟨pre, x :: post, hl, .before⟩
    | after => exact ⟨pre ++ [x], post, by rw [hl, List.append_cons], .after⟩

/-- **A block that is put beside another one** stands there in the layout. -/
theorem linkCell (h : c.Has l) (hl : l.leaves = pre ++ post) (hb : Between beside place pre post)
    (hnew : new.Shows x) (hspare : c.arena.Spare (l.leaves.map Leaf.id) new.id) :
    Ensures (c.linkCell beside place new) (·.Has { l with leaves := pre ++ x :: post }) := by
  have hcells := h.cells
  have horders := h.orders
  rw [hl] at hcells
  rw [hl, List.map_append] at horders hspare
  have hpre := List.forall₂_take_append _ _ _ hcells
  have hpost := List.forall₂_drop_append _ _ _ hcells
  have hle : pre.length ≤ c.cells.size := by
    rw [← Array.length_toList, hcells.length_eq, List.length_append]
    exact Nat.le_add_right _ _
  rw [Chain.linkCell, h.idBeside_eq hl hb, ok_bind, hb.number_eq]
  refine (horders.insertNode hspare place.side hb.seam_eq_none).bind fun arena harena => ?_
  obtain ⟨horders, hfree, hsize⟩ := harena
  rw [hnew.id_eq, ← List.map_cons, ← List.map_append] at horders
  have hvacant := hfree.trans h.vacant_eq
  have hslots := hsize.trans h.slots_eq
  rw [insertCell_eq (c.withArena arena) hle, ensures_ok]
  refine ⟨?_, hvacant, hslots, h.count_eq, h.stamp_eq, horders⟩
  have hins : (c.cells.insertIdx pre.length new hle).toList =
      c.cells.toList.take pre.length ++ new :: c.cells.toList.drop pre.length := by
    rw [Array.toList_insertIdx, Packed.insertIdx_eq_take_drop _ (by simpa using hle)]
  change List.Forall₂ _ (c.cells.insertIdx pre.length new hle).toList _
  rw [hins]
  exact List.rel_append hpre (.cons hnew hpost)

/-- A block that is linked beside another one stands there in the layout. -/
theorem linkBeside (h : c.Has l) (hl : l.leaves = pre ++ x :: post) {y : Leaf}
    (hnew : new.Shows y) (hspare : c.arena.Spare (l.leaves.map Leaf.id) new.id) (place : Place) :
    Ensures (c.linkBeside pre.length place new) (·.Has { l with
      leaves := match place with
        | .before => pre ++ y :: x :: post
        | .after => pre ++ x :: y :: post }) := by
  cases place with
  | before =>
    refine (h.linkCell hl .before hnew hspare).bind fun c₁ h₁ => ?_
    refine (h₁.recompress (by simp)).bind fun c₂ h₂ => ?_
    exact h₂.recompress (by simp)
  | after =>
    have hl' : l.leaves = (pre ++ [x]) ++ post := by rw [hl, List.append_cons]
    have hins := h.linkCell hl' .after hnew hspare
    rw [List.append_assoc, List.singleton_append] at hins
    refine hins.bind fun c₁ h₁ => ?_
    refine (h₁.recompress (by simp)).bind fun c₂ h₂ => ?_
    exact h₂.recompress (by simp)

/-- A block that is linked at an end stands there in the layout. -/
theorem linkAt (h : c.Has l) {y : Leaf} (hnew : new.Shows y)
    (hspare : c.arena.Spare (l.leaves.map Leaf.id) new.id) (side : Side) :
    Ensures (c.linkAt side new) (·.Has { l with
      leaves := match side with
        | .head => y :: l.leaves
        | .tail => l.leaves ++ [y] }) := by
  have hlen := h.length_eq
  unfold Chain.linkAt endIdx?
  rw [hlen]
  rcases List.eq_nil_or_concat l.leaves with hnil | ⟨front, last, hlast⟩
  · have hins := h.linkCell (show l.leaves = [] ++ [] from hnil) (.first side.place) hnew hspare
    have hzero : l.leaves.length = 0 := by rw [hnil, List.length_nil]
    rw [if_pos hzero]
    refine hins.bind fun c₁ h₁ => (h₁.recompress (by simp)).imp fun c₂ h₂ => ?_
    cases side <;> simpa [hnil] using h₂
  · have hpos : l.leaves.length ≠ 0 := by simp [hlast]
    rw [if_neg hpos]
    cases side with
    | head =>
      obtain ⟨x, rest, hcons⟩ : ∃ x rest, l.leaves = x :: rest :=
        List.exists_cons_of_ne_nil (by simp [hlast])
      have hlink := h.linkBeside (show l.leaves = [] ++ x :: rest from hcons) hnew hspare .before
      simpa [hcons, Side.place] using hlink
    | tail =>
      have hsplit : l.leaves = front ++ last :: [] := by simpa using hlast
      have hlink := h.linkBeside hsplit hnew hspare .after
      simpa [hlast, Side.place] using hlink

/-! ### Removing a block -/

theorem removeCell (h : c.Has l) (hl : l.leaves = pre ++ x :: post) :
    Ensures (c.removeCell pre.length) fun r => r.2.count = x.count ∧
      r.1.Has { l with leaves := pre ++ post, vacant := x.id :: l.vacant } := by
  obtain ⟨before, cell, after, hsplit, hlen, hpre, hx, hpost⟩ := h.exists_cell hl
  have hlt : pre.length < c.cells.size := by
    rw [← Array.length_toList, hsplit, ← hlen]
    simp
  have hcell : c.cells[pre.length] = cell := by
    rw [← Array.getElem_toList]
    simp [hsplit, ← hlen]
  have herase : (c.cells.eraseIdx pre.length hlt).toList = before ++ after := by
    rw [Array.toList_eraseIdx, hsplit, ← hlen, List.eraseIdx_append_of_length_le (Nat.le_refl _)]
    simp
  have horders := h.orders
  rw [hl, List.map_append, List.map_cons, ← hx.id_eq] at horders
  rw [removeCell_eq c hlt, hcell]
  refine horders.removeNode.map fun arena harena => ?_
  obtain ⟨horders, hfree, hsize⟩ := harena
  refine ⟨hx.count_eq, ?_, ?_, hsize.trans h.slots_eq, h.count_eq, h.stamp_eq,
    by simpa using horders⟩
  · change List.Forall₂ _ (c.cells.eraseIdx pre.length hlt).toList _
    rw [herase]
    exact List.rel_append hpre hpost
  · rw [← hx.id_eq, ← h.vacant_eq]
    exact hfree

/-- A block that is unlinked is gone from the layout, with its name and its entries. -/
theorem unlink (h : c.Has l) (hl : l.leaves = pre ++ x :: post) (hcount : x.count ≤ l.count) :
    Ensures (c.unlink pre.length) (·.Has { l with
      leaves := pre ++ post, vacant := x.id :: l.vacant, count := l.count - x.count }) := by
  refine (h.removeCell hl).bind fun r hr => ?_
  obtain ⟨hb, hr⟩ := hr
  dsimp only
  rw [hr.count_eq, hb, subtract_eq hcount]
  exact (hr.withCount _).enforce (by simp)

/-- An entry that is erased is gone from its block, and the block with its last entry. -/
theorem eraseAt (h : c.Has l) (hl : l.leaves = pre ++ x :: post) (hpos : 0 < x.count)
    (hcount : x.count ≤ l.count) (k : Nat) :
    Ensures (c.eraseAt pre.length k) fun r => r.2 = decide (x.count = 1) ∧
      r.1.Has (if x.count = 1 then
          { l with leaves := pre ++ post, vacant := x.id :: l.vacant, count := l.count - 1 }
        else
          { l with
            leaves := pre ++ ⟨x.id, x.list.eraseIdx k 1, x.count - 1⟩ :: post
            count := l.count - 1 }) := by
  have hmod := h.modifyBlock (y := ⟨x.id, x.list.eraseIdx k 1, x.count - 1⟩)
    (f := fun b => do
      let n ← subtract b.count 1
      let b ← b.modify fun p => p.eraseIdx k 1
      return b.withCount n) hl rfl fun b hb hbcount => by
    rw [hbcount, subtract_eq hpos]
    exact (hb.modify hb.wellFormed.eraseIdx).bind fun b' hb' => ⟨hb'.1.withCount _, rfl⟩
  refine hmod.bind fun c₁ h₁ => ?_
  obtain ⟨b, hb, -, hbcount⟩ := h₁.block_eq rfl
  dsimp only at hbcount
  rw [hb]
  change Ensures (do
    let c ← if b.count = 0 then c₁.unlink pre.length else pure c₁
    let n ← subtract c.count 1
    return (c.withCount n, decide (b.count = 0))) _
  by_cases hone : x.count = 1
  · have hzero : b.count = 0 := by omega
    rw [if_pos hzero, if_pos hone]
    refine (h₁.unlink rfl (by dsimp only; omega)).bind fun c₂ h₂ => ?_
    simp only [hone, Nat.sub_self, Nat.sub_zero] at h₂
    dsimp only
    rw [h₂.count_eq, subtract_eq (show 1 ≤ l.count by omega)]
    exact ⟨by simp [hzero, hone], h₂.withCount _⟩
  · have hsome : b.count ≠ 0 := by omega
    rw [if_neg hsome, if_neg hone]
    change Ensures (do
      let n ← subtract c₁.count 1
      return (c₁.withCount n, decide (b.count = 0))) _
    rw [h₁.count_eq, subtract_eq (show 1 ≤ l.count by omega)]
    exact ⟨by simp [hsome, hone], h₁.withCount _⟩

end Has

/-! ### What blocks come and go without -/

/-- A property of lists that none of them loses while its blocks are only kept in another
way. -/
structure Enduring (P : Chain → Prop) : Prop where
  /-- A block is opened that is to stay plain. -/
  keepPlain : ∀ {c : Chain}, P c → ∀ i, Gives (c.modifyBlock i Block.keepPlain) P
  /-- A block is compressed. -/
  compress : ∀ {c : Chain}, P c → ∀ i, Gives (c.modifyBlock i Block.compress) P
  /-- A block is closed after it was opened for use. -/
  settle : ∀ {c : Chain}, P c → ∀ i, Gives (c.settle i) P

namespace Enduring

variable {P : Chain → Prop} {i : Nat}

/-- A property that is about what the blocks hold. -/
theorem of_recode (h : ∀ {c : Chain} {f : Block → Except Fault Block}, (∀ (b : Block) (p : Packed),
      b.Keeps p → Ensures (f b) fun b' => b'.Keeps p ∧ b'.count = b.count) →
    P c → ∀ i, Gives (c.modifyBlock i f) P) : Enduring P where
  keepPlain := h fun _ _ hb => hb.keepPlain
  compress := h fun _ _ hb => hb.compress
  settle := h fun _ _ hb => hb.settle

theorem modifyBlocks {f : Block → Except Fault Block}
    (hf : ∀ {c : Chain}, P c → ∀ i, Gives (c.modifyBlock i f) P) (hc : P c) (idxs : List Nat) :
    Gives (c.modifyBlocks f idxs) P := by
  induction idxs generalizing c with
  | nil => exact gives_ok.mpr hc
  | cons i idxs ih => exact (hf hc i).bind fun c₁ h₁ => ih h₁

variable (hP : Enduring P)
include hP

theorem enforce (hc : P c) (touched : Option Nat) : Gives (c.enforce touched) P := by
  unfold Chain.enforce
  dsimp only
  split
  · exact gives_ok.mpr hc
  · exact (modifyBlocks hP.keepPlain hc _).bind fun c₁ h₁ => modifyBlocks hP.compress h₁ _

theorem recompress (hc : P c) (i : Nat) : Gives (c.recompress i) P := by
  unfold Chain.recompress
  refine Gives.bind_any fun b => ?_
  split
  · exact hP.settle hc i
  · exact hP.enforce hc _

/-- A block is linked with everything that is so when it stands in its place. -/
theorem linkBeside {place : Place} (h : Gives (c.linkCell (some i) place new) P) :
    Gives (c.linkBeside i place new) P := by
  rw [linkBeside_eq]
  exact h.bind fun c₁ h₁ => (hP.recompress h₁ _).bind fun c₂ h₂ => hP.recompress h₂ _

theorem linkAt (h : ∀ beside place, Gives (c.linkCell beside place new) P) (side : Side) :
    Gives (c.linkAt side new) P := by
  unfold Chain.linkAt
  split
  · exact hP.linkBeside (h _ _)
  · exact (h none _).bind fun c₁ h₁ => hP.recompress h₁ 0

/-- A block is unlinked with everything that is so when it was taken out of its place. -/
theorem unlink (h : Gives (c.removeCell i) fun r => ∀ n, P (r.1.withCount n)) :
    Gives (c.unlink i) P :=
  h.bind fun _ hr => Gives.bind_any fun n => hP.enforce (hr n) none

end Enduring

end Chain

end UnrolledList
