import Mathlib.Data.List.InsertIdx
import UnrolledList.Chain.Handle
import UnrolledList.Proofs.Agreement
import UnrolledList.Proofs.Chain.Layout

/-!
# Lists that differ in names alone

The names of blocks and the stamp are there for handles. Inside an operation a block is
addressed by its number, so two lists that have the same blocks under different names do the
same (`UnrolledList.Chain.Renamed`).

A **renaming** (`UnrolledList.Renaming`) says which name on one side stands for which on the
other, and by how much one stamp is behind the other. It is the same before an operation and
after it: an operation may take a name, but which one it takes is settled beforehand. The names
that are vacant on the first side are those that the second one will take in their stead, first
the ones that are vacant there and then new ones, and beyond the last name that was made the two
sides make the same.

Unlike twins (`UnrolledList.Chain.Twin`) these lists have blocks that are **the same** down to
their flags, and the same depth. So the operations do not only agree but concur, and a step that
works in one block needs no lemma about blocks (`UnrolledList.Chain.Renamed.modifyBlock`).
-/

namespace UnrolledList

/-- How names and stamps of one side stand for those of another. -/
structure Renaming where
  /-- The name on the other side. -/
  name : BlockId → BlockId
  /-- Different names stand for different ones. -/
  injective : Function.Injective name
  /-- By how much the stamp on the other side is behind. -/
  lag : UInt64

namespace Renaming

/-- Nothing is renamed. -/
def refl : Renaming where
  name := id
  injective := Function.injective_id
  lag := 0

variable (ρ : Renaming)

/-- The block under its other name. -/
def cell (cell : Cell) : Cell :=
  ⟨ρ.name cell.id, cell.block⟩

/-- The neighbours of a block under their other names. -/
def links (k : Links) : Links :=
  ⟨k.prev.map ρ.name, k.next.map ρ.name⟩

/-- The handle as the other side would have made it. -/
def handle (h : Handle) : Handle :=
  { h with block := ρ.name h.block, stamp := h.stamp - ρ.lag }

end Renaming

/-- The names that are made next, when so many have been made. -/
def BlockId.next (slots made : Nat) : List BlockId :=
  (List.range' slots made).map BlockId.mk

/-- The links are the same but for the names of the blocks. -/
structure Arena.Renamed (ρ : Renaming) (a a' : Arena) : Prop where
  /-- Each block has the same neighbours. -/
  link?_eq : ∀ id, a'.link? (ρ.name id) = (a.link? id).map ρ.links
  /-- The ends are the same. -/
  ends : ∀ side, a'.endId? side = (a.endId? side).map ρ.name
  /-- There are as many blocks. -/
  len_eq : a'.len = a.len
  /-- The names that are vacant stand for those that the other side takes next. -/
  supply : ∃ made, a.nodes.size = a'.nodes.size + made ∧
    a.free.map ρ.name = a'.free ++ BlockId.next a'.nodes.size made
  /-- A name that has not been made stands for itself. -/
  beyond : ∀ n, a.nodes.size ≤ n → ρ.name ⟨n⟩ = ⟨n⟩

/-- The lists are the same but for the names of their blocks and the stamp. -/
structure Chain.Renamed (ρ : Renaming) (c c' : Chain) : Prop where
  /-- The blocks are the same, one by one. -/
  cells_eq : c'.cells = c.cells.map ρ.cell
  /-- The blocks are linked in the same way. -/
  arena : c.arena.Renamed ρ c'.arena
  /-- The same number of elements is recorded. -/
  count_eq : c'.count = c.count
  /-- The fill is the same. -/
  fill_eq : c'.fill = c.fill
  /-- The depth is the same. -/
  depth_eq : c'.depth = c.depth
  /-- The stamp is behind by as much as the renaming says. -/
  stamp_eq : c'.stamp = c.stamp - ρ.lag

/-- The lists are renamed, and what is beside the second one is what `g` makes of what is beside
the first. -/
def Chain.RenamedBeside {α β : Type} (ρ : Renaming) (g : α → β) (r : Chain × α) (r' : Chain × β) :
    Prop :=
  r.1.Renamed ρ r'.1 ∧ r'.2 = g r.2

/-- One operation after another, where the first one gives a list and something beside it. -/
theorem Concur.bind_beside {α β γ δ : Type} {ρ : Renaming} {g : α → β} {S : γ → δ → Prop}
    {m : Except Fault (Chain × α)} {m' : Except Fault (Chain × β)}
    {f : Chain × α → Except Fault γ} {f' : Chain × β → Except Fault δ}
    (h : Concur (Chain.RenamedBeside ρ g) m m')
    (hf : ∀ c c' a, Chain.Renamed ρ c c' → Concur S (f (c, a)) (f' (c', g a))) :
    Concur S (m >>= f) (m' >>= f') := by
  refine h.bind ?_
  rintro ⟨c, a⟩ ⟨c', _⟩ ⟨hc, rfl⟩
  exact hf c c' a hc

namespace Arena

variable {ρ : Renaming} {a a' : Arena}

/-- Nothing is renamed, and nothing is different. -/
theorem renamed_refl (a : Arena) : a.Renamed .refl a where
  link?_eq id := by
    have hlinks : Renaming.refl.links = fun k => k := by
      funext k
      simp [Renaming.links, Renaming.refl]
    rw [hlinks, Option.map_id']
    rfl
  ends side := by simp [Renaming.refl]
  len_eq := rfl
  supply := ⟨0, rfl, by simp [Renaming.refl, BlockId.next]⟩
  beyond _ _ := rfl

namespace Renamed

/-! ### Taking names and giving them up -/

/-- **The name that is taken on one side stands for the one that is taken on the other.** -/
theorem alloc (h : a.Renamed ρ a') :
    a'.alloc.1 = ρ.name a.alloc.1 ∧ a.alloc.2.Renamed ρ a'.alloc.2 := by
  obtain ⟨made, hslots, hsupply⟩ := h.supply
  obtain ⟨hid, hsupply⟩ : a'.alloc.1 = ρ.name a.alloc.1 ∧
      ∃ made, a.alloc.2.nodes.size = a'.alloc.2.nodes.size + made ∧
        a.alloc.2.free.map ρ.name =
          a'.alloc.2.free ++ BlockId.next a'.alloc.2.nodes.size made := by
    rcases a.alloc_free with ⟨hfree, hsize⟩ | ⟨hfree, hid, hrest, hsize⟩
    · rcases a'.alloc_free with ⟨hfree', hsize'⟩ | ⟨hfree', hid', hrest', hsize'⟩
      · rw [hfree, hfree', List.map_cons, List.cons_append] at hsupply
        obtain ⟨hid, hrest⟩ := List.cons.inj hsupply
        exact ⟨hid.symm, made, by rw [hsize, hsize', hslots], by rw [hrest, hsize']⟩
      · -- the other side has none left, so it makes the one that this name stands for
        rw [hfree, hfree', List.map_cons, List.nil_append] at hsupply
        cases made with
        | zero => simp [BlockId.next] at hsupply
        | succ made =>
          simp only [BlockId.next, List.range'_succ, List.map_cons] at hsupply
          obtain ⟨hid, hrest⟩ := List.cons.inj hsupply
          refine ⟨hid'.trans hid.symm, made, by omega, ?_⟩
          rw [hrest, hrest', hsize', List.nil_append, BlockId.next]
    · rw [hfree, List.map_nil] at hsupply
      obtain ⟨hnil, hmade⟩ := List.append_eq_nil_iff.mp hsupply.symm
      obtain rfl : made = 0 := by simpa [BlockId.next] using hmade
      rcases a'.alloc_free with ⟨hfree', -⟩ | ⟨-, hid', hrest', hsize'⟩
      · rw [hnil] at hfree'
        contradiction
      · refine ⟨?_, 0, by omega, by simp [hrest, hrest', BlockId.next]⟩
        rw [hid, hid', h.beyond _ (Nat.le_refl _), hslots, Nat.add_zero]
  refine ⟨hid, fun id => ?_, fun side => ?_, ?_, hsupply, fun n hn => h.beyond n ?_⟩
  · rw [link?_alloc, link?_alloc, h.link?_eq, hid]
    by_cases heq : id = a.alloc.1
    · rw [if_pos heq, if_pos (congrArg ρ.name heq)]
      rfl
    · rw [if_neg heq, if_neg fun h => heq (ρ.injective h)]
  · rw [endId?_alloc, endId?_alloc, h.ends]
  · rw [len_alloc, len_alloc, h.len_eq]
  · rcases a.alloc_free with ⟨-, hsize⟩ | ⟨-, -, -, hsize⟩ <;> omega

theorem release (h : a.Renamed ρ a') (id : BlockId) :
    Concur (fun r r' => r'.1 = ρ.links r.1 ∧ r.2.Renamed ρ r'.2) (a.release id)
      (a'.release (ρ.name id)) := by
  have hlink := h.link?_eq id
  cases hk : a.link? id with
  | none =>
    rw [hk, Option.map_none] at hlink
    rw [release_eq_missing hk, release_eq_missing hlink]
    exact .error _
  | some k =>
    rw [hk, Option.map_some] at hlink
    obtain ⟨a₁, hrelease, h₁⟩ := exists_release hk
    obtain ⟨a₁', hrelease', h₁'⟩ := exists_release hlink
    rw [hrelease, hrelease']
    obtain ⟨made, hslots, hsupply⟩ := h.supply
    refine .ok ⟨rfl, fun id' => ?_, fun side => ?_, ?_, ⟨made, ?_, ?_⟩, ?_⟩
    · rw [h₁.link?_eq, h₁'.link?_eq, h.link?_eq]
      by_cases hid : id' = id
      · rw [if_pos hid, if_pos (congrArg ρ.name hid)]
        rfl
      · rw [if_neg hid, if_neg (fun heq => hid (ρ.injective heq))]
    · rw [h₁.ends, h₁'.ends, h.ends]
    · rw [h₁.len_eq, h₁'.len_eq, h.len_eq]
    · rw [h₁.size_eq, h₁'.size_eq, hslots]
    · rw [h₁.free_eq, h₁'.free_eq, h₁'.size_eq, List.map_cons, hsupply, List.cons_append]
    · rw [h₁.size_eq]
      exact h.beyond

/-! ### Linking -/

/-- Where the links of both sides are changed alike, they stay alike. -/
theorem relinks {g g' : BlockId → Links → Links} {a₁ a₁' : Arena} (h : a.Renamed ρ a')
    (h₁ : Relinks g a a₁) (h₁' : Relinks g' a' a₁')
    (hg : ∀ id k, g' (ρ.name id) (ρ.links k) = ρ.links (g id k)) : a₁.Renamed ρ a₁' := by
  obtain ⟨made, hslots, hsupply⟩ := h.supply
  refine ⟨fun id => ?_, fun side => ?_, ?_, ⟨made, ?_, ?_⟩, ?_⟩
  · rw [h₁.link?_eq, h₁'.link?_eq, h.link?_eq, Option.map_map, Option.map_map]
    congr 1
    funext k
    exact hg id k
  · rw [h₁.ends, h₁'.ends, h.ends]
  · rw [h₁.len_eq, h₁'.len_eq, h.len_eq]
  · rw [h₁.size_eq, h₁'.size_eq, hslots]
  · rw [h₁.free_eq, h₁'.free_eq, h₁'.size_eq, hsupply]
  · rw [h₁.size_eq]
    exact h.beyond

theorem node (h : a.Renamed ρ a') (id : BlockId) :
    Concur (fun k k' => k' = ρ.links k) (a.node id) (a'.node (ρ.name id)) := by
  rw [Arena.node, Arena.node, h.link?_eq]
  cases a.link? id with
  | none => exact .error _
  | some k => exact .ok rfl

theorem link (h : a.Renamed ρ a') (id : BlockId) (side : Side) (other : Option BlockId) :
    Concur (Arena.Renamed ρ) (a.link id side other)
      (a'.link (ρ.name id) side (other.map ρ.name)) := by
  refine (h.node id).bind fun k k' _ => concur_pure ?_
  refine h.relinks (a.relinks_withLink id side other) (a'.relinks_withLink _ side _) fun id' k => ?_
  have hid : some (ρ.name id) = some (ρ.name id') ↔ some id = some id' := by
    rw [Option.some_inj, Option.some_inj, ρ.injective.eq_iff]
  simp only [relink, hid]
  split
  · cases side <;> rfl
  · rfl

theorem linkIfAny (h : a.Renamed ρ a') (id : Option BlockId) (side : Side)
    (other : Option BlockId) :
    Concur (Arena.Renamed ρ) (a.linkIfAny id side other)
      (a'.linkIfAny (id.map ρ.name) side (other.map ρ.name)) := by
  cases id with
  | some id => exact h.link id side other
  | none => exact .ok h

theorem linkBeside (h : a.Renamed ρ a') (old : Option BlockId) (side : Side) (new : BlockId) :
    Concur (Arena.Renamed ρ) (a.linkBeside old side new)
      (a'.linkBeside (old.map ρ.name) side (ρ.name new)) := by
  refine (h.link new side.opposite old).bind fun a₁ a₁' h₁ => ?_
  cases old with
  | none => exact .ok h₁
  | some old =>
    refine (h₁.node old).bind ?_
    rintro k _ rfl
    have hbeyond : (ρ.links k).beside side = (k.beside side).map ρ.name := by cases side <;> rfl
    dsimp only
    rw [hbeyond]
    refine (h₁.link new side _).bind fun a₂ a₂' h₂ => ?_
    exact (h₂.linkIfAny _ _ (some new)).bind fun a₃ a₃' h₃ => h₃.link old side (some new)

theorem withLen (h : a.Renamed ρ a') (n : Nat) :
    Arena.Renamed ρ { a with len := n } { a' with len := n } :=
  ⟨h.link?_eq, h.ends, rfl, h.supply, h.beyond⟩

theorem withEnd (h : a.Renamed ρ a') (side : Side) (id : Option BlockId) :
    (a.withEnd side id).Renamed ρ (a'.withEnd side (id.map ρ.name)) := by
  refine ⟨?_, fun side' => ?_, ?_, ?_, ?_⟩
  · cases side <;> exact h.link?_eq
  · rw [endId?_withEnd, endId?_withEnd]
    split
    · rfl
    · exact h.ends side'
  · cases side <;> exact h.len_eq
  · cases side <;> exact h.supply
  · cases side <;> exact h.beyond

theorem replaceEnd (h : a.Renamed ρ a') (side : Side) (old new : Option BlockId) :
    (a.replaceEnd side old new).Renamed ρ
      (a'.replaceEnd side (old.map ρ.name) (new.map ρ.name)) := by
  have hend : a'.endId? side = old.map ρ.name ↔ a.endId? side = old := by
    rw [h.ends side]
    exact (Option.map_injective ρ.injective).eq_iff
  simp only [Arena.replaceEnd, hend]
  split
  · exact h.withEnd side new
  · exact h

theorem stretch (h : a.Renamed ρ a') (old : Option BlockId) (side : Side) (new : BlockId) :
    (a.stretch old side new).Renamed ρ (a'.stretch (old.map ρ.name) side (ρ.name new)) := by
  have hends := h.replaceEnd side old (some new)
  rw [Option.map_some] at hends
  simp only [Arena.stretch]
  rw [hends.len_eq]
  split
  · exact (hends.withEnd .head (some new)).withEnd .tail (some new)
  · exact hends

theorem insertNode (h : a.Renamed ρ a') (old : Option BlockId) (side : Side) (new : BlockId) :
    Concur (Arena.Renamed ρ) (a.insertNode old side new)
      (a'.insertNode (old.map ρ.name) side (ρ.name new)) := by
  refine (h.linkBeside old side new).bind fun a₁ a₁' h₁ => ?_
  have h₂ := h₁.stretch old side new
  dsimp only
  rw [h₂.len_eq]
  exact concur_pure (h₂.withLen _)

theorem shrink (h : a.Renamed ρ a') (id : BlockId) (k : Links) :
    (a.shrink id k).Renamed ρ (a'.shrink (ρ.name id) (ρ.links k)) :=
  (h.replaceEnd .tail (some id) k.prev).replaceEnd .head (some id) k.next

theorem removeNode (h : a.Renamed ρ a') (id : BlockId) :
    Concur (Arena.Renamed ρ) (a.removeNode id) (a'.removeNode (ρ.name id)) := by
  refine (h.release id).bind ?_
  rintro ⟨k, a₁⟩ ⟨_, a₁'⟩ ⟨rfl, h₁⟩
  refine (h₁.linkIfAny k.next .head k.prev).bind fun a₂ a₂' h₂ => ?_
  refine (h₂.linkIfAny k.prev .tail k.next).bind fun a₃ a₃' h₃ => ?_
  have h₄ := h₃.shrink id k
  dsimp only
  rw [h₄.len_eq]
  exact Concur.bind_same fun n => concur_pure (h₄.withLen n)

end Renamed

end Arena

namespace Chain

variable {ρ : Renaming} {c c' : Chain}

/-- Nothing is renamed, and nothing is different. -/
theorem renamed_refl (c : Chain) : c.Renamed .refl c where
  cells_eq := by
    have hcell : Renaming.refl.cell = id := rfl
    rw [hcell, Array.map_id]
  arena := c.arena.renamed_refl
  count_eq := rfl
  fill_eq := rfl
  depth_eq := rfl
  stamp_eq := (UInt64.sub_zero _).symm

namespace Renamed

/-! ### Reading -/

theorem size_eq (h : c.Renamed ρ c') : c'.cells.size = c.cells.size := by
  rw [h.cells_eq, Array.size_map]

theorem length_eq (h : c.Renamed ρ c') : c'.length = c.length :=
  h.size_eq

theorem getElem?_eq (h : c.Renamed ρ c') (i : Nat) : c'.cells[i]? = c.cells[i]?.map ρ.cell := by
  rw [h.cells_eq, Array.getElem?_map]

theorem block_eq (h : c.Renamed ρ c') (i : Nat) : c'.block i = c.block i := by
  rw [Chain.block, Chain.block, h.getElem?_eq]
  cases c.cells[i]? <;> rfl

theorem blocks_eq (h : c.Renamed ρ c') : c'.blocks = c.blocks := by
  rw [blocks, blocks, h.cells_eq, Array.toList_map, List.map_map]
  rfl

theorem id?_eq (h : c.Renamed ρ c') (i : Nat) : c'.id? i = (c.id? i).map ρ.name := by
  rw [id?, id?, h.getElem?_eq]
  cases c.cells[i]? <;> rfl

theorem endIdx?_eq (h : c.Renamed ρ c') (side : Side) : c'.endIdx? side = c.endIdx? side := by
  simp only [endIdx?, h.length_eq]

/-- **A name finds the block that the other one finds**, because no two names are confused. -/
theorem idxOf_eq (h : c.Renamed ρ c') (id : BlockId) : c'.idxOf (ρ.name id) = c.idxOf id := by
  have hname : (fun cell : Cell => decide (cell.id = ρ.name id)) ∘ ρ.cell =
      fun cell => decide (cell.id = id) := by
    funext cell
    exact decide_eq_decide.mpr ρ.injective.eq_iff
  rw [idxOf, idxOf, h.cells_eq, Array.findIdx?_map, hname]

theorem admits_eq (h : c.Renamed ρ c') (i n : Nat) : c'.admits i n = c.admits i n := by
  rw [admits, admits, h.block_eq, h.fill_eq]

theorem admitsMerge_eq (h : c.Renamed ρ c') (i : Nat) : c'.admitsMerge i = c.admitsMerge i := by
  rw [admitsMerge, admitsMerge, h.block_eq, h.block_eq, h.fill_eq]

theorem admittingEnd?_eq (h : c.Renamed ρ c') (side : Side) (n : Nat) :
    c'.admittingEnd? side n = c.admittingEnd? side n := by
  simp only [admittingEnd?, h.endIdx?_eq, h.admits_eq]

/-! ### Counters and names -/

theorem withCount (h : c.Renamed ρ c') (n : Nat) : (c.withCount n).Renamed ρ (c'.withCount n) :=
  { h with count_eq := rfl }

theorem touch (h : c.Renamed ρ c') : c.touch.Renamed ρ c'.touch := by
  refine { h with stamp_eq := ?_ }
  rw [Chain.touch, Chain.touch, h.stamp_eq]
  grind

/-- One element more is recorded on both sides. -/
theorem countUp (h : c.Renamed ρ c') :
    (c.withCount (c.count + 1)).touch.Renamed ρ (c'.withCount (c'.count + 1)).touch := by
  rw [h.count_eq]
  exact (h.withCount _).touch

/-- **The name that is taken on one side stands for the one that is taken on the other.** -/
theorem takeId (h : c.Renamed ρ c') :
    c'.takeId.1 = ρ.name c.takeId.1 ∧ c.takeId.2.Renamed ρ c'.takeId.2 := by
  obtain ⟨hid, harena⟩ := h.arena.alloc
  exact ⟨hid, h.cells_eq, harena, h.count_eq, h.fill_eq, h.depth_eq, h.stamp_eq⟩

/-! ### Changing blocks -/

/-- **Whatever is done to a block** is done to the same one. -/
theorem modifyBlock (h : c.Renamed ρ c') (i : Nat) (f : Block → Except Fault Block) :
    Concur (Chain.Renamed ρ) (c.modifyBlock i f) (c'.modifyBlock i f) := by
  by_cases hi : i < c.cells.size
  · have hi' : i < c'.cells.size := h.size_eq.symm ▸ hi
    have hcell : c'.cells[i] = ρ.cell c.cells[i] := by simp [h.cells_eq]
    rw [modifyBlock_eq c hi, modifyBlock_eq c' hi', hcell]
    change Concur _ ((f c.cells[i].block).map _) ((f c.cells[i].block).map _)
    cases f c.cells[i].block with
    | error e => exact .error e
    | ok b =>
      refine .ok { h with cells_eq := ?_ }
      simp only [h.cells_eq, Array.map_set]
      rfl
  · have hi' : ¬ i < c'.cells.size := h.size_eq.symm ▸ hi
    rw [modifyBlock_eq_missing hi, modifyBlock_eq_missing hi']
    exact .error _

theorem modifyBlocks (h : c.Renamed ρ c') (f : Block → Except Fault Block) (idxs : List Nat) :
    Concur (Chain.Renamed ρ) (c.modifyBlocks f idxs) (c'.modifyBlocks f idxs) := by
  induction idxs generalizing c c' with
  | nil => exact .ok h
  | cons i idxs ih => exact (h.modifyBlock i f).bind fun c₁ c₁' h₁ => ih h₁

theorem openForUse (h : c.Renamed ρ c') (i : Nat) :
    Concur (Chain.Renamed ρ) (c.openForUse i) (c'.openForUse i) :=
  h.modifyBlock i _

theorem settle (h : c.Renamed ρ c') (i : Nat) :
    Concur (Chain.Renamed ρ) (c.settle i) (c'.settle i) :=
  h.modifyBlock i _

theorem enforce (h : c.Renamed ρ c') (touched : Option Nat) :
    Concur (Chain.Renamed ρ) (c.enforce touched) (c'.enforce touched) := by
  simp only [Chain.enforce, h.depth_eq, h.length_eq]
  split
  · exact .ok h
  · exact (h.modifyBlocks _ _).bind fun c₁ c₁' h₁ => h₁.modifyBlocks _ _

theorem recompress (h : c.Renamed ρ c') (i : Nat) :
    Concur (Chain.Renamed ρ) (c.recompress i) (c'.recompress i) := by
  rw [Chain.recompress, Chain.recompress, h.block_eq]
  refine Concur.bind_same fun b => ?_
  split
  · exact h.settle i
  · exact h.enforce _

/-! ### Blocks that come and go -/

theorem insertCell (h : c.Renamed ρ c') (i : Nat) (new : Cell) :
    Concur (Chain.Renamed ρ) (c.insertCell i new) (c'.insertCell i (ρ.cell new)) := by
  by_cases hi : i ≤ c.cells.size
  · have hi' : i ≤ c'.cells.size := h.size_eq.symm ▸ hi
    rw [insertCell_eq c hi, insertCell_eq c' hi']
    refine .ok { h with cells_eq := ?_ }
    exact Array.toList_inj.mp (by simp [h.cells_eq, List.map_insertIdx])
  · have hi' : ¬ i ≤ c'.cells.size := h.size_eq.symm ▸ hi
    rw [insertCell_eq_missing hi, insertCell_eq_missing hi']
    exact .error _

theorem idBeside (h : c.Renamed ρ c') (beside : Option Nat) :
    Concur (fun old old' => old' = old.map ρ.name) (c.idBeside beside) (c'.idBeside beside) := by
  cases beside with
  | some i =>
    rw [Chain.idBeside, Chain.idBeside, h.id?_eq]
    cases c.id? i with
    | some id => exact .ok rfl
    | none => exact .error _
  | none =>
    rw [Chain.idBeside, Chain.idBeside, h.length_eq]
    split
    · exact .ok rfl
    · exact .error _

theorem linkCell (h : c.Renamed ρ c') (beside : Option Nat) (place : Place) (new : Cell) :
    Concur (Chain.Renamed ρ) (c.linkCell beside place new)
      (c'.linkCell beside place (ρ.cell new)) := by
  refine (h.idBeside beside).bind ?_
  rintro old _ rfl
  refine (h.arena.insertNode old place.side new.id).bind fun arena arena' harena => ?_
  have hlinked : (c.withArena arena).Renamed ρ (c'.withArena arena') := { h with arena := harena }
  exact hlinked.insertCell _ new

theorem removeCell (h : c.Renamed ρ c') (i : Nat) :
    Concur (RenamedBeside ρ id) (c.removeCell i) (c'.removeCell i) := by
  by_cases hi : i < c.cells.size
  · have hi' : i < c'.cells.size := h.size_eq.symm ▸ hi
    have hcell : c'.cells[i] = ρ.cell c.cells[i] := by simp [h.cells_eq]
    rw [removeCell_eq c hi, removeCell_eq c' hi', hcell]
    refine (h.arena.removeNode c.cells[i].id).map fun arena arena' harena => ?_
    refine ⟨{ h with cells_eq := ?_, arena := harena }, rfl⟩
    exact Array.toList_inj.mp (by simp [h.cells_eq, List.eraseIdx_map])
  · have hi' : ¬ i < c'.cells.size := h.size_eq.symm ▸ hi
    rw [removeCell_eq_missing hi, removeCell_eq_missing hi']
    exact .error _

theorem linkBeside (h : c.Renamed ρ c') (i : Nat) (place : Place) (new : Cell) :
    Concur (Chain.Renamed ρ) (c.linkBeside i place new) (c'.linkBeside i place (ρ.cell new)) := by
  cases place with
  | before =>
    refine (h.linkCell (some i) .before new).bind fun c₁ c₁' h₁ => ?_
    exact (h₁.recompress (i + 1)).bind fun c₂ c₂' h₂ => h₂.recompress i
  | after =>
    refine (h.linkCell (some i) .after new).bind fun c₁ c₁' h₁ => ?_
    exact (h₁.recompress i).bind fun c₂ c₂' h₂ => h₂.recompress (i + 1)

theorem linkAt (h : c.Renamed ρ c') (side : Side) (new : Cell) :
    Concur (Chain.Renamed ρ) (c.linkAt side new) (c'.linkAt side (ρ.cell new)) := by
  unfold Chain.linkAt
  rw [h.endIdx?_eq]
  split
  · exact h.linkBeside _ _ _
  · exact (h.linkCell none _ new).bind fun c₁ c₁' h₁ => h₁.recompress 0

theorem unlink (h : c.Renamed ρ c') (i : Nat) :
    Concur (Chain.Renamed ρ) (c.unlink i) (c'.unlink i) := by
  refine (h.removeCell i).bind_beside fun c₁ c₁' b h₁ => ?_
  dsimp only [id]
  rw [h₁.count_eq]
  exact Concur.bind_same fun n => (h₁.withCount n).enforce none

theorem eraseAt (h : c.Renamed ρ c') (i k : Nat) :
    Concur (RenamedBeside ρ id) (c.eraseAt i k) (c'.eraseAt i k) := by
  refine (h.modifyBlock i _).bind fun c₁ c₁' h₁ => ?_
  rw [h₁.block_eq]
  refine Concur.bind_same fun b => ?_
  dsimp only
  split
  · refine (h₁.unlink i).bind fun c₂ c₂' h₂ => ?_
    rw [h₂.count_eq]
    exact Concur.bind_same fun n => concur_pure ⟨h₂.withCount n, rfl⟩
  · rw [pure_bind, pure_bind, h₁.count_eq]
    exact Concur.bind_same fun n => concur_pure ⟨h₁.withCount n, rfl⟩

end Renamed

end Chain
end UnrolledList
