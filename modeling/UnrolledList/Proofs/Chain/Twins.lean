import UnrolledList.Chain.Link
import UnrolledList.Proofs.Agreement
import UnrolledList.Proofs.Chain.Layout

/-!
# Lists that differ in compression alone

Two lists are **twins** (`UnrolledList.Chain.Twin`) if, block by block, they have the same
names, keep the same packed lists and record the same numbers, and if they are the same in
everything else but their depth. So one block may be compressed where the other is not, and
the flags may be different.

An operation on twins gives twins, with the same result beside them. There are two reasons
for it, and each step of an operation rests on one of them.

* Opening a block, settling it, compressing it or restoring the boundaries leads to a twin of
  the list as it was. Each side does this on its own, and perhaps to other blocks
  (`UnrolledList.Chain.Twin.enforce`).
* Everything else reads what twins have in common, and changes it in the same way on both
  sides. In particular a block is changed in terms of its packed list
  (`UnrolledList.Block.Twin.modify`).

That a list is in order plays no part: what twins do not agree on no operation reads, in
whatever state they are.
-/

namespace UnrolledList

/-! ### Blocks -/

/-- The blocks keep the same packed list and record the same number of entries. -/
structure Block.Twin (b b' : Block) : Prop where
  /-- The packed list is the same. -/
  exists_keeps : ∃ p, b.Keeps p ∧ b'.Keeps p
  /-- The number of entries is the same. -/
  count_eq : b.count = b'.count

namespace Block

variable {b b' b'' : Block} {p : Packed}

theorem Keeps.unique {q : Packed} (h : b.Keeps p) (h' : b.Keeps q) : p = q :=
  Except.ok.inj (h.packed_eq.symm.trans h'.packed_eq)

theorem Keeps.twin (h : b.Keeps p) : b.Twin b :=
  ⟨⟨p, h, h⟩, rfl⟩

namespace Twin

theorem symm (h : b.Twin b') : b'.Twin b := by
  obtain ⟨⟨p, hp, hp'⟩, hcount⟩ := h
  exact ⟨⟨p, hp', hp⟩, hcount.symm⟩

theorem trans (h : b.Twin b') (h' : b'.Twin b'') : b.Twin b'' := by
  obtain ⟨⟨p, hp, hp'⟩, hcount⟩ := h
  obtain ⟨⟨q, hq, hq'⟩, hcount'⟩ := h'
  obtain rfl := hp'.unique hq
  exact ⟨⟨p, hp, hq'⟩, hcount.trans hcount'⟩

theorem size_eq (h : b.Twin b') : b.size = b'.size := by
  obtain ⟨⟨p, hp, hp'⟩, -⟩ := h
  rw [hp.size_eq, hp'.size_eq]

theorem values_eq (h : b.Twin b') : b.values = b'.values := by
  obtain ⟨⟨p, hp, hp'⟩, -⟩ := h
  rw [values_of_keeps hp, values_of_keeps hp']

/-- What is done with the packed list is done with the same one on both sides. -/
theorem bind_packed {α β : Type} {S : α → β → Prop} {f : Packed → Except Fault α}
    {g : Packed → Except Fault β} (h : b.Twin b')
    (hf : ∀ p : Packed, p.WellFormed → Agree S (f p) (g p)) :
    Agree S (b.packed >>= f) (b'.packed >>= g) := by
  obtain ⟨⟨p, hp, hp'⟩, -⟩ := h
  rw [hp.packed_eq, hp'.packed_eq]
  exact hf p hp.wellFormed

theorem withCount (h : b.Twin b') (n : Nat) : (b.withCount n).Twin (b'.withCount n) := by
  obtain ⟨⟨p, hp, hp'⟩, -⟩ := h
  exact ⟨⟨p, hp.withCount n, hp'.withCount n⟩, rfl⟩

/-! #### Ways of keeping a list -/

/-- What keeps the packed list and the number of entries leads to a twin. -/
theorem of_keeps {m : Except Fault Block} (h : b.Twin b')
    (hm : ∀ p, b.Keeps p → Ensures m fun b₁ => b₁.Keeps p ∧ b₁.count = b.count)
    (hfault : ∀ f, m = .error f → f = .outputOverrun) : Agree Block.Twin m (.ok b') := by
  obtain ⟨⟨p, hp, hp'⟩, hcount⟩ := h
  have hkeeps := hm p hp
  cases m with
  | error f =>
    rw [hfault f rfl]
    exact .overrunFirst _
  | ok b₁ => exact .ok ⟨⟨p, hkeeps.1, hp'⟩, hkeeps.2.trans hcount⟩

/-- A block that can be read can be opened. -/
theorem inflate_ne_error (h : b.Twin b') (f : Fault) : b.inflate ≠ .error f := by
  obtain ⟨⟨p, hp, -⟩, -⟩ := h
  rw [inflate_eq hp.packed_eq]
  nofun

theorem inflate (h : b.Twin b') : Agree Block.Twin b.inflate (.ok b') :=
  h.of_keeps (fun _ hp => hp.inflate) fun f hf => absurd hf (h.inflate_ne_error f)

theorem openForUse (h : b.Twin b') : Agree Block.Twin b.openForUse (.ok b') := by
  refine h.of_keeps (fun _ hp => hp.openForUse) fun f hf => ?_
  obtain ⟨⟨p, hp, -⟩, -⟩ := h
  rw [Block.openForUse, inflate_eq hp.packed_eq] at hf
  split at hf <;> contradiction

theorem keepPlain (h : b.Twin b') : Agree Block.Twin b.keepPlain (.ok b') := by
  refine h.of_keeps (fun _ hp => hp.keepPlain) fun f hf => ?_
  obtain ⟨⟨p, hp, -⟩, -⟩ := h
  rw [Block.keepPlain, inflate_eq hp.packed_eq] at hf
  contradiction

theorem compress (h : b.Twin b') : Agree Block.Twin b.compress (.ok b') :=
  h.of_keeps (fun _ hp => hp.compress) fun _ hf => eq_outputOverrun_of_compress hf

theorem settle (h : b.Twin b') : Agree Block.Twin b.settle (.ok b') := by
  unfold Block.settle
  split
  · exact h.compress
  · exact .ok h

/-- Twins may be kept in another way, each on its own side. -/
theorem both {f : Block → Except Fault Block} (h : b.Twin b')
    (hf : ∀ {b b' : Block}, b.Twin b' → Agree Block.Twin (f b) (.ok b')) :
    Agree Block.Twin (f b) (f b') :=
  .of_ok (fun _ _ h => h.symm) (fun _ _ _ h h' => h.trans h') (hf h) (hf (h.symm.trans h))

/-! #### Changes of a list -/

/-- **The same change** of the packed list. -/
theorem modify (h : b.Twin b') {f : Packed → Packed}
    (hf : ∀ {p : Packed}, p.WellFormed → (f p).size < Packed.sizeLimit → (f p).WellFormed) :
    Agree Block.Twin (b.modify f) (b'.modify f) := by
  obtain ⟨⟨p, hp, hp'⟩, hcount⟩ := h
  rw [modify_eq hp.packed_eq, modify_eq hp'.packed_eq]
  split
  · next hsize =>
    have hwell := hf hp.wellFormed hsize
    exact .ok ⟨⟨f p, keeps_plain rfl hwell, keeps_plain rfl hwell⟩, hcount⟩
  · exact .error _

theorem pushFront (h : b.Twin b') (s : Bytes) :
    Agree Block.Twin (b.pushFront s) (b'.pushFront s) := by
  refine (h.modify fun hp => hp.pushFront).bind fun b₁ b₁' h₁ => ?_
  rw [h.count_eq]
  exact agree_pure (h₁.withCount _)

theorem pushBack (h : b.Twin b') (s : Bytes) :
    Agree Block.Twin (b.pushBack s) (b'.pushBack s) := by
  refine (h.modify fun hp => hp.push).bind fun b₁ b₁' h₁ => ?_
  rw [h.count_eq]
  exact agree_pure (h₁.withCount _)

end Twin

end Block

/-! ### Chains -/

/-- The cells have the same name and twins as blocks. -/
structure Cell.Twin (cell cell' : Cell) : Prop where
  /-- The name is the same. -/
  id_eq : cell.id = cell'.id
  /-- The blocks are twins. -/
  block : cell.block.Twin cell'.block

/-- The lists are the same but for their depth and the way their blocks are kept. -/
structure Chain.Twin (c c' : Chain) : Prop where
  /-- There are as many blocks. -/
  size_eq : c.cells.size = c'.cells.size
  /-- The blocks are twins, one by one. -/
  cell : ∀ (i : Nat) (hi : i < c.cells.size) (hi' : i < c'.cells.size),
    Cell.Twin c.cells[i] c'.cells[i]
  /-- The links are the same, and so are the names that are free. -/
  arena_eq : c.arena = c'.arena
  /-- The same number of elements is recorded. -/
  count_eq : c.count = c'.count
  /-- The fill is the same. -/
  fill_eq : c.fill = c'.fill
  /-- The stamp is the same. -/
  stamp_eq : c.stamp = c'.stamp

/-- Twins, and the same beside them. -/
def Chain.Alike {α : Type} (r r' : Chain × α) : Prop :=
  r.1.Twin r'.1 ∧ r.2 = r'.2

/-- One operation after another, where the first one gives a list and something beside it. -/
theorem Agree.bind_alike {α β γ : Type} {S : β → γ → Prop} {m m' : Except Fault (Chain × α)}
    {f : Chain × α → Except Fault β} {g : Chain × α → Except Fault γ}
    (h : Agree Chain.Alike m m')
    (hf : ∀ c c' a, Chain.Twin c c' → Agree S (f (c, a)) (g (c', a))) :
    Agree S (m >>= f) (m' >>= g) := by
  refine h.bind ?_
  rintro ⟨c, a⟩ ⟨c', _⟩ ⟨hc, rfl⟩
  exact hf c c' a hc

namespace Chain

variable {c c' c'' : Chain} {i : Nat}

/-- To leave a block as it is changes nothing. -/
theorem modifyBlock_ok (c : Chain) (h : i < c.cells.size) : c.modifyBlock i .ok = .ok c := by
  rw [modifyBlock_eq c h, Except.map]
  congr 2
  exact Array.set_getElem_self h

namespace Twin

theorem symm (h : c.Twin c') : c'.Twin c where
  size_eq := h.size_eq.symm
  cell i hi hi' := ⟨(h.cell i hi' hi).id_eq.symm, (h.cell i hi' hi).block.symm⟩
  arena_eq := h.arena_eq.symm
  count_eq := h.count_eq.symm
  fill_eq := h.fill_eq.symm
  stamp_eq := h.stamp_eq.symm

theorem trans (h : c.Twin c') (h' : c'.Twin c'') : c.Twin c'' where
  size_eq := h.size_eq.trans h'.size_eq
  cell i hi hi' := by
    have hfirst := h.cell i hi (h.size_eq ▸ hi)
    have hsecond := h'.cell i (h.size_eq ▸ hi) hi'
    exact ⟨hfirst.id_eq.trans hsecond.id_eq, hfirst.block.trans hsecond.block⟩
  arena_eq := h.arena_eq.trans h'.arena_eq
  count_eq := h.count_eq.trans h'.count_eq
  fill_eq := h.fill_eq.trans h'.fill_eq
  stamp_eq := h.stamp_eq.trans h'.stamp_eq

/-! #### Reading -/

/-- What is the same of twin cells is the same of twins. -/
theorem map_eq {β : Type} {f : Cell → β} (h : c.Twin c')
    (hf : ∀ {cell cell' : Cell}, cell.Twin cell' → f cell = f cell') :
    c.cells.map f = c'.cells.map f := by
  refine Array.ext (by simpa using h.size_eq) fun i hi hi' => ?_
  rw [Array.getElem_map, Array.getElem_map]
  exact hf (h.cell i (by simpa using hi) (by simpa using hi'))

theorem length_eq (h : c.Twin c') : c.length = c'.length :=
  h.size_eq

theorem endIdx?_eq (h : c.Twin c') (side : Side) : c.endIdx? side = c'.endIdx? side := by
  simp only [endIdx?, h.length_eq]

theorem id?_eq (h : c.Twin c') : c.id? = c'.id? := by
  funext i
  rw [id?, id?, ← Array.getElem?_map, ← Array.getElem?_map, h.map_eq Cell.Twin.id_eq]

theorem idxOf_eq (h : c.Twin c') (id : BlockId) : c.idxOf id = c'.idxOf id := by
  have hfind : ∀ c : Chain, (c.cells.findIdx? fun cell => cell.id = id) =
      (c.cells.map Cell.id).findIdx? fun id' => id' = id := by
    intro c
    rw [Array.findIdx?_map]
    rfl
  rw [idxOf, idxOf, hfind, hfind, h.map_eq Cell.Twin.id_eq]

theorem block (h : c.Twin c') (i : Nat) : Agree Block.Twin (c.block i) (c'.block i) := by
  by_cases hi : i < c.cells.size
  · have hi' : i < c'.cells.size := h.size_eq ▸ hi
    rw [block_eq_ok hi, block_eq_ok hi']
    exact .ok (h.cell i hi hi').block
  · have hi' : ¬ i < c'.cells.size := h.size_eq ▸ hi
    rw [block_eq_missing hi, block_eq_missing hi']
    exact .error _

/-- Admission reads the size and the number of entries. -/
theorem admits (h : c.Twin c') (i n : Nat) : Agree Eq (c.admits i n) (c'.admits i n) := by
  refine (h.block i).bind fun b b' hb => ?_
  rw [h.fill_eq, hb.size_eq, hb.count_eq]
  exact agree_self fun _ _ => rfl

theorem admitsMerge (h : c.Twin c') (i : Nat) : Agree Eq (c.admitsMerge i) (c'.admitsMerge i) := by
  refine (h.block i).bind fun a a' ha => (h.block (i + 1)).bind fun b b' hb => ?_
  rw [h.fill_eq, ha.size_eq, ha.count_eq, hb.size_eq, hb.count_eq]
  exact agree_self fun _ _ => rfl

/-! #### Counters and names -/

theorem withCount (h : c.Twin c') (n : Nat) : (c.withCount n).Twin (c'.withCount n) :=
  { h with count_eq := rfl }

theorem touch (h : c.Twin c') : c.touch.Twin c'.touch :=
  { h with stamp_eq := by rw [Chain.touch, Chain.touch, h.stamp_eq] }

/-- One element more is recorded on both sides. -/
theorem countUp (h : c.Twin c') :
    (c.withCount (c.count + 1)).touch.Twin (c'.withCount (c'.count + 1)).touch := by
  rw [h.count_eq]
  exact (h.withCount _).touch

theorem takeId (h : c.Twin c') : c.takeId.1 = c'.takeId.1 ∧ c.takeId.2.Twin c'.takeId.2 := by
  obtain ⟨cells, arena, count, fill, depth, stamp⟩ := c
  obtain ⟨cells', arena', count', fill', depth', stamp'⟩ := c'
  obtain rfl : arena = arena' := h.arena_eq
  exact ⟨rfl, { h with arena_eq := rfl }⟩

/-! #### Changing a block -/

theorem modifyBlock {f g : Block → Except Fault Block} (h : c.Twin c') (i : Nat)
    (hf : ∀ {b b' : Block}, b.Twin b' → Agree Block.Twin (f b) (g b')) :
    Agree Chain.Twin (c.modifyBlock i f) (c'.modifyBlock i g) := by
  by_cases hi : i < c.cells.size
  · have hi' : i < c'.cells.size := h.size_eq ▸ hi
    have hcell := h.cell i hi hi'
    rw [modifyBlock_eq c hi, modifyBlock_eq c' hi']
    refine (hf hcell.block).map fun b b' hb => { h with size_eq := ?_, cell := ?_ }
    · simpa using h.size_eq
    · intro j hj hj'
      simp only [Array.getElem_set]
      split
      · exact ⟨hcell.id_eq, hb⟩
      · exact h.cell j (by simpa using hj) (by simpa using hj')
  · have hi' : ¬ i < c'.cells.size := h.size_eq ▸ hi
    rw [modifyBlock_eq_missing hi, modifyBlock_eq_missing hi']
    exact .error _

/-- A block may be kept in another way on one side. -/
theorem recode {f : Block → Except Fault Block} (h : c.Twin c') (hi : i < c.cells.size)
    (hf : ∀ {b b' : Block}, b.Twin b' → Agree Block.Twin (f b) (.ok b')) :
    Agree Chain.Twin (c.modifyBlock i f) (.ok c') := by
  rw [← modifyBlock_ok c' (h.size_eq ▸ hi)]
  exact h.modifyBlock i hf

theorem modifyBlocks {f : Block → Except Fault Block} {idxs : List Nat} (h : c.Twin c')
    (hf : ∀ {b b' : Block}, b.Twin b' → Agree Block.Twin (f b) (.ok b'))
    (hidxs : ∀ i ∈ idxs, i < c'.cells.size) :
    Agree Chain.Twin (c.modifyBlocks f idxs) (.ok c') := by
  induction idxs generalizing c with
  | nil => exact .ok h
  | cons i idxs ih =>
    have hi : i < c.cells.size := h.size_eq ▸ hidxs i List.mem_cons_self
    refine (h.recode hi hf).bind_first fun c₁ h₁ => ?_
    exact ih h₁ fun j hj => hidxs j (List.mem_cons_of_mem i hj)

/-- **Restoring the boundaries** leads to a twin, whichever blocks it comes to. -/
theorem enforce (h : c.Twin c') (touched : Option Nat) :
    Agree Chain.Twin (c.enforce touched) (.ok c') := by
  have hsize := h.length_eq
  unfold Chain.enforce
  dsimp only
  split
  · exact .ok h
  · next hcond =>
    have houter : ∀ i ∈ outerIdxs c.depth c.length, i < c'.cells.size := by
      intro i hi
      simp only [outerIdxs, List.mem_append, List.mem_range, List.mem_map] at hi
      simp only [length] at hsize hi hcond
      omega
    have hinner : ∀ i ∈ innerIdxs c.depth c.length touched, i < c'.cells.size := by
      intro i hi
      obtain ⟨-, hinside⟩ := List.mem_filter.mp hi
      have hinside : ¬ IsOuter c.depth c.length i := by simpa using hinside
      simp only [IsOuter, length] at hsize hinside
      omega
    refine (h.modifyBlocks (fun hb => hb.keepPlain) houter).bind_first fun c₁ h₁ => ?_
    exact h₁.modifyBlocks (fun hb => hb.compress) hinner

/-- What either side does on its own leaves twins. -/
theorem both {m m' : Except Fault Chain} (h : Agree Chain.Twin m (.ok c'))
    (h' : Agree Chain.Twin m' (.ok c')) : Agree Chain.Twin m m' :=
  .of_ok (fun _ _ h => h.symm) (fun _ _ _ h h' => h.trans h') h h'

theorem enforce_both (h : c.Twin c') (touched : Option Nat) :
    Agree Chain.Twin (c.enforce touched) (c'.enforce touched) :=
  both (h.enforce touched) ((h.symm.trans h).enforce touched)

theorem inflateAt (h : c.Twin c') (i : Nat) :
    Agree Chain.Twin (c.modifyBlock i Block.inflate) (c'.modifyBlock i Block.inflate) :=
  h.modifyBlock i fun hb => hb.both fun hb => hb.inflate

theorem openForUse (h : c.Twin c') (i : Nat) :
    Agree Chain.Twin (c.openForUse i) (c'.openForUse i) :=
  h.modifyBlock i fun hb => hb.both fun hb => hb.openForUse

theorem settle (h : c.Twin c') (i : Nat) : Agree Chain.Twin (c.settle i) (c'.settle i) :=
  h.modifyBlock i fun hb => hb.both fun hb => hb.settle

/-- Ending a change leads to a twin, whether the block was open or not. -/
theorem recompress_first (h : c.Twin c') (hi : i < c.cells.size) :
    Agree Chain.Twin (c.recompress i) (.ok c') := by
  rw [Chain.recompress, block_eq_ok hi, ok_bind]
  split
  · exact h.recode hi fun hb => hb.settle
  · exact h.enforce _

theorem recompress (h : c.Twin c') (i : Nat) :
    Agree Chain.Twin (c.recompress i) (c'.recompress i) := by
  by_cases hi : i < c.cells.size
  · -- each side goes to a twin of what it was, and these two are put together
    exact both (h.recompress_first hi) ((h.symm.trans h).recompress_first (h.size_eq ▸ hi))
  · have hi' : ¬ i < c'.cells.size := h.size_eq ▸ hi
    rw [Chain.recompress, Chain.recompress, block_eq_missing hi, block_eq_missing hi']
    exact .error _

/-! #### Adding and removing blocks -/

theorem insertCell {new new' : Cell} (h : c.Twin c') (hnew : new.Twin new') (i : Nat) :
    Agree Chain.Twin (c.insertCell i new) (c'.insertCell i new') := by
  by_cases hi : i ≤ c.cells.size
  · have hi' : i ≤ c'.cells.size := h.size_eq ▸ hi
    rw [insertCell_eq c hi, insertCell_eq c' hi']
    refine .ok { h with size_eq := ?_, cell := ?_ }
    · simpa using h.size_eq
    · intro j hj hj'
      simp only [Array.size_insertIdx] at hj hj'
      simp only [Array.getElem_insertIdx]
      split
      · exact h.cell j _ _
      · split
        · exact hnew
        · exact h.cell (j - 1) _ _
  · have hi' : ¬ i ≤ c'.cells.size := h.size_eq ▸ hi
    rw [insertCell_eq_missing hi, insertCell_eq_missing hi']
    exact .error _

theorem removeCell (h : c.Twin c') (i : Nat) :
    Agree (fun r r' => r.1.Twin r'.1 ∧ r.2.Twin r'.2) (c.removeCell i) (c'.removeCell i) := by
  by_cases hi : i < c.cells.size
  · have hi' : i < c'.cells.size := h.size_eq ▸ hi
    have hremoved := h.cell i hi hi'
    rw [removeCell_eq c hi, removeCell_eq c' hi', h.arena_eq, hremoved.id_eq]
    refine agree_eq.map ?_
    rintro arena _ rfl
    refine ⟨{ h with size_eq := ?_, cell := ?_, arena_eq := rfl }, hremoved.block⟩
    · simp [h.size_eq]
    · intro j hj hj'
      simp only [Array.size_eraseIdx] at hj hj'
      simp only [Array.getElem_eraseIdx]
      split
      · exact h.cell j _ _
      · exact h.cell (j + 1) _ _
  · have hi' : ¬ i < c'.cells.size := h.size_eq ▸ hi
    rw [removeCell_eq_missing hi, removeCell_eq_missing hi']
    exact .error _

/-- The block beside which another one is put has the same name, and so do the two blocks, so
the links change in the same way. -/
theorem linkCell {new new' : Cell} (h : c.Twin c') (hnew : new.Twin new') (beside : Option Nat)
    (place : Place) :
    Agree Chain.Twin (c.linkCell beside place new) (c'.linkCell beside place new') := by
  have hbeside : c.idBeside beside = c'.idBeside beside := by
    simp only [idBeside, h.id?_eq, h.length_eq]
  rw [Chain.linkCell, Chain.linkCell, hbeside, h.arena_eq, hnew.id_eq]
  refine agree_eq.bind_eq fun old => agree_eq.bind_eq fun arena => ?_
  have harena : (c.withArena arena).Twin (c'.withArena arena) := { h with arena_eq := rfl }
  exact harena.insertCell hnew _

theorem linkBeside {new new' : Cell} (h : c.Twin c') (hnew : new.Twin new') (i : Nat)
    (place : Place) :
    Agree Chain.Twin (c.linkBeside i place new) (c'.linkBeside i place new') := by
  cases place with
  | before =>
    refine (h.linkCell hnew (some i) .before).bind fun c₁ c₁' h₁ => ?_
    exact (h₁.recompress (i + 1)).bind fun c₂ c₂' h₂ => h₂.recompress i
  | after =>
    refine (h.linkCell hnew (some i) .after).bind fun c₁ c₁' h₁ => ?_
    exact (h₁.recompress i).bind fun c₂ c₂' h₂ => h₂.recompress (i + 1)

theorem linkAt {new new' : Cell} (h : c.Twin c') (hnew : new.Twin new') (side : Side) :
    Agree Chain.Twin (c.linkAt side new) (c'.linkAt side new') := by
  unfold Chain.linkAt
  rw [h.endIdx?_eq side]
  split
  · exact h.linkBeside hnew _ _
  · exact (h.linkCell hnew none _).bind fun c₁ c₁' h₁ => h₁.recompress 0

theorem unlink (h : c.Twin c') (i : Nat) : Agree Chain.Twin (c.unlink i) (c'.unlink i) := by
  refine (h.removeCell i).bind fun r r' hr => ?_
  obtain ⟨c₁, b⟩ := r
  obtain ⟨c₁', b'⟩ := r'
  obtain ⟨h₁, hb⟩ : c₁.Twin c₁' ∧ b.Twin b' := hr
  dsimp only
  rw [h₁.count_eq, hb.count_eq]
  exact agree_eq.bind_eq fun n => (h₁.withCount n).enforce_both none

theorem eraseAt (h : c.Twin c') (i k : Nat) :
    Agree Alike (c.eraseAt i k) (c'.eraseAt i k) := by
  refine (h.modifyBlock i fun {b b'} hb => ?_).bind fun c₁ c₁' h₁ => ?_
  · rw [hb.count_eq]
    refine agree_eq.bind_eq fun n => ?_
    exact (hb.modify fun hp => hp.eraseIdx).bind fun b₁ b₁' h₁ => agree_pure (h₁.withCount n)
  · refine (h₁.block i).bind fun b b' hb => ?_
    dsimp only
    rw [hb.count_eq]
    have hrest : ∀ {c c' : Chain} (gone : Bool), c.Twin c' → Agree Alike
        (do let n ← subtract c.count 1; return (c.withCount n, gone))
        (do let n ← subtract c'.count 1; return (c'.withCount n, gone)) := by
      intro c c' gone h
      rw [h.count_eq]
      exact agree_eq.bind_eq fun n => agree_pure ⟨h.withCount n, rfl⟩
    split
    · exact (h₁.unlink i).bind fun c₂ c₂' h₂ => hrest _ h₂
    · exact hrest _ h₁

end Twin

end Chain

end UnrolledList
