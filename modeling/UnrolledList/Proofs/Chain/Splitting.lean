import UnrolledList.Proofs.Chain.Blockwise
import UnrolledList.Proofs.Chain.Integrity

/-!
# A block that is split

A string that is inserted in the middle of a full block splits it
(`UnrolledList.Chain.splitBlock`). The block keeps the half with the element beside which the
string goes; the other half becomes a block that has a name but no place in the list yet. It
gets the string at the end that faces the cut, and only then it is linked.

Here the three steps are followed for **any block of any list**. The rest of the list need not
be in order, and the block need not be full.

1. The halves **divide** the entries of the block, and each of the two blocks accounts for its
   half (`UnrolledList.Block.Accounts`). No step of this can fail: the halves are never larger
   than the whole.
2. The string goes to the new block whenever a header can tell the size that comes of it.
3. In the order in which the two blocks are linked, they hold what the block held, with the
   string at the cut.
-/

namespace UnrolledList

namespace Block

variable {b : Block} {p : Packed}

/-- The block **accounts for** a packed list: it keeps the list, which a reader accepts, and what
stands beside it is right. -/
structure Accounts (b : Block) (p : Packed) : Prop where
  /-- The list is that of the block. -/
  keeps : b.Keeps p
  /-- The block knows the number of its entries. -/
  count_eq : b.count = p.entries.size
  /-- The block knows the size of its blob. -/
  size_eq : b.size = p.toBytes.length

theorem Keeps.accounts (h : b.Keeps p) (hcount : b.count = p.entries.size) : b.Accounts p :=
  ⟨h, hcount, by rw [h.size_eq, Packed.length_toBytes]⟩

theorem accounts_ofPacked (hp : p.WellFormed) : (ofPacked p).Accounts p :=
  (keeps_ofPacked hp).accounts (Packed.length_eq_iff.mpr hp.counted)

/-- A new block accounts for a string more. -/
theorem accounts_pushFacing (hp : p.WellFormed) {place : Place} {s : Bytes}
    (hsize : (p.pushFacing place s).size < Packed.sizeLimit) :
    ∃ b, (ofPacked p).pushFacing place s = .ok b ∧ b.Accounts (p.pushFacing place s) := by
  have hpush := keeps_pushFacing hp place s
  rw [pushFacing_ofPacked, if_pos hsize] at hpush ⊢
  obtain ⟨hkeeps, hcount⟩ := hpush
  refine ⟨_, rfl, hkeeps.accounts ?_⟩
  rw [hcount, Packed.length_eq_iff.mpr hp.counted, Packed.size_pushFacing]

end Block

namespace Chain

variable {c : Chain} {b : Block} {p q r : Packed} {i k : Nat}

/-! ### Blocks by number -/

/-- Block number `i` accounts for a packed list. -/
def HoldsAt (c : Chain) (i : Nat) (p : Packed) : Prop :=
  ∃ b, c.block i = .ok b ∧ b.Accounts p

/-- From block number `i` on, the blocks account for these packed lists, one after the other. -/
def HoldsFrom (c : Chain) : (i : Nat) → List Packed → Prop
  | _, [] => True
  | i, p :: ps => c.HoldsAt i p ∧ c.HoldsFrom (i + 1) ps

theorem block_set (c : Chain) (hi : i < c.cells.size) (cell : Cell) (j : Nat) :
    { c with cells := c.cells.set i cell }.block j =
      if j = i then .ok cell.block else c.block j := by
  simp only [block]
  rw [Array.getElem?_set]
  by_cases hj : j = i
  · rw [if_pos hj, if_pos hj.symm]
  · rw [if_neg hj, if_neg fun h => hj h.symm]

/-- However blocks are kept, they account for the same. -/
theorem enduring_holdsAt (i : Nat) (p : Packed) : Enduring (·.HoldsAt i p) := by
  refine .of_recode fun {c f} hf h j => ?_
  obtain ⟨b, hb, hp⟩ := h
  refine gives_modifyBlock fun hj b' hchanged => ?_
  dsimp only
  rw [HoldsAt, block_set c hj]
  split
  · next hij =>
    subst hij
    obtain rfl : c.cells[i].block = b := Except.ok.inj ((block_eq_ok hj).symm.trans hb)
    have hkept := (hf _ p hp.keeps).gives b' hchanged
    exact ⟨b', rfl, hkept.1.accounts (hkept.2.trans hp.count_eq)⟩
  · exact ⟨b, hb, hp⟩

/-- A block that comes in moves those behind it by one. -/
theorem gives_insertCell_block (c : Chain) (i : Nat) (new : Cell) :
    Gives (c.insertCell i new) fun c' => c'.block i = .ok new.block ∧
      (∀ j < i, c'.block j = c.block j) ∧ (∀ j ≥ i, c'.block (j + 1) = c.block j) ∧
        c'.ids = c.ids.take i ++ new.id :: c.ids.drop i := by
  refine gives_insertCell fun hi => ⟨?_, fun j hj => ?_, fun j hj => ?_, ?_⟩
  · simp only [block]
    rw [Array.getElem?_insertIdx, if_neg (Nat.lt_irrefl i), if_pos rfl, if_pos hi]
  · simp only [block]
    rw [Array.getElem?_insertIdx, if_pos hj]
  · simp only [block]
    rw [Array.getElem?_insertIdx, if_neg (by omega), if_neg (by omega), Nat.add_sub_cancel]
  · simp only [ids, Array.toList_insertIdx]
    rw [Packed.insertIdx_eq_take_drop _ (by simpa using hi), List.map_append, List.map_cons,
      List.map_take, List.map_drop]

/-! ### Names -/

/-- A name that is taken is that of no block. -/
theorem InOrder.takeId_not_mem (h : c.InOrder) : c.takeId.1 ∉ c.ids := by
  intro hmem
  have hlive := (h.isSome_link? _).mpr hmem
  rcases c.arena.alloc_free with ⟨hfree, -⟩ | ⟨-, hid, -⟩
  · have hvacant : c.takeId.1 ∈ c.vacant := by
      rw [vacant, hfree]
      exact List.mem_cons_self
    rw [((h.mem_vacant _).mp hvacant).2] at hlive
    contradiction
  · have hlt := Arena.lt_size_of_link? hlive
    rw [show c.takeId.1 = ⟨c.arena.nodes.size⟩ from hid] at hlt
    exact Nat.lt_irrefl _ hlt

/-! ### The split -/

/-- **A split never fails**, and all it touches is the block and the names. -/
theorem splitBlock_eq (hb : c.block i = .ok b) (hp : b.packed = .ok p) (hwell : p.WellFormed)
    (k : Nat) (place : Place) :
    ∃ (hi : i < c.cells.size) (b' : Block), b'.Accounts (p.halves k place).1 ∧
      c.splitBlock i k place = .ok
        ({ c.takeId.2 with cells := c.cells.set i ⟨c.cells[i].id, b'⟩ },
          ⟨c.takeId.1, .ofPacked (p.halves k place).2⟩) := by
  have hi : i < c.cells.size := by
    by_contra hi
    rw [block_eq_missing hi] at hb
    contradiction
  obtain rfl : c.cells[i].block = b := Except.ok.inj ((block_eq_ok hi).symm.trans hb)
  have hkept := (hwell.halves k place).1
  let b' : Block := {
    c.cells[i].block with
    content := .plain (p.halves k place).1
    size := (p.halves k place).1.size
    count := (p.halves k place).1.length
    tried := c.cells[i].block.tried && c.cells[i].block.content.isPlain }
  have hlen := Packed.length_eq_iff.mpr hkept.counted
  refine ⟨hi, b', (Block.keeps_plain rfl hkept).accounts hlen, ?_⟩
  rw [splitBlock, hb, ok_bind, hp, ok_bind]
  simp only [modifyBlock_eq c hi, Block.modify_eq hp, if_pos hkept.size_lt, ok_bind]
  rfl

/-- **What a split leaves**: block number `i` of `c` held `p` and was split at entry number `k`,
and what comes of it are the list `c'` and the block `new` beside it, with the halves `q` and
`r`. -/
structure Partitions (c : Chain) (i k : Nat) (place : Place) (p : Packed) (c' : Chain) (new : Cell)
    (q r : Packed) : Prop where
  /-- The halves divide the entries. -/
  divides : p.Divides k place q r
  /-- The block holds the half with the entry at which it was split, -/
  kept : c'.HoldsAt i q
  /-- so it is not empty. -/
  pos : 0 < q.entries.size
  /-- The new block holds the other half. -/
  accounts : new.block.Accounts r
  /-- The other blocks are what they were, -/
  block_eq : ∀ j, j ≠ i → c'.block j = c.block j
  /-- and all have kept their names. -/
  ids_eq : c'.ids = c.ids
  /-- The new block has a name that was free, -/
  id_eq : new.id = c.takeId.1
  /-- which is that of none of them. -/
  not_mem_ids : c.InOrder → new.id ∉ c'.ids
  /-- Besides its blocks and its names the list has not changed. -/
  rest_eq : c' = { c.takeId.2 with cells := c'.cells }
  /-- A string at the end of the one half that faces the other is at the cut. -/
  bodies_eq : ∀ s, (place.inOrder q (r.pushFacing place s)).flatMap Packed.bodies =
    p.bodies.take (place.cut k) ++ .ofBytes s :: p.bodies.drop (place.cut k)
  /-- The new block takes the string, -/
  pushFacing_eq : ∀ s, (r.pushFacing place s).size < Packed.sizeLimit →
    ∃ b, new.block.pushFacing place s = .ok b ∧ b.Accounts (r.pushFacing place s)
  /-- unless a header could not tell the size. -/
  pushFacing_eq_error : ∀ s, Packed.sizeLimit ≤ (r.pushFacing place s).size →
    new.block.pushFacing place s = .error .overflow
  /-- When it is linked, the two blocks stand in the order that the cut asks for. -/
  linked : ∀ b s, b.Accounts (r.pushFacing place s) →
    Gives (c'.linkBeside i place ⟨new.id, b⟩) fun c'' =>
      c''.HoldsFrom i (place.inOrder q (r.pushFacing place s)) ∧
        c''.ids = c'.ids.take (place.cut i) ++ new.id :: c'.ids.drop (place.cut i)

/-- A block is linked on the given side of the one that is there. -/
theorem HoldsAt.linkBeside (h : c.HoldsAt i q) (new : Cell) (hnew : new.block.Accounts r)
    (place : Place) :
    Gives (c.linkBeside i place new) fun c' => c'.HoldsFrom i (place.inOrder q r) ∧
      c'.ids = c.ids.take (place.cut i) ++ new.id :: c.ids.drop (place.cut i) := by
  have hinsert : Gives (c.linkCell (some i) place new) fun c' =>
      c'.block (place.cut i) = .ok new.block ∧ (∀ j < place.cut i, c'.block j = c.block j) ∧
        (∀ j ≥ place.cut i, c'.block (j + 1) = c.block j) ∧
          c'.ids = c.ids.take (place.cut i) ++ new.id :: c.ids.drop (place.cut i) :=
    gives_linkCell fun arena => gives_insertCell_block (c.withArena arena) _ new
  have hids := (outward_ids.enduring _).linkBeside (hinsert.imp fun _ h₁ => h₁.2.2.2)
  have hbeside := (enduring_holdsAt (place.cut i) r).linkBeside
    (hinsert.imp fun _ h₁ => ⟨new.block, h₁.1, hnew⟩)
  have hthere : Gives (c.linkBeside i place new) (·.HoldsAt (place.moved i) q) := by
    refine (enduring_holdsAt _ _).linkBeside (hinsert.imp fun c₁ h₁ => ?_)
    obtain ⟨b, hb, hq⟩ := h
    cases place with
    | before => exact ⟨b, (h₁.2.2.1 i (Nat.le_refl i)).trans hb, hq⟩
    | after => exact ⟨b, (h₁.2.1 i (Nat.lt_succ_self i)).trans hb, hq⟩
  refine ((hthere.and hbeside).and hids).imp fun c' hc' => ⟨?_, hc'.2⟩
  cases place with
  | before => exact ⟨hc'.1.2, hc'.1.1, trivial⟩
  | after => exact ⟨hc'.1.1, hc'.1.2, trivial⟩

/-- **A split cuts a block in two**, at every entry and on both sides of it. -/
theorem splitBlock_partitions (hb : c.block i = .ok b) (hp : b.packed = .ok p)
    (haccepted : Packed.ofBytes p.toBytes = .ok p) (hk : k < p.entries.size) (place : Place) :
    ∃ c' new q r, c.splitBlock i k place = .ok (c', new) ∧
      c.Partitions i k place p c' new q r := by
  have hwell : p.WellFormed := (Packed.ofBytes_eq_ok_iff.mp haccepted).2
  have hdivides := Packed.divides_halves hwell hk place
  have hsplit := (hwell.halves k place).2
  obtain ⟨hi, b', hkept, heq⟩ := splitBlock_eq hb hp hwell k place
  have hids := outward_ids c i hi b'
  have hblock := block_set c hi ⟨c.cells[i].id, b'⟩
  have hholds : HoldsAt { c.takeId.2 with cells := c.cells.set i ⟨c.cells[i].id, b'⟩ } i
      (p.halves k place).1 :=
    ⟨b', (hblock i).trans (if_pos rfl), hkept⟩
  refine ⟨_, _, (p.halves k place).1, (p.halves k place).2, heq, ?_⟩
  exact {
    divides := hdivides
    kept := hholds
    pos := (hdivides.size_entries hk).1
    accounts := Block.accounts_ofPacked hsplit
    block_eq := fun j hj => (hblock j).trans (if_neg hj)
    ids_eq := hids
    id_eq := rfl
    not_mem_ids := fun hc => hids ▸ hc.takeId_not_mem
    rest_eq := rfl
    bodies_eq := hdivides.bodies_inOrder
    pushFacing_eq := fun s hsize => Block.accounts_pushFacing hsplit hsize
    pushFacing_eq_error := fun s hsize => by
      rw [Block.pushFacing_ofPacked, if_neg (Nat.not_lt.mpr hsize)]
    linked := fun b s hs => hholds.linkBeside ⟨c.takeId.1, b⟩ hs place }

/-- Behind a long string the next one has a wide link, and keeps it at the head of a list of its
own. -/
theorem splitBlock_partitions_dammed :
    let c : Chain := { cells := #[⟨⟨0⟩, .ofPacked Packed.dammed⟩], arena := .row 1, count := 5 }
    ∃ c' new q r, c.splitBlock 0 0 .after = .ok (c', new) ∧
      c.Partitions 0 0 .after Packed.dammed c' new q r ∧ new.id = ⟨1⟩ ∧
        q.toBytes.length = 11 + 255 ∧ r.toBytes.length = 11 + (5 + 1 + 1) + 3 * 253 := by
  intro c
  obtain ⟨c', new, q, r, hsplit, h⟩ := splitBlock_partitions (c := c) (i := 0) (k := 0) rfl rfl
    (Packed.ofBytes_toBytes Packed.wellFormed_dammed) (by decide +kernel) .after
  obtain ⟨hfront, hback⟩ := h.divides
  refine ⟨c', new, q, r, hsplit, h, h.id_eq, ?_, ?_⟩
  · rw [hfront.length_toBytes]
    decide +kernel
  · rw [hback.length_toBytes]
    decide +kernel

end Chain

end UnrolledList
