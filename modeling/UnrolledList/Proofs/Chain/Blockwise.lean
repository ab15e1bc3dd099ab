import UnrolledList.Proofs.Chain.Inserting
import UnrolledList.Proofs.Chain.Upkeep

/-!
# What a fill does to every block

A fill is asked before an entry goes into a block, and before two blocks become one. What
comes of it is a property that every block has, whatever was done to the list. Here it is
said once what such a property has to keep (`UnrolledList.Fill.Preserves`), and followed
through every step that changes the list of one block.

What the property has to keep is, for each way in which a packed list comes to be that of a
block, one clause. Most of the clauses have the answer of the fill as a hypothesis. Two have
not, and for these it is said of which strings they are asked: a string that is inserted
**beside** an element may end up in a half of a block that was not asked, and a string that
is written **over** an element is never asked about.

Opening a block, settling it and restoring the boundaries play no part, because they change
how a list is kept and not which one it is. So the operations are followed on what blocks
keep (`UnrolledList.Block.Holding`), block by block (`UnrolledList.Chain.Every`). As long as a
fill may be asked it matters that the block knows its number of entries
(`UnrolledList.Packed.Counting`).
-/

namespace UnrolledList

namespace Packed

/-- The list has the property, and so many entries as are recorded. -/
def Counting (B : Packed → Prop) (n : Nat) (p : Packed) : Prop :=
  n = p.entries.size ∧ B p

/-- Besides, if it is that of block number `i`, one more entry of `len` bytes is admitted. -/
def Admitting (fill : Fill) (B : Packed → Prop) (i len j n : Nat) (p : Packed) : Prop :=
  Counting B n p ∧ (j = i → fill.admits? p.size n len = some true)

end Packed

/-- **A property that the packed lists of blocks keep under a fill.** The strings that may be
inserted beside an element have `beside`, and those that may be written over one have
`onto`. -/
structure Fill.Preserves (fill : Fill) (beside onto : Bytes → Prop) (B : Packed → Prop) :
    Prop where
  /-- A string in a block of its own. -/
  alone : ∀ s, B (Packed.empty.push s)
  /-- A string in a block that admits it. -/
  grow : ∀ {p : Packed} (k : Nat) {s : Bytes}, p.WellFormed → B p →
    fill.admits? p.size p.entries.size s.length = some true → B (p.insertIdx k s)
  /-- A block from which something is erased. -/
  shrink : ∀ {p : Packed} (k num : Nat), B p → B (p.eraseIdx k num)
  /-- Two blocks that fit into one. -/
  join : ∀ {p q : Packed}, B p → B q →
    fill.admitsMerge? p.size p.entries.size q.size q.entries.size = some true → B (p ++ q)
  /-- A string in the half of a block that was split off. -/
  split : ∀ {p : Packed} {k : Nat} (place : Place) {s : Bytes}, p.WellFormed →
    k < p.entries.size → B p → beside s → B ((p.halves k place).2.pushFacing place s)
  /-- A string in the place of another one. -/
  overwrite : ∀ {p : Packed} {k : Nat} {s : Bytes}, k < p.entries.size → B p → onto s →
    B ((p.eraseIdx k 1).insertIdx k s)

namespace Fill.Preserves

variable {fill : Fill} {beside onto : Bytes → Prop} {B : Packed → Prop} {p : Packed}

theorem eraseRange (hB : fill.Preserves beside onto B) (hp : B p) (i : Int) (num : Nat) :
    B (p.eraseRange i num).1 := by
  unfold Packed.eraseRange
  split
  · exact hp
  · exact hB.shrink _ _ hp

/-- The half that the block keeps. -/
theorem kept (hB : fill.Preserves beside onto B) (hp : B p) (k : Nat) (place : Place) :
    B (p.halves k place).1 := by
  cases place with
  | after => exact hB.eraseRange hp _ _
  | before => exact hB.eraseRange hp _ _

end Fill.Preserves

/-! ### Blocks -/

namespace Block

variable {C C' : Nat → Packed → Prop} {b : Block}

/-- The block keeps a packed list that has the property, given the number of entries that is
recorded. -/
def Holding (C : Nat → Packed → Prop) (b : Block) : Prop :=
  ∃ p, b.Keeps p ∧ C b.count p

theorem Holding.imp (h : b.Holding C) (himp : ∀ p : Packed, p.WellFormed → C b.count p →
    C' b.count p) : b.Holding C' := by
  obtain ⟨p, hp, hC⟩ := h
  exact ⟨p, hp, himp p hp.wellFormed hC⟩

/-- However the list is kept, it is the same. -/
theorem Holding.recode (h : b.Holding C) {f : Block → Except Fault Block}
    (hf : ∀ (b : Block) (p : Packed), b.Keeps p →
      Ensures (f b) fun b' => b'.Keeps p ∧ b'.count = b.count) :
    Gives (f b) (Holding C) := by
  obtain ⟨p, hp, hC⟩ := h
  refine (hf b p hp).gives.imp fun b' hb' => ⟨p, hb'.1, ?_⟩
  rw [hb'.2]
  exact hC

/-- A change of the list, after which so many entries are recorded. -/
theorem Holding.modify (h : b.Holding C) {f : Packed → Packed} {n : Nat}
    (hf : ∀ p : Packed, p.WellFormed → C b.count p →
      ((f p).size < Packed.sizeLimit → (f p).WellFormed) ∧ C' n (f p)) :
    Gives (do let b' ← b.modify f; return b'.withCount n) (Holding C') := by
  obtain ⟨p, hp, hC⟩ := h
  obtain ⟨hwell, hC'⟩ := hf p hp.wellFormed hC
  refine (hp.modify hwell).gives.bind fun b' hb' => ?_
  exact gives_pure.mpr ⟨f p, hb'.1.withCount n, hC'⟩

end Block

namespace Chain

variable {c : Chain} {l : Layout} {fill : Fill} {beside onto : Bytes → Prop} {B : Packed → Prop}
  {C C' : Nat → Nat → Packed → Prop} {D : Nat → Packed → Prop} {f : Block → Except Fault Block}
  {new : Cell} {i j k depth n : Nat} {place : Place} {s : Bytes} {pre post : List Leaf} {x : Leaf}

/-! ### What is seen without opening a block -/

/-- A view of a list **from outside of its blocks**: it does not change with what is in them. -/
def Outward {α : Type} (view : Chain → α) : Prop :=
  ∀ (c : Chain) (i : Nat) (h : i < c.cells.size) (b : Block),
    view { c with cells := c.cells.set i ⟨c.cells[i].id, b⟩ } = view c

theorem outward_fill : Outward Chain.fill :=
  fun _ _ _ _ => rfl

theorem outward_ids : Outward Chain.ids := by
  intro c i h b
  have hid : (c.cells.toList.map Cell.id).set i c.cells[i].id = c.cells.toList.map Cell.id := by
    rw [← Array.getElem_toList, ← List.getElem_map (h := by simpa using h) Cell.id,
      List.set_getElem_self]
  simp only [ids, Array.toList_set, List.map_set, hid]

namespace Outward

variable {α : Type} {view : Chain → α}

theorem modifyBlock (h : Outward view) (c : Chain) (i : Nat) (f : Block → Except Fault Block) :
    Gives (c.modifyBlock i f) fun c' => view c' = view c :=
  gives_modifyBlock fun hi b _ => h c i hi b

/-- What is seen from outside does not change with how the blocks are kept. -/
theorem enduring (h : Outward view) (v : α) : Enduring fun c => view c = v where
  keepPlain hc i := (h.modifyBlock _ i _).imp fun _ h₁ => h₁.trans hc
  compress hc i := (h.modifyBlock _ i _).imp fun _ h₁ => h₁.trans hc
  settle hc i := (h.modifyBlock _ i _).imp fun _ h₁ => h₁.trans hc

end Outward

theorem gives_fill_removeCell (c : Chain) (i : Nat) :
    Gives (c.removeCell i) fun r => r.1.fill = c.fill :=
  gives_removeCell fun _ _ => rfl

theorem gives_fill_unlink (c : Chain) (i : Nat) :
    Gives (c.unlink i) fun c' => c'.fill = c.fill :=
  (outward_fill.enduring _).unlink ((gives_fill_removeCell c i).imp fun _ hr _ => hr)

/-! ### Every block -/

/-- The chain has the fill, and every block holds what its number asks for. -/
structure Every (c : Chain) (fill : Fill) (C : Nat → Nat → Packed → Prop) : Prop where
  /-- The fill. -/
  fill_eq : c.fill = fill
  /-- The blocks. -/
  exists_each : ∃ depth n, c.Each depth n fun i _ b => b.Holding (C i)

/-- A block that is read is the one there is. -/
theorem Each.self {R : Nat → BlockId → Block → Prop} (h : c.Each depth n R) :
    c.Each depth n fun i id b => R i id b ∧ c.block i = .ok b :=
  ⟨h.depth_eq, h.length_eq, fun i hi => ⟨h.each i hi, block_eq_ok hi⟩⟩

/-- The entry that a handle names is one of the block. -/
theorem Has.lt_of_names (hl : c.Has l) {handle : Handle} (hn : handle.Names l pre x post k) :
    ∀ b, c.block pre.length = .ok b → k < b.count := by
  intro b hb
  obtain ⟨b', hb', -, hcount⟩ := hl.block_eq hn.leaves_eq
  obtain rfl : b = b' := Except.ok.inj (hb.symm.trans hb')
  rw [hcount]
  exact hn.lt

namespace Every

theorem imp (h : c.Every fill C)
    (himp : ∀ i n (p : Packed), p.WellFormed → C i n p → C' i n p) : c.Every fill C' := by
  obtain ⟨hfill, depth, n, h⟩ := h
  exact ⟨hfill, depth, n, h.imp fun i _ _ _ hb => hb.imp fun p hp hC => himp i _ p hp hC⟩

/-- What is known of the block with a number is asked for there. -/
theorem of_block (h : c.Every fill C) {Q : Nat → Packed → Prop}
    (hQ : ∀ b p, c.block i = .ok b → b.Keeps p → Q b.count p) :
    c.Every fill fun j n p => C j n p ∧ (j = i → Q n p) := by
  obtain ⟨hfill, depth, n, h⟩ := h
  refine ⟨hfill, depth, n, h.self.imp fun j _ b _ hb => ?_⟩
  obtain ⟨⟨p, hp, hC⟩, hread⟩ := hb
  refine ⟨p, hp, hC, ?_⟩
  rintro rfl
  exact hQ b p hread hp

theorem withCount (h : c.Every fill C) (n : Nat) : (c.withCount n).Every fill C := by
  obtain ⟨hfill, depth, n', h⟩ := h
  exact ⟨hfill, depth, n', h.withCount n⟩

theorem touch (h : c.Every fill C) : c.touch.Every fill C := by
  obtain ⟨hfill, depth, n, h⟩ := h
  exact ⟨hfill, depth, n, h.touch⟩

theorem takeId (h : c.Every fill C) : c.takeId.2.Every fill C := by
  obtain ⟨hfill, depth, n, h⟩ := h
  exact ⟨hfill, depth, n, h.takeId⟩

theorem withArena (h : c.Every fill C) (arena : Arena) : (c.withArena arena).Every fill C := by
  obtain ⟨hfill, depth, n, h⟩ := h
  exact ⟨hfill, depth, n, h.withArena arena⟩

theorem block (h : c.Every fill C) (i : Nat) : Gives (c.block i) (Block.Holding (C i)) := by
  obtain ⟨-, depth, n, h⟩ := h
  exact (h.block i).imp fun b hb => hb.2.elim fun _ hb => hb

/-! #### Changing blocks -/

theorem modifyBlock (h : c.Every fill C)
    (hf : ∀ b, c.block i = .ok b → b.Holding (C i) → Gives (f b) (Block.Holding (C' i)))
    (hother : ∀ j n (p : Packed), j ≠ i → C j n p → C' j n p) :
    Gives (c.modifyBlock i f) (·.Every fill C') := by
  obtain ⟨hfill, depth, n, h⟩ := h
  have hmod : Gives (c.modifyBlock i f) (·.Each depth n fun j _ b => b.Holding (C' j)) := by
    refine h.self.modifyBlock (fun _ b _ hb => hf b hb.2 hb.1) fun j _ b hj hb => ?_
    exact hb.1.imp fun p _ hC => hother j _ p hj hC
  refine ((outward_fill.modifyBlock c i f).and hmod).imp fun c' hc' => ?_
  exact ⟨hc'.1.trans hfill, depth, n, hc'.2⟩

/-- However the blocks are kept, they hold the same. -/
theorem recode (h : c.Every fill C) (i : Nat)
    (hf : ∀ (b : Block) (p : Packed), b.Keeps p →
      Ensures (f b) fun b' => b'.Keeps p ∧ b'.count = b.count) :
    Gives (c.modifyBlock i f) (·.Every fill C) :=
  h.modifyBlock (fun _ _ hb => hb.recode hf) fun _ _ _ _ hC => hC

theorem enduring : Enduring (·.Every fill C) :=
  .of_recode fun hf h i => h.recode i hf

theorem openForUse (h : c.Every fill C) (i : Nat) : Gives (c.openForUse i) (·.Every fill C) :=
  h.recode i fun _ _ hb => hb.openForUse

theorem settle (h : c.Every fill C) (i : Nat) : Gives (c.settle i) (·.Every fill C) :=
  h.recode i fun _ _ hb => hb.settle

theorem recompress (h : c.Every fill C) (i : Nat) : Gives (c.recompress i) (·.Every fill C) :=
  enduring.recompress h i

/-- A change of the list of a block. -/
theorem rewrite (h : c.Every fill C) {g : Packed → Packed} {m : Nat → Nat}
    (hg : ∀ n (p : Packed), p.WellFormed → C i n p →
      ((g p).size < Packed.sizeLimit → (g p).WellFormed) ∧ C' i (m n) (g p))
    (hother : ∀ j n (p : Packed), j ≠ i → C j n p → C' j n p) :
    Gives (c.modifyBlock i fun b => do let b' ← b.modify g; return b'.withCount (m b.count))
      (·.Every fill C') :=
  h.modifyBlock (fun b _ hb => hb.modify fun p hp hC => hg b.count p hp hC) hother

/-! #### Blocks that come and go -/

theorem insertCell (h : c.Every fill fun _ => D) (hnew : new.block.Holding D) (i : Nat) :
    Gives (c.insertCell i new) (·.Every fill fun _ => D) := by
  obtain ⟨hfill, depth, n, h⟩ := h
  have hins : Gives (c.insertCell i new) (·.Each depth (n + 1) fun _ _ b => b.Holding D) :=
    h.insertCell hnew (fun _ _ _ _ _ hb => hb) fun _ _ _ _ _ hb => hb
  have hsame : Gives (c.insertCell i new) fun c' => c'.fill = c.fill :=
    gives_insertCell fun _ => rfl
  refine (hsame.and hins).imp fun c' hc' => ?_
  exact ⟨hc'.1.trans hfill, depth, n + 1, hc'.2⟩

theorem linkCell (h : c.Every fill fun _ => D) (hnew : new.block.Holding D)
    (beside : Option Nat) (place : Place) :
    Gives (c.linkCell beside place new) (·.Every fill fun _ => D) :=
  gives_linkCell fun arena => (h.withArena arena).insertCell hnew _

theorem linkBeside (h : c.Every fill fun _ => D) (new : Cell) (hnew : new.block.Holding D)
    (i : Nat) (place : Place) : Gives (c.linkBeside i place new) (·.Every fill fun _ => D) :=
  enduring.linkBeside (h.linkCell hnew _ _)

theorem linkAt (h : c.Every fill fun _ => D) (new : Cell) (hnew : new.block.Holding D)
    (side : Side) : Gives (c.linkAt side new) (·.Every fill fun _ => D) :=
  enduring.linkAt (h.linkCell hnew) side

/-- Of the block that goes nothing is asked. -/
theorem unlink (h : c.Every fill fun j n p => j ≠ i → D n p) :
    Gives (c.unlink i) (·.Every fill fun _ => D) := by
  obtain ⟨hfill, depth, n, h⟩ := h
  have hremove : Gives (c.removeCell i) (·.1.Each depth (n - 1) fun _ _ b => b.Holding D) := by
    refine h.removeCell (fun j _ b _ hj hb => ?_) fun j _ b _ hj hb => ?_
    · exact hb.imp fun p _ hD => hD (by omega)
    · exact hb.imp fun p _ hD => hD (by omega)
  refine enduring.unlink (((gives_fill_removeCell c i).and hremove).imp fun r hr left => ?_)
  exact withCount ⟨hr.1.trans hfill, depth, n - 1, hr.2⟩ left

/-- An entry that is erased. How many are left is not followed. -/
theorem eraseAt (h : c.Every fill fun _ _ => B) (hB : fill.Preserves beside onto B) (i k : Nat) :
    Gives (c.eraseAt i k) (·.1.Every fill fun _ _ => B) := by
  have hmod : Gives (c.modifyBlock i fun b => do
      let n ← subtract b.count 1
      let b ← b.modify fun p => p.eraseIdx k 1
      return b.withCount n) (·.Every fill fun _ _ => B) := by
    refine h.modifyBlock (fun b _ hb => Gives.bind_any fun n => ?_) fun _ _ _ _ hC => hC
    exact hb.modify fun p hp hC => ⟨hp.eraseIdx, hB.shrink k 1 hC⟩
  unfold Chain.eraseAt
  refine hmod.bind fun c₁ h₁ => Gives.bind_any fun b => ?_
  dsimp only
  split
  · refine (unlink (D := fun _ => B) (h₁.imp fun _ _ _ _ hC _ => hC)).bind fun c₂ h₂ => ?_
    refine Gives.bind_any fun m => ?_
    exact gives_pure.mpr (h₂.withCount m)
  · rw [pure_bind]
    exact Gives.bind_any fun m => gives_pure.mpr (h₁.withCount m)

/-! ### Ends -/

/-- An answer is one about the list that the block keeps. -/
theorem admits (h : c.Every fill fun _ => Packed.Counting B) (i n : Nat) :
    Gives (c.admits i n) fun admitted =>
      admitted = true → c.Every fill (Packed.Admitting fill B i n) := by
  have hfill := h.fill_eq
  unfold Chain.admits
  refine Gives.bind (q := fun b => c.block i = .ok b) (fun _ hb => hb) fun b hb => ?_
  split
  · next answer hanswer =>
    -- the fill has seen numbers only, and they are those of the list that the block keeps
    refine gives_pure.mpr fun htrue => h.of_block fun b' p hb' hp => ?_
    obtain rfl : b = b' := Except.ok.inj (hb.symm.trans hb')
    rw [← hfill, ← hp.size_eq, hanswer, htrue]
  · exact gives_error

/-- An entry goes into a block that admits it. -/
theorem grow (h : c.Every fill (Packed.Admitting fill B i s.length))
    (hB : fill.Preserves beside onto B) {g : Packed → Packed}
    (hg : ∀ p : Packed, ∃ k, g p = p.insertIdx k s) :
    Gives (c.modifyBlock i fun b => do
      let n := b.count
      let b ← b.modify g
      return b.withCount (n + 1)) (·.Every fill fun _ => Packed.Counting B) := by
  refine h.rewrite (fun n p hp hC => ?_) fun _ _ _ _ hC => hC.1
  obtain ⟨⟨rfl, hBp⟩, hadmits⟩ := hC
  obtain ⟨k, hk⟩ := hg p
  rw [hk]
  exact ⟨hp.insertIdx, (p.size_insertIdx k s).symm, hB.grow k hp hBp (hadmits rfl)⟩

theorem pushInto (h : c.Every fill (Packed.Admitting fill B i s.length))
    (hB : fill.Preserves beside onto B) (side : Side) :
    Gives (c.pushInto i side s) (·.Every fill fun _ => Packed.Counting B) := by
  cases side with
  | head => exact h.grow hB (g := fun p => p.pushFront s) fun p => ⟨0, rfl⟩
  | tail => exact h.grow hB (g := fun p => p.push s) fun p => ⟨_, (p.insertIdx_size s).symm⟩

theorem holding_singleton (hB : fill.Preserves beside onto B) (s : Bytes) :
    Gives (Block.singleton s) (Block.Holding (Packed.Counting B)) := by
  refine (Block.keeps_singleton s).gives.imp fun b hb => ⟨_, hb.1, ?_, hB.alone s⟩
  rw [hb.2, ← Packed.length_texts, Packed.texts_push, Packed.texts_empty]
  rfl

theorem push (h : c.Every fill fun _ => Packed.Counting B) (hB : fill.Preserves beside onto B)
    (side : Side) (s : Bytes) :
    Gives (c.push side s) (·.1.Every fill fun _ => Packed.Counting B) := by
  have hadmitting : Gives (c.admittingEnd? side s.length) fun found => ∀ i, found = some i →
      c.Every fill (Packed.Admitting fill B i s.length) := by
    unfold Chain.admittingEnd?
    split
    · exact gives_ok.mpr fun _ hnone => by contradiction
    · refine (h.admits _ s.length).bind fun admitted hadmitted => gives_pure.mpr fun i hi => ?_
      split at hi
      · next htrue =>
        obtain rfl := Option.some.inj hi
        exact hadmitted htrue
      · contradiction
  unfold Chain.push
  refine hadmitting.bind fun found hfound => ?_
  cases found with
  | some i =>
    refine ((hfound i rfl).pushInto hB side).bind fun c₁ h₁ => ?_
    exact gives_pure.mpr (h₁.withCount _).touch
  | none =>
    refine (holding_singleton hB s).bind fun b hb => ?_
    refine (h.takeId.linkAt ⟨c.takeId.1, b⟩ hb side).bind fun c₁ h₁ => ?_
    exact gives_pure.mpr (h₁.withCount _).touch

theorem pushAll (h : c.Every fill fun _ => Packed.Counting B) (hB : fill.Preserves beside onto B)
    (vs : List Value) : Gives (c.pushAll vs) (·.Every fill fun _ => Packed.Counting B) := by
  induction vs generalizing c with
  | nil => exact gives_ok.mpr h
  | cons v vs ih => exact (h.push hB .tail v.render).bind fun r hr => ih hr

/-- Where a fill is not asked, the number of entries is not needed. -/
theorem loosen (h : c.Every fill fun _ => Packed.Counting B) : c.Every fill fun _ _ => B :=
  h.imp fun _ _ _ _ hC => hC.2

theorem outermost? (h : c.Every fill C) (side : Side) :
    Gives (c.outermost? side) (·.1.Every fill C) := by
  unfold Chain.outermost?
  split
  · exact gives_ok.mpr h
  · refine (h.recode _ fun _ _ hb => hb.inflate).bind fun c₁ h₁ => ?_
    exact Gives.bind_any fun b => Gives.bind_any fun p => gives_pure.mpr h₁

theorem pop (h : c.Every fill fun _ _ => B) (hB : fill.Preserves beside onto B) (side : Side) :
    Gives (c.pop side) (·.1.Every fill fun _ _ => B) := by
  unfold Chain.pop
  split
  · exact gives_ok.mpr h
  · refine (h.outermost? side).bind fun r hr => ?_
    obtain ⟨c₁, found⟩ := r
    cases found with
    | none => exact gives_pure.mpr hr
    | some found => exact (eraseAt hr hB _ _).bind fun r hr => gives_pure.mpr hr.touch

theorem rotate (h : c.Every fill fun _ => Packed.Counting B) (hB : fill.Preserves beside onto B) :
    Gives c.rotate (·.Every fill fun _ _ => B) := by
  unfold Chain.rotate
  split
  · exact gives_ok.mpr h.loosen
  · refine (h.outermost? .tail).bind fun r hr => ?_
    obtain ⟨c₁, found⟩ := r
    cases found with
    | none => exact gives_pure.mpr (loosen hr)
    | some found =>
      refine (push hr hB .head found.2.2.render).bind fun r₂ h₂ => ?_
      refine (h₂.outermost? .tail).bind fun r₃ h₃ => ?_
      obtain ⟨c₃, last⟩ := r₃
      cases last with
      | none => exact gives_pure.mpr (loosen h₃).touch
      | some last => exact (eraseAt (loosen h₃) hB _ _).bind fun r hr => gives_pure.mpr hr.touch

/-! ### Handles -/

theorem find? (h : c.Every fill C) (index : Int) :
    Gives (c.find? index) (·.1.Every fill C) := by
  unfold Chain.find?
  split
  · exact gives_ok.mpr h
  · refine (h.openForUse _).bind fun c₁ h₁ => Gives.bind_any fun b => Gives.bind_any fun p => ?_
    split
    · exact gives_pure.mpr h₁
    · exact Gives.bind_any fun found => gives_pure.mpr h₁

theorem index (h : c.Every fill C) (index : Int) :
    Gives (c.index index) (·.1.Every fill C) :=
  (h.find? index).bind fun _ hr => gives_pure.mpr hr

theorem get? (h : c.Every fill C) (index : Int) :
    Gives (c.get? index) (·.1.Every fill C) := by
  unfold Chain.get?
  refine (h.find? index).bind fun r hr => ?_
  obtain ⟨c₁, found⟩ := r
  cases found with
  | none => exact gives_pure.mpr hr
  | some found => exact (Every.settle hr _).bind fun c₂ h₂ => gives_pure.mpr h₂

/-- An entry that is there is overwritten. -/
theorem overwrite (h : c.Every fill fun _ => Packed.Counting B) (hB : fill.Preserves beside onto B)
    (hs : onto s) (hk : ∀ b, c.block i = .ok b → k < b.count) :
    Gives (c.overwrite i k s) (·.Every fill fun _ _ => B) := by
  have hmod : Gives (c.modifyBlock i fun b => b.modify fun p => (p.eraseIdx k 1).insertIdx k s)
      (·.Every fill fun _ _ => B) := by
    refine h.modifyBlock (fun b hread hb => ?_) fun _ _ _ _ hC => hC.2
    obtain ⟨p, hp, hcount, hBp⟩ := hb
    refine (hp.modify fun hsize => ?_).gives.imp fun b' hb' => ⟨_, hb'.1, ?_⟩
    · -- what is too long before the insertion is too long after it
      have hle := Packed.size_le_insertIdx (p.eraseIdx k 1) k s
      exact (hp.wellFormed.eraseIdx (Nat.lt_of_le_of_lt hle hsize)).insertIdx hsize
    · exact hB.overwrite (hcount ▸ hk b hread) hBp hs
  unfold Chain.overwrite
  refine hmod.bind fun c₁ h₁ => (h₁.recompress i).bind fun c₂ h₂ => ?_
  exact gives_pure.mpr h₂.touch

/-- A handle names an entry that is there, -/
theorem replace (h : c.Every fill fun _ => Packed.Counting B) (hB : fill.Preserves beside onto B)
    (ho : onto s) (hl : c.Has l) (hs : l.Sound) {handle : Handle}
    (hn : handle.Names l pre x post k) :
    Gives (c.replace handle s) (·.Every fill fun _ _ => B) := by
  unfold Chain.replace
  rw [hl.checkFresh hn.stamp_eq, hn.block_eq, hl.idxOf_eq hs hn.leaves_eq, hn.idx_eq]
  exact h.overwrite hB ho (hl.lt_of_names hn)

/-- and so does an index that finds one. -/
theorem replaceAt (h : c.Every fill fun _ => Packed.Counting B) (hB : fill.Preserves beside onto B)
    (ho : onto s) (hl : c.Has l) (hs : l.Sound) (i : Int) :
    Gives (c.replaceAt i s) (·.1.Every fill fun _ _ => B) := by
  unfold Chain.replaceAt
  cases hi : Packed.idxOf? l.count i with
  | none =>
    rw [hl.find?_eq_none hi]
    exact gives_ok.mpr h.loosen
  | some pos =>
    refine ((h.find? i).and (hl.find?_eq hs hi).gives).bind fun r hr => ?_
    obtain ⟨c₁, found⟩ := r
    obtain ⟨h₁, hl₁, pre, x, post, k, handle, rfl, hn, -⟩ := hr
    refine (overwrite h₁ hB ho (k := handle.place.idx) ?_).bind fun c₂ h₂ => gives_pure.mpr h₂
    rw [hn.idx_eq]
    exact Has.lt_of_names hl₁ hn

end Every

end Chain

end UnrolledList
