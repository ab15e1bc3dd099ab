import UnrolledList.Proofs.Chain.Blockwise
import UnrolledList.Proofs.Chain.Refinement

/-!
# Whatever is asked of a list, its fill is kept to

What a fill preserves (`UnrolledList.Fill.Preserves`) every block keeps, through the actions
in which more than one block changes its list and through a whole run of a session
(`UnrolledList.Session.Follows.run_every`).

## Where a string goes

A string that is inserted beside an element goes into the block of the element or into its
neighbour, and then that block was asked; or into a block of its own, which has no need to be
asked; or into **the half that was split off**, and then nobody was
(`UnrolledList.Chain.Every.insertSplitting`). The merge sweep that follows asks again, about the
halves as they are by then.

## Counting again

An erasure drops entries without telling how many there were, so between its steps the number of
entries that a block records is not followed. When it has ended the list has a layout again, and a
layout counts (`UnrolledList.Chain.Every.counting`).
-/

namespace UnrolledList

namespace Chain

variable {c : Chain} {l : Layout} {fill : Fill} {beside onto : Bytes → Prop} {B : Packed → Prop}
  {C : Nat → Nat → Packed → Prop} {D : Nat → Packed → Prop} {i j k : Nat} {place : Place}
  {s : Bytes} {pre post : List Leaf} {x : Leaf}

namespace Every

/-! ### Merging and splitting -/

/-- Two blocks are merged that fit into one. -/
theorem mergeWithNext (h : c.Every fill fun _ => Packed.Counting B)
    (hB : fill.Preserves beside onto B)
    (hfits : ∀ a b, c.block i = .ok a → c.block (i + 1) = .ok b →
      fill.admitsMerge? a.size a.count b.size b.count = some true) :
    Gives (c.mergeWithNext i) (·.Every fill fun _ => Packed.Counting B) := by
  unfold Chain.mergeWithNext
  refine Gives.bind (q := fun b => c.block (i + 1) = .ok b) (fun _ hb => hb) fun right hright => ?_
  obtain ⟨q, hq, hqcount, hBq⟩ := h.block (i + 1) right hright
  rw [hq.packed_eq, ok_bind]
  have hmod : Gives (c.modifyBlock i fun left => do
      let n := left.count + right.count
      let left ← left.modify fun p => p ++ q
      return left.withCount n) (·.Every fill fun _ => Packed.Counting B) := by
    refine h.modifyBlock (fun left hread hleft => ?_) fun _ _ _ _ hC => hC
    obtain ⟨p, hp, hpcount, hBp⟩ := hleft
    refine (hp.modify (f := fun p => p ++ q) fun hsize =>
      hp.wellFormed.append hq.wellFormed hsize).gives.bind fun b' hb' => ?_
    refine gives_pure.mpr ⟨p ++ q, hb'.1.withCount _, ?_, ?_⟩
    · change left.count + right.count = _
      rw [hpcount, hqcount, ← Packed.length_texts, ← Packed.length_texts, ← Packed.length_texts,
        Packed.texts_append, List.length_append]
    · refine hB.join hBp hBq ?_
      rw [← hp.size_eq, ← hq.size_eq, ← hpcount, ← hqcount]
      exact hfits left right hread hright
  refine hmod.bind fun c₁ h₁ => ?_
  -- the block that is going records no entries any more, so nothing is asked of it
  have hcount : Gives (c₁.modifyBlock (i + 1) fun b => .ok (b.withCount 0))
      (·.Every fill fun j n p => j ≠ i + 1 → Packed.Counting B n p) := by
    refine h₁.modifyBlock (fun b _ hb => ?_) fun _ _ _ _ hC _ => hC
    obtain ⟨p, hp, -⟩ := hb
    exact gives_ok.mpr ⟨p, hp.withCount 0, fun hne => absurd rfl hne⟩
  refine hcount.bind fun c₂ h₂ => h₂.unlink.bind fun c₃ h₃ => h₃.recompress i

theorem mergeIfFits (h : c.Every fill fun _ => Packed.Counting B)
    (hB : fill.Preserves beside onto B) (i : Nat) :
    Gives (c.mergeIfFits i) (·.1.Every fill fun _ => Packed.Counting B) := by
  have hfill := h.fill_eq
  have hadmits : Gives (c.admitsMerge i) fun fits => fits = true → ∀ a b,
      c.block i = .ok a → c.block (i + 1) = .ok b →
        fill.admitsMerge? a.size a.count b.size b.count = some true := by
    unfold Chain.admitsMerge
    refine Gives.bind (q := fun a => c.block i = .ok a) (fun _ ha => ha) fun a ha => ?_
    refine Gives.bind (q := fun b => c.block (i + 1) = .ok b) (fun _ hb => hb) fun b hb => ?_
    split
    · next answer hanswer =>
      refine gives_pure.mpr fun htrue a' b' ha' hb' => ?_
      obtain rfl : a = a' := Except.ok.inj (ha.symm.trans ha')
      obtain rfl : b = b' := Except.ok.inj (hb.symm.trans hb')
      rw [← hfill, hanswer, htrue]
    · exact gives_error
  unfold Chain.mergeIfFits
  split
  · refine hadmits.bind fun fits hfits => ?_
    split
    · next htrue =>
      exact (h.mergeWithNext hB (hfits htrue)).bind fun c₁ h₁ => gives_pure.mpr h₁
    · exact gives_pure.mpr h
  · exact gives_ok.mpr h

theorem mergeBefore (h : c.Every fill fun _ => Packed.Counting B)
    (hB : fill.Preserves beside onto B) (i distance : Nat) :
    Gives (c.mergeBefore i distance) (·.1.Every fill fun _ => Packed.Counting B) := by
  unfold Chain.mergeBefore
  split
  · exact (h.mergeIfFits hB _).bind fun r hr => gives_pure.mpr hr
  · exact gives_ok.mpr h

theorem mergeAround (h : c.Every fill fun _ => Packed.Counting B)
    (hB : fill.Preserves beside onto B) (i : Nat) :
    Gives (c.mergeAround i) (·.Every fill fun _ => Packed.Counting B) := by
  unfold Chain.mergeAround
  refine (h.mergeBefore hB i 2).bind fun r₁ h₁ => ?_
  refine (h₁.mergeIfFits hB (r₁.2 + 1)).bind fun r₂ h₂ => ?_
  refine (h₂.mergeBefore hB r₁.2 1).bind fun r₃ h₃ => ?_
  exact (h₃.mergeIfFits hB r₃.2).bind fun r₄ h₄ => gives_pure.mpr h₄

/-- The half that is split off and has got its string. -/
theorem holding_pushFacing {q : Packed} (hq : q.WellFormed) (hB : B (q.pushFacing place s)) :
    Gives ((Block.ofPacked q).pushFacing place s) (Block.Holding (Packed.Counting B)) := by
  refine (Block.keeps_pushFacing hq place s).gives.imp fun b hb => ⟨_, hb.1, ?_, hB⟩
  rw [hb.2, Packed.length_eq_iff.mpr hq.counted, Packed.size_pushFacing]

/-- **A split asks nobody.** One half stays, and the other one gets the string. -/
theorem insertSplitting (h : c.Every fill fun _ => Packed.Counting B)
    (hB : fill.Preserves beside onto B) (hs : beside s)
    (hk : ∀ b, c.block i = .ok b → k < b.count) (place : Place) :
    Gives (c.insertSplitting i k place s) (·.Every fill fun _ => Packed.Counting B) := by
  unfold Chain.insertSplitting
  have hat := h.of_block (Q := fun n _ => k < n) fun b _ hb _ => hk b hb
  refine (hat.openForUse i).bind fun c₁ h₁ => ?_
  -- both halves are made of the list as it is read, before the block is changed
  have hsplit : Gives (c₁.splitBlock i k place) fun r =>
      r.1.Every fill (fun _ => Packed.Counting B) ∧
        Gives (r.2.block.pushFacing place s) (Block.Holding (Packed.Counting B)) := by
    unfold Chain.splitBlock
    refine Gives.bind (q := fun b => c₁.block i = .ok b) (fun _ hb => hb) fun b hb => ?_
    obtain ⟨p, hp, ⟨hcount, hBp⟩, hlt⟩ := h₁.block i b hb
    rw [hp.packed_eq, ok_bind]
    have hlt' : k < p.entries.size := hcount ▸ hlt rfl
    obtain ⟨hwell₁, hwell₂⟩ := hp.wellFormed.halves k place
    have hmod : Gives (c₁.modifyBlock i fun b => do
        let b ← b.modify fun _ => (p.halves k place).1
        return b.withCount (p.halves k place).1.length)
        (·.Every fill fun _ => Packed.Counting B) := by
      refine h₁.modifyBlock (fun b' _ hb' => ?_) fun _ _ _ _ hC => hC.1
      refine hb'.modify fun _ _ _ => ⟨fun _ => hwell₁, ?_⟩
      exact ⟨Packed.length_eq_iff.mpr hwell₁.counted, hB.kept hBp k place⟩
    refine hmod.bind fun c₂ h₂ => gives_pure.mpr ⟨h₂.takeId, ?_⟩
    exact holding_pushFacing hwell₂ (hB.split place hp.wellFormed hlt' hBp hs)
  refine hsplit.bind fun r hr => hr.2.bind fun b hb => ?_
  exact (hr.1.linkBeside ⟨r.2.id, b⟩ hb i place).bind fun c₃ h₃ => h₃.mergeAround hB _

/-! ### Inserting -/

theorem insertWithin (h : c.Every fill (Packed.Admitting fill B i s.length))
    (hB : fill.Preserves beside onto B) (entry : Cursor) (place : Place) :
    Gives (c.insertWithin i entry place s) (·.Every fill fun _ => Packed.Counting B) := by
  refine (h.openForUse i).bind fun c₁ h₁ => ?_
  have hmod := h₁.grow hB (g := fun p => p.insertIdx (place.cut entry.idx) s) fun p => ⟨_, rfl⟩
  exact hmod.bind fun c₂ h₂ => h₂.settle i

theorem insertInNeighbour (h : c.Every fill (Packed.Admitting fill B j s.length))
    (hB : fill.Preserves beside onto B) (i : Nat) (facing : Side) :
    Gives (c.insertInNeighbour i j facing s) (·.Every fill fun _ => Packed.Counting B) := by
  refine (h.openForUse j).bind fun c₁ h₁ => (h₁.pushInto hB facing).bind fun c₂ h₂ => ?_
  exact (h₂.settle j).bind fun c₃ h₃ => h₃.settle i

theorem insertBeyond (h : c.Every fill fun _ => Packed.Counting B)
    (hB : fill.Preserves beside onto B) (hs : beside s) {k : Int}
    (hk : ∀ b, c.block i = .ok b → k.toNat < b.count) (place : Place) :
    Gives (c.insertBeyond i k place s) (·.Every fill fun _ => Packed.Counting B) := by
  unfold Chain.insertBeyond
  refine Gives.bind_any fun neighbour => ?_
  cases neighbour with
  | none => exact h.insertSplitting hB hs hk place
  | some neighbour =>
    obtain ⟨j, facing⟩ := neighbour
    refine (h.admits j s.length).bind fun admitted hadmitted => ?_
    split
    · next htrue => exact (hadmitted htrue).insertInNeighbour hB i facing
    · refine (holding_singleton hB s).bind fun b hb => ?_
      exact h.takeId.linkBeside ⟨c.takeId.1, b⟩ hb i place

/-- **A string is inserted beside an element**, whose block is asked first. -/
theorem insertBeside (h : c.Every fill fun _ => Packed.Counting B)
    (hB : fill.Preserves beside onto B) (hb : beside s) (hl : c.Has l) (hs : l.Sound)
    {handle : Handle} (hn : handle.Names l pre x post k) (place : Place) :
    Gives (c.insertBeside handle place s) (·.Every fill fun _ => Packed.Counting B) := by
  have hk := natCast_of_idxOf? hn.offset_eq
  have hlt := hl.lt_of_names hn
  obtain ⟨b, hread, -, hcount⟩ := hl.block_eq hn.leaves_eq
  rw [Chain.insertBeside, hl.checkFresh hn.stamp_eq, ok_bind, hn.block_eq,
    hl.idxOf_eq hs hn.leaves_eq, ok_bind, hread, ok_bind, hcount]
  dsimp only
  rw [hk]
  refine (h.admits pre.length s.length).bind fun admitted hadmitted => ?_
  cases admitted with
  | true =>
    refine ((hadmitted rfl).insertWithin hB handle.place place).bind fun c₁ h₁ => ?_
    exact gives_pure.mpr (h₁.withCount _).touch
  | false =>
    refine (h.insertBeyond hB hb (k := k) hlt place).bind fun c₁ h₁ => ?_
    exact gives_pure.mpr (h₁.withCount _).touch

theorem insertAtEnd (h : c.Every fill fun _ => Packed.Counting B)
    (hB : fill.Preserves beside onto B) (place : Place) (s : Bytes) :
    Gives (c.insert none place s) (·.Every fill fun _ => Packed.Counting B) := by
  unfold Chain.insert
  exact (h.push hB _ s).bind fun r hr => gives_pure.mpr hr

/-! ### Erasing -/

theorem eraseWithin (h : c.Every fill fun _ _ => B) (hB : fill.Preserves beside onto B) (i : Nat)
    (offset : Int) (n : Nat) :
    Gives (c.eraseWithin i offset n) (·.1.Every fill fun _ _ => B) := by
  unfold Chain.eraseWithin
  refine (h.openForUse i).bind fun c₁ h₁ => ?_
  have hmod : Gives (c₁.modifyBlock i fun b => do
      let left ← subtract b.count n
      let b ← b.modify fun p => (p.eraseRange offset n).1
      return b.withCount left) (·.Every fill fun _ _ => B) := by
    refine h₁.modifyBlock (fun b _ hb => Gives.bind_any fun left => ?_) fun _ _ _ _ hC => hC
    exact hb.modify fun p hp hC => ⟨hp.eraseRange, hB.eraseRange hC offset n⟩
  refine hmod.bind fun c₂ h₂ => Gives.bind_any fun left => Gives.bind_any fun b => ?_
  have h₃ := h₂.withCount left
  dsimp only
  split
  · exact (unlink (D := fun _ => B) (h₃.imp fun _ _ _ _ hC _ => hC)).bind fun c₄ h₄ =>
      gives_pure.mpr h₄
  · exact (h₃.settle i).bind fun c₄ h₄ => gives_pure.mpr h₄

theorem eraseFrom (h : c.Every fill fun _ _ => B) (hB : fill.Preserves beside onto B)
    (blocks i : Nat) (offset : Int) (extent : Nat) :
    Gives (eraseFrom blocks i offset extent c) (·.Every fill fun _ _ => B) := by
  induction blocks generalizing c i offset extent with
  | zero => exact gives_ok.mpr h
  | succ blocks ih =>
    rw [Chain.eraseFrom]
    split
    · exact gives_ok.mpr h
    · refine Gives.bind_any fun b => ?_
      dsimp only
      split
      · exact (unlink (D := fun _ => B) (h.imp fun _ _ _ _ hC _ => hC)).bind fun c₁ h₁ =>
          ih h₁ _ _ _
      · exact (h.eraseWithin hB _ _ _).bind fun r hr => ih hr _ _ _

theorem eraseRange (h : c.Every fill fun _ _ => B) (hB : fill.Preserves beside onto B)
    (start n : Int) : Gives (c.eraseRange start n) (·.1.Every fill fun _ _ => B) := by
  unfold Chain.eraseRange
  split
  · exact gives_ok.mpr h
  · refine (h.find? start).bind fun r hr => ?_
    obtain ⟨c₁, found⟩ := r
    cases found with
    | none => exact gives_pure.mpr hr
    | some found => exact (eraseFrom hr hB _ _ _ _).bind fun c₂ h₂ => gives_pure.mpr h₂.touch

/-! ### Layouts -/

/-- **A layout in order counts** the entries of every block. -/
theorem counting (h : c.Every fill fun _ _ => B) (hl : c.Has l) (hs : l.Sound) :
    c.Every fill fun _ => Packed.Counting B := by
  obtain ⟨hfill, depth, n, h⟩ := h
  refine ⟨hfill, depth, n, h.depth_eq, h.length_eq, fun i hi => ?_⟩
  obtain ⟨p, hp, hBp⟩ := h.each i hi
  have hlt : i < l.leaves.length := by
    rw [← hl.length_eq]
    exact hi
  obtain ⟨pre, x, post, hsplit, rfl⟩ := l.exists_leaf hlt
  obtain ⟨hlt', hshows⟩ := hl.getElem_cells hsplit
  have hlist : x.list = p := Except.ok.inj (hshows.keeps.packed_eq.symm.trans hp.packed_eq)
  refine ⟨p, hp, ?_, hBp⟩
  rw [hshows.count_eq, hs.counted_split hsplit, hlist]

/-- A copy keeps the same lists. -/
theorem duplicate (h : c.Every fill fun _ => D) : c.duplicate.Every fill fun _ => D := by
  obtain ⟨hfill, depth, n, h⟩ := h
  refine ⟨hfill, depth, n, h.depth_eq, ?_, fun i hi => ?_⟩
  · rw [← h.length_eq]
    simp [Chain.duplicate, Chain.length]
  · have hi' : i < c.cells.size := by simpa [Chain.duplicate] using hi
    obtain ⟨p, hp, hD⟩ := h.each i hi'
    simp only [Chain.duplicate, Array.getElem_mapIdx]
    exact ⟨p, hp.of_content rfl rfl, hD⟩

end Every

end Chain

/-! ### Walks -/

namespace Walk

open Chain

variable {c : Chain} {w : Walk} {fill : Fill} {beside onto : Bytes → Prop} {B : Packed → Prop}
  {C : Nat → Nat → Packed → Prop}

theorem every_openBlock (h : c.Every fill C) (w : Walk) (i : Nat) :
    Gives (w.openBlock c i) (·.Every fill C) := by
  unfold openBlock
  split
  · exact h.openForUse i
  · exact h.recode i fun _ _ hb => hb.inflate

theorem every_nextAmong (h : c.Every fill C) (w : Walk) (blocks : Nat) :
    Gives (w.nextAmong blocks c) (·.2.1.Every fill C) := by
  induction blocks generalizing w c with
  | zero => exact gives_ok.mpr h
  | succ blocks ih =>
    rw [nextAmong]
    split
    · exact gives_ok.mpr h
    · refine (every_openBlock h w _).bind fun c₁ h₁ => ?_
      refine Gives.bind_any fun b => Gives.bind_any fun p => Gives.bind_any fun found => ?_
      cases found with
      | some handle => exact gives_pure.mpr h₁
      | none => exact (h₁.recompress _).bind fun c₂ h₂ => ih h₂ _

theorem every_finish (h : c.Every fill C) (w : Walk) : Gives (w.finish c) (·.Every fill C) := by
  unfold finish
  split
  · exact h.recompress _
  · exact gives_ok.mpr h

theorem every_erase (h : c.Every fill fun _ _ => B) (hB : fill.Preserves beside onto B) (w : Walk)
    (handle : Handle) : Gives (w.erase c handle) (·.2.1.Every fill fun _ _ => B) := by
  unfold erase
  split
  · exact gives_error
  · split
    · exact (h.eraseAt hB _ _).bind fun r hr => gives_pure.mpr hr.touch
    · exact gives_error

end Walk

/-! ### Sessions -/

namespace Action

/-- Whether the action leaves the fill alone and adds no block that was made elsewhere. -/
def keepsFill : Action → Bool
  | .append _ | .appendBytes _ | .setFill _ => false
  | _ => true

/-- Whether the action overwrites an element. -/
def overwrites : Action → Bool
  | .replace _ _ | .replaceAt _ _ => true
  | _ => false

/-- What an action may do under a fill that is to preserve a property: it keeps the fill, and its
strings are of the kinds that are allowed. -/
def Obeys (beside onto : Bytes → Prop) : Action → Prop
  | .insertBeside _ _ t => beside t
  | .replace _ t | .replaceAt _ t => onto t
  | .append _ | .appendBytes _ | .setFill _ => False
  | _ => True

theorem obeys_of_keepsFill {a : Action} (h : a.keepsFill) :
    a.Obeys (fun _ => True) fun _ => True := by
  cases a with
  | append | appendBytes | setFill => contradiction
  | _ => trivial

/-- Whether a string is inserted beside an element by one of several actions. -/
def InsertsBeside (as : List Action) (t : Bytes) : Prop :=
  ∃ handle place, .insertBeside handle place t ∈ as

theorem obeys_of_mem {a : Action} {as : List Action} (hmem : a ∈ as) (h : a.keepsFill)
    (hover : ¬ a.overwrites) : a.Obeys (InsertsBeside as) fun _ => False := by
  cases a with
  | append | appendBytes | setFill | replace | replaceAt => simp_all [keepsFill, overwrites]
  | insertBeside handle place t => exact ⟨handle, place, hmem⟩
  | _ => trivial

end Action

namespace Session

open Chain

variable {s : Session} {m : Ledger} {fill : Fill} {beside onto : Bytes → Prop}
  {B : Packed → Prop} {a : Action} {as : List Action}

/-- Whatever a walk erases, every block keeps the property. -/
theorem every_follow (h : s.chain.Every fill fun _ _ => B) (hB : fill.Preserves beside onto B)
    (w : Walk) (script : List Bool) (met : List Bytes) :
    Gives (follow script w s met) (·.1.chain.Every fill fun _ _ => B) := by
  induction script generalizing w s met with
  | nil => exact (Walk.every_finish h w).bind fun c hc => gives_pure.mpr hc
  | cons erasing script ih =>
    rw [follow]
    refine (Walk.every_nextAmong h w _).bind fun r hr => ?_
    obtain ⟨w₁, c₁, found⟩ := r
    cases found with
    | none => exact (Walk.every_finish hr w₁).bind fun c hc => gives_pure.mpr hc
    | some handle =>
      cases erasing with
      | true => exact (Walk.every_erase hr hB w₁ handle).bind fun r hr => ih hr _ _
      | false => exact ih (s := (s.withChain c₁).hold [handle]) hr _ _

/-- **An action keeps the property**, and the layout counts the entries afterwards. -/
theorem Follows.every (h : s.Follows m) (hB : fill.Preserves beside onto B)
    (ha : a.Obeys beside onto) (hc : s.chain.Every fill fun _ => Packed.Counting B) :
    Gives (s.perform a) fun r => r.1.chain.Every fill fun _ => Packed.Counting B := by
  -- some of the actions lose count on the way, so none of them is followed with its numbers
  have hloose : Gives (s.perform a) fun r => r.1.chain.Every fill fun _ _ => B := by
    obtain ⟨l, hl, hs, -, hheld⟩ := h
    cases a with
    | push side t => exact (hc.push hB side t).bind fun r hr => gives_pure.mpr hr.loosen
    | pop side => exact (hc.loosen.pop hB side).bind fun r hr => gives_pure.mpr hr
    | get i => exact (hc.loosen.get? i).bind fun r hr => gives_pure.mpr hr
    | index i => exact (hc.loosen.index i).bind fun r hr => gives_pure.mpr hr
    | insertAtEnd place t =>
      exact (hc.insertAtEnd hB place t).bind fun c hc => gives_pure.mpr hc.loosen
    | eraseRange start n =>
      exact (hc.loosen.eraseRange hB start n).bind fun r hr => gives_pure.mpr hr
    | rotate => exact (hc.rotate hB).bind fun c hc => gives_pure.mpr hc
    | appendValues p =>
      exact (hc.pushAll hB p.val.values).bind fun c hc => gives_pure.mpr hc.loosen
    | setDepth depth =>
      obtain ⟨hfill, depth', n, hn⟩ := hc.loosen
      exact gives_ok.mpr ⟨hfill, _, n, rfl, hn.length_eq, hn.each⟩
    | duplicate => exact gives_ok.mpr hc.loosen.duplicate
    | append p => exact ha.elim
    | appendBytes blob => exact ha.elim
    | setFill setting => exact ha.elim
    | insertBeside number place t =>
      rw [Session.perform]
      rcases marks_of_held hheld number with ⟨hnone, -⟩ | ⟨handle, k, hsome, -, hmarks⟩
      · rw [hnone]
        exact gives_ok.mpr hc.loosen
      · rw [hsome]
        obtain ⟨pre, x, post, j, hnames, -⟩ := hmarks
        exact (hc.insertBeside hB ha hl hs hnames place).bind fun c hc => gives_pure.mpr hc.loosen
    | replace number t =>
      rw [Session.perform]
      rcases marks_of_held hheld number with ⟨hnone, -⟩ | ⟨handle, k, hsome, -, hmarks⟩
      · rw [hnone]
        exact gives_ok.mpr hc.loosen
      · rw [hsome]
        obtain ⟨pre, x, post, j, hnames, -⟩ := hmarks
        exact (hc.replace hB ha hl hs hnames).bind fun c hc => gives_pure.mpr hc
    | replaceAt i t => exact (hc.replaceAt hB ha hl hs i).bind fun r hr => gives_pure.mpr hr
    | walk origin i script =>
      refine gives_walk (Q := (·.Every fill fun _ _ => B)) hc.loosen hc.loosen.find?
        (fun c w hr => ?_) origin i
      exact every_follow (s := s.withChain c) hr hB w script []
  refine (hloose.and (h.perform a).gives).imp fun r hr => ?_
  obtain ⟨hevery, ⟨l, hl, hs, -, -⟩, -⟩ := hr
  exact hevery.counting hl hs

/-- **So do several actions.** -/
theorem Follows.run_every (h : s.Follows m) (hB : fill.Preserves beside onto B)
    (has : ∀ a ∈ as, a.Obeys beside onto) (hc : s.chain.Every fill fun _ => Packed.Counting B) :
    Gives (s.run as) fun r => r.1.chain.Every fill fun _ => Packed.Counting B := by
  induction as generalizing s m with
  | nil => exact gives_ok.mpr hc
  | cons a as ih =>
    obtain ⟨ha, has⟩ := List.forall_mem_cons.mp has
    rw [Session.run]
    refine ((h.every hB ha hc).and (h.perform a).gives).bind fun r hr => ?_
    obtain ⟨hevery, hfollows, -⟩ := hr
    exact (ih hfollows has hevery).bind fun r' hr' => gives_pure.mpr hr'

/-- The empty list has no block that could lack a property. -/
theorem every_ofOptions (setting depth : Int) (C : Nat → Nat → Packed → Prop) :
    (ofOptions setting depth).chain.Every (.ofSetting setting) C :=
  ⟨rfl, _, 0, rfl, rfl, fun i hi => absurd hi i.not_lt_zero⟩

end Session

end UnrolledList
