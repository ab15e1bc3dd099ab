import UnrolledList.Chain.Copy
import UnrolledList.Chain.Insert
import UnrolledList.Chain.Range
import UnrolledList.Proofs.Chain.Renaming

/-!
# Operations have no use for names

**Lists that differ in names alone do the same**, operation by operation, and still differ in
names alone. What an operation answers beside the list is the same on both sides, but for
handles: they carry a name and a stamp, so the handle on one side is the renamed one of the
other (`UnrolledList.Renaming.handle`). Such a handle is good on both sides or on none
(`UnrolledList.Chain.Renamed.checkFresh_eq`), and leads to the same block.

A copy is the exception that proves the point. It gives its blocks names of its own, and those
do not depend on what names the list had, so copies of renamed lists are equal
(`UnrolledList.Chain.Renamed.duplicate_eq`).
-/

namespace UnrolledList

namespace Chain

namespace Renamed

variable {ρ : Renaming} {c c' : Chain}

/-! ### Ends -/

theorem pushInto (h : c.Renamed ρ c') (i : Nat) (side : Side) (s : Bytes) :
    Concur (Chain.Renamed ρ) (c.pushInto i side s) (c'.pushInto i side s) :=
  h.modifyBlock i _

/-- A new block is put where the other one is put, under the name that stands for the other
name. -/
theorem linkTaken (h : c.Renamed ρ c') (side : Side) (b : Block) :
    Concur (Chain.Renamed ρ) (c.takeId.2.linkAt side ⟨c.takeId.1, b⟩)
      (c'.takeId.2.linkAt side ⟨c'.takeId.1, b⟩) := by
  obtain ⟨hid, htaken⟩ := h.takeId
  rw [hid]
  exact htaken.linkAt side ⟨c.takeId.1, b⟩

theorem push (h : c.Renamed ρ c') (side : Side) (s : Bytes) :
    Concur (RenamedBeside ρ id) (c.push side s) (c'.push side s) := by
  unfold Chain.push
  rw [h.admittingEnd?_eq]
  refine Concur.bind_same fun admitting => ?_
  cases admitting with
  | some i => exact (h.pushInto i side s).bind fun c₁ c₁' h₁ => concur_pure ⟨h₁.countUp, rfl⟩
  | none =>
    refine Concur.bind_same fun b => ?_
    exact (h.linkTaken side b).bind fun c₁ c₁' h₁ => concur_pure ⟨h₁.countUp, rfl⟩

theorem pushAll (h : c.Renamed ρ c') (vs : List Value) :
    Concur (Chain.Renamed ρ) (c.pushAll vs) (c'.pushAll vs) := by
  induction vs generalizing c c' with
  | nil => exact .ok h
  | cons v vs ih => exact (h.push .tail v.render).bind_beside fun c₁ c₁' _ h₁ => ih h₁

theorem appendBlock (h : c.Renamed ρ c') (p : Packed) :
    Concur (Chain.Renamed ρ) (c.appendBlock p) (c'.appendBlock p) := by
  unfold Chain.appendBlock
  split
  · exact .ok h
  · dsimp only
    rw [h.count_eq]
    exact (h.linkTaken .tail _).bind fun c₁ c₁' h₁ => concur_pure (h₁.withCount _).touch

theorem outermost? (h : c.Renamed ρ c') (side : Side) :
    Concur (RenamedBeside ρ id) (c.outermost? side) (c'.outermost? side) := by
  unfold Chain.outermost?
  rw [h.endIdx?_eq]
  split
  · exact .ok ⟨h, rfl⟩
  · refine (h.modifyBlock _ _).bind fun c₁ c₁' h₁ => ?_
    rw [h₁.block_eq]
    exact Concur.bind_same fun b => Concur.bind_same fun p => concur_pure ⟨h₁, rfl⟩

theorem pop (h : c.Renamed ρ c') (side : Side) :
    Concur (RenamedBeside ρ id) (c.pop side) (c'.pop side) := by
  unfold Chain.pop
  rw [h.count_eq]
  split
  · exact .ok ⟨h, rfl⟩
  · refine (h.outermost? side).bind_beside fun c₁ c₁' found h₁ => ?_
    cases found with
    | none => exact concur_pure ⟨h₁, rfl⟩
    | some found =>
      exact (h₁.eraseAt _ _).bind_beside fun c₂ c₂' _ h₂ => concur_pure ⟨h₂.touch, rfl⟩

theorem rotate (h : c.Renamed ρ c') : Concur (Chain.Renamed ρ) c.rotate c'.rotate := by
  unfold Chain.rotate
  rw [h.count_eq]
  split
  · exact .ok h
  · refine (h.outermost? .tail).bind_beside fun c₁ c₁' found h₁ => ?_
    cases found with
    | none => exact concur_pure h₁
    | some found =>
      refine (h₁.push .head _).bind_beside fun c₂ c₂' _ h₂ => ?_
      refine (h₂.outermost? .tail).bind_beside fun c₃ c₃' last h₃ => ?_
      cases last with
      | none => exact concur_pure h₃.touch
      | some last => exact (h₃.eraseAt _ _).bind_beside fun c₄ c₄' _ h₄ => concur_pure h₄.touch

/-! ### Handles -/

/-- Where an index leads is told by counts. -/
theorem locate?_eq (h : c.Renamed ρ c') (i : Int) : c'.locate? i = c.locate? i := by
  have hforward : ∀ j k, seekForward? c'.cells j k = seekForward? c.cells j k := by
    intro j k
    fun_induction seekForward? c.cells j k with
    | case1 j k hj n hk =>
      have hj' : j < c'.cells.size := h.size_eq.symm ▸ hj
      have hcell : c'.cells[j].block = c.cells[j].block := by simp [h.cells_eq, Renaming.cell]
      rw [seekForward?, dif_pos hj']
      simp only [hcell]
      exact if_pos hk
    | case2 j k hj n hk ih =>
      have hj' : j < c'.cells.size := h.size_eq.symm ▸ hj
      have hcell : c'.cells[j].block = c.cells[j].block := by simp [h.cells_eq, Renaming.cell]
      rw [seekForward?, dif_pos hj']
      simp only [hcell]
      exact (if_neg hk).trans ih
    | case3 j k hj =>
      have hj' : ¬ j < c'.cells.size := h.size_eq.symm ▸ hj
      rw [seekForward?, dif_neg hj']
  have hbackward : ∀ j k, seekBackward? c'.cells j k = seekBackward? c.cells j k := by
    intro j
    induction j with
    | zero => exact fun _ => rfl
    | succ j ih =>
      intro k
      rw [seekBackward?, seekBackward?, h.getElem?_eq]
      cases c.cells[j]? with
      | none => rfl
      | some cell => simp only [Option.map_some, Renaming.cell, ih]
  simp only [locate?, h.count_eq, h.length_eq, hforward, hbackward]

/-- The handle that is made carries the other name and the other stamp. -/
theorem handleAt? (h : c.Renamed ρ c') (i : Nat) (place : Cursor) (offset : Int) :
    Concur (fun r r' => r' = r.map ρ.handle) (c.handleAt? i place offset)
      (c'.handleAt? i place offset) := by
  unfold Chain.handleAt?
  rw [h.block_eq, h.id?_eq, h.stamp_eq]
  refine Concur.bind_same fun b => Concur.bind_same fun p => concur_pure ?_
  cases c.id? i with
  | none => rfl
  | some id => cases p.get? place <;> rfl

theorem find? (h : c.Renamed ρ c') (i : Int) :
    Concur (RenamedBeside ρ (Option.map (Prod.map id ρ.handle))) (c.find? i) (c'.find? i) := by
  unfold Chain.find?
  rw [h.locate?_eq]
  split
  · exact .ok ⟨h, rfl⟩
  · next j offset _ =>
    refine (h.openForUse j).bind fun c₁ c₁' h₁ => ?_
    rw [h₁.block_eq]
    refine Concur.bind_same fun b => Concur.bind_same fun p => ?_
    split
    · exact concur_pure ⟨h₁, rfl⟩
    · refine (h₁.handleAt? j _ offset).bind ?_
      rintro found _ rfl
      exact concur_pure ⟨h₁, by cases found <;> rfl⟩

theorem index (h : c.Renamed ρ c') (i : Int) :
    Concur (RenamedBeside ρ (Option.map ρ.handle)) (c.index i) (c'.index i) := by
  refine (h.find? i).bind_beside fun c₁ c₁' found h₁ => ?_
  exact concur_pure ⟨h₁, by cases found <;> rfl⟩

theorem get? (h : c.Renamed ρ c') (i : Int) :
    Concur (RenamedBeside ρ id) (c.get? i) (c'.get? i) := by
  refine (h.find? i).bind_beside fun c₁ c₁' found h₁ => ?_
  cases found with
  | none => exact concur_pure ⟨h₁, rfl⟩
  | some found => exact (h₁.settle found.1).bind fun c₂ c₂' h₂ => concur_pure ⟨h₂, rfl⟩

theorem overwrite (h : c.Renamed ρ c') (i k : Nat) (s : Bytes) :
    Concur (Chain.Renamed ρ) (c.overwrite i k s) (c'.overwrite i k s) := by
  refine (h.modifyBlock i _).bind fun c₁ c₁' h₁ => ?_
  exact (h₁.recompress i).bind fun c₂ c₂' h₂ => concur_pure h₂.touch

/-- **A handle is good on both sides or on none.** -/
theorem checkFresh_eq (h : c.Renamed ρ c') (handle : Handle) :
    c'.checkFresh (ρ.handle handle) = c.checkFresh handle := by
  rw [checkFresh, checkFresh, h.stamp_eq]
  simp only [Renaming.handle, UInt64.sub_left_inj]

theorem replace (h : c.Renamed ρ c') (handle : Handle) (s : Bytes) :
    Concur (Chain.Renamed ρ) (c.replace handle s) (c'.replace (ρ.handle handle) s) := by
  unfold Chain.replace
  rw [h.checkFresh_eq]
  refine Concur.bind_same fun _ => ?_
  change Concur _ _ (c'.idxOf (ρ.name handle.block) >>= _)
  rw [h.idxOf_eq]
  exact Concur.bind_same fun i => h.overwrite i _ s

theorem replaceAt (h : c.Renamed ρ c') (i : Int) (s : Bytes) :
    Concur (RenamedBeside ρ id) (c.replaceAt i s) (c'.replaceAt i s) := by
  refine (h.find? i).bind_beside fun c₁ c₁' found h₁ => ?_
  cases found with
  | none => exact concur_pure ⟨h₁, rfl⟩
  | some found => exact (h₁.overwrite _ _ s).bind fun c₂ c₂' h₂ => concur_pure ⟨h₂, rfl⟩

/-! ### Merging and splitting -/

theorem mergeWithNext (h : c.Renamed ρ c') (i : Nat) :
    Concur (Chain.Renamed ρ) (c.mergeWithNext i) (c'.mergeWithNext i) := by
  unfold Chain.mergeWithNext
  rw [h.block_eq]
  refine Concur.bind_same fun right => Concur.bind_same fun q => ?_
  refine (h.modifyBlock i _).bind fun c₁ c₁' h₁ => ?_
  refine (h₁.modifyBlock (i + 1) _).bind fun c₂ c₂' h₂ => ?_
  exact (h₂.unlink (i + 1)).bind fun c₃ c₃' h₃ => h₃.recompress i

theorem mergeIfFits (h : c.Renamed ρ c') (i : Nat) :
    Concur (RenamedBeside ρ id) (c.mergeIfFits i) (c'.mergeIfFits i) := by
  unfold Chain.mergeIfFits
  rw [h.length_eq, h.admitsMerge_eq]
  split
  · refine Concur.bind_same fun fits => ?_
    split
    · exact (h.mergeWithNext i).bind fun c₁ c₁' h₁ => concur_pure ⟨h₁, rfl⟩
    · exact concur_pure ⟨h, rfl⟩
  · exact .ok ⟨h, rfl⟩

theorem mergeBefore (h : c.Renamed ρ c') (i distance : Nat) :
    Concur (RenamedBeside ρ id) (c.mergeBefore i distance) (c'.mergeBefore i distance) := by
  unfold Chain.mergeBefore
  split
  · exact (h.mergeIfFits _).bind_beside fun c₁ c₁' merged h₁ => concur_pure ⟨h₁, rfl⟩
  · exact .ok ⟨h, rfl⟩

theorem mergeAround (h : c.Renamed ρ c') (i : Nat) :
    Concur (Chain.Renamed ρ) (c.mergeAround i) (c'.mergeAround i) := by
  refine (h.mergeBefore i 2).bind_beside fun c₁ c₁' j h₁ => ?_
  refine (h₁.mergeIfFits (j + 1)).bind_beside fun c₂ c₂' _ h₂ => ?_
  refine (h₂.mergeBefore j 1).bind_beside fun c₃ c₃' k h₃ => ?_
  exact (h₃.mergeIfFits k).bind_beside fun c₄ c₄' _ h₄ => concur_pure h₄

theorem splitBlock (h : c.Renamed ρ c') (i k : Nat) (place : Place) :
    Concur (RenamedBeside ρ ρ.cell) (c.splitBlock i k place) (c'.splitBlock i k place) := by
  unfold Chain.splitBlock
  rw [h.block_eq]
  refine Concur.bind_same fun b => Concur.bind_same fun p => ?_
  refine (h.modifyBlock i _).bind fun c₁ c₁' h₁ => ?_
  obtain ⟨hid, htaken⟩ := h₁.takeId
  exact concur_pure ⟨htaken, congrArg (Cell.mk · _) hid⟩

theorem insertSplitting (h : c.Renamed ρ c') (i k : Nat) (place : Place) (s : Bytes) :
    Concur (Chain.Renamed ρ) (c.insertSplitting i k place s) (c'.insertSplitting i k place s) := by
  refine (h.openForUse i).bind fun c₁ c₁' h₁ => ?_
  refine (h₁.splitBlock i k place).bind_beside fun c₂ c₂' half h₂ => ?_
  refine Concur.bind_same fun b => ?_
  exact (h₂.linkBeside i place ⟨half.id, b⟩).bind fun c₃ c₃' h₃ => h₃.mergeAround _

/-! ### Inserting -/

theorem insertWithin (h : c.Renamed ρ c') (i : Nat) (entry : Cursor) (place : Place)
    (s : Bytes) :
    Concur (Chain.Renamed ρ) (c.insertWithin i entry place s)
      (c'.insertWithin i entry place s) := by
  refine (h.openForUse i).bind fun c₁ c₁' h₁ => ?_
  exact (h₁.modifyBlock i _).bind fun c₂ c₂' h₂ => h₂.settle i

theorem insertInNeighbour (h : c.Renamed ρ c') (i j : Nat) (facing : Side) (s : Bytes) :
    Concur (Chain.Renamed ρ) (c.insertInNeighbour i j facing s)
      (c'.insertInNeighbour i j facing s) := by
  refine (h.openForUse j).bind fun c₁ c₁' h₁ => (h₁.pushInto j facing s).bind fun c₂ c₂' h₂ => ?_
  exact (h₂.settle j).bind fun c₃ c₃' h₃ => h₃.settle i

theorem insertBeyond (h : c.Renamed ρ c') (i : Nat) (k : Int) (place : Place) (s : Bytes) :
    Concur (Chain.Renamed ρ) (c.insertBeyond i k place s) (c'.insertBeyond i k place s) := by
  have hneighbour : c'.neighbourAt? i k place = c.neighbourAt? i k place := by
    simp only [neighbourAt?, h.block_eq, h.length_eq]
  unfold Chain.insertBeyond
  rw [hneighbour]
  refine Concur.bind_same fun neighbour => ?_
  cases neighbour with
  | none => exact h.insertSplitting i k.toNat place s
  | some neighbour =>
    obtain ⟨j, facing⟩ := neighbour
    dsimp only
    rw [h.admits_eq]
    refine Concur.bind_same fun admitted => ?_
    split
    · exact h.insertInNeighbour i j facing s
    · refine Concur.bind_same fun b => ?_
      obtain ⟨hid, htaken⟩ := h.takeId
      rw [hid]
      exact htaken.linkBeside i place ⟨c.takeId.1, b⟩

theorem insertBeside (h : c.Renamed ρ c') (handle : Handle) (place : Place) (s : Bytes) :
    Concur (Chain.Renamed ρ) (c.insertBeside handle place s)
      (c'.insertBeside (ρ.handle handle) place s) := by
  unfold Chain.insertBeside
  rw [h.checkFresh_eq]
  refine Concur.bind_same fun _ => ?_
  change Concur _ _ (c'.idxOf (ρ.name handle.block) >>= _)
  rw [h.idxOf_eq]
  refine Concur.bind_same fun i => ?_
  rw [h.block_eq, h.admits_eq]
  refine Concur.bind_same fun b => Concur.bind_same fun admitted => ?_
  cases admitted with
  | true =>
    exact (h.insertWithin i handle.place place s).bind fun c₁ c₁' h₁ => concur_pure h₁.countUp
  | false => exact (h.insertBeyond i _ place s).bind fun c₁ c₁' h₁ => concur_pure h₁.countUp

theorem insert (h : c.Renamed ρ c') (handle : Option Handle) (place : Place) (s : Bytes) :
    Concur (Chain.Renamed ρ) (c.insert handle place s)
      (c'.insert (handle.map ρ.handle) place s) := by
  cases handle with
  | some handle => exact h.insertBeside handle place s
  | none => exact (h.push _ s).bind_beside fun c₁ c₁' _ h₁ => concur_pure h₁

/-! ### Erasing -/

theorem eraseWithin (h : c.Renamed ρ c') (i : Nat) (offset : Int) (n : Nat) :
    Concur (RenamedBeside ρ id) (c.eraseWithin i offset n) (c'.eraseWithin i offset n) := by
  refine (h.openForUse i).bind fun c₁ c₁' h₁ => ?_
  refine (h₁.modifyBlock i _).bind fun c₂ c₂' h₂ => ?_
  rw [h₂.count_eq]
  refine Concur.bind_same fun left => ?_
  have h₃ := h₂.withCount left
  dsimp only
  rw [h₃.block_eq]
  refine Concur.bind_same fun b => ?_
  split
  · exact (h₃.unlink i).bind fun c₄ c₄' h₄ => concur_pure ⟨h₄, rfl⟩
  · exact (h₃.settle i).bind fun c₄ c₄' h₄ => concur_pure ⟨h₄, rfl⟩

theorem eraseFrom (h : c.Renamed ρ c') (blocks i : Nat) (offset : Int) (extent : Nat) :
    Concur (Chain.Renamed ρ) (eraseFrom blocks i offset extent c)
      (eraseFrom blocks i offset extent c') := by
  induction blocks generalizing c c' i offset extent with
  | zero => exact .ok h
  | succ blocks ih =>
    rw [Chain.eraseFrom, Chain.eraseFrom]
    split
    · exact .ok h
    · rw [h.block_eq]
      refine Concur.bind_same fun b => ?_
      dsimp only
      split
      · exact (h.unlink i).bind fun c₁ c₁' h₁ => ih h₁ _ _ _
      · exact (h.eraseWithin i offset _).bind_beside fun c₁ c₁' gone h₁ => ih h₁ _ _ _

theorem eraseRange (h : c.Renamed ρ c') (start n : Int) :
    Concur (RenamedBeside ρ id) (c.eraseRange start n) (c'.eraseRange start n) := by
  unfold Chain.eraseRange
  split
  · exact .ok ⟨h, rfl⟩
  · dsimp only
    rw [h.count_eq]
    refine (h.find? start).bind_beside fun c₁ c₁' found h₁ => ?_
    cases found with
    | none => exact concur_pure ⟨h₁, rfl⟩
    | some found =>
      change Concur _ _ (Chain.eraseFrom (c₁'.length - found.1) found.1 found.2.offset _ c₁' >>= _)
      rw [h₁.length_eq]
      exact (h₁.eraseFrom _ _ _ _).bind fun c₂ c₂' h₂ => concur_pure ⟨h₂.touch, rfl⟩

/-! ### Copies -/

/-- **Copies know nothing of the names** that the list had. -/
theorem duplicate_eq (h : c.Renamed ρ c') : c'.duplicate = c.duplicate := by
  have hcells : c'.duplicate.cells = c.duplicate.cells := by
    refine Array.ext (by simp [Chain.duplicate, h.size_eq]) fun i hi hi' => ?_
    simp [Chain.duplicate, h.cells_eq, Renaming.cell]
  have hcount : c'.duplicate.count = c.duplicate.count := by
    simp only [Chain.duplicate, h.cells_eq, Array.foldl_map]
    rfl
  rw [Chain.mk.injEq]
  exact ⟨hcells, congrArg Arena.row h.length_eq, hcount, h.fill_eq, h.depth_eq, rfl⟩

end Renamed

end Chain

/-! ### Walks -/

namespace Walk

open Chain

variable {ρ : Renaming} {c c' : Chain}

theorem renamed_ofEnd (h : c.Renamed ρ c') (origin : Side) : ofEnd c' origin = ofEnd c origin := by
  rw [ofEnd, ofEnd, h.endIdx?_eq]

theorem renamed_block? (h : c.Renamed ρ c') (w : Walk) :
    w.block? c' = (w.block? c).map ρ.name := by
  rw [block?, block?]
  cases w.current with
  | none => rfl
  | some i => exact h.id?_eq i

theorem renamed_ofIndex (h : c.Renamed ρ c') (origin : Side) (i : Int) :
    Concur (RenamedBeside ρ id) (ofIndex c origin i) (ofIndex c' origin i) := by
  refine (h.find? i).bind_beside fun c₁ c₁' found h₁ => ?_
  cases found with
  | none => exact concur_pure ⟨h₁, rfl⟩
  | some found =>
    obtain ⟨j, handle⟩ := found
    change Concur _ _ (c₁'.block j >>= _)
    rw [h₁.block_eq]
    exact Concur.bind_same fun b => concur_pure ⟨h₁, rfl⟩

theorem renamed_openBlock (h : c.Renamed ρ c') (w : Walk) (i : Nat) :
    Concur (Chain.Renamed ρ) (w.openBlock c i) (w.openBlock c' i) := by
  unfold openBlock
  split
  · exact h.openForUse i
  · exact h.modifyBlock i _

theorem renamed_handle? (h : c.Renamed ρ c') (w : Walk) (i : Nat) :
    Concur (fun r r' => r' = r.map ρ.handle) (w.handle? c i) (w.handle? c' i) := by
  unfold handle?
  split
  · exact h.handleAt? i _ _
  · exact .ok rfl

/-- **A walk meets the same element**, and is at the same place. -/
theorem renamed_nextAmong (h : c.Renamed ρ c') (blocks : Nat) (w : Walk) :
    Concur (fun r r' => r'.1 = r.1 ∧ RenamedBeside ρ (Option.map ρ.handle) r.2 r'.2)
      (nextAmong blocks w c) (nextAmong blocks w c') := by
  induction blocks generalizing c c' w with
  | zero => exact .ok ⟨rfl, h, rfl⟩
  | succ blocks ih =>
    rw [nextAmong, nextAmong]
    split
    · exact .ok ⟨rfl, h, rfl⟩
    · next i _ =>
      refine (renamed_openBlock h w i).bind fun c₁ c₁' h₁ => ?_
      rw [h₁.block_eq]
      refine Concur.bind_same fun b => Concur.bind_same fun p => ?_
      refine (renamed_handle? h₁ (w.advance p) i).bind ?_
      rintro found _ rfl
      cases found with
      | some handle => exact concur_pure ⟨rfl, h₁, rfl⟩
      | none =>
        refine (h₁.recompress i).bind fun c₂ c₂' h₂ => ?_
        rw [h₂.length_eq]
        exact ih h₂ _

theorem renamed_next (h : c.Renamed ρ c') (w : Walk) :
    Concur (fun r r' => r'.1 = r.1 ∧ RenamedBeside ρ (Option.map ρ.handle) r.2 r'.2)
      (w.next c) (w.next c') := by
  rw [next, next, h.length_eq]
  exact renamed_nextAmong h _ w

theorem renamed_erase (h : c.Renamed ρ c') (w : Walk) (handle : Handle) :
    Concur (fun r r' => r'.1 = r.1 ∧ RenamedBeside ρ id r.2 r'.2) (w.erase c handle)
      (w.erase c' (ρ.handle handle)) := by
  unfold erase
  split
  · exact .error _
  · next i _ =>
    have hiff : c'.id? i = some (ρ.handle handle).block ↔ c.id? i = some handle.block := by
      rw [h.id?_eq]
      exact Option.map_injective ρ.injective |>.eq_iff (b := some handle.block)
    simp only [hiff]
    split
    · refine (h.eraseAt i handle.place.idx).bind_beside fun c₁ c₁' gone h₁ => ?_
      dsimp only [id]
      rw [h₁.length_eq]
      exact concur_pure ⟨rfl, h₁.touch, rfl⟩
    · exact .error _

theorem renamed_finish (h : c.Renamed ρ c') (w : Walk) :
    Concur (Chain.Renamed ρ) (w.finish c) (w.finish c') := by
  unfold finish
  split
  · exact h.recompress _
  · exact .ok h

end Walk

end UnrolledList
