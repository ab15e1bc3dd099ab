import UnrolledList.Chain.Copy
import UnrolledList.Chain.Insert
import UnrolledList.Chain.Range
import UnrolledList.Chain.Walk
import UnrolledList.Proofs.Chain.Inserting
import UnrolledList.Proofs.Chain.Twins

/-!
# The operations on twins

Every operation on twins gives twins, and the same beside them: the same element, the same
handle, the same walk. There is one lemma for each operation, in the order in which they are
defined, and each one follows its operation step by step.

What an operation decides on the way it decides in the same way on both sides, because it
reads only sizes, numbers of entries, packed lists and the stamp: whether a block admits an
entry, whether two of them fit into one, which block holds an index, whether a handle is
still good.
-/

namespace UnrolledList

namespace Chain

namespace Twin

variable {c c' : Chain}

/-! ### Ends -/

theorem pushInto (h : c.Twin c') (i : Nat) (side : Side) (s : Bytes) :
    Agree Chain.Twin (c.pushInto i side s) (c'.pushInto i side s) := by
  refine h.modifyBlock i fun hb => ?_
  cases side with
  | head => exact hb.pushFront s
  | tail => exact hb.pushBack s

theorem admittingEnd? (h : c.Twin c') (side : Side) (n : Nat) :
    Agree Eq (c.admittingEnd? side n) (c'.admittingEnd? side n) := by
  unfold Chain.admittingEnd?
  rw [h.endIdx?_eq side]
  split
  · exact agree_eq
  · exact (h.admits _ n).bind_eq fun ok => agree_eq

/-- A block that is made for a string is the same on both sides. -/
theorem singleton (s : Bytes) : Agree Block.Twin (Block.singleton s) (Block.singleton s) :=
  agree_self fun _ hb => ((Block.keeps_singleton s).gives _ hb).1.twin

theorem push (h : c.Twin c') (side : Side) (s : Bytes) :
    Agree Alike (c.push side s) (c'.push side s) := by
  refine (h.admittingEnd? side s.length).bind_eq fun admitting => ?_
  cases admitting with
  | some i => exact (h.pushInto i side s).bind fun c₁ c₁' h₁ => agree_pure ⟨h₁.countUp, rfl⟩
  | none =>
    refine (singleton s).bind fun b b' hb => ?_
    obtain ⟨hid, htaken⟩ := h.takeId
    have hnew : Cell.Twin ⟨c.takeId.1, b⟩ ⟨c'.takeId.1, b'⟩ := ⟨hid, hb⟩
    exact (htaken.linkAt hnew side).bind fun c₁ c₁' h₁ => agree_pure ⟨h₁.countUp, rfl⟩

theorem pushAll (h : c.Twin c') (vs : List Value) :
    Agree Chain.Twin (c.pushAll vs) (c'.pushAll vs) := by
  induction vs generalizing c c' with
  | nil => exact .ok h
  | cons v vs ih => exact (h.push .tail v.render).bind_alike fun c₁ c₁' _ h₁ => ih h₁

theorem appendBlock (h : c.Twin c') {p : Packed} (hp : p.WellFormed) :
    Agree Chain.Twin (c.appendBlock p) (c'.appendBlock p) := by
  unfold Chain.appendBlock
  split
  · exact .ok h
  · obtain ⟨hid, htaken⟩ := h.takeId
    have hnew : Cell.Twin ⟨c.takeId.1, .ofPacked p⟩ ⟨c'.takeId.1, .ofPacked p⟩ :=
      ⟨hid, (Block.keeps_ofPacked hp).twin⟩
    refine (htaken.linkAt hnew .tail).bind fun c₁ c₁' h₁ => ?_
    rw [h.count_eq]
    exact agree_pure (h₁.withCount _).touch

/-- The block at an end is expanded on both sides, and read. -/
theorem outermost? (h : c.Twin c') (side : Side) :
    Agree Alike (c.outermost? side) (c'.outermost? side) := by
  unfold Chain.outermost?
  rw [h.endIdx?_eq side]
  split
  · exact .ok ⟨h, rfl⟩
  · next i _ =>
    refine (h.inflateAt i).bind fun c₁ c₁' h₁ => ?_
    refine (h₁.block i).bind fun b b' hb => hb.bind_packed fun p _ => ?_
    exact agree_pure ⟨h₁, rfl⟩

theorem pop (h : c.Twin c') (side : Side) : Agree Alike (c.pop side) (c'.pop side) := by
  unfold Chain.pop
  rw [h.count_eq]
  split
  · exact .ok ⟨h, rfl⟩
  · refine (h.outermost? side).bind_alike fun c₁ c₁' found h₁ => ?_
    cases found with
    | none => exact agree_pure ⟨h₁, rfl⟩
    | some found =>
      obtain ⟨i, place, v⟩ := found
      exact (h₁.eraseAt i place.idx).bind_alike fun c₂ c₂' _ h₂ => agree_pure ⟨h₂.touch, rfl⟩

theorem rotate (h : c.Twin c') : Agree Chain.Twin c.rotate c'.rotate := by
  unfold Chain.rotate
  rw [h.count_eq]
  split
  · exact .ok h
  · refine (h.outermost? .tail).bind_alike fun c₁ c₁' found h₁ => ?_
    cases found with
    | none => exact agree_pure h₁
    | some found =>
      -- the push has moved blocks, so the tail is looked at again
      refine (h₁.push .head found.2.2.render).bind_alike fun c₂ c₂' _ h₂ => ?_
      refine (h₂.outermost? .tail).bind_alike fun c₃ c₃' last h₃ => ?_
      cases last with
      | none => exact agree_pure h₃.touch
      | some last => exact (h₃.eraseAt _ _).bind_alike fun c₄ c₄' _ h₄ => agree_pure h₄.touch

/-! ### Handles -/

theorem handleAt? (h : c.Twin c') (i : Nat) (place : Cursor) (offset : Int) :
    Agree Eq (c.handleAt? i place offset) (c'.handleAt? i place offset) := by
  refine (h.block i).bind fun b b' hb => hb.bind_packed fun p _ => ?_
  rw [h.id?_eq, h.stamp_eq]
  exact agree_eq

theorem seekForward?_eq (h : c.Twin c') (i k : Nat) :
    seekForward? c.cells i k = seekForward? c'.cells i k := by
  fun_induction seekForward? c.cells i k with
  | case1 i k hi n hk =>
    have hi' : i < c'.cells.size := h.size_eq ▸ hi
    have hcount := (h.cell i hi hi').block.count_eq
    rw [seekForward?, dif_pos hi']
    simp only [← hcount]
    exact (if_pos hk).symm
  | case2 i k hi n hk ih =>
    have hi' : i < c'.cells.size := h.size_eq ▸ hi
    have hcount := (h.cell i hi hi').block.count_eq
    rw [ih]
    conv => rhs; rw [seekForward?, dif_pos hi']
    simp only [← hcount]
    exact (if_neg hk).symm
  | case3 i k hi =>
    have hi' : ¬ i < c'.cells.size := h.size_eq ▸ hi
    rw [seekForward?, dif_neg hi']

theorem seekBackward?_eq (h : c.Twin c') (i k : Nat) :
    seekBackward? c.cells i k = seekBackward? c'.cells i k := by
  induction i generalizing k with
  | zero => rfl
  | succ i ih =>
    rw [seekBackward?, seekBackward?]
    by_cases hi : i < c.cells.size
    · have hi' : i < c'.cells.size := h.size_eq ▸ hi
      rw [Array.getElem?_eq_getElem hi, Array.getElem?_eq_getElem hi']
      simp only [(h.cell i hi hi').block.count_eq, ih]
    · have hi' : ¬ i < c'.cells.size := h.size_eq ▸ hi
      rw [Array.getElem?_eq_none (Nat.le_of_not_lt hi),
        Array.getElem?_eq_none (Nat.le_of_not_lt hi')]

theorem locate?_eq (h : c.Twin c') (i : Int) : c.locate? i = c'.locate? i := by
  simp only [locate?, h.count_eq, h.length_eq, h.seekForward?_eq, h.seekBackward?_eq]

/-- **An index finds the same element**, at the same place. -/
theorem find? (h : c.Twin c') (i : Int) : Agree Alike (c.find? i) (c'.find? i) := by
  unfold Chain.find?
  rw [h.locate?_eq i]
  split
  · exact .ok ⟨h, rfl⟩
  · next j offset _ =>
    refine (h.openForUse j).bind fun c₁ c₁' h₁ => ?_
    refine (h₁.block j).bind fun b b' hb => hb.bind_packed fun p _ => ?_
    split
    · exact agree_pure ⟨h₁, rfl⟩
    · next place _ => exact (h₁.handleAt? j place offset).bind_eq fun _ => agree_pure ⟨h₁, rfl⟩

theorem index (h : c.Twin c') (i : Int) : Agree Alike (c.index i) (c'.index i) := by
  exact (h.find? i).bind_alike fun c₁ c₁' found h₁ => agree_pure ⟨h₁, rfl⟩

theorem get? (h : c.Twin c') (i : Int) : Agree Alike (c.get? i) (c'.get? i) := by
  refine (h.find? i).bind_alike fun c₁ c₁' found h₁ => ?_
  cases found with
  | none => exact agree_pure ⟨h₁, rfl⟩
  | some found => exact (h₁.settle found.1).bind fun c₂ c₂' h₂ => agree_pure ⟨h₂, rfl⟩

theorem overwrite (h : c.Twin c') (i k : Nat) (s : Bytes) :
    Agree Chain.Twin (c.overwrite i k s) (c'.overwrite i k s) := by
  refine (h.modifyBlock i fun hb => hb.modify fun {p} hp hsize => ?_).bind fun c₁ c₁' h₁ => ?_
  · have hle := Packed.size_le_insertIdx (p.eraseIdx k 1) k s
    exact (hp.eraseIdx (Nat.lt_of_le_of_lt hle hsize)).insertIdx hsize
  · exact (h₁.recompress i).bind fun c₂ c₂' h₂ => agree_pure h₂.touch

/-- A handle is good on both sides or on none. -/
theorem checkFresh_eq (h : c.Twin c') (handle : Handle) :
    c.checkFresh handle = c'.checkFresh handle := by
  rw [checkFresh, checkFresh, h.stamp_eq]

theorem replace (h : c.Twin c') (handle : Handle) (s : Bytes) :
    Agree Chain.Twin (c.replace handle s) (c'.replace handle s) := by
  unfold Chain.replace
  rw [h.checkFresh_eq, h.idxOf_eq]
  refine agree_eq.bind_eq fun _ => agree_eq.bind_eq fun i => ?_
  exact h.overwrite i _ s

theorem replaceAt (h : c.Twin c') (i : Int) (s : Bytes) :
    Agree Alike (c.replaceAt i s) (c'.replaceAt i s) := by
  refine (h.find? i).bind_alike fun c₁ c₁' found h₁ => ?_
  cases found with
  | none => exact agree_pure ⟨h₁, rfl⟩
  | some found => exact (h₁.overwrite _ _ s).bind fun c₂ c₂' h₂ => agree_pure ⟨h₂, rfl⟩

/-! ### Insertions -/

theorem mergeWithNext (h : c.Twin c') (i : Nat) :
    Agree Chain.Twin (c.mergeWithNext i) (c'.mergeWithNext i) := by
  refine (h.block (i + 1)).bind fun right right' hright => hright.bind_packed fun q hq => ?_
  refine (h.modifyBlock i fun {b b'} hb => ?_).bind fun c₁ c₁' h₁ => ?_
  · rw [hb.count_eq, hright.count_eq]
    refine (hb.modify (f := fun p => p ++ q) fun hp hsize => hp.append hq hsize).bind
      fun b₁ b₁' h₁ => agree_pure (h₁.withCount _)
  · refine (h₁.modifyBlock (i + 1) fun hb => .ok (hb.withCount 0)).bind fun c₂ c₂' h₂ => ?_
    exact (h₂.unlink (i + 1)).bind fun c₃ c₃' h₃ => h₃.recompress i

theorem mergeIfFits (h : c.Twin c') (i : Nat) :
    Agree Alike (c.mergeIfFits i) (c'.mergeIfFits i) := by
  unfold Chain.mergeIfFits
  rw [h.length_eq]
  split
  · refine (h.admitsMerge i).bind_eq fun fits => ?_
    split
    · exact (h.mergeWithNext i).bind fun c₁ c₁' h₁ => agree_pure ⟨h₁, rfl⟩
    · exact agree_pure ⟨h, rfl⟩
  · exact .ok ⟨h, rfl⟩

theorem mergeBefore (h : c.Twin c') (i distance : Nat) :
    Agree Alike (c.mergeBefore i distance) (c'.mergeBefore i distance) := by
  unfold Chain.mergeBefore
  split
  · exact (h.mergeIfFits (i - distance)).bind_alike fun c₁ c₁' j h₁ => agree_pure ⟨h₁, rfl⟩
  · exact .ok ⟨h, rfl⟩

/-- **A merge sweep** merges the same blocks. -/
theorem mergeAround (h : c.Twin c') (i : Nat) :
    Agree Chain.Twin (c.mergeAround i) (c'.mergeAround i) := by
  refine (h.mergeBefore i 2).bind_alike fun c₁ c₁' j h₁ => ?_
  refine (h₁.mergeIfFits (j + 1)).bind_alike fun c₂ c₂' _ h₂ => ?_
  refine (h₂.mergeBefore j 1).bind_alike fun c₃ c₃' k h₃ => ?_
  exact (h₃.mergeIfFits k).bind_alike fun c₄ c₄' _ h₄ => agree_pure h₄

/-- The half that is split off is not yet in the list, so it is the same on both sides. -/
theorem splitBlock (h : c.Twin c') (i k : Nat) (place : Place) :
    Agree (fun r r' => Alike r r' ∧ ∃ q, r.2.block = .ofPacked q ∧ q.WellFormed)
      (c.splitBlock i k place) (c'.splitBlock i k place) := by
  refine (h.block i).bind fun b b' hb => hb.bind_packed fun p hp => ?_
  obtain ⟨hfirst, hsecond⟩ := hp.halves k place
  refine (h.modifyBlock i fun hb => ?_).bind fun c₁ c₁' h₁ => ?_
  · exact (hb.modify (f := fun _ => (p.halves k place).1) fun _ _ => hfirst).bind
      fun b₁ b₁' h₁ => agree_pure (h₁.withCount _)
  · obtain ⟨hid, htaken⟩ := h₁.takeId
    refine agree_pure ⟨⟨htaken, ?_⟩, _, rfl, hsecond⟩
    change Cell.mk c₁.takeId.1 _ = Cell.mk c₁'.takeId.1 _
    rw [hid]

theorem insertSplitting (h : c.Twin c') (i k : Nat) (place : Place) (s : Bytes) :
    Agree Chain.Twin (c.insertSplitting i k place s) (c'.insertSplitting i k place s) := by
  refine (h.openForUse i).bind fun c₁ c₁' h₁ => (h₁.splitBlock i k place).bind fun r r' hr => ?_
  obtain ⟨c₂, half⟩ := r
  obtain ⟨c₂', half'⟩ := r'
  obtain ⟨⟨h₂, rfl⟩, q, hq, hwell⟩ : (c₂.Twin c₂' ∧ half = half') ∧ _ := hr
  have hpushed : Agree Block.Twin (half.block.pushFacing place s)
      (half.block.pushFacing place s) := by
    refine agree_self fun b hb => ?_
    rw [show half.block = .ofPacked q from hq] at hb
    exact ((Block.keeps_pushFacing hwell place s).gives b hb).1.twin
  refine hpushed.bind fun b b' hb => ?_
  have hnew : Cell.Twin ⟨half.id, b⟩ ⟨half.id, b'⟩ := ⟨rfl, hb⟩
  exact (h₂.linkBeside hnew i place).bind fun c₃ c₃' h₃ => h₃.mergeAround _

theorem insertWithin (h : c.Twin c') (i : Nat) (entry : Cursor) (place : Place) (s : Bytes) :
    Agree Chain.Twin (c.insertWithin i entry place s) (c'.insertWithin i entry place s) := by
  refine (h.openForUse i).bind fun c₁ c₁' h₁ => ?_
  refine (h₁.modifyBlock i fun {b b'} hb => ?_).bind fun c₂ c₂' h₂ => h₂.settle i
  rw [hb.count_eq]
  exact (hb.modify fun hp => hp.insertIdx).bind fun b₁ b₁' h₁ => agree_pure (h₁.withCount _)

theorem insertInNeighbour (h : c.Twin c') (i j : Nat) (facing : Side) (s : Bytes) :
    Agree Chain.Twin (c.insertInNeighbour i j facing s) (c'.insertInNeighbour i j facing s) := by
  refine (h.openForUse j).bind fun c₁ c₁' h₁ => (h₁.pushInto j facing s).bind fun c₂ c₂' h₂ => ?_
  exact (h₂.settle j).bind fun c₃ c₃' h₃ => h₃.settle i

theorem neighbourAt? (h : c.Twin c') (i : Nat) (k : Int) (place : Place) :
    Agree Eq (c.neighbourAt? i k place) (c'.neighbourAt? i k place) := by
  refine (h.block i).bind fun b b' hb => ?_
  rw [hb.count_eq, h.length_eq]
  exact agree_eq

theorem insertBeyond (h : c.Twin c') (i : Nat) (k : Int) (place : Place) (s : Bytes) :
    Agree Chain.Twin (c.insertBeyond i k place s) (c'.insertBeyond i k place s) := by
  refine (h.neighbourAt? i k place).bind_eq fun neighbour => ?_
  cases neighbour with
  | none => exact h.insertSplitting i k.toNat place s
  | some neighbour =>
    obtain ⟨j, facing⟩ := neighbour
    refine (h.admits j s.length).bind_eq fun admitted => ?_
    split
    · exact h.insertInNeighbour i j facing s
    · refine (singleton s).bind fun b b' hb => ?_
      obtain ⟨hid, htaken⟩ := h.takeId
      have hnew : Cell.Twin ⟨c.takeId.1, b⟩ ⟨c'.takeId.1, b'⟩ := ⟨hid, hb⟩
      exact htaken.linkBeside hnew i place

theorem insertBeside (h : c.Twin c') (handle : Handle) (place : Place) (s : Bytes) :
    Agree Chain.Twin (c.insertBeside handle place s) (c'.insertBeside handle place s) := by
  unfold Chain.insertBeside
  rw [h.checkFresh_eq, h.idxOf_eq]
  refine agree_eq.bind_eq fun _ => agree_eq.bind_eq fun i => ?_
  refine (h.block i).bind fun b b' hb => ?_
  rw [hb.count_eq]
  refine (h.admits i s.length).bind_eq fun admitted => ?_
  cases admitted with
  | true =>
    exact (h.insertWithin i handle.place place s).bind fun c₁ c₁' h₁ => agree_pure h₁.countUp
  | false => exact (h.insertBeyond i _ place s).bind fun c₁ c₁' h₁ => agree_pure h₁.countUp

theorem insert (h : c.Twin c') (handle : Option Handle) (place : Place) (s : Bytes) :
    Agree Chain.Twin (c.insert handle place s) (c'.insert handle place s) := by
  cases handle with
  | some handle => exact h.insertBeside handle place s
  | none => exact (h.push _ s).bind_alike fun c₁ c₁' _ h₁ => agree_pure h₁

/-! ### Ranges -/

theorem eraseWithin (h : c.Twin c') (i : Nat) (offset : Int) (n : Nat) :
    Agree Alike (c.eraseWithin i offset n) (c'.eraseWithin i offset n) := by
  refine (h.openForUse i).bind fun c₁ c₁' h₁ => ?_
  refine (h₁.modifyBlock i fun {b b'} hb => ?_).bind fun c₂ c₂' h₂ => ?_
  · rw [hb.count_eq]
    refine agree_eq.bind_eq fun left => ?_
    exact (hb.modify fun hp => hp.eraseRange).bind fun b₁ b₁' h₁ => agree_pure (h₁.withCount _)
  · rw [h₂.count_eq]
    refine agree_eq.bind_eq fun left => ((h₂.withCount left).block i).bind fun b b' hb => ?_
    dsimp only
    rw [hb.count_eq]
    split
    · exact ((h₂.withCount left).unlink i).bind fun c₃ c₃' h₃ => agree_pure ⟨h₃, rfl⟩
    · exact ((h₂.withCount left).settle i).bind fun c₃ c₃' h₃ => agree_pure ⟨h₃, rfl⟩

theorem eraseFrom (h : c.Twin c') (blocks i : Nat) (offset : Int) (extent : Nat) :
    Agree Chain.Twin (eraseFrom blocks i offset extent c)
      (eraseFrom blocks i offset extent c') := by
  induction blocks generalizing c c' i offset extent with
  | zero => exact .ok h
  | succ blocks ih =>
    rw [Chain.eraseFrom, Chain.eraseFrom]
    split
    · exact .ok h
    · refine (h.block i).bind fun b b' hb => ?_
      dsimp only
      rw [hb.count_eq]
      split
      · exact (h.unlink i).bind fun c₁ c₁' h₁ => ih h₁ i 0 _
      · refine (h.eraseWithin i offset _).bind_alike fun c₁ c₁' gone h₁ => ?_
        exact ih h₁ _ 0 _

theorem eraseRange (h : c.Twin c') (start n : Int) :
    Agree Alike (c.eraseRange start n) (c'.eraseRange start n) := by
  unfold Chain.eraseRange
  split
  · exact .ok ⟨h, rfl⟩
  · dsimp only
    rw [h.count_eq]
    refine (h.find? start).bind_alike fun c₁ c₁' found h₁ => ?_
    cases found with
    | none => exact agree_pure ⟨h₁, rfl⟩
    | some found =>
      dsimp only
      rw [h₁.length_eq]
      exact (h₁.eraseFrom _ _ _ _).bind fun c₂ c₂' h₂ => agree_pure ⟨h₂.touch, rfl⟩

/-! ### Copies -/

/-- Copies of twins are twins. -/
theorem duplicate (h : c.Twin c') : c.duplicate.Twin c'.duplicate where
  size_eq := by simpa [Chain.duplicate] using h.size_eq
  cell i hi hi' := by
    simp only [Chain.duplicate, Array.size_mapIdx] at hi hi'
    obtain ⟨-, ⟨p, hp, hp'⟩, hcount⟩ := h.cell i hi hi'
    simp only [Chain.duplicate, Array.getElem_mapIdx]
    exact ⟨rfl, ⟨p, hp.of_content rfl rfl, hp'.of_content rfl rfl⟩, hcount⟩
  arena_eq := by simp only [Chain.duplicate, h.length_eq]
  count_eq := by
    have hcounts := h.map_eq (f := fun cell => cell.block.count) fun hcell => hcell.block.count_eq
    have hsum := congrArg (Array.foldl (· + ·) 0) hcounts
    rwa [Array.foldl_map, Array.foldl_map] at hsum
  fill_eq := h.fill_eq
  stamp_eq := rfl

end Twin

end Chain

/-! ### Walks -/

namespace Walk

variable {c c' : Chain}

open Chain

theorem ofEnd_eq (h : c.Twin c') (origin : Side) : ofEnd c origin = ofEnd c' origin := by
  rw [ofEnd, ofEnd, h.endIdx?_eq]

theorem block?_eq (h : c.Twin c') (w : Walk) : w.block? c = w.block? c' := by
  rw [block?, block?, h.id?_eq]

theorem ofIndex_agree (h : c.Twin c') (origin : Side) (i : Int) :
    Agree Alike (ofIndex c origin i) (ofIndex c' origin i) := by
  refine (h.find? i).bind_alike fun c₁ c₁' found h₁ => ?_
  cases found with
  | none => exact agree_pure ⟨h₁, rfl⟩
  | some found =>
    refine (h₁.block found.1).bind fun b b' hb => ?_
    dsimp only
    rw [hb.count_eq]
    exact agree_pure ⟨h₁, rfl⟩

theorem openBlock_agree (h : c.Twin c') (w : Walk) (i : Nat) :
    Agree Chain.Twin (w.openBlock c i) (w.openBlock c' i) := by
  unfold openBlock
  split
  · exact h.openForUse i
  · exact h.inflateAt i

theorem handle?_agree (h : c.Twin c') (w : Walk) (i : Nat) :
    Agree Eq (w.handle? c i) (w.handle? c' i) := by
  unfold handle?
  split
  · exact h.handleAt? i _ _
  · exact agree_eq

/-- **A walk meets the same element**, and is at the same place. -/
theorem nextAmong_agree (h : c.Twin c') (blocks : Nat) (w : Walk) :
    Agree (fun r r' => r.1 = r'.1 ∧ Alike r.2 r'.2) (nextAmong blocks w c)
      (nextAmong blocks w c') := by
  induction blocks generalizing c c' w with
  | zero => exact .ok ⟨rfl, h, rfl⟩
  | succ blocks ih =>
    rw [nextAmong, nextAmong]
    split
    · exact .ok ⟨rfl, h, rfl⟩
    · next i _ =>
      refine (openBlock_agree h w i).bind fun c₁ c₁' h₁ => ?_
      refine (h₁.block i).bind fun b b' hb => hb.bind_packed fun p _ => ?_
      refine (handle?_agree h₁ (w.advance p) i).bind_eq fun found => ?_
      cases found with
      | some handle => exact agree_pure ⟨rfl, h₁, rfl⟩
      | none =>
        refine (h₁.recompress i).bind fun c₂ c₂' h₂ => ?_
        rw [h₂.length_eq]
        exact ih h₂ _

theorem next_agree (h : c.Twin c') (w : Walk) :
    Agree (fun r r' => r.1 = r'.1 ∧ Alike r.2 r'.2) (w.next c) (w.next c') := by
  rw [next, next, h.length_eq]
  exact nextAmong_agree h _ w

theorem erase_agree (h : c.Twin c') (w : Walk) (handle : Handle) :
    Agree (fun r r' => r.1 = r'.1 ∧ Alike r.2 r'.2) (w.erase c handle) (w.erase c' handle) := by
  unfold erase
  split
  · exact .error _
  · next i _ =>
    rw [h.id?_eq]
    split
    · refine (h.eraseAt i handle.place.idx).bind_alike fun c₁ c₁' gone h₁ => ?_
      dsimp only
      rw [h₁.length_eq]
      exact agree_pure ⟨rfl, h₁.touch, rfl⟩
    · exact .error _

theorem finish_agree (h : c.Twin c') (w : Walk) :
    Agree Chain.Twin (w.finish c) (w.finish c') := by
  unfold finish
  split
  · exact h.recompress _
  · exact .ok h

end Walk

end UnrolledList
