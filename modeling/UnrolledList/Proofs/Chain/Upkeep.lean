import UnrolledList.Chain.Insert
import UnrolledList.Chain.Range
import UnrolledList.Proofs.Chain.Settling

/-!
# What operations leave behind

**Every operation that changes a settled list leaves it settled**, and so does every one that
changes a list through a block that is open. It is shown from the steps of the operation
alone, whatever the blocks hold.

The block at an end lies on the outer side of a boundary, so it is expanded and working in it
is no exception (`UnrolledList.Chain.Settled.rewrite_end`). What is found by its index is left
open (`UnrolledList.Chain.Held.find?`), and this is why an operation that goes on from there
is shown from a list that is held (`UnrolledList.Chain.Held`) and not only from one that is
settled.
-/

namespace UnrolledList

namespace Chain

open Block (Outside Rewrites)

variable {c : Chain} {depth n i j k : Nat} {P : BlockId → Prop} {new : Cell} {side : Side}
  {f : Block → Except Fault Block}

/-! ### Ends -/

/-- The block at an end lies on the outer side of a boundary. -/
theorem outside_of_endIdx? (h : c.endIdx? side = some i) : Outside depth c.length i := by
  unfold endIdx? at h
  simp only [Outside, IsOuter]
  split at h
  · contradiction
  · cases side with
    | head =>
      obtain rfl := Option.some.inj h
      omega
    | tail =>
      obtain rfl := Option.some.inj h
      omega

/-- The number of blocks tells which ones are at the ends. -/
theorem endIdx?_congr {c' : Chain} (h : c'.length = c.length) :
    c'.endIdx? side = c.endIdx? side := by
  unfold endIdx?
  rw [h]

/-- **Working in the block at an end** leaves the list settled. -/
theorem Settled.rewrite_end (h : c.Settled depth P) (hi : c.endIdx? side = some i)
    (hf : Rewrites f) :
    Gives (c.modifyBlock i f) fun c' => c'.Settled depth P ∧ c'.endIdx? side = some i := by
  obtain ⟨n, h⟩ := h
  have hout : Outside depth n i := h.length_eq ▸ outside_of_endIdx? hi
  refine ((h.fitsExpanded hout).rewrite hf).imp fun c₁ h₁ => ⟨⟨n, h₁.fits⟩, ?_⟩
  rw [endIdx?_congr (h₁.length_eq.trans h.length_eq.symm), hi]

/-- With no other block the new one is both first and last. -/
theorem Settled.linkCell_first (h : c.Settled depth P) (hnew : new.block.IsPlain)
    (place : Place) :
    Gives (c.linkCell none place new) fun c' => ∃ n, c'.Each depth n (FitsBut depth n
      (fun j id => P id ∧ j ≠ 0) (Crossed depth n 0)) := by
  obtain ⟨n, h⟩ := h
  refine gives_linkCell fun arena => ?_
  refine ((h.withArena arena).insertCell_fits hnew (fun j id hj => absurd hj j.not_lt_zero)
    fun j id _ hp => ⟨hp, j.succ_ne_zero⟩).imp fun c₁ h₁ => ⟨n + 1, h₁⟩

theorem Settled.linkAt (h : c.Settled depth P) (hnew : new.block.IsPlain) (side : Side) :
    Gives (c.linkAt side new) (·.Settled depth P) := by
  unfold Chain.linkAt
  split
  · exact (h.held _).linkBeside hnew _
  · refine (h.linkCell_first hnew _).bind fun c₁ h₁ => ?_
    obtain ⟨n, h₁⟩ := h₁
    refine (h₁.recompress_unmarked (fun _ ha => ha.2 rfl) (fun _ _ ha => ha.1)
      fun j hj hj' hi hf => ?_).imp fun c₂ h₂ => ⟨n, h₂⟩
    rcases hf with heq | heq | heq
    · exact hi heq
    · exact hj heq
    · exact hj' heq

theorem gives_admittingEnd? (c : Chain) (side : Side) (n : Nat) :
    Gives (c.admittingEnd? side n) fun r => ∀ i, r = some i → c.endIdx? side = some i := by
  unfold Chain.admittingEnd?
  split
  · exact gives_ok.mpr fun i hi => by contradiction
  · next i hend =>
    refine Gives.bind_any fun ok => ?_
    refine gives_pure.mpr fun j hj => ?_
    rw [hend]
    split at hj
    · exact hj
    · contradiction

theorem rewrites_pushInto (side : Side) (s : Bytes) :
    Rewrites (match side with
      | .head => Block.pushFront s
      | .tail => Block.pushBack s) := by
  cases side with
  | head => exact Block.rewrites_pushFront s
  | tail => exact Block.rewrites_pushBack s

theorem Settled.push (h : c.Settled depth P) (side : Side) (s : Bytes) :
    Gives (c.push side s) (·.1.Settled depth P) := by
  unfold Chain.push
  refine (gives_admittingEnd? c side s.length).bind fun admitting hadmits => ?_
  cases admitting with
  | some i =>
    refine (h.rewrite_end (hadmits i rfl) (rewrites_pushInto side s)).bind fun c₁ h₁ => ?_
    exact gives_pure.mpr (h₁.1.withCount _).touch
  | none =>
    refine (Block.isPlain_singleton s).bind fun b hb => ?_
    refine (h.takeId.linkAt hb side).bind fun c₁ h₁ => ?_
    exact gives_pure.mpr (h₁.withCount _).touch

theorem Settled.pushAll (h : c.Settled depth P) (vs : List Value) :
    Gives (c.pushAll vs) (·.Settled depth P) := by
  induction vs generalizing c with
  | nil => exact gives_ok.mpr h
  | cons v vs ih => exact (h.push .tail v.render).bind fun r hr => ih hr

theorem Settled.appendBlock (h : c.Settled depth P) (p : Packed) :
    Gives (c.appendBlock p) (·.Settled depth P) := by
  unfold Chain.appendBlock
  split
  · exact gives_ok.mpr h
  · refine (h.takeId.linkAt (Block.isPlain_ofPacked p) .tail).bind fun c₁ h₁ => ?_
    exact gives_pure.mpr (h₁.withCount _).touch

/-- The block is changed or goes with its last entry. -/
theorem gives_eraseAt {Q R : Chain → Prop}
    (hmod : ∀ f, Rewrites f → Gives (c.modifyBlock i f) Q)
    (hgone : ∀ c', Q c' → Gives (c'.unlink i) R)
    (hQ : ∀ c' n, Q c' → Q (c'.withCount n)) (hR : ∀ c' n, R c' → R (c'.withCount n)) (k : Nat) :
    Gives (c.eraseAt i k) fun r => if r.2 = true then R r.1 else Q r.1 := by
  have hf := (Block.rewrites_modify fun p => p.eraseIdx k 1).subtract 1
  unfold Chain.eraseAt
  refine (hmod _ hf).bind fun c₁ h₁ => ?_
  refine Gives.bind_any fun b => ?_
  dsimp only
  by_cases hempty : b.count = 0
  · simp only [if_pos hempty, decide_eq_true hempty]
    refine (hgone c₁ h₁).bind fun c₂ h₂ => ?_
    refine Gives.bind_any fun n => ?_
    exact gives_pure.mpr (by simpa using hR c₂ n h₂)
  · simp only [if_neg hempty, decide_eq_false hempty, pure_bind]
    refine Gives.bind_any fun n => ?_
    exact gives_pure.mpr (by simpa using hQ c₁ n h₁)

theorem Settled.eraseAt_end (h : c.Settled depth P) (hi : c.endIdx? side = some i) (k : Nat) :
    Gives (c.eraseAt i k) (·.1.Settled depth P) := by
  have hmod : ∀ f, Rewrites f → Gives (c.modifyBlock i f) (·.Settled depth P) := fun f hf =>
    (h.rewrite_end hi hf).imp fun c₁ h₁ => h₁.1
  refine (gives_eraseAt hmod (fun _ h₁ => (h₁.held i).unlink) (fun _ n h₁ => h₁.withCount n)
    (fun _ n h₁ => h₁.withCount n) k).imp fun r hr => ?_
  split at hr
  · exact hr
  · exact hr

theorem Settled.outermost? (h : c.Settled depth P) (side : Side) :
    Gives (c.outermost? side) fun r => r.1.Settled depth P ∧
      ∀ i place v, r.2 = some (i, place, v) → r.1.endIdx? side = some i := by
  unfold Chain.outermost?
  split
  · exact gives_ok.mpr ⟨h, fun i place v hsome => by contradiction⟩
  · next i hend =>
    refine (h.rewrite_end hend Block.rewrites_inflate).bind fun c₁ h₁ => ?_
    refine Gives.bind_any fun b => ?_
    refine Gives.bind_any fun p => ?_
    refine gives_pure.mpr ⟨h₁.1, fun j place v hsome => ?_⟩
    obtain ⟨place', -, hsome⟩ := Option.bind_eq_some_iff.mp hsome
    obtain ⟨v', -, hsome⟩ := Option.bind_eq_some_iff.mp hsome
    obtain ⟨rfl, -⟩ : i = j ∧ _ := by simpa using hsome
    exact h₁.2

theorem Settled.pop (h : c.Settled depth P) (side : Side) :
    Gives (c.pop side) (·.1.Settled depth P) := by
  unfold Chain.pop
  split
  · exact gives_ok.mpr h
  · refine (h.outermost? side).bind fun r hr => ?_
    obtain ⟨c₁, found⟩ := r
    obtain ⟨h₁, hend⟩ := hr
    dsimp only
    split
    · exact gives_pure.mpr h₁
    · next i place v =>
      exact (h₁.eraseAt_end (hend i place v rfl) place.idx).bind fun r hr => gives_pure.mpr hr.touch

theorem Settled.rotate (h : c.Settled depth P) : Gives c.rotate (·.Settled depth P) := by
  unfold Chain.rotate
  split
  · exact gives_ok.mpr h
  · refine (h.outermost? .tail).bind fun r hr => ?_
    obtain ⟨c₁, found⟩ := r
    obtain ⟨h₁, -⟩ := hr
    dsimp only
    split
    · exact gives_pure.mpr h₁
    · next v =>
      refine (h₁.push .head v.render).bind fun r hr => ?_
      refine (hr.outermost? .tail).bind fun r' hr' => ?_
      obtain ⟨c₃, last⟩ := r'
      obtain ⟨h₃, hend⟩ := hr'
      dsimp only
      split
      · exact gives_pure.mpr h₃.touch
      · next i place v =>
        refine (h₃.eraseAt_end (hend i place v rfl) place.idx).bind fun r hr => ?_
        exact gives_pure.mpr hr.touch

/-! ### Elements that are found -/

/-- **What is found is in the block that was opened**, and that one is ready to be worked
in. -/
theorem Held.find? {index offset : Int} (h : c.Held depth P i)
    (hi : c.locate? index = some (i, offset)) :
    Gives (c.find? index) fun r => r.1.Ready depth P i ∧ i < r.1.length ∧
      ∀ j handle, r.2 = some (j, handle) → j = i := by
  rw [Chain.find?, hi]
  refine h.openForUse.bind fun c₁ h₁ => ?_
  have hblock : Gives (c₁.block i) fun _ => i < c₁.length := by
    obtain ⟨n, h₁⟩ := h₁
    exact (h₁.block i).imp fun b hb => h₁.length_eq ▸ hb.1
  refine hblock.bind fun b hlt => ?_
  refine Gives.bind_any fun p => ?_
  split
  · exact gives_pure.mpr ⟨h₁, hlt, fun j handle hsome => by contradiction⟩
  · refine Gives.bind_any fun found => ?_
    refine gives_pure.mpr ⟨h₁, hlt, fun j handle hsome => ?_⟩
    obtain ⟨_, -, heq⟩ := Option.map_eq_some_iff.mp hsome
    exact (Prod.mk.inj heq).1.symm

/-- Overwriting ends as any change does. -/
theorem Held.overwrite (h : c.Held depth P i) (k : Nat) (s : Bytes) :
    Gives (c.overwrite i k s) (·.Settled depth P) := by
  obtain ⟨n, h⟩ := h
  have hf := Block.rewrites_modify fun p => (p.eraseIdx k 1).insertIdx k s
  unfold Chain.overwrite
  have hrewrite : Gives (c.modifyBlock i _) (·.Each depth n
      (FitsBut depth n (fun j id => P id ∨ j = i) fun j => j = i)) :=
    h.rewrite_any (fun _ => False.elim) rfl hf
  refine hrewrite.bind fun c₁ h₁ => ?_
  refine (h₁.recompress (fun _ _ hj ha => ha.resolve_right hj) fun j hj heq => hj heq).bind
    fun c₂ h₂ => ?_
  exact gives_pure.mpr (Settled.touch ⟨n, h₂⟩)

/-- An element of a block that is held can be overwritten. -/
theorem Held.replace {handle : Handle} (h : c.Held depth P i) (hi : c.idxOf handle.block = .ok i)
    (s : Bytes) : Gives (c.replace handle s) (·.Settled depth P) := by
  unfold Chain.replace
  refine Gives.bind_any fun _ => ?_
  rw [hi]
  exact h.overwrite handle.place.idx s

/-! ### Merging and splitting -/

theorem Settled.mergeWithNext (h : c.Settled depth P) (i : Nat) :
    Gives (c.mergeWithNext i) (·.Settled depth P) := by
  obtain ⟨n, h⟩ := h
  unfold Chain.mergeWithNext
  refine Gives.bind_any fun right => ?_
  refine Gives.bind_any fun q => ?_
  have hf := (Block.rewrites_modify fun p => p ++ q).withCount fun left => left.count + right.count
  have hrewrite : Gives (c.modifyBlock i _)
      (·.Each depth n (FitsBut depth n (fun _ => P) fun j => j = i)) :=
    h.rewrite_any (fun _ => False.elim) rfl hf
  refine hrewrite.bind fun c₁ h₁ => ?_
  have hcount : Gives (c₁.modifyBlock (i + 1) fun b => .ok (b.withCount 0))
      (·.Each depth n (FitsBut depth n (fun _ => P) fun j => j = i)) :=
    h₁.modifyBlock (fun _ _ _ hb => gives_ok.mpr (hb.of_flags rfl rfl rfl)) fun _ _ _ _ hb => hb
  refine hcount.bind fun c₂ h₂ => ?_
  have hgone : Gives (c₂.unlink (i + 1))
      (·.Each depth (n - 1) (FitsBut depth (n - 1) (fun _ => P) fun j => j = i)) :=
    h₂.unlink (fun j _ => ⟨fun _ hp => hp, fun heq => heq⟩)
      fun j hj => ⟨fun _ hp => hp, fun heq => by omega⟩
  refine hgone.bind fun c₃ h₃ => ?_
  exact (h₃.recompress (fun _ _ _ hp => hp) fun j hj heq => hj heq).imp fun c₄ h₄ => ⟨n - 1, h₄⟩

theorem Settled.mergeIfFits (h : c.Settled depth P) (i : Nat) :
    Gives (c.mergeIfFits i) (·.1.Settled depth P) := by
  unfold Chain.mergeIfFits
  split
  · refine Gives.bind_any fun fits => ?_
    split
    · exact (h.mergeWithNext i).bind fun c₁ h₁ => gives_pure.mpr h₁
    · exact gives_pure.mpr h
  · exact gives_ok.mpr h

theorem Settled.mergeBefore (h : c.Settled depth P) (i distance : Nat) :
    Gives (c.mergeBefore i distance) (·.1.Settled depth P) := by
  unfold Chain.mergeBefore
  split
  · exact (h.mergeIfFits _).bind fun r hr => gives_pure.mpr hr
  · exact gives_ok.mpr h

theorem Settled.mergeAround (h : c.Settled depth P) (i : Nat) :
    Gives (c.mergeAround i) (·.Settled depth P) := by
  unfold Chain.mergeAround
  refine (h.mergeBefore i 2).bind fun r₁ h₁ => ?_
  refine (h₁.mergeIfFits (r₁.2 + 1)).bind fun r₂ h₂ => ?_
  refine (h₂.mergeBefore r₁.2 1).bind fun r₃ h₃ => ?_
  exact (h₃.mergeIfFits r₃.2).bind fun r₄ h₄ => gives_pure.mpr h₄

/-- The block that is split stays ready, and the new half is plain. -/
theorem Ready.splitBlock (h : c.Ready depth P i) (k : Nat) (place : Place) :
    Gives (c.splitBlock i k place) fun r => r.1.Ready depth P i ∧ r.2.block.IsPlain := by
  unfold Chain.splitBlock
  refine Gives.bind_any fun b => ?_
  refine Gives.bind_any fun p => ?_
  have hf := (Block.rewrites_modify fun _ => (p.halves k place).1).withCount
    fun _ => (p.halves k place).1.length
  exact (h.rewrite hf).bind fun c₁ h₁ => gives_pure.mpr ⟨h₁.takeId, Block.isPlain_ofPacked _⟩

theorem rewrites_pushFacing (place : Place) (s : Bytes) : Rewrites (Block.pushFacing place s) := by
  cases place with
  | before => exact Block.rewrites_pushBack s
  | after => exact Block.rewrites_pushFront s

theorem Held.insertSplitting (h : c.Held depth P i) (k : Nat) (place : Place) (s : Bytes) :
    Gives (c.insertSplitting i k place s) (·.Settled depth P) := by
  unfold Chain.insertSplitting
  refine h.openForUse.bind fun c₁ h₁ => ?_
  refine (h₁.splitBlock k place).bind fun r hr => ?_
  refine ((rewrites_pushFacing place s).isPlain hr.2).bind fun b hb => ?_
  exact (hr.1.held.linkBeside hb place).bind fun c₃ h₃ => h₃.mergeAround _

/-! ### Inserting -/

theorem Held.insertWithin (h : c.Held depth P i) (entry : Cursor) (place : Place) (s : Bytes) :
    Gives (c.insertWithin i entry place s) (·.Settled depth P) := by
  have hf := (Block.rewrites_modify fun p => p.insertIdx (place.cut entry.idx) s).withCount
    fun b => b.count + 1
  unfold Chain.insertWithin
  refine h.openForUse.bind fun c₁ h₁ => ?_
  exact (h₁.rewrite hf).bind fun c₂ h₂ => h₂.held.settle

/-- Two blocks are open then, and both are closed. -/
theorem Held.insertInNeighbour (h : c.Held depth P i) (j : Nat) (facing : Side) (s : Bytes) :
    Gives (c.insertInNeighbour i j facing s) (·.Settled depth P) := by
  obtain ⟨n, h⟩ := h
  unfold Chain.insertInNeighbour
  have hopen : Gives (c.openForUse j) (·.Each depth n
      (FitsExpanded depth n (fun k id => (P id ∨ k = i) ∨ k = j) (fun _ => False) j)) :=
    h.openForUse (fun _ _ => .inl) fun _ => .inr rfl
  refine hopen.bind fun c₁ h₁ => ?_
  refine (h₁.rewrite (rewrites_pushInto facing s)).bind fun c₂ h₂ => ?_
  have hsettle : Gives (c₂.settle j)
      (·.Each depth n (FitsBut depth n (fun k id => P id ∨ k = i) fun _ => False)) :=
    h₂.fits.settle fun k _ hk ha => ha.resolve_right hk
  exact hsettle.bind fun c₃ h₃ => Held.settle ⟨n, h₃⟩

theorem Held.insertBeyond (h : c.Held depth P i) (k : Int) (place : Place) (s : Bytes) :
    Gives (c.insertBeyond i k place s) (·.Settled depth P) := by
  unfold Chain.insertBeyond
  refine Gives.bind_any fun neighbour => ?_
  split
  · next j facing =>
    refine Gives.bind_any fun ok => ?_
    split
    · exact h.insertInNeighbour j facing s
    · refine (Block.isPlain_singleton s).bind fun b hb => ?_
      exact h.takeId.linkBeside hb place
  · exact h.insertSplitting k.toNat place s

/-- An element can be inserted beside one of a block that is held. -/
theorem Held.insertBeside {handle : Handle} (h : c.Held depth P i)
    (hi : c.idxOf handle.block = .ok i) (place : Place) (s : Bytes) :
    Gives (c.insertBeside handle place s) (·.Settled depth P) := by
  unfold Chain.insertBeside
  refine Gives.bind_any fun _ => ?_
  rw [hi, ok_bind]
  refine Gives.bind_any fun b => ?_
  refine Gives.bind_any fun ok => ?_
  cases ok with
  | true => exact (h.insertWithin _ _ _).bind fun c₁ h₁ => gives_pure.mpr (h₁.withCount _).touch
  | false => exact (h.insertBeyond _ _ _).bind fun c₁ h₁ => gives_pure.mpr (h₁.withCount _).touch

theorem Settled.insertAtEnd (h : c.Settled depth P) (place : Place) (s : Bytes) :
    Gives (c.insert none place s) (·.Settled depth P) := by
  unfold Chain.insert
  exact (h.push _ s).bind fun r hr => gives_pure.mpr hr

/-! ### Erasing -/

theorem Held.eraseWithin (h : c.Held depth P i) (offset : Int) (n : Nat) :
    Gives (c.eraseWithin i offset n) (·.1.Settled depth P) := by
  have hf := (Block.rewrites_modify fun p => (p.eraseRange offset n).1).subtract n
  unfold Chain.eraseWithin
  refine h.openForUse.bind fun c₁ h₁ => ?_
  refine (h₁.rewrite hf).bind fun c₂ h₂ => ?_
  refine Gives.bind_any fun left => ?_
  refine Gives.bind_any fun b => ?_
  have h₃ := (h₂.withCount left).held
  dsimp only
  split
  · exact h₃.unlink.bind fun c₄ h₄ => gives_pure.mpr h₄
  · exact h₃.settle.bind fun c₄ h₄ => gives_pure.mpr h₄

/-- The first block may be open, unless there is nothing to erase from it. -/
theorem Held.eraseFrom {blocks extent : Nat} (h : c.Held depth P i)
    (hnone : blocks = 0 ∨ extent = 0 → c.Settled depth P) (offset : Int) :
    Gives (eraseFrom blocks i offset extent c) (·.Settled depth P) := by
  induction blocks generalizing c i offset extent with
  | zero => exact gives_ok.mpr (hnone (.inl rfl))
  | succ blocks ih =>
    rw [Chain.eraseFrom]
    split
    · next hzero => exact gives_ok.mpr (hnone (.inr hzero))
    · refine Gives.bind_any fun b => ?_
      dsimp only
      split
      · exact h.unlink.bind fun c₁ h₁ => ih (h₁.held _) (fun _ => h₁) 0
      · exact (h.eraseWithin _ _).bind fun r hr => ih (hr.held _) (fun _ => hr) 0

end Chain

end UnrolledList
