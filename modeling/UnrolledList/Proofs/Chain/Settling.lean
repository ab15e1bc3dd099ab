import UnrolledList.Chain.Link
import UnrolledList.Proofs.Chain.Boundary

/-!
# How the boundaries are kept

Between operations every block fits its place (`UnrolledList.Chain.Settled`), and the only
exceptions are open blocks. Which blocks may be open is said by name, because a name stays
with its block while others come and go. An operation that works in block number `i` may find
or leave that block open besides (`UnrolledList.Chain.Held`).

This is about the steps that operations are made of. Opening a block adds an exception
(`UnrolledList.Chain.Each.openForUse`); settling it or restoring the boundaries removes it
(`UnrolledList.Chain.Each.settle`, `UnrolledList.Chain.Each.recompress`). A block that comes
or goes moves those behind it by one, and with them the boundaries. In between, blocks that
have crossed are exceptions of the second kind, and they are told by number: of the blocks
beside a new one those at the two boundaries can have crossed and no other
(`UnrolledList.Chain.Each.insertCell`).

What comes of it is that a block can be put beside one that is open, or taken out, and the
list is settled again (`UnrolledList.Chain.Held.linkBeside`,
`UnrolledList.Chain.Held.unlink`).
-/

namespace UnrolledList

namespace Block

variable {b b' : Block} {depth n n' i i' : Nat} {A A' F F' : Prop}

/-- Only the flags and the way the list is kept have a part in fitting. -/
theorem Fits.of_flags (h : Fits depth n A F i b) (hexpanded : b'.isCompressed = b.isCompressed)
    (hpending : b'.pending = b.pending) (htried : b'.tried = b.tried) :
    Fits depth n A F i b' := by
  have hplain : b.IsPlain → b'.IsPlain := fun hb =>
    ⟨hexpanded.trans hb.expanded, hpending.trans hb.unmarked⟩
  refine ⟨fun hi => hplain (h.outer hi), fun hi => ?_⟩
  rcases h.inner hi with hb | ⟨ha, hb⟩ | ⟨hf, hb⟩
  · exact .inl ⟨hpending.trans hb.unmarked, by rw [hexpanded, htried]; exact hb.judged⟩
  · exact .inr (.inl ⟨ha, hexpanded.trans hb.expanded, hpending.trans hb.marked⟩)
  · exact .inr (.inr ⟨hf, hplain hb⟩)

/-- A block that gets another number fits there, if the boundary that it may have crossed
makes it an exception. -/
theorem Fits.shift (h : Fits depth n A F i b) (houter : Outside depth n' i' → Outside depth n i)
    (hinner : ¬ Outside depth n' i' → Outside depth n i → F') (hA : A → A') (hF : F → F') :
    Fits depth n' A' F' i' b := by
  refine ⟨fun hi => h.outer (houter hi), fun hi => ?_⟩
  by_cases hout : Outside depth n i
  · exact .inr (.inr ⟨hinner hi hout, h.outer hout⟩)
  · exact (h.inner hout).imp_right (.imp (.imp_left hA) (.imp_left hF))

end Block

namespace Chain

open Block (Fits Outside Rewrites)

variable {c : Chain} {depth n i : Nat} {A A' : Nat → BlockId → Prop} {F F' : Nat → Prop}
  {f : Block → Except Fault Block} {R R' : Nat → BlockId → Block → Prop} {new : Cell} {b : Block}

/-! ### Working in a block -/

/-- A block fits, with those exceptions that are allowed for its number and its name. -/
def FitsBut (depth n : Nat) (A : Nat → BlockId → Prop) (F : Nat → Prop) (i : Nat) (id : BlockId)
    (b : Block) : Prop :=
  b.Fits depth n (A i id) (F i) i

/-- Besides, if it is block number `i`, it is expanded. -/
def FitsExpanded (depth n : Nat) (A : Nat → BlockId → Prop) (F : Nat → Prop) (i j : Nat)
    (id : BlockId) (b : Block) : Prop :=
  FitsBut depth n A F j id b ∧ (j = i → b.isCompressed = false)

/-- The blocks that can have crossed a boundary when block number `i` of `n` is new, and that
block itself. -/
def Crossed (depth n i j : Nat) : Prop :=
  j = i ∨ j = depth ∨ j = n - 1 - depth

namespace Each

theorem fits (h : c.Each depth n (FitsExpanded depth n A F i)) :
    c.Each depth n (FitsBut depth n A F) :=
  h.imp fun _ _ _ _ hb => hb.1

/-- The block at an end is expanded anyhow. -/
theorem fitsExpanded (h : c.Each depth n (FitsBut depth n A F)) (hi : Outside depth n i) :
    c.Each depth n (FitsExpanded depth n A F i) :=
  h.imp fun _ _ _ _ hb => ⟨hb, fun heq => (hb.outer (heq ▸ hi)).expanded⟩

/-- A block that was read is the one there is. -/
theorem of_block (h : c.Each depth n R) (hb : c.block i = .ok b) :
    c.Each depth n fun j id b' => R j id b' ∧ (j = i → b' = b) := by
  refine ⟨h.depth_eq, h.length_eq, fun j hj => ⟨h.each j hj, ?_⟩⟩
  rintro rfl
  simpa [Chain.block, hj] using hb

theorem openForUse (h : c.Each depth n (FitsBut depth n A F)) (hA : ∀ j id, A j id → A' j id)
    (hi : ∀ id, A' i id) : Gives (c.openForUse i) (·.Each depth n (FitsExpanded depth n A' F i)) :=
  h.modifyBlock
    (fun id _ _ hb => (hb.openForUse (hA i id) (hi id)).imp fun _ hb' => ⟨hb'.1, fun _ => hb'.2⟩)
    fun j id _ hj hb => ⟨hb.imp (hA j id) fun hf => hf, fun heq => absurd heq hj⟩

/-- A change of a block that is expanded. -/
theorem rewrite (h : c.Each depth n (FitsExpanded depth n A F i)) (hf : Rewrites f) :
    Gives (c.modifyBlock i f) (·.Each depth n (FitsExpanded depth n A F i)) :=
  h.modifyBlock
    (fun _ _ _ hb => (hb.1.rewrite (hb.2 rfl) hf).imp fun _ hb' => ⟨hb'.1, fun _ => hb'.2⟩)
    fun _ _ _ _ hb => hb

/-- A change of any block makes it an exception. -/
theorem rewrite_any (h : c.Each depth n (FitsBut depth n A F)) (hF : ∀ j, F j → F' j) (hi : F' i)
    (hf : Rewrites f) : Gives (c.modifyBlock i f) (·.Each depth n (FitsBut depth n A F')) :=
  h.modifyBlock (fun _ _ _ hb => hb.rewrite_any hi hf)
    fun j _ _ _ hb => hb.imp (fun ha => ha) (hF j)

theorem settle (h : c.Each depth n (FitsBut depth n A F)) (hA : ∀ j id, j ≠ i → A j id → A' j id) :
    Gives (c.settle i) (·.Each depth n (FitsBut depth n A' F)) :=
  h.modifyBlock (fun _ _ _ hb => hb.settle fun _ hf => hf)
    fun j id _ hj hb => hb.imp (hA j id hj) fun hf => hf

/-! ### Restoring the boundaries -/

/-- The exceptions that are left are those which are neither at a boundary nor in the block
that was touched. -/
theorem enforce_fits {t : Option Nat} (h : c.Each depth n (FitsBut depth n A F))
    (hA : ∀ j id, t ≠ some j → A j id → A' j id)
    (hF : ∀ j, j ≠ depth → j ≠ n - 1 - depth → t ≠ some j → F j → F' j) :
    Gives (c.enforce t) (·.Each depth n (FitsBut depth n A' F')) := by
  refine h.enforce (fun _ _ _ hb => hb.calm) (fun hfew j id b _ hb => ?_)
    fun j id b _ hin hj hj' ht hb => ?_
  · exact hb.outer (Block.outside_of_few hfew)
  · exact (hb.inner hin).imp_right (.imp (.imp_left (hA j id ht)) (.imp_left (hF j hj hj' ht)))

/-- **Ending a change** ends the exceptions of the block, whichever way it is taken. -/
theorem recompress (h : c.Each depth n (FitsBut depth n A F))
    (hA : ∀ j id, j ≠ i → A j id → A' j id) (hF : ∀ j, j ≠ i → F j → F' j) :
    Gives (c.recompress i) (·.Each depth n (FitsBut depth n A' F')) := by
  unfold Chain.recompress
  refine Gives.bind (q := fun b => c.block i = .ok b) (fun _ hb => hb) fun b hb => ?_
  split
  · next hpending =>
    refine (h.of_block hb).modifyBlock (fun id b' _ hb' => ?_) fun j id b' hj hb' => ?_
    · obtain ⟨hfits, heq⟩ := hb'
      refine hfits.settle fun hunmarked => ?_
      rw [heq rfl, hpending] at hunmarked
      contradiction
    · exact hb'.1.imp (hA j id hj) (hF j hj)
  · exact h.enforce_fits (fun j id hj => hA j id fun heq => hj (by rw [heq]))
      fun j _ _ hj => hF j fun heq => hj (by rw [heq])

/-- If the block is not open, this restores the boundaries. -/
theorem recompress_unmarked (h : c.Each depth n (FitsBut depth n A F)) (hi : ∀ id, ¬ A i id)
    (hA : ∀ j id, A j id → A' j id)
    (hF : ∀ j, j ≠ depth → j ≠ n - 1 - depth → j ≠ i → F j → F' j) :
    Gives (c.recompress i) (·.Each depth n (FitsBut depth n A' F')) := by
  unfold Chain.recompress
  refine (h.block i).bind fun b hb => ?_
  obtain ⟨-, id, hfits⟩ := hb
  rw [if_neg (by simp [hfits.unmarked (hi id)])]
  exact h.enforce_fits (fun j id _ => hA j id)
    fun j hj hj' ht => hF j hj hj' fun heq => ht (by rw [heq])

/-! ### Coming and going -/

/-- A new block moves those behind it by one. -/
theorem insertCell (h : c.Each depth n R) (hnew : R' i new.id new.block)
    (hbefore : ∀ j id b, j < n → j < i → R j id b → R' j id b)
    (hbehind : ∀ j id b, j < n → i ≤ j → R j id b → R' (j + 1) id b) :
    Gives (c.insertCell i new) (·.Each depth (n + 1) R') := by
  have hlength : c.cells.size = n := h.length_eq
  refine gives_insertCell fun hi => ⟨h.depth_eq, by simp [Chain.length, hlength], fun j hj => ?_⟩
  simp only [Array.size_insertIdx] at hj
  simp only [Array.getElem_insertIdx]
  split
  · next hlt => exact hbefore j _ _ (by omega) hlt (h.each j (by omega))
  · split
    · next heq =>
      subst heq
      exact hnew
    · next hge hne =>
      obtain ⟨k, rfl⟩ : ∃ k, j = k + 1 := ⟨j - 1, by omega⟩
      exact hbehind k _ _ (by omega) (by omega) (h.each k (by omega))

/-- A block that goes moves those behind it back by one. -/
theorem removeCell (h : c.Each depth n R)
    (hbefore : ∀ j id b, j < n → j < i → R j id b → R' j id b)
    (hbehind : ∀ j id b, j + 1 < n → i ≤ j → R (j + 1) id b → R' j id b) :
    Gives (c.removeCell i) (·.1.Each depth (n - 1) R') := by
  have hlength : c.cells.size = n := h.length_eq
  refine gives_removeCell fun hi arena =>
    ⟨h.depth_eq, by simp [Chain.length, hlength], fun j hj => ?_⟩
  simp only [Array.size_eraseIdx] at hj
  simp only [Array.getElem_eraseIdx]
  split
  · next hlt => exact hbefore j _ _ (by omega) hlt (h.each j (by omega))
  · next hge => exact hbehind j _ _ (by omega) (by omega) (h.each (j + 1) (by omega))

/-- With a new block the first ones on the inner side of the boundaries can be plain. -/
theorem insertCell_fits (h : c.Each depth n (FitsBut depth n A fun _ => False))
    (hnew : new.block.IsPlain) (hbefore : ∀ j id, j < i → A j id → A' j id)
    (hbehind : ∀ j id, i ≤ j → A j id → A' (j + 1) id) :
    Gives (c.insertCell i new)
      (·.Each depth (n + 1) (FitsBut depth (n + 1) A' (Crossed depth (n + 1) i))) := by
  refine h.insertCell (.of_isPlain hnew (.inl rfl)) (fun j id b hj hlt hb => ?_)
    fun j id b hj hle hb => ?_
  · refine hb.shift (fun hout => ?_) (fun hin hout => ?_) (hbefore j id hlt) False.elim
    · simp only [Outside, IsOuter] at *
      omega
    · simp only [Outside, IsOuter, Crossed] at *
      omega
  · refine hb.shift (fun hout => ?_) (fun hin hout => ?_) (hbehind j id hle) False.elim
    · simp only [Outside, IsOuter] at *
      omega
    · simp only [Outside, IsOuter, Crossed] at *
      omega

variable {P : BlockId → Prop} {old : Nat}

/-- **Beside a new block** the old one may be open. It is closed first, and then the new one
restores the boundaries, which it does because it is not open. -/
theorem recompress_both (h : c.Each depth n
      (FitsBut depth n (fun j id => (P id ∧ j ≠ i) ∨ j = old) (Crossed depth n i))) :
    Gives (c.recompress old >>= fun c => c.recompress i)
      (·.Each depth n (FitsBut depth n (fun _ => P) fun _ => False)) := by
  have hold : Gives (c.recompress old)
      (·.Each depth n (FitsBut depth n (fun j id => P id ∧ j ≠ i) (Crossed depth n i))) :=
    h.recompress (fun j id hj ha => ha.resolve_right hj) fun _ _ hf => hf
  refine hold.bind fun c₁ h₁ => ?_
  refine h₁.recompress_unmarked (fun _ ha => ha.2 rfl) (fun _ _ ha => ha.1) fun j hj hj' hi hf => ?_
  rcases hf with heq | heq | heq
  · exact hi heq
  · exact hj heq
  · exact hj' heq

/-- **When a block goes** the boundaries draw nearer, and only they have to be looked at. -/
theorem unlink (h : c.Each depth n (FitsBut depth n A F))
    (hbefore : ∀ j, j < i → (∀ id, A j id → A' j id) ∧ (F j → F' j))
    (hbehind : ∀ j, i ≤ j → (∀ id, A (j + 1) id → A' j id) ∧ (F (j + 1) → F' j)) :
    Gives (c.unlink i) (·.Each depth (n - 1) (FitsBut depth (n - 1) A' F')) := by
  -- block number `j` was number `k`
  have hremoved : Gives (c.removeCell i) (·.1.Each depth (n - 1) fun j id b =>
      ∃ k, (A k id → A' j id) ∧ (F k → F' j) ∧ j ≤ k ∧ k ≤ j + 1 ∧ k < n ∧
        FitsBut depth n A F k id b) := by
    refine h.removeCell (fun j id b hj hlt hb => ?_) fun j id b hj hle hb => ?_
    · exact ⟨j, (hbefore j hlt).1 id, (hbefore j hlt).2, Nat.le_refl j, Nat.le_succ j, hj, hb⟩
    · exact ⟨j + 1, (hbehind j hle).1 id, (hbehind j hle).2, Nat.le_succ j, Nat.le_refl _, hj, hb⟩
  unfold Chain.unlink
  refine hremoved.bind fun r hr => ?_
  refine Gives.bind_any fun left => ?_
  refine (hr.withCount left).enforce (fun j id b hb => ?_) (fun hfew j id b _ hb => ?_)
    fun j id b hj hin hne hne' _ hb => ?_
  · obtain ⟨k, -, -, -, -, -, hfits⟩ := hb
    exact hfits.calm
  · obtain ⟨k, -, -, -, -, hk, hfits⟩ := hb
    refine hfits.outer ?_
    simp only [Outside, IsOuter]
    omega
  · obtain ⟨k, hA, hF, hle, hle', hk, hfits⟩ := hb
    refine (hfits.inner ?_).imp_right (.imp (.imp_left hA) (.imp_left hF))
    simp only [Outside, IsOuter] at *
    omega

end Each

/-! ### Between operations -/

/-- Every block fits its place, except that those whose names have `P` may be open. -/
def Settled (c : Chain) (depth : Nat) (P : BlockId → Prop) : Prop :=
  ∃ n, c.Each depth n (FitsBut depth n (fun _ => P) fun _ => False)

/-- Besides, block number `i` may be open. -/
def Held (c : Chain) (depth : Nat) (P : BlockId → Prop) (i : Nat) : Prop :=
  ∃ n, c.Each depth n (FitsBut depth n (fun j id => P id ∨ j = i) fun _ => False)

/-- Besides, block number `i` is expanded. -/
def Ready (c : Chain) (depth : Nat) (P : BlockId → Prop) (i : Nat) : Prop :=
  ∃ n, c.Each depth n (FitsExpanded depth n (fun j id => P id ∨ j = i) (fun _ => False) i)

variable {P : BlockId → Prop}

namespace Settled

theorem held (h : c.Settled depth P) (i : Nat) : c.Held depth P i := by
  obtain ⟨n, h⟩ := h
  exact ⟨n, h.imp fun _ _ _ _ hb => hb.imp .inl fun hf => hf⟩

theorem withCount (h : c.Settled depth P) (n : Nat) : (c.withCount n).Settled depth P := by
  obtain ⟨n', h⟩ := h
  exact ⟨n', h.withCount n⟩

theorem touch (h : c.Settled depth P) : c.touch.Settled depth P := by
  obtain ⟨n, h⟩ := h
  exact ⟨n, h.touch⟩

theorem takeId (h : c.Settled depth P) : c.takeId.2.Settled depth P := by
  obtain ⟨n, h⟩ := h
  exact ⟨n, h.takeId⟩

end Settled

namespace Held

theorem takeId (h : c.Held depth P i) : c.takeId.2.Held depth P i := by
  obtain ⟨n, h⟩ := h
  exact ⟨n, h.takeId⟩

theorem openForUse (h : c.Held depth P i) : Gives (c.openForUse i) (·.Ready depth P i) := by
  obtain ⟨n, h⟩ := h
  exact (h.openForUse (fun _ _ ha => ha) fun _ => .inr rfl).imp fun _ h₁ => ⟨n, h₁⟩

theorem settle (h : c.Held depth P i) : Gives (c.settle i) (·.Settled depth P) := by
  obtain ⟨n, h⟩ := h
  exact (h.settle fun _ _ hj ha => ha.resolve_right hj).imp fun _ h₁ => ⟨n, h₁⟩

theorem recompress (h : c.Held depth P i) : Gives (c.recompress i) (·.Settled depth P) := by
  obtain ⟨n, h⟩ := h
  refine (h.recompress (fun _ _ hj ha => ha.resolve_right hj) fun _ _ hf => hf).imp
    fun _ h₁ => ⟨n, h₁⟩

theorem unlink (h : c.Held depth P i) : Gives (c.unlink i) (·.Settled depth P) := by
  obtain ⟨n, h⟩ := h
  have hgone : Gives (c.unlink i)
      (·.Each depth (n - 1) (FitsBut depth (n - 1) (fun _ => P) fun _ => False)) := by
    refine h.unlink (fun j hj => ⟨fun id ha => ?_, fun hf => hf⟩)
      fun j hj => ⟨fun id ha => ?_, fun hf => hf⟩
    · exact ha.resolve_right (Nat.ne_of_lt hj)
    · exact ha.resolve_right (by omega)
  exact hgone.imp fun _ h₁ => ⟨n - 1, h₁⟩

/-- Until the boundaries are restored the new block is plain, and the old one may be open. -/
theorem linkCell (h : c.Held depth P i) (hnew : new.block.IsPlain) (place : Place) :
    Gives (c.linkCell (some i) place new) fun c' => ∃ n, c'.Each depth n (FitsBut depth n
      (fun j id => (P id ∧ j ≠ place.cut i) ∨ j = place.moved i)
      (Crossed depth n (place.cut i))) := by
  obtain ⟨n, h⟩ := h
  refine gives_linkCell fun arena => ?_
  refine ((h.withArena arena).insertCell_fits hnew (fun j id hj ha => ?_)
    fun j id hj ha => ?_).imp fun c₁ h₁ => ⟨n + 1, h₁⟩
  · cases place with
    | before => exact .inl ⟨ha.resolve_right (Nat.ne_of_lt hj), Nat.ne_of_lt hj⟩
    | after => exact ha.imp_left fun hp => ⟨hp, Nat.ne_of_lt hj⟩
  · cases place with
    | before =>
      exact ha.imp (fun hp => ⟨hp, Nat.ne_of_gt (Nat.lt_succ_of_le hj)⟩) (congrArg (· + 1))
    | after =>
      simp only [Option.elim, Place.cut] at hj ⊢
      exact .inl ⟨ha.resolve_right (by omega), by omega⟩

/-- **A block can be put beside one that is open**, and the list is settled. -/
theorem linkBeside (h : c.Held depth P i) (hnew : new.block.IsPlain) (place : Place) :
    Gives (c.linkBeside i place new) (·.Settled depth P) := by
  rw [linkBeside_eq]
  refine (h.linkCell hnew place).bind fun c₁ h₁ => ?_
  obtain ⟨n, h₁⟩ := h₁
  exact h₁.recompress_both.imp fun c₂ h₂ => ⟨n, h₂⟩

end Held

namespace Ready

theorem held (h : c.Ready depth P i) : c.Held depth P i := by
  obtain ⟨n, h⟩ := h
  exact ⟨n, h.fits⟩

theorem withCount (h : c.Ready depth P i) (n : Nat) : (c.withCount n).Ready depth P i := by
  obtain ⟨n', h⟩ := h
  exact ⟨n', h.withCount n⟩

theorem takeId (h : c.Ready depth P i) : c.takeId.2.Ready depth P i := by
  obtain ⟨n, h⟩ := h
  exact ⟨n, h.takeId⟩

theorem rewrite (h : c.Ready depth P i) (hf : Rewrites f) :
    Gives (c.modifyBlock i f) (·.Ready depth P i) := by
  obtain ⟨n, h⟩ := h
  exact (h.rewrite hf).imp fun _ h₁ => ⟨n, h₁⟩

end Ready

end Chain

end UnrolledList
