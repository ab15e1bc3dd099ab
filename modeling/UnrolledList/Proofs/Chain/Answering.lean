import UnrolledList.Proofs.Chain.Refinement
import UnrolledList.Proofs.Chain.Stopping
import UnrolledList.Proofs.Chain.Sweeping

/-!
# Every action is answered

What was said of the ends in `UnrolledList.Proofs.Chain.Stopping` is said here of everything
else that can be done to a list: it answers, or it stops for one of the two reasons
(`UnrolledList.Chain.Exceeds`).
-/

namespace UnrolledList

theorem Fill.bytes_bounds_le (fill : Fill) : fill.bounds.bytes ≤ 65536 := by
  cases fill with
  | entries n =>
    change safetySize ≤ 65536
    decide
  | sizeClass level =>
    revert level
    decide

/-- **What fits into one block has a header** that can tell its size. -/
theorem Leaf.size_append_lt {fill : Fill} {a b : Leaf} (h : ¬ Leaf.Apart fill a b) :
    (a.list ++ b.list).size < Packed.sizeLimit := by
  have hbytes := fill.bytes_bounds_le
  have hsizes : a.list.size + b.list.size - 11 ≤ fill.bounds.bytes := by
    by_contra hover
    exact h (.inl (Nat.lt_of_not_le hover))
  have hleft := a.list.narrowSize_bodies_le
  have hright := b.list.narrowSize_bodies_le
  -- even if all links were wide, there would be room
  have hlinks := Packed.totalSize_le_narrowSize (a.list ++ b.list).entries.toList
  have hbodies : (a.list ++ b.list).entries.toList.map Entry.body =
      a.list.bodies ++ b.list.bodies := a.list.bodies_append b.list
  have hnarrow : (a.list ++ b.list).entries.toList.length ≤
      Body.narrowSize (a.list.bodies ++ b.list.bodies) := by
    rw [← hbodies, ← List.length_map Entry.body]
    exact Body.length_le_narrowSize _
  rw [hbodies, Body.narrowSize_append] at hlinks
  rw [Body.narrowSize_append] at hnarrow
  rw [(a.list ++ b.list).size_eq, Packed.sizeLimit]
  simp only [Packed.envelopeSize] at hleft hright ⊢
  omega

namespace Chain

open scoped List

variable {c c₀ : Chain} {l : Layout} {kind : Packed → Prop} {ts adds : List Bytes}
  {pre post : List Leaf} {x : Leaf} {why : Fault → Prop} {s : Bytes} {i k : Nat}

/-! ### Finding -/

theorem Has.stops_handleAt? (h : c.Has l) (i : Nat) (place : Cursor) (offset : Int) :
    Stops (c.handleAt? i place offset) why :=
  h.stops_packed i fun _ => stops_pure

/-- Looking for an element is stopped by nothing. -/
theorem Among.find? (h : c.Among kind ts) (i : Int) :
    Explained (c.find? i) (·.1.Among kind ts) why := by
  unfold Chain.find?
  split
  · exact explained_ok.mpr h
  · next j offset _ =>
    refine (h.openForUse j).bind fun c₁ h₁ => ?_
    obtain ⟨l, hl, -⟩ := id h₁
    refine ((stops_block j).explained.and_gives (hl.gives_block j)).bind fun b hb => ?_
    obtain ⟨-, p, hkeeps⟩ := hb
    refine hkeeps.stops_packed.explained.bind fun q _ => ?_
    split
    · exact explained_pure.mpr h₁
    · exact (hl.stops_handleAt? j _ offset).explained.bind fun _ _ => explained_pure.mpr h₁

theorem Has.stops_index (h : c.Has l) (i : Int) : Stops (c.index i) why :=
  (Among.find? h.grownFrom_self i).stops_bind fun _ _ => stops_pure

/-- **Reading** compresses a block again, and nothing else can stop it. -/
theorem Has.stops_get? (h : c.Has l) (i : Int) : Stops (c.get? i) (c.Exceeds []) := by
  refine (Among.find? h.grownFrom_self i).stops_bind fun r hr => ?_
  obtain ⟨c₁, found⟩ := r
  cases found with
  | none => exact stops_pure
  | some found => exact (Among.settle hr found.1).stops_bind fun _ _ => stops_pure

/-! ### Overwriting -/

theorem GrownFrom.stops_overwrite (h : c.GrownFrom c₀ adds) (i k : Nat) (s : Bytes) :
    Stops (c.overwrite i k s) (c₀.Exceeds (adds ++ [s])) := by
  have hchanges : Block.Changes (fun b => b.modify fun p => (p.eraseIdx k 1).insertIdx k s)
      fun p => (p.eraseIdx k 1).insertIdx k s := Block.changes_modify fun p hp hsize =>
    (hp.eraseIdx (Nat.lt_of_le_of_lt (Packed.size_le_insertIdx _ k s) hsize)).insertIdx hsize
  have hmade : ∀ p : Packed, ((p.eraseIdx k 1).insertIdx k s).bodies.Subperm
      (p.bodies ++ [s].map .ofBytes) := fun p =>
    ((p.eraseIdx k 1).bodies_insertIdx_subperm k s).trans
      ((List.subperm_append_right _).mpr (p.sublist_bodies_eraseIdx k 1).subperm)
  refine (h.change hchanges [s] fun _ p _ _ => hmade p).stops_bind fun c₁ h₁ => ?_
  exact (Among.recompress h₁ i).stops_bind fun _ _ => stops_pure

/-- Names and stamps are stopped by broken promises, and not by limits. -/
theorem stops_idxOf (c : Chain) (id : BlockId) : Stops (c.idxOf id) why := by
  unfold Chain.idxOf
  split
  · exact stops_ok
  · exact stops_error False.elim

theorem stops_checkFresh (c : Chain) (h : Handle) : Stops (c.checkFresh h) why := by
  unfold Chain.checkFresh
  split
  · exact stops_ok
  · exact stops_error False.elim

theorem Has.stops_replace (h : c.Has l) (handle : Handle) (s : Bytes) :
    Stops (c.replace handle s) (c.Exceeds [s]) :=
  (stops_checkFresh c handle).bind_any fun _ => (stops_idxOf c _).bind_any fun i =>
    h.grownFrom_self.stops_overwrite i _ s

theorem Has.stops_replaceAt (h : c.Has l) (i : Int) (s : Bytes) :
    Stops (c.replaceAt i s) (c.Exceeds [s]) := by
  refine (Among.find? h.grownFrom_self i).stops_bind fun r hr => ?_
  obtain ⟨c₁, found⟩ := r
  cases found with
  | none => exact stops_pure
  | some found => exact (GrownFrom.stops_overwrite hr _ _ s).bind_any fun _ => stops_pure

/-! ### Erasing -/

/-- **Entries erased from within a block.** -/
theorem GrownFrom.eraseWithin (h : c.GrownFrom c₀ adds) (i : Nat) (offset : Int) (n : Nat) :
    Explained (c.eraseWithin i offset n) (·.1.GrownFrom c₀ adds) (c₀.Exceeds adds) := by
  have hchanges : Block.Changes (fun b => do
      let left ← subtract b.count n
      let b ← b.modify fun p => (p.eraseRange offset n).1
      return b.withCount left) fun p => (p.eraseRange offset n).1 :=
    (Block.changes_modify fun _ hp => hp.eraseRange).subtract n
  refine (Among.openForUse h i).bind fun c₁ h₁ => ?_
  refine (GrownFrom.reduce h₁ hchanges
    (fun p => (p.sublist_bodies_eraseRange offset n).subperm) i).bind fun c₂ h₂ => ?_
  refine (stops_subtract _ _).explained.bind fun left _ => ?_
  refine (stops_block i).explained.bind fun b _ => ?_
  dsimp only
  split
  · exact (Among.unlink (Among.withCount h₂ left) i).bind fun c₃ h₃ => explained_pure.mpr h₃
  · exact (Among.settle (Among.withCount h₂ left) i).bind fun c₃ h₃ => explained_pure.mpr h₃

theorem GrownFrom.eraseFrom (h : c.GrownFrom c₀ adds) (blocks i : Nat) (offset : Int)
    (extent : Nat) :
    Explained (Chain.eraseFrom blocks i offset extent c) (·.GrownFrom c₀ adds)
      (c₀.Exceeds adds) := by
  induction blocks generalizing c i offset extent with
  | zero => exact explained_ok.mpr h
  | succ blocks ih =>
    unfold Chain.eraseFrom
    split
    · exact explained_ok.mpr h
    · refine (stops_block i).explained.bind fun b _ => ?_
      dsimp only
      split
      · exact (Among.unlink h i).bind fun c₁ h₁ => ih h₁ _ _ _
      · exact (h.eraseWithin i offset _).bind fun r hr => ih hr _ _ _

/-- **Erasing a range** only takes away. -/
theorem Has.stops_eraseRange (h : c.Has l) (start n : Int) :
    Stops (c.eraseRange start n) (c.Exceeds []) := by
  unfold Chain.eraseRange
  split
  · exact stops_ok
  · refine (Among.find? h.grownFrom_self start).stops_bind fun r hr => ?_
    obtain ⟨c₁, found⟩ := r
    cases found with
    | none => exact stops_pure
    | some found => exact (GrownFrom.eraseFrom hr _ _ _ _).stops_bind fun _ _ => stops_pure

/-! ### Merging -/

/-- Setting a number of entries is stopped by nothing. -/
theorem stops_withCount (c : Chain) (i n : Nat) :
    Stops (c.modifyBlock i fun b => .ok (b.withCount n)) why := by
  by_cases hi : i < c.cells.size
  · rw [modifyBlock_eq c hi]
    exact stops_ok
  · rw [modifyBlock_eq_missing hi]
    exact stops_error False.elim

/-- The entries of a block go to the one before it, if the two fit into one. -/
theorem Has.stops_gatherNext (h : c.Has l) {a b : Leaf} (hl : l.leaves = pre ++ a :: b :: post)
    (hfits : ¬ Leaf.Apart c.fill a b) : Stops (c.gatherNext pre.length) why := by
  have hl' : l.leaves = (pre ++ [a]) ++ b :: post := by rw [hl, ← List.append_cons]
  obtain ⟨left, hleft, hkeeps, -⟩ := h.block_eq hl
  obtain ⟨right, hright, hkeeps', -⟩ := h.block_eq hl'
  rw [List.length_append, List.length_singleton] at hright
  rw [Chain.gatherNext, hright, ok_bind, hkeeps'.packed_eq, ok_bind]
  refine Stops.bind_any (h.stops_modifyBlock fun _ _ _ _ _ block hblock _ => ?_) fun c₁ => ?_
  · obtain rfl := Except.ok.inj (hleft.symm.trans hblock)
    rw [Block.modify_eq hkeeps.packed_eq, if_pos (Leaf.size_append_lt hfits)]
    exact stops_ok
  · exact stops_withCount c₁ _ 0

/-- **Two blocks that fit** are merged, or there is a reason why not. -/
theorem Has.stops_mergeWithNext (h : c.Has l) {a b : Leaf} (hl : l.leaves = pre ++ a :: b :: post)
    (hfits : ¬ Leaf.Apart c.fill a b) (hts : l.texts.Subperm (c₀.texts ++ adds)) :
    Stops (c.mergeWithNext pre.length) (c₀.Exceeds adds) := by
  rw [mergeWithNext_eq]
  refine (h.stops_gatherNext hl hfits).bind (h.gatherNext hl).gives fun c₁ h₁ => ?_
  -- for a moment the entries are in both blocks, but before anything is compressed one of them
  -- is gone
  have hgone : Gives (c₁.removeCell (pre.length + 1)) fun r =>
      ∀ n, (r.1.withCount n).Among (fun _ => True) (c₀.texts ++ adds) := by
    have hremove := (h₁.removeCell rfl).gives
    rw [List.length_append, List.length_singleton] at hremove
    refine hremove.imp fun r hr n => (hr.2.withCount n).among (fun _ _ => trivial) ?_
    refine List.Subperm.trans (List.Perm.subperm (.of_eq ?_)) hts
    simp [Layout.texts, hl]
  exact (explained_unlink hgone).stops_bind fun c₂ h₂ => (h₂.recompress _).2

theorem Among.mergeIfFits (h : c.Among (fun _ => True) (c₀.texts ++ adds)) (i : Nat) :
    Explained (c.mergeIfFits i) (·.1.Among (fun _ => True) (c₀.texts ++ adds))
      (c₀.Exceeds adds) := by
  obtain ⟨l, hl, -, hts⟩ := h
  refine ⟨(hl.mergeIfFits i).gives.imp fun r hr => ?_, ?_⟩
  · obtain ⟨l', h', hmerges⟩ := hr
    exact h'.among (fun _ _ => trivial) (hmerges.texts_eq ▸ hts)
  · unfold Chain.mergeIfFits
    split
    · next hlt =>
      rw [hl.length_eq] at hlt
      obtain ⟨pre, a, b, post, hsplit, rfl⟩ := l.exists_pair hlt
      rw [hl.admitsMerge_eq hsplit, ok_bind]
      split
      · next hfits =>
        have hfits := of_decide_eq_true hfits
        exact (hl.stops_mergeWithNext hsplit hfits hts).bind_any fun _ => stops_pure
      · exact stops_pure
    · exact stops_ok

theorem Among.mergeBefore (h : c.Among (fun _ => True) (c₀.texts ++ adds)) (i distance : Nat) :
    Explained (c.mergeBefore i distance) (·.1.Among (fun _ => True) (c₀.texts ++ adds))
      (c₀.Exceeds adds) := by
  unfold Chain.mergeBefore
  split
  · exact (h.mergeIfFits _).bind fun r hr => explained_pure.mpr hr
  · exact explained_ok.mpr h

/-- **A merge sweep** answers, or there is a reason why not. -/
theorem Among.stops_mergeAround (h : c.Among (fun _ => True) (c₀.texts ++ adds)) (i : Nat) :
    Stops (c.mergeAround i) (c₀.Exceeds adds) := by
  refine (h.mergeBefore i 2).stops_bind fun r hr => ?_
  refine (Among.mergeIfFits hr _).stops_bind fun r' hr => ?_
  refine (Among.mergeBefore hr r.2 1).stops_bind fun r hr => ?_
  exact (Among.mergeIfFits hr _).stops_bind fun _ _ => stops_pure

/-! ### Inserting -/

/-- **A string that goes into the block** of the element beside which it is inserted. -/
theorem Has.stops_insertWithin (h : c.Has l) (i : Nat) (entry : Cursor) (place : Place)
    (s : Bytes) : Stops (c.insertWithin i entry place s) (c.Exceeds [s]) := by
  have hchanges : Block.Changes (fun b => do
      let n := b.count
      let b ← b.modify fun p => p.insertIdx (place.cut entry.idx) s
      return b.withCount (n + 1)) fun p => p.insertIdx (place.cut entry.idx) s :=
    (Block.changes_modify fun _ hp => hp.insertIdx).withCount fun b => b.count + 1
  refine (Among.openForUse h.grownFrom_self i).stops_bind fun c₁ h₁ => ?_
  have hinsert := GrownFrom.change (i := i) h₁ hchanges [s] fun _ p _ _ =>
    p.bodies_insertIdx_subperm _ s
  exact hinsert.stops_bind fun c₂ h₂ => (Among.settle h₂ i).2

/-- **A string that goes to a neighbour.** -/
theorem Has.stops_insertInNeighbour (h : c.Has l) (i j : Nat) (facing : Side) (s : Bytes) :
    Stops (c.insertInNeighbour i j facing s) (c.Exceeds [s]) := by
  refine (Among.openForUse h.grownFrom_self j).stops_bind fun c₁ h₁ => ?_
  refine (GrownFrom.pushInto h₁ j facing s).stops_bind fun c₂ h₂ => ?_
  exact (Among.settle h₂ j).stops_bind fun c₃ h₃ => (h₃.settle i).2

/-- **A string that gets a block of its own.** -/
theorem Has.stops_insertNew (h : c.Has l) {b : Block} (hb : b.Keeps (Packed.empty.push s)) (i : Nat)
    (place : Place) :
    Stops (c.takeId.2.linkBeside i place ⟨c.takeId.1, b⟩) (c.Exceeds [s]) := by
  have htaken : c.takeId.2.GrownFrom c [] := Among.takeId h.grownFrom_self
  exact (explained_linkBeside (htaken.gives_linkCell hb h.spare_takeId _ _)).2

/-- The halves of a list are made of it. -/
theorem sublist_bodies_halves (p : Packed) (k : Nat) (place : Place) :
    (p.halves k place).1.bodies.Sublist p.bodies ∧
      (p.halves k place).2.bodies.Sublist p.bodies := by
  cases place with
  | after => exact ⟨p.sublist_bodies_eraseRange _ _, p.sublist_bodies_eraseRange _ _⟩
  | before => exact ⟨p.sublist_bodies_eraseRange _ _, p.sublist_bodies_eraseRange _ _⟩

/-- A block that is split keeps a part of its list. -/
theorem Has.stops_splitBlock (h : c.Has l) (hl : l.leaves = pre ++ x :: post) (place : Place) :
    Stops (c.splitBlock pre.length k place) why := by
  obtain ⟨b, hb, hkeeps, -⟩ := h.block_eq hl
  have hwell := (hkeeps.wellFormed.halves k place).1
  rw [Chain.splitBlock, hb, ok_bind, hkeeps.packed_eq, ok_bind]
  have hmod : Stops (c.modifyBlock pre.length fun b => do
      let b ← b.modify fun _ => (x.list.halves k place).1
      return b.withCount (x.list.halves k place).1.length) why := by
    refine h.stops_modifyBlock fun _ _ _ _ _ block _ hkeeps' => ?_
    rw [Block.modify_eq hkeeps'.packed_eq, if_pos hwell.size_lt]
    exact stops_ok
  exact hmod.bind_any fun c₁ => stops_pure

/-- The other half gets the string. -/
theorem explained_pushFacing (h : c.Has l) (hl : l.leaves = pre ++ x :: post) (k : Nat)
    (place : Place) (s : Bytes) :
    Explained ((Block.ofPacked (x.list.halves k place).2).pushFacing place s)
      (·.Keeps ((x.list.halves k place).2.pushFacing place s)) (c.Exceeds [s]) := by
  obtain ⟨b, hb, hkeeps, -⟩ := h.block_eq hl
  have hwell := (hkeeps.wellFormed.halves k place).2
  refine ⟨(Block.keeps_pushFacing hwell place s).gives.imp fun b hb => hb.1, ?_⟩
  rw [Block.pushFacing_ofPacked]
  split
  · exact stops_ok
  · next hlarge =>
    refine stops_error fun _ => .outgrown _ ?_ (Nat.le_of_not_lt hlarge)
    have hpart := (sublist_bodies_halves x.list k place).2.subperm
    have hmade := (makes_of_mem (mem_blocks hb) hkeeps.packed_eq).of_subperm hpart
    have hbodies : ((x.list.halves k place).2.pushFacing place s).bodies.Subperm
        ((x.list.halves k place).2.bodies ++ [s].map .ofBytes) := by
      rw [Packed.bodies_pushFacing]
      cases place with
      | after => exact (List.perm_append_singleton _ _).symm.subperm
      | before => exact .refl _
    exact hmade.append hbodies

/-- With the string the halves hold what there was and the string. -/
theorem perm_texts_divides {p q r : Packed} {place : Place} (h : p.Divides k place q r)
    (s : Bytes) :
    (q.texts ++ (r.pushFacing place s).texts).Perm (p.texts ++ [s]) := by
  have htexts := h.texts_inOrder s
  have hcut : (p.texts.take (place.cut k) ++ s :: p.texts.drop (place.cut k)).Perm
      (p.texts ++ [s]) := by
    refine List.perm_middle.trans ?_
    rw [List.take_append_drop]
    exact (List.perm_append_singleton _ _).symm
  rw [← htexts] at hcut
  cases place with
  | after => simpa [Place.inOrder] using hcut
  | before =>
    simp only [Place.inOrder, List.flatMap_cons, List.flatMap_nil, List.append_nil] at hcut
    exact List.perm_append_comm.trans hcut

/-- **A block that is split** and a string that is linked with one of the halves. -/
theorem Has.explained_splitAndLink (h : c.Has l) (hs : l.Sound) (hl : l.leaves = pre ++ x :: post)
    (hk : k < x.count) (place : Place) (s : Bytes) :
    Explained (c.splitAndLink pre.length k place s)
      (·.Among (fun _ => True) (c.texts ++ [s])) (c.Exceeds [s]) := by
  have hdivides := Packed.divides_halves (h.wellFormed hl) (hs.counted_split hl ▸ hk) place
  have hopen : Explained (c.openForUse pre.length) (·.Has l) (c.Exceeds [s]) :=
    ⟨(h.openForUse (by simp [hl])).gives, h.stops_openForUse _⟩
  refine hopen.bind fun c₁ h₁ => ?_
  refine Explained.bind ⟨(h₁.splitBlock hl place).gives, Has.stops_splitBlock h₁ hl place⟩
    fun r hr => ?_
  obtain ⟨c₂, half⟩ := r
  obtain ⟨rfl, h₂, hspare⟩ : half = _ ∧ c₂.Has _ ∧ c₂.arena.Spare _ half.id := hr
  refine (explained_pushFacing h hl k place s).bind fun b hb => ?_
  -- with the string the halves hold what the block held and the string
  have hbeside : c₂.Among (fun _ => True) _ := h₂.among (fun _ _ => trivial) (.refl _)
  have hnew : (⟨l.takeId.1, b⟩ : Cell).Shows
      ⟨l.takeId.1, (x.list.halves k place).2.pushFacing place s, b.count⟩ := ⟨rfl, hb, rfl⟩
  have hspare' : c₂.arena.Spare c₂.ids l.takeId.1 := by
    rw [h₂.ids_eq]
    simpa [Layout.ids] using hspare
  have hlink := hbeside.gives_linkCell hnew trivial hspare' (some pre.length) place
  refine explained_linkBeside (hlink.imp fun c₃ h₃ => ?_)
  obtain ⟨l₃, hl₃, -, hts⟩ := h₃
  refine hl₃.among (fun _ _ => trivial) (hts.trans (List.Perm.subperm ?_))
  rw [h.texts_eq, Layout.texts, Layout.texts, hl]
  simp only [Layout.textsOf_append, Layout.textsOf_cons]
  have hhalves := perm_texts_divides hdivides s
  calc Layout.textsOf pre ++ ((x.list.halves k place).1.texts ++ Layout.textsOf post) ++
        ((x.list.halves k place).2.pushFacing place s).texts
    _ = Layout.textsOf pre ++ ((x.list.halves k place).1.texts ++ (Layout.textsOf post ++
          ((x.list.halves k place).2.pushFacing place s).texts)) := by simp
    _ ~ Layout.textsOf pre ++ ((x.list.halves k place).1.texts ++
          (((x.list.halves k place).2.pushFacing place s).texts ++ Layout.textsOf post)) :=
        (List.perm_append_comm.append_left _).append_left _
    _ = Layout.textsOf pre ++ ((x.list.halves k place).1.texts ++
          ((x.list.halves k place).2.pushFacing place s).texts ++ Layout.textsOf post) := by simp
    _ ~ Layout.textsOf pre ++ (x.list.texts ++ [s] ++ Layout.textsOf post) :=
        (hhalves.append_right _).append_left _
    _ = Layout.textsOf pre ++ (x.list.texts ++ ([s] ++ Layout.textsOf post)) := by simp
    _ ~ Layout.textsOf pre ++ (x.list.texts ++ (Layout.textsOf post ++ [s])) :=
        (List.perm_append_comm.append_left _).append_left _
    _ = Layout.textsOf pre ++ (x.list.texts ++ Layout.textsOf post) ++ [s] := by simp

theorem Has.stops_insertSplitting (h : c.Has l) (hs : l.Sound) (hl : l.leaves = pre ++ x :: post)
    (hk : k < x.count) (place : Place) (s : Bytes) :
    Stops (c.insertSplitting pre.length k place s) (c.Exceeds [s]) := by
  rw [insertSplitting_eq]
  exact (h.explained_splitAndLink hs hl hk place s).stops_bind fun c₁ h₁ => h₁.stops_mergeAround _

/-- Beside a full block a string goes one of three ways. -/
theorem Has.stops_insertBeyond (h : c.Has l) (hs : l.Sound) (hl : l.leaves = pre ++ x :: post)
    (hk : k < x.count) (place : Place) (s : Bytes) :
    Stops (c.insertBeyond pre.length k place s) (c.Exceeds [s]) := by
  obtain ⟨r, hr, -⟩ := h.neighbourAt?_eq (k := k) hl place
  rw [Chain.insertBeyond, hr, ok_bind]
  cases r with
  | none =>
    rw [Int.toNat_natCast]
    exact h.stops_insertSplitting hs hl hk place s
  | some found =>
    obtain ⟨j, facing⟩ := found
    refine (h.stops_admits [] j).bind_any fun answer => ?_
    cases answer with
    | true => exact h.stops_insertInNeighbour _ j facing s
    | false =>
      exact (explained_singleton c [] s).stops_bind fun b hb => h.stops_insertNew hb _ place

/-- **An insertion** puts in the string that it is given. -/
theorem Has.stops_insertBeside (h : c.Has l) (hs : l.Sound) {handle : Handle}
    (hn : handle.Names l pre x post k) (place : Place) (s : Bytes) :
    Stops (c.insertBeside handle place s) (c.Exceeds [s]) := by
  have hl := hn.leaves_eq
  obtain ⟨b, hb, -, hcount⟩ := h.block_eq hl
  have hk := natCast_of_idxOf? hn.offset_eq
  rw [Chain.insertBeside, h.checkFresh hn.stamp_eq, ok_bind, hn.block_eq, h.idxOf_eq hs hl, ok_bind,
    hb, ok_bind, hcount]
  dsimp only
  rw [hk]
  refine (h.stops_admits [] _).bind_any fun answer => ?_
  cases answer with
  | true => exact (h.stops_insertWithin _ _ place s).bind_any fun _ => stops_pure
  | false => exact (h.stops_insertBeyond hs hl hn.lt place s).bind_any fun _ => stops_pure

end Chain

/-! ### Walking -/

namespace Walk

open Chain

variable {c c₀ : Chain} {kind : Packed → Prop} {ts adds : List Bytes} {why : Fault → Prop}

theorem explained_openBlock (h : c.Among kind ts) (w : Walk) (i : Nat) :
    Explained (w.openBlock c i) (·.Among kind ts) why := by
  unfold openBlock
  split
  · exact h.openForUse i
  · exact h.inflate i

/-- **A walk goes on** through blocks that it opens and leaves again. -/
theorem explained_nextAmong (h : c.Among kind (c₀.texts ++ adds)) (w : Walk) (blocks : Nat) :
    Explained (w.nextAmong blocks c) (·.2.1.Among kind (c₀.texts ++ adds)) (c₀.Exceeds adds) := by
  induction blocks generalizing w c with
  | zero => exact explained_ok.mpr h
  | succ blocks ih =>
    unfold nextAmong
    split
    · exact explained_ok.mpr h
    · next i _ =>
      refine (explained_openBlock h w i).bind fun c₁ h₁ => ?_
      obtain ⟨l, hl, -⟩ := id h₁
      refine ((stops_block i).explained.and_gives (hl.gives_block i)).bind fun b hb => ?_
      obtain ⟨-, p, hkeeps⟩ := hb
      refine hkeeps.stops_packed.explained.bind fun q _ => ?_
      have hhandle : Stops ((w.advance q).handle? c₁ i) (c₀.Exceeds adds) := by
        unfold handle?
        split
        · exact hl.stops_handleAt? i _ _
        · exact stops_ok
      refine hhandle.explained.bind fun found _ => ?_
      cases found with
      | some found => exact explained_pure.mpr h₁
      | none => exact (h₁.recompress i).bind fun c₂ h₂ => ih h₂ _

theorem explained_finish (h : c.Among kind (c₀.texts ++ adds)) (w : Walk) :
    Explained (w.finish c) (·.Among kind (c₀.texts ++ adds)) (c₀.Exceeds adds) := by
  unfold finish
  split
  · exact h.recompress _
  · exact explained_ok.mpr h

/-- **Erasing on the way** takes away what has been met. -/
theorem explained_erase (h : c.GrownFrom c₀ adds) (w : Walk) (handle : Handle) :
    Explained (w.erase c handle) (·.2.1.GrownFrom c₀ adds) (c₀.Exceeds adds) := by
  unfold erase
  split
  · exact ⟨gives_error, stops_error False.elim⟩
  · split
    · refine (h.eraseAt _ _).bind fun r hr => ?_
      exact explained_pure.mpr (Among.touch hr)
    · exact ⟨gives_error, stops_error False.elim⟩

/-- However a walk begins, it is stopped by nothing. -/
theorem explained_begin (h : c.Among kind ts) (origin : Side) (i : Option Int) :
    Explained (Session.begin c origin i) (·.1.Among kind ts) why := by
  cases i with
  | none => exact explained_ok.mpr h
  | some i =>
    rw [Session.begin]
    unfold ofIndex
    refine (h.find? i).bind fun r hr => ?_
    obtain ⟨c₁, found⟩ := r
    cases found with
    | none => exact explained_pure.mpr hr
    | some found => exact (stops_block _).explained.bind fun b _ => explained_pure.mpr hr

end Walk

/-! ### Every action -/

/-- The strings that a list is given by an action. -/
def Action.adds (c : Chain) : Action → List Bytes
  | .push _ s | .insertAtEnd _ s | .insertBeside _ _ s | .replace _ s | .replaceAt _ s => [s]
  | .rotate => c.texts.getLast?.toList
  | .append p | .appendValues p => p.val.texts
  | .appendBytes blob =>
    match Packed.ofBytes blob with
    | .ok p => p.texts
    | .error _ => []
  | _ => []

namespace Session

open Chain

variable {s : Session} {m : Ledger} {c₀ : Chain} {adds : List Bytes}

/-- **A walk that follows a script** only takes away. -/
theorem stops_follow (h : s.chain.GrownFrom c₀ adds) (script : List Bool) (w : Walk)
    (met : List Bytes) : Stops (follow script w s met) (c₀.Exceeds adds) := by
  induction script generalizing w s met with
  | nil =>
    rw [follow]
    exact (Walk.explained_finish h w).stops_bind fun _ _ => stops_pure
  | cons erasing script ih =>
    rw [follow]
    refine (Walk.explained_nextAmong h w _).stops_bind fun r hr => ?_
    obtain ⟨w₁, c₁, found⟩ := r
    cases found with
    | none => exact (Walk.explained_finish hr w₁).stops_bind fun _ _ => stops_pure
    | some handle =>
      cases erasing with
      | true => exact (Walk.explained_erase hr w₁ handle).stops_bind fun r hr => ih hr _ _
      | false => exact ih (s := (s.withChain c₁).hold [handle]) hr _ _

/-- **An action stops for a reason**, if it stops at a limit. -/
theorem Follows.stops (h : s.Follows m) (a : Action) :
    Stops (s.perform a) (s.chain.Exceeds (a.adds s.chain)) := by
  obtain ⟨l, hl, hs, -, hheld⟩ := h
  cases a with
  | push side t => exact (hl.grownFrom_self.push side t).stops_bind fun _ _ => stops_pure
  | pop side => exact (hl.stops_pop side).bind_any fun _ => stops_pure
  | get i => exact (hl.stops_get? i).bind_any fun _ => stops_pure
  | index i => exact (hl.stops_index i).bind_any fun _ => stops_pure
  | insertAtEnd place t =>
    refine Stops.bind_any ?_ fun _ => stops_pure
    exact (hl.grownFrom_self.push _ t).stops_bind fun _ _ => stops_pure
  | insertBeside handle place t =>
    rw [Session.perform]
    rcases marks_of_held hheld handle with ⟨hnone, -⟩ | ⟨h, k, hsome, -, hmarks⟩
    · rw [hnone]
      exact stops_ok
    · obtain ⟨pre, x, post, j, hnames, rfl⟩ := hmarks
      rw [hsome]
      exact (hl.stops_insertBeside hs hnames place t).bind_any fun _ => stops_pure
  | replace handle t =>
    rw [Session.perform]
    split
    · exact stops_ok
    · exact (hl.stops_replace _ t).bind_any fun _ => stops_pure
  | replaceAt i t => exact (hl.stops_replaceAt i t).bind_any fun _ => stops_pure
  | eraseRange start n => exact (hl.stops_eraseRange start n).bind_any fun _ => stops_pure
  | rotate => exact (hl.stops_rotate hs).bind_any fun _ => stops_pure
  | append p => exact (hl.stops_appendBlock p.property).bind_any fun _ => stops_pure
  | appendValues p =>
    exact (hl.grownFrom_self.pushAll p.val.values).stops_bind fun _ _ => stops_pure
  | appendBytes blob =>
    rw [Session.perform, Chain.appendBytes, Action.adds]
    cases hblob : Packed.ofBytes blob with
    | error d => exact stops_pure
    | ok p =>
      have happend := hl.stops_appendBlock (Packed.wellFormed_of_ofBytes hblob).2
      refine Stops.bind_any (happend.bind_any fun _ => stops_pure) fun answer => ?_
      cases answer with
      | error d => exact stops_pure
      | ok c => exact stops_pure
  | walk origin i script =>
    refine (Walk.explained_begin hl.grownFrom_self origin i).stops_bind fun r hr => ?_
    obtain ⟨c, w⟩ := r
    cases w with
    | none => exact stops_pure
    | some w =>
      exact (stops_follow (s := s.withChain c) hr script w []).bind_any fun _ => stops_pure
  | setFill setting => exact stops_ok
  | setDepth depth => exact stops_ok
  | duplicate => exact stops_ok

/-- A run that stops stops at one of its actions. -/
theorem exists_of_run_eq_error {as : List Action} {f : Fault} (h : s.run as = .error f) :
    ∃ before a after r, as = before ++ a :: after ∧ s.run before = .ok r ∧
      r.1.perform a = .error f := by
  induction as generalizing s with
  | nil => contradiction
  | cons a as ih =>
    rw [run] at h
    cases hfirst : s.perform a with
    | error e =>
      rw [hfirst, error_bind] at h
      exact ⟨[], a, as, (s, []), rfl, rfl, by rw [hfirst, Except.error.inj h]⟩
    | ok r =>
      rw [hfirst, ok_bind] at h
      dsimp only at h
      cases hrest : r.1.run as with
      | ok r' =>
        rw [hrest] at h
        contradiction
      | error e =>
        rw [hrest, error_bind] at h
        obtain rfl := Except.error.inj h
        obtain ⟨before, b, after, r', rfl, hbefore, hb⟩ := ih hrest
        refine ⟨a :: before, b, after, (r'.1, r.2 :: r'.2), rfl, ?_, hb⟩
        rw [run, hfirst, ok_bind]
        dsimp only
        rw [hbefore]
        rfl

/-- **Every run is answered**, unless there is a reason why not. It gives the replies of the
sequence, holds its strings and counts them. If it stops, then at an action that was to put
more into one block than a header can tell, or that the compressor fails on; and up to there
it has done what it should. -/
theorem run_answers (setting depth : Int) (as : List Action) :
    Answers ((ofOptions setting depth).run as)
      (fun r => r.2 = (Ledger.run as {}).2 ∧ r.1.chain.texts = (Ledger.run as {}).1.texts ∧
        r.1.chain.count = (Ledger.run as {}).1.texts.length)
      fun f => ∃ before a after r, as = before ++ a :: after ∧
        (ofOptions setting depth).run before = .ok r ∧
          r.1.chain.Exceeds (a.adds r.1.chain) f := by
  refine (run_refines setting depth as).answers fun f hf hlimit => ?_
  obtain ⟨before, a, after, r, has, hbefore, ha⟩ := exists_of_run_eq_error hf
  have hfollows := ((follows_ofOptions setting depth).run before).gives r hbefore
  exact ⟨before, a, after, r, has, hbefore, hfollows.1.stops a f ha hlimit⟩

/-- **A block is split and swept around, unless there is a reason why not**, in every list that a
run reaches. A sweep merges what fits, so it is not what outgrows a header. -/
theorem run_sweepsAround (setting depth : Int) (as : List Action) :
    Ensures ((ofOptions setting depth).run as) fun r =>
      ∀ i k place t b, r.1.chain.block i = .ok b → k < b.count →
        Answers (r.1.chain.insertSplitting i k place t)
          (fun c' => ∃ c l,
            r.1.chain.splitAndLink i k place t = .ok c ∧ c.Has l ∧
            c.length = r.1.chain.length + 1 ∧ c.id? (place.moved i) = r.1.chain.id? i ∧
            c.mergeAround (place.moved i) = .ok c' ∧ c'.fill = c.fill ∧
            Sweeps l (place.moved i) c')
          (r.1.chain.Exceeds [t]) := by
  have hfollows := ((follows_ofOptions setting depth).run as).gives
  refine ((run_sweeps setting depth as).and_gives hfollows).imp fun r hr => ?_
  obtain ⟨hsweeps, ⟨l, hl, hs, -⟩, -⟩ := hr
  intro i k place t b hb hk
  obtain ⟨pre, x, post, hleaves, rfl, -, hcount⟩ := hl.exists_leaf_of_block hb
  refine (hsweeps _ k place t b hb hk).answers ?_
  exact hl.stops_insertSplitting hs hleaves (hcount ▸ hk) place t

/-- Three blocks under a fill of two entries. The ones on either side of the full one have lost an
entry. -/
def frayed : List Action :=
  [.push .tail [97], .push .tail [98], .push .tail [99], .push .tail [100], .push .tail [101],
    .push .tail [102], .eraseRange 0 1, .eraseRange (-1) 1]

/-- The block in the middle is split. The half that keeps its name is merged with the block before
it, and the other half has got the string and is full. -/
theorem run_sweepsAround_frayed :
    ∃ r c c', (ofOptions 2 0).run frayed = .ok r ∧
      r.1.chain.splitAndLink 1 0 .after [120] = .ok c ∧
      r.1.chain.insertSplitting 1 0 .after [120] = .ok c' ∧
      c.blocks.map Block.count = [1, 1, 2, 1] ∧ c'.blocks.map Block.count = [2, 2, 1] ∧
      ∃ l, c.Has l ∧ Sweeps l 1 c' := by
  have hrun : ∃ r, (ofOptions 2 0).run frayed = .ok r ∧
      (r.1.chain.block 1).map Block.count = .ok 2 ∧
      (r.1.chain.splitAndLink 1 0 .after [120]).map (fun c => c.blocks.map Block.count) =
        .ok [1, 1, 2, 1] ∧
      (r.1.chain.insertSplitting 1 0 .after [120]).map (fun c => c.blocks.map Block.count) =
        .ok [2, 2, 1] :=
    exists_eq_ok (by decide +kernel)
  obtain ⟨r, hr, hblock, hlinked, hswept⟩ := hrun
  have hsweeps := run_sweepsAround 2 0 frayed
  rw [hr] at hsweeps
  obtain ⟨b, hb, hcount⟩ := exists_of_map_eq_ok hblock
  obtain ⟨c, hc, hcounts⟩ := exists_of_map_eq_ok hlinked
  obtain ⟨c', hc', hcounts'⟩ := exists_of_map_eq_ok hswept
  have hresult := (hsweeps 1 0 .after [120] b hb (by omega)).of_ok hc'
  obtain ⟨c₁, l, hc₁, hl, -, -, -, -, hsweep⟩ := hresult
  obtain rfl : c₁ = c := Except.ok.inj (hc₁.symm.trans hc)
  exact ⟨r, c₁, c', hr, hc, hc', hcounts, hcounts', l, hl, hsweep⟩

end Session

end UnrolledList
