import UnrolledList.Proofs.Chain.Answering

/-!
# How far an insertion reaches

A string that is inserted beside an element is **one element more at its place**, and the blocks
that are changed for it are near: the block of the element, the two before it and the two after
it (`UnrolledList.Chain.ChangesNear`). All others keep their names, their packed lists down to
the byte, and their order, and there is at most one block more.

How far it is depends on the way that the string takes. Inside the block of the element it is
that block alone; beyond its edge it is the neighbour, or a new block between the two. Only a
block that is split reaches further, by the merge sweep. The window of the sweep
(`UnrolledList.Chain.Sweeps`) is around the half that keeps the name; counted without the new
half, which is in it, it lies within the five blocks on either side.

Which block this is a handle tells by its name, and which of the elements by its offset in the
block, from the head or from the tail (`UnrolledList.Handle.Finds`).
-/

namespace UnrolledList

/-! ### Layouts that are the same but for a few blocks -/

namespace Layout

variable {l l' : Layout} {i : Nat}

/-- The blocks are the same but for those from number `i - 2` to number `i + 2`, and there is at
most one block more. -/
structure ChangesNear (l : Layout) (i : Nat) (l' : Layout) : Prop where
  /-- What is different lies between what was there before. -/
  outside : ∃ mid, l'.leaves = l.leaves.take (i - 2) ++ mid ++ l.leaves.drop (i + 3)
  /-- One block more at most. -/
  length_le : l'.leaves.length ≤ l.leaves.length + 1

/-- Blocks that take the place of others nearby. -/
theorem changesNear_of_leaves_eq (front old new back : List Leaf)
    (hl : l.leaves = front ++ old ++ back)
    (hl' : l'.leaves = front ++ new ++ back) (hfront : i - 2 ≤ front.length)
    (hold : front.length + old.length ≤ i + 3) (hnew : new.length ≤ old.length + 1) :
    l.ChangesNear i l' where
  outside := by
    -- what is near but was not changed belongs to the part between as well
    refine ⟨front.drop (i - 2) ++ new ++ back.take (i + 3 - (front ++ old).length), ?_⟩
    have hcut : i + 3 = (front ++ old).length + (i + 3 - (front ++ old).length) := by
      rw [List.length_append]
      omega
    have htake : l.leaves.take (i - 2) = front.take (i - 2) := by
      rw [hl, List.append_assoc, List.take_append_of_le_length hfront]
    have hdrop : l.leaves.drop (i + 3) = back.drop (i + 3 - (front ++ old).length) := by
      conv_lhs => rw [hl, hcut, List.drop_length_add_append]
    rw [htake, hdrop]
    calc l'.leaves
      _ = front.take (i - 2) ++ front.drop (i - 2) ++ new ++
          (back.take (i + 3 - (front ++ old).length) ++
            back.drop (i + 3 - (front ++ old).length)) := by
        rw [hl', List.take_append_drop, List.take_append_drop]
      _ = _ := by simp only [List.append_assoc]
  length_le := by
    rw [hl, hl']
    simp only [List.length_append]
    omega

end Layout

/-- Blocks that were put together from runs are no more than there were. -/
theorem Leaf.length_le_of_gathers {xs : List Leaf} {runs : List (List Leaf)}
    (h : List.Forall₂ Leaf.Gathers xs runs) : xs.length ≤ runs.flatten.length := by
  induction h with
  | nil => exact Nat.le_refl 0
  | cons hx _ ih =>
    have hpos := List.length_pos_iff.mpr hx.ne_nil
    rw [List.length_cons, List.flatten_cons, List.length_append]
    omega

namespace Chain

variable {c : Chain} {l : Layout} {pre post front back : List Leaf} {x z : Leaf} {k : Nat}
  {place : Place} {s : Bytes}

/-! ### One way after the other -/

theorem Has.insertWithin_near (h : c.Has l) (hl : l.leaves = pre ++ x :: post) (entry : Cursor)
    (place : Place) (s : Bytes) :
    Gives (c.insertWithin pre.length entry place s) fun c' =>
      ∃ l', c'.Has l' ∧ l.ChangesNear pre.length l' := by
  refine (h.insertWithin_layout hl entry place s).gives.imp fun c' h' => ⟨_, h', ?_⟩
  exact Layout.changesNear_of_leaves_eq pre [x] _ post (by simpa using hl) (List.append_cons _ _ _)
    (Nat.sub_le _ _) (by simp) (by simp)

theorem Has.insertInNeighbour_near (h : c.Has l) (hl : l.leaves = front ++ z :: back) {i : Nat}
    (hlt : i < l.leaves.length) (hfront : i - 2 ≤ front.length) (hi : front.length ≤ i + 2)
    (facing : Side) (s : Bytes) :
    Gives (c.insertInNeighbour i front.length facing s) fun c' =>
      ∃ l', c'.Has l' ∧ l.ChangesNear i l' := by
  refine (h.insertInNeighbour_layout hl hlt facing s).gives.imp fun c' h' => ⟨_, h', ?_⟩
  exact Layout.changesNear_of_leaves_eq front [z] _ back (by simpa using hl)
    (List.append_cons _ _ _) hfront (by simp only [List.length_singleton]; omega) (by simp)

theorem Has.insertNew_near (h : c.Has l) (hl : l.leaves = pre ++ x :: post) (place : Place)
    {b : Block} {p : Packed} (hb : b.Keeps p) :
    Gives (c.takeId.2.linkBeside pre.length place ⟨c.takeId.1, b⟩) fun c' =>
      ∃ l', c'.Has l' ∧ l.ChangesNear pre.length l' := by
  refine (h.insertNew_layout hl place hb).gives.imp fun c' h' => ⟨_, h', ?_⟩
  cases place with
  | before =>
    exact Layout.changesNear_of_leaves_eq pre [x] [⟨c.takeId.1, p, b.count⟩, x] post
      (by simpa using hl) (by simp) (Nat.sub_le _ _) (by simp) (by simp)
  | after =>
    exact Layout.changesNear_of_leaves_eq pre [x] [x, ⟨c.takeId.1, p, b.count⟩] post
      (by simpa using hl) (by simp) (Nat.sub_le _ _) (by simp) (by simp)

/-- **A split reaches as far as the sweep that follows it.** The new half counts among the blocks
of the window, so without it the window ends one block earlier behind the place, or begins one
block later in front of it. -/
theorem Has.insertSplitting_near (h : c.Has l) (hs : l.Sound) (hl : l.leaves = pre ++ x :: post)
    (hk : k < x.count) (place : Place) (s : Bytes) :
    Gives (c.insertSplitting pre.length k place s) fun c' =>
      ∃ l', c'.Has l' ∧ l.ChangesNear pre.length l' := by
  rw [insertSplitting_eq]
  refine (h.splitAndLink hs hl hk place s).gives.bind fun c₁ hc₁ => ?_
  obtain ⟨l₁, y, z, h₁, -, -, -, -, hleaves₁⟩ := hc₁
  obtain ⟨halves, hhalves, hlen⟩ : ∃ halves, l₁.leaves = pre ++ halves ++ post ∧
      halves.length = 2 := by
    cases place with
    | before => exact ⟨[z, y], by simpa using hleaves₁, rfl⟩
    | after => exact ⟨[y, z], by simpa using hleaves₁, rfl⟩
  -- the sweep is around the half that has kept its name
  have hsweep : ∀ m, m - 2 ≤ pre.length → m ≤ pre.length + 1 → pre.length ≤ m →
      Gives (c₁.mergeAround m) fun c' => ∃ l', c'.Has l' ∧ l.ChangesNear pre.length l' := by
    intro m hfront hm hm'
    have hlt : m < l₁.leaves.length := by
      rw [hhalves]
      simp only [List.length_append]
      omega
    refine (h₁.sweeps hlt).gives.imp fun c₂ hc₂ => ?_
    obtain ⟨-, l₂, xs, runs, h₂, hruns, hgathers, hleaves₂, -⟩ := hc₂
    have hcut : m + 3 = (pre ++ halves).length + (m + 1 - pre.length) := by
      rw [List.length_append]
      omega
    have htake : l₁.leaves.take (m - 2) = pre.take (m - 2) := by
      rw [hhalves, List.append_assoc, List.take_append_of_le_length hfront]
    have hdrop : l₁.leaves.drop (m + 3) = post.drop (m + 1 - pre.length) := by
      conv_lhs => rw [hhalves, hcut, List.drop_length_add_append]
    -- the sweep leaves no more blocks than were in its window, one of which is the new half
    have hfew := Leaf.length_le_of_gathers hgathers
    rw [← hruns, List.length_drop, List.length_take, hhalves] at hfew
    refine ⟨l₂, h₂, Layout.changesNear_of_leaves_eq (pre.take (m - 2))
      (pre.drop (m - 2) ++ x :: post.take (m + 1 - pre.length)) xs
      (post.drop (m + 1 - pre.length)) ?_ ?_ ?_ ?_ ?_⟩
    · calc l.leaves
        _ = pre.take (m - 2) ++ pre.drop (m - 2) ++
            x :: (post.take (m + 1 - pre.length) ++ post.drop (m + 1 - pre.length)) := by
          rw [List.take_append_drop, List.take_append_drop, hl]
        _ = _ := by simp only [List.append_assoc, List.cons_append]
    · rw [hleaves₂, htake, hdrop]
    · rw [List.length_take]
      omega
    · simp only [List.length_take, List.length_append, List.length_drop, List.length_cons]
      omega
    · simp only [List.length_append, List.length_take, List.length_drop, List.length_cons] at *
      omega
  cases place with
  | before => exact hsweep (pre.length + 1) (by omega) (Nat.le_refl _) (Nat.le_succ _)
  | after => exact hsweep pre.length (Nat.sub_le _ _) (Nat.le_succ _) (Nat.le_refl _)

theorem Has.insertBeyond_near (h : c.Has l) (hs : l.Sound) (hl : l.leaves = pre ++ x :: post)
    (hk : k < x.count) (place : Place) (s : Bytes) :
    Gives (c.insertBeyond pre.length k place s) fun c' =>
      ∃ l', c'.Has l' ∧ l.ChangesNear pre.length l' := by
  obtain ⟨r, hr, hneighbour⟩ := h.neighbourAt?_eq (k := k) hl place
  rw [Chain.insertBeyond, hr, ok_bind]
  cases r with
  | none => exact h.insertSplitting_near hs hl hk place s
  | some found =>
    obtain ⟨j, facing⟩ := found
    replace hneighbour := hneighbour j facing rfl
    have hnew : Gives (do
        let b ← Block.singleton s
        c.takeId.2.linkBeside pre.length place ⟨c.takeId.1, b⟩) fun c' =>
          ∃ l', c'.Has l' ∧ l.ChangesNear pre.length l' :=
      (Block.keeps_singleton s).gives.bind fun b hb => h.insertNew_near hl place hb.1
    -- the neighbour is the block at the number before or after
    obtain ⟨front, z, back, hl', rfl, hfront, hback⟩ : ∃ front z back,
        l.leaves = front ++ z :: back ∧ j = front.length ∧ pre.length - 2 ≤ front.length ∧
          front.length ≤ pre.length + 2 := by
      cases place with
      | after =>
        obtain ⟨-, rfl, -, z, back, rfl⟩ := hneighbour
        refine ⟨pre ++ [x], z, back, by rw [hl, ← List.append_cons], rfl, ?_, ?_⟩ <;>
          simp only [List.length_append, List.length_singleton] <;> omega
      | before =>
        obtain ⟨-, -, front, z, rfl, rfl⟩ := hneighbour
        refine ⟨front, z, x :: post, by rw [hl, ← List.append_cons], rfl, ?_, ?_⟩ <;>
          simp only [List.length_append, List.length_singleton] <;> omega
    refine Gives.bind_any fun admitted => ?_
    cases admitted with
    | true => exact h.insertInNeighbour_near hl' (by simp [hl]) hfront hback facing s
    | false => exact hnew

/-- **An insertion reaches no further than two blocks** from that of the element. -/
theorem Has.insertBeside_near (h : c.Has l) (hs : l.Sound) {handle : Handle}
    (hn : handle.Names l pre x post k) (place : Place) (s : Bytes) :
    Gives (c.insertBeside handle place s) fun c' =>
      ∃ l', c'.Has l' ∧ l.ChangesNear pre.length l' := by
  have hl := hn.leaves_eq
  obtain ⟨b, hb, -, hcount⟩ := h.block_eq hl
  have hk := natCast_of_idxOf? hn.offset_eq
  rw [Chain.insertBeside, h.checkFresh hn.stamp_eq, ok_bind, hn.block_eq, h.idxOf_eq hs hl, ok_bind,
    hb, ok_bind, hcount]
  dsimp only
  rw [hk]
  have hcounted : ∀ c' : Chain, (∃ l', c'.Has l' ∧ l.ChangesNear pre.length l') →
      ∃ l', (c'.withCount (c'.count + 1)).touch.Has l' ∧ l.ChangesNear pre.length l' := by
    rintro c' ⟨l', h', hnear⟩
    exact ⟨_, (h'.withCount _).touch, hnear.outside, hnear.length_le⟩
  refine Gives.bind_any fun admitted => ?_
  cases admitted with
  | true =>
    refine (h.insertWithin_near hl handle.place place s).bind fun c' hc' => ?_
    exact gives_pure.mpr (hcounted c' hc')
  | false =>
    refine (h.insertBeyond_near hs hl hn.lt place s).bind fun c' hc' => ?_
    exact gives_pure.mpr (hcounted c' hc')

/-! ### As seen from outside -/

/-- The names of the blocks from head to tail, with their packed lists and the numbers of their
entries. -/
def inventory (c : Chain) : List (BlockId × Except Fault Packed × Nat) :=
  c.cells.toList.map fun cell => (cell.id, cell.block.packed, cell.block.count)

theorem Has.inventory_eq (h : c.Has l) :
    c.inventory = l.leaves.map fun x => (x.id, .ok x.list, x.count) := by
  rw [inventory, ← List.forall₂_eq_eq_eq, List.forall₂_map_left_iff, List.forall₂_map_right_iff]
  exact h.cells.imp fun _ _ hx => by rw [hx.id_eq, hx.keeps.packed_eq, hx.count_eq]

/-- The blocks are the same but for those from number `i - 2` to number `i + 2`, and there is at
most one block more. -/
structure ChangesNear (c : Chain) (i : Nat) (c' : Chain) : Prop where
  /-- What is different lies between what was there before. -/
  outside : ∃ mid, c'.inventory = c.inventory.take (i - 2) ++ mid ++ c.inventory.drop (i + 3)
  /-- One block more at most. -/
  length_le : c'.length ≤ c.length + 1

theorem Has.changesNear {c' : Chain} {l' : Layout} {i : Nat} (h : c.Has l) (h' : c'.Has l')
    (hnear : l.ChangesNear i l') : c.ChangesNear i c' where
  outside := by
    obtain ⟨mid, hmid⟩ := hnear.outside
    refine ⟨mid.map fun x => (x.id, .ok x.list, x.count), ?_⟩
    rw [h.inventory_eq, h'.inventory_eq, hmid, List.map_append, List.map_append, List.map_take,
      List.map_drop]
  length_le := by
    rw [h.length_eq, h'.length_eq]
    exact hnear.length_le

end Chain

/-- **The handle designates** the element with index `k` of the list, by the name of block number
`i` and by the offset there. -/
def Handle.Finds (h : Handle) (c : Chain) (i k : Nat) : Prop :=
  c.idxOf h.block = .ok i ∧ h.stamp = c.stamp ∧
    ∃ b j, c.block i = .ok b ∧ Packed.idxOf? b.count h.offset = some j ∧
      k = ((c.blocks.map Block.count).take i).sum + j

theorem Handle.Names.finds {h : Handle} {c : Chain} {l : Layout} {pre post : List Leaf} {x : Leaf}
    {j : Nat} (hn : h.Names l pre x post j) (hc : c.Has l) (hs : l.Sound) :
    h.Finds c pre.length (Layout.total pre + j) := by
  have hl := hn.leaves_eq
  obtain ⟨b, hb, -, hcount⟩ := hc.block_eq hl
  refine ⟨?_, hn.stamp_eq.trans hc.stamp_eq.symm, b, j, hb, hcount ▸ hn.offset_eq, ?_⟩
  · rw [hn.block_eq, hc.idxOf_eq hs hl]
  · rw [hc.map_count_eq, hl, List.map_append, List.take_left' (List.length_map _), Layout.total]

namespace Session

/-- **An insertion puts one element where it belongs and changes no block that is not near**, on
either side of the element of any handle that is good, whether that was found by its index or met
on a walk. -/
theorem run_changesNear (setting depth : Int) (as : List Action) (place : Place) (t : Bytes) :
    Ensures ((ofOptions setting depth).run as) fun r => ∀ h ∈ r.1.held, ∃ i k,
      h.Finds r.1.chain i k ∧ r.1.chain.texts[k]? = some h.value.render ∧
        Ensures (r.1.chain.insert (some h) place t) fun c' =>
          c'.texts = r.1.chain.texts.insertIdx (place.cut k) t ∧ r.1.chain.ChangesNear i c' := by
  refine ((follows_ofOptions setting depth).run as).imp fun r hr h hh => ?_
  obtain ⟨⟨l, hl, hs, -, hheld⟩, -⟩ := hr
  obtain ⟨number, hlt, rfl⟩ := List.mem_iff_getElem.mp hh
  obtain ⟨pre, x, post, j, hn, -⟩ :=
    (List.forall₂_iff_get.mp hheld).2 number hlt (hheld.length_eq ▸ hlt)
  rw [List.get_eq_getElem] at hn
  have htexts := hl.texts_eq
  refine ⟨pre.length, _, hn.finds hl hs, ?_, ?_⟩
  · rw [htexts]
    exact Chain.getElem?_texts_of_names hs hn
  · have hinsert := (hl.insertBeside hs hn place t).and_gives (hl.insertBeside_near hs hn place t)
    refine hinsert.imp fun c' hc' => ?_
    obtain ⟨hholds, l', h', hnear⟩ := hc'
    have hcut : place.cut (Layout.total pre + j) = Layout.total pre + place.cut j := by
      cases place <;> rfl
    refine ⟨?_, hl.changesNear h' hnear⟩
    rw [hholds.texts_eq, textsWith_eq_insertIdx hs hn.leaves_eq (place.cut_le hn.lt), htexts, hcut]

/-- **An insertion does so, unless there is a reason why not.** It stops if the string and the
entries of one block are more than a header can tell, or if the compressor fails on strings of
the list and this one. -/
theorem run_insertsNear (setting depth : Int) (as : List Action) (place : Place) (t : Bytes) :
    Ensures ((ofOptions setting depth).run as) fun r => ∀ h ∈ r.1.held, ∃ i k,
      h.Finds r.1.chain i k ∧ r.1.chain.texts[k]? = some h.value.render ∧
        Answers (r.1.chain.insert (some h) place t)
          (fun c' => c'.texts = r.1.chain.texts.insertIdx (place.cut k) t ∧
            r.1.chain.ChangesNear i c')
          (r.1.chain.Exceeds [t]) := by
  have hfollows := ((follows_ofOptions setting depth).run as).gives
  refine ((run_changesNear setting depth as place t).and_gives hfollows).imp fun r hr h hh => ?_
  obtain ⟨hnear, ⟨l, hl, hs, -, hheld⟩, -⟩ := hr
  obtain ⟨i, k, hfinds, htext, hinsert⟩ := hnear h hh
  obtain ⟨number, hlt, rfl⟩ := List.mem_iff_getElem.mp hh
  obtain ⟨pre, x, post, j, hn, -⟩ :=
    (List.forall₂_iff_get.mp hheld).2 number hlt (hheld.length_eq ▸ hlt)
  rw [List.get_eq_getElem] at hn
  exact ⟨i, k, hfinds, htext, hinsert.answers (hl.stops_insertBeside hs hn place t)⟩

/-- Six blocks of two entries each with a depth of one, and a walk from the tail that ends at the
second entry of the fourth block. -/
def walkedBack : List Action :=
  ((List.range 12).map fun n => .push .tail [UInt8.ofNat (97 + n)]) ++
    [.walk .tail none [false, false, false, false, false]]

/-- The block is full and the place is inside of it, so it is split. -/
theorem run_insertsNear_walkedBack :
    ∃ r h c', (ofOptions 2 1).run walkedBack = .ok r ∧ h ∈ r.1.held ∧ h.offset = -1 ∧
      r.1.chain.insert (some h) .before [120] = .ok c' ∧ c'.length = 7 ∧
      ∃ i k, h.Finds r.1.chain i k ∧ r.1.chain.texts[k]? = some h.value.render ∧
        c'.texts = r.1.chain.texts.insertIdx k [120] ∧ r.1.chain.ChangesNear i c' := by
  have hrun : ∃ r, (ofOptions 2 1).run walkedBack = .ok r ∧
      (r.1.held[4]?.map fun h =>
        (h.offset, (r.1.chain.insert (some h) .before [120]).map Chain.length)) =
          some (-1, .ok 7) :=
    exists_eq_ok (by decide +kernel)
  obtain ⟨r, hr, hheld⟩ := hrun
  obtain ⟨h, hh, heq⟩ := Option.map_eq_some_iff.mp hheld
  obtain ⟨hoffset, hinsert⟩ := Prod.mk.inj heq
  obtain ⟨c', hc', hlen⟩ := exists_of_map_eq_ok hinsert
  have hmem := List.mem_of_getElem? hh
  have hnear := run_insertsNear 2 1 walkedBack .before [120]
  rw [hr] at hnear
  obtain ⟨i, k, hfinds, htext, hresult⟩ := hnear h hmem
  exact ⟨r, h, c', hr, hmem, hoffset, hc', hlen, i, k, hfinds, htext, hresult.of_ok hc'⟩

end Session

end UnrolledList
