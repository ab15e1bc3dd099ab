import UnrolledList.Proofs.Chain.Merging
import UnrolledList.Proofs.Packed.Halves

/-!
# What an insertion does

However a string finds its way into the list – into the block of the element beside which
it is inserted, to a neighbour, into a block of its own or between the halves of a block
that is split – it ends up **at the cut** beside that element
(`UnrolledList.Chain.Has.insertBeside`). The cut is described from within the block: `j`
entries of the block `x` are before it, so the strings before it are those of the blocks
`pre` and `j` of those of `x`.

The element is counted last, whatever way was taken, so the cases share their conclusion
(`UnrolledList.Chain.Owes`).
-/

namespace UnrolledList

theorem Place.cut_le (place : Place) {k n : Nat} (h : k < n) : place.cut k ≤ n := by
  cases place with
  | before => exact Nat.le_of_lt h
  | after => exact h

namespace Layout

/-- The strings of a layout, with one more at the cut before entry number `j` of the block
`x`. -/
def textsWith (pre : List Leaf) (x : Leaf) (post : List Leaf) (j : Nat) (s : Bytes) :
    List Bytes :=
  textsOf pre ++ (x.list.texts.take j ++ s :: x.list.texts.drop j) ++ textsOf post

end Layout

namespace Block

/-- A string goes to a new block if a header can tell the size that comes of it. -/
theorem pushFacing_ofPacked (q : Packed) (place : Place) (s : Bytes) :
    (ofPacked q).pushFacing place s =
      if (q.pushFacing place s).size < Packed.sizeLimit then
        .ok ⟨.plain (q.pushFacing place s), (q.pushFacing place s).size, q.length + 1, false, false⟩
      else .error .overflow := by
  have hpacked : (ofPacked q).packed = .ok q := rfl
  cases place with
  | after =>
    rw [pushFacing, Block.pushFront, modify_eq hpacked, Packed.pushFacing]
    split <;> rfl
  | before =>
    rw [pushFacing, Block.pushBack, modify_eq hpacked, Packed.pushFacing]
    split <;> rfl

theorem keeps_pushFacing {q : Packed} (hq : q.WellFormed) (place : Place) (s : Bytes) :
    Ensures ((ofPacked q).pushFacing place s) fun b =>
      b.Keeps (q.pushFacing place s) ∧ b.count = q.length + 1 := by
  rw [pushFacing_ofPacked]
  split
  · next hsize => exact ⟨keeps_plain rfl (hq.pushFacing hsize), rfl⟩
  · trivial

end Block

namespace Chain

variable {c : Chain} {l : Layout} {pre post : List Leaf} {x : Leaf} {k : Nat}

/-! ### Into the block of the element -/

/-- One block has a string more. -/
theorem Has.insertWithin_layout (h : c.Has l) (hl : l.leaves = pre ++ x :: post)
    (entry : Cursor) (place : Place) (s : Bytes) :
    Ensures (c.insertWithin pre.length entry place s) (·.Has { l with
      leaves := pre ++ ⟨x.id, x.list.insertIdx (place.cut entry.idx) s, x.count + 1⟩ ::
        post }) := by
  have hi : pre.length < l.leaves.length := by simp [hl]
  refine (h.openForUse hi).bind fun c₁ h₁ => ?_
  have hmod := h₁.modifyBlock (y := ⟨x.id, x.list.insertIdx (place.cut entry.idx) s, x.count + 1⟩)
    (f := fun b => do
      let n := b.count
      let b ← b.modify fun p => p.insertIdx (place.cut entry.idx) s
      return b.withCount (n + 1)) hl rfl fun b hb hcount => by
        rw [hcount]
        exact (hb.modify hb.wellFormed.insertIdx).bind fun b' hb' => ⟨hb'.1.withCount _, rfl⟩
  exact hmod.bind fun c₂ h₂ => h₂.settle (by simp)

theorem Has.insertWithin (h : c.Has l) (hs : l.Sound) (hl : l.leaves = pre ++ x :: post)
    {entry : Cursor} (hk : entry.idx < x.count) (place : Place) (s : Bytes) :
    Ensures (c.insertWithin pre.length entry place s)
      (·.Owes (Layout.textsWith pre x post (place.cut entry.idx) s) l.stamp) := by
  have hx := hs.counted_split hl
  have hcut : place.cut entry.idx ≤ x.list.entries.size := hx ▸ place.cut_le hk
  refine (h.insertWithin_layout hl entry place s).imp fun c' h' => ⟨_, h', ?_, ?_, rfl⟩
  · refine hs.set (y := ⟨x.id, x.list.insertIdx (place.cut entry.idx) s, x.count + 1⟩) hl rfl ?_
      (Nat.succ_pos _) ?_
    · rw [← Packed.length_texts, Packed.texts_insertIdx _ hcut, List.length_append,
        List.length_cons, List.length_take_of_le (by rwa [Packed.length_texts]), List.length_drop,
        Packed.length_texts]
      simp only
      omega
    · simp only
      omega
  · simp [Layout.texts, Layout.textsWith, Packed.texts_insertIdx _ hcut]

/-! ### To a neighbour -/

/-- The neighbour has a string more. -/
theorem Has.insertInNeighbour_layout (h : c.Has l) {front back : List Leaf} {z : Leaf}
    (hl : l.leaves = front ++ z :: back) {i : Nat} (hi : i < l.leaves.length) (facing : Side)
    (s : Bytes) :
    Ensures (c.insertInNeighbour i front.length facing s)
      (·.Has { l with leaves := front ++ z.pushed facing s :: back }) := by
  have hj : front.length < l.leaves.length := by simp [hl]
  refine (h.openForUse hj).bind fun c₁ h₁ => (h₁.pushInto hl facing s).bind fun c₂ h₂ => ?_
  exact (h₂.settle (by simp)).bind fun c₃ h₃ => h₃.settle (by simpa [hl] using hi)

/-- A string goes to a neighbour, at the end that faces the block. -/
theorem Has.insertInNeighbour (h : c.Has l) (hs : l.Sound) {front back : List Leaf} {z : Leaf}
    (hl : l.leaves = front ++ z :: back) {i : Nat} (hi : i < l.leaves.length) (facing : Side)
    (s : Bytes) :
    Ensures (c.insertInNeighbour i front.length facing s)
      (·.Owes (Layout.textsOf front ++ (facing.cons s z.list.texts ++ Layout.textsOf back))
        l.stamp) := by
  refine (h.insertInNeighbour_layout hl hi facing s).imp fun c' h' => ?_
  refine ⟨_, h', sound_pushed hs hl facing s, ?_, rfl⟩
  simp [Layout.texts, Leaf.texts_pushed]

/-! ### Between the halves of a block -/

/-- A block that makes room for one element more by becoming two. -/
theorem sound_split (h : l.Sound) (hl : l.leaves = pre ++ x :: post) {y z : Leaf}
    (hy : y.id = x.id) (hz : z.id = l.takeId.1)
    (hcounted : ∀ w ∈ [y, z], w.count = w.list.entries.size ∧ 0 < w.count)
    (hsum : y.count + z.count = x.count + 1) (place : Place) :
    Layout.Sound { l.takeId.2 with
      leaves := match place with
        | .before => pre ++ z :: y :: post
        | .after => pre ++ y :: z :: post
      count := l.count + 1 } := by
  obtain ⟨hcounted₁, hpos₁⟩ := hcounted y (by simp)
  obtain ⟨hcounted₂, hpos₂⟩ := hcounted z (by simp)
  have htotal : l.count = Layout.total pre + (x.count + Layout.total post) := by
    rw [h.count_eq, hl, Layout.total_append, Layout.total_cons]
  have hset := h.set hl hy hcounted₁ hpos₁
    (show l.count + 1 - z.count + x.count = l.count + y.count by omega)
  have hid : z.id = (Layout.takeId { l with
      leaves := pre ++ y :: post, count := l.count + 1 - z.count }).1 := by
    rw [Layout.takeId_with, hz]
  have hback : l.count + 1 - z.count + z.count = l.count + 1 := by omega
  cases place with
  | before =>
    have hins := hset.insert rfl hid hcounted₂ hpos₂
    rw [Layout.takeId_with] at hins
    simpa only [hback] using hins
  | after =>
    have hins := hset.insert (List.append_cons pre y post) hid hcounted₂ hpos₂
    rw [Layout.takeId_with] at hins
    simpa only [hback, List.append_assoc, List.singleton_append] using hins

/-- A split leaves one half in the block and makes a block of the other one, which is still to
be linked. -/
theorem Has.splitBlock (h : c.Has l) (hl : l.leaves = pre ++ x :: post) (place : Place) :
    Ensures (c.splitBlock pre.length k place) fun r =>
      r.2 = ⟨l.takeId.1, Block.ofPacked (x.list.halves k place).2⟩ ∧
        r.1.Has { l.takeId.2 with
          leaves := pre ++ ⟨x.id, (x.list.halves k place).1, (x.list.halves k place).1.length⟩ ::
            post } ∧
        r.1.arena.Spare (pre.map Leaf.id ++ x.id :: post.map Leaf.id) r.2.id := by
  obtain ⟨b, hb, hkeeps, -⟩ := h.block_eq hl
  rw [Chain.splitBlock, hb, ok_bind, hkeeps.packed_eq, ok_bind]
  have hmod := h.modifyBlock
    (y := ⟨x.id, (x.list.halves k place).1, (x.list.halves k place).1.length⟩)
    (f := fun b => do
      let b ← b.modify fun _ => (x.list.halves k place).1
      return b.withCount (x.list.halves k place).1.length) hl rfl fun b hb hcount =>
        (hb.modify (f := fun _ => (x.list.halves k place).1)
          fun _ => (hb.wellFormed.halves k place).1).bind
            fun b' hb' => ⟨hb'.1.withCount _, rfl⟩
  refine hmod.bind fun c₁ h₁ => ?_
  obtain ⟨hid, htaken, hspare⟩ := h₁.takeId
  rw [Layout.takeId_with] at hid htaken hspare
  change Ensures (pure (c₁.takeId.2,
    (⟨c₁.takeId.1, Block.ofPacked (x.list.halves k place).2⟩ : Cell))) _
  rw [ensures_pure, hid]
  rw [hid] at hspare
  exact ⟨rfl, by simpa using htaken, by simpa using hspare⟩

/-- Splits a block and links the new half with its string, which is what an insertion does before
its merge sweep. -/
def splitAndLink (c : Chain) (i k : Nat) (place : Place) (s : Bytes) : Except Fault Chain := do
  let c ← c.openForUse i
  let (c, half) ← c.splitBlock i k place
  let b ← half.block.pushFacing place s
  c.linkBeside i place ⟨half.id, b⟩

theorem insertSplitting_eq (c : Chain) (i k : Nat) (place : Place) (s : Bytes) :
    c.insertSplitting i k place s = (do
      let c ← c.splitAndLink i k place s
      c.mergeAround (place.moved i)) := by
  cases place <;> simp only [Chain.insertSplitting, splitAndLink, bind_assoc, Place.moved]

/-- **A block that was split** keeps its name, and beside it stands the other half with the
string. The string is not counted yet. -/
theorem Has.splitAndLink (h : c.Has l) (hs : l.Sound) (hl : l.leaves = pre ++ x :: post)
    (hk : k < x.count) (place : Place) (s : Bytes) :
    Ensures (c.splitAndLink pre.length k place s) fun c' => ∃ l' y z,
      c'.Has l' ∧ Layout.Sound { l' with count := l'.count + 1 } ∧
        l'.texts = Layout.textsWith pre x post (place.cut k) s ∧ l'.stamp = l.stamp ∧
        y.id = x.id ∧ l'.leaves = match place with
          | .before => pre ++ z :: y :: post
          | .after => pre ++ y :: z :: post := by
  have hx := hs.counted_split hl
  have hwell := h.wellFormed hl
  have hk' : k < x.list.entries.size := hx ▸ hk
  have hdivides := Packed.divides_halves hwell hk' place
  obtain ⟨hwell₁, hwell₂⟩ := hwell.halves k place
  have hcount₁ := Packed.length_eq_iff.mpr hwell₁.counted
  have hcount₂ := Packed.length_eq_iff.mpr hwell₂.counted
  refine (h.openForUse (by simp [hl])).bind fun c₁ h₁ => ?_
  refine (h₁.splitBlock hl place).bind fun r hr => ?_
  obtain ⟨c₂, half⟩ := r
  obtain ⟨rfl, h₂, hspare⟩ : half = _ ∧ c₂.Has _ ∧ c₂.arena.Spare _ half.id := hr
  refine (Block.keeps_pushFacing hwell₂ place s).bind fun b hb => ?_
  obtain ⟨hq, hbcount⟩ := hb
  have hshows : Cell.Shows ⟨l.takeId.1, b⟩
      ⟨l.takeId.1, (x.list.halves k place).2.pushFacing place s, b.count⟩ := ⟨rfl, hq, rfl⟩
  refine (h₂.linkBeside rfl hshows (by simpa using hspare) place).imp fun c₃ h₃ => ?_
  obtain ⟨hpos, hsum⟩ := hdivides.size_entries hk'
  have hqcount : b.count = ((x.list.halves k place).2.pushFacing place s).entries.size := by
    rw [hbcount, hcount₂, Packed.size_pushFacing]
  refine ⟨_, ⟨x.id, (x.list.halves k place).1, (x.list.halves k place).1.length⟩,
    ⟨l.takeId.1, (x.list.halves k place).2.pushFacing place s, b.count⟩, h₃, ?_, ?_,
    l.stamp_takeId, rfl, ?_⟩
  · simp only [Layout.count_takeId]
    refine sound_split (y := ⟨x.id, (x.list.halves k place).1, (x.list.halves k place).1.length⟩)
      (z := ⟨l.takeId.1, (x.list.halves k place).2.pushFacing place s, b.count⟩) hs hl rfl rfl ?_
      (by simp only; omega) place
    simp only [List.mem_cons, List.not_mem_nil, or_false, forall_eq_or_imp, forall_eq]
    exact ⟨⟨hcount₁, by omega⟩, hqcount, by omega⟩
  · have htexts := hdivides.texts_inOrder s
    cases place <;>
      simp only [Place.inOrder, List.flatMap_cons, List.flatMap_nil, List.append_nil] at htexts <;>
      simp [Layout.texts, Layout.textsWith, ← htexts]
  · cases place <;> rfl

theorem Has.insertSplitting (h : c.Has l) (hs : l.Sound) (hl : l.leaves = pre ++ x :: post)
    (hk : k < x.count) (place : Place) (s : Bytes) :
    Ensures (c.insertSplitting pre.length k place s)
      (·.Owes (Layout.textsWith pre x post (place.cut k) s) l.stamp) := by
  rw [insertSplitting_eq]
  refine (h.splitAndLink hs hl hk place s).bind fun c₁ hc₁ => ?_
  obtain ⟨l₁, y, z, h₁, hsound, htexts, hstamp, -⟩ := hc₁
  refine (h₁.mergeAround _).imp fun c₂ hc₂ => ?_
  obtain ⟨l₂, h₂, hmerges⟩ := hc₂
  refine ⟨l₂, h₂, ?_, hmerges.texts_eq.trans htexts, hmerges.stamp_eq.trans hstamp⟩
  rw [hmerges.count_eq]
  exact hmerges.sound _ hsound

/-! ### Beside a full block -/

/-- The neighbour that an insertion would stand next to, where the place is at the edge of
the block on the side of that neighbour. -/
theorem Has.neighbourAt?_eq (h : c.Has l) (hl : l.leaves = pre ++ x :: post) (place : Place) :
    ∃ r, c.neighbourAt? pre.length k place = .ok r ∧ ∀ j facing, r = some (j, facing) →
      match place with
      | .after => k + 1 = x.count ∧ j = (pre ++ [x]).length ∧ facing = .head ∧
          ∃ z back, post = z :: back
      | .before => k = 0 ∧ facing = .tail ∧ ∃ front z, pre = front ++ [z] ∧ j = front.length := by
  obtain ⟨b, hb, -, hcount⟩ := h.block_eq hl
  rw [Chain.neighbourAt?, hb, ok_bind]
  refine ⟨_, rfl, fun j facing hr => ?_⟩
  cases place with
  | after =>
    dsimp only at hr ⊢
    split at hr
    · next hcond =>
      rw [h.length_eq, hl, List.length_append, List.length_cons] at hcond
      obtain ⟨rfl, rfl⟩ : pre.length + 1 = j ∧ Side.head = facing := by simpa using hr
      refine ⟨by omega, by simp, rfl, List.exists_cons_of_length_pos (by omega)⟩
    · contradiction
  | before =>
    dsimp only at hr ⊢
    split at hr
    · next hcond =>
      obtain ⟨hzero, hpos⟩ := hcond
      obtain ⟨rfl, rfl⟩ : pre.length - 1 = j ∧ Side.tail = facing := by simpa using hr
      obtain ⟨front, z, hconcat⟩ := (List.eq_nil_or_concat pre).resolve_left
        (List.ne_nil_of_length_pos hpos)
      refine ⟨by omega, rfl, front, z, by simpa using hconcat, by simp [hconcat]⟩
    · contradiction

/-- There is one block more, under a name that was not in use. -/
theorem Has.insertNew_layout (h : c.Has l) (hl : l.leaves = pre ++ x :: post) (place : Place)
    {b : Block} {p : Packed} (hb : b.Keeps p) :
    Ensures (c.takeId.2.linkBeside pre.length place ⟨c.takeId.1, b⟩) (·.Has { l.takeId.2 with
      leaves := match place with
        | .before => pre ++ ⟨c.takeId.1, p, b.count⟩ :: x :: post
        | .after => pre ++ x :: ⟨c.takeId.1, p, b.count⟩ :: post }) := by
  obtain ⟨-, htaken, hspare⟩ := h.takeId
  have hl' : l.takeId.2.leaves = pre ++ x :: post := by rw [Layout.leaves_takeId, hl]
  exact htaken.linkBeside hl' (y := ⟨c.takeId.1, p, b.count⟩) ⟨rfl, hb, rfl⟩ hspare place

/-- A string gets a block of its own beside another one. -/
theorem Has.insertNew (h : c.Has l) (hs : l.Sound) (hl : l.leaves = pre ++ x :: post)
    (place : Place) {b : Block} {s : Bytes} (hb : b.Keeps (Packed.empty.push s))
    (hcount : b.count = 1) :
    Ensures (c.takeId.2.linkBeside pre.length place ⟨c.takeId.1, b⟩)
      (·.Owes (match place with
        | .before => Layout.textsOf pre ++ s :: (x.list.texts ++ Layout.textsOf post)
        | .after => Layout.textsOf pre ++ (x.list.texts ++ s :: Layout.textsOf post)) l.stamp) := by
  have hid := h.takeId.1
  have hcounted : b.count = (Packed.empty.push s).entries.size := by
    rw [hcount, ← Packed.length_texts, Packed.texts_push, Packed.texts_empty]
    rfl
  refine (h.insertNew_layout hl place hb).imp fun c' hc' => ⟨_, hc', ?_, ?_, l.stamp_takeId⟩
  · simp only [Layout.count_takeId]
    rw [← hcount]
    cases place with
    | before =>
      exact hs.insert (y := ⟨c.takeId.1, Packed.empty.push s, b.count⟩) hl hid hcounted
        (by simp only; omega)
    | after =>
      have hins := hs.insert (y := ⟨c.takeId.1, Packed.empty.push s, b.count⟩)
        (show l.leaves = (pre ++ [x]) ++ post by rw [hl, ← List.append_cons]) hid hcounted
        (by simp only; omega)
      simpa only [List.append_assoc, List.singleton_append] using hins
  · cases place <;> simp [Layout.texts]

/-- **A full block passes a string on** to where it stands beside the element all the
same. -/
theorem Has.insertBeyond (h : c.Has l) (hs : l.Sound) (hl : l.leaves = pre ++ x :: post)
    (hk : k < x.count) (place : Place) (s : Bytes) :
    Ensures (c.insertBeyond pre.length k place s)
      (·.Owes (Layout.textsWith pre x post (place.cut k) s) l.stamp) := by
  have hx := hs.counted_split hl
  have hlen := x.list.length_texts
  obtain ⟨r, hr, hneighbour⟩ := h.neighbourAt?_eq (k := k) hl place
  rw [Chain.insertBeyond, hr, ok_bind]
  cases r with
  | none => exact h.insertSplitting hs hl hk place s
  | some found =>
    obtain ⟨j, facing⟩ := found
    replace hneighbour := hneighbour j facing rfl
    cases place with
    | after =>
      obtain ⟨hlast, rfl, rfl, z, back, rfl⟩ := hneighbour
      have hl' : l.leaves = (pre ++ [x]) ++ z :: back := by rw [hl, ← List.append_cons]
      have hall : x.list.texts.length ≤ k + 1 := by omega
      refine (h.admits hl' s.length).bind fun answer _ => ?_
      cases answer with
      | true =>
        have hi : pre.length < l.leaves.length := by simp [hl]
        refine (h.insertInNeighbour hs hl' hi .head s).imp fun c' hc' => ?_
        simpa [Layout.textsWith, Place.cut, List.take_of_length_le hall,
          List.drop_of_length_le hall, Side.cons] using hc'
      | false =>
        refine (Block.keeps_singleton s).bind fun b hb => ?_
        refine (h.insertNew hs hl .after hb.1 hb.2).imp fun c' hc' => ?_
        simpa [Layout.textsWith, Place.cut, List.take_of_length_le hall,
          List.drop_of_length_le hall] using hc'
    | before =>
      obtain ⟨rfl, rfl, front, z, rfl, rfl⟩ := hneighbour
      have hl' : l.leaves = front ++ z :: (x :: post) := by rw [hl, ← List.append_cons]
      refine (h.admits hl' s.length).bind fun answer _ => ?_
      cases answer with
      | true =>
        have hi : (front ++ [z]).length < l.leaves.length := by simp [hl]
        refine (h.insertInNeighbour hs hl' hi .tail s).imp fun c' hc' => ?_
        simpa [Layout.textsWith, Place.cut, Side.cons] using hc'
      | false =>
        refine (Block.keeps_singleton s).bind fun b hb => ?_
        refine (h.insertNew hs hl .before hb.1 hb.2).imp fun c' hc' => ?_
        simpa [Layout.textsWith, Place.cut] using hc'

/-! ### Beside an element -/

/-- The offset of a handle, counted from the head of the block. -/
theorem natCast_of_idxOf? {n : Nat} {offset : Int} (h : Packed.idxOf? n offset = some k) :
    (if offset < 0 then offset + n else offset) = (k : Int) := by
  obtain ⟨hk, rfl | rfl⟩ := Packed.idxOf?_eq_some h
  · rw [if_neg (by omega)]
  · rw [if_pos (by omega)]
    omega

/-- **An insertion puts the string beside the element** that the handle names. -/
theorem Has.insertBeside (h : c.Has l) (hs : l.Sound) {handle : Handle}
    (hn : handle.Names l pre x post k) (place : Place) (s : Bytes) :
    Ensures (c.insertBeside handle place s)
      (·.Holds (Layout.textsWith pre x post (place.cut k) s) (l.stamp + 1)) := by
  have hl := hn.leaves_eq
  obtain ⟨b, hb, -, hcount⟩ := h.block_eq hl
  have hk := natCast_of_idxOf? hn.offset_eq
  rw [Chain.insertBeside, h.checkFresh hn.stamp_eq, ok_bind, hn.block_eq, h.idxOf_eq hs hl, ok_bind,
    hb, ok_bind, hcount]
  dsimp only
  rw [hk]
  refine (h.admits hl s.length).bind fun answer _ => ?_
  cases answer with
  | true =>
    have hwithin := h.insertWithin hs hl (hn.idx_eq ▸ hn.lt) place s
    rw [hn.idx_eq] at hwithin
    exact hwithin.bind fun c' hc' => hc'.count.touch
  | false => exact (h.insertBeyond hs hl hn.lt place s).bind fun c' hc' => hc'.count.touch

/-- Inside the sequence the string stands at the index of the cut. -/
theorem textsWith_eq (hs : l.Sound) (hl : l.leaves = pre ++ x :: post) {j : Nat}
    (hj : j ≤ x.count) (s : Bytes) :
    Layout.textsWith pre x post j s =
      l.texts.take (Layout.total pre + j) ++ s :: l.texts.drop (Layout.total pre + j) := by
  rw [hs.take_texts hl hj, hs.drop_texts hl hj, Layout.textsWith]
  simp

end Chain

end UnrolledList
