import UnrolledList.Chain.Handle
import UnrolledList.Proofs.Chain.Ends

/-!
# What a handle names

A handle **names** an entry of a layout (`UnrolledList.Handle.Names`) if it says truly which
block it is in and which entry of the block it is, in both ways in which it says so. Such
an entry divides the layout into the blocks before it, its own and those after it, and its
index is the number of entries in front.

An index is looked for from the end that its sign names
(`UnrolledList.Chain.Has.locate?_eq`), and finds the element of the sequence with that
index. Looking opens a block and does not change the layout.
-/

namespace UnrolledList

/-- The handle names entry number `k` of the block `x`, which stands between the blocks
`pre` and `post`. -/
structure Handle.Names (h : Handle) (l : Layout) (pre : List Leaf) (x : Leaf) (post : List Leaf)
    (k : Nat) : Prop where
  /-- The block is one of the layout. -/
  leaves_eq : l.leaves = pre ++ x :: post
  /-- The handle has the name of the block. -/
  block_eq : h.block = x.id
  /-- The handle has the number of the entry. -/
  idx_eq : h.place.idx = k
  /-- The offset of the handle is that of the entry. -/
  offset_eq : Packed.idxOf? x.count h.offset = some k
  /-- The value is that of the entry. -/
  value_eq : x.list.texts[k]? = some h.value.render
  /-- The list was not changed since the handle was taken. -/
  stamp_eq : h.stamp = l.stamp

theorem Handle.Names.lt {h : Handle} {l : Layout} {pre : List Leaf} {x : Leaf} {post : List Leaf}
    {k : Nat} (hn : h.Names l pre x post k) : k < x.count :=
  Packed.lt_of_idxOf? hn.offset_eq

namespace Chain

variable {c : Chain} {l : Layout} {pre post rest : List Leaf} {x : Leaf}

/-! ### Searching -/

/-- Where a layout is cut, the chain has a block. -/
theorem Has.getElem_cells (h : c.Has l) (hl : l.leaves = pre ++ x :: post) :
    ∃ hlt : pre.length < c.cells.size, c.cells[pre.length].Shows x := by
  obtain ⟨cell, hcell, hx⟩ := h.getElem?_cells hl
  obtain ⟨hlt, rfl⟩ := Array.getElem?_eq_some_iff.mp hcell
  exact ⟨hlt, hx⟩

/-- A search from the head passes over whole blocks. -/
theorem Has.seekForward?_eq (h : c.Has l) (hl : l.leaves = pre ++ rest) {k : Nat}
    (hk : k < Layout.total rest) :
    ∃ mid x post j, rest = mid ++ x :: post ∧ k = Layout.total mid + j ∧ j < x.count ∧
      seekForward? c.cells pre.length k = some ((pre ++ mid).length, j) := by
  induction rest generalizing pre k with
  | nil => simp at hk
  | cons y rest ih =>
    obtain ⟨hlt, hy⟩ := h.getElem_cells hl
    rw [seekForward?, dif_pos hlt]
    simp only [hy.count_eq]
    split
    · next hin => exact ⟨[], y, rest, k, rfl, by simp, hin, by simp⟩
    · next hout =>
      rw [Layout.total_cons] at hk
      have hl' : l.leaves = (pre ++ [y]) ++ rest := by rw [hl, List.append_cons]
      obtain ⟨mid, x, post, j, rfl, hj, hlt', hfound⟩ :=
        ih hl' (show k - y.count < Layout.total rest by omega)
      refine ⟨y :: mid, x, post, j, rfl, by rw [Layout.total_cons]; omega, hlt', ?_⟩
      simpa using hfound

/-- A search from the tail passes over whole blocks. -/
theorem Has.seekBackward?_eq (h : c.Has l) (hl : l.leaves = pre ++ post) {k : Nat}
    (hk : k < Layout.total pre) :
    ∃ front x mid j, pre = front ++ x :: mid ∧ k = Layout.total mid + j ∧ j < x.count ∧
      seekBackward? c.cells pre.length k = some (front.length, j) := by
  induction hlen : pre.length generalizing pre post k with
  | zero => simp [List.length_eq_zero_iff.mp hlen] at hk
  | succ n ih =>
    obtain ⟨front, y, hconcat⟩ := (List.eq_nil_or_concat pre).resolve_left (by
      rintro rfl
      contradiction)
    obtain rfl : pre = front ++ [y] := by simpa using hconcat
    obtain rfl : front.length = n := by simpa using hlen
    have hl' : l.leaves = front ++ y :: post := by rw [hl, ← List.append_cons]
    obtain ⟨cell, hcell, hy⟩ := h.getElem?_cells hl'
    rw [seekBackward?, hcell]
    simp only [hy.count_eq]
    split
    · next hin => exact ⟨front, y, [], k, rfl, by simp, hin, rfl⟩
    · next hout =>
      simp only [Layout.total_append, Layout.total_cons, Layout.total_nil] at hk
      obtain ⟨front', x, mid, j, rfl, hj, hlt', hfound⟩ :=
        ih hl' (show k - y.count < Layout.total front by omega) rfl
      refine ⟨front', x, mid ++ [y], j, by simp, ?_, hlt', hfound⟩
      simp only [Layout.total_append, Layout.total_cons, Layout.total_nil]
      omega

/-- **The block of an index is found**, from either end. -/
theorem Has.locate?_eq (h : c.Has l) (hs : l.Sound) {i : Int} {pos : Nat}
    (hi : Packed.idxOf? l.count i = some pos) :
    ∃ pre x post k offset, l.leaves = pre ++ x :: post ∧ pos = Layout.total pre + k ∧
      k < x.count ∧ Packed.idxOf? x.count offset = some k ∧
        c.locate? i = some (pre.length, offset) := by
  have hcount := hs.count_eq
  unfold Packed.idxOf? at hi
  unfold locate?
  rw [h.count_eq]
  split at hi
  · next hneg =>
    rw [if_pos hneg]
    split at hi
    · next hle =>
      obtain rfl := Option.some.inj hi
      dsimp only
      have hk : (-(i + 1)).toNat < Layout.total l.leaves := by omega
      obtain ⟨front, x, mid, j, hl, hj, hlt, hfound⟩ :=
        h.seekBackward?_eq (List.append_nil _).symm hk
      rw [h.length_eq, if_pos (hcount ▸ hk), hfound]
      refine ⟨front, x, mid, x.count - (j + 1), -(j : Int) - 1, hl, ?_, by omega, ?_, rfl⟩
      · have htotal : l.count = Layout.total front + (x.count + Layout.total mid) := by
          rw [hcount, hl, Layout.total_append, Layout.total_cons]
        omega
      · exact Packed.idxOf?_neg_sub_one hlt
    · contradiction
  · next hnonneg =>
    rw [if_neg hnonneg]
    split at hi
    · next hlt =>
      obtain rfl := Option.some.inj hi
      obtain ⟨mid, x, post, j, hl, hj, hlt', hfound⟩ :=
        h.seekForward?_eq (show l.leaves = [] ++ l.leaves from rfl) (hcount ▸ hlt)
      rw [List.length_nil] at hfound
      simp only [if_pos hlt, hfound]
      exact ⟨mid, x, post, j, j, hl, hj, hlt', Packed.idxOf?_natCast hlt', rfl⟩
    · contradiction

theorem Has.locate?_eq_none (h : c.Has l) {i : Int} (hi : Packed.idxOf? l.count i = none) :
    c.locate? i = none := by
  unfold Packed.idxOf? at hi
  unfold locate?
  rw [h.count_eq]
  split at hi
  · next hneg =>
    rw [if_pos hneg]
    split at hi
    · contradiction
    · exact if_neg (by omega)
  · next hnonneg =>
    rw [if_neg hnonneg]
    split at hi
    · contradiction
    · next hge => exact if_neg hge

/-! ### Finding -/

/-- The handle that is made for an entry names it. -/
theorem Has.handleAt?_eq (h : c.Has l) (hl : l.leaves = pre ++ x :: post) {place : Cursor}
    {offset : Int} (hoffset : Packed.idxOf? x.count offset = some place.idx)
    (hcounted : x.count = x.list.entries.size) :
    ∃ handle, c.handleAt? pre.length place offset = .ok (some handle) ∧
      handle.Names l pre x post place.idx ∧ handle.offset = offset ∧ handle.place = place := by
  obtain ⟨b, hb, hkeeps, -⟩ := h.block_eq hl
  have hlt : place.idx < x.list.texts.length := by
    rw [Packed.length_texts, ← hcounted]
    exact Packed.lt_of_idxOf? hoffset
  have htext := List.getElem?_eq_getElem hlt
  obtain ⟨v, hv, hrender⟩ := Packed.get?_eq_some htext
  refine ⟨⟨x.id, place, offset, v, c.stamp⟩, ?_,
    ⟨hl, rfl, rfl, hoffset, by rw [htext, hrender], h.stamp_eq⟩, rfl, rfl⟩
  simp [handleAt?, hb, hkeeps.packed_eq, h.id?_eq hl, hv, bind, Except.bind, pure, Except.pure]

/-- **An index finds the element with that index**, and nothing changes but the way a block
is kept. -/
theorem Has.find?_eq (h : c.Has l) (hs : l.Sound) {i : Int} {pos : Nat}
    (hi : Packed.idxOf? l.count i = some pos) :
    Ensures (c.find? i) fun r => r.1.Has l ∧ ∃ pre x post k handle,
      r.2 = some (pre.length, handle) ∧ handle.Names l pre x post k ∧
        pos = Layout.total pre + k := by
  obtain ⟨pre, x, post, k, offset, hl, hpos, -, hoffset, hlocate⟩ := h.locate?_eq hs hi
  have hcounted := hs.counted_split hl
  rw [Chain.find?, hlocate]
  refine (h.openForUse (show pre.length < l.leaves.length by simp [hl])).bind fun c₁ h₁ => ?_
  obtain ⟨b, hb, hkeeps, -⟩ := h₁.block_eq hl
  obtain ⟨place, hplace, rfl⟩ := Packed.seek?_eq_some hkeeps.wellFormed.linked (hcounted ▸ hoffset)
  obtain ⟨handle, hhandle, hnames, -⟩ := h₁.handleAt?_eq hl hoffset hcounted
  simp only [hb, hkeeps.packed_eq, hplace, hhandle, bind, Except.bind, pure, Except.pure]
  exact ⟨h₁, pre, x, post, place.idx, handle, rfl, hnames, hpos⟩

theorem Has.find?_eq_none (h : c.Has l) {i : Int} (hi : Packed.idxOf? l.count i = none) :
    c.find? i = .ok (c, none) := by
  rw [Chain.find?, h.locate?_eq_none hi]

/-- An index is answered by a handle that names the element, if there is one. -/
theorem Has.index (h : c.Has l) (hs : l.Sound) (i : Int) :
    Ensures (c.index i) fun r => r.1.Has l ∧
      match Packed.idxOf? l.count i with
      | none => r.2 = none
      | some pos => ∃ pre x post k handle, r.2 = some handle ∧ handle.Names l pre x post k ∧
          pos = Layout.total pre + k := by
  unfold Chain.index
  cases hi : Packed.idxOf? l.count i with
  | none =>
    rw [h.find?_eq_none hi]
    exact ⟨h, rfl⟩
  | some pos =>
    refine (h.find?_eq hs hi).bind fun r hr => ?_
    obtain ⟨h₁, pre, x, post, k, handle, hfound, hnames, hpos⟩ := hr
    exact ⟨h₁, pre, x, post, k, handle, by rw [hfound]; rfl, hnames, hpos⟩

/-- What a handle names is an element of the sequence. -/
theorem getElem?_texts_of_names {handle : Handle} {k : Nat} (hs : l.Sound)
    (hn : handle.Names l pre x post k) :
    l.texts[Layout.total pre + k]? = some handle.value.render := by
  have hl := hn.leaves_eq
  have hcounted := hs.counted
  have hx := hcounted x (by simp [hl])
  have hpre : (Layout.textsOf pre).length = Layout.total pre :=
    Layout.length_textsOf fun y hy => hcounted y (by simp [hl, hy])
  have hlt : k < x.list.texts.length := by
    rw [Packed.length_texts, ← hx]
    exact hn.lt
  rw [Layout.texts, hl, Layout.textsOf_append, Layout.textsOf_cons, ← hpre,
    List.getElem?_append_right (Nat.le_add_right _ _), Nat.add_sub_cancel_left,
    List.getElem?_append_left hlt, hn.value_eq]

/-- **Reading an element** gives what the sequence has there, and leaves the list alone. -/
theorem Has.get? (h : c.Has l) (hs : l.Sound) (i : Int) :
    Ensures (c.get? i) fun r => r.1.Has l ∧
      r.2.map Value.render = (Packed.idxOf? l.count i).bind (l.texts[·]?) := by
  unfold Chain.get?
  cases hi : Packed.idxOf? l.count i with
  | none =>
    rw [h.find?_eq_none hi]
    exact ⟨h, rfl⟩
  | some pos =>
    refine (h.find?_eq hs hi).bind fun r hr => ?_
    obtain ⟨c₁, found⟩ := r
    obtain ⟨h₁, pre, x, post, k, handle, hfound, hnames, rfl⟩ := hr
    obtain rfl : found = _ := hfound
    have hlt : pre.length < l.leaves.length := by simp [hnames.leaves_eq]
    refine (Has.settle h₁ hlt).bind fun c₂ h₂ => ⟨h₂, ?_⟩
    exact (getElem?_texts_of_names hs hnames).symm

/-! ### Overwriting -/

/-- The name of a block leads to it. -/
theorem Has.idxOf_eq (h : c.Has l) (hs : l.Sound) (hl : l.leaves = pre ++ x :: post) :
    c.idxOf x.id = .ok pre.length := by
  have hnodup := hs.nodup_ids
  obtain ⟨before, cell, after, hsplit, hlen, hpre, hx, -⟩ := h.exists_cell hl
  have hother : ∀ other ∈ before, other.id ≠ x.id := by
    intro other hother hsame
    have hids := h.ids_eq
    rw [Chain.ids, hsplit] at hids
    rw [← hids, List.map_append, List.map_cons, hx.id_eq, ← hsame] at hnodup
    have hdisjoint := (List.nodup_append.mp hnodup).2.2
    exact hdisjoint _ (List.mem_map_of_mem hother) _ List.mem_cons_self rfl
  have hfind : c.cells.findIdx? (fun cell => cell.id = x.id) = some pre.length := by
    have hnone : before.findIdx? (fun cell => cell.id = x.id) = none :=
      List.findIdx?_eq_none_iff.mpr fun other hmem => by simpa using hother other hmem
    have harray : c.cells = (before ++ cell :: after).toArray := by rw [← hsplit]
    rw [harray, List.findIdx?_toArray, List.findIdx?_append, hnone, List.findIdx?_cons, ← hlen]
    simp [hx.id_eq]
  rw [Chain.idxOf, hfind]

/-- Overwriting within a block is overwriting within the sequence. -/
theorem textsOf_set {pre post : List Leaf} {ts : List Bytes} {k : Nat} (hk : k < ts.length)
    (hcounted : ∀ y ∈ pre, y.count = y.list.entries.size) (s : Bytes) :
    Layout.textsOf pre ++ (ts.set k s ++ Layout.textsOf post) =
      (Layout.textsOf pre ++ (ts ++ Layout.textsOf post)).set (Layout.total pre + k) s := by
  have hpre : (Layout.textsOf pre).length = Layout.total pre := Layout.length_textsOf hcounted
  rw [← hpre, List.set_append_right _ _ (Nat.le_add_right _ _), Nat.add_sub_cancel_left,
    List.set_append_left _ _ hk]

/-- **An entry that is overwritten** is overwritten in the sequence. -/
theorem Has.overwrite (h : c.Has l) (hs : l.Sound) (hl : l.leaves = pre ++ x :: post) {k : Nat}
    (hk : k < x.count) (s : Bytes) :
    Ensures (c.overwrite pre.length k s)
      (·.Holds (l.texts.set (Layout.total pre + k) s) (l.stamp + 1)) := by
  have hcounted := hs.counted
  have hx := hcounted x (by simp [hl])
  have hlt : k < x.list.texts.length := by
    rw [Packed.length_texts, ← hx]
    exact hk
  have hlen : (x.list.eraseIdx k 1).entries.size + 1 = x.count := by
    rw [Packed.size_entries_eraseIdx, Packed.available]
    omega
  have htexts : ((x.list.eraseIdx k 1).insertIdx k s).texts = x.list.texts.set k s := by
    have hcut : (x.list.texts.take k).length = k := List.length_take_of_le (Nat.le_of_lt hlt)
    rw [Packed.texts_insertIdx _ (by omega), Packed.texts_eraseIdx,
      List.set_eq_take_append_cons_drop, if_pos hlt, List.take_left' hcut, List.drop_left' hcut]
  have hmod := h.modifyBlock (y := ⟨x.id, (x.list.eraseIdx k 1).insertIdx k s, x.count⟩)
    (f := fun b => b.modify fun p => (p.eraseIdx k 1).insertIdx k s) hl rfl fun b hb hcount => by
      refine (hb.modify fun hsize => ?_).imp fun b' hb' => ⟨hb'.1, hb'.2.trans hcount⟩
      -- what is too long before the insertion is too long after it
      have hle := Packed.size_le_insertIdx (x.list.eraseIdx k 1) k s
      exact (hb.wellFormed.eraseIdx (Nat.lt_of_le_of_lt hle hsize)).insertIdx hsize
  refine hmod.bind fun c₁ h₁ => ?_
  refine (h₁.recompress (by simp)).bind fun c₂ h₂ => ?_
  refine ⟨_, h₂.touch, Layout.Sound.withStamp ?_ _, ?_, rfl⟩
  · refine hs.set (y := ⟨x.id, (x.list.eraseIdx k 1).insertIdx k s, x.count⟩) hl rfl ?_
      (Nat.zero_lt_of_lt hk) rfl
    rw [← Packed.length_texts, htexts, List.length_set, Packed.length_texts, hx]
  · simp only [Layout.texts, hl, Layout.textsOf_append, Layout.textsOf_cons, htexts]
    exact textsOf_set hlt (fun y hy => hcounted y (by simp [hl, hy])) s

theorem Has.checkFresh (h : c.Has l) {handle : Handle} (hstamp : handle.stamp = l.stamp) :
    c.checkFresh handle = .ok () := by
  rw [Chain.checkFresh, if_pos (hstamp.trans h.stamp_eq.symm)]

/-- Overwriting through a handle overwrites what it names. -/
theorem Has.replace (h : c.Has l) (hs : l.Sound) {handle : Handle} {k : Nat}
    (hn : handle.Names l pre x post k) (s : Bytes) :
    Ensures (c.replace handle s)
      (·.Holds (l.texts.set (Layout.total pre + k) s) (l.stamp + 1)) := by
  unfold Chain.replace
  rw [h.checkFresh hn.stamp_eq, hn.block_eq, h.idxOf_eq hs hn.leaves_eq, hn.idx_eq]
  exact h.overwrite hs hn.leaves_eq hn.lt s

/-- **Overwriting at an index** overwrites the element with that index, if there is one. -/
theorem Has.replaceAt (h : c.Has l) (hs : l.Sound) (i : Int) (s : Bytes) :
    Ensures (c.replaceAt i s) fun r =>
      match Packed.idxOf? l.count i with
      | none => r.2 = false ∧ r.1.Has l
      | some pos => r.2 = true ∧ r.1.Holds (l.texts.set pos s) (l.stamp + 1) := by
  unfold Chain.replaceAt
  cases hi : Packed.idxOf? l.count i with
  | none =>
    rw [h.find?_eq_none hi]
    exact ⟨rfl, h⟩
  | some pos =>
    refine (h.find?_eq hs hi).bind fun r hr => ?_
    obtain ⟨c₁, found⟩ := r
    obtain ⟨h₁, pre, x, post, k, handle, hfound, hnames, rfl⟩ := hr
    obtain rfl : found = _ := hfound
    dsimp only
    rw [hnames.idx_eq]
    exact (Has.overwrite h₁ hs hnames.leaves_eq hnames.lt s).bind fun c₂ h₂ => ⟨rfl, h₂⟩

end Chain

end UnrolledList
