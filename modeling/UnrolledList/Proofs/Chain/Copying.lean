import UnrolledList.Chain.Copy
import UnrolledList.Proofs.Chain.Walking

/-!
# What a copy holds

A copy has the layout of the list under other names
(`UnrolledList.Layout.duplicate`): its blocks are numbered from head to tail, nothing is
vacant, and the stamp is zero. So it is in order and holds the same sequence.

A list is read by a walk through a copy. From the head that gives the sequence and from the
tail its reverse (`UnrolledList.Chain.Has.read`).
-/

namespace UnrolledList

/-- The sequence as it is met from an end. -/
def Side.along : Side → List Bytes → List Bytes
  | .head, ts => ts
  | .tail, ts => ts.reverse

/-- What is still to be met at a cut. -/
def Side.rest : Side → (pos : Nat) → List Bytes → List Bytes
  | .head, pos, ts => ts.drop pos
  | .tail, pos, ts => (ts.take pos).reverse

theorem Side.rest_start (origin : Side) (ts : List Bytes) :
    origin.rest (origin.start ts.length) ts = origin.along ts := by
  cases origin with
  | head => exact List.drop_zero
  | tail => simp [rest, start, along]

theorem Side.length_along (origin : Side) (ts : List Bytes) :
    (origin.along ts).length = ts.length := by
  cases origin <;> simp [along]

/-- Where nothing comes next, nothing is still to be met. -/
theorem Side.rest_of_next?_eq_none {origin : Side} {ts : List Bytes} {pos : Nat}
    (h : origin.next? ts.length pos = none) : origin.rest pos ts = [] := by
  cases origin <;> simp only [next?] at h <;> split at h
  · contradiction
  · exact List.drop_of_length_le (by omega)
  · contradiction
  · obtain rfl : pos = 0 := by omega
    rfl

/-- What is still to be met begins with what comes next. -/
theorem Side.rest_of_next?_eq_some {origin : Side} {ts : List Bytes} {pos k : Nat} {t : Bytes}
    (h : origin.next? ts.length pos = some k) (ht : ts[k]? = some t) :
    origin.rest pos ts = t :: origin.rest (origin.past k) ts := by
  obtain ⟨hlt, rfl⟩ := List.getElem?_eq_some_iff.mp ht
  cases origin <;> simp only [next?] at h <;> split at h
  · obtain rfl := Option.some.inj h
    exact List.drop_eq_getElem_cons hlt
  · contradiction
  · obtain rfl := Option.some.inj h
    have hpos : pos = pos - 1 + 1 := by omega
    simp only [rest, past]
    conv => lhs; rw [hpos, List.take_succ_eq_append_getElem hlt]
    simp
  · contradiction

namespace Layout

/-- The layout of a copy. -/
def duplicate (l : Layout) : Layout where
  leaves := l.leaves.mapIdx fun i x => { x with id := ⟨i⟩ }
  vacant := []
  slots := l.leaves.length
  count := total l.leaves
  stamp := 0

/-- Of a block, all but the name is copied. -/
theorem map_duplicate {β : Type} (l : Layout) {f : Leaf → β}
    (hf : ∀ (x : Leaf) (id : BlockId), f { x with id := id } = f x) :
    l.duplicate.leaves.map f = l.leaves.map f := by
  refine List.ext_getElem ?_ fun i _ _ => ?_
  · simp [duplicate]
  · simp [duplicate, hf]

/-- A copy holds the same strings. -/
theorem texts_duplicate (l : Layout) : l.duplicate.texts = l.texts := by
  simp only [texts, textsOf, List.flatMap_def]
  rw [l.map_duplicate fun _ _ => rfl]

/-- The names of a copy are those that are made first. -/
theorem ids_duplicate (l : Layout) : l.duplicate.ids = BlockId.names l.leaves.length := by
  refine List.ext_getElem ?_ fun i _ _ => ?_
  · simp [ids, BlockId.names, duplicate]
  · simp [ids, BlockId.names, duplicate]

variable {l : Layout}

/-- A copy of a layout in order is in order. -/
theorem Sound.duplicate (h : l.Sound) : l.duplicate.Sound where
  counted y hy := by
    obtain ⟨i, hi, rfl⟩ := List.mem_mapIdx.mp hy
    exact h.counted l.leaves[i] (List.getElem_mem hi)
  pos y hy := by
    obtain ⟨i, hi, rfl⟩ := List.mem_mapIdx.mp hy
    exact h.pos l.leaves[i] (List.getElem_mem hi)
  count_eq := by
    rw [total, l.map_duplicate fun _ _ => rfl]
    rfl
  named := by
    rw [l.ids_duplicate]
    exact .of_eq (List.append_nil _)

end Layout

namespace Chain

variable {c : Chain} {l : Layout}

/-- **A copy has the layout of the list** under other names. -/
theorem Has.duplicate (h : c.Has l) : c.duplicate.Has l.duplicate where
  cells := by
    have hlen := h.cells.length_eq
    refine List.forall₂_iff_get.mpr ⟨by simpa [Chain.duplicate, Layout.duplicate] using hlen, ?_⟩
    intro i hi hi'
    have hshows := (List.forall₂_iff_get.mp h.cells).2 i
      (by simpa [Chain.duplicate] using hi) (by simpa [Layout.duplicate] using hi')
    simp only [List.get_eq_getElem, Array.getElem_toList] at hshows
    simp only [List.get_eq_getElem, Chain.duplicate, Layout.duplicate, Array.getElem_toList,
      Array.getElem_mapIdx, List.getElem_mapIdx]
    exact ⟨rfl, hshows.keeps.of_content rfl rfl, hshows.count_eq⟩
  vacant_eq := (Arena.orders_row c.length).2.1
  slots_eq := (Arena.orders_row c.length).2.2.trans h.length_eq
  count_eq := by
    have hcounts : c.cells.toList.map (fun cell => cell.block.count) = l.leaves.map Leaf.count := by
      rw [← List.forall₂_eq_eq_eq, List.forall₂_map_left_iff, List.forall₂_map_right_iff]
      exact h.cells.imp fun _ _ hx => hx.count_eq
    rw [Chain.duplicate, Layout.duplicate, Layout.total, ← hcounts, List.sum_eq_foldl_nat,
      List.foldl_map, Array.foldl_toList]
  stamp_eq := rfl
  orders := by
    have hids : l.duplicate.leaves.map Leaf.id = BlockId.names c.length :=
      l.ids_duplicate.trans (by rw [h.length_eq])
    rw [hids]
    exact (Arena.orders_row c.length).1

/-- A walk through everything that is still to be met. -/
theorem collect_go (h : c.Has l) (hs : l.Sound) {w : Walk} {pos n : Nat} (hw : w.Stands l pos)
    (hn : (w.origin.rest pos l.texts).length < n) (met : List Value) :
    Ensures (Walk.collect.go n w c met) fun vs =>
      vs.map Value.render = (met.map Value.render).reverse ++ w.origin.rest pos l.texts := by
  induction n generalizing w c pos met with
  | zero => exact absurd hn (Nat.not_lt_zero _)
  | succ n ih =>
    rw [Walk.collect.go]
    refine (hw.next h hs).bind fun r hr => ?_
    obtain ⟨w₁, c₁, found⟩ := r
    obtain ⟨horigin, h₁, hfound⟩ := hr
    dsimp only at horigin h₁ hfound
    cases hnext : w.origin.next? l.count pos with
    | none =>
      rw [hnext] at hfound
      obtain rfl : found = none := hfound.1
      rw [Side.rest_of_next?_eq_none (hs.length_texts.symm ▸ hnext)]
      simp
    | some k =>
      rw [hnext] at hfound
      obtain ⟨pre, x, post, j, handle, rfl, hnames, rfl, hon⟩ := hfound
      have hrest := Side.rest_of_next?_eq_some (hs.length_texts.symm ▸ hnext)
        (getElem?_texts_of_names hs hnames)
      have hstands := hon.stands hnames.leaves_eq
      rw [horigin] at hstands
      rw [hrest, List.length_cons] at hn
      refine (ih h₁ hstands (by rw [horigin]; omega) (handle.value :: met)).imp fun vs hvs => ?_
      rw [hvs, hrest, horigin]
      simp

/-- **A list that is read from an end** gives its sequence from that end. -/
theorem Has.read (h : c.Has l) (hs : l.Sound) (origin : Side) :
    Ensures (c.read origin) fun vs => vs.map Value.render = origin.along l.texts := by
  have hcopy := h.duplicate
  have hsound := hs.duplicate
  have hstands := Walk.stands_ofEnd hcopy hsound origin
  rw [← hsound.length_texts] at hstands
  have hrest := origin.rest_start l.duplicate.texts
  rw [Chain.read, Walk.collect, hcopy.count_eq, ← hsound.length_texts]
  refine (collect_go hcopy hsound hstands ?_ []).imp fun vs hvs => ?_
  · rw [show (Walk.ofEnd c.duplicate origin).origin = origin from rfl, hrest, Side.length_along]
    exact Nat.lt_succ_self _
  · rw [hvs, show (Walk.ofEnd c.duplicate origin).origin = origin from rfl, hrest,
      Layout.texts_duplicate]
    rfl

end Chain

end UnrolledList
