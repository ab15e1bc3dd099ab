import Mathlib.Data.List.Chain
import UnrolledList.Proofs.Chain.Admission

/-!
# What a merge sweep leaves

A block that is split leaves two where there was one, and the sweep that follows
(`UnrolledList.Chain.mergeAround`) looks at a **window** of at most five blocks: two before the
block that was split, that block, and two after it. What becomes of the window is said by
`UnrolledList.Chain.Sweeps`. Each block that is there afterwards was put together from a run of
blocks of the window, in order (`UnrolledList.Leaf.Gathers`); what stands outside stays as it
was; and **no two neighbours in the window fit into one any more**.

## Why four merges are enough

There are four pairs of neighbours in the window, and each is tried once. By the time the last
one is tried, the blocks of a pair that was refused may have grown. So it has to be seen that
what was refused stays refused (`UnrolledList.Leaf.Apart.join_left`,
`UnrolledList.Leaf.Apart.join_right`). It does because neither a size nor a number of entries
becomes smaller in a merge, although a size is made of two and loses an envelope
(`UnrolledList.Packed.size_add_size_le_append`): what is left over is at least the other one.

At the ends of a list there are fewer than five blocks. Then a merge is not tried, and the cases
are told apart by a window that has fewer than two blocks on one side, which it has only if
there are no others on that side.
-/

namespace UnrolledList

/-! ### Blocks that fit and blocks that do not -/

namespace Leaf

variable {fill : Fill} {a b x y : Leaf} {xs ys : List Leaf}

/-- What two neighbours become when they are merged. -/
def join (a b : Leaf) : Leaf :=
  ⟨a.id, a.list ++ b.list, a.count + b.count⟩

/-- The neighbours do not fit into one block. -/
def Apart (fill : Fill) (a b : Leaf) : Prop :=
  fill.bounds.ExceededBy (a.list.size + b.list.size - 11) (saturate (a.count + b.count))

instance : Decidable (Apart fill a b) :=
  inferInstanceAs (Decidable (Bounds.ExceededBy _ _ _))

/-- Without overflow a fill tells whether neighbours fit. -/
theorem admitsMerge?_eq (fill : Fill) (ha : a.list.WellFormed) (hb : b.list.WellFormed) :
    fill.admitsMerge? a.list.size a.count b.list.size b.count =
      some (decide (¬ Apart fill a b)) := by
  have hsize : a.list.size + b.list.size < wordLimit := by
    have hasize := ha.size_lt
    have hbsize := hb.size_lt
    simp only [Packed.sizeLimit, wordLimit] at *
    omega
  rw [Fill.admitsMerge?, if_pos hsize]
  rfl

/-- More of either makes it worse. -/
theorem Apart.mono (h : Apart fill a b)
    (hsize : a.list.size + b.list.size ≤ x.list.size + y.list.size)
    (hcount : a.count + b.count ≤ x.count + y.count) : Apart fill x y := by
  rcases h with h | h
  · left
    omega
  · right
    simp only [saturate] at h ⊢
    omega

/-- **What was refused stays refused**, when the first of the two is merged with the one
before it, -/
theorem Apart.join_left (h : Apart fill b x) (a : Leaf) : Apart fill (a.join b) x := by
  have hsize := Packed.size_add_size_le_append a.list b.list
  have henvelope := a.list.envelopeSize_le_size
  refine h.mono ?_ ?_ <;> simp only [join] <;> omega

/-- and when the second is merged with the one behind it. -/
theorem Apart.join_right (h : Apart fill x a) (b : Leaf) : Apart fill x (a.join b) := by
  have hsize := Packed.size_add_size_le_append a.list b.list
  have henvelope := b.list.envelopeSize_le_size
  refine h.mono ?_ ?_ <;> simp only [join] <;> omega

/-- Fewer than two blocks are no neighbours. -/
theorem isChain_of_length_lt_two (h : xs.length < 2) : xs.IsChain (Apart fill) := by
  match xs, h with
  | [], _ => exact List.isChain_nil
  | [x], _ => exact List.isChain_singleton x

theorem isChain_concat_join (h : (xs ++ [a]).IsChain (Apart fill)) (b : Leaf) :
    (xs ++ [a.join b]).IsChain (Apart fill) := by
  rw [List.isChain_append] at h ⊢
  obtain ⟨hxs, -, hlast⟩ := h
  refine ⟨hxs, List.isChain_singleton _, fun x hx y hy => ?_⟩
  obtain rfl : a.join b = y := by simpa using hy
  exact (hlast x hx a (by simp)).join_right b

theorem isChain_join_cons (h : (b :: ys).IsChain (Apart fill)) (a : Leaf) :
    (a.join b :: ys).IsChain (Apart fill) := by
  cases ys with
  | nil => exact List.isChain_singleton _
  | cons y ys =>
    rw [List.isChain_cons_cons] at h ⊢
    exact ⟨h.1.join_left a, h.2⟩

/-! ### Blocks and what they were put together from -/

/-- The block was put together from a run of others: it has the name of the first, the entries
of all of them one after the other, and as many as they had. One block alone stays as it is. -/
structure Gathers (x : Leaf) (run : List Leaf) : Prop where
  /-- The name is that of the first. -/
  head?_eq : run.head?.map Leaf.id = some x.id
  /-- The entries are those of all of them, in order. -/
  bodies_eq : x.list.bodies = run.flatMap fun y => y.list.bodies
  /-- The number is that of all of them. -/
  count_eq : x.count = Layout.total run
  /-- A block that was not merged is the same, byte for byte. -/
  alone : ∀ y, run = [y] → x = y

theorem gathers_singleton (x : Leaf) : x.Gathers [x] where
  head?_eq := rfl
  bodies_eq := by simp
  count_eq := by simp
  alone y hy := List.head_eq_of_cons_eq hy

theorem Gathers.ne_nil {run : List Leaf} (h : x.Gathers run) : run ≠ [] := by
  rintro rfl
  have hhead := h.head?_eq
  contradiction

/-- A merge puts two runs together. -/
theorem Gathers.join (h : x.Gathers xs) (h' : y.Gathers ys) : (x.join y).Gathers (xs ++ ys) where
  head?_eq := by
    obtain ⟨z, zs, rfl⟩ := List.exists_cons_of_ne_nil h.ne_nil
    exact h.head?_eq
  bodies_eq := by
    rw [Leaf.join, Packed.bodies_append, h.bodies_eq, h'.bodies_eq, List.flatMap_append]
  count_eq := by
    rw [Leaf.join, h.count_eq, h'.count_eq, Layout.total_append]
  alone z hz := by
    have hlen := congrArg List.length hz
    have hxs := List.length_pos_iff.mpr h.ne_nil
    have hys := List.length_pos_iff.mpr h'.ne_nil
    rw [List.length_append, List.length_singleton] at hlen
    omega

/-- The blocks were put together from successive runs of others. -/
def Gathered (xs window : List Leaf) : Prop :=
  ∃ runs : List (List Leaf), runs.flatten = window ∧ List.Forall₂ Gathers xs runs

theorem gathered_self (xs : List Leaf) : Gathered xs xs := by
  refine ⟨xs.map fun x => [x], ?_, ?_⟩
  · rw [List.flatten_eq_flatMap, List.flatMap_map]
    exact List.flatMap_singleton' xs
  · rw [List.forall₂_map_right_iff, List.forall₂_same]
    exact fun x _ => gathers_singleton x

/-- Neighbours that are merged leave it so. -/
theorem Gathered.join {window : List Leaf} (h : Gathered (xs ++ a :: b :: ys) window) :
    Gathered (xs ++ a.join b :: ys) window := by
  obtain ⟨runs, rfl, hruns⟩ := h
  -- the runs are cut where the blocks are, and the first two behind the cut become one
  have hfront := List.forall₂_take_append _ _ _ hruns.flip
  have hback := List.forall₂_drop_append _ _ _ hruns.flip
  obtain ⟨runA, rest, ha, hrest, hdrop⟩ := List.forall₂_cons_right_iff.mp hback
  obtain ⟨runB, rest', hb, hrest', rfl⟩ := List.forall₂_cons_right_iff.mp hrest
  refine ⟨runs.take xs.length ++ (runA ++ runB) :: rest', ?_, ?_⟩
  · calc (runs.take xs.length ++ (runA ++ runB) :: rest').flatten
      _ = (runs.take xs.length ++ runs.drop xs.length).flatten := by simp [hdrop]
      _ = runs.flatten := by rw [List.take_append_drop]
  · exact List.rel_append hfront.flip (.cons (ha.join hb) hrest'.flip)

end Leaf

/-! ### One merge -/

namespace Chain

variable {c : Chain} {fill : Fill} {l : Layout} {pre post window xs ys : List Leaf} {a b x : Leaf}

theorem gives_fill_mergeWithNext (c : Chain) (i : Nat) :
    Gives (c.mergeWithNext i) fun c' => c'.fill = c.fill := by
  unfold Chain.mergeWithNext
  refine Gives.bind_any fun right => Gives.bind_any fun q => ?_
  refine (outward_fill.modifyBlock c i _).bind fun c₁ h₁ => ?_
  refine (outward_fill.modifyBlock c₁ (i + 1) _).bind fun c₂ h₂ => ?_
  refine (gives_fill_unlink c₂ (i + 1)).bind fun c₃ h₃ => ?_
  exact (outward_fill.enduring _).recompress ((h₃.trans h₂).trans h₁) i

/-- **What a list answers about two neighbours** is what they are. -/
theorem Has.admitsMerge_eq (h : c.Has l) (hl : l.leaves = pre ++ a :: b :: post) :
    c.admitsMerge pre.length = .ok (decide (¬ Leaf.Apart c.fill a b)) := by
  have hl' : l.leaves = (pre ++ [a]) ++ b :: post := by rw [hl, ← List.append_cons]
  obtain ⟨left, hleft, hkeeps, hcount⟩ := h.block_eq hl
  obtain ⟨right, hright, hkeeps', hcount'⟩ := h.block_eq hl'
  rw [List.length_append, List.length_singleton] at hright
  rw [Chain.admitsMerge, hleft, ok_bind, hright, ok_bind, hkeeps.size_eq, hkeeps'.size_eq, hcount,
    hcount', Leaf.admitsMerge?_eq c.fill hkeeps.wellFormed hkeeps'.wellFormed]
  rfl

/-- What became of the blocks of a window, while all others are as they were. -/
structure Windowed (c : Chain) (fill : Fill) (pre window post xs : List Leaf) : Prop where
  /-- The fill is as it was. -/
  fill_eq : c.fill = fill
  /-- The blocks outside the window are as they were. -/
  exists_has : ∃ l, c.Has l ∧ l.leaves = pre ++ xs ++ post
  /-- Those of the window were merged in order. -/
  gathered : Leaf.Gathered xs window

namespace Windowed

/-- **Two neighbours are merged, or they do not fit into one block.** -/
theorem mergeIfFits (h : c.Windowed fill pre window post (xs ++ a :: b :: ys)) :
    Ensures (c.mergeIfFits (pre ++ xs).length) fun r =>
      (r.2 = true ∧ r.1.Windowed fill pre window post (xs ++ a.join b :: ys)) ∨
        (r.2 = false ∧ r.1.Windowed fill pre window post (xs ++ a :: b :: ys) ∧
          Leaf.Apart fill a b) := by
  obtain ⟨rfl, ⟨l, hl, hleaves⟩, hgathered⟩ := h
  have hsplit : l.leaves = (pre ++ xs) ++ a :: b :: (ys ++ post) := by simp [hleaves]
  have hlt : (pre ++ xs).length + 1 < c.length := by
    rw [hl.length_eq, hsplit]
    simp only [List.length_append, List.length_cons]
    omega
  rw [Chain.mergeIfFits, if_pos hlt, hl.admitsMerge_eq hsplit, ok_bind]
  by_cases hapart : Leaf.Apart c.fill a b
  · rw [if_neg (by simpa using hapart)]
    exact .inr ⟨rfl, ⟨rfl, ⟨l, hl, hleaves⟩, hgathered⟩, hapart⟩
  · rw [if_pos (by simpa using hapart)]
    refine ((hl.mergeWithNext hsplit).and_gives (gives_fill_mergeWithNext c _)).bind ?_
    intro c' hc'
    refine .inl ⟨rfl, hc'.2, ⟨_, hc'.1, ?_⟩, hgathered.join⟩
    simp [Leaf.join]

/-- The last block has no neighbour to be merged with. -/
theorem mergeIfFits_last (h : c.Windowed fill pre window [] (xs ++ ys)) (hys : ys.length < 2) :
    c.mergeIfFits (pre ++ xs).length = .ok (c, false) := by
  obtain ⟨-, ⟨l, hl, hleaves⟩, -⟩ := h
  refine if_neg ?_
  rw [hl.length_eq, hleaves]
  simp only [List.length_append, List.append_nil]
  omega

/-! ### Four merges -/

/-- The pair before the block is tried first. -/
theorem mergeBefore_two (h : c.Windowed fill pre window post (xs ++ ys)) (hxs : xs.length ≤ 2)
    (hpre : xs.length < 2 → pre = []) :
    Ensures (c.mergeBefore (pre ++ xs).length 2) fun r => ∃ xs',
      r.1.Windowed fill pre window post (xs' ++ ys) ∧ r.2 = (pre ++ xs').length ∧
        xs'.IsChain (Leaf.Apart fill) ∧ (xs' = [] → pre = []) := by
  rcases Nat.lt_or_eq_of_le hxs with hfew | htwo
  · -- with fewer than two blocks before it the block is near the head, and nothing is tried
    obtain rfl := hpre hfew
    rw [Chain.mergeBefore, if_neg (by simpa using hfew)]
    exact ⟨xs, h, rfl, Leaf.isChain_of_length_lt_two hfew, fun _ => rfl⟩
  · obtain ⟨a, b, rfl⟩ := List.length_eq_two.mp htwo
    have hpair : c.Windowed fill pre window post ([] ++ a :: b :: ys) := h
    have hnum : (pre ++ [a, b]).length - 2 = (pre ++ []).length := by simp
    rw [Chain.mergeBefore, if_pos (by simp), hnum]
    refine hpair.mergeIfFits.bind fun r hr => ?_
    obtain ⟨c', merged⟩ := r
    rcases hr with ⟨rfl, hc'⟩ | ⟨rfl, hc', hapart⟩
    · exact ⟨[a.join b], hc', by simp, List.isChain_singleton _, nofun⟩
    · exact ⟨[a, b], hc', by simp, List.isChain_pair.mpr hapart, nofun⟩

/-- Then the pair behind it. -/
theorem mergeIfFits_pair (h : c.Windowed fill pre window post (xs ++ ys)) (hys : ys.length ≤ 2)
    (hpost : ys.length < 2 → post = []) :
    Ensures (c.mergeIfFits (pre ++ xs).length) fun r => ∃ ys',
      r.1.Windowed fill pre window post (xs ++ ys') ∧ ys'.IsChain (Leaf.Apart fill) ∧
        (ys' = [] → post = []) := by
  rcases Nat.lt_or_eq_of_le hys with hfew | htwo
  · obtain rfl := hpost hfew
    rw [h.mergeIfFits_last hfew]
    exact ⟨ys, h, Leaf.isChain_of_length_lt_two hfew, fun _ => rfl⟩
  · obtain ⟨a, b, rfl⟩ := List.length_eq_two.mp htwo
    refine h.mergeIfFits.imp fun r hr => ?_
    rcases hr with ⟨-, hc'⟩ | ⟨-, hc', hapart⟩
    · exact ⟨[a.join b], hc', List.isChain_singleton _, nofun⟩
    · exact ⟨[a, b], hc', List.isChain_pair.mpr hapart, nofun⟩

/-- Then the block and what is before it by now, -/
theorem mergeBefore_one (h : c.Windowed fill pre window post (xs ++ x :: ys))
    (hxs : xs.IsChain (Leaf.Apart fill)) (hpre : xs = [] → pre = []) :
    Ensures (c.mergeBefore (pre ++ xs).length 1) fun r => ∃ xs' x',
      r.1.Windowed fill pre window post (xs' ++ x' :: ys) ∧ r.2 = (pre ++ xs').length ∧
        (xs' ++ [x']).IsChain (Leaf.Apart fill) := by
  rcases List.eq_nil_or_concat xs with rfl | ⟨front, a, hconcat⟩
  · obtain rfl := hpre rfl
    rw [Chain.mergeBefore, if_neg (by simp)]
    exact ⟨[], x, h, rfl, List.isChain_singleton x⟩
  · obtain rfl : xs = front ++ [a] := by simpa using hconcat
    rw [List.append_assoc, List.singleton_append] at h
    have hnum : (pre ++ (front ++ [a])).length - 1 = (pre ++ front).length := by simp
    have hone : 1 ≤ (pre ++ (front ++ [a])).length := by
      simp only [List.length_append, List.length_singleton]
      omega
    rw [Chain.mergeBefore, if_pos hone, hnum]
    refine h.mergeIfFits.bind fun r hr => ?_
    obtain ⟨c', merged⟩ := r
    rcases hr with ⟨rfl, hc'⟩ | ⟨rfl, hc', hapart⟩
    · -- the block before `a` was refused to `a`, so it is refused to what `a` has become
      exact ⟨front, a.join x, hc', by simp, Leaf.isChain_concat_join hxs x⟩
    · refine ⟨front ++ [a], x, by simpa using hc', by simp, ?_⟩
      rw [List.append_assoc, List.singleton_append, List.isChain_split]
      exact ⟨hxs, List.isChain_pair.mpr hapart⟩

/-- and at last what it became and what is behind that. -/
theorem mergeIfFits_next (h : c.Windowed fill pre window post (xs ++ x :: ys))
    (hxs : (xs ++ [x]).IsChain (Leaf.Apart fill)) (hys : ys.IsChain (Leaf.Apart fill))
    (hpost : ys = [] → post = []) :
    Ensures (c.mergeIfFits (pre ++ xs).length) fun r => ∃ zs,
      r.1.Windowed fill pre window post zs ∧ zs.IsChain (Leaf.Apart fill) := by
  cases ys with
  | nil =>
    obtain rfl := hpost rfl
    rw [h.mergeIfFits_last (by simp)]
    exact ⟨xs ++ [x], h, hxs⟩
  | cons y ys =>
    refine h.mergeIfFits.imp fun r hr => ?_
    rcases hr with ⟨-, hc'⟩ | ⟨-, hc', hapart⟩
    · -- the new block has grown on both sides, and neither neighbour fits it any better
      refine ⟨_, hc', List.isChain_split.mpr ⟨?_, ?_⟩⟩
      · exact Leaf.isChain_concat_join hxs y
      · exact Leaf.isChain_join_cons hys x
    · refine ⟨_, hc', List.isChain_split.mpr ⟨hxs, ?_⟩⟩
      exact List.isChain_cons_cons.mpr ⟨hapart, hys⟩

/-- **A merge sweep** leaves no neighbours in the window that fit into one block. -/
theorem mergeAround (h : c.Windowed fill pre window post (xs ++ x :: ys)) (hxs : xs.length ≤ 2)
    (hpre : xs.length < 2 → pre = []) (hys : ys.length ≤ 2) (hpost : ys.length < 2 → post = []) :
    Ensures (c.mergeAround (pre ++ xs).length) fun c' => ∃ zs,
      c'.Windowed fill pre window post zs ∧ zs.IsChain (Leaf.Apart fill) := by
  refine (h.mergeBefore_two hxs hpre).bind fun r₁ hr₁ => ?_
  obtain ⟨c₁, i₁⟩ := r₁
  obtain ⟨xs₁, h₁, rfl, hxs₁, hpre₁⟩ := hr₁
  have hbehind : (pre ++ xs₁).length + 1 = (pre ++ (xs₁ ++ [x])).length := by
    simp [Nat.add_assoc]
  have h₁' : c₁.Windowed fill pre window post ((xs₁ ++ [x]) ++ ys) := by simpa using h₁
  dsimp only
  rw [hbehind]
  refine (h₁'.mergeIfFits_pair hys hpost).bind fun r₂ hr₂ => ?_
  obtain ⟨ys₂, h₂, hys₂, hpost₂⟩ := hr₂
  rw [List.append_assoc, List.singleton_append] at h₂
  refine (mergeBefore_one h₂ hxs₁ hpre₁).bind fun r₃ hr₃ => ?_
  obtain ⟨c₃, i₃⟩ := r₃
  obtain ⟨xs₃, x₃, h₃, rfl, hxs₃⟩ := hr₃
  exact (h₃.mergeIfFits_next hxs₃ hys₂ hpost₂).bind fun r₄ hr₄ => hr₄

/-- Neighbours that do not fit are those about which the list says so. -/
theorem admitsMerge_eq (h : c.Windowed fill pre window post xs)
    (hxs : xs.IsChain (Leaf.Apart fill)) {i : Nat} (hi : i + 1 < xs.length) :
    c.admitsMerge (pre.length + i) = .ok false := by
  obtain ⟨rfl, ⟨l, hl, hleaves⟩, -⟩ := h
  have hsplit : l.leaves =
      (pre ++ xs.take i) ++ xs[i] :: xs[i + 1] :: (xs.drop (i + 2) ++ post) := by
    have hcut := List.take_append_drop i xs
    rw [List.drop_eq_getElem_cons (by omega), List.drop_eq_getElem_cons hi] at hcut
    calc l.leaves
      _ = pre ++ (xs.take i ++ xs[i] :: xs[i + 1] :: xs.drop (i + 2)) ++ post := by
        rw [hleaves, hcut]
      _ = _ := by simp only [List.append_assoc, List.cons_append]
  have hlen : (pre ++ xs.take i).length = pre.length + i := by
    rw [List.length_append, List.length_take_of_le (by omega)]
  have hapart := List.isChain_iff_getElem.mp hxs i hi
  rw [← hlen, hl.admitsMerge_eq hsplit, decide_eq_false (not_not_intro hapart)]

end Windowed

/-! ### The sweep -/

/-- **What a merge sweep around block number `i` makes of a layout**, as the list has it that
comes out. The blocks from number `i - 2` to number `i + 2` have become the blocks `xs`, each of
them put together from a run of those. All others are as they were, and no two neighbours among
`xs` are admitted to a merge. -/
def Sweeps (l : Layout) (i : Nat) (c' : Chain) : Prop :=
  ∃ l' xs runs, c'.Has l' ∧
    (l.leaves.take (i + 3)).drop (i - 2) = runs.flatten ∧ List.Forall₂ Leaf.Gathers xs runs ∧
    l'.leaves = l.leaves.take (i - 2) ++ xs ++ l.leaves.drop (i + 3) ∧
    ∀ j, i - 2 ≤ j → j + 1 < i - 2 + xs.length → c'.admitsMerge j = .ok false

theorem Has.sweeps (h : c.Has l) {i : Nat} (hi : i < l.leaves.length) :
    Ensures (c.mergeAround i) fun c' => c'.fill = c.fill ∧ Sweeps l i c' := by
  obtain ⟨front, x, back, hl, rfl⟩ := l.exists_leaf hi
  have hfront : front.take (front.length - 2) ++ front.drop (front.length - 2) = front :=
    List.take_append_drop _ _
  have hpre : (front.take (front.length - 2)).length = front.length - 2 :=
    List.length_take_of_le (Nat.sub_le _ _)
  -- the window, and what is outside of it
  have hwindow : c.Windowed c.fill (front.take (front.length - 2))
      (front.drop (front.length - 2) ++ x :: back.take 2) (back.drop 2)
      (front.drop (front.length - 2) ++ x :: back.take 2) := by
    refine ⟨rfl, ⟨l, h, ?_⟩, Leaf.gathered_self _⟩
    calc l.leaves
      _ = front.take (front.length - 2) ++ front.drop (front.length - 2) ++
          x :: (back.take 2 ++ back.drop 2) := by rw [hfront, List.take_append_drop, hl]
      _ = _ := by simp only [List.append_assoc, List.cons_append]
  have hsweep := hwindow.mergeAround (by rw [List.length_drop]; omega)
    (fun hfew => ?_) (List.length_take_le _ _) fun hfew => ?_
  · rw [hfront] at hsweep
    refine hsweep.imp fun c' hc' => ?_
    obtain ⟨xs, hxs, hapart⟩ := hc'
    obtain ⟨hfill, ⟨l', hl', hleaves⟩, runs, hruns, hgathers⟩ := id hxs
    refine ⟨hfill, l', xs, runs, hl', ?_, hgathers, ?_, fun j hj hlt => ?_⟩
    · rw [hruns, hl, List.take_length_add_append, List.drop_append_of_le_length (Nat.sub_le _ _)]
      rfl
    · rw [hleaves, hl, List.take_append_of_le_length (Nat.sub_le _ _),
        List.drop_length_add_append]
      rfl
    · have hnot := hxs.admitsMerge_eq hapart (i := j - (front.length - 2)) (by omega)
      rwa [hpre, Nat.add_sub_cancel' hj] at hnot
  · rw [List.length_drop] at hfew
    rw [List.take_eq_nil_iff]
    omega
  · rw [List.length_take] at hfew
    exact List.drop_of_length_le (by omega)

/-- A block that is split is found again under its name when the other half is linked. -/
theorem Has.splitAndLink_center (h : c.Has l) (hs : l.Sound) (hl : l.leaves = pre ++ x :: post)
    {k : Nat} (hk : k < x.count) (place : Place) (s : Bytes) :
    Ensures (c.splitAndLink pre.length k place s) fun c' => ∃ l' front y back,
      c'.Has l' ∧ l'.leaves = front ++ y :: back ∧ front.length = place.moved pre.length ∧
        y.id = x.id ∧ c'.length = c.length + 1 := by
  refine (h.splitAndLink hs hl hk place s).imp fun c' hc' => ?_
  obtain ⟨l', y, z, h', -, -, -, hid, hleaves⟩ := hc'
  have hlen : c'.length = c.length + 1 := by
    rw [h'.length_eq, h.length_eq, hleaves, hl]
    cases place <;> simp <;> omega
  cases place with
  | before =>
    exact ⟨l', pre ++ [z], y, post, h', by simp [hleaves], by simp [Place.moved], hid, hlen⟩
  | after => exact ⟨l', pre, y, z :: post, h', hleaves, rfl, hid, hlen⟩

end Chain

/-! ### Every run -/

namespace Session

/-- **The merge sweep leaves nothing to merge.** After every run, whichever block is split at
whichever entry: the block keeps its name, the half that was split off stands beside it with the
string, and then the sweep around the block puts the blocks of the window together as far as
they fit. -/
theorem run_sweeps (setting depth : Int) (as : List Action) :
    Ensures ((ofOptions setting depth).run as) fun r =>
      ∀ i k place t b, r.1.chain.block i = .ok b → k < b.count →
        Ensures (r.1.chain.insertSplitting i k place t) fun c' => ∃ c l,
          r.1.chain.splitAndLink i k place t = .ok c ∧ c.Has l ∧
          c.length = r.1.chain.length + 1 ∧ c.id? (place.moved i) = r.1.chain.id? i ∧
          c.mergeAround (place.moved i) = .ok c' ∧ c'.fill = c.fill ∧
          Chain.Sweeps l (place.moved i) c' := by
  refine ((follows_ofOptions setting depth).run as).imp fun r hr => ?_
  obtain ⟨⟨l, hl, hs, -, -⟩, -⟩ := hr
  intro i k place t b hb hk
  obtain ⟨pre, x, post, hleaves, rfl, -, hcount⟩ := hl.exists_leaf_of_block hb
  rw [Chain.insertSplitting_eq]
  refine (hl.splitAndLink_center hs hleaves (hcount ▸ hk) place t).self.bind fun c hc => ?_
  obtain ⟨hc, l₁, front, y, back, h₁, hleaves₁, hcenter, hid, hlen⟩ := hc
  have hname : c.id? (place.moved pre.length) = r.1.chain.id? pre.length := by
    rw [← hcenter, h₁.id?_eq hleaves₁, hl.id?_eq hleaves, hid]
  have hsweep := h₁.sweeps (i := front.length) (by simp [hleaves₁])
  rw [hcenter] at hsweep
  exact hsweep.self.imp fun c' hc' => ⟨c, l₁, hc, h₁, hlen, hname, hc'⟩

end Session

end UnrolledList
