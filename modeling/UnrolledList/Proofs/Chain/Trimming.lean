import Mathlib.Order.Monotone.Basic
import UnrolledList.Proofs.Chain.Nearby
import UnrolledList.Proofs.Packed.Splicing

/-!
# What erasing a range does to the blocks

A range of elements meets the blocks of a list in one of three ways, and each block is dealt
with on its own (`UnrolledList.Chain.Trims`):

* a block that it **covers** is unlinked as a whole;
* a block that it **misses** keeps its name, its packed list down to the byte and its number of
  entries;
* any other block is **cut**: it keeps its name and loses just those entries that lie in the
  range.

The order of the blocks that are left is the one that they had. Only a block in which the range
begins or ends can be cut, so there are at most two.

## Positions

Which way a block is met is read off the numbers of entries of the blocks before it
(`UnrolledList.Chain.firstOf`), that is, off the list as it was before. That the loop goes by
offsets and extents that change from block to block is a matter of
`UnrolledList.Proofs.Chain.Erasing`, where what is left is `UnrolledList.Layout.remnants`; here it
is read off one block at a time (`UnrolledList.Layout.remnants_split`).
-/

namespace UnrolledList

/-! ### What is left of one block -/

namespace Layout

variable {l : Layout} {pre post xs : List Leaf} {x : Leaf} {a b : Nat}

/-- What is left of a block stands where the block stood. -/
theorem remnants_split (pre : List Leaf) (x : Leaf) (post : List Leaf) (a b : Nat) :
    remnants a b (pre ++ x :: post) = remnants a b pre ++
      ((x.remnant (a - total pre) (b - total pre)).toList ++
        remnants (a - total pre - x.count) (b - total pre - x.count) post) := by
  rw [remnants_append, remnants]

/-- No block gets another name, and none changes its place. -/
theorem sublist_remnants (xs : List Leaf) (a b : Nat) :
    ((remnants a b xs).map Leaf.id).Sublist (xs.map Leaf.id) := by
  induction xs generalizing a b with
  | nil => exact List.Sublist.refl _
  | cons x xs ih =>
    rw [remnants, List.map_append, List.map_cons, ← List.singleton_append]
    refine List.Sublist.append ?_ (ih _ _)
    rw [Leaf.remnant, Leaf.without]
    split
    · exact List.nil_sublist _
    · exact List.Sublist.refl _

/-- A name is given up exactly if the range covers its block. -/
theorem id_not_mem_remnants_iff (hs : l.Sound) (hl : l.leaves = pre ++ x :: post) (a b : Nat) :
    x.id ∉ (remnants a b l.leaves).map Leaf.id ↔
      a - total pre = 0 ∧ x.count ≤ b - total pre := by
  obtain ⟨hpre, hpost⟩ := hs.id_not_mem hl
  have hpre' : x.id ∉ (remnants a b pre).map Leaf.id := fun hmem =>
    hpre ((sublist_remnants pre a b).subset hmem)
  have hpost' : x.id ∉ (remnants (a - total pre - x.count) (b - total pre - x.count) post).map
      Leaf.id := fun hmem => hpost ((sublist_remnants post _ _).subset hmem)
  rw [hl, remnants_split, List.map_append, List.map_append, List.mem_append, List.mem_append,
    ← Leaf.remnant_eq_none_iff (hs.pos_split hl), Leaf.remnant, Leaf.without]
  split
  · simp [hpre', hpost']
  · simp

/-- Block number `i` lies in the range as a whole. -/
def Covers (xs : List Leaf) (a b i : Nat) : Prop :=
  a ≤ total (xs.take i) ∧ total (xs.take (i + 1)) ≤ b

instance (xs : List Leaf) (a b i : Nat) : Decidable (Covers xs a b i) :=
  inferInstanceAs (Decidable (_ ∧ _))

/-- Where the first block ends the numbers begin anew. -/
theorem covers_cons_succ (hpos : ∀ y ∈ xs, 0 < y.count) {i : Nat} (hi : i < xs.length) :
    Covers (x :: xs) a b (i + 1) ↔ Covers xs (a - x.count) (b - x.count) i := by
  have hstep : 0 < total (xs.take (i + 1)) := by
    have hy := hpos xs[i] (List.getElem_mem hi)
    rw [List.take_succ_eq_append_getElem hi, total_append, total_cons]
    omega
  rw [Covers, Covers, List.take_succ_cons, List.take_succ_cons, total_cons, total_cons]
  omega

/-- **As many blocks are gone as the range covers.** -/
theorem length_remnants (hpos : ∀ y ∈ xs, 0 < y.count) (a b : Nat) :
    xs.length = (remnants a b xs).length +
      (List.range xs.length).countP fun i => decide (Covers xs a b i) := by
  induction xs generalizing a b with
  | nil => rfl
  | cons x xs ih =>
    have hx := hpos x List.mem_cons_self
    have hrest := fun y hy => hpos y (List.mem_cons_of_mem x hy)
    have hcount : (List.range xs.length).countP
        ((fun i => decide (Covers (x :: xs) a b i)) ∘ Nat.succ) =
          (List.range xs.length).countP
            fun i => decide (Covers xs (a - x.count) (b - x.count) i) :=
      List.countP_congr fun i hi => by
        have hshift := covers_cons_succ (x := x) (a := a) (b := b) hrest (List.mem_range.mp hi)
        simp [hshift]
    have hfirst : Covers (x :: xs) a b 0 ↔ a = 0 ∧ x.count ≤ b := by
      simp [Covers]
    have hgone := Leaf.remnant_eq_none_iff hx a b
    -- the first block is block number zero, and behind it all numbers are one more
    have hlen := ih hrest (a - x.count) (b - x.count)
    rw [List.length_cons, List.range_succ_eq_map, List.countP_cons, List.countP_map, hcount,
      remnants, List.length_append]
    by_cases hall : a = 0 ∧ x.count ≤ b
    · rw [hgone.mpr hall, if_pos (decide_eq_true (hfirst.mpr hall)), Option.toList_none,
        List.length_nil]
      omega
    · obtain ⟨y, hy⟩ := Option.ne_none_iff_exists'.mp (fun h => hall (hgone.mp h))
      rw [hy, if_neg fun h => hall (hfirst.mp (of_decide_eq_true h)), Option.toList_some,
        List.length_singleton]
      omega

end Layout

namespace Chain

variable {c c' : Chain} {l l' : Layout} {pre post : List Leaf} {x : Leaf} {a b i : Nat}

/-! ### The ways to meet a block -/

/-- The number of elements before block number `i`. -/
def firstOf (c : Chain) (i : Nat) : Nat :=
  ((c.blocks.map Block.count).take i).sum

/-- All elements of block number `i` lie in the range from number `a` to number `b`, without the
last. -/
def Covers (c : Chain) (a b i : Nat) : Prop :=
  a ≤ c.firstOf i ∧ c.firstOf (i + 1) ≤ b

instance (c : Chain) (a b i : Nat) : Decidable (c.Covers a b i) :=
  inferInstanceAs (Decidable (_ ∧ _))

/-- No element of block number `i` lies in the range. -/
def Misses (c : Chain) (a b i : Nat) : Prop :=
  c.firstOf (i + 1) ≤ a ∨ b ≤ c.firstOf i

/-- Element number `a` belongs to block number `i` and is not the first one of it. -/
def Splits (c : Chain) (a i : Nat) : Prop :=
  c.firstOf i < a ∧ a < c.firstOf (i + 1)

theorem firstOf_mono (c : Chain) : Monotone c.firstOf := by
  refine monotone_nat_of_le_succ fun i => ?_
  rw [firstOf, firstOf, List.take_add_one, List.sum_append]
  exact Nat.le_add_right _ _

/-- A number splits one block at most. -/
theorem Splits.unique {k : Nat} (h : c.Splits a i) (h' : c.Splits a k) : i = k := by
  obtain ⟨hi, hi'⟩ := h
  obtain ⟨hk, hk'⟩ := h'
  rcases Nat.lt_trichotomy i k with hlt | rfl | hlt
  · have hmono : c.firstOf (i + 1) ≤ c.firstOf k := c.firstOf_mono hlt
    omega
  · rfl
  · have hmono : c.firstOf (k + 1) ≤ c.firstOf i := c.firstOf_mono hlt
    omega

/-- A block that is neither covered nor missed is one in which the range begins or ends. -/
theorem splits_of_not_covers (hcovers : ¬ c.Covers a b i) (hmisses : ¬ c.Misses a b i) :
    c.Splits a i ∨ c.Splits b i := by
  rw [Covers] at hcovers
  rw [Misses] at hmisses
  rw [Splits, Splits]
  omega

/-- **Only the blocks at the two ends of a range are cut.** -/
theorem exists_ends (c : Chain) (a b : Nat) :
    ∃ first last, ∀ i, ¬ c.Covers a b i → ¬ c.Misses a b i →
      i = first ∧ c.Splits a i ∨ i = last ∧ c.Splits b i := by
  have hunique : ∀ m, ∃ k, ∀ i, c.Splits m i → i = k := by
    intro m
    by_cases h : ∃ k, c.Splits m k
    · obtain ⟨k, hk⟩ := h
      exact ⟨k, fun i hi => hi.unique hk⟩
    · exact ⟨0, fun i hi => absurd ⟨i, hi⟩ h⟩
  obtain ⟨first, hfirst⟩ := hunique a
  obtain ⟨last, hlast⟩ := hunique b
  refine ⟨first, last, fun i hcovers hmisses => ?_⟩
  rcases splits_of_not_covers hcovers hmisses with hsplits | hsplits
  · exact .inl ⟨hfirst i hsplits, hsplits⟩
  · exact .inr ⟨hlast i hsplits, hsplits⟩

theorem Has.firstOf_eq (h : c.Has l) (i : Nat) : c.firstOf i = Layout.total (l.leaves.take i) := by
  rw [firstOf, h.map_count_eq, Layout.total, List.map_take]

theorem Has.covers_iff (h : c.Has l) (a b i : Nat) :
    c.Covers a b i ↔ Layout.Covers l.leaves a b i := by
  rw [Covers, Layout.Covers, h.firstOf_eq, h.firstOf_eq]

/-- The blocks before a block, and with it. -/
theorem Has.firstOf_split (h : c.Has l) (hl : l.leaves = pre ++ x :: post) :
    c.firstOf pre.length = Layout.total pre ∧
      c.firstOf (pre.length + 1) = Layout.total pre + x.count := by
  constructor
  · rw [h.firstOf_eq, hl, List.take_left]
  · rw [h.firstOf_eq, hl, List.append_cons, ← List.length_singleton (a := x), ← List.length_append,
      List.take_left]
    simp

/-! ### Block by block -/

/-- `c'` is `c` without the elements from number `a` to number `b`, without the last, **block by
block**. -/
structure Trims (c : Chain) (a b : Nat) (c' : Chain) : Prop where
  /-- The blocks that are left stand in the order that they had. -/
  order : c'.ids.Sublist c.ids
  /-- The blocks that are covered are unlinked, and no others. -/
  unlinked : ∀ i id p n, c.inventory[i]? = some (id, p, n) → (id ∉ c'.ids ↔ c.Covers a b i)
  /-- A block that is missed keeps its packed list and its number of entries. -/
  kept : ∀ i id p n, c.inventory[i]? = some (id, p, n) → c.Misses a b i →
    (id, p, n) ∈ c'.inventory
  /-- A block that is cut loses its part of the range and nothing else. -/
  cut : ∀ i id r n, c.inventory[i]? = some (id, r, n) → ¬ c.Covers a b i → ¬ c.Misses a b i →
    let start := a - c.firstOf i
    let gone := min n (b - c.firstOf i) - start
    ∃ p q, r = .ok p ∧ p.Erases start gone q ∧ (id, .ok q, n - gone) ∈ c'.inventory
  /-- At most two blocks are cut, those in which the range begins and ends. -/
  ends : ∃ first last, ∀ i, ¬ c.Covers a b i → ¬ c.Misses a b i →
    i = first ∧ c.Splits a i ∨ i = last ∧ c.Splits b i
  /-- There are fewer blocks by those that are covered. -/
  length_eq : c.length = c'.length +
    (List.range c.length).countP fun i => decide (c.Covers a b i)
  /-- There are fewer elements by those in the range. -/
  count_eq : c.count = c'.count + (b - a)
  /-- The strings outside of the range are left. -/
  texts_eq : c'.texts = c.texts.take a ++ c.texts.drop b

/-- Block number `i`, as it appears in a layout. -/
theorem Has.exists_leaf_of_inventory (h : c.Has l) {id : BlockId} {p : Except Fault Packed}
    {n : Nat} (hi : c.inventory[i]? = some (id, p, n)) :
    ∃ pre x post, l.leaves = pre ++ x :: post ∧ pre.length = i ∧ id = x.id ∧ p = .ok x.list ∧
      n = x.count := by
  rw [h.inventory_eq, List.getElem?_map] at hi
  obtain ⟨y, hy, heq⟩ := Option.map_eq_some_iff.mp hi
  obtain ⟨hlt, rfl⟩ := List.getElem?_eq_some_iff.mp hy
  obtain ⟨pre, x, post, hl, rfl⟩ := l.exists_leaf hlt
  refine ⟨pre, x, post, hl, rfl, ?_⟩
  simp only [hl, Prod.mk.injEq] at heq
  simpa [eq_comm] using heq

/-- What is left of a block is a block of the chain. -/
theorem Has.mem_inventory (h : c.Has l) {y : Leaf} (hy : y ∈ l.leaves) :
    (y.id, .ok y.list, y.count) ∈ c.inventory := by
  rw [h.inventory_eq]
  exact List.mem_map_of_mem hy

/-- **What the loop leaves is what the range should leave.** -/
theorem Has.trims {stamp : UInt64} (h : c.Has l) (hs : l.Sound) (hab : a ≤ b) (hb : b ≤ l.count)
    (h' : c'.Consists (Layout.remnants a b l.leaves) stamp) : c.Trims a b c' := by
  obtain ⟨l', hl', hs', hleaves', -⟩ := h'
  have htexts' : l'.texts = l.texts.take a ++ l.texts.drop b := by
    rw [Layout.texts, hleaves', Layout.textsOf_remnants hab hs.counted, Layout.texts]
  constructor
  -- each block is looked at where it stands in the layout, and its name tells it from the others
  case order =>
    rw [h.ids_eq, hl'.ids_eq, Layout.ids, Layout.ids, hleaves']
    exact Layout.sublist_remnants _ _ _
  case unlinked =>
    intro i id p n hitem
    obtain ⟨pre, x, post, hl, rfl, rfl, -, -⟩ := h.exists_leaf_of_inventory hitem
    obtain ⟨hbegin, hend⟩ := h.firstOf_split hl
    have hpos := hs.pos_split hl
    rw [hl'.ids_eq, Layout.ids, hleaves', Layout.id_not_mem_remnants_iff hs hl, Covers, hbegin,
      hend]
    omega
  case kept =>
    intro i id p n hitem hmisses
    obtain ⟨pre, x, post, hl, rfl, rfl, rfl, rfl⟩ := h.exists_leaf_of_inventory hitem
    obtain ⟨hbegin, hend⟩ := h.firstOf_split hl
    rw [Misses, hbegin, hend] at hmisses
    have hmem : x ∈ l'.leaves := by
      rw [hleaves', hl, Layout.remnants_split, Leaf.remnant_eq_self (hs.pos_split hl) (by omega)]
      simp
    exact hl'.mem_inventory hmem
  case cut =>
    intro i id r n hitem hcovers hmisses
    obtain ⟨pre, x, post, hl, rfl, rfl, rfl, rfl⟩ := h.exists_leaf_of_inventory hitem
    obtain ⟨hbegin, hend⟩ := h.firstOf_split hl
    have hx := hs.counted_split hl
    rw [Covers, hbegin, hend] at hcovers
    rw [Misses, hbegin, hend] at hmisses
    rw [hbegin]
    intro start gone
    have hremnant : x.remnant (a - Layout.total pre) (b - Layout.total pre) =
        some ⟨x.id, x.list.eraseIdx start gone, x.count - gone⟩ :=
      Leaf.remnant_eq_some (by omega) (by omega)
    have herases := Packed.eraseIdx_erases (h.wellFormed hl) (k := start) (by omega) gone
    have havailable : x.list.available start gone = gone := by
      rw [Packed.available]
      omega
    rw [havailable] at herases
    refine ⟨_, _, rfl, herases, ?_⟩
    have hmem : ⟨x.id, x.list.eraseIdx start gone, x.count - gone⟩ ∈ l'.leaves := by
      rw [hleaves', hl, Layout.remnants_split, hremnant]
      simp
    exact hl'.mem_inventory hmem
  case ends => exact c.exists_ends a b
  case length_eq =>
    simp only [h.covers_iff]
    rw [h.length_eq, hl'.length_eq, hleaves']
    exact Layout.length_remnants hs.pos a b
  case count_eq =>
    have hlen := congrArg List.length htexts'
    rw [List.length_append, List.length_take, List.length_drop, hs.length_texts,
      hs'.length_texts] at hlen
    rw [h.count_eq, hl'.count_eq]
    omega
  case texts_eq => rw [h.texts_eq, hl'.texts_eq, htexts']

end Chain

namespace Session

/-- **A range is erased block by block.** In every list that can be reached, whatever the index
and the number asked for: a range that is empty or begins outside of the list leaves the list as
it was; any other one unlinks the blocks that it covers, cuts those in which it begins or ends
and leaves the others as they were. -/
theorem run_trims (setting depth : Int) (as : List Action) (start n : Int) :
    Ensures ((ofOptions setting depth).run as) fun r =>
      match if 0 < n then Packed.idxOf? r.1.chain.elements.length start else none with
      | none => r.1.chain.eraseRange start n = .ok (r.1.chain, false)
      | some a => Ensures (r.1.chain.eraseRange start n) fun t => t.2 = true ∧
          r.1.chain.Trims a (min (a + n.toNat) r.1.chain.elements.length) t.1 := by
  refine ((follows_ofOptions setting depth).run as).imp fun r hr => ?_
  obtain ⟨⟨l, hl, hs, -, -⟩, -⟩ := hr
  have hlen : r.1.chain.elements.length = l.count := by
    have htexts := congrArg List.length hl.texts_eq
    rwa [Chain.texts, List.length_map, hs.length_texts] at htexts
  rw [hlen]
  cases hi : (if 0 < n then Packed.idxOf? l.count start else none) with
  | none => exact hl.eraseRange_eq_self hi
  | some a =>
    obtain ⟨hn, hi⟩ := Option.ite_none_right_eq_some.mp hi
    have hlt := Packed.lt_of_idxOf? hi
    refine (hl.eraseRange_remnants hs hn hi).imp fun t ht => ⟨ht.1, ?_⟩
    exact hl.trims hs (by omega) (Nat.min_le_right _ _) ht.2

/-- **And it is erased, unless there is a reason why not.** Nothing is put in, so a header is only
outgrown where links widen between what is left of one block. -/
theorem run_erasesBlockwise (setting depth : Int) (as : List Action) (start n : Int) :
    Ensures ((ofOptions setting depth).run as) fun r =>
      match if 0 < n then Packed.idxOf? r.1.chain.elements.length start else none with
      | none => r.1.chain.eraseRange start n = .ok (r.1.chain, false)
      | some a => Answers (r.1.chain.eraseRange start n)
          (fun t => t.2 = true ∧
            r.1.chain.Trims a (min (a + n.toNat) r.1.chain.elements.length) t.1)
          (r.1.chain.Exceeds []) := by
  have hfollows := ((follows_ofOptions setting depth).run as).gives
  refine ((run_trims setting depth as start n).and_gives hfollows).imp fun r hr => ?_
  obtain ⟨htrims, ⟨l, hl, -⟩, -⟩ := hr
  split
  · next hnone =>
    rw [hnone] at htrims
    exact htrims
  · next a hsome =>
    rw [hsome] at htrims
    exact htrims.answers (hl.stops_eraseRange start n)

/-- Four blocks of two elements each. -/
def paired : List Action :=
  (List.range 8).map fun k => .push .tail [UInt8.ofNat (97 + k)]

/-- All but the first element and the last: the two blocks between are covered, and the two at
the ends are cut. -/
theorem run_erasesBlockwise_paired :
    ∃ r t, (ofOptions 2 1).run paired = .ok r ∧ r.1.chain.length = 4 ∧
      r.1.chain.eraseRange (-7) 6 = .ok t ∧ t.1.length = 2 ∧ t.1.count = 2 ∧
        r.1.chain.Trims 1 7 t.1 := by
  have hrun : ∃ r, (ofOptions 2 1).run paired = .ok r ∧
      r.1.chain.length = 4 ∧ r.1.chain.elements.length = 8 ∧
        (r.1.chain.eraseRange (-7) 6).map (fun t => (t.1.length, t.1.count)) = .ok (2, 2) :=
    exists_eq_ok (by decide +kernel)
  obtain ⟨r, hr, hlength, hlen, herase⟩ := hrun
  obtain ⟨t, ht, heq⟩ := exists_of_map_eq_ok herase
  obtain ⟨hlength', hcount'⟩ := Prod.mk.inj heq
  have htrims := run_erasesBlockwise 2 1 paired (-7) 6
  rw [hr, ensures_ok, hlen] at htrims
  obtain ⟨-, htrims⟩ := htrims.of_ok ht
  exact ⟨r, t, hr, hlength, ht, hlength', hcount', htrims⟩

/-- A list in which the compressor fails on the second block as soon as the depth counts. -/
def overcrowded : List Action :=
  [.push .tail [97], .push .tail crowded, .push .tail [98], .push .tail [99], .setDepth 1]

/-- A range of one block stops where unlinking the block stops. -/
theorem eraseRange_eq_error {c c₁ : Chain} {start n : Int} {i : Nat} {h : Handle} {b : Block}
    {f : Fault} (hn : 0 < n) (hfind : c.find? start = .ok (c₁, some (i, h)))
    (hlast : c₁.length - i = 1) (hoffset : h.offset = 0) (hblock : c₁.block i = .ok b)
    (hextent : Chain.rangeLength c.count start n.toNat ≠ 0)
    (hwhole : b.count ≤ Chain.rangeLength c.count start n.toNat)
    (hunlink : c₁.unlink i = .error f) : c.eraseRange start n = .error f := by
  simp only [Chain.eraseRange, if_neg (Int.not_le.mpr hn), hfind, ok_bind, hlast, hoffset,
    Chain.eraseFrom, if_neg hextent, hblock, hwhole, and_self, if_true, hunlink, error_bind]

/-- The compressor fails on the second of three blocks when a fourth one is gone. -/
theorem unlink_crowded :
    (plainBlocks [[97], crowded, [98], [99]] 4).unlink 3 = .error .outputOverrun := by
  obtain ⟨⟨c, b⟩, hremove, hcells, hdepth, hcount⟩ :
      ∃ r, (plainBlocks [[97], crowded, [98], [99]] 4).removeCell 3 = .ok r ∧
        r.1.cells = (plainBlocks [[97], crowded, [98]] 3).cells ∧ r.1.depth = 1 ∧
          subtract r.1.count r.2.count = .ok 3 :=
    exists_eq_ok (by decide +kernel)
  have henforce : (c.withCount 3).enforce none = .error .outputOverrun :=
    enforce_crowded hcells hdepth (show Chain.innerIdxs 1 3 none = [1, 1] from rfl)
  simp only [Chain.unlink, hremove, ok_bind, hcount, henforce]

/-- **Not every range can be erased.** Without the last block the second one lies inside, and
there the compressor fails. -/
theorem eraseRange_overrun :
    ∃ r, (ofOptions 1 0).run overcrowded = .ok r ∧
      r.1.chain.eraseRange 3 1 = .error .outputOverrun := by
  have hrun : (ofOptions 1 0).run overcrowded =
      .ok (⟨plainBlocks [[97], crowded, [98], [99]] 4, []⟩, List.replicate 5 .done) := by
    decide +kernel
  have hfind : ∃ t, (plainBlocks [[97], crowded, [98], [99]] 4).find? 3 = .ok t ∧
      t.1 = plainBlocks [[97], crowded, [98], [99]] 4 ∧
        t.2.map (fun found => (found.1, found.2.offset)) = some (3, 0) :=
    exists_eq_ok (by decide +kernel)
  obtain ⟨⟨c, found⟩, hfind, rfl, hfound⟩ := hfind
  obtain ⟨⟨i, h⟩, rfl, heq⟩ := Option.map_eq_some_iff.mp hfound
  obtain ⟨rfl, hoffset⟩ := Prod.mk.inj heq
  refine ⟨_, hrun, ?_⟩
  exact eraseRange_eq_error (by decide) hfind rfl hoffset (b := plainBlock [99]) rfl (by decide)
    (by decide) unlink_crowded

end Session

end UnrolledList
