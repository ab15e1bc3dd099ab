import UnrolledList.Chain.Range
import UnrolledList.Proofs.Chain.Handles

/-!
# What erasing a range does

A range begins in one block and may end in another. What becomes of the blocks is told by a
list of what is left of each (`UnrolledList.Layout.remnants`): nothing of a block that lies in
the range, all of a block that the range does not meet, and of a block at an end of the range
what it has on either side. That the strings which are left are those outside of the range
(`UnrolledList.Layout.textsOf_remnants`) is a fact about such lists and not about the loop.

## The loop

It takes the blocks one after the other, and only the first of them may have entries in front
of the range; from the second on a range that goes on begins at offset zero. So what the loop
does is told twice: of the blocks `rest` that follow (`UnrolledList.Chain.Has.eraseFrom_zero`),
by induction on them, and of the first block with any offset
(`UnrolledList.Chain.Has.eraseFrom_cons`), which is the step of that induction as well.

The number of blocks that the loop may still look at is that of the blocks that are left,
so it never asks for one that is not there.
-/

namespace UnrolledList

/-! ### What is left -/

namespace Leaf

variable {x : Leaf} {k n a b : Nat}

/-- What is left of a block without `n` entries from number `k` on. -/
def without (x : Leaf) (k n : Nat) : Option Leaf :=
  if n = x.count then none else some ⟨x.id, x.list.eraseIdx k n, x.count - n⟩

theorem without_count (x : Leaf) (k : Nat) : x.without k x.count = none :=
  if_pos rfl

/-- A block of which nothing is taken stays as it is. -/
theorem without_zero (h : 0 < x.count) (k : Nat) : x.without k 0 = some x := by
  have hlist : x.list.eraseIdx k 0 = x.list :=
    Packed.eraseIdx_of_available_eq_zero (Nat.zero_min _)
  rw [without, if_neg (Nat.ne_of_lt h), hlist, Nat.sub_zero]

theorem textsOf_without (hx : x.count = x.list.entries.size) (h : k + n ≤ x.count) :
    Layout.textsOf (x.without k n).toList =
      x.list.texts.take k ++ x.list.texts.drop (k + n) := by
  have hlen := x.list.length_texts
  by_cases hall : n = x.count
  · obtain rfl : k = 0 := by omega
    rw [hall, without_count, List.drop_of_length_le (by omega)]
    rfl
  · rw [without, if_neg hall]
    simp [Packed.texts_eraseIdx]

/-- What is left of a block without the elements from number `a` to number `b`, without the
last, where both are counted from the head of the block and may lie beyond its end. -/
def remnant (x : Leaf) (a b : Nat) : Option Leaf :=
  x.without (min x.count a) (min x.count b - min x.count a)

/-- Of a block that the range does not meet everything is left. -/
theorem remnant_eq_self (hpos : 0 < x.count) (h : min x.count b ≤ a) : x.remnant a b = some x := by
  have hnone : min x.count b - min x.count a = 0 := by omega
  rw [remnant, hnone, without_zero hpos]

/-- Nothing is left exactly if the range begins no later than the block and ends no earlier. -/
theorem remnant_eq_none_iff (hpos : 0 < x.count) (a b : Nat) :
    x.remnant a b = none ↔ a = 0 ∧ x.count ≤ b := by
  rw [remnant, without, ite_eq_left_iff]
  constructor
  · intro h
    have hall : min x.count b - min x.count a = x.count := by
      by_contra hne
      exact Option.some_ne_none _ (h hne)
    omega
  · rintro ⟨rfl, hb⟩ hne
    exact absurd (by omega) hne

/-- A block in which a range begins, or before whose end it ends, loses what they have in
common. -/
theorem remnant_eq_some (ha : a < x.count) (hcut : 0 < a ∨ b < x.count) :
    x.remnant a b = some ⟨x.id, x.list.eraseIdx a (min x.count b - a),
      x.count - (min x.count b - a)⟩ := by
  rw [remnant, Nat.min_eq_right (Nat.le_of_lt ha), without, if_neg (by omega)]

theorem textsOf_remnant (hab : a ≤ b) (hx : x.count = x.list.entries.size) :
    Layout.textsOf (x.remnant a b).toList = x.list.texts.take a ++ x.list.texts.drop b := by
  have hlen : x.list.texts.length = x.count := by rw [x.list.length_texts, hx]
  have hend : min x.count a + (min x.count b - min x.count a) = min x.count b := by omega
  rw [remnant, textsOf_without hx (by omega), hend, ← hlen, Nat.min_comm _ a, Nat.min_comm _ b,
    ← List.take_take, List.take_length, Packed.drop_min_length]

end Leaf

namespace Layout

variable {l : Layout} {xs : List Leaf} {a b : Nat}

/-- What is left of blocks, where `a` and `b` are counted from the head of the first one. -/
def remnants : (a b : Nat) → List Leaf → List Leaf
  | _, _, [] => []
  | a, b, x :: rest => (x.remnant a b).toList ++ remnants (a - x.count) (b - x.count) rest

@[simp] theorem remnants_nil (a b : Nat) : remnants a b [] = [] := rfl

/-- Further on the numbers are smaller by what has been passed. -/
theorem remnants_append (xs ys : List Leaf) (a b : Nat) :
    remnants a b (xs ++ ys) = remnants a b xs ++ remnants (a - total xs) (b - total xs) ys := by
  induction xs generalizing a b with
  | nil => rfl
  | cons x xs ih =>
    rw [List.cons_append, remnants, ih, remnants, total_cons, Nat.sub_sub, Nat.sub_sub,
      List.append_assoc]

/-- Blocks that the range does not meet are left as they are: it is empty, or begins behind
them. -/
theorem remnants_eq_self (h : min (total xs) b ≤ a) (hpos : ∀ x ∈ xs, 0 < x.count) :
    remnants a b xs = xs := by
  induction xs generalizing a b with
  | nil => rfl
  | cons x xs ih =>
    rw [total_cons] at h
    rw [remnants, Leaf.remnant_eq_self (hpos x List.mem_cons_self) (by omega),
      ih (by omega) fun y hy => hpos y (List.mem_cons_of_mem x hy)]
    rfl

/-- **The strings that are left** are those in front of the range and those behind it. -/
theorem textsOf_remnants (hab : a ≤ b) (hxs : ∀ x ∈ xs, x.count = x.list.entries.size) :
    textsOf (remnants a b xs) = (textsOf xs).take a ++ (textsOf xs).drop b := by
  induction xs generalizing a b with
  | nil => simp
  | cons x xs ih =>
    have hx := hxs x List.mem_cons_self
    have hlen : x.list.texts.length = x.count := by rw [x.list.length_texts, hx]
    rw [remnants, textsOf_append, Leaf.textsOf_remnant hab hx,
      ih (by omega) fun y hy => hxs y (List.mem_cons_of_mem x hy), textsOf_cons, List.take_append,
      List.drop_append, hlen]
    -- in this block nothing is left behind the range, or in the next ones nothing before it
    rcases Nat.le_total x.count a with hle | hle
    · rw [List.drop_of_length_le (show x.list.texts.length ≤ b by omega)]
      simp
    · rw [Nat.sub_eq_zero_of_le hle]
      simp

end Layout

namespace Chain

variable {c : Chain} {l : Layout} {pre post : List Leaf} {x : Leaf} {k : Nat} {offset : Int}

/-- The chain is in order and has just these blocks. -/
def Consists (c : Chain) (leaves : List Leaf) (stamp : UInt64) : Prop :=
  ∃ l, c.Has l ∧ l.Sound ∧ l.leaves = leaves ∧ l.stamp = stamp

theorem Consists.holds {leaves : List Leaf} {stamp : UInt64} (h : c.Consists leaves stamp) :
    c.Holds (Layout.textsOf leaves) stamp := by
  obtain ⟨l, hl, hs, rfl, rfl⟩ := h
  exact hl.holds hs

theorem Consists.touch {leaves : List Leaf} {stamp : UInt64} (h : c.Consists leaves stamp) :
    c.touch.Consists leaves (stamp + 1) := by
  obtain ⟨l, hl, hs, rfl, rfl⟩ := h
  exact ⟨_, hl.touch, hs.withStamp _, rfl, rfl⟩

/-- The share of a block is what it has from the offset on, as far as it is asked for. -/
theorem shareOfBlock_eq {count : Nat} (h : Packed.idxOf? count offset = some k) (extent : Nat) :
    shareOfBlock count offset extent = min (count - k) extent := by
  obtain ⟨hk, rfl | rfl⟩ := Packed.idxOf?_eq_some h
  · rw [shareOfBlock, if_neg (by omega), Int.toNat_natCast]
  · rw [shareOfBlock, if_pos (by omega)]
    omega

/-- The number of elements to be erased, where the range begins at the element with index
`pos`. -/
theorem rangeLength_eq {count pos n : Nat} {start : Int}
    (h : Packed.idxOf? count start = some pos) :
    rangeLength count start n = min n (count - pos) := by
  obtain ⟨hpos, rfl | rfl⟩ := Packed.idxOf?_eq_some h
  · rw [rangeLength, if_pos (by omega), Int.toNat_natCast]
  · rw [rangeLength, if_neg (by omega)]
    omega

/-! ### The loop -/

/-- **Entries erased within a block.** The block stays with what is left of it, or goes. -/
theorem Has.eraseWithin (h : c.Has l) (hs : l.Sound) (hl : l.leaves = pre ++ x :: post)
    (hoffset : Packed.idxOf? x.count offset = some k) {n : Nat} (hn : k + n ≤ x.count) :
    Ensures (c.eraseWithin pre.length offset n) fun r => r.2 = decide (n = x.count) ∧
      r.1.Consists (pre ++ (x.without k n).toList ++ post) l.stamp := by
  have hx := hs.counted_split hl
  have hlen := x.list.length_texts
  have htotal := hs.count_split hl
  have hlist : (x.list.eraseRange offset n).1 = x.list.eraseIdx k n := by
    rw [Packed.eraseRange_of_idxOf? (h.wellFormed hl).linked (hx ▸ hoffset)]
  refine (h.openForUse (by simp [hl])).bind fun c₁ h₁ => ?_
  have hmod := h₁.modifyBlock (y := ⟨x.id, x.list.eraseIdx k n, x.count - n⟩)
    (f := fun b => do
      let left ← subtract b.count n
      let b ← b.modify fun p => (p.eraseRange offset n).1
      return b.withCount left) hl rfl fun b hb hcount => by
        rw [hcount, subtract_eq (show n ≤ x.count by omega), ok_bind, ← hlist]
        exact (hb.modify (f := fun p => (p.eraseRange offset n).1) hb.wellFormed.eraseRange).bind
          fun b' hb' => ⟨hb'.1.withCount _, rfl⟩
  refine hmod.bind fun c₂ h₂ => ?_
  obtain ⟨b, hb, -, hbcount⟩ := (h₂.withCount (l.count - n)).block_eq rfl
  rw [h₂.count_eq, subtract_eq (show n ≤ l.count by omega), ok_bind]
  dsimp only
  rw [hb, ok_bind, hbcount]
  by_cases hall : n = x.count
  · obtain rfl := hall
    simp only [Nat.sub_self, if_true, x.without_count, Option.toList_none, List.append_nil]
    refine ((h₂.withCount _).unlink rfl (by simp)).bind fun c₃ h₃ => ?_
    exact ⟨by simp, _, h₃, hs.remove hl (by simp only; omega), rfl, rfl⟩
  · have hsome : x.count - n ≠ 0 := by omega
    simp only [hsome, if_false, hall, Leaf.without, Option.toList_some, List.append_assoc,
      List.singleton_append]
    refine ((h₂.withCount _).settle (by simp)).bind fun c₃ h₃ => ?_
    refine ⟨by simp, _, h₃, ?_, rfl, rfl⟩
    refine hs.set (y := ⟨x.id, x.list.eraseIdx k n, x.count - n⟩) hl rfl ?_ ?_ ?_
    · rw [← Packed.length_texts, Packed.texts_eraseIdx, List.length_append, List.length_take,
        List.length_drop]
      simp only
      omega
    · simp only
      omega
    · simp only
      omega

/-- The first block of a range, and with it the rest. -/
theorem Has.eraseFrom_cons (h : c.Has l) (hs : l.Sound) (hl : l.leaves = pre ++ x :: post)
    (hoffset : Packed.idxOf? x.count offset = some k) (extent : Nat)
    (hrest : ∀ {c : Chain} {l : Layout} {pre : List Leaf} (extent : Nat), c.Has l → l.Sound →
      l.leaves = pre ++ post → Ensures (eraseFrom post.length pre.length 0 extent c)
        (·.Consists (pre ++ Layout.remnants 0 extent post) l.stamp)) :
    Ensures (eraseFrom (post.length + 1) pre.length offset extent c)
      (·.Consists (pre ++ Layout.remnants k (k + extent) (x :: post)) l.stamp) := by
  have hk := Packed.lt_of_idxOf? hoffset
  have htotal := hs.count_split hl
  obtain ⟨b, hb, -, hbcount⟩ := h.block_eq hl
  rw [eraseFrom]
  by_cases hnone : extent = 0
  · rw [if_pos hnone, hnone, Nat.add_zero, Layout.remnants_eq_self (Nat.min_le_right _ _)
      fun y hy => hs.pos y (by rw [hl]; exact List.mem_append_right _ hy)]
    exact ⟨l, h, hs, hl, rfl⟩
  · rw [if_neg hnone, hb, ok_bind]
    dsimp only
    rw [hbcount]
    by_cases hwhole : offset = 0 ∧ x.count ≤ extent
    · rw [if_pos hwhole]
      obtain ⟨rfl, hle⟩ := hwhole
      obtain rfl : 0 = k := Option.some.inj
        ((Packed.idxOf?_natCast (Nat.zero_lt_of_lt hk)).symm.trans hoffset)
      refine (h.unlink hl (by omega)).bind fun c₁ h₁ => ?_
      refine (hrest (extent - x.count) h₁ (hs.remove hl (by omega)) rfl).imp fun c₂ h₂ => ?_
      rw [Nat.zero_add, Layout.remnants, (Leaf.remnant_eq_none_iff (by omega) _ _).mpr ⟨rfl, hle⟩,
        Nat.zero_sub]
      exact h₂
    · rw [if_neg hwhole, shareOfBlock_eq hoffset]
      refine (h.eraseWithin hs hl hoffset (n := min (x.count - k) extent) (by omega)).bind
        fun r hr => ?_
      obtain ⟨c₁, gone⟩ := r
      obtain ⟨rfl, l₁, h₁, hs₁, hl₁, hstamp⟩ := hr
      have hfirst : min x.count k = k := Nat.min_eq_right (Nat.le_of_lt hk)
      have hshare : min x.count (k + extent) - k = min (x.count - k) extent := by omega
      have hbehind : k + extent - x.count = extent - min (x.count - k) extent := by omega
      rw [Layout.remnants, Leaf.remnant, hfirst, hshare, hbehind,
        Nat.sub_eq_zero_of_le (Nat.le_of_lt hk), ← List.append_assoc, ← hstamp]
      have hnext := hrest (extent - min (x.count - k) extent) h₁ hs₁ hl₁
      rw [List.length_append] at hnext
      -- the loop goes on with the same number if the block is gone, and otherwise with the next
      by_cases hall : min (x.count - k) extent = x.count
      · simpa [hall, x.without_count] using hnext
      · simpa [hall, Leaf.without] using hnext

/-- **What follows the first block** is erased from its head on. -/
theorem Has.eraseFrom_zero {rest : List Leaf} (extent : Nat) (h : c.Has l) (hs : l.Sound)
    (hl : l.leaves = pre ++ rest) :
    Ensures (eraseFrom rest.length pre.length 0 extent c)
      (·.Consists (pre ++ Layout.remnants 0 extent rest) l.stamp) := by
  induction rest generalizing c l pre extent with
  | nil => exact ⟨l, h, hs, hl, rfl⟩
  | cons x post ih =>
    have hpos := hs.pos_split hl
    have hcons := h.eraseFrom_cons hs hl (Packed.idxOf?_natCast hpos) extent
      (fun extent h hs hl => ih extent h hs hl)
    rwa [Nat.zero_add] at hcons

/-! ### The whole range -/

/-- A range that is empty or begins nowhere leaves **everything as it was**. -/
theorem Has.eraseRange_eq_self (h : c.Has l) {start n : Int}
    (hnone : (if 0 < n then Packed.idxOf? l.count start else none) = none) :
    c.eraseRange start n = .ok (c, false) := by
  rw [Chain.eraseRange]
  by_cases hn : n ≤ 0
  · rw [if_pos hn]
  · rw [if_pos (by omega)] at hnone
    rw [if_neg hn, h.find?_eq_none hnone]
    rfl

/-- **Erasing a range**, block by block. -/
theorem Has.eraseRange_remnants (h : c.Has l) (hs : l.Sound) {start n : Int} {pos : Nat}
    (hn : 0 < n) (hi : Packed.idxOf? l.count start = some pos) :
    Ensures (c.eraseRange start n) fun r => r.2 = true ∧
      r.1.Consists (Layout.remnants pos (min (pos + n.toNat) l.count) l.leaves) (l.stamp + 1) := by
  rw [Chain.eraseRange, if_neg (by omega)]
  refine (h.find?_eq hs hi).bind fun r hr => ?_
  obtain ⟨c₁, found⟩ := r
  obtain ⟨h₁, pre, x, post, k, handle, hfound, hnames, rfl⟩ := hr
  obtain rfl : found = _ := hfound
  have hl := hnames.leaves_eq
  have hlt := hnames.lt
  have hblocks : c₁.length - pre.length = post.length + 1 := by
    rw [Has.length_eq h₁, hl, List.length_append, List.length_cons]
    omega
  have herase := Has.eraseFrom_cons h₁ hs hl hnames.offset_eq
    (rangeLength c.count start n.toNat) fun extent h hs hl => h.eraseFrom_zero extent hs hl
  rw [← hblocks, h.count_eq, rangeLength_eq hi] at herase
  rw [h.count_eq, rangeLength_eq hi]
  refine herase.bind fun c₂ h₂ => ⟨rfl, ?_⟩
  have hidx := Packed.lt_of_idxOf? hi
  have hend : min (Layout.total pre + k + n.toNat) l.count - Layout.total pre =
      k + min n.toNat (l.count - (Layout.total pre + k)) := by
    omega
  rw [hl, Layout.remnants_append, Nat.add_sub_cancel_left, hend,
    Layout.remnants_eq_self (by omega) fun y hy =>
      hs.pos y (by rw [hl]; exact List.mem_append_left _ hy)]
  exact h₂.touch

/-- Erasing a range erases it from the sequence, if it begins there and is not empty. -/
theorem Has.eraseRange (h : c.Has l) (hs : l.Sound) (start n : Int) :
    Ensures (c.eraseRange start n) fun r =>
      match if 0 < n then Packed.idxOf? l.count start else none with
      | none => r.2 = false ∧ r.1.Has l
      | some pos => r.2 = true ∧
          r.1.Holds (l.texts.take pos ++ l.texts.drop (pos + n.toNat)) (l.stamp + 1) := by
  cases hi : (if 0 < n then Packed.idxOf? l.count start else none) with
  | none =>
    rw [h.eraseRange_eq_self hi]
    exact ⟨rfl, h⟩
  | some pos =>
    obtain ⟨hn, hi⟩ := (Option.ite_none_right_eq_some).mp hi
    refine (h.eraseRange_remnants hs hn hi).imp fun r hr => ⟨hr.1, ?_⟩
    have hlt := Packed.lt_of_idxOf? hi
    have htexts : l.texts.drop (min (pos + n.toNat) l.count) = l.texts.drop (pos + n.toNat) := by
      rw [← hs.length_texts, Packed.drop_min_length]
    rw [← htexts, Layout.texts, ← Layout.textsOf_remnants (by omega) hs.counted]
    exact hr.2.holds

end Chain

end UnrolledList
