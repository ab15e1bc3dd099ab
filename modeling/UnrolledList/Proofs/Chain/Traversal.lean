import UnrolledList.Proofs.Chain.Answering
import UnrolledList.Proofs.Chain.Elements

/-!
# A walk meets everything once

A walk that erases some of the elements it meets, as a **strategy** decides, is compared with
the list as it was when the walk began. The elements are known by their numbers in that
list. A walk from the head meets those from its first one up, a walk from the tail those
from its first one down, and none is left out and none comes twice, whatever is erased on
the way (`UnrolledList.Session.run_traverse`). Once they have run out there is nothing more,
however often one asks; and what is left at the end is what was not erased, wherever the walk
ends.

## Numbers under erasure

At any time some numbers are erased, and those that survive
(`UnrolledList.surviving`) tell where an element is now: at the number of those that survive
before it. A walk erases nothing that it has not met, so on one side of its cut nothing is
erased (`UnrolledList.Side.Passed`); from the tail that is the side where the elements are
counted from, so that there numbers do not change at all, and from the head it is the other
one.

Whether the walk can go on is then the same in the list as it was and in the list as it is
(`UnrolledList.Side.next?_surviving`). What is kept up from one call to the next
(`UnrolledList.Walk.Visits`) speaks of the list as it was alone: the walk stands at a cut of
it, and all that is erased lies behind. A call meets the element at the cut
(`UnrolledList.Walk.Visits.next`), and it is passed in either case, kept
(`UnrolledList.Walk.Met.visits`) or erased (`UnrolledList.Walk.Met.erase`).
-/

namespace UnrolledList

/-! ### What a walk is to meet -/

/-- The numbers below `n` that are not erased. -/
def surviving (erased : List Nat) (n : Nat) : List Nat :=
  (List.range n).filter (· ∉ erased)

/-- What is left of a sequence. -/
def remaining (erased : List Nat) (xs : List Value) : List Value :=
  (surviving erased xs.length).filterMap (xs[·]?)

/-- The numbers of the elements still to come at a cut of `n`, in the order in which they
come. -/
def Side.upcoming : (origin : Side) → (n cut : Nat) → List Nat
  | .head, n, cut => List.range' cut (n - cut)
  | .tail, _, cut => (List.range cut).reverse

/-- What is known of an element that was met. -/
structure Visit where
  /-- The list as it was then. -/
  chain : Chain
  /-- The handle. -/
  handle : Handle
  /-- If the element was erased, whether its block went with it. -/
  gone : Option Bool := none

namespace Walk

/-- Goes on with a walk for a number of calls, erases what the strategy says, and ends the
walk. What was met before is known to the strategy, and is given back with what is met now; a
call that meets nothing is recorded as well. -/
def traverse (erases : List (Option Visit) → Handle → Bool) :
    (calls : Nat) → Walk → Chain → List (Option Visit) →
      Except Fault (Chain × List (Option Visit))
  | 0, w, c, met => do
    let c ← w.finish c
    return (c, met)
  | calls + 1, w, c, met => do
    let (w, c, found) ← w.next c
    match found with
    | none => traverse erases calls w c (met ++ [none])
    | some h =>
      if erases met h then do
        let (w, c', gone) ← w.erase c h
        traverse erases calls w c' (met ++ [some ⟨c, h, some gone⟩])
      else traverse erases calls w c (met ++ [some ⟨c, h, none⟩])

end Walk

/-- Walks through a list, if the walk can begin. -/
def Chain.traverse (c : Chain) (origin : Side) (start : Option Int)
    (erases : List (Option Visit) → Handle → Bool) (calls : Nat) :
    Except Fault (Option (Chain × List (Option Visit))) := do
  match ← Session.begin c origin start with
  | (_, none) => return none
  | (c, some w) => do
    let r ← w.traverse erases calls c []
    return some r

/-- What was met is element number `i` of the sequence `xs`, of which some are erased. The
list holds the others. The handle has the element's entry in its block, its offset there, and
its value; before it are the elements that survive before number `i`. If the element is
erased, its block goes if it was the only one there. -/
structure Visit.Meets (v : Visit) (origin : Side) (xs : List Value) (erased : List Nat)
    (i : Nat) : Prop where
  /-- The value is that of the element. -/
  value_eq : xs[i]? = some v.handle.value
  /-- The list holds what is left of the sequence. -/
  elements_eq : v.chain.elements = remaining erased xs
  /-- The handle has the entry of the element, and its offset. -/
  exists_entry : ∃ j b p k, v.chain.idxOf v.handle.block = .ok j ∧ v.chain.block j = .ok b ∧
    b.packed = .ok p ∧ v.handle.place = p.cursor k ∧ p.values[k]? = some v.handle.value ∧
      v.handle.offset = origin.offsetOf p.values.length k ∧
        ((v.chain.blocks.take j).flatMap Block.values).length + k = (surviving erased i).length ∧
          ∀ gone ∈ v.gone, gone = true ↔ p.values.length = 1

/-- What was met is what was to come, one after the other, then nothing; and at the end there
is what is left. -/
def Traversed (origin : Side) (xs : List Value) :
    (order erased : List Nat) → List (Option Visit) → List Value → Prop
  | _, erased, [], left => left = remaining erased xs
  | [], erased, found :: met, left => found = none ∧ Traversed origin xs [] erased met left
  | i :: order, erased, found :: met, left => ∃ v, found = some v ∧ v.Meets origin xs erased i ∧
      Traversed origin xs order (if v.gone.isSome then i :: erased else erased) met left

/-! ### Numbers that survive -/

section Surviving

variable {origin : Side} {erased : List Nat} {cut i n : Nat} {xs : List Value}

theorem lt_of_mem_surviving {j : Nat} (h : j ∈ surviving erased n) : j < n :=
  List.mem_range.mp (List.mem_filter.mp h).1

theorem surviving_succ (h : n ∉ erased) : surviving erased (n + 1) = surviving erased n ++ [n] := by
  simp [surviving, List.range_succ, h]

/-- Numbers below are not touched. -/
theorem surviving_cons (h : n ≤ i) : surviving (i :: erased) n = surviving erased n := by
  refine List.filter_congr fun j hj => ?_
  have hlt := List.mem_range.mp hj
  have hne : j ≠ i := by omega
  simp [hne]

/-- The number itself is gone. -/
theorem surviving_cons_succ : surviving (i :: erased) (i + 1) = surviving erased i := by
  rw [← surviving_cons (Nat.le_refl i)]
  simp [surviving, List.range_succ]

/-- The numbers that survive before a number and behind it stay the same when it is
erased. -/
theorem exists_surviving_eq (hi : i < n) (h : i ∉ erased) : ∃ behind,
    surviving erased n = surviving erased i ++ i :: behind ∧
      surviving (i :: erased) n = surviving erased i ++ behind := by
  induction n with
  | zero => exact absurd hi (Nat.not_lt_zero i)
  | succ n ih =>
    rcases Nat.lt_or_eq_of_le (Nat.le_of_lt_succ hi) with hlt | rfl
    · obtain ⟨behind, hwith, hwithout⟩ := ih hlt
      -- the last number is behind `i`, and erasing `i` makes no difference to it
      have hne : n ≠ i := by omega
      have hstep : ∀ es : List Nat, surviving es (n + 1) =
          surviving es n ++ if n ∈ es then [] else [n] := by
        intro es
        by_cases hmem : n ∈ es <;> simp [surviving, List.range_succ, hmem]
      refine ⟨behind ++ if n ∈ erased then [] else [n], ?_, ?_⟩
      · rw [hstep, hwith]
        simp
      · rw [hstep, hwithout]
        simp [hne]
    · exact ⟨[], surviving_succ h, by rw [surviving_cons_succ, List.append_nil]⟩

/-- Numbers that are those of elements stand for as many of them. -/
theorem length_filterMap_getElem? {ns : List Nat} (h : ∀ j ∈ ns, j < xs.length) :
    (ns.filterMap (xs[·]?)).length = ns.length := by
  induction ns with
  | nil => rfl
  | cons j ns ih =>
    have hj := List.getElem?_eq_getElem (h j List.mem_cons_self)
    rw [List.filterMap_cons_some hj, List.length_cons, List.length_cons,
      ih fun k hk => h k (List.mem_cons_of_mem j hk)]

/-- Where an element is, among those that are left, and what they are without it. -/
theorem exists_remaining_eq (hi : i < xs.length) (h : i ∉ erased) : ∃ front behind,
    front.length = (surviving erased i).length ∧ remaining erased xs = front ++ xs[i] :: behind ∧
      remaining (i :: erased) xs = front ++ behind := by
  obtain ⟨behind, hwith, hwithout⟩ := exists_surviving_eq hi h
  refine ⟨(surviving erased i).filterMap (xs[·]?), behind.filterMap (xs[·]?), ?_, ?_, ?_⟩
  · exact length_filterMap_getElem? fun j hj => Nat.lt_trans (lt_of_mem_surviving hj) hi
  · rw [remaining, hwith, List.filterMap_append,
      List.filterMap_cons_some (List.getElem?_eq_getElem hi)]
  · rw [remaining, hwithout, List.filterMap_append]

/-- An element is where those before it leave it. -/
theorem getElem?_remaining (hi : i < xs.length) (h : i ∉ erased) :
    (remaining erased xs)[(surviving erased i).length]? = xs[i]? := by
  obtain ⟨front, behind, hlen, hwith, -⟩ := exists_remaining_eq hi h
  rw [hwith, ← hlen, List.getElem?_append_right (Nat.le_refl _), Nat.sub_self,
    List.getElem?_cons_zero, List.getElem?_eq_getElem hi]

/-- **Erasing it there** is erasing it. -/
theorem eraseIdx_remaining (hi : i < xs.length) (h : i ∉ erased) :
    (remaining erased xs).eraseIdx (surviving erased i).length = remaining (i :: erased) xs := by
  obtain ⟨front, behind, hlen, hwith, hwithout⟩ := exists_remaining_eq hi h
  rw [hwith, hwithout, ← hlen, List.eraseIdx_append_of_length_le (Nat.le_refl _), Nat.sub_self,
    List.eraseIdx_cons_zero]

theorem length_remaining (erased : List Nat) (xs : List Value) :
    (remaining erased xs).length = (surviving erased xs.length).length :=
  length_filterMap_getElem? fun _ hj => lt_of_mem_surviving hj

/-- A sequence has the elements at its numbers. -/
theorem filterMap_getElem?_range (xs : List Value) :
    (List.range xs.length).filterMap (xs[·]?) = xs := by
  induction xs with
  | nil => rfl
  | cons x xs ih =>
    rw [List.length_cons, List.range_succ_eq_map, List.filterMap_cons_some List.getElem?_cons_zero,
      List.filterMap_map]
    exact congrArg (x :: ·) ih

/-- Where nothing is erased, everything survives, -/
theorem surviving_nil (n : Nat) : surviving [] n = List.range n :=
  List.filter_eq_self.mpr fun j _ => by simp

/-- and everything is left. -/
theorem remaining_nil (xs : List Value) : remaining [] xs = xs := by
  rw [remaining, surviving_nil, filterMap_getElem?_range]

/-! ### What is erased behind a walk -/

/-- Only elements that the walk has passed are erased. -/
def Side.Passed : (origin : Side) → (erased : List Nat) → (cut : Nat) → Prop
  | .head, erased, cut => ∀ e ∈ erased, e < cut
  | .tail, erased, cut => ∀ e ∈ erased, cut ≤ e

theorem Side.passed_nil (origin : Side) (cut : Nat) : origin.Passed [] cut := by
  cases origin <;> exact fun e he => absurd he List.not_mem_nil

/-- The element that comes next is not erased. -/
theorem Side.Passed.not_mem (h : origin.Passed erased cut) (hi : origin.next? n cut = some i) :
    i ∉ erased := by
  intro hmem
  have hpassed := h
  cases origin <;> simp only [next?] at hi <;> split at hi
  · obtain rfl := Option.some.inj hi
    exact Nat.lt_irrefl _ (hpassed _ hmem)
  · contradiction
  · obtain rfl := Option.some.inj hi
    have hle := hpassed _ hmem
    omega
  · contradiction

/-- When it is passed, it may be erased as well. -/
theorem Side.Passed.past (h : origin.Passed erased cut) (hi : origin.next? n cut = some i) :
    origin.Passed erased (origin.past i) ∧ origin.Passed (i :: erased) (origin.past i) := by
  have hpassed : origin.Passed erased (origin.past i) ∧ origin.Passed [i] (origin.past i) := by
    cases origin <;> simp only [next?] at hi <;> split at hi
    · obtain rfl := Option.some.inj hi
      exact ⟨fun e he => Nat.lt_succ_of_lt (h e he), fun e he => by simp_all [Side.past]⟩
    · contradiction
    · obtain rfl := Option.some.inj hi
      refine ⟨fun e he => ?_, fun e he => by simp_all [Side.past]⟩
      have hle := h e he
      simp only [Side.past]
      omega
    · contradiction
  refine ⟨hpassed.1, ?_⟩
  cases origin <;>
  · intro e he
    rcases List.mem_cons.mp he with rfl | he
    · exact hpassed.2 e List.mem_cons_self
    · exact hpassed.1 e he

/-- Behind an element that is passed there is one place more, -/
theorem Side.length_surviving_past (origin : Side) (h : i ∉ erased) :
    (surviving erased (origin.past i)).length = origin.past (surviving erased i).length := by
  cases origin with
  | head => rw [past, past, surviving_succ h, List.length_append, List.length_singleton]
  | tail => rfl

/-- and where it is erased, there is none. -/
theorem Side.length_surviving_past_cons (origin : Side) :
    (surviving (i :: erased) (origin.past i)).length = (surviving erased i).length := by
  cases origin with
  | head => rw [past, surviving_cons_succ]
  | tail => rw [past, surviving_cons (Nat.le_refl i)]

/-- Where nothing from a number on is erased, everything from there on survives. -/
theorem length_surviving_of_lt (h : ∀ e ∈ erased, e < cut) (hcut : cut ≤ n) :
    (surviving erased n).length = (surviving erased cut).length + (n - cut) := by
  induction n with
  | zero =>
    obtain rfl : cut = 0 := by omega
    rfl
  | succ n ih =>
    rcases Nat.lt_or_eq_of_le hcut with hlt | rfl
    · have hout : n ∉ erased := fun hmem => by
        have hless := h n hmem
        omega
      rw [surviving_succ hout, List.length_append, ih (by omega), List.length_singleton]
      omega
    · simp

/-- Where nothing below a number is erased, everything below survives. -/
theorem length_surviving_of_le (h : ∀ e ∈ erased, n ≤ e) : (surviving erased n).length = n := by
  have hall : surviving erased n = List.range n := by
    refine List.filter_eq_self.mpr fun j hj => ?_
    have hlt := List.mem_range.mp hj
    simp only [decide_eq_true_eq]
    intro hmem
    have hle := h j hmem
    omega
  rw [hall, List.length_range]

/-- **What comes next** in the list as it is comes next in the list as it was. -/
theorem Side.next?_surviving (h : origin.Passed erased cut) (hcut : cut ≤ n) :
    origin.next? (surviving erased n).length (surviving erased cut).length =
      (origin.next? n cut).map fun i => (surviving erased i).length := by
  cases origin with
  | head =>
    rw [length_surviving_of_lt h hcut]
    simp only [next?]
    by_cases hlt : cut < n
    · rw [if_pos hlt, if_pos (by omega), Option.map_some]
    · rw [if_neg hlt, if_neg (by omega), Option.map_none]
  | tail =>
    have hbefore : (surviving erased (cut - 1)).length = cut - 1 :=
      length_surviving_of_le fun e he => Nat.le_trans (Nat.sub_le cut 1) (h e he)
    rw [length_surviving_of_le h]
    simp only [next?]
    by_cases hpos : 0 < cut
    · rw [if_pos hpos, Option.map_some, hbefore]
    · rw [if_neg hpos, Option.map_none]

/-- What is still to come begins with what comes next. -/
theorem Side.upcoming_eq (origin : Side) (n cut : Nat) :
    origin.upcoming n cut = match origin.next? n cut with
      | none => []
      | some i => i :: origin.upcoming n (origin.past i) := by
  cases origin with
  | head =>
    simp only [upcoming, next?]
    by_cases hlt : cut < n
    · have hless : n - cut = n - (cut + 1) + 1 := by omega
      rw [if_pos hlt, hless, List.range'_succ]
      rfl
    · rw [if_neg hlt, Nat.sub_eq_zero_of_le (Nat.le_of_not_lt hlt)]
      rfl
  | tail =>
    simp only [upcoming, next?]
    cases cut with
    | zero => rfl
    | succ cut => simp [List.range_succ, past]

theorem Side.past_le {origin : Side} (h : i < n) : origin.past i ≤ n := by
  cases origin with
  | head => exact h
  | tail => exact Nat.le_of_lt h

theorem Side.le_of_cut? {start : Option Int} (h : origin.cut? n start = some cut) : cut ≤ n := by
  cases start with
  | none =>
    obtain rfl := Option.some.inj h
    cases origin with
    | head => exact Nat.zero_le n
    | tail => exact Nat.le_refl n
  | some i =>
    rw [Side.cut?_some] at h
    obtain ⟨k, hk, rfl⟩ := Option.map_eq_some_iff.mp h
    have hlt := Packed.lt_of_idxOf? hk
    cases origin with
    | head => exact Nat.le_of_lt hlt
    | tail => exact hlt

/-- Where a walk has run out, it has passed everything. -/
theorem Side.Passed.finish (h : origin.Passed erased cut) (hcut : cut ≤ n) :
    origin.Passed erased (origin.finish n) := by
  cases origin with
  | head => exact fun e he => Nat.lt_of_lt_of_le (h e he) hcut
  | tail => exact fun e _ => Nat.zero_le e

/-- It has run out in the list as it is where it has in the list as it was. -/
theorem Side.finish_surviving (origin : Side) :
    origin.finish (surviving erased n).length = (surviving erased (origin.finish n)).length := by
  cases origin <;> rfl

theorem Side.finish_le (origin : Side) (n : Nat) : origin.finish n ≤ n := by
  cases origin with
  | head => exact Nat.le_refl n
  | tail => exact Nat.zero_le n

end Surviving

/-! ### The walk -/

/-- What is left of the sequence `xs` is what the list holds, and the walk stands in it at a
cut of `xs`. -/
structure Walk.Visits (w : Walk) (c : Chain) (xs : List Value) (erased : List Nat) (cut : Nat) :
    Prop where
  /-- The list is in order, and the walk stands where the cut is among what survives. -/
  exists_layout : ∃ l, c.Has l ∧ l.Sound ∧ l.elements = remaining erased xs ∧ w.Exact l ∧
    w.Stands l (surviving erased cut).length
  /-- The cut is one of the sequence. -/
  cut_le : cut ≤ xs.length
  /-- Only what the walk has passed is erased. -/
  passed : w.origin.Passed erased cut

/-- The walk has just met element number `i` of the sequence. -/
structure Walk.Met (w : Walk) (c : Chain) (xs : List Value) (erased : List Nat) (i : Nat)
    (handle : Handle) : Prop where
  /-- The handle names an entry at which the walk is, behind as many as survive. -/
  exists_names : ∃ l pre x post k, c.Has l ∧ l.Sound ∧ l.elements = remaining erased xs ∧
    w.Exact l ∧ handle.Names l pre x post k ∧ handle.Exact x ∧
      handle.offset = w.origin.offsetOf x.count k ∧
        (surviving erased i).length = Layout.total pre + k ∧ w.On pre x k
  /-- There is such an element. -/
  lt : i < xs.length
  /-- It is not erased. -/
  not_mem : i ∉ erased
  /-- Only what the walk has passed is erased, -/
  passed : w.origin.Passed erased (w.origin.past i)
  /-- and the element may be. -/
  passed_cons : w.origin.Passed (i :: erased) (w.origin.past i)

namespace Walk

open Chain

variable {w : Walk} {c : Chain} {l : Layout} {pre post : List Leaf} {x : Leaf}
  {xs : List Value} {erased : List Nat} {cut i k : Nat} {handle : Handle}

/-- An element that was met in a list is the one it is to be, if it stands behind as many as
survive. -/
theorem meets (h : c.Has l) (hs : l.Sound) (origin : Side) (hnames : handle.Names l pre x post k)
    (hexact : handle.Exact x) (hoffset : handle.offset = origin.offsetOf x.count k)
    (helements : l.elements = remaining erased xs) (hi : i < xs.length) (hout : i ∉ erased)
    (hpos : (surviving erased i).length = Layout.total pre + k) (gone : Option Bool)
    (hgone : ∀ g ∈ gone, g = decide (x.count = 1)) :
    Visit.Meets ⟨c, handle, gone⟩ origin xs erased i := by
  have hl := hnames.leaves_eq
  have hcount : x.count = x.list.values.length := by
    rw [Packed.length_values, hs.counted_split hl]
  obtain ⟨b, hb, hkeeps, -⟩ := h.block_eq hl
  have hplace : handle.place = x.list.cursor k := by rw [hexact.place_eq, hnames.idx_eq]
  have hvalue : x.list.values[k]? = some handle.value := by
    rw [← Packed.get?_cursor, ← hplace, hexact.get?_eq]
  refine ⟨?_, by rw [h.elements_eq, helements], pre.length, b, x.list, k, ?_, hb,
    hkeeps.packed_eq, hplace, hvalue, by rw [hoffset, hcount], ?_, fun g hg => ?_⟩
  · rw [← getElem?_remaining hi hout, ← helements, hpos, hs.getElem?_elements hl hnames.lt, hvalue]
  · rw [hnames.block_eq, h.idxOf_eq hs hl]
  · rw [h.flatMap_take hl, hs.length_front hl, hpos]
  · rw [hgone g hg, ← hcount, decide_eq_true_iff]

/-- A walk that begins visits the sequence that the list holds. -/
theorem visits_elements (h : c.Has l) (hs : l.Sound) (hexact : w.Exact l) (hw : w.Stands l cut)
    (hcut : cut ≤ l.count) : w.Visits c l.elements [] cut := by
  refine ⟨⟨l, h, hs, (remaining_nil _).symm, hexact, ?_⟩, ?_, Side.passed_nil _ cut⟩
  · rwa [surviving_nil, List.length_range]
  · rwa [hs.length_elements]

/-- When a walk ends, the list holds what is left. -/
theorem Visits.finish (hw : w.Visits c xs erased cut) :
    Ensures (w.finish c) fun c => c.elements = remaining erased xs := by
  obtain ⟨l, h, -, helements, -, hstands⟩ := hw.exists_layout
  refine (hstands.finish h).imp fun c h => ?_
  rw [h.elements_eq, helements]

/-- **The next element** is the one that is to come. If there is none, the walk stays where
everything is passed. -/
theorem Visits.next (hw : w.Visits c xs erased cut) :
    Ensures (w.next c) fun r => r.1.origin = w.origin ∧
      match w.origin.next? xs.length cut with
      | none => r.2.2 = none ∧ r.1.Visits r.2.1 xs erased (w.origin.finish xs.length)
      | some i => ∃ handle, r.2.2 = some handle ∧ r.1.Met r.2.1 xs erased i handle := by
  obtain ⟨⟨l, h, hs, helements, hexact, hstands⟩, hcut, hpassed⟩ := hw
  have hcount : l.count = (surviving erased xs.length).length := by
    rw [← hs.length_elements, helements, length_remaining]
  refine (hstands.next_exact hexact h hs).imp fun r hr => ?_
  obtain ⟨w₁, c₁, found⟩ := r
  obtain ⟨horigin, h₁, hexact₁, hnext⟩ := hr
  dsimp only at horigin h₁ hexact₁ hnext ⊢
  -- the walk goes on in the list as it is exactly if it does in the list as it was
  rw [hcount, Side.next?_surviving hpassed hcut] at hnext
  refine ⟨horigin, ?_⟩
  cases hi : w.origin.next? xs.length cut with
  | none =>
    simp only [hi, Option.map_none] at hnext
    obtain ⟨rfl, hover⟩ := hnext
    refine ⟨rfl, ⟨l, h₁, hs, helements, hexact₁, ?_⟩, Side.finish_le _ _, ?_⟩
    · refine .done hover ?_
      rw [horigin, hcount, Side.finish_surviving]
    · rw [horigin]
      exact hpassed.finish hcut
  | some i =>
    simp only [hi, Option.map_some] at hnext
    obtain ⟨pre, x, post, k, handle, rfl, hnames, hright, hoffset, hplace, hon⟩ := hnext
    obtain ⟨hkept, herased⟩ := hpassed.past hi
    rw [← horigin] at hoffset hkept herased
    refine ⟨handle, rfl, ?_, Side.lt_of_next? hcut hi, hpassed.not_mem hi, hkept, herased⟩
    exact ⟨l, pre, x, post, k, h₁, hs, helements, hexact₁, hnames, hright, hoffset, hplace, hon⟩

/-- What was met is the element that was to come, -/
theorem Met.meets (hw : w.Met c xs erased i handle) :
    Visit.Meets ⟨c, handle, none⟩ w.origin xs erased i := by
  obtain ⟨l, pre, x, post, k, h, hs, helements, -, hnames, hright, hoffset, hplace, -⟩ :=
    hw.exists_names
  exact Walk.meets h hs _ hnames hright hoffset helements hw.lt hw.not_mem hplace none nofun

/-- and the walk has passed it. -/
theorem Met.visits (hw : w.Met c xs erased i handle) : w.Visits c xs erased (w.origin.past i) := by
  obtain ⟨l, pre, x, post, k, h, hs, helements, hexact, hnames, -, -, hplace, hon⟩ :=
    hw.exists_names
  refine ⟨⟨l, h, hs, helements, hexact, ?_⟩, Side.past_le hw.lt, hw.passed⟩
  rw [Side.length_surviving_past w.origin hw.not_mem, hplace]
  exact hon.stands hnames.leaves_eq

/-- **If it is erased**, the list holds one element less, and the walk has passed it as well. -/
theorem Met.erase (hw : w.Met c xs erased i handle) :
    Ensures (w.erase c handle) fun r => r.1.origin = w.origin ∧
      r.1.Visits r.2.1 xs (i :: erased) (w.origin.past i) ∧
        Visit.Meets ⟨c, handle, some r.2.2⟩ w.origin xs erased i := by
  obtain ⟨l, pre, x, post, k, h, hs, helements, -, hnames, hright, hoffset, hplace, hon⟩ :=
    hw.exists_names
  have hl := hnames.leaves_eq
  have herase := (hon.erase h hs hl hnames.block_eq hnames.idx_eq).and_gives
    (hon.erase_elements h hs hl hnames.block_eq hnames.idx_eq).gives
  refine (herase.and_gives (gives_erase_place w c handle)).imp fun r hr => ?_
  obtain ⟨w₁, c₁, gone⟩ := r
  obtain ⟨⟨⟨horigin, l', h', hs', -, -, hstands⟩, hleft, hgone⟩, hfree⟩ := hr
  dsimp only at horigin h' hstands hleft hgone hfree ⊢
  refine ⟨horigin, ⟨⟨l', h', hs', ?_, exact_of_place_eq_none hfree, ?_⟩, ?_, ?_⟩, ?_⟩
  · rw [← h'.elements_eq, hleft, helements, ← hplace, eraseIdx_remaining hw.lt hw.not_mem]
  · rwa [Side.length_surviving_past_cons, hplace]
  · exact Side.past_le hw.lt
  · rw [horigin]
    exact hw.passed_cons
  · refine Walk.meets h hs _ hnames hright hoffset helements hw.lt hw.not_mem hplace _ ?_
    rintro g hg
    rw [← Option.some.inj hg, hgone]

/-- What is met now and what is met later are what is met. -/
theorem exists_visits_cons (found : Option Visit) {met r : List (Option Visit)} {calls : Nat}
    {q : List (Option Visit) → Prop}
    (h : ∃ visits, r = met ++ [found] ++ visits ∧ visits.length = calls ∧ q (found :: visits)) :
    ∃ visits, r = met ++ visits ∧ visits.length = calls + 1 ∧ q visits := by
  obtain ⟨visits, hmet, hlen, hq⟩ := h
  refine ⟨found :: visits, ?_, ?_, hq⟩
  · rw [hmet, List.append_assoc, List.singleton_append]
  · rw [List.length_cons, hlen]

/-- **A walk meets what is to come**, whatever it erases on the way. -/
theorem Visits.traverse (hw : w.Visits c xs erased cut)
    (erases : List (Option Visit) → Handle → Bool) (calls : Nat) (met : List (Option Visit)) :
    Ensures (w.traverse erases calls c met) fun r => ∃ visits, r.2 = met ++ visits ∧
      visits.length = calls ∧
        Traversed w.origin xs (w.origin.upcoming xs.length cut) erased visits r.1.elements := by
  induction calls generalizing w c erased cut met with
  | zero =>
    rw [Walk.traverse]
    refine hw.finish.bind fun c₁ hleft => ⟨[], (List.append_nil met).symm, rfl, ?_⟩
    rw [Traversed, hleft]
  | succ calls ih =>
    rw [Walk.traverse]
    refine hw.next.bind fun r hr => ?_
    obtain ⟨w₁, c₁, found⟩ := r
    obtain ⟨horigin, hnext⟩ := hr
    dsimp only at horigin hnext
    rw [Side.upcoming_eq]
    cases hi : w.origin.next? xs.length cut with
    | none =>
      -- the walk has run out, and stays there
      rw [hi] at hnext
      obtain ⟨rfl, hvisits⟩ := hnext
      refine (ih hvisits (met ++ [none])).imp fun r hr => exists_visits_cons none ?_
      obtain ⟨visits, hmet, hlen, hwent⟩ := hr
      rw [horigin, Side.upcoming_eq, next?_finish] at hwent
      exact ⟨visits, hmet, hlen, rfl, hwent⟩
    | some i =>
      rw [hi] at hnext
      obtain ⟨handle, rfl, hmet⟩ := hnext
      rw [← horigin]
      dsimp only
      split
      · refine hmet.erase.bind fun r hr => ?_
        obtain ⟨w₂, c₂, gone⟩ := r
        obtain ⟨horigin₂, hvisits, hmeets⟩ := hr
        dsimp only at horigin₂ hvisits hmeets
        refine (ih hvisits _).imp fun r hr => exists_visits_cons (some ⟨c₁, handle, some gone⟩) ?_
        obtain ⟨visits, hmet, hlen, hwent⟩ := hr
        rw [horigin₂] at hwent
        exact ⟨visits, hmet, hlen, _, rfl, hmeets, hwent⟩
      · refine (ih hmet.visits _).imp fun r hr => exists_visits_cons (some ⟨c₁, handle, none⟩) ?_
        obtain ⟨visits, hvisits, hlen, hwent⟩ := hr
        exact ⟨visits, hvisits, hlen, _, rfl, hmet.meets, hwent⟩

/-- A walk only takes away, as long as it goes on. -/
theorem stops_traverse {c₀ : Chain} {adds : List Bytes} (h : c.GrownFrom c₀ adds) (w : Walk)
    (erases : List (Option Visit) → Handle → Bool) (calls : Nat) (met : List (Option Visit)) :
    Stops (w.traverse erases calls c met) (c₀.Exceeds adds) := by
  induction calls generalizing w c met with
  | zero =>
    rw [Walk.traverse]
    exact (explained_finish h w).stops_bind fun _ _ => stops_pure
  | succ calls ih =>
    rw [Walk.traverse]
    refine (explained_nextAmong h w _).stops_bind fun r hr => ?_
    obtain ⟨w₁, c₁, found⟩ := r
    cases found with
    | none => exact ih hr w₁ _
    | some handle =>
      dsimp only
      split
      · refine (explained_erase hr w₁ handle).stops_bind fun r hr => ?_
        obtain ⟨w₂, c₂, gone⟩ := r
        exact ih hr w₂ _
      · exact ih hr w₁ _

end Walk

theorem Chain.Has.stops_traverse {c : Chain} {l : Layout} (h : c.Has l) (origin : Side)
    (start : Option Int) (erases : List (Option Visit) → Handle → Bool) (calls : Nat) :
    Stops (c.traverse origin start erases calls) (c.Exceeds []) := by
  refine (Walk.explained_begin h.grownFrom_self origin start).stops_bind fun r hr => ?_
  obtain ⟨c₁, w⟩ := r
  cases w with
  | none => exact stops_pure
  | some w => exact (Walk.stops_traverse hr w erases calls []).bind_any fun _ => stops_pure

/-! ### Every list -/

namespace Session

/-- **A walk meets everything once**, in every list. It can begin if there is an element with
the index, and then it meets what is to come from there, as often as it is asked and whatever
is erased on the way, and leaves what was not erased. -/
theorem run_traverse (setting depth : Int) (as : List Action) (origin : Side)
    (start : Option Int) (erases : List (Option Visit) → Handle → Bool) (calls : Nat) :
    Ensures ((ofOptions setting depth).run as) fun r =>
      Ensures (r.1.chain.traverse origin start erases calls) fun t =>
        match origin.cut? r.1.chain.elements.length start with
        | none => t = none
        | some cut => ∃ c visits, t = some (c, visits) ∧ visits.length = calls ∧
            Traversed origin r.1.chain.elements
              (origin.upcoming r.1.chain.elements.length cut) [] visits c.elements := by
  refine ((follows_ofOptions setting depth).run as).imp fun r hr => ?_
  obtain ⟨⟨l, h, hs, -, -⟩, -⟩ := hr
  have hcount : r.1.chain.elements.length = l.count := by rw [h.elements_eq, hs.length_elements]
  rw [hcount, Chain.traverse]
  -- at its beginning nothing is erased, and the list is the sequence itself
  refine (begin_exact h hs origin start).bind fun b hb => ?_
  obtain ⟨c, w⟩ := b
  obtain ⟨hc, hbegin⟩ := hb
  dsimp only at hc hbegin
  cases hcut : origin.cut? l.count start with
  | none =>
    rw [hcut] at hbegin
    obtain rfl : w = none := hbegin
    rfl
  | some cut =>
    rw [hcut] at hbegin
    obtain ⟨w, rfl, rfl, hstands, hexact⟩ := hbegin
    have hvisits := Walk.visits_elements hc hs hexact hstands (Side.le_of_cut? hcut)
    have htraverse := hvisits.traverse erases calls []
    refine htraverse.bind fun t ht => ?_
    obtain ⟨visits, hvisits, hlen, hwent⟩ := ht
    obtain ⟨c', visits'⟩ := t
    obtain rfl : visits' = visits := hvisits
    rw [hs.length_elements, ← h.elements_eq] at hwent
    exact ⟨c', visits', rfl, hlen, hwent⟩

/-- **And it meets everything, unless there is a reason why not.** Nothing is put in: what stops a
walk is the compressor, or a header that links outgrow which widen between what is left of one
block. -/
theorem run_meets (setting depth : Int) (as : List Action) (origin : Side) (start : Option Int)
    (erases : List (Option Visit) → Handle → Bool) (calls : Nat) :
    Ensures ((ofOptions setting depth).run as) fun r =>
      Answers (r.1.chain.traverse origin start erases calls)
        (fun t =>
          match origin.cut? r.1.chain.elements.length start with
          | none => t = none
          | some cut => ∃ c visits, t = some (c, visits) ∧ visits.length = calls ∧
              Traversed origin r.1.chain.elements
                (origin.upcoming r.1.chain.elements.length cut) [] visits c.elements)
        (r.1.chain.Exceeds []) := by
  have hfollows := ((follows_ofOptions setting depth).run as).gives
  refine ((run_traverse setting depth as origin start erases calls).and_gives hfollows).imp
    fun r hr => ?_
  obtain ⟨htraverse, ⟨l, hl, -⟩, -⟩ := hr
  exact htraverse.answers (hl.stops_traverse origin start erases calls)

/-- A walk that leaves a block stops where leaving it stops. -/
theorem next_eq_error {w : Walk} {c c' : Chain} {b : Block} {p : Packed} {i : Nat} {f : Fault}
    (hcurrent : w.current = some i) (hopen : w.openBlock c i = .ok c')
    (hblock : c'.block i = .ok b) (hpacked : b.packed = .ok p)
    (hover : (w.advance p).handle? c' i = .ok none) (hrecompress : c'.recompress i = .error f) :
    w.next c = .error f := by
  simp only [Walk.next, Walk.nextAmong, hcurrent, hopen, ok_bind, hblock, hpacked, hover,
    hrecompress, error_bind]

/-- A walk that keeps everything stops where it is asked for the second element. -/
theorem traverse_eq_error {c c₁ c₂ : Chain} {origin : Side} {w w₁ : Walk} {handle : Handle}
    {f : Fault} (hbegin : begin c origin none = .ok (c₁, some w))
    (hfirst : w.next c₁ = .ok (w₁, c₂, some handle)) (hsecond : w₁.next c₂ = .error f) :
    c.traverse origin none (fun _ _ => false) 2 = .error f := by
  simp only [Chain.traverse, hbegin, ok_bind, Walk.traverse, hfirst, hsecond, error_bind,
    Bool.false_eq_true, if_false]

/-- **Not every walk goes on.** Once the depth no longer covers the second block, the compressor
fails on it when a walk leaves the first one. -/
theorem traverse_overrun :
    (ofOptions 1 0).run [.push .tail [97], .push .tail crowded, .push .tail [98], .setDepth 1] =
        .ok (⟨plainBlocks [[97], crowded, [98]] 3, []⟩, [.done, .done, .done, .done]) ∧
      (plainBlocks [[97], crowded, [98]] 3).traverse .head none (fun _ _ => false) 2 =
        .error .outputOverrun := by
  refine ⟨by decide +kernel, ?_⟩
  have hbegin : begin (plainBlocks [[97], crowded, [98]] 3) .head none =
      .ok (plainBlocks [[97], crowded, [98]] 3, some ⟨.head, some 0, none, 0⟩) := by
    decide +kernel
  have hfirst : Walk.next ⟨.head, some 0, none, 0⟩ (plainBlocks [[97], crowded, [98]] 3) =
      .ok (⟨.head, some 0, some ⟨0, 10⟩, 0⟩, plainBlocks [[97], crowded, [98]] 3,
        some ⟨⟨0⟩, ⟨0, 10⟩, 0, .text [97], 3⟩) := by
    decide +kernel
  have hopen : Walk.openBlock ⟨.head, some 0, some ⟨0, 10⟩, 0⟩
      (plainBlocks [[97], crowded, [98]] 3) 0 = .ok (plainBlocks [[97], crowded, [98]] 3) := by
    decide +kernel
  have hover : (Walk.advance ⟨.head, some 0, some ⟨0, 10⟩, 0⟩ (Packed.empty.push [97])).handle?
      (plainBlocks [[97], crowded, [98]] 3) 0 = .ok none := by
    decide +kernel
  have hblock : (plainBlocks [[97], crowded, [98]] 3).block 0 = .ok (plainBlock [97]) := rfl
  have hpacked : (plainBlock [97]).packed = .ok (Packed.empty.push [97]) := rfl
  have hsecond : Walk.next ⟨.head, some 0, some ⟨0, 10⟩, 0⟩
      (plainBlocks [[97], crowded, [98]] 3) = .error .outputOverrun :=
    next_eq_error rfl hopen hblock hpacked hover (recompress_crowded 3 Nat.zero_lt_two)
  exact traverse_eq_error hbegin hfirst hsecond

end Session

end UnrolledList
