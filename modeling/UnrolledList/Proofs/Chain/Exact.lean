import UnrolledList.Proofs.Chain.Session

/-!
# Handles down to the byte

What a handle names (`UnrolledList.Handle.Names`) is told by numbers: which block, and which
entry of it. A handle also has the position of the entry in the bytes of the packed list,
and the value as it was read. Both are right when the handle is taken
(`UnrolledList.Handle.Exact`), from an index as from a walk.

A walk does not look a position up. It computes each one from the one before, forward from
the size of the entry and backward from the link, so what has to be carried along is that the
position at which the walk stands is right (`UnrolledList.Walk.Exact`). It is when the walk
begins, because then there is none (`UnrolledList.Session.begin_exact`), and it stays so from
one element to the next (`UnrolledList.Walk.Stands.next_exact`).
-/

namespace UnrolledList

/-- The handle has the position and the value of an entry of the block `x`. -/
structure Handle.Exact (h : Handle) (x : Leaf) : Prop where
  /-- The position is that of the entry. -/
  place_eq : h.place = x.list.cursor h.place.idx
  /-- The value is that of the entry. -/
  get?_eq : x.list.get? h.place = some h.value

namespace Chain

variable {c : Chain} {l : Layout} {pre post : List Leaf} {x : Leaf} {i : Nat}

/-- The handle that is made for a place is exact, if the place is. -/
theorem Has.gives_handleAt? (h : c.Has l) (hl : l.leaves = pre ++ x :: post) {place : Cursor}
    (hplace : place = x.list.cursor place.idx) (offset : Int) :
    Gives (c.handleAt? pre.length place offset) fun r =>
      ∀ handle ∈ r, handle.Exact x ∧ handle.offset = offset := by
  obtain ⟨b, hb, hkeeps, -⟩ := h.block_eq hl
  rw [handleAt?, hb, ok_bind, hkeeps.packed_eq, ok_bind]
  refine gives_pure.mpr fun handle hhandle => ?_
  rw [h.id?_eq hl] at hhandle
  cases hv : x.list.get? place with
  | none => simp [hv] at hhandle
  | some v =>
    simp only [hv] at hhandle
    obtain rfl := Option.some.inj hhandle
    exact ⟨⟨hplace, hv⟩, rfl⟩

/-- **An index is answered by an exact handle.** -/
theorem Has.gives_find? (h : c.Has l) (i : Int) :
    Gives (c.find? i) fun r => ∀ j handle, r.2 = some (j, handle) →
      ∃ x, l.leaves[j]? = some x ∧ handle.Exact x := by
  unfold Chain.find?
  split
  · exact gives_ok.mpr fun j handle hnone => by contradiction
  · next j offset _ =>
    refine (h.gives_recode j fun _ _ hb => hb.openForUse).bind fun c₁ h₁ => ?_
    intro r
    cases hb : c₁.block j with
    | error f => exact nofun
    | ok b =>
      obtain ⟨pre, x, post, hl, rfl, hkeeps, -⟩ := Has.exists_leaf_of_block h₁ hb
      rw [ok_bind, hkeeps.packed_eq, ok_bind, Packed.seek?_eq (h.wellFormed hl).linked]
      revert r
      cases hidx : Packed.idxOf? x.list.entries.size offset with
      | none => exact gives_pure.mpr fun j handle hnone => by contradiction
      | some k =>
        have hplace : x.list.cursor k = x.list.cursor (x.list.cursor k).idx := rfl
        refine (Has.gives_handleAt? h₁ hl hplace offset).bind fun found hfound => ?_
        refine gives_pure.mpr fun j handle hsome => ?_
        obtain ⟨handle', rfl, heq⟩ := Option.map_eq_some_iff.mp hsome
        obtain ⟨rfl, rfl⟩ := Prod.mk.inj heq
        exact ⟨x, by simp [hl], (hfound _ rfl).1⟩

end Chain

namespace Walk

open Chain

variable {w : Walk} {c : Chain} {l : Layout} {x : Leaf} {i : Nat}

/-- Where the walk has a position, it is that of an entry. -/
def Exact (w : Walk) (l : Layout) : Prop :=
  ∀ i place x, w.current = some i → w.place = some place → l.leaves[i]? = some x →
    place = x.list.cursor place.idx ∧ place.idx < x.list.entries.size

theorem exact_of_place_eq_none (h : w.place = none) : w.Exact l := by
  intro i place x _ hplace
  rw [h] at hplace
  contradiction

/-- **Moving on within a block** leads from one right position to the next. -/
theorem Exact.advance (h : w.Exact l) (hi : w.current = some i) (hx : l.leaves[i]? = some x)
    (hlinked : Packed.Linked 0 x.list.entries.toList) : (w.advance x.list).Exact l := by
  intro j place y hj hplace hy
  rw [current_advance, hi] at hj
  obtain rfl := Option.some.inj hj
  obtain rfl := Option.some.inj (hx.symm.trans hy)
  unfold Walk.advance at hplace
  split at hplace
  · simp only [Packed.seek?_eq hlinked] at hplace
    obtain ⟨k, hk, rfl⟩ := Option.map_eq_some_iff.mp hplace
    exact ⟨rfl, Packed.lt_of_idxOf? hk⟩
  · next last hlast =>
    obtain ⟨hcursor, hlt⟩ := h i last x hi hlast hx
    rw [hcursor] at hplace
    split at hplace
    · simp only [Packed.next?_cursor] at hplace
      split at hplace
      · obtain rfl := Option.some.inj hplace
        exact ⟨rfl, by assumption⟩
      · contradiction
    · simp only [Packed.prev?_cursor hlinked (Nat.le_of_lt hlt)] at hplace
      split at hplace
      · contradiction
      · obtain rfl := Option.some.inj hplace
        refine ⟨rfl, ?_⟩
        rw [Packed.idx_cursor]
        omega

/-- **A walk answers exact handles**, and stands at right positions. -/
theorem Exact.nextAmong (hw : w.Exact l) (h : c.Has l) (blocks : Nat) :
    Gives (nextAmong blocks w c) fun r => r.1.Exact l ∧
      ∀ handle ∈ r.2.2, ∃ i x, r.1.current = some i ∧ l.leaves[i]? = some x ∧
        handle.Exact x ∧ handle.offset = r.1.offset := by
  -- a block that has run out leaves no position behind, so the next one begins without
  induction blocks generalizing w c with
  | zero => exact gives_ok.mpr ⟨hw, by simp⟩
  | succ blocks ih =>
    rw [Walk.nextAmong]
    split
    · exact gives_ok.mpr ⟨hw, by simp⟩
    · next i hi =>
      have hopened : Gives (w.openBlock c i) (·.Has l) := by
        unfold openBlock
        split
        · exact h.gives_recode i fun _ _ hb => hb.openForUse
        · exact h.gives_recode i fun _ _ hb => hb.inflate
      refine hopened.bind fun c₁ h₁ => ?_
      intro r
      cases hb : c₁.block i with
      | error f =>
        intro hr
        contradiction
      | ok b =>
        obtain ⟨pre, x, post, hl, rfl, hkeeps, -⟩ := Has.exists_leaf_of_block h₁ hb
        have hx : l.leaves[pre.length]? = some x := by simp [hl]
        have hexact := hw.advance hi hx (h.wellFormed hl).linked
        have hcurrent : (w.advance x.list).current = some pre.length := by
          rw [current_advance, hi]
        rw [ok_bind, hkeeps.packed_eq, ok_bind]
        revert r
        have hfound : Gives ((w.advance x.list).handle? c₁ pre.length)
            fun r => ∀ handle ∈ r, handle.Exact x ∧ handle.offset = (w.advance x.list).offset := by
          unfold handle?
          split
          · next place hplace =>
            have hright := hexact _ place x hcurrent hplace hx
            exact Has.gives_handleAt? h₁ hl hright.1 _
          · exact gives_ok.mpr (by simp)
        refine hfound.bind fun found hfound => ?_
        cases found with
        | some handle =>
          refine gives_pure.mpr ⟨hexact, fun handle' hhandle => ?_⟩
          exact ⟨_, x, hcurrent, hx, hfound _ hhandle⟩
        | none =>
          have hlt : pre.length < l.leaves.length := by simp [hl]
          refine (Has.recompress h₁ hlt).gives.bind fun c₂ h₂ => ?_
          exact ih (exact_of_place_eq_none rfl) h₂

/-- **The next element of a walk**, and a handle that names it down to the byte. -/
theorem Stands.next_exact {pos : Nat} (hw : w.Stands l pos) (hexact : w.Exact l) (h : c.Has l)
    (hs : l.Sound) :
    Ensures (w.next c) fun r => r.1.origin = w.origin ∧ r.2.1.Has l ∧ r.1.Exact l ∧
      match w.origin.next? l.count pos with
      | none => r.2.2 = none ∧ r.1.current = none
      | some k => ∃ pre x post j handle, r.2.2 = some handle ∧ handle.Names l pre x post j ∧
          handle.Exact x ∧ handle.offset = w.origin.offsetOf x.count j ∧
            k = Layout.total pre + j ∧ r.1.On pre x j := by
  refine ((hw.next h hs).and_gives (hexact.nextAmong h _)).imp fun r hr => ?_
  obtain ⟨⟨horigin, hc, hnext⟩, hexact, hfound⟩ := hr
  refine ⟨horigin, hc, hexact, ?_⟩
  cases hk : w.origin.next? l.count pos with
  | none => simpa only [hk] using hnext
  | some k =>
    simp only [hk] at hnext
    obtain ⟨pre, x, post, j, handle, hsome, hnames, hpos, hon⟩ := hnext
    obtain ⟨i, y, hi, hy, hright, hoffset⟩ := hfound handle hsome
    obtain rfl := Option.some.inj (hon.current_eq.symm.trans hi)
    obtain rfl : x = y := by simpa [hnames.leaves_eq] using hy
    rw [hon.offset_eq, horigin] at hoffset
    exact ⟨pre, x, post, j, handle, hsome, hnames, hright, hoffset, hpos, hon⟩

/-- After an erasure the position has to be found again. -/
theorem gives_erase_place (w : Walk) (c : Chain) (handle : Handle) :
    Gives (w.erase c handle) fun r => r.1.place = none := by
  unfold erase
  split
  · exact gives_error
  · split
    · refine Gives.bind_any fun r => gives_pure.mpr ?_
      split
      · split <;> rfl
      · rfl
    · exact gives_error

/-- A walk from an index has no position yet. -/
theorem gives_ofIndex_place (c : Chain) (origin : Side) (i : Int) :
    Gives (ofIndex c origin i) fun r => ∀ w ∈ r.2, w.place = none := by
  refine Gives.bind_any fun r => ?_
  obtain ⟨c₁, found⟩ := r
  cases found with
  | none => exact gives_pure.mpr nofun
  | some found =>
    refine Gives.bind_any fun b => gives_pure.mpr ?_
    rintro w hw
    obtain rfl := Option.some.inj hw
    rfl

end Walk

/-! ### Beginning -/

/-- The cut at which a walk begins in a list of `n` elements: at an end, or before the element
with an index, if there is one. -/
def Side.cut? (origin : Side) (n : Nat) : (start : Option Int) → Option Nat
  | none => some (origin.start n)
  | some i =>
    if -(n : Int) ≤ i ∧ i < n then some (origin.before (if i < 0 then i + n else i).toNat)
    else none

theorem Side.cut?_some (origin : Side) (n : Nat) (i : Int) :
    origin.cut? n (some i) = (Packed.idxOf? n i).map origin.before := by
  simp only [cut?, Packed.idxOf?]
  by_cases hneg : i < 0
  · rw [if_pos hneg, if_pos hneg]
    by_cases hle : -(n : Int) ≤ i
    · rw [if_pos ⟨hle, by omega⟩, if_pos (by omega), Option.map_some]
      congr 2
      omega
    · rw [if_neg (fun h => hle h.1), if_neg (by omega), Option.map_none]
  · rw [if_neg hneg, if_neg hneg]
    by_cases hlt : i < n
    · rw [if_pos ⟨by omega, hlt⟩, if_pos (by omega), Option.map_some]
    · rw [if_neg (fun h => hlt h.2), if_neg (by omega), Option.map_none]

/-- **A walk begins at its cut**, if there is one, and it has no position yet. -/
theorem Session.begin_exact {c : Chain} {l : Layout} (h : c.Has l) (hs : l.Sound) (origin : Side)
    (start : Option Int) :
    Ensures (Session.begin c origin start) fun r => r.1.Has l ∧
      match origin.cut? l.count start with
      | none => r.2 = none
      | some pos => ∃ w, r.2 = some w ∧ w.origin = origin ∧ w.Stands l pos ∧ w.Exact l := by
  cases start with
  | none =>
    refine ⟨h, _, rfl, rfl, Walk.stands_ofEnd h hs origin, ?_⟩
    exact Walk.exact_of_place_eq_none rfl
  | some i =>
    rw [Side.cut?_some]
    have hplace := Walk.gives_ofIndex_place c origin i
    refine ((Walk.ofIndex_stands h hs origin i).and_gives hplace).imp fun r hr => ?_
    obtain ⟨⟨hc, hstands⟩, hplace⟩ := hr
    refine ⟨hc, ?_⟩
    cases hi : Packed.idxOf? l.count i with
    | none => simpa only [hi, Option.map_none] using hstands
    | some pos =>
      simp only [hi] at hstands
      obtain ⟨w, hw, horigin, hstands⟩ := hstands
      exact ⟨w, hw, horigin, hstands, Walk.exact_of_place_eq_none (hplace w hw)⟩

end UnrolledList
