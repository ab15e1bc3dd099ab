import UnrolledList.Chain.Walk
import UnrolledList.Proofs.Chain.Handles

/-!
# Where a walk stands

A walk stands **at a cut** of the sequence: so many elements are on the side of the head,
and the rest on the side of the tail (`UnrolledList.Walk.Stands`). A walk that comes from
the head has the rest before it, and one that comes from the tail those others. Both ways
are told at once by two functions of the end that the walk comes from: which element is
next (`UnrolledList.Side.next?`), and where the cut is once it is passed
(`UnrolledList.Side.past`).

Within a block the cut is told by the offset, and by the cursor if there is one
(`UnrolledList.Walk.At`). A walk goes on in one of two ways: its block yields an entry, or
the block has run out and the walk enters the next one, which yields because no block is
empty. Either way the layout does not change.

An erasure removes the element that was passed last. So the walk is back at the cut it came
from, in a sequence that is shorter by one.
-/

namespace UnrolledList

namespace Side

/-- The number of the element that comes next at a cut of `n`. -/
def next? (origin : Side) (n cut : Nat) : Option Nat :=
  match origin with
  | .head => if cut < n then some cut else none
  | .tail => if 0 < cut then some (cut - 1) else none

/-- The cut before element number `k`. -/
def before : (origin : Side) → (k : Nat) → Nat
  | .head, k => k
  | .tail, k => k + 1

/-- The cut behind element number `k`. -/
def past : (origin : Side) → (k : Nat) → Nat
  | .head, k => k + 1
  | .tail, k => k

/-- The cut at which nothing has been passed. -/
def start : (origin : Side) → (n : Nat) → Nat
  | .head, _ => 0
  | .tail, n => n

/-- The cut at which everything has been passed. -/
def finish : (origin : Side) → (n : Nat) → Nat
  | .head, n => n
  | .tail, _ => 0

/-- The offset of entry number `k` of `n`. -/
def offsetOf : (origin : Side) → (n k : Nat) → Int
  | .head, _, k => k
  | .tail, n, k => k - n

theorem lt_of_next? {origin : Side} {n cut k : Nat} (hcut : cut ≤ n)
    (h : origin.next? n cut = some k) : k < n := by
  cases origin <;> simp only [next?] at h <;> split at h <;>
    first
    | contradiction
    | obtain rfl := Option.some.inj h
      omega

/-- The offset of an entry finds it. -/
theorem idxOf?_offsetOf (origin : Side) {n k : Nat} (h : k < n) :
    Packed.idxOf? n (origin.offsetOf n k) = some k := by
  cases origin with
  | head => exact Packed.idxOf?_natCast h
  | tail =>
    have hback : ((k : Int) - n) = -((n - 1 - k : Nat) : Int) - 1 := by omega
    rw [offsetOf, hback, Packed.idxOf?_neg_sub_one (by omega)]
    congr 1
    omega

end Side

namespace Walk

open Chain

variable {w : Walk} {c : Chain} {l : Layout} {pre post : List Leaf} {x : Leaf} {cut pos k : Nat}

/-! ### Within a block -/

/-- The walk is in the block `x`, which comes after the blocks `pre`, at a cut of its
entries. -/
structure At (w : Walk) (pre : List Leaf) (x : Leaf) (cut : Nat) : Prop where
  /-- It has the number of the block. -/
  current_eq : w.current = some pre.length
  /-- The block has that many entries. -/
  cut_le : cut ≤ x.count
  /-- The cut is told by the offset alone, or by the entry that was passed last. -/
  offset_eq :
    match w.place with
    | none => w.offset = match w.origin with
      | .head => (cut : Int)
      | .tail => (cut : Int) - x.count - 1
    | some place => w.origin.past place.idx = cut ∧ place.idx < x.count ∧
        w.offset = w.origin.offsetOf x.count place.idx

@[simp] theorem origin_advance (w : Walk) (p : Packed) : (w.advance p).origin = w.origin := by
  unfold advance
  split
  · rfl
  · split <;> rfl

@[simp] theorem current_advance (w : Walk) (p : Packed) : (w.advance p).current = w.current := by
  unfold advance
  split
  · rfl
  · split <;> rfl

/-- **Moving on within a block** leads to the entry that comes next, and to its offset. -/
theorem At.advance (h : w.At pre x cut) (hx : x.count = x.list.entries.size)
    (hlinked : Packed.Linked 0 x.list.entries.toList) :
    ((w.advance x.list).place.map Cursor.idx = w.origin.next? x.count cut) ∧
      ∀ k, w.origin.next? x.count cut = some k →
        (w.advance x.list).offset = w.origin.offsetOf x.count k := by
  obtain ⟨origin, current, place, offset⟩ := w
  obtain ⟨-, hcut, hoffset⟩ := h
  cases place with
  | none =>
    simp only [Walk.advance, Packed.idx_seek? hlinked, ← hx]
    cases origin with
    | head =>
      obtain rfl : offset = cut := hoffset
      refine ⟨?_, fun k hk => ?_⟩
      · rw [Packed.idxOf?, if_neg (by omega), Int.toNat_natCast]
        rfl
      · simp only [Side.next?] at hk
        split at hk
        · obtain rfl := Option.some.inj hk
          rfl
        · contradiction
    | tail =>
      obtain rfl : offset = (cut : Int) - x.count - 1 := hoffset
      refine ⟨?_, fun k hk => ?_⟩
      · simp only [Packed.idxOf?, Side.next?]
        rw [if_pos (by omega)]
        split <;> split <;> first | omega | rfl | (congr 1; omega)
      · simp only [Side.next?] at hk
        split at hk
        · obtain rfl := Option.some.inj hk
          simp only [Side.offsetOf]
          omega
        · contradiction
  | some place =>
    obtain ⟨hpast, hlt, hoffset⟩ := hoffset
    simp only at hpast hlt hoffset
    cases origin with
    | head =>
      obtain rfl : place.idx + 1 = cut := hpast
      refine ⟨?_, fun k hk => ?_⟩
      · simp only [Walk.advance, Packed.idx_next?, ← hx, Side.next?]
      · simp only [Side.next?] at hk
        split at hk
        · obtain rfl := Option.some.inj hk
          simp [Walk.advance, hoffset, Side.offsetOf]
        · contradiction
    | tail =>
      obtain rfl : place.idx = cut := hpast
      simp only [Walk.advance, Packed.idx_prev? (hx ▸ hlt), Side.next?]
      refine ⟨?_, fun k hk => ?_⟩
      · split <;> split <;> first | omega | rfl
      · split at hk
        · obtain rfl := Option.some.inj hk
          simp only [hoffset, Side.offsetOf]
          omega
        · contradiction

/-- The walk has just passed entry number `k` of the block `x`, which comes after the blocks
`pre`. -/
structure On (w : Walk) (pre : List Leaf) (x : Leaf) (k : Nat) : Prop where
  /-- It has the number of the block. -/
  current_eq : w.current = some pre.length
  /-- It has the place of the entry. -/
  idx_eq : w.place.map Cursor.idx = some k
  /-- The entry is one of the block. -/
  lt : k < x.count
  /-- It has the offset of the entry. -/
  offset_eq : w.offset = w.origin.offsetOf x.count k

/-- A walk that has passed an entry stands behind it. -/
theorem On.at_past (h : w.On pre x k) : w.At pre x (w.origin.past k) := by
  obtain ⟨place, hplace, hidx⟩ := Option.map_eq_some_iff.mp h.idx_eq
  refine ⟨h.current_eq, ?_, ?_⟩
  · have hlt := h.lt
    cases w.origin <;> simp only [Side.past] <;> omega
  · rw [hplace]
    exact ⟨by rw [hidx], hidx ▸ h.lt, hidx ▸ h.offset_eq⟩

/-! ### From block to block -/

/-- The blocks that a walk from an end still has before it, apart from the one it is in. -/
def ahead : (origin : Side) → (pre post : List Leaf) → List Leaf
  | .head, _, post => post
  | .tail, pre, _ => pre

/-- The walk stands at the cut `pos` of the sequence of a layout. -/
inductive Stands (w : Walk) (l : Layout) (pos : Nat) : Prop
  /-- It has run out. -/
  | done (hnone : w.current = none) (hpos : pos = w.origin.finish l.count)
  /-- It is in a block. -/
  | within (pre : List Leaf) (x : Leaf) (post : List Leaf) (cut : Nat)
      (hl : l.leaves = pre ++ x :: post) (hat : w.At pre x cut)
      (hpos : pos = Layout.total pre + cut)

/-- What comes next in the block comes next in the sequence. -/
theorem next?_within (origin : Side) (hs : l.Sound) (hl : l.leaves = pre ++ x :: post)
    (h : origin.next? x.count cut = some k) :
    origin.next? l.count (Layout.total pre + cut) = some (Layout.total pre + k) := by
  have hcount := hs.count_split hl
  cases origin <;> simp only [Side.next?] at h ⊢ <;> split at h
  · obtain rfl := Option.some.inj h
    rw [if_pos (by omega)]
  · contradiction
  · obtain rfl := Option.some.inj h
    rw [if_pos (by omega)]
    congr 1
    omega
  · contradiction

/-- Nothing comes next when all has been passed. -/
theorem next?_finish (origin : Side) (n : Nat) : origin.next? n (origin.finish n) = none := by
  cases origin <;> simp [Side.next?, Side.finish]

/-- A walk that enters a block has all its entries before it. -/
theorem at_enter (w : Walk) (pre : List Leaf) (x : Leaf) :
    (w.enter (some pre.length)).At pre x (w.origin.start x.count) := by
  obtain ⟨origin, current, place, offset⟩ := w
  cases origin with
  | head => exact ⟨rfl, Nat.zero_le _, rfl⟩
  | tail => exact ⟨rfl, Nat.le_refl _, by simp [enter, entryOffset, Side.start]⟩

/-- **A walk that has come to the end of its block** stands at the same cut when it enters
the next one, and has fewer blocks before it. -/
theorem At.leave (h : w.At pre x cut) (hs : l.Sound) (hl : l.leaves = pre ++ x :: post)
    (hnone : w.origin.next? x.count cut = none) :
    (step? w.origin l.leaves.length pre.length = none ∧
      Layout.total pre + cut = w.origin.finish l.count) ∨
    ∃ pre' y post', l.leaves = pre' ++ y :: post' ∧
      step? w.origin l.leaves.length pre.length = some pre'.length ∧
      Layout.total pre + cut = Layout.total pre' + w.origin.start y.count ∧
      (ahead w.origin pre' post').length < (ahead w.origin pre post).length := by
  have hcut := h.cut_le
  have hcount := hs.count_split hl
  cases horigin : w.origin with
  | head =>
    have hend : cut = x.count := by
      simp only [horigin, Side.next?] at hnone
      split at hnone
      · contradiction
      · omega
    cases post with
    | nil =>
      refine .inl ⟨?_, ?_⟩
      · simp [step?, hl]
      · simp [Side.finish, hcount, hend]
    | cons y post =>
      refine .inr ⟨pre ++ [x], y, post, by rw [hl, List.append_cons], ?_, ?_, ?_⟩
      · simp [step?, hl]
      · simp [Side.start, hend]
      · simp [ahead]
  | tail =>
    have hend : cut = 0 := by
      simp only [horigin, Side.next?] at hnone
      split at hnone
      · contradiction
      · omega
    rcases List.eq_nil_or_concat pre with rfl | ⟨front, y, hpre⟩
    · exact .inl ⟨rfl, by simp [Side.finish, hend]⟩
    · obtain rfl : pre = front ++ [y] := by simpa using hpre
      refine .inr ⟨front, y, x :: post, by rw [hl, ← List.append_cons], ?_, ?_, ?_⟩
      · simp [step?]
      · simp [Side.start, hend]
      · simp [ahead]

@[simp] theorem origin_enter (w : Walk) (i : Option Nat) : (w.enter i).origin = w.origin := rfl

@[simp] theorem current_enter (w : Walk) (i : Option Nat) : (w.enter i).current = i := rfl

/-- A walk that has run out gives nothing. -/
theorem nextAmong_of_current_none (h : w.current = none) (blocks : Nat) (c : Chain) :
    w.nextAmong blocks c = .ok (w, c, none) := by
  cases blocks with
  | zero => rfl
  | succ blocks => rw [nextAmong, h]

/-- What a walk gives that goes on from the cut `pos`. -/
def Continues (l : Layout) (origin : Side) (pos : Nat) (r : Walk × Chain × Option Handle) : Prop :=
  r.1.origin = origin ∧ r.2.1.Has l ∧
    match origin.next? l.count pos with
    | none => r.2.2 = none ∧ r.1.current = none
    | some k => ∃ pre x post j handle, r.2.2 = some handle ∧ handle.Names l pre x post j ∧
        k = Layout.total pre + j ∧ r.1.On pre x j

/-- Opening the block that a walk is in leaves the layout as it is. -/
theorem openBlock_has (h : c.Has l) (w : Walk) {i : Nat} (hi : i < l.leaves.length) :
    Ensures (w.openBlock c i) (·.Has l) := by
  unfold openBlock
  split
  · exact h.openForUse hi
  · exact h.recode hi fun _ _ hb => hb.inflate

/-- **A walk in a block** gives the entry that comes next there, or else goes to the next
block; there are only so many of them. -/
theorem At.nextAmong (hw : w.At pre x cut) (h : c.Has l) (hs : l.Sound)
    (hl : l.leaves = pre ++ x :: post) {blocks : Nat}
    (hblocks : (ahead w.origin pre post).length < blocks) :
    Ensures (w.nextAmong blocks c) (Continues l w.origin (Layout.total pre + cut)) := by
  induction blocks generalizing w c pre x cut post with
  | zero => exact absurd hblocks (Nat.not_lt_zero _)
  | succ blocks ih =>
    have hx := hs.counted_split hl
    have hi : pre.length < l.leaves.length := by simp [hl]
    rw [Walk.nextAmong, hw.current_eq]
    refine (openBlock_has h w hi).bind fun c₁ h₁ => ?_
    obtain ⟨b, hb, hkeeps, -⟩ := h₁.block_eq hl
    obtain ⟨hplace, hoffset⟩ := hw.advance hx hkeeps.wellFormed.linked
    rw [hb, ok_bind, hkeeps.packed_eq, ok_bind]
    cases hnext : w.origin.next? x.count cut with
    | some k =>
      rw [hnext] at hplace
      obtain ⟨place, hsome, hidx⟩ := Option.map_eq_some_iff.mp hplace
      have hlt := Side.lt_of_next? hw.cut_le hnext
      have hoff := hoffset k hnext
      have hnamed : Packed.idxOf? x.count (w.advance x.list).offset = some place.idx := by
        rw [hoff, hidx, Side.idxOf?_offsetOf _ hlt]
      obtain ⟨handle, hhandle, hnames, -⟩ := h₁.handleAt?_eq hl hnamed hx
      simp only [handle?, hsome, hhandle, ok_bind]
      refine ⟨w.origin_advance _, h₁, ?_⟩
      rw [next?_within _ hs hl hnext]
      refine ⟨pre, x, post, k, handle, rfl, hidx ▸ hnames, rfl, ?_, ?_, hlt, ?_⟩
      · rw [current_advance, hw.current_eq]
      · rw [hplace]
      · rw [origin_advance, hoff]
    | none =>
      rw [hnext] at hplace
      have hsome := Option.map_eq_none_iff.mp hplace
      simp only [handle?, hsome, ok_bind]
      refine (h₁.recompress hi).bind fun c₂ h₂ => ?_
      rw [h₂.length_eq, origin_advance]
      rcases hw.leave hs hl hnext with ⟨hstep, hpos⟩ | ⟨pre', y, post', hl', hstep, hpos, hless⟩
      · rw [hstep, nextAmong_of_current_none rfl, hpos]
        refine ⟨w.origin_advance _, h₂, ?_⟩
        rw [next?_finish]
        exact ⟨rfl, rfl⟩
      · rw [hstep, hpos]
        have hat := (w.advance x.list).at_enter pre' y
        rw [origin_advance] at hat
        have hgo := ih hat h₂ hl' (by
          rw [origin_enter, origin_advance]
          omega)
        rwa [origin_enter, origin_advance] at hgo

/-- **The next element of a walk** is the one behind the cut, and the walk has passed it. -/
theorem Stands.next (hw : w.Stands l pos) (h : c.Has l) (hs : l.Sound) :
    Ensures (w.next c) (Continues l w.origin pos) := by
  cases hw with
  | done hnone hpos =>
    rw [Walk.next, nextAmong_of_current_none hnone, hpos]
    refine ⟨rfl, h, ?_⟩
    rw [next?_finish]
    exact ⟨rfl, hnone⟩
  | within pre x post cut hl hat hpos =>
    rw [hpos]
    refine hat.nextAmong h hs hl ?_
    rw [h.length_eq, hl]
    cases w.origin <;> simp only [ahead, List.length_append, List.length_cons] <;> omega

/-- A walk that has passed an element stands behind it. -/
theorem On.stands (h : w.On pre x k) (hl : l.leaves = pre ++ x :: post) :
    w.Stands l (w.origin.past (Layout.total pre + k)) := by
  refine .within pre x post _ hl h.at_past ?_
  cases w.origin <;> rfl

/-! ### Beginning and ending -/

/-- A walk from an end has everything before it. -/
theorem stands_ofEnd (h : c.Has l) (hs : l.Sound) (origin : Side) :
    (ofEnd c origin).Stands l (origin.start l.count) := by
  by_cases hempty : l.leaves = []
  · have hlen : c.length = 0 := by rw [h.length_eq, hempty, List.length_nil]
    have hcount : l.count = 0 := by rw [hs.count_eq, hempty, Layout.total_nil]
    refine .done (by simp [ofEnd, endIdx?, hlen]) ?_
    rw [hcount]
    cases origin <;> rfl
  · obtain ⟨pre, x, post, hl, hend, hside⟩ := h.exists_end hempty origin
    have hat := (ofEnd c origin).at_enter pre x
    have henter : (ofEnd c origin).enter (some pre.length) = ofEnd c origin := by
      simp [ofEnd, enter, hend]
    rw [henter] at hat
    refine .within pre x post _ hl hat ?_
    rw [hs.count_eq, hl]
    cases origin with
    | head =>
      obtain rfl : pre = [] := hside
      rfl
    | tail =>
      obtain rfl : post = [] := hside
      simp [Side.start, ofEnd]

/-- **A walk from an index** has the element with that index before it. -/
theorem ofIndex_stands (h : c.Has l) (hs : l.Sound) (origin : Side) (i : Int) :
    Ensures (ofIndex c origin i) fun r => r.1.Has l ∧
      match Packed.idxOf? l.count i with
      | none => r.2 = none
      | some k => ∃ w, r.2 = some w ∧ w.origin = origin ∧ w.Stands l (origin.before k) := by
  unfold ofIndex
  cases hi : Packed.idxOf? l.count i with
  | none =>
    rw [h.find?_eq_none hi]
    exact ⟨h, rfl⟩
  | some pos =>
    refine (h.find?_eq hs hi).bind fun r hr => ?_
    obtain ⟨c₁, found⟩ := r
    obtain ⟨h₁, pre, x, post, k, handle, hfound, hnames, rfl⟩ := hr
    obtain rfl : found = _ := hfound
    have hl := hnames.leaves_eq
    obtain ⟨b, hb, -, hcount⟩ := Has.block_eq h₁ hl
    simp only [hb, ok_bind, hcount]
    refine ⟨h₁, _, rfl, rfl, .within pre x post (origin.before k) hl ⟨rfl, ?_, ?_⟩ ?_⟩
    · have hlt := hnames.lt
      cases origin <;> simp only [Side.before] <;> omega
    · obtain ⟨hlt, hoffset⟩ := Packed.idxOf?_eq_some hnames.offset_eq
      cases origin <;> simp only [Side.before] <;> split <;> omega
    · cases origin <;> simp only [Side.before, Nat.add_assoc]

/-- Ending a walk leaves the layout as it is. -/
theorem Stands.finish (hw : w.Stands l pos) (h : c.Has l) :
    Ensures (w.finish c) (·.Has l) := by
  unfold Walk.finish
  cases hw with
  | done hnone hpos =>
    rw [hnone]
    exact h
  | within pre x post cut hl hat hpos =>
    rw [hat.current_eq]
    exact h.recompress (by simp [hl])

/-! ### Erasing -/

/-- An element erased from within a block is erased from the sequence. -/
theorem texts_eraseIdx (hs : l.Sound) (hl : l.leaves = pre ++ x :: post) (hk : k < x.count) :
    l.texts.eraseIdx (Layout.total pre + k) =
      Layout.textsOf pre ++ (x.list.texts.take k ++ x.list.texts.drop (k + 1)) ++
        Layout.textsOf post := by
  rw [List.eraseIdx_eq_take_drop_succ, hs.take_texts hl (Nat.le_of_lt hk), Nat.add_assoc,
    hs.drop_texts hl hk]
  simp

/-- **Erasing the element that was just passed** leads back to the cut before it, in the
sequence without it. -/
theorem On.erase (hw : w.On pre x k) (h : c.Has l) (hs : l.Sound)
    (hl : l.leaves = pre ++ x :: post) {handle : Handle} (hblock : handle.block = x.id)
    (hidx : handle.place.idx = k) :
    Ensures (w.erase c handle) fun r => r.1.origin = w.origin ∧
      ∃ l', r.2.1.Has l' ∧ l'.Sound ∧ l'.texts = l.texts.eraseIdx (Layout.total pre + k) ∧
        l'.stamp = l.stamp + 1 ∧ r.1.Stands l' (Layout.total pre + k) := by
  have hx := hs.counted_split hl
  have hlt := hw.lt
  have hcount := hs.count_split hl
  simp only [Walk.erase, hw.current_eq, h.id?_eq hl, hblock, if_true, hidx]
  refine (h.eraseAt hl (by omega) (by omega) k).bind fun r hr => ?_
  obtain ⟨c₁, gone⟩ := r
  obtain ⟨hgone, h₁⟩ := hr
  obtain rfl : gone = _ := hgone
  by_cases hone : x.count = 1
  · -- the block goes, and the walk enters the one behind it
    obtain rfl : k = 0 := by omega
    have hlen : x.list.texts.length = 1 := by rw [Packed.length_texts, ← hx, hone]
    rw [if_pos hone] at h₁
    have hsound := (hs.remove hl (n := l.count - 1) (by omega)).withStamp (l.stamp + 1)
    have htexts : Layout.textsOf (pre ++ post) = l.texts.eraseIdx (Layout.total pre + 0) := by
      rw [texts_eraseIdx hs hl hlt, List.drop_of_length_le (Nat.le_of_eq hlen)]
      simp
    have hlength := h₁.length_eq
    simp only [hone, decide_true, if_true]
    cases horigin : w.origin with
    | head =>
      refine ⟨horigin, _, h₁.touch, hsound, htexts, rfl, ?_⟩
      cases post with
      | nil =>
        refine .done ?_ ?_
        · simp [hlength]
        · simp [horigin, Side.finish, hcount, hone]
      | cons y post =>
        refine .within pre y post 0 rfl ?_ rfl
        have hat := w.at_enter pre y
        simpa [hlength, horigin, Side.start] using hat
    | tail =>
      refine ⟨horigin, _, h₁.touch, hsound, htexts, rfl, ?_⟩
      rcases List.eq_nil_or_concat pre with rfl | ⟨front, y, hpre⟩
      · exact .done rfl (by simp [horigin, Side.finish])
      · obtain rfl : pre = front ++ [y] := by simpa using hpre
        refine .within front y post y.count ?_ ?_ ?_
        · simp
        · have hat := w.at_enter front y
          simpa [step?, horigin, Side.start] using hat
        · simp
  · -- the block stays, and the offset says where the walk goes on
    rw [if_neg hone] at h₁
    have hsound := (hs.set (y := ⟨x.id, x.list.eraseIdx k 1, x.count - 1⟩) hl rfl
      (n := l.count - 1) (by
        simp only [Packed.size_entries_eraseIdx, Packed.available]
        omega) (by
        simp only
        omega) (by
        simp only
        omega)).withStamp (l.stamp + 1)
    simp only [hone, decide_false]
    refine ⟨rfl, _, h₁.touch, hsound, ?_, rfl, ?_⟩
    · rw [texts_eraseIdx hs hl hlt, Layout.texts]
      simp [Packed.texts_eraseIdx]
    · refine .within pre ⟨x.id, x.list.eraseIdx k 1, x.count - 1⟩ post k rfl ⟨?_, ?_, ?_⟩ rfl
      · rfl
      · simp only
        omega
      · have hoffset := hw.offset_eq
        simp only [Bool.false_eq_true, if_false] at hoffset ⊢
        cases horigin : w.origin <;> simp only [horigin, Side.offsetOf] at hoffset ⊢ <;> omega

end Walk

end UnrolledList
