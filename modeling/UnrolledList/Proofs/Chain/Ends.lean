import UnrolledList.Chain.Ends
import UnrolledList.Proofs.Chain.Blocks

/-!
# What the ends do

A chain **holds** a sequence of strings (`UnrolledList.Chain.Holds`) if it has a sound
layout with these strings. The operations at the two ends are those of the sequence: a push
adds a string at its end (`UnrolledList.Side.cons`), a pop takes one off, a rotation does
both.

A push goes one of two ways, into the block at the end or into a block of its own, and
which one it is depends on the sizes; the sequence does not show it.
-/

namespace UnrolledList

/-- One string more at an end of a sequence. -/
def Side.cons : Side → Bytes → List Bytes → List Bytes
  | .head, s, ts => s :: ts
  | .tail, s, ts => ts ++ [s]

/-- A block with one more string at an end. -/
def Leaf.pushed (x : Leaf) (side : Side) (s : Bytes) : Leaf where
  id := x.id
  list := match side with
    | .head => x.list.pushFront s
    | .tail => x.list.push s
  count := x.count + 1

theorem Leaf.texts_pushed (x : Leaf) (side : Side) (s : Bytes) :
    (x.pushed side s).list.texts = side.cons s x.list.texts := by
  cases side with
  | head => exact x.list.texts_pushFront s
  | tail => exact x.list.texts_push s

/-- No block lies beyond one on the way to an end, if `pre` and `post` are those on either
side of it. -/
def Side.Ends : Side → (pre post : List Leaf) → Prop
  | .head, pre, _ => pre = []
  | .tail, _, post => post = []

namespace Chain

variable {c : Chain} {l : Layout} {pre post : List Leaf} {x : Leaf} {ts : List Bytes}
  {stamp : UInt64}

/-- The chain is in order and holds the strings `ts`; its stamp is `stamp`. -/
def Holds (c : Chain) (ts : List Bytes) (stamp : UInt64) : Prop :=
  ∃ l, c.Has l ∧ l.Sound ∧ l.texts = ts ∧ l.stamp = stamp

theorem Has.holds (h : c.Has l) (hs : l.Sound) : c.Holds l.texts l.stamp :=
  ⟨l, h, hs, rfl, rfl⟩

theorem Holds.texts_eq (h : c.Holds ts stamp) : c.texts = ts := by
  obtain ⟨l, hl, -, rfl, -⟩ := h
  exact hl.texts_eq

theorem Holds.count_eq (h : c.Holds ts stamp) : c.count = ts.length := by
  obtain ⟨l, hl, hs, rfl, -⟩ := h
  rw [hl.count_eq, hs.length_texts]

theorem Holds.stamp_eq (h : c.Holds ts stamp) : c.stamp = stamp := by
  obtain ⟨l, hl, -, -, rfl⟩ := h
  exact hl.stamp_eq

theorem Holds.touch (h : c.Holds ts stamp) : c.touch.Holds ts (stamp + 1) := by
  obtain ⟨l, hl, hs, rfl, rfl⟩ := h
  exact ⟨_, hl.touch, hs.withStamp _, rfl, rfl⟩

/-- The chain holds the strings `ts`, but one of them is not counted yet. -/
def Owes (c : Chain) (ts : List Bytes) (stamp : UInt64) : Prop :=
  ∃ l, c.Has l ∧ Layout.Sound { l with count := l.count + 1 } ∧ l.texts = ts ∧ l.stamp = stamp

/-- Counting the element is all that is left to do. -/
theorem Owes.count (h : c.Owes ts stamp) : (c.withCount (c.count + 1)).Holds ts stamp := by
  obtain ⟨l, hl, hs, rfl, rfl⟩ := h
  refine ⟨_, hl.withCount _, ?_, rfl, rfl⟩
  rwa [hl.count_eq]

/-! ### The blocks at the ends -/

/-- Where there are blocks, there is one at each end. -/
theorem Has.exists_end (h : c.Has l) (hne : l.leaves ≠ []) (side : Side) :
    ∃ pre x post, l.leaves = pre ++ x :: post ∧ c.endIdx? side = some pre.length ∧
      side.Ends pre post := by
  have hlen := h.length_eq
  have hpos : l.leaves.length ≠ 0 := by simpa using hne
  unfold endIdx?
  rw [hlen, if_neg hpos]
  cases side with
  | head =>
    obtain ⟨x, post, hcons⟩ := List.exists_cons_of_ne_nil hne
    exact ⟨[], x, post, hcons, rfl, rfl⟩
  | tail =>
    obtain ⟨pre, x, hconcat⟩ := (List.eq_nil_or_concat l.leaves).resolve_left hne
    refine ⟨pre, x, [], by simpa using hconcat, ?_, rfl⟩
    simp [hconcat]

theorem Has.exists_end_of_endIdx? (h : c.Has l) {side : Side} {i : Nat}
    (hi : c.endIdx? side = some i) :
    ∃ pre x post, l.leaves = pre ++ x :: post ∧ i = pre.length ∧ side.Ends pre post := by
  have hne : l.leaves ≠ [] := by
    rintro hnil
    have hlen := h.length_eq
    rw [hnil, List.length_nil] at hlen
    simp [endIdx?, hlen] at hi
  obtain ⟨pre, x, post, hl, hend, hside⟩ := h.exists_end hne side
  exact ⟨pre, x, post, hl, Option.some.inj (hi.symm.trans hend), hside⟩

/-- Admission is answered, unless a size is beyond what can be counted. -/
theorem Has.admits (h : c.Has l) (hl : l.leaves = pre ++ x :: post) (n : Nat) :
    Ensures (c.admits pre.length n) fun _ => True := by
  obtain ⟨b, hb, -⟩ := h.block_eq hl
  rw [Chain.admits, hb, ok_bind]
  cases c.fill.admits? b.size b.count n with
  | some answer => trivial
  | none => trivial

theorem Has.admittingEnd? (h : c.Has l) (side : Side) (n : Nat) :
    Ensures (c.admittingEnd? side n) fun r => ∀ i ∈ r, c.endIdx? side = some i := by
  unfold Chain.admittingEnd?
  split
  · intro i hi
    contradiction
  · next i hend =>
    obtain ⟨pre, x, post, hl, rfl, -⟩ := h.exists_end_of_endIdx? hend
    refine (h.admits hl n).bind fun answer _ => ?_
    cases answer <;> simp [hend]

/-! ### Pushing -/

/-- A push into a block, wherever it stands. -/
theorem Has.pushInto (h : c.Has l) (hl : l.leaves = pre ++ x :: post) (side : Side) (s : Bytes) :
    Ensures (c.pushInto pre.length side s)
      (·.Has { l with leaves := pre ++ x.pushed side s :: post }) := by
  refine h.modifyBlock hl rfl fun b hb hcount => ?_
  cases side with
  | head => exact (hb.pushFront s).imp fun b' hb' => ⟨hb'.1, by rw [hb'.2, hcount]; rfl⟩
  | tail => exact (hb.pushBack s).imp fun b' hb' => ⟨hb'.1, by rw [hb'.2, hcount]; rfl⟩

theorem sound_pushed (hs : l.Sound) (hl : l.leaves = pre ++ x :: post) (side : Side) (s : Bytes) :
    Layout.Sound { l with leaves := pre ++ x.pushed side s :: post, count := l.count + 1 } := by
  have hx := hs.counted_split hl
  refine hs.set (y := x.pushed side s) hl rfl ?_ (Nat.succ_pos _) ?_
  · rw [← Packed.length_texts, Leaf.texts_pushed]
    cases side <;> simp [Side.cons, Leaf.pushed, hx]
  · simp only [Leaf.pushed]
    omega

/-- A push into the block at an end. -/
theorem Has.pushIntoEnd (h : c.Has l) (hs : l.Sound) {i : Nat} {side : Side}
    (hi : c.endIdx? side = some i) (s : Bytes) :
    Ensures (c.pushInto i side s) (·.Owes (side.cons s l.texts) l.stamp) := by
  obtain ⟨pre, x, post, hl, rfl, hside⟩ := h.exists_end_of_endIdx? hi
  refine (h.pushInto hl side s).imp fun c' hc' => ⟨_, hc', sound_pushed hs hl side s, ?_, rfl⟩
  cases side with
  | head =>
    obtain rfl : pre = [] := hside
    simp [Layout.texts, hl, Leaf.texts_pushed, Side.cons]
  | tail =>
    obtain rfl : post = [] := hside
    simp [Layout.texts, hl, Leaf.texts_pushed, Side.cons]

/-- A block of its own at an end. -/
theorem Has.linkNew (h : c.Has l) (hs : l.Sound) {b : Block} {p : Packed} (hb : b.Keeps p)
    (hcount : b.count = p.entries.size) (hpos : 0 < b.count) (side : Side) :
    Ensures (c.takeId.2.linkAt side ⟨c.takeId.1, b⟩) fun c' => c'.count = l.count ∧
      (c'.withCount (l.count + b.count)).Holds
        (match side with
          | .head => p.texts ++ l.texts
          | .tail => l.texts ++ p.texts) l.stamp := by
  obtain ⟨hid, htaken, hspare⟩ := h.takeId
  have hnew : Cell.Shows ⟨c.takeId.1, b⟩ ⟨c.takeId.1, p, b.count⟩ := ⟨rfl, hb, rfl⟩
  refine (htaken.linkAt hnew hspare side).imp fun c' hc' => ?_
  simp only [Layout.leaves_takeId] at hc'
  refine ⟨by rw [hc'.count_eq, Layout.count_takeId], _, hc'.withCount _, ?_, ?_, ?_⟩
  · cases side with
    | head =>
      exact hs.insert (y := ⟨c.takeId.1, p, b.count⟩) (show l.leaves = [] ++ l.leaves from rfl) hid
        hcount hpos
    | tail =>
      exact hs.insert (y := ⟨c.takeId.1, p, b.count⟩) (List.append_nil _).symm hid hcount hpos
  · cases side <;> simp [Layout.texts]
  · exact l.stamp_takeId

/-- **A push adds a string at an end.** -/
theorem Holds.push (h : c.Holds ts stamp) (side : Side) (s : Bytes) :
    Ensures (c.push side s) fun r => r.1.Holds (side.cons s ts) (stamp + 1) := by
  obtain ⟨l, hl, hs, rfl, rfl⟩ := h
  refine (hl.admittingEnd? side s.length).bind fun admitting hadmitting => ?_
  cases admitting with
  | some i =>
    refine (hl.pushIntoEnd hs (hadmitting i rfl) s).bind fun c' hc' => ?_
    exact hc'.count.touch
  | none =>
    refine (Block.keeps_singleton s).bind fun b hb => ?_
    have hcount : b.count = (Packed.empty.push s).entries.size := by
      rw [hb.2, ← Packed.length_texts, Packed.texts_push, Packed.texts_empty]
      rfl
    refine (hl.linkNew hs hb.1 hcount (by omega) side).bind fun c' hc' => ?_
    obtain ⟨hcount', hholds⟩ := hc'
    rw [hb.2, ← hcount'] at hholds
    cases side <;> exact (by simpa [Side.cons] using hholds.touch)

/-- Every element pushed advances the stamp. -/
theorem Holds.pushAll (h : c.Holds ts stamp) (vs : List Value) :
    Ensures (c.pushAll vs)
      (·.Holds (ts ++ vs.map Value.render) (stamp + UInt64.ofNat vs.length)) := by
  induction vs generalizing c ts stamp with
  | nil => simpa [Chain.pushAll] using h
  | cons v vs ih =>
    refine (h.push .tail v.render).bind fun r hr => (ih hr).imp fun c' hc' => ?_
    have hstamp : stamp + 1 + UInt64.ofNat vs.length = stamp + UInt64.ofNat (vs.length + 1) := by
      rw [UInt64.ofNat_add, UInt64.add_assoc, UInt64.add_comm (UInt64.ofNat vs.length)]
      rfl
    rw [hstamp] at hc'
    simpa [Side.cons] using hc'

/-- A packed list is appended as it is. -/
theorem Has.appendBlock (h : c.Has l) (hs : l.Sound) {p : Packed} (hp : p.WellFormed) :
    Ensures (c.appendBlock p) fun c' =>
      if p.isEmpty then c'.Has l else c'.Holds (l.texts ++ p.texts) (l.stamp + 1) := by
  unfold Chain.appendBlock
  split
  · next hempty => simpa [hempty] using h
  · next hsome =>
    have hcount : (Block.ofPacked p).count = p.entries.size := Packed.length_eq_iff.mpr hp.counted
    have hpos : 0 < p.entries.size := by
      rw [Packed.isEmpty, Array.isEmpty_iff_size_eq_zero] at hsome
      exact Nat.pos_of_ne_zero hsome
    have hlink := h.linkNew hs (Block.keeps_ofPacked hp) hcount (hcount ▸ hpos) .tail
    refine hlink.bind fun c' hc' => ?_
    obtain ⟨-, hholds⟩ := hc'
    rw [h.count_eq]
    exact hholds.touch

/-! ### Popping -/

/-- The list of a block is well formed. -/
theorem Has.wellFormed (h : c.Has l) (hl : l.leaves = pre ++ x :: post) : x.list.WellFormed := by
  obtain ⟨b, -, hb, -⟩ := h.block_eq hl
  exact hb.wellFormed

/-- An entry erased from a layout in order. -/
theorem Has.holds_eraseAt (h : c.Has l) (hs : l.Sound) (hl : l.leaves = pre ++ x :: post) {k : Nat}
    (hk : k < x.count) :
    Ensures (c.eraseAt pre.length k) fun r => r.2 = decide (x.count = 1) ∧
      r.1.Holds (Layout.textsOf pre ++ (x.list.texts.take k ++ x.list.texts.drop (k + 1)) ++
        Layout.textsOf post) l.stamp := by
  have hx := hs.counted_split hl
  have htotal := hs.count_split hl
  refine (h.eraseAt hl (by omega) (by omega) k).imp fun r hr => ⟨hr.1, ?_⟩
  have hlayout := hr.2
  split at hlayout
  · next hone =>
    have hlen : x.list.texts.length = 1 := by rw [Packed.length_texts, ← hx, hone]
    obtain rfl : k = 0 := by omega
    refine ⟨_, hlayout, hs.remove hl (by omega), ?_, rfl⟩
    simp [Layout.texts, List.drop_of_length_le (Nat.le_of_eq hlen)]
  · next hmore =>
    refine ⟨_, hlayout, ?_, ?_, rfl⟩
    · refine hs.set (y := ⟨x.id, x.list.eraseIdx k 1, x.count - 1⟩) hl rfl ?_ ?_ ?_
      · simp only [Packed.size_entries_eraseIdx, Packed.available]
        omega
      · simp only
        omega
      · simp only
        omega
    · simp [Layout.texts, Packed.texts_eraseIdx]

/-- **The outermost entry is found**, and what can be erased is that one. -/
theorem Holds.outermost? (h : c.Holds ts stamp) (hne : ts ≠ []) (side : Side) :
    Ensures (c.outermost? side) fun r => ∃ i place v ts', r.2 = some (i, place, v) ∧
      ts = side.cons v.render ts' ∧ r.1.Holds ts stamp ∧
        Ensures (r.1.eraseAt i place.idx) (·.1.Holds ts' stamp) := by
  obtain ⟨l, hl, hs, rfl, rfl⟩ := h
  have hleaves : l.leaves ≠ [] := by
    rintro hnil
    simp [Layout.texts, hnil] at hne
  obtain ⟨pre, x, post, hsplit, hend, hside⟩ := hl.exists_end hleaves side
  have hx := hs.counted_split hsplit
  have hpos := hs.pos_split hsplit
  unfold Chain.outermost?
  rw [hend]
  have hi : pre.length < l.leaves.length := by simp [hsplit]
  refine (hl.recode hi fun _ _ hb => hb.inflate).bind fun c₁ h₁ => ?_
  obtain ⟨b, hb, hkeeps, -⟩ := h₁.block_eq hsplit
  rw [hb]
  change Ensures (do
    let p ← b.packed
    return (c₁, do
      let place ← p.seek? (endEntry side)
      let v ← p.get? place
      return (pre.length, place, v))) _
  rw [hkeeps.packed_eq]
  obtain ⟨k, hk⟩ : ∃ k, Packed.idxOf? x.list.entries.size (endEntry side) = some k := by
    cases side with
    | head => exact ⟨_, Packed.idxOf?_natCast (hx ▸ hpos)⟩
    | tail => exact ⟨_, Packed.idxOf?_neg_sub_one (hx ▸ hpos)⟩
  obtain ⟨place, hplace, rfl⟩ := Packed.seek?_eq_some hkeeps.wellFormed.linked hk
  have hlt : place.idx < x.list.texts.length := by
    rw [Packed.length_texts]
    exact Packed.lt_of_idxOf? hk
  obtain ⟨v, hv, hrender⟩ := Packed.get?_eq_some (List.getElem?_eq_getElem hlt)
  have hfound : (do
      let place ← x.list.seek? (endEntry side)
      let v ← x.list.get? place
      return (pre.length, place, v)) = some (pre.length, place, v) := by
    simp [hplace, hv]
  have herase := h₁.holds_eraseAt hs hsplit (show place.idx < x.count by
    rw [hx]
    exact Packed.lt_of_idxOf? hk)
  have hcut : x.list.texts = x.list.texts.take place.idx ++
      v.render :: x.list.texts.drop (place.idx + 1) := by
    rw [hrender, ← List.drop_eq_getElem_cons, List.take_append_drop]
  refine ⟨_, place, v, _, hfound, ?_, h₁.holds hs, herase.imp fun r hr => hr.2⟩
  cases side with
  | head =>
    obtain rfl : pre = [] := hside
    have hzero : place.idx = 0 :=
      (Option.some.inj ((Packed.idxOf?_natCast (hx ▸ hpos)).symm.trans hk)).symm
    simp only [Layout.texts, hsplit, List.nil_append, Layout.textsOf_cons, Layout.textsOf_nil,
      Side.cons]
    conv => lhs; rw [hcut]
    simp [hzero]
  | tail =>
    obtain rfl : post = [] := hside
    have hlast : x.list.texts.length = place.idx + 1 := by
      have hidx := Option.some.inj ((Packed.idxOf?_neg_sub_one (hx ▸ hpos)).symm.trans hk)
      rw [Packed.length_texts]
      omega
    simp only [Layout.texts, hsplit, Layout.textsOf_append, Layout.textsOf_cons, Layout.textsOf_nil,
      Side.cons, List.append_nil]
    conv => lhs; rw [hcut]
    simp [List.drop_of_length_le (Nat.le_of_eq hlast)]

theorem pop_of_count_eq_zero (h : c.count = 0) (side : Side) : c.pop side = .ok (c, none) :=
  if_pos h

/-- **A pop takes the string at an end off**, and returns it. -/
theorem Holds.pop (h : c.Holds ts stamp) (hne : ts ≠ []) (side : Side) :
    Ensures (c.pop side) fun r => ∃ v ts', r.2 = some v ∧ ts = side.cons v.render ts' ∧
      r.1.Holds ts' (stamp + 1) := by
  have hcount : c.count ≠ 0 := by
    rw [h.count_eq]
    simpa using hne
  rw [Chain.pop, if_neg hcount]
  refine (h.outermost? hne side).bind fun r hr => ?_
  obtain ⟨i, place, v, ts', hfound, hts, -, herase⟩ := hr
  obtain ⟨c₁, found⟩ := r
  obtain rfl : found = _ := hfound
  exact herase.bind fun r hr => ⟨v, ts', rfl, hts, hr.touch⟩

/-- **A rotation moves the last string to the head.** -/
theorem Holds.rotate (h : c.Holds ts stamp) (hlen : 1 < ts.length) :
    Ensures c.rotate fun c' => ∃ t ts', ts = ts' ++ [t] ∧ c'.Holds (t :: ts') (stamp + 1 + 1) := by
  have hcount : ¬ c.count ≤ 1 := by
    rw [h.count_eq]
    omega
  have hne : ts ≠ [] := List.ne_nil_of_length_pos (by omega)
  rw [Chain.rotate, if_neg hcount]
  refine (h.outermost? hne .tail).bind fun r hr => ?_
  obtain ⟨i, place, v, ts', hfound, hts, h₁, -⟩ := hr
  obtain ⟨c₁, found⟩ := r
  obtain rfl : found = _ := hfound
  refine (h₁.push .head v.render).bind fun r hr => ?_
  obtain ⟨c₂, isNew⟩ := r
  refine (Holds.outermost? hr (List.cons_ne_nil _ _) .tail).bind fun r hr => ?_
  obtain ⟨i, place, w, us, hfound, hus, h₂, herase⟩ := hr
  obtain ⟨c₃, found⟩ := r
  obtain rfl : found = _ := hfound
  refine herase.bind fun r hr => ?_
  have hsplit : v.render :: ts' = us := by
    rw [hts] at hus
    simp only [Side.cons, ← List.cons_append] at hus
    exact (List.append_inj' hus rfl).1
  exact ⟨v.render, ts', hts, hsplit ▸ hr.touch⟩

theorem rotate_of_count_le_one (h : c.count ≤ 1) : c.rotate = .ok c :=
  if_pos h

end Chain

end UnrolledList
