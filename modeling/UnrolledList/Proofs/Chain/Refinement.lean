import UnrolledList.Proofs.Chain.Copying
import UnrolledList.Proofs.Chain.Session
import UnrolledList.Proofs.Lzf.Overrun

/-!
# A list is a sequence

**A session does what its ledger says** (`UnrolledList.Session.run_refines`), under every
fill and depth and however these change on the way: it gives the same replies, holds the
same strings, and counts them. If it stops, then at a limit.

A session *follows* a ledger (`UnrolledList.Session.Follows`) if its list has a sound layout
with the strings of the ledger, and its handles name, one by one, the elements at the
places of the ledger. Each action keeps it so. Most of them do one of two things, and each
is one lemma: they leave the layout as it is, and all handles with it
(`UnrolledList.Session.follows_same`), or they lead to another sequence and advance the
stamp, so that no handle is left (`UnrolledList.Session.follows_changed`).

That the compressor can fail is not a matter of size: three pushes are enough
(`UnrolledList.Session.run_overrun`).
-/

namespace UnrolledList

/-- The handle names the element at a place of the sequence. -/
def Layout.Marks (l : Layout) (h : Handle) (place : Nat) : Prop :=
  ∃ pre x post k, h.Names l pre x post k ∧ place = Layout.total pre + k

/-- The session is in order, and the ledger says what there is. -/
def Session.Follows (s : Session) (m : Ledger) : Prop :=
  ∃ l, s.chain.Has l ∧ l.Sound ∧ l.texts = m.texts ∧ List.Forall₂ l.Marks s.held m.held

namespace Session

variable {s : Session} {m : Ledger} {c : Chain} {l : Layout} {ts : List Bytes} {stamp : UInt64}

/-! ### The two ways to go on -/

theorem withChain_of_stamp_eq (h : c.stamp = s.chain.stamp) :
    s.withChain c = { s with chain := c } := by
  rw [withChain, if_pos h]

theorem withChain_of_stamp_ne (h : c.stamp ≠ s.chain.stamp) : s.withChain c = ⟨c, []⟩ := by
  rw [withChain, if_neg h]

/-- A list with the same layout serves the same handles. -/
theorem follows_same (h : s.chain.Has l) (hs : l.Sound) (hts : l.texts = m.texts)
    (hheld : List.Forall₂ l.Marks s.held m.held) (hc : c.Has l) :
    (s.withChain c).Follows m := by
  rw [withChain_of_stamp_eq (hc.stamp_eq.trans h.stamp_eq.symm)]
  exact ⟨l, hc, hs, hts, hheld⟩

/-- A list with another stamp serves no handle. -/
theorem follows_changed (hc : c.Holds ts stamp) (hstamp : stamp ≠ s.chain.stamp) :
    (s.withChain c).Follows (.ofTexts ts) := by
  have hne : c.stamp ≠ s.chain.stamp := hc.stamp_eq ▸ hstamp
  rw [withChain_of_stamp_ne hne]
  obtain ⟨l, hl, hs, rfl, -⟩ := hc
  exact ⟨l, hl, hs, rfl, .nil⟩

/-- A stamp that was advanced by less than a whole round is another one. -/
theorem stamp_add_ne (stamp : UInt64) {n : Nat} (hpos : 0 < n) (hn : n < 2 ^ 64) :
    stamp + UInt64.ofNat n ≠ stamp := by
  intro h
  have hzero : UInt64.ofNat n = 0 := by simpa using h
  have hnat := congrArg UInt64.toNat hzero
  rw [UInt64.toNat_ofNat_of_lt' (by simpa using hn)] at hnat
  simp at hnat
  omega

/-- One step of the stamp is enough. -/
theorem follows_touched (h : s.chain.Has l) (hc : c.Holds ts (l.stamp + 1)) :
    (s.withChain c).Follows (.ofTexts ts) :=
  follows_changed hc (h.stamp_eq ▸ stamp_add_ne l.stamp (n := 1) Nat.one_pos (by decide))

/-! ### Ends -/

theorem Side.uncons?_cons (side : Side) (t : Bytes) (ts : List Bytes) :
    side.uncons? (side.cons t ts) = some (t, ts) := by
  cases side with
  | head => rfl
  | tail => simp [Side.uncons?, Side.cons]

theorem follows_pop (h : s.Follows m) (side : Side) :
    Ensures (s.perform (.pop side)) fun r =>
      r.1.Follows (m.perform (.pop side)).1 ∧ r.2 = (m.perform (.pop side)).2 := by
  obtain ⟨l, hl, hs, hts, hheld⟩ := h
  rw [Session.perform, Ledger.perform, ← hts]
  by_cases hempty : l.texts = []
  · have hcount : s.chain.count = 0 := by
      rw [hl.count_eq, ← hs.length_texts, hempty, List.length_nil]
    have hnone : side.uncons? l.texts = none := by
      rw [hempty]
      cases side <;> rfl
    rw [Chain.pop_of_count_eq_zero hcount, hnone]
    exact ⟨follows_same hl hs hts hheld hl, rfl⟩
  · refine ((hl.holds hs).pop hempty side).bind fun r hr => ?_
    obtain ⟨c, v⟩ := r
    obtain ⟨v, ts', rfl, hsplit, hholds⟩ := hr
    rw [hsplit, Side.uncons?_cons]
    exact ⟨follows_touched hl hholds, rfl⟩

theorem follows_rotate (h : s.Follows m) :
    Ensures (s.perform .rotate) fun r =>
      r.1.Follows (m.perform .rotate).1 ∧ r.2 = (m.perform .rotate).2 := by
  obtain ⟨l, hl, hs, hts, hheld⟩ := h
  have hcount : s.chain.count = m.texts.length := by
    rw [hl.count_eq, ← hs.length_texts, hts]
  rw [Session.perform, Ledger.perform]
  by_cases hfew : m.texts.length ≤ 1
  · rw [Chain.rotate_of_count_le_one (hcount ▸ hfew), if_pos hfew]
    exact ⟨follows_same hl hs hts hheld hl, rfl⟩
  · rw [if_neg hfew]
    refine ((hl.holds hs).rotate (by rw [hts]; omega)).bind fun c hc => ?_
    obtain ⟨t, ts', hsplit, hholds⟩ := hc
    have htexts : m.texts.getLast?.toList ++ m.texts.dropLast = t :: ts' := by
      rw [← hts, hsplit]
      simp
    have hstamp : l.stamp + 1 + 1 ≠ s.chain.stamp := by
      rw [hl.stamp_eq, UInt64.add_assoc]
      exact stamp_add_ne l.stamp (n := 2) Nat.two_pos (by decide)
    rw [htexts]
    exact ⟨follows_changed hholds hstamp, rfl⟩

/-! ### Handles -/

/-- A handle of the session names the element at the place of the ledger. -/
theorem marks_of_held (hheld : List.Forall₂ l.Marks s.held m.held) (handle : Nat) :
    (s.held[handle]? = none ∧ m.held[handle]? = none) ∨
      ∃ h place, s.held[handle]? = some h ∧ m.held[handle]? = some place ∧ l.Marks h place := by
  have hlen := hheld.length_eq
  by_cases hlt : handle < s.held.length
  · refine .inr ⟨_, _, List.getElem?_eq_getElem hlt, List.getElem?_eq_getElem (hlen ▸ hlt), ?_⟩
    exact (List.forall₂_iff_get.mp hheld).2 handle hlt (hlen ▸ hlt)
  · exact .inl ⟨List.getElem?_eq_none (by omega), List.getElem?_eq_none (by omega)⟩

/-- Handles that are taken are handles that name. -/
theorem follows_hold (h : s.chain.Has l) (hs : l.Sound) (hts : l.texts = m.texts)
    (hheld : List.Forall₂ l.Marks s.held m.held) (hc : c.Has l) {handle : Handle} {place : Nat}
    (hmarks : l.Marks handle place) :
    ((s.withChain c).hold [handle]).Follows (m.hold [place]) := by
  rw [withChain_of_stamp_eq (hc.stamp_eq.trans h.stamp_eq.symm)]
  exact ⟨l, hc, hs, hts, List.rel_append hheld (.cons hmarks .nil)⟩

theorem follows_index (h : s.Follows m) (i : Int) :
    Ensures (s.perform (.index i)) fun r =>
      r.1.Follows (m.perform (.index i)).1 ∧ r.2 = (m.perform (.index i)).2 := by
  obtain ⟨l, hl, hs, hts, hheld⟩ := h
  have hplace : m.place? i = Packed.idxOf? l.count i := by
    rw [Ledger.place?, ← hts, hs.length_texts]
  rw [Session.perform, Ledger.perform, hplace]
  refine (hl.index hs i).bind fun r hr => ?_
  obtain ⟨c, found⟩ := r
  obtain ⟨hc, hfound⟩ := hr
  cases hi : Packed.idxOf? l.count i with
  | none =>
    rw [hi] at hfound
    obtain rfl : found = none := hfound
    have hsame := follows_same hl hs hts hheld hc
    exact ⟨by simpa [hold, Ledger.hold] using hsame, rfl⟩
  | some place =>
    rw [hi] at hfound
    obtain ⟨pre, x, post, k, handle, rfl, hnames, hpos⟩ := hfound
    refine ⟨follows_hold hl hs hts hheld hc ⟨pre, x, post, k, hnames, hpos⟩, ?_⟩
    have htext := Chain.getElem?_texts_of_names hs hnames
    rw [← hpos, hts] at htext
    simp [htext]

/-- A string inserted at a place is one between what is before and what is behind it. -/
theorem textsWith_eq_insertIdx {pre post : List Leaf} {x : Leaf} (hs : l.Sound)
    (hl : l.leaves = pre ++ x :: post) {j : Nat} (hj : j ≤ x.count) (t : Bytes) :
    Layout.textsWith pre x post j t = l.texts.insertIdx (Layout.total pre + j) t := by
  have hcount := hs.count_split hl
  rw [Chain.textsWith_eq hs hl hj, Packed.insertIdx_eq_take_drop _ (by rw [hs.length_texts]; omega)]

theorem follows_insertBeside (h : s.Follows m) (handle : Nat) (place : Place) (t : Bytes) :
    Ensures (s.perform (.insertBeside handle place t)) fun r =>
      r.1.Follows (m.perform (.insertBeside handle place t)).1 ∧
        r.2 = (m.perform (.insertBeside handle place t)).2 := by
  obtain ⟨l, hl, hs, hts, hheld⟩ := h
  rw [Session.perform, Ledger.perform]
  rcases marks_of_held hheld handle with ⟨hnone, hnone'⟩ | ⟨h, k, hsome, hsome', hmarks⟩
  · rw [hnone, hnone']
    exact ⟨⟨l, hl, hs, hts, hheld⟩, rfl⟩
  · obtain ⟨pre, x, post, j, hnames, rfl⟩ := hmarks
    rw [hsome, hsome']
    refine (hl.insertBeside hs hnames place t).bind fun c hc => ⟨?_, rfl⟩
    have hplace : place.cut (Layout.total pre + j) = Layout.total pre + place.cut j := by
      cases place <;> rfl
    rw [textsWith_eq_insertIdx hs hnames.leaves_eq (place.cut_le hnames.lt), hts, ← hplace] at hc
    exact follows_touched hl hc

theorem follows_replace (h : s.Follows m) (handle : Nat) (t : Bytes) :
    Ensures (s.perform (.replace handle t)) fun r =>
      r.1.Follows (m.perform (.replace handle t)).1 ∧
        r.2 = (m.perform (.replace handle t)).2 := by
  obtain ⟨l, hl, hs, hts, hheld⟩ := h
  rw [Session.perform, Ledger.perform]
  rcases marks_of_held hheld handle with ⟨hnone, hnone'⟩ | ⟨h, k, hsome, hsome', hmarks⟩
  · rw [hnone, hnone']
    exact ⟨⟨l, hl, hs, hts, hheld⟩, rfl⟩
  · obtain ⟨pre, x, post, j, hnames, rfl⟩ := hmarks
    rw [hsome, hsome']
    refine (hl.replace hs hnames t).bind fun c hc => ⟨?_, rfl⟩
    rw [hts] at hc
    exact follows_touched hl hc

theorem follows_replaceAt (h : s.Follows m) (i : Int) (t : Bytes) :
    Ensures (s.perform (.replaceAt i t)) fun r =>
      r.1.Follows (m.perform (.replaceAt i t)).1 ∧ r.2 = (m.perform (.replaceAt i t)).2 := by
  obtain ⟨l, hl, hs, hts, hheld⟩ := h
  have hplace : m.place? i = Packed.idxOf? l.count i := by
    rw [Ledger.place?, ← hts, hs.length_texts]
  rw [Session.perform, Ledger.perform, hplace]
  refine (hl.replaceAt hs i t).bind fun r hr => ?_
  obtain ⟨c, answer⟩ := r
  cases hi : Packed.idxOf? l.count i with
  | none =>
    rw [hi] at hr
    obtain ⟨rfl, hc⟩ : answer = false ∧ c.Has l := hr
    exact ⟨follows_same hl hs hts hheld hc, rfl⟩
  | some k =>
    rw [hi] at hr
    obtain ⟨rfl, hc⟩ : answer = true ∧ c.Holds (l.texts.set k t) (l.stamp + 1) := hr
    rw [hts] at hc
    exact ⟨follows_touched hl hc, rfl⟩

/-! ### Ranges and packed lists -/

theorem follows_eraseRange (h : s.Follows m) (start n : Int) :
    Ensures (s.perform (.eraseRange start n)) fun r =>
      r.1.Follows (m.perform (.eraseRange start n)).1 ∧
        r.2 = (m.perform (.eraseRange start n)).2 := by
  obtain ⟨l, hl, hs, hts, hheld⟩ := h
  have hplace : m.place? start = Packed.idxOf? l.count start := by
    rw [Ledger.place?, ← hts, hs.length_texts]
  rw [Session.perform, Ledger.perform, hplace]
  refine (hl.eraseRange hs start n).bind fun r hr => ?_
  obtain ⟨c, answer⟩ := r
  cases hi : if 0 < n then Packed.idxOf? l.count start else none with
  | none =>
    rw [hi] at hr
    obtain ⟨rfl, hc⟩ : answer = false ∧ c.Has l := hr
    exact ⟨follows_same hl hs hts hheld hc, rfl⟩
  | some k =>
    rw [hi] at hr
    obtain ⟨rfl, hc⟩ := hr
    rw [hts] at hc
    exact ⟨follows_touched hl hc, rfl⟩

/-- A packed list that is appended is appended to the sequence. -/
theorem follows_appendBlock (h : s.Follows m) {p : Packed} (hp : p.WellFormed) :
    Ensures (s.chain.appendBlock p) fun c => (s.withChain c).Follows (m.append p.texts) := by
  obtain ⟨l, hl, hs, hts, hheld⟩ := h
  refine (hl.appendBlock hs hp).imp fun c hc => ?_
  have hempty : p.isEmpty = true ↔ p.texts = [] := by
    rw [← List.length_eq_zero_iff, Packed.length_texts, Packed.isEmpty,
      Array.isEmpty_iff_size_eq_zero]
  rw [Ledger.append]
  split at hc
  · next hnone =>
    rw [if_pos (hempty.mp hnone)]
    exact follows_same hl hs hts hheld hc
  · next hsome =>
    rw [if_neg (mt hempty.mpr hsome), ← hts]
    exact follows_touched hl hc

/-- The elements of a packed list that are pushed are appended to the sequence. -/
theorem follows_pushAll (h : s.Follows m) {p : Packed} (hp : p.WellFormed) :
    Ensures (s.chain.pushAll p.values) fun c => (s.withChain c).Follows (m.append p.texts) := by
  obtain ⟨l, hl, hs, hts, hheld⟩ := h
  rw [Ledger.append]
  by_cases hnone : p.texts = []
  · have hvalues : p.values = [] := by simpa [Packed.texts] using hnone
    rw [hvalues, if_pos hnone]
    exact follows_same hl hs hts hheld hl
  · rw [if_neg hnone]
    refine ((hl.holds hs).pushAll p.values).imp fun c hc => ?_
    have hlen : p.values.length = p.texts.length := by simp [Packed.texts]
    have hpos : 0 < p.values.length := hlen ▸ List.length_pos_iff.mpr hnone
    have hlt : p.values.length < 2 ^ 64 := by
      have hentries := Packed.length_le_totalSize p.entries.toList
      have htotal := Packed.totalSize_lt hp.size_lt
      rw [hlen, Packed.length_texts]
      rw [Array.length_toList] at hentries
      simp only [Packed.sizeLimit] at htotal
      omega
    have htexts : l.texts ++ p.values.map Value.render = m.texts ++ p.texts := by
      rw [hts]
      rfl
    rw [htexts] at hc
    exact follows_changed hc (hl.stamp_eq ▸ stamp_add_ne l.stamp hpos hlt)

/-! ### Walks -/

/-- **A walk along a list** is a walk along the sequence. -/
theorem follows_follow {w : Walk} {pos : Nat} (h : s.chain.Has l) (hs : l.Sound)
    (hts : l.texts = m.texts) (hheld : List.Forall₂ l.Marks s.held m.held) (hw : w.Stands l pos)
    (script : List Bool) (met : List Bytes) :
    Ensures (Session.follow script w s met) fun r =>
      r.1.Follows (Ledger.follow w.origin script pos m met).1 ∧
        r.2 = (Ledger.follow w.origin script pos m met).2 := by
  induction script generalizing w s m l pos met with
  | nil =>
    rw [Session.follow]
    exact (hw.finish h).bind fun c hc => ⟨follows_same h hs hts hheld hc, rfl⟩
  | cons erasing script ih =>
    rw [Session.follow, Ledger.follow, ← hts, hs.length_texts]
    refine (hw.next h hs).bind fun r hr => ?_
    obtain ⟨w₁, c₁, found⟩ := r
    obtain ⟨horigin, h₁, hfound⟩ := hr
    dsimp only at horigin h₁ hfound
    cases hnext : w.origin.next? l.count pos with
    | none =>
      rw [hnext] at hfound
      obtain ⟨rfl, hover⟩ := hfound
      have hfinish : w₁.finish c₁ = .ok c₁ := by rw [Walk.finish, hover]
      simp only [hfinish, ok_bind]
      exact ⟨follows_same h hs hts hheld h₁, rfl⟩
    | some k =>
      rw [hnext] at hfound
      obtain ⟨pre, x, post, j, handle, rfl, hnames, rfl, hon⟩ := hfound
      have htext := Chain.getElem?_texts_of_names hs hnames
      have hl := hnames.leaves_eq
      have hmet : met ++ l.texts[Layout.total pre + j]?.toList = met ++ [handle.value.render] := by
        rw [htext]
        rfl
      cases erasing with
      | true =>
        have herase := hon.erase h₁ hs hl hnames.block_eq hnames.idx_eq
        refine herase.bind fun r hr => ?_
        obtain ⟨w₂, c₂, gone⟩ := r
        obtain ⟨horigin', l', h₂, hs', htexts, hstamp, hstands⟩ := hr
        have hfresh : s.withChain c₂ = ⟨c₂, []⟩ := by
          refine withChain_of_stamp_ne ?_
          rw [h₂.stamp_eq, hstamp, h.stamp_eq]
          exact stamp_add_ne l.stamp (n := 1) Nat.one_pos (by decide)
        have hgo := ih (s := ⟨c₂, []⟩) (m := .ofTexts l'.texts) h₂ hs' rfl .nil hstands
          (met ++ [handle.value.render])
        rw [horigin', horigin, htexts] at hgo
        simpa only [hfresh, hmet, if_true] using hgo
      | false =>
        have hstands := hon.stands hl
        have hsame : s.withChain c₁ = { s with chain := c₁ } :=
          withChain_of_stamp_eq (h₁.stamp_eq.trans h.stamp_eq.symm)
        have hgo := ih (s := ⟨c₁, s.held ++ [handle]⟩) (m := m.hold [Layout.total pre + j])
          h₁ hs hts (List.rel_append hheld (.cons ⟨pre, x, post, j, hnames, rfl⟩ .nil)) hstands
          (met ++ [handle.value.render])
        rw [horigin] at hgo
        simpa only [hsame, hmet, Bool.false_eq_true, if_false, hold] using hgo

/-- However it begins, a walk stands where the ledger begins. -/
theorem stands_begin (h : s.chain.Has l) (hs : l.Sound) (hts : l.texts = m.texts) (origin : Side)
    (i : Option Int) :
    Ensures (begin s.chain origin i) fun r => r.1.Has l ∧
      match m.begin? origin i with
      | none => r.2 = none
      | some pos => ∃ w, r.2 = some w ∧ w.origin = origin ∧ w.Stands l pos := by
  cases i with
  | none =>
    rw [begin, Ledger.begin?, ← hts, hs.length_texts]
    exact ⟨h, _, rfl, rfl, Walk.stands_ofEnd h hs origin⟩
  | some i =>
    refine (Walk.ofIndex_stands h hs origin i).imp fun r hr => ?_
    rw [Ledger.begin?, Ledger.place?, ← hts, hs.length_texts]
    cases hi : Packed.idxOf? l.count i with
    | none => simpa only [hi, Option.map_none] using hr
    | some pos => simpa only [hi, Option.map_some] using hr

/-- What looking up an element and following a script keep, a walk keeps. -/
theorem gives_walk {Q : Chain → Prop} (h : Q s.chain)
    (hfind : ∀ i, Gives (s.chain.find? i) (Q ·.1)) {script : List Bool}
    (hfollow : ∀ c w, Q c → Gives (follow script w (s.withChain c) []) (Q ·.1.chain))
    (origin : Side) (i : Option Int) :
    Gives (s.perform (.walk origin i script)) (Q ·.1.chain) := by
  have hbegin : Gives (begin s.chain origin i) (Q ·.1) := by
    cases i with
    | none => exact gives_ok.mpr h
    | some i =>
      rw [begin]
      unfold Walk.ofIndex
      refine (hfind i).bind fun r hr => ?_
      obtain ⟨c, found⟩ := r
      cases found with
      | none => exact gives_pure.mpr hr
      | some found => exact Gives.bind_any fun b => gives_pure.mpr hr
  rw [Session.perform]
  refine hbegin.bind fun r hr => ?_
  obtain ⟨c, w⟩ := r
  cases w with
  | none => exact gives_pure.mpr hr
  | some w => exact (hfollow c w hr).bind fun r hr => gives_pure.mpr hr

theorem follows_walk (h : s.Follows m) (origin : Side) (i : Option Int) (script : List Bool) :
    Ensures (s.perform (.walk origin i script)) fun r =>
      r.1.Follows (m.perform (.walk origin i script)).1 ∧
        r.2 = (m.perform (.walk origin i script)).2 := by
  obtain ⟨l, hl, hs, hts, hheld⟩ := h
  rw [Session.perform, Ledger.perform]
  refine (stands_begin hl hs hts origin i).bind fun r hr => ?_
  obtain ⟨c, w⟩ := r
  obtain ⟨hc, hw⟩ := hr
  cases hpos : m.begin? origin i with
  | none =>
    rw [hpos] at hw
    obtain rfl : w = none := hw
    exact ⟨follows_same hl hs hts hheld hc, rfl⟩
  | some pos =>
    rw [hpos] at hw
    obtain ⟨w, rfl, rfl, hstands⟩ := hw
    have hsame : s.withChain c = { s with chain := c } :=
      withChain_of_stamp_eq (hc.stamp_eq.trans hl.stamp_eq.symm)
    have hgo := follows_follow (s := { s with chain := c }) hc hs hts hheld hstands script []
    rw [← hsame] at hgo
    exact hgo.bind fun r hr => ⟨hr.1, by rw [hr.2]⟩

/-! ### Every action -/

/-- **An action does to the list what it does to the sequence**, and the reply is the
same. -/
theorem Follows.perform (h : s.Follows m) (a : Action) :
    Ensures (s.perform a) fun r => r.1.Follows (m.perform a).1 ∧ r.2 = (m.perform a).2 := by
  cases a with
  | pop side => exact follows_pop h side
  | index i => exact follows_index h i
  | insertBeside handle place t => exact follows_insertBeside h handle place t
  | replace handle t => exact follows_replace h handle t
  | replaceAt i t => exact follows_replaceAt h i t
  | eraseRange start n => exact follows_eraseRange h start n
  | rotate => exact follows_rotate h
  | walk origin i script => exact follows_walk h origin i script
  | append p => exact (follows_appendBlock h p.property).bind fun c hc => ⟨hc, rfl⟩
  | appendValues p => exact (follows_pushAll h p.property).bind fun c hc => ⟨hc, rfl⟩
  | appendBytes blob =>
    rw [Session.perform, Ledger.perform, Chain.appendBytes]
    cases hblob : Packed.ofBytes blob with
    | error d => exact ⟨h, rfl⟩
    | ok p =>
      have happend := follows_appendBlock h (Packed.wellFormed_of_ofBytes hblob).2
      refine Ensures.bind
        (q := fun r => ∃ c, r = .ok c ∧ (s.withChain c).Follows (m.append p.texts)) ?_ ?_
      · exact happend.bind fun c hc => ⟨c, rfl, hc⟩
      · rintro _ ⟨c, rfl, hc⟩
        exact ⟨hc, rfl⟩
  | push side t =>
    obtain ⟨l, hl, hs, hts, hheld⟩ := h
    rw [Session.perform, Ledger.perform, ← hts]
    exact ((hl.holds hs).push side t).bind fun r hr => ⟨follows_touched hl hr, rfl⟩
  | insertAtEnd place t =>
    obtain ⟨l, hl, hs, hts, hheld⟩ := h
    rw [Session.perform]
    unfold Chain.insert
    cases place with
    | before =>
      rw [Ledger.perform, ← hts]
      refine Ensures.bind (q := (·.Holds (t :: l.texts) (l.stamp + 1))) ?_ ?_
      · exact ((hl.holds hs).push .head t).bind fun r hr => hr
      · exact fun c hc => ⟨follows_touched hl hc, rfl⟩
    | after =>
      rw [Ledger.perform, ← hts]
      refine Ensures.bind (q := (·.Holds (l.texts ++ [t]) (l.stamp + 1))) ?_ ?_
      · exact ((hl.holds hs).push .tail t).bind fun r hr => hr
      · exact fun c hc => ⟨follows_touched hl hc, rfl⟩
  | get i =>
    obtain ⟨l, hl, hs, hts, hheld⟩ := h
    have hplace : m.place? i = Packed.idxOf? l.count i := by
      rw [Ledger.place?, ← hts, hs.length_texts]
    rw [Session.perform, Ledger.perform, hplace, ← hts]
    exact (hl.get? hs i).bind fun r hr => ⟨follows_same hl hs hts hheld hr.1, by rw [hr.2]⟩
  | setFill setting =>
    obtain ⟨l, hl, hs, hts, hheld⟩ := h
    exact ⟨follows_same hl hs hts hheld (hl.withOptions _ _), rfl⟩
  | setDepth depth =>
    obtain ⟨l, hl, hs, hts, hheld⟩ := h
    exact ⟨follows_same hl hs hts hheld (hl.withOptions _ _), rfl⟩
  | duplicate =>
    obtain ⟨l, hl, hs, hts, -⟩ := h
    exact ⟨⟨l.duplicate, hl.duplicate, hs.duplicate, l.texts_duplicate.trans hts, .nil⟩, rfl⟩

/-- **So do several actions.** -/
theorem Follows.run (h : s.Follows m) (as : List Action) :
    Ensures (s.run as) fun r => r.1.Follows (m.run as).1 ∧ r.2 = (m.run as).2 := by
  induction as generalizing s m with
  | nil => exact ⟨h, rfl⟩
  | cons a as ih =>
    rw [Session.run]
    refine (h.perform a).bind fun r hr => ?_
    refine (ih hr.1).bind fun r' hr' => ⟨hr'.1, ?_⟩
    rw [Ledger.run, hr'.2, hr.2]

/-- The empty list follows the empty ledger, whatever its options. -/
theorem follows_ofOptions (setting depth : Int) : (ofOptions setting depth).Follows {} := by
  refine ⟨⟨[], [], 0, 0, 0⟩, ⟨.nil, rfl, rfl, rfl, rfl, Arena.orders_empty⟩,
    ⟨?_, ?_, rfl, .refl _⟩, rfl, .nil⟩
  · exact fun x hx => absurd hx List.not_mem_nil
  · exact fun x hx => absurd hx List.not_mem_nil

/-! ### Where a run stops -/

/-- A string whose block the compressor fails on. -/
def crowded : Bytes :=
  (List.range 154).map UInt8.ofNat ++ List.replicate 5 255

theorem toBytes_crowded : (Packed.empty.push crowded).toBytes = Lzf.overrunning := by
  decide +kernel

/-- Attempting to compress the block fails. -/
theorem compress_crowded (size count : Nat) (pending tried : Bool)
    (h : Block.minCompressSize ≤ size) :
    Block.compress ⟨.plain (Packed.empty.push crowded), size, count, pending, tried⟩ =
      .error .outputOverrun := by
  simp only [Block.compress, Block.worthwhile?, toBytes_crowded, Lzf.compress?_overrunning,
    if_neg (Nat.not_lt.mpr h)]

/-- The block of one string, plain and not tried. -/
def plainBlock (t : Bytes) : Block where
  content := .plain (Packed.empty.push t)
  size := (Packed.empty.push t).size
  count := 1

/-- A chain of plain blocks of one string each, with a depth of one. -/
def plainBlocks (texts : List Bytes) (count : Nat) : Chain where
  cells := texts.toArray.mapIdx fun i t => ⟨⟨i⟩, plainBlock t⟩
  arena := .row texts.length
  count := count
  fill := .entries 1
  depth := 1
  stamp := UInt64.ofNat count

theorem run_cons_eq_error {s s' : Session} {a : Action} {as : List Action} {r : Reply} {f : Fault}
    (hfirst : s.perform a = .ok (s', r)) (hrest : s'.run as = .error f) :
    s.run (a :: as) = .error f := by
  rw [run, hfirst, ok_bind]
  dsimp only
  rw [hrest, error_bind]

/-- A push that needs a block of its own stops where linking it stops. -/
theorem push_eq_error {c c' : Chain} {side : Side} {t : Bytes} {b : Block} {id : BlockId}
    {f : Fault} (hfull : c.admittingEnd? side t.length = .ok none)
    (hblock : Block.singleton t = .ok b) (hid : c.takeId = (id, c'))
    (hlink : c'.linkAt side ⟨id, b⟩ = .error f) :
    c.push side t = .error f := by
  simp only [Chain.push, hfull, ok_bind, hblock, hid, hlink, error_bind]

/-- Restoring the boundaries stops where a block inside cannot be compressed. -/
theorem enforce_eq_error {c c' : Chain} {touched : Option Nat} {depth n : Nat} {f : Fault}
    (hdepth : c.depth = depth) (hlength : c.length = n) (hinside : ¬ (depth = 0 ∨ n < 2 * depth))
    (houter : c.modifyBlocks Block.keepPlain (Chain.outerIdxs depth n) = .ok c')
    (hinner : c'.modifyBlocks Block.compress (Chain.innerIdxs depth n touched) = .error f) :
    c.enforce touched = .error f := by
  subst hdepth hlength
  simp only [Chain.enforce, if_neg hinside, houter, ok_bind, hinner]

/-- A change of a block that is not to be closed stops where restoring the boundaries stops. -/
theorem recompress_eq_error {c : Chain} {b : Block} {i : Nat} {f : Fault}
    (hblock : c.block i = .ok b) (hsettled : b.pending = false)
    (henforce : c.enforce (some i) = .error f) : c.recompress i = .error f := by
  simp only [Chain.recompress, hblock, ok_bind, hsettled, henforce, Bool.false_eq_true, if_false]

/-- Linking a block at the tail is a change of the block that was there. -/
theorem linkAt_tail_eq_error {c c' : Chain} {new : Cell} {i : Nat} {f : Fault}
    (hend : c.endIdx? .tail = some i) (hlink : c.linkCell (some i) .after new = .ok c')
    (hrecompress : c'.recompress i = .error f) : c.linkAt .tail new = .error f := by
  simp only [Chain.linkAt, hend, Side.place, Chain.linkBeside, hlink, ok_bind, hrecompress,
    error_bind]

theorem modifyBlocks_eq_error {c : Chain} {i : Nat} {rest : List Nat} {cell : Cell} {f : Fault}
    {change : Block → Except Fault Block} (hcell : c.cells[i]? = some cell)
    (hchange : change cell.block = .error f) : c.modifyBlocks change (i :: rest) = .error f := by
  obtain ⟨hlt, rfl⟩ := Array.getElem?_eq_some_iff.mp hcell
  rw [Chain.modifyBlocks, Chain.modifyBlock_eq c hlt, hchange]
  rfl

/-- With a depth of one, the second of three blocks lies inside, and is compressed when the
boundaries are restored. -/
theorem enforce_crowded {c : Chain} {touched : Option Nat} {rest : List Nat}
    (hcells : c.cells = (plainBlocks [[97], crowded, [98]] 3).cells) (hdepth : c.depth = 1)
    (hidxs : Chain.innerIdxs 1 3 touched = 1 :: rest) :
    c.enforce touched = .error .outputOverrun := by
  have hlength : c.length = 3 := by
    rw [Chain.length, hcells]
    rfl
  have hcell : c.cells[1]? = some ⟨⟨1⟩, plainBlock crowded⟩ := by
    rw [hcells]
    rfl
  have houter : c.modifyBlocks Block.keepPlain (Chain.outerIdxs 1 3) = .ok c := by
    obtain ⟨cells, arena, count, fill, depth, stamp⟩ := c
    obtain rfl : cells = _ := hcells
    rfl
  have hcompress : (plainBlock crowded).compress = .error .outputOverrun :=
    compress_crowded _ _ _ _ (by decide +kernel)
  have hinner : c.modifyBlocks Block.compress (Chain.innerIdxs 1 3 touched) =
      .error .outputOverrun := by
    rw [hidxs]
    exact modifyBlocks_eq_error hcell hcompress
  exact enforce_eq_error hdepth hlength (by decide) houter hinner

/-- It is compressed after a change of it as after a change of the first one. -/
theorem recompress_crowded (n : Nat) {i : Nat} (hi : i < 2) :
    (plainBlocks [[97], crowded, [98]] n).recompress i = .error .outputOverrun := by
  obtain ⟨t, hblock, rest, hidxs⟩ : ∃ t,
      (plainBlocks [[97], crowded, [98]] n).block i = .ok (plainBlock t) ∧
        ∃ rest, Chain.innerIdxs 1 3 (some i) = 1 :: rest := by
    rcases Nat.lt_or_eq_of_le (Nat.le_of_lt_succ hi) with hzero | rfl
    · obtain rfl := Nat.lt_one_iff.mp hzero
      exact ⟨[97], rfl, [1], rfl⟩
    · exact ⟨crowded, rfl, [1, 1], rfl⟩
  exact recompress_eq_error hblock rfl (enforce_crowded rfl rfl hidxs)

/-- A third block draws the second one inside. -/
theorem linkAt_crowded :
    (plainBlocks [[97], crowded] 2).takeId.2.linkAt .tail ⟨⟨2⟩, plainBlock [98]⟩ =
      .error .outputOverrun := by
  have hend : (plainBlocks [[97], crowded] 2).takeId.2.endIdx? .tail = some 1 := by decide +kernel
  have hlink : (plainBlocks [[97], crowded] 2).takeId.2.linkCell (some 1) .after
      ⟨⟨2⟩, plainBlock [98]⟩ = .ok (plainBlocks [[97], crowded, [98]] 2) := by
    decide +kernel
  exact linkAt_tail_eq_error hend hlink (recompress_crowded 2 Nat.one_lt_two)

/-! ### Every run -/

/-- **A list is a sequence.** Whatever is asked of it, under whatever options, it replies as
a sequence of strings would, holds these strings from head to tail, and counts them. -/
theorem run_refines (setting depth : Int) (as : List Action) :
    Ensures ((ofOptions setting depth).run as) fun r =>
      r.2 = (Ledger.run as {}).2 ∧ r.1.chain.texts = (Ledger.run as {}).1.texts ∧
        r.1.chain.count = (Ledger.run as {}).1.texts.length := by
  refine ((follows_ofOptions setting depth).run as).imp fun r hr => ?_
  obtain ⟨⟨l, hl, hs, hts, -⟩, hreplies⟩ := hr
  refine ⟨hreplies, hl.texts_eq.trans hts, ?_⟩
  rw [hl.count_eq, ← hs.length_texts, hts]

/-- **Not every run gives a result.** The compressor fails on the second block when a third
one is pushed. -/
theorem run_overrun :
    (ofOptions 1 1).run [.push .tail [97], .push .tail crowded, .push .tail [98]] =
      .error .outputOverrun := by
  have hfirst : (ofOptions 1 1).perform (.push .tail [97]) =
      .ok (⟨plainBlocks [[97]] 1, []⟩, .done) := by
    decide +kernel
  have hsecond : Session.perform ⟨plainBlocks [[97]] 1, []⟩ (.push .tail crowded) =
      .ok (⟨plainBlocks [[97], crowded] 2, []⟩, .done) := by
    decide +kernel
  have hfull : (plainBlocks [[97], crowded] 2).admittingEnd? .tail ([98] : Bytes).length =
      .ok none := by
    decide +kernel
  have hblock : Block.singleton [98] = .ok (plainBlock [98]) := by decide +kernel
  have hid : (plainBlocks [[97], crowded] 2).takeId =
      (⟨2⟩, (plainBlocks [[97], crowded] 2).takeId.2) := rfl
  have hthird := push_eq_error hfull hblock hid linkAt_crowded
  refine run_cons_eq_error hfirst (run_cons_eq_error hsecond ?_)
  rw [run, perform, hthird, error_bind, error_bind]

end Session

end UnrolledList
