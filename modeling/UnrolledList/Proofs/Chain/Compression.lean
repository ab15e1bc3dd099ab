import UnrolledList.Proofs.Chain.Refinement
import UnrolledList.Proofs.Chain.Upkeep

/-!
# Which blocks are compressed

**The boundaries of compression hold after every run**
(`UnrolledList.Session.run_keepsBoundaries`), as long as the caller does not move them. On the
outer side of a boundary a block is plain; inside, it is compressed or was tried, or it is
open, and it is open only where an element was looked up by its index and then left alone. If
every such element is used at once (`UnrolledList.Ledger.Prompt`), no block is open.

What an action finds is a list that is settled, or one with the block open that holds a
certain element (`UnrolledList.Chain.HeldAt`), and then the action is one that works on this
element. Which block that is the list says itself, so it need not be known how the list is
laid out.
-/

namespace UnrolledList

/-! ### Walks -/

/-- The list is settled but for the block that the walk is in, and if the walk has a place
there, that block is expanded. -/
def Walk.Minds (w : Walk) (c : Chain) (depth : Nat) (P : BlockId → Prop) : Prop :=
  match w.current with
  | none => c.Settled depth P
  | some i => if w.place.isSome = true then c.Ready depth P i else c.Held depth P i

namespace Walk

variable {c : Chain} {w : Walk} {depth i : Nat} {P : BlockId → Prop}

theorem minds_of_settled (h : c.Settled depth P) (hplace : w.place = none) :
    w.Minds c depth P := by
  unfold Minds
  split
  · exact h
  · rw [hplace]
    exact h.held _

theorem Minds.held (h : w.Minds c depth P) (hi : w.current = some i) : c.Held depth P i := by
  simp only [Minds, hi] at h
  split at h
  · exact h.held
  · exact h

/-- Where a walk has a place, its block is expanded already. -/
theorem Minds.openBlock (h : w.Minds c depth P) (hi : w.current = some i) :
    Gives (w.openBlock c i) (·.Ready depth P i) := by
  unfold Walk.openBlock
  cases hplace : w.place with
  | none => exact (h.held hi).openForUse
  | some place =>
    simp only [Minds, hi, hplace] at h
    exact Chain.Ready.rewrite h Block.rewrites_inflate

/-- **A walk goes on** and minds the block that it leaves. -/
theorem Minds.nextAmong (h : w.Minds c depth P) (blocks : Nat) :
    Gives (nextAmong blocks w c) fun r =>
      r.1.Minds r.2.1 depth P ∧ (r.2.2.isSome = true → r.1.place.isSome = true) := by
  induction blocks generalizing w c with
  | zero => exact gives_ok.mpr ⟨h, fun hsome => by contradiction⟩
  | succ blocks ih =>
    rw [Walk.nextAmong]
    split
    · exact gives_ok.mpr ⟨h, fun hsome => by contradiction⟩
    · next i hi =>
      refine (h.openBlock hi).bind fun c₁ h₁ => ?_
      refine Gives.bind_any fun b => ?_
      refine Gives.bind_any fun p => ?_
      have hcurrent : (w.advance p).current = some i := by rw [current_advance, hi]
      cases hplace : (w.advance p).place with
      | none =>
        simp only [handle?, hplace, ok_bind]
        refine h₁.held.recompress.bind fun c₂ h₂ => ?_
        exact ih (minds_of_settled h₂ rfl)
      | some place =>
        have hminds : (w.advance p).Minds c₁ depth P := by
          simp only [Minds, hcurrent, hplace]
          exact h₁
        refine Gives.bind_any fun found => ?_
        cases found with
        | some handle => exact gives_pure.mpr ⟨hminds, fun _ => by rw [hplace]; rfl⟩
        | none =>
          refine (hminds.held hcurrent).recompress.bind fun c₂ h₂ => ?_
          exact ih (minds_of_settled h₂ rfl)

theorem Minds.next (h : w.Minds c depth P) :
    Gives (w.next c) fun r =>
      r.1.Minds r.2.1 depth P ∧ (r.2.2.isSome = true → r.1.place.isSome = true) :=
  h.nextAmong _

theorem Minds.finish (h : w.Minds c depth P) : Gives (w.finish c) (·.Settled depth P) := by
  unfold Walk.finish
  split
  · next i hi => exact (h.held hi).recompress
  · next hi =>
    simp only [Minds, hi] at h
    exact gives_ok.mpr h

/-- The element to be erased is where the walk is. -/
theorem Minds.erase (h : w.Minds c depth P) (hplace : w.place.isSome = true) (handle : Handle) :
    Gives (w.erase c handle) fun r => r.1.Minds r.2.1 depth P := by
  unfold Walk.erase
  split
  · exact gives_error
  · next i hi =>
    split
    · have hready : c.Ready depth P i := by simpa [Minds, hi, hplace] using h
      have hmod : ∀ f, Block.Rewrites f → Gives (c.modifyBlock i f) (·.Ready depth P i) :=
        fun f hf => hready.rewrite hf
      refine (Chain.gives_eraseAt hmod (fun _ h₁ => h₁.held.unlink) (fun _ n h₁ => h₁.withCount n)
        (fun _ n h₁ => h₁.withCount n) handle.place.idx).bind fun r hr => ?_
      obtain ⟨c₁, gone⟩ := r
      refine gives_pure.mpr ?_
      cases gone with
      | true =>
        cases horigin : w.origin with
        | head => exact minds_of_settled (Chain.Settled.touch hr) rfl
        | tail => exact minds_of_settled (Chain.Settled.touch hr) rfl
      | false =>
        have hheld : c₁.touch.Held depth P i := by
          obtain ⟨n, hn⟩ := Chain.Ready.held hr
          exact ⟨n, hn.touch⟩
        simpa [Minds, hi] using hheld
    · exact gives_error

end Walk

namespace Chain

variable {c : Chain} {l : Layout} {depth k : Nat} {P : BlockId → Prop}
  {pre pre' post post' : List Leaf} {x x' : Leaf}

/-! ### Open blocks and their names -/

/-- The block with the name is there, and it is open. -/
def HasOpen (c : Chain) (id : BlockId) : Prop :=
  ∃ i, ∃ h : i < c.cells.size, c.cells[i].id = id ∧ c.cells[i].block.pending = true

/-- The exception for a block is one for its name. -/
theorem Held.settled {i : Nat} {id : BlockId} (h : c.Held depth P i) (hid : c.id? i = some id) :
    c.Settled depth fun id' => P id' ∨ id' = id := by
  obtain ⟨n, h⟩ := h
  refine ⟨n, h.depth_eq, h.length_eq, fun j hj => (h.each j hj).imp (Or.imp_right ?_) fun hf => hf⟩
  rintro rfl
  simpa [id?, hj] using hid

/-- Only what is open has to be an exception. -/
theorem Settled.hasOpen (h : c.Settled depth P) : c.Settled depth c.HasOpen := by
  obtain ⟨n, h⟩ := h
  refine ⟨n, h.depth_eq, h.length_eq, fun j hj => ⟨(h.each j hj).outer, fun hin => ?_⟩⟩
  exact ((h.each j hj).inner hin).imp_right (.imp_left fun ho => ⟨⟨j, hj, rfl, ho.2.marked⟩, ho.2⟩)

/-- And what is open is an exception. -/
theorem Settled.of_hasOpen {id : BlockId} (h : c.Settled depth P) (hid : c.HasOpen id) : P id := by
  obtain ⟨n, h⟩ := h
  obtain ⟨j, hj, rfl, hmarked⟩ := hid
  exact ((h.each j hj).isOpen hmarked).2.1

/-! ### Elements and their blocks -/

/-- The block that holds element number `k` may be open, and, if `P`, so may others. -/
def HeldAt (c : Chain) (depth : Nat) (P : BlockId → Prop) (k : Nat) : Prop :=
  ∃ i offset, c.locate? k = some (i, offset) ∧ c.Held depth P i

/-- An element is in one block only. -/
theorem length_eq_of_total_eq {k' : Nat} (hl : pre ++ x :: post = pre' ++ x' :: post')
    (hk : k < x.count) (hk' : k' < x'.count)
    (htotal : Layout.total pre + k = Layout.total pre' + k') :
    pre.length = pre'.length := by
  rcases List.append_eq_append_iff.mp hl with ⟨mid, rfl, hmid⟩ | ⟨mid, rfl, hmid⟩
  · cases mid with
    | nil => simp
    | cons y mid =>
      obtain ⟨rfl, -⟩ := List.cons.inj hmid
      rw [Layout.total_append, Layout.total_cons] at htotal
      omega
  · cases mid with
    | nil => simp
    | cons y mid =>
      obtain ⟨rfl, -⟩ := List.cons.inj hmid
      rw [Layout.total_append, Layout.total_cons] at htotal
      omega

/-- Every index of an element leads to its block. -/
theorem Has.locate?_of_leaves (h : c.Has l) (hs : l.Sound) (hl : l.leaves = pre ++ x :: post)
    (hk : k < x.count) {index : Int}
    (hindex : Packed.idxOf? l.count index = some (Layout.total pre + k)) :
    ∃ offset, c.locate? index = some (pre.length, offset) := by
  obtain ⟨pre', x', post', k', offset, hl', htotal, hk', -, hlocate⟩ := h.locate?_eq hs hindex
  rw [length_eq_of_total_eq (hl.symm.trans hl') hk hk' htotal]
  exact ⟨offset, hlocate⟩

/-- **The block of an element is the one that may be open.** -/
theorem Has.held (h : c.Has l) (hs : l.Sound) (hl : l.leaves = pre ++ x :: post) (hk : k < x.count)
    (hopen : c.Settled depth P ∨ c.HeldAt depth P (Layout.total pre + k)) :
    c.Held depth P pre.length := by
  rcases hopen with hsettled | ⟨i, offset, hi, hheld⟩
  · exact hsettled.held _
  · have hlt : Layout.total pre + k < l.count := by
      rw [hs.count_eq, hl, Layout.total_append, Layout.total_cons]
      omega
    obtain ⟨offset', hlocate⟩ := h.locate?_of_leaves hs hl hk (Packed.idxOf?_natCast hlt)
    obtain ⟨rfl, -⟩ := Prod.mk.inj (Option.some.inj (hi.symm.trans hlocate))
    exact hheld

/-- A lookup finds the element, and its block is the one that is ready. -/
theorem Has.find?_ready (h : c.Has l) (hs : l.Sound) {index : Int} {pos : Nat}
    (hindex : Packed.idxOf? l.count index = some pos)
    (hopen : c.Settled depth P ∨ c.HeldAt depth P pos) :
    Gives (c.find? index) fun r => ∃ i handle, r.2 = some (i, handle) ∧ r.1.Ready depth P i ∧
      i < r.1.length ∧ r.1.id? i = some handle.block ∧ r.1.HeldAt depth P pos := by
  obtain ⟨pre, x, post, k, offset, hl, rfl, hk, -, hlocate⟩ := h.locate?_eq hs hindex
  have hheld := h.held hs hl hk hopen
  refine ((hheld.find? hlocate).and (h.find?_eq hs hindex).gives).imp fun r hr => ?_
  obtain ⟨⟨hready, hlt, hsame⟩, h₁, pre', x', post', k', handle, hsome, hnames, -⟩ := hr
  have hid : r.1.id? pre'.length = some handle.block := by
    rw [hnames.block_eq, h₁.id?_eq hnames.leaves_eq]
  have hpre := hsame _ _ hsome
  rw [hpre] at hsome hid
  refine ⟨_, handle, hsome, hready, hlt, hid, ?_⟩
  have hcount : Layout.total pre + k < l.count := Packed.lt_of_idxOf? hindex
  obtain ⟨offset', hlocate'⟩ := h₁.locate?_of_leaves hs hl hk (Packed.idxOf?_natCast hcount)
  exact ⟨pre.length, offset', hlocate', hready.held⟩

/-! ### Actions that look an element up -/

variable {index : Int}

/-- **Reading an element** closes its block again, also if it was open. -/
theorem Has.get?_settled (h : c.Has l) (hs : l.Sound)
    (hopen : c.Settled depth P ∨
      ∃ pos, Packed.idxOf? l.count index = some pos ∧ c.HeldAt depth P pos) :
    Gives (c.get? index) (·.1.Settled depth P) := by
  unfold Chain.get?
  cases hindex : Packed.idxOf? l.count index with
  | none =>
    rw [h.find?_eq_none hindex]
    rcases hopen with hsettled | ⟨pos, hpos, -⟩
    · exact gives_ok.mpr hsettled
    · simp [hindex] at hpos
  | some pos =>
    have hat : c.Settled depth P ∨ c.HeldAt depth P pos := by
      refine hopen.imp_right fun hnext => ?_
      obtain ⟨pos', hpos, hheld⟩ := hnext
      obtain rfl := Option.some.inj (hindex.symm.trans hpos)
      exact hheld
    refine (h.find?_ready hs hindex hat).bind fun r hr => ?_
    obtain ⟨c₁, found⟩ := r
    obtain ⟨i, handle, rfl, hready, -⟩ := hr
    exact hready.held.settle.bind fun c₂ h₂ => gives_pure.mpr h₂

theorem Has.replaceAt_settled (h : c.Has l) (hs : l.Sound) (hc : c.Settled depth P) (index : Int)
    (t : Bytes) : Gives (c.replaceAt index t) (·.1.Settled depth P) := by
  unfold Chain.replaceAt
  cases hindex : Packed.idxOf? l.count index with
  | none =>
    rw [h.find?_eq_none hindex]
    exact gives_ok.mpr hc
  | some pos =>
    refine (h.find?_ready hs hindex (.inl hc)).bind fun r hr => ?_
    obtain ⟨c₁, found⟩ := r
    obtain ⟨i, handle, rfl, hready, -⟩ := hr
    exact (hready.held.overwrite handle.place.idx t).bind fun c₂ h₂ => gives_pure.mpr h₂

/-- A range that begins at an element is not empty. -/
theorem rangeLength_pos {count n : Nat} {start : Int} {pos : Nat}
    (h : Packed.idxOf? count start = some pos) (hn : 0 < n) : 0 < rangeLength count start n := by
  have hlt := Packed.lt_of_idxOf? h
  rw [rangeLength_eq h]
  omega

theorem Has.eraseRange_settled (h : c.Has l) (hs : l.Sound) (hc : c.Settled depth P)
    (start n : Int) : Gives (c.eraseRange start n) (·.1.Settled depth P) := by
  unfold Chain.eraseRange
  split
  · exact gives_ok.mpr hc
  · next hn =>
    cases hindex : Packed.idxOf? l.count start with
    | none =>
      rw [h.find?_eq_none hindex]
      exact gives_ok.mpr hc
    | some pos =>
      have hextent := rangeLength_pos (h.count_eq.symm ▸ hindex) (show 0 < n.toNat by omega)
      refine (h.find?_ready hs hindex (.inl hc)).bind fun r hr => ?_
      obtain ⟨c₁, found⟩ := r
      obtain ⟨i, handle, rfl, hready, hlt, -⟩ := hr
      -- something is erased from the block that was opened
      have hnone : c₁.length - i = 0 ∨ rangeLength c.count start n.toNat = 0 →
          c₁.Settled depth P := by
        dsimp only at hlt
        omega
      exact (hready.held.eraseFrom hnone handle.offset).bind fun c₂ h₂ => gives_pure.mpr h₂.touch

/-- **A walk begins** in a block that it minds. -/
theorem Has.begin_minds (h : c.Has l) (hs : l.Sound) (hc : c.Settled depth P) (origin : Side)
    (index : Option Int) :
    Gives (Session.begin c origin index) fun r =>
      match r.2 with
      | none => r.1.Settled depth P
      | some w => w.Minds r.1 depth P := by
  cases index with
  | none => exact gives_ok.mpr (Walk.minds_of_settled hc rfl)
  | some index =>
    rw [Session.begin]
    unfold Walk.ofIndex
    cases hindex : Packed.idxOf? l.count index with
    | none =>
      rw [h.find?_eq_none hindex]
      exact gives_ok.mpr hc
    | some pos =>
      refine (h.find?_ready hs hindex (.inl hc)).bind fun r hr => ?_
      obtain ⟨c₁, found⟩ := r
      obtain ⟨i, handle, rfl, hready, -⟩ := hr
      refine Gives.bind_any fun b => ?_
      exact gives_pure.mpr hready.held

end Chain

/-! ### Actions -/

/-- Whether the action goes on with the same list under the same depth. -/
def Action.keepsDepth : Action → Bool
  | .setDepth _ | .duplicate => false
  | _ => true

namespace Ledger

/-- The place of the element that an action looks up and leaves open. -/
def opens? (m : Ledger) : Action → Option Nat
  | .index i => m.place? i
  | _ => none

/-- The place of the element that an action works on and closes. -/
def closes? (m : Ledger) : Action → Option Nat
  | .get i => m.place? i
  | .insertBeside handle _ _ | .replace handle _ => m.held[handle]?
  | _ => none

/-- Every element that an action leaves open is closed by the next one. -/
def Prompt : List Action → Ledger → Prop
  | [], _ => True
  | a :: as, m =>
    let m' := (m.perform a).1
    (m.opens? a = none ∨ as.head?.bind m'.closes? = m.opens? a) ∧ Prompt as m'

instance decidablePrompt : (as : List Action) → (m : Ledger) → Decidable (Prompt as m)
  | [], _ => isTrue trivial
  | _ :: as, _ =>
    have := decidablePrompt as
    inferInstanceAs (Decidable (_ ∧ _))

end Ledger

namespace Session

variable {s : Session} {m : Ledger} {depth : Nat} {P : BlockId → Prop} {a : Action}
  {as : List Action}

/-- Every block fits its place, except for what the next action closes, and, if `P`, for
others that are open. -/
def Expects (s : Session) (m : Ledger) (depth : Nat) (P : BlockId → Prop)
    (next : Option Action) : Prop :=
  s.chain.Settled depth P ∨
    ∃ k, next.bind m.closes? = some k ∧ s.chain.HeldAt depth P k

/-- An action that closes nothing finds the list settled. -/
theorem Expects.settled (h : s.Expects m depth P (some a)) (ha : m.closes? a = none) :
    s.chain.Settled depth P := by
  rcases h with h | ⟨k, hk, -⟩
  · exact h
  · rw [Option.bind_some, ha] at hk
    contradiction

/-- A handle leads to the block that may be open. -/
theorem Expects.held {l : Layout} {handle : Handle} {number k : Nat}
    (h : s.Expects m depth P (some a)) (hl : s.chain.Has l) (hs : l.Sound)
    (ha : m.closes? a = m.held[number]?) (hk : m.held[number]? = some k)
    (hmarks : l.Marks handle k) :
    ∃ i, s.chain.idxOf handle.block = .ok i ∧ s.chain.Held depth P i := by
  obtain ⟨pre, x, post, j, hnames, rfl⟩ := hmarks
  refine ⟨pre.length, ?_, hl.held hs hnames.leaves_eq hnames.lt (h.imp_right fun hnext => ?_)⟩
  · rw [hnames.block_eq, hl.idxOf_eq hs hnames.leaves_eq]
  · obtain ⟨k, hclose, hat⟩ := hnext
    rw [Option.bind_some, ha, hk] at hclose
    obtain rfl := Option.some.inj hclose
    exact hat

/-- A walk that minds its block leaves the list settled, wherever its script ends. -/
theorem settled_follow {w : Walk} (h : w.Minds s.chain depth P) (script : List Bool)
    (met : List Bytes) : Gives (follow script w s met) (·.1.chain.Settled depth P) := by
  induction script generalizing w s met with
  | nil => exact h.finish.bind fun c hc => gives_pure.mpr hc
  | cons erasing script ih =>
    rw [follow]
    refine h.next.bind fun r hr => ?_
    obtain ⟨w₁, c₁, found⟩ := r
    obtain ⟨h₁, hplace⟩ := hr
    cases found with
    | none => exact h₁.finish.bind fun c hc => gives_pure.mpr hc
    | some handle =>
      cases erasing with
      | true => exact (h₁.erase (hplace rfl) handle).bind fun r hr => ih hr _
      | false => exact ih h₁ _

/-- **Every action leaves the list settled** but for what it leaves open, and it closes what
was left open for it. -/
theorem Follows.keeps (h : s.Follows m) (ha : a.keepsDepth) (hopen : s.Expects m depth P (some a)) :
    Gives (s.perform a) fun r =>
      match m.opens? a with
      | none => r.1.chain.Settled depth P
      | some k => r.1.chain.HeldAt depth P k ∧ ∃ handle, r.1.held.getLast? = some handle ∧
          r.1.chain.Settled depth fun id => P id ∨ id = handle.block := by
  obtain ⟨l, hl, hs, hts, hheld⟩ := h
  have hplace : ∀ i, m.place? i = Packed.idxOf? l.count i := fun i => by
    rw [Ledger.place?, ← hts, hs.length_texts]
  cases a with
  | push side t => exact ((hopen.settled rfl).push side t).bind fun r hr => gives_pure.mpr hr
  | pop side => exact ((hopen.settled rfl).pop side).bind fun r hr => gives_pure.mpr hr
  | rotate => exact (hopen.settled rfl).rotate.bind fun c hc => gives_pure.mpr hc
  | append p => exact ((hopen.settled rfl).appendBlock p.val).bind fun c hc => gives_pure.mpr hc
  | appendValues p =>
    exact ((hopen.settled rfl).pushAll p.val.values).bind fun c hc => gives_pure.mpr hc
  | setFill setting =>
    obtain ⟨n, hn⟩ := hopen.settled rfl
    exact gives_ok.mpr ⟨n, hn.depth_eq, hn.length_eq, hn.each⟩
  | setDepth depth => contradiction
  | duplicate => contradiction
  | insertAtEnd place t =>
    exact ((hopen.settled rfl).insertAtEnd place t).bind fun c hc => gives_pure.mpr hc
  | replaceAt i t =>
    exact (hl.replaceAt_settled hs (hopen.settled rfl) i t).bind fun r hr => gives_pure.mpr hr
  | eraseRange start n =>
    exact (hl.eraseRange_settled hs (hopen.settled rfl) start n).bind fun r hr => gives_pure.mpr hr
  | appendBytes blob =>
    have hsettled := hopen.settled rfl
    rw [Session.perform, Chain.appendBytes]
    cases Packed.ofBytes blob with
    | error d => exact gives_ok.mpr hsettled
    | ok p =>
      refine Gives.bind (q := fun r => ∃ c, r = .ok c ∧ c.Settled depth P) ?_ ?_
      · exact (hsettled.appendBlock p).bind fun c hc => gives_pure.mpr ⟨c, rfl, hc⟩
      · rintro _ ⟨c, rfl, hc⟩
        exact gives_pure.mpr hc
  | get i =>
    refine (hl.get?_settled hs (hopen.imp_right fun hnext => ?_)).bind
      fun r hr => gives_pure.mpr hr
    obtain ⟨k, hk, hat⟩ := hnext
    exact ⟨k, (hplace i).symm.trans hk, hat⟩
  | index i =>
    have hsettled := hopen.settled rfl
    rw [Session.perform, Ledger.opens?, hplace]
    unfold Chain.index
    cases hindex : Packed.idxOf? l.count i with
    | none =>
      rw [hl.find?_eq_none hindex]
      exact gives_ok.mpr hsettled
    | some pos =>
      refine Gives.bind (q := fun r => r.1.HeldAt depth P pos ∧ ∃ handle, r.2 = some handle ∧
        r.1.Settled depth fun id => P id ∨ id = handle.block) ?_ fun r hr => ?_
      · refine (hl.find?_ready hs hindex (.inl hsettled)).bind fun r hr => ?_
        obtain ⟨j, handle, hsome, hready, -, hid, hat⟩ := hr
        exact gives_pure.mpr ⟨hat, handle, by rw [hsome]; rfl, hready.held.settled hid⟩
      · obtain ⟨c, found⟩ := r
        obtain ⟨hat, handle, rfl, hc⟩ := hr
        exact gives_pure.mpr ⟨hat, handle, by simp [hold], hc⟩
  | insertBeside number place t =>
    rw [Session.perform]
    rcases marks_of_held hheld number with ⟨hnone, hnone'⟩ | ⟨handle, k, hsome, hsome', hmarks⟩
    · rw [hnone]
      exact gives_ok.mpr (hopen.settled hnone')
    · rw [hsome]
      obtain ⟨i, hi, hc⟩ := hopen.held hl hs rfl hsome' hmarks
      exact (hc.insertBeside hi place t).bind fun c hc => gives_pure.mpr hc
  | replace number t =>
    rw [Session.perform]
    rcases marks_of_held hheld number with ⟨hnone, hnone'⟩ | ⟨handle, k, hsome, hsome', hmarks⟩
    · rw [hnone]
      exact gives_ok.mpr (hopen.settled hnone')
    · rw [hsome]
      obtain ⟨i, hi, hc⟩ := hopen.held hl hs rfl hsome' hmarks
      exact (hc.replace hi t).bind fun c hc => gives_pure.mpr hc
  | walk origin i script =>
    rw [Session.perform]
    refine (hl.begin_minds hs (hopen.settled rfl) origin i).bind fun r hr => ?_
    obtain ⟨c, w⟩ := r
    cases w with
    | none => exact gives_pure.mpr hr
    | some w => exact (settled_follow hr script []).bind fun r hr => gives_pure.mpr hr

/-! ### Runs -/

/-- **If every element that is looked up is used at once**, no block is left open. -/
theorem Follows.run_prompt (h : s.Follows m) (has : ∀ a ∈ as, a.keepsDepth)
    (hopen : s.Expects m depth P as.head?) (hprompt : Ledger.Prompt as m) :
    Gives (s.run as) (·.1.chain.Settled depth P) := by
  induction as generalizing s m with
  | nil =>
    rcases hopen with hsettled | ⟨k, hk, -⟩
    · exact gives_ok.mpr hsettled
    · contradiction
  | cons a as ih =>
    obtain ⟨ha, has⟩ := List.forall_mem_cons.mp has
    obtain ⟨hnext, hprompt⟩ := hprompt
    rw [Session.run]
    refine ((h.keeps ha hopen).and (h.perform a).gives).bind fun r hr => ?_
    obtain ⟨hkeeps, hfollows, -⟩ := hr
    have hopen' : r.1.Expects (m.perform a).1 depth P as.head? := by
      cases hk : m.opens? a with
      | none =>
        rw [hk] at hkeeps
        exact .inl hkeeps
      | some k =>
        rw [hk] at hkeeps hnext
        exact .inr ⟨k, hnext.resolve_left (by simp), hkeeps.1⟩
    exact (ih hfollows has hopen' hprompt).bind fun r' hr' => gives_pure.mpr hr'

/-- The block with the name is open, and it is so after each of the actions. -/
def StaysOpen (id : BlockId) : List Action → Session → Prop
  | [], s => s.chain.HasOpen id
  | a :: as, s => s.chain.HasOpen id ∧ Gives (s.perform a) fun r => StaysOpen id as r.1

/-- One of the actions looks an element of the block with the name up, and the block is open
from then on. -/
def LeavesOpen (id : BlockId) : List Action → Session → Prop
  | [], _ => False
  | a :: as, s => Gives (s.perform a) fun r => LeavesOpen id as r.1 ∨
      ((∃ i, a = .index i) ∧ r.1.held.getLast?.map Handle.block = some id ∧ StaysOpen id as r.1)

theorem StaysOpen.hasOpen {id : BlockId} (h : s.StaysOpen id as) : s.chain.HasOpen id := by
  cases as with
  | nil => exact h
  | cons a as => exact h.1

/-- **Only a lookup opens a block** that it leaves open. -/
theorem Follows.hasOpen (h : s.Follows m) (ha : a.keepsDepth) (hsettled : s.chain.Settled depth P) :
    Gives (s.perform a) fun r => (∃ P', r.1.chain.Settled depth P') ∧
      ∀ id, r.1.chain.HasOpen id → s.chain.HasOpen id ∨
        ((∃ i, a = .index i) ∧ r.1.held.getLast?.map Handle.block = some id) := by
  refine (h.keeps ha (.inl hsettled.hasOpen)).imp fun r hr => ?_
  cases hk : m.opens? a with
  | none =>
    rw [hk] at hr
    exact ⟨⟨_, hr⟩, fun id hid => .inl (Chain.Settled.of_hasOpen hr hid)⟩
  | some k =>
    rw [hk] at hr
    obtain ⟨-, handle, hlast, hc⟩ := hr
    have hindex : ∃ i, a = .index i := by
      cases a with
      | index i => exact ⟨i, rfl⟩
      | _ => contradiction
    refine ⟨⟨_, hc⟩, fun id hid => (hc.of_hasOpen hid).imp_right fun heq => ⟨hindex, ?_⟩⟩
    rw [hlast, heq]
    rfl

/-- **A block that is open at the end of a run** was open all the time, or it has been since
it was looked up. -/
theorem Follows.run_hasOpen (h : s.Follows m) (has : ∀ a ∈ as, a.keepsDepth)
    (hsettled : s.chain.Settled depth P) :
    Gives (s.run as) fun r => (∃ P', r.1.chain.Settled depth P') ∧
      ∀ id, r.1.chain.HasOpen id → s.StaysOpen id as ∨ s.LeavesOpen id as := by
  induction as generalizing s m P with
  | nil => exact gives_ok.mpr ⟨⟨P, hsettled⟩, fun id hid => .inl hid⟩
  | cons a as ih =>
    obtain ⟨ha, has⟩ := List.forall_mem_cons.mp has
    have hstep := (h.hasOpen ha hsettled).and (h.perform a).gives
    rw [Session.run]
    cases hr : s.perform a with
    | error f => exact gives_error
    | ok r =>
      obtain ⟨⟨⟨P', hsettled'⟩, hopen⟩, hfollows, -⟩ := hstep r hr
      refine (ih hfollows has hsettled').bind fun r' hr' => gives_pure.mpr ⟨hr'.1, fun id hid => ?_⟩
      simp only [StaysOpen, LeavesOpen, hr, gives_ok]
      rcases hr'.2 id hid with hstays | hleaves
      · rcases hopen id hstays.hasOpen with hbefore | ⟨hindex, hblock⟩
        · exact .inl ⟨hbefore, hstays⟩
        · exact .inr (.inr ⟨hindex, hblock, hstays⟩)
      · exact .inr (.inl hleaves)

/-- The empty list is settled, whatever its options. -/
theorem settled_ofOptions (setting depth : Int) (P : BlockId → Prop) :
    (ofOptions setting depth).chain.Settled (Chain.ofOptions setting depth).depth P :=
  ⟨0, rfl, rfl, fun i hi => absurd hi i.not_lt_zero⟩

/-- No block of it is open, let alone stays so. -/
theorem not_staysOpen_ofOptions (setting depth : Int) (id : BlockId) :
    ¬ (ofOptions setting depth).StaysOpen id as := fun h =>
  Chain.Settled.of_hasOpen (settled_ofOptions setting depth fun _ => False) h.hasOpen

end Session

/-- The first blocks and the last are plain, as many as the depth says, and with no depth all
of them are. The others are compressed or were tried, or they are open. -/
structure Chain.KeepsBoundaries (c : Chain) (depth : Nat) : Prop where
  /-- A block on the outer side. -/
  outer : ∀ i b, c.block i = .ok b → depth = 0 ∨ Chain.IsOuter depth c.length i → b.IsPlain
  /-- A block inside. -/
  inner : ∀ i b, c.block i = .ok b → ¬ (depth = 0 ∨ Chain.IsOuter depth c.length i) →
    b.IsJudged ∨ b.IsOpen

theorem Chain.Settled.keepsBoundaries {c : Chain} {depth : Nat} {P : BlockId → Prop}
    (h : c.Settled depth P) : c.KeepsBoundaries depth := by
  obtain ⟨n, h⟩ := h
  have hlength := h.length_eq
  refine ⟨fun i b hb hi => ?_, fun i b hb hi => ?_⟩
  · obtain ⟨-, id, hfits⟩ := h.block i b hb
    exact hfits.outer (hlength ▸ hi)
  · obtain ⟨-, id, hfits⟩ := h.block i b hb
    refine (hfits.inner (hlength ▸ hi)).imp_right fun hexcept => ?_
    exact (hexcept.resolve_right And.left).2

namespace Session

/-- **The boundaries of compression hold after every run** under whatever options, as long as
the depth is left alone. A block is open only if it has been since it was looked up, and none
is if every element that is looked up is used at once. -/
theorem run_keepsBoundaries (setting depth : Int) (as : List Action)
    (has : ∀ a ∈ as, a.keepsDepth) :
    Ensures ((ofOptions setting depth).run as) fun r =>
      r.1.chain.KeepsBoundaries (Chain.ofOptions setting depth).depth ∧
        (∀ id, r.1.chain.HasOpen id → (ofOptions setting depth).LeavesOpen id as) ∧
        (Ledger.Prompt as {} → ∀ id, ¬ r.1.chain.HasOpen id) := by
  have hfollows := follows_ofOptions setting depth
  have hopen := hfollows.run_hasOpen has (settled_ofOptions setting depth fun _ => False)
  have hclosed : Gives ((ofOptions setting depth).run as) fun r => Ledger.Prompt as {} →
      r.1.chain.Settled (Chain.ofOptions setting depth).depth fun _ => False :=
    fun r hr hprompt =>
      hfollows.run_prompt has (.inl (settled_ofOptions setting depth _)) hprompt r hr
  refine ((hfollows.run as).and_gives (hopen.and hclosed)).imp fun r hr => ?_
  obtain ⟨-, ⟨⟨P, hsettled⟩, hsince⟩, hnone⟩ := hr
  refine ⟨hsettled.keepsBoundaries, fun id hid => ?_, fun hprompt id hid => ?_⟩
  · exact (hsince id hid).resolve_left (not_staysOpen_ofOptions setting depth id)
  · exact (hnone hprompt).of_hasOpen hid

/-- Three blocks with a depth of one, of which the middle one is looked up and read. -/
def lookedUp : List Action :=
  [.push .tail [97], .push .tail (List.replicate 60 98), .push .tail [99], .index 1, .get (-2)]

theorem run_keepsBoundaries_lookedUp :
    (∀ a ∈ lookedUp, a.keepsDepth) ∧ Ledger.Prompt lookedUp {} ∧
      Ensures ((ofOptions 1 1).run lookedUp) fun r =>
        r.1.chain.KeepsBoundaries 1 ∧ ∀ id, ¬ r.1.chain.HasOpen id := by
  have has : ∀ a ∈ lookedUp, a.keepsDepth := by decide
  have hprompt : Ledger.Prompt lookedUp {} := by decide
  refine ⟨has, hprompt, (run_keepsBoundaries 1 1 lookedUp has).imp fun r hr => ?_⟩
  exact ⟨hr.1, hr.2.2 hprompt⟩

end Session

end UnrolledList
