import UnrolledList.Proofs.Chain.Client
import UnrolledList.Proofs.Chain.Elements
import UnrolledList.Proofs.Chain.Refinement

/-!
# Handles are right or found out

A handle that a client has kept (`UnrolledList.Client`) is in one of two cases, and the stamp
tells which. If it has the stamp of the list, it is **right** (`UnrolledList.Handle.Right`):
its block is there, and in the packed list of this block the handle has the number, the
offset, the position and the value of one entry. If it has another stamp, it is **found
out**: what is to be inserted or overwritten through it is refused. This is so after every
run (`UnrolledList.Client.run_honours`), whatever was opened, compressed or settled in
between.

It rests on the stamp being advanced by everything that makes a difference. A call that
leaves the stamp as it is leaves the blocks, their packed lists and the elements as they are
(`UnrolledList.Chain.Same`).

## How far a stamp goes

The stamp is a machine word, and it comes round after `2 ^ 64` changes. So what is counted is
not calls but changes (`UnrolledList.Call.changes`): a rotation is two of them, a push and a
removal, and the elements of a packed list are pushed one by one. As long as there are fewer
than `2 ^ 64`, a handle was taken some number of changes ago
(`UnrolledList.Layout.Recalls`), and it has the stamp of the list only if that number is
zero.
-/

namespace UnrolledList

/-- How often a call may advance the stamp. -/
def Call.changes : Call → Nat
  | push .. | pop .. | insert .. | replace .. | replaceAt .. | eraseRange .. | append ..
  | appendBytes .. | erase => 1
  | rotate => 2
  | appendValues p => p.val.values.length
  | get .. | index .. | beginWalk .. | next | finish | setFill .. | setDepth .. | duplicate => 0

/-- How often several calls may advance the stamp. -/
def Call.totalChanges (calls : List Call) : Nat :=
  (calls.map changes).sum

/-- The handle has the block, the number, the offset, the position and the value of an
entry of the list. -/
def Handle.Right (h : Handle) (c : Chain) : Prop :=
  ∃ i b p k, c.idxOf h.block = .ok i ∧ c.block i = .ok b ∧ b.packed = .ok p ∧
    Packed.idxOf? p.entries.size h.offset = some k ∧ h.place = p.cursor k ∧
      p.values[k]? = some h.value

namespace Chain

/-- Nothing can be inserted or overwritten through the handle. -/
def Refuses (c : Chain) (h : Handle) : Prop :=
  (∀ place s, c.insert (some h) place s = .error .staleHandle) ∧
    ∀ s, c.replace h s = .error .staleHandle

/-- The lists have the same blocks, with the same packed lists, and so the same elements. -/
structure Same (c c' : Chain) : Prop where
  /-- The names of the blocks are the same. -/
  ids_eq : c.ids = c'.ids
  /-- The packed lists are the same, byte for byte. -/
  packed_eq : c.blocks.map Block.packed = c'.blocks.map Block.packed
  /-- The elements are the same. -/
  elements_eq : c.elements = c'.elements

variable {c c' : Chain} {l : Layout} {h : Handle}

/-- Of a list, a layout tells all that a stamp stands for. -/
theorem Has.same (hc : c.Has l) (hc' : c'.Has l) : c.Same c' := by
  have hpacked : ∀ {c : Chain}, c.Has l →
      c.blocks.map Block.packed = l.leaves.map fun x => .ok x.list := by
    intro c hc
    rw [blocks, List.map_map, ← List.forall₂_eq_eq_eq, List.forall₂_map_left_iff,
      List.forall₂_map_right_iff]
    exact hc.cells.imp fun _ _ hx => hx.keeps.packed_eq
  have heq : c.blocks.map Block.packed = c'.blocks.map Block.packed := by
    rw [hpacked hc, hpacked hc']
  exact ⟨by rw [hc.ids_eq, hc'.ids_eq], heq, hc.elements_eq.trans hc'.elements_eq.symm⟩

theorem refuses_of_stamp_ne (hne : h.stamp ≠ c.stamp) : c.Refuses h := by
  have hstale : c.checkFresh h = .error .staleHandle := if_neg hne
  refine ⟨fun place s => ?_, fun s => ?_⟩
  · rw [insert, insertBeside, hstale, error_bind]
  · rw [replace, hstale, error_bind]

end Chain

/-! ### The age of a handle -/

/-- The handle names an entry of a layout, down to the byte. -/
def Handle.Fits (h : Handle) (l : Layout) : Prop :=
  ∃ pre x post k, h.Names l pre x post k ∧ h.Exact x

/-- The handle was taken at most `n` changes ago, and if it was none, it is right. -/
def Layout.Recalls (l : Layout) (n : Nat) (h : Handle) : Prop :=
  ∃ m, m ≤ n ∧ l.stamp = h.stamp + UInt64.ofNat m ∧ (m = 0 → h.Fits l)

variable {c : Chain} {l l' : Layout} {h : Handle} {n : Nat}

/-- What names an entry of a layout is right about every list that has it. -/
theorem Handle.Fits.right (hfits : h.Fits l) (hc : c.Has l) (hs : l.Sound) : h.Right c := by
  obtain ⟨pre, x, post, k, hnames, hexact⟩ := hfits
  have hl := hnames.leaves_eq
  obtain ⟨b, hb, hkeeps, -⟩ := hc.block_eq hl
  have hplace : h.place = x.list.cursor k := by rw [hexact.place_eq, hnames.idx_eq]
  refine ⟨pre.length, b, x.list, k, ?_, hb, hkeeps.packed_eq, ?_, hplace, ?_⟩
  · rw [hnames.block_eq, hc.idxOf_eq hs hl]
  · rw [← hs.counted_split hl, hnames.offset_eq]
  · rw [← Packed.get?_cursor, ← hplace, hexact.get?_eq]

/-- A handle that is taken now is recalled. -/
theorem Handle.Fits.recalls (hfits : h.Fits l) (n : Nat) : l.Recalls n h := by
  obtain ⟨pre, x, post, k, hnames, hexact⟩ := hfits
  refine ⟨0, Nat.zero_le n, ?_, fun _ => ⟨pre, x, post, k, hnames, hexact⟩⟩
  rw [hnames.stamp_eq]
  exact (UInt64.add_zero _).symm

namespace Layout.Recalls

/-- **A handle that has the stamp of the list** was taken no change ago. -/
theorem fits (hr : l.Recalls n h) (hn : n < 2 ^ 64) (hstamp : h.stamp = l.stamp) : h.Fits l := by
  obtain ⟨m, hm, heq, hfits⟩ := hr
  rcases Nat.eq_zero_or_pos m with hzero | hpos
  · exact hfits hzero
  · rw [← hstamp] at heq
    exact absurd heq.symm (Session.stamp_add_ne h.stamp hpos (by omega))

theorem mono (hr : l.Recalls n h) {n' : Nat} (hn : n ≤ n') : l.Recalls n' h := by
  obtain ⟨m, hm, heq, hfits⟩ := hr
  exact ⟨m, Nat.le_trans hm hn, heq, hfits⟩

/-- Every change makes a handle older. -/
theorem advance (hr : l.Recalls n h) {d d' : Nat} (hpos : 0 < d) (hd : d ≤ d')
    (hstamp : l'.stamp = l.stamp + UInt64.ofNat d) : l'.Recalls (n + d') h := by
  obtain ⟨m, hm, heq, -⟩ := hr
  refine ⟨m + d, by omega, ?_, fun hzero => by omega⟩
  rw [hstamp, heq, UInt64.ofNat_add, UInt64.add_assoc]

end Layout.Recalls

/-! ### Results that may be refused -/

/-- The operation gives a result with a property, or stops at a limit or at a handle that is
no longer good. -/
def EnsuresUnlessStale {α : Type} (m : Except Fault α) (post : α → Prop) : Prop :=
  m = .error .staleHandle ∨ Ensures m post

namespace EnsuresUnlessStale

variable {α β : Type} {m : Except Fault α} {q : α → Prop} {post : β → Prop}

theorem bind {f : α → Except Fault β} (hm : EnsuresUnlessStale m q)
    (hf : ∀ a, q a → EnsuresUnlessStale (f a) post) : EnsuresUnlessStale (m >>= f) post := by
  rcases hm with rfl | hm
  · exact .inl rfl
  · cases m with
    | error f => exact .inr hm
    | ok a => exact hf a hm

theorem imp {post' : α → Prop} (hm : EnsuresUnlessStale m q) (himp : ∀ a, q a → post' a) :
    EnsuresUnlessStale m post' :=
  hm.imp_right fun hm => hm.imp himp

end EnsuresUnlessStale

/-! ### Clients in order -/

/-- The walk stands somewhere in the layout, at a right position, and the element it has just
met is the one where it stands. -/
structure OpenWalk.Stands (o : OpenWalk) (l : Layout) : Prop where
  /-- It stands at a cut. -/
  exists_cut : ∃ pos, o.walk.Stands l pos
  /-- Its position is right. -/
  exact : o.walk.Exact l
  /-- It has passed the element that may be erased. -/
  on_last : ∀ h ∈ o.last, ∃ pre x post k, h.Names l pre x post k ∧ o.walk.On pre x k

/-- The list of the client has the layout, which is in order, the walk stands in it, and of
every handle it is known how old it is: at most `n` changes. -/
structure Client.Knows (k : Client) (l : Layout) (n : Nat) : Prop where
  /-- The list has the layout. -/
  has : k.chain.Has l
  /-- The layout is in order. -/
  sound : l.Sound
  /-- A walk that is open stands in it. -/
  stands : ∀ o ∈ k.walking, o.Stands l
  /-- A handle that was taken is recalled. -/
  recalls : ∀ h ∈ k.taken, l.Recalls n h

namespace Client

/-- What a call leads to that may change the list `d` times: the layout is still the same, or
the stamp is another one. -/
def Follows (l : Layout) (n d : Nat) (r : Client × Answer) : Prop :=
  ∃ l', r.1.Knows l' (n + d) ∧ (l' = l ∨ l'.stamp ≠ l.stamp)

namespace Knows

variable {k : Client} {d d' : Nat} {ts : List Bytes}

/-- A list with the same layout. -/
theorem withChain (hk : k.Knows l n) (hc : c.Has l) : (k.withChain c).Knows l n :=
  ⟨hc, hk.sound, hk.stands, hk.recalls⟩

theorem withWalk (hk : k.Knows l n) {o : Option OpenWalk} (ho : ∀ w ∈ o, w.Stands l) :
    (k.withWalk o).Knows l n :=
  ⟨hk.has, hk.sound, ho, hk.recalls⟩

/-- A handle is taken. -/
theorem take (hk : k.Knows l n) {found : Option Handle} (hfound : ∀ h ∈ found, h.Fits l) :
    (k.take found).Knows l n := by
  refine ⟨hk.has, hk.sound, hk.stands, fun h hh => ?_⟩
  rcases List.mem_append.mp hh with hh | hh
  · exact hk.recalls h hh
  · exact (hfound h (Option.mem_toList.mp hh)).recalls n

/-- The same layout is known for longer. -/
theorem follows (hk : k.Knows l n) (d : Nat) (answer : Answer) : Follows l n d (k, answer) := by
  refine ⟨l, ⟨hk.has, hk.sound, hk.stands, fun h hh => ?_⟩, .inl rfl⟩
  exact (hk.recalls h hh).mono (Nat.le_add_right n d)

/-- **Another layout, under another stamp.** Whatever walk is open has to stand in it. -/
theorem follows_changed (hk : k.Knows l n) (hc : c.Has l') (hs : l'.Sound) (hpos : 0 < d)
    (hd : d ≤ d') (hlt : d < 2 ^ 64) (hstamp : l'.stamp = l.stamp + UInt64.ofNat d)
    {o : Option OpenWalk} (ho : ∀ w ∈ o, w.Stands l') (answer : Answer) :
    Follows l n d' ((k.withChain c).withWalk o, answer) := by
  refine ⟨l', ⟨hc, hs, ho, fun h hh => ?_⟩, .inr ?_⟩
  · exact (hk.recalls h hh).advance hpos hd hstamp
  · rw [hstamp]
    exact Session.stamp_add_ne l.stamp hpos hlt

/-- A list that was changed while no walk was open. -/
theorem follows_holds (hk : k.Knows l n) (hidle : k.walking = none)
    (hc : c.Holds ts (l.stamp + UInt64.ofNat d)) (hpos : 0 < d) (hd : d ≤ d')
    (hlt : d < 2 ^ 64) (answer : Answer) : Follows l n d' (k.withChain c, answer) := by
  obtain ⟨l', hc, hs, -, hstamp⟩ := hc
  have hwalk : (k.withChain c).withWalk none = k.withChain c := by
    rw [Client.withWalk, ← hidle]
    rfl
  rw [← hwalk]
  refine hk.follows_changed hc hs hpos hd hlt hstamp ?_ answer
  exact fun _ hnone => absurd hnone (Option.not_mem_none _)

/-- A single change, or none. -/
theorem follows_of (hk : k.Knows l n) (hidle : k.walking = none)
    (hc : c.Has l ∨ ∃ ts, c.Holds ts (l.stamp + 1)) (answer : Answer) :
    Follows l n 1 (k.withChain c, answer) := by
  rcases hc with hc | ⟨ts, hc⟩
  · exact (hk.withChain hc).follows 1 answer
  · exact hk.follows_holds hidle (d := 1) hc Nat.one_pos (Nat.le_refl 1) (by decide) answer

/-! #### Calls while no walk is open -/

theorem pop (hk : k.Knows l n) (hidle : k.walking = none) (side : Side) :
    Ensures (k.ask (.pop side)) (Follows l n 1) := by
  rw [ask]
  by_cases hempty : l.texts = []
  · have hcount : k.chain.count = 0 := by
      rw [hk.has.count_eq, ← hk.sound.length_texts, hempty, List.length_nil]
    rw [Chain.pop_of_count_eq_zero hcount]
    exact hk.follows_of hidle (.inl hk.has) _
  · refine ((hk.has.holds hk.sound).pop hempty side).bind fun r hr => ?_
    obtain ⟨v, ts, -, -, hholds⟩ := hr
    exact hk.follows_of hidle (.inr ⟨ts, hholds⟩) _

/-- A rotation is two changes. -/
theorem rotate (hk : k.Knows l n) (hidle : k.walking = none) :
    Ensures (k.ask .rotate) (Follows l n 2) := by
  rw [ask]
  by_cases hfew : l.texts.length ≤ 1
  · rw [Chain.rotate_of_count_le_one (by rwa [hk.has.count_eq, ← hk.sound.length_texts])]
    exact (hk.withChain hk.has).follows 2 _
  · refine ((hk.has.holds hk.sound).rotate (Nat.lt_of_not_le hfew)).bind fun c hc => ?_
    obtain ⟨t, ts, -, hholds⟩ := hc
    rw [UInt64.add_assoc] at hholds
    exact hk.follows_holds hidle (d := 2) hholds Nat.two_pos (Nat.le_refl 2) (by decide) _

theorem appendBlock (hk : k.Knows l n) (hidle : k.walking = none) {p : Packed}
    (hp : p.WellFormed) :
    Ensures (k.chain.appendBlock p) fun c => Follows l n 1 (k.withChain c, .done) := by
  refine (hk.has.appendBlock hk.sound hp).imp fun c hc => hk.follows_of hidle ?_ _
  split at hc
  · exact .inl hc
  · exact .inr ⟨_, hc⟩

theorem appendBytes (hk : k.Knows l n) (hidle : k.walking = none) (blob : Bytes) :
    Ensures (k.ask (.appendBytes blob)) (Follows l n 1) := by
  rw [ask, Chain.appendBytes]
  cases hblob : Packed.ofBytes blob with
  | error d => exact hk.follows 1 _
  | ok p =>
    have happend := hk.appendBlock hidle (Packed.wellFormed_of_ofBytes hblob).2
    refine Ensures.bind (q := fun r => ∃ c, r = .ok c ∧ Follows l n 1 (k.withChain c, .done)) ?_ ?_
    · exact happend.bind fun c hc => ⟨c, rfl, hc⟩
    · rintro _ ⟨c, rfl, hc⟩
      exact hc

/-- Elements that are pushed one by one are as many changes. -/
theorem appendValues (hk : k.Knows l n) (hidle : k.walking = none)
    (p : { p : Packed // p.WellFormed }) (hlt : p.val.values.length < 2 ^ 64) :
    Ensures (k.ask (.appendValues p)) (Follows l n p.val.values.length) := by
  have hpush := (hk.has.holds hk.sound).pushAll p.val.values
  rw [ask]
  cases hvalues : p.val.values with
  | nil =>
    -- nothing is pushed, so the stamp is the same, and so is the list
    exact (hk.withChain hk.has).follows 0 _
  | cons v vs =>
    rw [hvalues] at hpush hlt
    refine hpush.bind fun c hc => ?_
    exact hk.follows_holds hidle hc (Nat.succ_pos _) (Nat.le_refl _) hlt _

/-- **What is looked up fits.** -/
theorem find? (hk : k.Knows l n) (i : Int) :
    Ensures (k.chain.find? i) fun r => r.1.Has l ∧ ∀ j h, r.2 = some (j, h) → h.Fits l := by
  cases hi : Packed.idxOf? l.count i with
  | none =>
    rw [hk.has.find?_eq_none hi]
    exact ⟨hk.has, nofun⟩
  | some pos =>
    refine ((hk.has.find?_eq hk.sound hi).and_gives (hk.has.gives_find? i)).imp fun r hr => ?_
    obtain ⟨⟨hc, pre, x, post, j, handle, hfound, hnames, -⟩, hexact⟩ := hr
    refine ⟨hc, fun i h hsome => ?_⟩
    obtain ⟨rfl, rfl⟩ := Prod.mk.inj (Option.some.inj (hfound.symm.trans hsome))
    -- the handle is exact for the block with its number, which is the one that it names
    obtain ⟨y, hy, hexact⟩ := hexact _ _ hfound
    obtain rfl : x = y := by simpa [hnames.leaves_eq] using hy
    exact ⟨pre, x, post, j, hnames, hexact⟩

theorem index (hk : k.Knows l n) (i : Int) : Ensures (k.ask (.index i)) (Follows l n 0) := by
  rw [ask, Chain.index]
  refine Ensures.bind (q := fun r => r.1.Has l ∧ ∀ h ∈ r.2, h.Fits l) ?_ fun r hr => ?_
  · refine (hk.find? i).bind fun r hr => ⟨hr.1, fun h hh => ?_⟩
    obtain ⟨found, hfound, rfl⟩ := Option.map_eq_some_iff.mp hh
    exact hr.2 _ _ hfound
  · exact ((hk.withChain hr.1).take hr.2).follows 0 _

/-- **A handle that is used** is one that fits, or it is refused. -/
theorem fits_or_refuses (hk : k.Knows l n) (hn : n < 2 ^ 64) {handle : Nat} {h : Handle}
    (hh : k.taken[handle]? = some h) : h.Fits l ∨ k.chain.Refuses h := by
  by_cases hstamp : h.stamp = k.chain.stamp
  · rw [hk.has.stamp_eq] at hstamp
    exact .inl ((hk.recalls h (List.mem_of_getElem? hh)).fits hn hstamp)
  · exact .inr (Chain.refuses_of_stamp_ne hstamp)

theorem insert (hk : k.Knows l n) (hidle : k.walking = none) (hn : n < 2 ^ 64)
    (handle : Option Nat) (place : Place) (s : Bytes) :
    EnsuresUnlessStale (k.ask (.insert handle place s)) (Follows l n 1) := by
  cases handle with
  | none =>
    refine .inr ?_
    rw [ask]
    unfold Chain.insert
    refine Ensures.bind (q := fun c => ∃ ts, c.Holds ts (l.stamp + 1)) ?_ fun c hc => ?_
    · exact ((hk.has.holds hk.sound).push _ s).bind fun r hr => ⟨_, hr⟩
    · exact hk.follows_of hidle (.inr hc) _
  | some handle =>
    rw [ask]
    split
    · exact .inr (hk.follows 1 _)
    · next h hh =>
      rcases hk.fits_or_refuses hn hh with ⟨pre, x, post, j, hnames, -⟩ | hrefuses
      · refine .inr ((hk.has.insertBeside hk.sound hnames place s).bind fun c hc => ?_)
        exact hk.follows_of hidle (.inr ⟨_, hc⟩) _
      · exact .inl (by rw [hrefuses.1, error_bind])

theorem replace (hk : k.Knows l n) (hidle : k.walking = none) (hn : n < 2 ^ 64) (handle : Nat)
    (s : Bytes) : EnsuresUnlessStale (k.ask (.replace handle s)) (Follows l n 1) := by
  rw [ask]
  split
  · exact .inr (hk.follows 1 _)
  · next h hh =>
    rcases hk.fits_or_refuses hn hh with ⟨pre, x, post, j, hnames, -⟩ | hrefuses
    · refine .inr ((hk.has.replace hk.sound hnames s).bind fun c hc => ?_)
      exact hk.follows_of hidle (.inr ⟨_, hc⟩) _
    · exact .inl (by rw [hrefuses.2, error_bind])

theorem replaceAt (hk : k.Knows l n) (hidle : k.walking = none) (i : Int) (s : Bytes) :
    Ensures (k.ask (.replaceAt i s)) (Follows l n 1) := by
  refine (hk.has.replaceAt hk.sound i s).bind fun r hr => hk.follows_of hidle ?_ _
  split at hr
  · exact .inl hr.2
  · exact .inr ⟨_, hr.2⟩

theorem eraseRange (hk : k.Knows l n) (hidle : k.walking = none) (start num : Int) :
    Ensures (k.ask (.eraseRange start num)) (Follows l n 1) := by
  refine (hk.has.eraseRange hk.sound start num).bind fun r hr => hk.follows_of hidle ?_ _
  split at hr
  · exact .inl hr.2
  · exact .inr ⟨_, hr.2⟩

theorem beginWalk (hk : k.Knows l n) (origin : Side) (start : Option Int) :
    Ensures (k.ask (.beginWalk origin start)) (Follows l n 0) := by
  refine (Session.begin_exact hk.has hk.sound origin start).bind fun r hr => ?_
  obtain ⟨c, w⟩ := r
  obtain ⟨hc, hstands⟩ := hr
  refine ((hk.withChain hc).withWalk fun o ho => ?_).follows 0 _
  obtain ⟨w', hw, rfl⟩ := Option.map_eq_some_iff.mp ho
  obtain rfl : w = some w' := hw
  split at hstands
  · contradiction
  · next pos _ =>
    obtain ⟨w, hw, -, hstands, hexact⟩ := hstands
    obtain rfl := Option.some.inj hw
    exact ⟨⟨pos, hstands⟩, hexact, nofun⟩

/-- Where fill and depth are set, the layout stays. -/
theorem withOptions (hk : k.Knows l n) (fill : Fill) (depth : Nat) :
    (k.withChain { k.chain with fill := fill, depth := depth }).Knows l n :=
  hk.withChain (hk.has.withOptions fill depth)

/-- **A call while no walk is open.** -/
theorem ask (hk : k.Knows l n) (hidle : k.walking = none) {call : Call}
    (hn : n + call.changes < 2 ^ 64) (hcopy : call ≠ .duplicate) :
    EnsuresUnlessStale (k.ask call) (Follows l n call.changes) := by
  cases call with
  | push side s =>
    refine .inr (((hk.has.holds hk.sound).push side s).bind fun r hr => ?_)
    exact hk.follows_of hidle (.inr ⟨_, hr⟩) _
  | pop side => exact .inr (hk.pop hidle side)
  | get i =>
    exact .inr ((hk.has.get? hk.sound i).bind fun r hr => (hk.withChain hr.1).follows 0 _)
  | index i => exact .inr (hk.index i)
  | insert handle place s => exact hk.insert hidle (by omega) handle place s
  | replace handle s => exact hk.replace hidle (by omega) handle s
  | replaceAt i s => exact .inr (hk.replaceAt hidle i s)
  | eraseRange start num => exact .inr (hk.eraseRange hidle start num)
  | rotate => exact .inr (hk.rotate hidle)
  | append p => exact .inr ((hk.appendBlock hidle p.property).bind fun c hc => hc)
  | appendBytes blob => exact .inr (hk.appendBytes hidle blob)
  | appendValues p =>
    refine .inr (hk.appendValues hidle p ?_)
    rw [Call.changes] at hn
    omega
  | beginWalk origin start => exact .inr (hk.beginWalk origin start)
  | setFill setting => exact .inr ((hk.withOptions _ _).follows 0 _)
  | setDepth depth => exact .inr ((hk.withOptions _ _).follows 0 _)
  | duplicate => contradiction
  | next => exact .inr (hk.follows 0 _)
  | erase => exact .inr (hk.follows 1 _)
  | finish => exact .inr (hk.follows 0 _)

end Knows

end Client

/-! ### Walks -/

namespace OpenWalk.Stands

variable {o : OpenWalk}

/-- **The next element** is where the walk then stands, and its handle fits. -/
theorem next (ho : o.Stands l) (hc : c.Has l) (hs : l.Sound) :
    Ensures (o.walk.next c) fun r => r.2.1.Has l ∧ OpenWalk.Stands ⟨r.1, r.2.2⟩ l ∧
      ∀ h ∈ r.2.2, h.Fits l := by
  obtain ⟨⟨pos, hstands⟩, hexact, -⟩ := ho
  refine (hstands.next_exact hexact hc hs).imp fun r hr => ?_
  obtain ⟨w, c, found⟩ := r
  obtain ⟨-, hc, hexact, hnext⟩ := hr
  dsimp only at hc hexact hnext
  split at hnext
  · obtain ⟨rfl, hover⟩ := hnext
    exact ⟨hc, ⟨⟨_, .done hover rfl⟩, hexact, nofun⟩, nofun⟩
  · obtain ⟨pre, x, post, j, handle, rfl, hnames, hright, -, -, hon⟩ := hnext
    refine ⟨hc, ⟨⟨_, hon.stands hnames.leaves_eq⟩, hexact, fun h hh => ?_⟩, fun h hh => ?_⟩
    · obtain rfl := Option.some.inj hh
      exact ⟨pre, x, post, j, hnames, hon⟩
    · obtain rfl := Option.some.inj hh
      exact ⟨pre, x, post, j, hnames, hright⟩

/-- **The element that was met is erased**, which is one change. -/
theorem erase (ho : o.Stands l) (hc : c.Has l) (hs : l.Sound) {h : Handle} (hh : h ∈ o.last) :
    Ensures (o.walk.erase c h) fun r => ∃ l', r.2.1.Has l' ∧ l'.Sound ∧
      l'.stamp = l.stamp + 1 ∧ OpenWalk.Stands { walk := r.1 } l' := by
  obtain ⟨pre, x, post, j, hnames, hon⟩ := ho.on_last h hh
  have herase := hon.erase hc hs hnames.leaves_eq hnames.block_eq hnames.idx_eq
  refine (herase.and_gives (Walk.gives_erase_place o.walk c h)).imp fun r hr => ?_
  obtain ⟨⟨-, l', hc', hs', -, hstamp, hstands⟩, hplace⟩ := hr
  exact ⟨l', hc', hs', hstamp, ⟨_, hstands⟩, Walk.exact_of_place_eq_none hplace, nofun⟩

end OpenWalk.Stands

namespace Client

namespace Knows

variable {k : Client}

/-- **A call while a walk is open.** -/
theorem walkOn (hk : k.Knows l n) {o : OpenWalk} (ho : k.walking = some o) (call : Call) :
    Ensures (k.walkOn o call) (Follows l n call.changes) := by
  have hstands := hk.stands o ho
  cases call with
  | next =>
    refine (hstands.next hk.has hk.sound).bind fun r hr => ?_
    obtain ⟨hc, hstands, hfits⟩ := hr
    refine (((hk.withChain hc).take hfits).withWalk fun w hw => ?_).follows 0 _
    obtain rfl := Option.some.inj hw
    exact hstands
  | erase =>
    rw [Client.walkOn]
    split
    · exact hk.follows 1 _
    · next h hlast =>
      refine (hstands.erase hk.has hk.sound hlast).bind fun r hr => ?_
      obtain ⟨l', hc, hs, hstamp, hstands⟩ := hr
      refine hk.follows_changed hc hs Nat.one_pos (Nat.le_refl 1) (by decide) hstamp ?_ _
      intro w hw
      obtain rfl := Option.some.inj hw
      exact hstands
  | finish =>
    obtain ⟨pos, hcut⟩ := hstands.exists_cut
    refine (hcut.finish hk.has).bind fun c hc => ?_
    exact ((hk.withChain hc).withWalk fun _ hnone => by contradiction).follows 0 _
  | _ => exact hk.follows _ _

/-- **Every call** leaves the client in order, and if it leaves the stamp as it is, the
layout. A copy is another list. -/
theorem perform (hk : k.Knows l n) (call : Call) (hn : n + call.changes < 2 ^ 64) :
    EnsuresUnlessStale (k.perform call) fun r => ∃ l', r.1.Knows l' (n + call.changes) ∧
      (call = .duplicate ∨ l' = l ∨ l'.stamp ≠ l.stamp) := by
  -- a copy begins with a stamp of its own, so only other calls follow the layout
  have hfollows : ∀ {m : Except Fault (Client × Answer)},
      EnsuresUnlessStale m (Follows l n call.changes) →
        EnsuresUnlessStale m fun r => ∃ l', r.1.Knows l' (n + call.changes) ∧
          (call = .duplicate ∨ l' = l ∨ l'.stamp ≠ l.stamp) := by
    intro m hm
    refine hm.imp fun r hr => ?_
    obtain ⟨l', hk', hsame⟩ := hr
    exact ⟨l', hk', .inr hsame⟩
  unfold Client.perform
  cases ho : k.walking with
  | some o => exact hfollows (.inr (hk.walkOn ho call))
  | none =>
    by_cases hcopy : call = .duplicate
    · subst hcopy
      refine .inr ⟨l.duplicate, ⟨hk.has.duplicate, hk.sound.duplicate, ?_, ?_⟩, .inl rfl⟩
      · exact fun o hnone => by contradiction
      · exact fun h hnone => by contradiction
    · exact hfollows (hk.ask ho hn hcopy)

/-- **So do several calls.** -/
theorem run (hk : k.Knows l n) (calls : List Call)
    (hn : n + Call.totalChanges calls < 2 ^ 64) :
    EnsuresUnlessStale (k.run calls) fun r => ∃ l', r.1.Knows l' (n + Call.totalChanges calls) := by
  induction calls generalizing k l n with
  | nil => exact .inr ⟨l, hk⟩
  | cons call calls ih =>
    have htotal : Call.totalChanges (call :: calls) = call.changes + Call.totalChanges calls := by
      rw [Call.totalChanges, List.map_cons, List.sum_cons]
      rfl
    rw [htotal, ← Nat.add_assoc] at hn ⊢
    rw [Client.run]
    refine (hk.perform call (by omega)).bind fun r hr => ?_
    obtain ⟨l₁, hk₁, -⟩ := hr
    exact (ih hk₁ hn).bind fun r' hr' => .inr hr'

end Knows

end Client

end UnrolledList
