import UnrolledList.Proofs.Chain.Client
import UnrolledList.Proofs.Chain.Parallel

/-!
# Compression is invisible

**Two clients that differ in depth alone see the same**
(`UnrolledList.Client.trace_coincide`). They begin with empty lists of the same fill and of
any two depths, make the same calls, and may set their depths in between, each as it likes
and when it likes. What is compared is everything that a call answers – the values, the
handles down to the bytes at which they point, the positions of a walk, the fault at which
it stops – and, after each call, everything that the list shows but the way its blocks are
kept (`UnrolledList.View`).

The one exception is a run in which the compressor stops a call. Only the list that has a
block to be compressed can meet with that, so the two part there; up to there they show the
same (`UnrolledList.Coincide`).

The invariant is that the lists are twins (`UnrolledList.Chain.Twin`), and that nothing else
of the clients is different. Setting a depth keeps it, whichever side does it.
-/

namespace UnrolledList

/-! ### What is seen -/

/-- What a list shows, apart from the way its blocks are kept. -/
structure View where
  /-- The number of elements. -/
  count : Nat
  /-- The number of blocks. -/
  length : Nat
  /-- The elements from head to tail. -/
  elements : List Value
  /-- The name of each block, its number of entries and its size. -/
  blocks : List (BlockId × Nat × Nat)
  /-- How often the list was changed. -/
  stamp : UInt64
deriving DecidableEq

/-- What a list shows. -/
def Chain.view (c : Chain) : View where
  count := c.count
  length := c.length
  elements := c.elements
  blocks := c.cells.toList.map fun cell => (cell.id, cell.block.count, cell.block.size)
  stamp := c.stamp

/-- Whether a call sets the depth. -/
def Call.setsDepth : Call → Bool
  | setDepth _ => true
  | _ => false

namespace Client

/-- What a run shows, call by call: the answer, and the list after it; at the end there may
be a fault. A call that sets the depth shows nothing. -/
def trace : List Call → Client → List (Except Fault (Answer × View))
  | [], _ => []
  | call :: calls, k =>
    match k.perform call with
    | .error f => [.error f]
    | .ok (k, answer) =>
      if call.setsDepth then trace calls k else .ok (answer, k.chain.view) :: trace calls k

end Client

/-- A turn of two clients beside each other. -/
inductive Turn where
  /-- Both make the same call. -/
  | both (call : Call)
  /-- The first one sets its depth. -/
  | first (depth : Int)
  /-- The second one sets its depth. -/
  | second (depth : Int)

namespace Turn

/-- The calls of the first client. -/
def firstCalls : List Turn → List Call
  | [] => []
  | both call :: turns => call :: firstCalls turns
  | first depth :: turns => .setDepth depth :: firstCalls turns
  | second _ :: turns => firstCalls turns

/-- The calls of the second client. -/
def secondCalls : List Turn → List Call
  | [] => []
  | both call :: turns => call :: secondCalls turns
  | first _ :: turns => secondCalls turns
  | second depth :: turns => .setDepth depth :: secondCalls turns

end Turn

/-- What the runs show is the same, or the compressor stops one of them, which until then
has shown what the other one shows. -/
def Coincide {α : Type} (t t' : List (Except Fault α)) : Prop :=
  t = t' ∨ ∃ front, (t = front ++ [.error .outputOverrun] ∧ front <+: t') ∨
    (t' = front ++ [.error .outputOverrun] ∧ front <+: t)

section Coincide

variable {α : Type} {t t' : List (Except Fault α)}

theorem Coincide.cons (h : Coincide t t') (x : Except Fault α) : Coincide (x :: t) (x :: t') := by
  rcases h with rfl | ⟨front, ⟨rfl, hfront⟩ | ⟨rfl, hfront⟩⟩
  · exact .inl rfl
  · exact .inr ⟨x :: front, .inl ⟨rfl, List.cons_prefix_cons.mpr ⟨rfl, hfront⟩⟩⟩
  · exact .inr ⟨x :: front, .inr ⟨rfl, List.cons_prefix_cons.mpr ⟨rfl, hfront⟩⟩⟩

theorem coincide_overrunFirst (t : List (Except Fault α)) :
    Coincide [.error .outputOverrun] t :=
  .inr ⟨[], .inl ⟨rfl, List.nil_prefix⟩⟩

theorem coincide_overrunSecond (t : List (Except Fault α)) :
    Coincide t [.error .outputOverrun] :=
  .inr ⟨[], .inr ⟨rfl, List.nil_prefix⟩⟩

end Coincide

/-! ### Twins show the same -/

theorem Chain.Twin.view_eq {c c' : Chain} (h : c.Twin c') : c.view = c'.view := by
  have hvalues : c.elements = c'.elements := by
    have hmap := h.map_eq (f := fun cell => cell.block.values) fun hcell => hcell.block.values_eq
    have hlist := congrArg (fun xs => xs.toList.flatten) hmap
    simpa [elements, blocks, List.flatMap_def, Function.comp_def] using hlist
  have hblocks := h.map_eq (f := fun cell => (cell.id, cell.block.count, cell.block.size))
    fun hcell => by rw [hcell.id_eq, hcell.block.count_eq, hcell.block.size_eq]
  have hlist := congrArg Array.toList hblocks
  rw [Array.toList_map, Array.toList_map] at hlist
  rw [view, view, h.count_eq, h.length_eq, hvalues, h.stamp_eq, hlist]

/-- The clients differ in the depth of their lists and the way the blocks are kept. -/
structure Client.Twin (k k' : Client) : Prop where
  /-- The lists are twins. -/
  chain : k.chain.Twin k'.chain
  /-- The same handles were taken. -/
  taken_eq : k.taken = k'.taken
  /-- The same walk is open. -/
  walking_eq : k.walking = k'.walking

namespace Client

/-- Twins, and the same answer. -/
def Alike (r r' : Client × Answer) : Prop :=
  r.1.Twin r'.1 ∧ r.2 = r'.2

namespace Twin

variable {k k' : Client} {c c' : Chain}

theorem withChain (h : k.Twin k') (hc : c.Twin c') : (k.withChain c).Twin (k'.withChain c') :=
  ⟨hc, h.taken_eq, h.walking_eq⟩

theorem take (h : k.Twin k') (handle : Option Handle) : (k.take handle).Twin (k'.take handle) :=
  ⟨h.chain, by rw [Client.take, Client.take, h.taken_eq], h.walking_eq⟩

theorem withWalk (h : k.Twin k') (walking : Option OpenWalk) :
    (k.withWalk walking).Twin (k'.withWalk walking) :=
  ⟨h.chain, h.taken_eq, rfl⟩

/-- What is answered beside a list. -/
theorem answer {α : Type} {m m' : Except Fault (Chain × α)} (h : k.Twin k')
    (hm : Agree Chain.Alike m m') (f : α → Answer) :
    Agree Alike (do let (c, a) ← m; return (k.withChain c, f a))
      (do let (c, a) ← m'; return (k'.withChain c, f a)) :=
  hm.bind fun _ _ hr => agree_pure ⟨h.withChain hr.1, by rw [hr.2]⟩

/-- Where only a list is given, nothing else is answered. -/
theorem done {m m' : Except Fault Chain} (h : k.Twin k') (hm : Agree Chain.Twin m m') :
    Agree Alike (do let c ← m; return (k.withChain c, .done))
      (do let c ← m'; return (k'.withChain c, .done)) :=
  hm.bind fun _ _ hc => agree_pure ⟨h.withChain hc, rfl⟩

theorem begin (h : c.Twin c') (origin : Side) (start : Option Int) :
    Agree Chain.Alike (Session.begin c origin start) (Session.begin c' origin start) := by
  cases start with
  | none => exact .ok ⟨h, by rw [Walk.ofEnd_eq h]⟩
  | some i => exact Walk.ofIndex_agree h origin i

/-- **A call while no walk is open.** -/
theorem ask (h : k.Twin k') (call : Call) : Agree Alike (k.ask call) (k'.ask call) := by
  have htwin := h.chain
  cases call with
  | push side s => exact h.answer (htwin.push side s) _
  | pop side => exact h.answer (htwin.pop side) _
  | get i => exact h.answer (htwin.get? i) _
  | replaceAt i s => exact h.answer (htwin.replaceAt i s) _
  | eraseRange start n => exact h.answer (htwin.eraseRange start n) _
  | rotate => exact h.done htwin.rotate
  | append p => exact h.done (htwin.appendBlock p.property)
  | appendValues p => exact h.done (htwin.pushAll p.val.values)
  | index i =>
    refine (htwin.index i).bind_alike fun c c' found hc => ?_
    exact agree_pure ⟨(h.withChain hc).take found, rfl⟩
  | insert handle place s =>
    cases handle with
    | none => exact h.done (htwin.insert none place s)
    | some handle =>
      simp only [Client.ask, h.taken_eq]
      split
      · exact .ok ⟨h, rfl⟩
      · exact h.done (htwin.insert _ place s)
  | replace handle s =>
    simp only [Client.ask, h.taken_eq]
    split
    · exact .ok ⟨h, rfl⟩
    · exact h.done (htwin.replace _ s)
  | appendBytes blob =>
    rw [Client.ask, Client.ask, Chain.appendBytes, Chain.appendBytes]
    cases hblob : Packed.ofBytes blob with
    | error d => exact .ok ⟨h, rfl⟩
    | ok p =>
      have happend := htwin.appendBlock (Packed.wellFormed_of_ofBytes hblob).2
      refine Agree.bind (R := fun r r' => ∃ c c', r = .ok c ∧ r' = .ok c' ∧ c.Twin c') ?_ ?_
      · exact happend.bind fun c c' hc => agree_pure ⟨c, c', rfl, rfl, hc⟩
      · rintro _ _ ⟨c, c', rfl, rfl, hc⟩
        exact agree_pure ⟨h.withChain hc, rfl⟩
  | beginWalk origin start =>
    refine (begin htwin origin start).bind_alike fun c c' w hc => ?_
    exact agree_pure ⟨(h.withChain hc).withWalk _, rfl⟩
  | setFill setting => exact .ok ⟨h.withChain { htwin with fill_eq := rfl }, rfl⟩
  | setDepth depth => exact .ok ⟨h.withChain { htwin with }, rfl⟩
  | duplicate => exact .ok ⟨⟨htwin.duplicate, rfl, rfl⟩, rfl⟩
  | next => exact .ok ⟨h, rfl⟩
  | erase => exact .ok ⟨h, rfl⟩
  | finish => exact .ok ⟨h, rfl⟩

/-- **A call while a walk is open.** -/
theorem walkOn (h : k.Twin k') (o : OpenWalk) (call : Call) :
    Agree Alike (k.walkOn o call) (k'.walkOn o call) := by
  have htwin := h.chain
  cases call with
  | next =>
    refine (Walk.next_agree htwin o.walk).bind fun r r' hr => ?_
    obtain ⟨w, c, found⟩ := r
    obtain ⟨w', c', found'⟩ := r'
    obtain ⟨rfl, hc, rfl⟩ : w = w' ∧ c.Twin c' ∧ found = found' := hr
    exact agree_pure ⟨((h.withChain hc).take found).withWalk _, rfl⟩
  | erase =>
    unfold Client.walkOn
    dsimp only
    split
    · exact .ok ⟨h, rfl⟩
    · refine (Walk.erase_agree htwin o.walk _).bind fun r r' hr => ?_
      obtain ⟨w, c, gone⟩ := r
      obtain ⟨w', c', gone'⟩ := r'
      obtain ⟨rfl, hc, rfl⟩ : w = w' ∧ c.Twin c' ∧ gone = gone' := hr
      refine agree_pure ⟨(h.withChain hc).withWalk _, ?_⟩
      rw [Walk.block?_eq hc]
  | finish =>
    refine (Walk.finish_agree htwin o.walk).bind fun c c' hc => ?_
    exact agree_pure ⟨(h.withChain hc).withWalk none, rfl⟩
  | _ => exact .ok ⟨h, rfl⟩

/-- **A call answers the same on both sides.** -/
theorem perform (h : k.Twin k') (call : Call) :
    Agree Alike (k.perform call) (k'.perform call) := by
  unfold Client.perform
  rw [h.walking_eq]
  split
  · exact h.ask call
  · exact h.walkOn _ call

/-- A client that sets its depth shows nothing of it. -/
theorem trace_setDepth (h : k.Twin k') (depth : Int) (calls : List Call) :
    ∃ k₁, k₁.Twin k' ∧ trace (.setDepth depth :: calls) k = trace calls k₁ := by
  rw [trace, Client.perform]
  cases k.walking with
  | none => exact ⟨k.withChain (k.chain.withDepth depth), ⟨{ h.chain with }, h.2, h.3⟩, rfl⟩
  | some o => exact ⟨k, h, rfl⟩

theorem symm (h : k.Twin k') : k'.Twin k :=
  ⟨h.chain.symm, h.taken_eq.symm, h.walking_eq.symm⟩

/-- **Twins show the same**, call by call. -/
theorem trace (h : k.Twin k') (turns : List Turn) :
    Coincide (trace (Turn.firstCalls turns) k) (Client.trace (Turn.secondCalls turns) k') := by
  induction turns generalizing k k' with
  | nil => exact .inl rfl
  | cons turn turns ih =>
    cases turn with
    | first depth =>
      obtain ⟨k₁, h₁, htrace⟩ := h.trace_setDepth depth (Turn.firstCalls turns)
      rw [Turn.firstCalls, htrace]
      exact ih h₁
    | second depth =>
      obtain ⟨k₁, h₁, htrace⟩ := h.symm.trace_setDepth depth (Turn.secondCalls turns)
      rw [Turn.secondCalls, htrace]
      exact ih h₁.symm
    | both call =>
      -- a fault ends both traces, unless the compressor has met it on one side alone
      have hagree := h.perform call
      rw [Turn.firstCalls, Turn.secondCalls, Client.trace, Client.trace]
      generalize k.perform call = m at hagree ⊢
      generalize k'.perform call = m' at hagree ⊢
      cases hagree with
      | error f => exact .inl rfl
      | overrunFirst => exact coincide_overrunFirst _
      | overrunSecond => exact coincide_overrunSecond _
      | ok hr =>
        obtain ⟨hk, hanswer⟩ := hr
        dsimp only
        split
        · exact ih hk
        · rw [hanswer, hk.chain.view_eq]
          exact (ih hk).cons _

end Twin

/-- The empty lists of one fill are twins, whatever their depths are. -/
theorem twin_ofOptions (setting depth depth' : Int) :
    (ofOptions setting depth).Twin (ofOptions setting depth') := by
  refine ⟨⟨rfl, ?_, rfl, rfl, rfl, rfl⟩, rfl, rfl⟩
  exact fun i hi => absurd hi (Nat.not_lt_zero i)

/-- **Compression is invisible.** Under any two depths, and however either side sets its own
on the way, the same calls show the same, until the compressor stops one of the runs. -/
theorem trace_coincide (setting depth depth' : Int) (turns : List Turn) :
    Coincide (trace (Turn.firstCalls turns) (ofOptions setting depth))
      (trace (Turn.secondCalls turns) (ofOptions setting depth')) :=
  (twin_ofOptions setting depth depth').trace turns

end Client

end UnrolledList
