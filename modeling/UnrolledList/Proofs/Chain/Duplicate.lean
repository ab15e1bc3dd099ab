import Mathlib.Data.List.Nodup
import UnrolledList.Proofs.Chain.Copying
import UnrolledList.Proofs.Chain.Integrity
import UnrolledList.Proofs.Chain.Invisible
import UnrolledList.Proofs.Chain.Nameless

/-!
# A copy and the list

**A copy does what the list does**, as long as no block of the list is open for use
(`UnrolledList.Session.run_copies`). Two clients, one of which has the list and the other one
the copy, are told the same by the same calls, and after each call the two lists are the same
but for names (`UnrolledList.Client.displays`).

The names of a list are in any order, while those of its copy go from head to tail. So the copy
is a renaming of the list, where each name stands for its number among those in use and those
that are vacant (`UnrolledList.Renaming.numbering`).

## Blocks that are open

What is not copied is the mark of a block that was opened for use. The list remembers to
compress it again, and its copy does not, so a copy that is taken then has a block inside that
nobody compresses (`UnrolledList.Session.run_opened`). Nothing else comes of it. The list with
its marks taken off is a twin of the list (`UnrolledList.Chain.unmarked`), and the copy is a
renaming of that; so the answers are the same and so are the numbers and sizes of blocks, until
the compressor stops one of the runs.
-/

namespace UnrolledList

/-! ### What is seen without names -/

/-- The handle without the name and the stamp. -/
def Handle.bare (h : Handle) : Handle :=
  { h with block := ⟨0⟩, stamp := 0 }

/-- The answer without names and stamps. -/
def Answer.bare : Answer → Answer
  | .handle h => .handle (h.map Handle.bare)
  | .resumes block offset gone => .resumes (block.map fun _ => ⟨0⟩) offset gone
  | answer => answer

/-- The list without names and stamp. -/
def Chain.bare (c : Chain) : Chain where
  cells := c.cells.map fun cell => ⟨⟨0⟩, cell.block⟩
  count := c.count
  fill := c.fill
  depth := c.depth

/-- What a block shows of itself. -/
structure Block.Summary where
  /-- The number of entries. -/
  count : Nat
  /-- The size in bytes of the packed list. -/
  size : Nat
  /-- Whether the list is compressed. -/
  isCompressed : Bool
  /-- Whether compression was attempted. -/
  tried : Bool
deriving DecidableEq

/-- What a block shows. -/
def Block.summary (b : Block) : Block.Summary :=
  ⟨b.count, b.size, b.isCompressed, b.tried⟩

namespace Client

/-- What a run shows without names, call by call: the answer, and the whole list after it; at
the end there may be a fault. -/
def displays : List Call → Client → List (Except Fault (Answer × Chain))
  | [], _ => []
  | call :: calls, k =>
    match k.perform call with
    | .error f => [.error f]
    | .ok (k, answer) => .ok (answer.bare, k.chain.bare) :: displays calls k

/-- What a run shows without names and apart from the way blocks are kept. -/
def sketches (calls : List Call) (k : Client) : List (Except Fault (Answer × View)) :=
  (displays calls k).map (Except.map fun shown => (shown.1, shown.2.view))

end Client

theorem Chain.Renamed.bare_eq {ρ : Renaming} {c c' : Chain} (h : c.Renamed ρ c') :
    c'.bare = c.bare := by
  simp only [Chain.bare, h.cells_eq, h.count_eq, h.fill_eq, h.depth_eq, Array.map_map]
  rfl

/-- Twins are twins without their names. -/
theorem Chain.Twin.bare {c c' : Chain} (h : c.Twin c') : c.bare.Twin c'.bare where
  size_eq := by simp [Chain.bare, h.size_eq]
  cell i hi hi' := by
    have hcell := h.cell i (by simpa [Chain.bare] using hi) (by simpa [Chain.bare] using hi')
    simp only [Chain.bare, Array.getElem_map]
    exact ⟨rfl, hcell.block⟩
  arena_eq := rfl
  count_eq := h.count_eq
  fill_eq := h.fill_eq
  stamp_eq := rfl

/-- **Twins are sketched the same**, until the compressor stops one of them. -/
theorem Client.Twin.sketches {k k' : Client} (h : k.Twin k') (calls : List Call) :
    Coincide (sketches calls k) (Client.sketches calls k') := by
  induction calls generalizing k k' with
  | nil => exact .inl rfl
  | cons call calls ih =>
    have hagree := h.perform call
    rw [Client.sketches, Client.sketches, displays, displays]
    generalize k.perform call = m at hagree ⊢
    generalize k'.perform call = m' at hagree ⊢
    cases hagree with
    | error f => exact .inl rfl
    | overrunFirst => exact coincide_overrunFirst _
    | overrunSecond => exact coincide_overrunSecond _
    | ok hr =>
      obtain ⟨hk, hanswer⟩ := hr
      dsimp only
      rw [List.map_cons, List.map_cons, hanswer, Except.map, Except.map, hk.chain.bare.view_eq]
      exact (ih hk).cons _

/-! ### Clients of renamed lists -/

/-- The walk as the other side would have it. -/
def Renaming.openWalk (ρ : Renaming) (o : OpenWalk) : OpenWalk :=
  { o with last := o.last.map ρ.handle }

/-- The clients differ in names and stamps. -/
structure Client.Renamed (ρ : Renaming) (k k' : Client) : Prop where
  /-- The lists are renamed. -/
  chain : k.chain.Renamed ρ k'.chain
  /-- The handles that were taken stand for each other. -/
  taken_eq : k'.taken = k.taken.map ρ.handle
  /-- The same walk is open. -/
  walking_eq : k'.walking = k.walking.map ρ.openWalk

namespace Client

/-- The clients differ in names and stamps, and the answers are the same without them. -/
def BarelyAlike (r r' : Client × Answer) : Prop :=
  (∃ ρ, r.1.Renamed ρ r'.1) ∧ r'.2.bare = r.2.bare

namespace Renamed

variable {ρ : Renaming} {k k' : Client} {c c' : Chain}

theorem withChain (h : k.Renamed ρ k') (hc : c.Renamed ρ c') :
    (k.withChain c).Renamed ρ (k'.withChain c') :=
  ⟨hc, h.taken_eq, h.walking_eq⟩

theorem take (h : k.Renamed ρ k') (handle : Option Handle) :
    (k.take handle).Renamed ρ (k'.take (handle.map ρ.handle)) := by
  refine ⟨h.chain, ?_, h.walking_eq⟩
  rw [Client.take, Client.take, h.taken_eq, List.map_append]
  cases handle <;> rfl

theorem withWalk (h : k.Renamed ρ k') (walking : Option OpenWalk) :
    (k.withWalk walking).Renamed ρ (k'.withWalk (walking.map ρ.openWalk)) :=
  ⟨h.chain, h.taken_eq, rfl⟩

theorem getElem?_taken (h : k.Renamed ρ k') (n : Nat) :
    k'.taken[n]? = k.taken[n]?.map ρ.handle := by
  rw [h.taken_eq, List.getElem?_map]

/-- A call that cannot be made. -/
theorem idle (h : k.Renamed ρ k') :
    Concur BarelyAlike (.ok (k, .idle)) (.ok (k', .idle)) :=
  .ok ⟨⟨ρ, h⟩, rfl⟩

/-- What is answered beside a list. -/
theorem answer {α : Type} {m m' : Except Fault (Chain × α)} (h : k.Renamed ρ k')
    (hm : Concur (Chain.RenamedBeside ρ id) m m') (f : α → Answer) :
    Concur BarelyAlike (do let (c, a) ← m; return (k.withChain c, f a))
      (do let (c, a) ← m'; return (k'.withChain c, f a)) :=
  hm.bind_beside fun _ _ _ hc => concur_pure ⟨⟨ρ, h.withChain hc⟩, rfl⟩

/-- Where only a list is given, nothing else is answered. -/
theorem done {m m' : Except Fault Chain} (h : k.Renamed ρ k')
    (hm : Concur (Chain.Renamed ρ) m m') :
    Concur BarelyAlike (do let c ← m; return (k.withChain c, .done))
      (do let c ← m'; return (k'.withChain c, .done)) :=
  hm.bind fun _ _ hc => concur_pure ⟨⟨ρ, h.withChain hc⟩, rfl⟩

theorem begin (h : c.Renamed ρ c') (origin : Side) (start : Option Int) :
    Concur (Chain.RenamedBeside ρ id) (Session.begin c origin start)
      (Session.begin c' origin start) := by
  cases start with
  | none => exact .ok ⟨h, congrArg some (Walk.renamed_ofEnd h origin)⟩
  | some i => exact Walk.renamed_ofIndex h origin i

/-- **A call while no walk is open.** -/
theorem ask (h : k.Renamed ρ k') (call : Call) : Concur BarelyAlike (k.ask call) (k'.ask call) := by
  have hchain := h.chain
  cases call with
  | push side s => exact h.answer (hchain.push side s) _
  | pop side => exact h.answer (hchain.pop side) _
  | get i => exact h.answer (hchain.get? i) _
  | replaceAt i s => exact h.answer (hchain.replaceAt i s) _
  | eraseRange start n => exact h.answer (hchain.eraseRange start n) _
  | rotate => exact h.done hchain.rotate
  | append p => exact h.done (hchain.appendBlock p.val)
  | appendValues p => exact h.done (hchain.pushAll p.val.values)
  | index i =>
    refine (hchain.index i).bind_beside fun c c' found hc => ?_
    exact concur_pure ⟨⟨ρ, (h.withChain hc).take found⟩, by cases found <;> rfl⟩
  | insert handle place s =>
    cases handle with
    | none => exact h.done (hchain.insert none place s)
    | some number =>
      simp only [Client.ask, h.getElem?_taken]
      cases k.taken[number]? with
      | none => exact h.idle
      | some handle => exact h.done (hchain.insert (some handle) place s)
  | replace number s =>
    simp only [Client.ask, h.getElem?_taken]
    cases k.taken[number]? with
    | none => exact h.idle
    | some handle => exact h.done (hchain.replace handle s)
  | appendBytes blob =>
    rw [Client.ask, Client.ask, Chain.appendBytes, Chain.appendBytes]
    cases Packed.ofBytes blob with
    | error d => exact .ok ⟨⟨ρ, h⟩, rfl⟩
    | ok p =>
      refine Concur.bind (R := fun r r' => ∃ c c', r = .ok c ∧ r' = .ok c' ∧ c.Renamed ρ c') ?_ ?_
      · exact (hchain.appendBlock p).bind fun c c' hc => concur_pure ⟨c, c', rfl, rfl, hc⟩
      · rintro _ _ ⟨c, c', rfl, rfl, hc⟩
        exact concur_pure ⟨⟨ρ, h.withChain hc⟩, rfl⟩
  | beginWalk origin start =>
    refine (begin hchain origin start).bind_beside fun c c' w hc => ?_
    have hwalk := (h.withChain hc).withWalk (w.map fun w => { walk := w })
    refine concur_pure ⟨⟨ρ, ?_⟩, rfl⟩
    cases w <;> exact hwalk
  | setFill setting => exact .ok ⟨⟨ρ, h.withChain { hchain with fill_eq := rfl }⟩, rfl⟩
  | setDepth depth => exact .ok ⟨⟨ρ, h.withChain { hchain with depth_eq := rfl }⟩, rfl⟩
  | duplicate =>
    -- the copies are equal, so from here on nothing is renamed
    refine .ok ⟨⟨.refl, ?_, rfl, rfl⟩, rfl⟩
    rw [hchain.duplicate_eq]
    exact Chain.renamed_refl _
  | next => exact h.idle
  | erase => exact h.idle
  | finish => exact h.idle

/-- **A call while a walk is open.** -/
theorem walkOn (h : k.Renamed ρ k') (o : OpenWalk) (call : Call) :
    Concur BarelyAlike (k.walkOn o call) (k'.walkOn (ρ.openWalk o) call) := by
  have hchain := h.chain
  cases call with
  | next =>
    refine (Walk.renamed_next hchain o.walk).bind ?_
    rintro ⟨w₀, c, found⟩ ⟨w, c', found'⟩ hr
    obtain ⟨rfl, hc, rfl⟩ : w = w₀ ∧ c.Renamed ρ c' ∧ found' = found.map ρ.handle := hr
    refine concur_pure ⟨⟨ρ, ((h.withChain hc).take found).withWalk (some ⟨w, found⟩)⟩, ?_⟩
    cases found <;> rfl
  | erase =>
    cases hlast : o.last with
    | none =>
      simp only [Client.walkOn, Renaming.openWalk, hlast, Option.map_none]
      exact h.idle
    | some handle =>
      simp only [Client.walkOn, Renaming.openWalk, hlast, Option.map_some]
      refine (Walk.renamed_erase hchain o.walk handle).bind ?_
      rintro ⟨w₀, c, gone⟩ ⟨w, c', gone'⟩ hr
      obtain ⟨rfl, hc, rfl⟩ : w = w₀ ∧ c.Renamed ρ c' ∧ gone' = gone := hr
      refine concur_pure ⟨⟨ρ, (h.withChain hc).withWalk (some { walk := w })⟩, ?_⟩
      simp only [Answer.bare, Walk.renamed_block? hc, Option.map_map]
      rfl
  | finish =>
    refine (Walk.renamed_finish hchain o.walk).bind fun c c' hc => ?_
    exact concur_pure ⟨⟨ρ, (h.withChain hc).withWalk none⟩, rfl⟩
  | _ => exact h.idle

/-- **A call answers the same but for names.** -/
theorem perform (h : k.Renamed ρ k') (call : Call) :
    Concur BarelyAlike (k.perform call) (k'.perform call) := by
  unfold Client.perform
  rw [h.walking_eq]
  cases k.walking with
  | none => exact h.ask call
  | some o => exact h.walkOn o call

/-- **Clients of renamed lists are shown the same**, call by call. -/
theorem displays_eq (h : k.Renamed ρ k') (calls : List Call) :
    displays calls k' = displays calls k := by
  induction calls generalizing k k' ρ with
  | nil => rfl
  | cons call calls ih =>
    have hconcur := h.perform call
    rw [displays, displays]
    generalize k.perform call = m at hconcur ⊢
    generalize k'.perform call = m' at hconcur ⊢
    cases hconcur with
    | error f => rfl
    | ok hr =>
      obtain ⟨⟨ρ', hk⟩, hanswer⟩ := hr
      dsimp only
      rw [hanswer, hk.chain.bare_eq, ih hk]

end Renamed

end Client

/-! ### Names in order -/

namespace Renaming

/-- Each name of a list of names stands for its number there, if those are the names that are
made first. All others stand for themselves. -/
def numbering (ids : List BlockId) (h : ids.Perm (BlockId.names ids.length)) (lag : UInt64) :
    Renaming where
  name id := if id ∈ ids then ⟨ids.idxOf id⟩ else id
  injective id id' := by
    have hnumber : ∀ {id}, id ∈ ids → (⟨ids.idxOf id⟩ : BlockId) ∈ ids := fun hid =>
      h.mem_iff.mpr (BlockId.mem_names.mpr (List.idxOf_lt_length_of_mem hid))
    intro heq
    dsimp only at heq
    split at heq <;> split at heq
    · next hid hid' => exact (List.idxOf_inj hid).mp (congrArg BlockId.slot heq)
    · next hid hid' => exact absurd (heq ▸ hnumber hid) hid'
    · next hid hid' => exact absurd (heq ▸ hnumber hid') hid
    · exact heq
  lag := lag

/-- Numbered, the names are in order. -/
theorem map_name_numbering {ids : List BlockId} (h : ids.Perm (BlockId.names ids.length))
    (lag : UInt64) : ids.map (numbering ids h lag).name = BlockId.names ids.length := by
  have hnodup : ids.Nodup := h.nodup_iff.mpr (BlockId.nodup_names _)
  refine List.ext_getElem (by simp [BlockId.names]) fun i hi hi' => ?_
  simp [numbering, BlockId.names, hnodup.idxOf_getElem]

end Renaming

/-! ### Links in order -/

namespace Arena

variable {ρ : Renaming} {a a' : Arena} {id : BlockId} {ids : List BlockId}
  {before after : Option BlockId}

/-- Where the blocks of both sides are linked in the same order, they have the same neighbours. -/
theorem Linked.link?_name (h : a.Linked before ids after)
    (h' : a'.Linked (before.map ρ.name) (ids.map ρ.name) (after.map ρ.name)) (hid : id ∈ ids) :
    a'.link? (ρ.name id) = (a.link? id).map ρ.links := by
  induction ids generalizing before with
  | nil => contradiction
  | cons x ids ih =>
    obtain ⟨hx, hrest⟩ := h
    obtain ⟨hx', hrest'⟩ := h'
    rcases List.mem_cons.mp hid with rfl | hmem
    · rw [hx, hx', List.head?_map, ← Option.map_or]
      rfl
    · exact ih hrest hrest' hmem

theorem endOf_map (ids : List BlockId) (side : Side) :
    endOf (ids.map ρ.name) side = (endOf ids side).map ρ.name := by
  cases side with
  | head => exact List.head?_map
  | tail => exact List.getLast?_map

/-- **Blocks that are linked in the same order** are linked in the same way. -/
theorem Orders.renamed (h : a.Orders ids) (h' : a'.Orders (ids.map ρ.name))
    (hlive : ∀ id, (a.link? id).isSome → id ∈ ids)
    (hlive' : ∀ id, (a'.link? id).isSome → id ∈ ids.map ρ.name)
    (hsupply : ∃ made, a.nodes.size = a'.nodes.size + made ∧
      a.free.map ρ.name = a'.free ++ BlockId.next a'.nodes.size made)
    (hbeyond : ∀ n, a.nodes.size ≤ n → ρ.name ⟨n⟩ = ⟨n⟩) : a.Renamed ρ a' where
  link?_eq id := by
    by_cases hid : id ∈ ids
    · exact h.linked.link?_name h'.linked hid
    · have hnone : a.link? id = none :=
        Option.not_isSome_iff_eq_none.mp fun hsome => hid (hlive id hsome)
      have hnone' : a'.link? (ρ.name id) = none :=
        Option.not_isSome_iff_eq_none.mp fun hsome =>
          hid ((List.mem_map_of_injective ρ.injective).mp (hlive' _ hsome))
      rw [hnone, hnone', Option.map_none]
  ends side := by rw [h.ends, h'.ends, endOf_map]
  len_eq := by rw [h.len_eq, h'.len_eq, List.length_map]
  supply := hsupply
  beyond := hbeyond

end Arena

namespace Chain

variable {c : Chain} {l : Layout}

/-- The list without the marks of blocks that were opened for use. -/
def unmarked (c : Chain) : Chain :=
  { c with cells := c.cells.map fun cell => ⟨cell.id, cell.block.duplicate⟩ }

theorem unmarked_eq (h : ∀ b ∈ c.blocks, b.pending = false) : c.unmarked = c := by
  have hcells : c.unmarked.cells = c.cells := by
    refine Array.ext (by simp [unmarked]) fun i hi hi' => ?_
    have hb := h c.cells[i].block (List.mem_map_of_mem (Array.getElem_mem_toList hi'))
    simp [unmarked, Block.duplicate, ← hb]
  rw [Chain.mk.injEq]
  exact ⟨hcells, rfl, rfl, rfl, rfl, rfl⟩

/-- A list that can be read is a twin of the list without its marks. -/
theorem Has.twin_unmarked (h : c.Has l) : c.Twin c.unmarked where
  size_eq := by simp [unmarked]
  cell i hi hi' := by
    have hlt : i < l.leaves.length := h.cells.length_eq ▸ hi
    have hshows := (List.forall₂_iff_get.mp h.cells).2 i hi hlt
    have hcell : c.unmarked.cells[i] = ⟨c.cells[i].id, c.cells[i].block.duplicate⟩ := by
      simp [unmarked]
    rw [hcell]
    exact ⟨rfl, ⟨_, hshows.keeps, hshows.keeps.of_content rfl rfl⟩, rfl⟩
  arena_eq := rfl
  count_eq := rfl
  fill_eq := rfl
  stamp_eq := rfl

/-- **A copy is a renaming** of the list without its marks. -/
theorem Has.renamed_duplicate (h : c.Has l) (hs : l.Sound) :
    ∃ ρ, c.unmarked.Renamed ρ c.duplicate := by
  have hnamed := hs.named
  rw [← h.ids_eq, ← h.vacant_eq, ← h.slots_eq] at hnamed
  have hslots : (c.ids ++ c.vacant).length = c.slots := by
    rw [hnamed.length_eq, BlockId.names, List.length_map, List.length_range]
  have hids : c.ids.length = c.length := by
    rw [ids, List.length_map, Array.length_toList, length]
  rw [← hslots] at hnamed
  -- the names in use come first, so each of them stands for the number of its block
  have hsplit := Renaming.map_name_numbering hnamed c.stamp
  have hmade : BlockId.names (c.ids ++ c.vacant).length =
      BlockId.names c.length ++ BlockId.next c.length c.vacant.length := by
    rw [List.length_append, hids, BlockId.names, BlockId.names, BlockId.next, ← List.map_append,
      List.range_eq_range', List.range_eq_range', ← List.range'_append_1, Nat.zero_add]
  rw [hmade, List.map_append] at hsplit
  obtain ⟨huse, hvacant⟩ := List.append_inj hsplit (by simp [BlockId.names, hids])
  obtain ⟨hrow, hfree, hsize⟩ := Arena.orders_row c.length
  have horders : c.arena.Orders c.ids := by
    rw [h.ids_eq]
    exact h.orders
  have hinOrder := h.inOrder hs
  refine ⟨.numbering _ hnamed c.stamp, ?_, horders.renamed (huse ▸ hrow)
    (fun id hid => (hinOrder.isSome_link? id).mp hid) (fun id hid => ?_)
    ⟨c.vacant.length, ?_, ?_⟩ (fun n hn => ?_), ?_, rfl, rfl, (UInt64.sub_self _).symm⟩
  · refine Array.ext (by simp [Chain.duplicate, unmarked]) fun i hi hi' => ?_
    have hlt : i < c.cells.size := by simpa [unmarked] using hi'
    have hid : c.ids[i]? = some c.cells[i].id := by simp [ids, Array.getElem?_eq_getElem hlt]
    have hname := congrArg (·[i]?) huse
    simp only [List.getElem?_map, hid, BlockId.names,
      List.getElem?_range (show i < c.length from hlt), Option.map_some, Option.some.injEq] at hname
    simp [Chain.duplicate, unmarked, Renaming.cell, hname]
  · rw [huse, BlockId.mem_names, ← hsize]
    exact Arena.lt_size_of_link? hid
  · change c.slots = (Arena.row c.length).nodes.size + c.vacant.length
    rw [hsize, ← hslots, List.length_append, hids]
  · change c.vacant.map _ = (Arena.row c.length).free ++ BlockId.next (Arena.row _).nodes.size _
    rw [hfree, hsize, hvacant, List.nil_append]
  · refine if_neg fun hmem => ?_
    have hlt := BlockId.mem_names.mp (hnamed.mem_iff.mp hmem)
    rw [hslots] at hlt
    exact absurd hn (Nat.not_le_of_lt hlt)
  · have hcopy : c.duplicate.count = Layout.total l.leaves := h.duplicate.count_eq
    rw [hcopy, ← hs.count_eq, ← h.count_eq]
    rfl

/-! ### What is copied -/

/-- The list is in order, and shows what the other one shows. -/
structure Copies (c' c : Chain) : Prop where
  /-- It is in order. -/
  inOrder : c'.InOrder
  /-- The fill is the same. -/
  fill_eq : c'.fill = c.fill
  /-- The depth is the same. -/
  depth_eq : c'.depth = c.depth
  /-- The number of elements is the same. -/
  count_eq : c'.count = c.count
  /-- The number of blocks is the same. -/
  length_eq : c'.length = c.length
  /-- The elements are the same. -/
  elements_eq : c'.elements = c.elements
  /-- The blocks are the same, one by one, as far as they show themselves. -/
  summaries_eq : c'.blocks.map Block.summary = c.blocks.map Block.summary

theorem Has.copies (h : c.Has l) (hs : l.Sound) : c.duplicate.Copies c := by
  obtain ⟨ρ, hrenamed⟩ := h.renamed_duplicate hs
  have hblocks : c.duplicate.blocks = c.blocks.map Block.duplicate := by
    rw [hrenamed.blocks_eq]
    simp [unmarked, blocks]
  have hlength : c.unmarked.length = c.length := by simp [unmarked, length]
  refine ⟨h.duplicate.inOrder hs.duplicate, rfl, rfl, hrenamed.count_eq,
    hrenamed.length_eq.trans hlength, ?_, ?_⟩
  · rw [elements, elements, hblocks, List.flatMap_map]
    rfl
  · rw [hblocks, List.map_map]
    rfl

end Chain

namespace Session

/-- **A copy shows what the list shows**, and then goes on to do what the list does: the same
calls are answered the same, and leave blocks of the same numbers and sizes. If no block of the
list is open when it is copied, the two are never told apart. -/
theorem run_copies (setting depth : Int) (as : List Action) :
    Ensures ((ofOptions setting depth).run as) fun r =>
      r.1.chain.duplicate.Copies r.1.chain ∧
        (∀ calls, Coincide (Client.sketches calls { chain := r.1.chain })
          (Client.sketches calls { chain := r.1.chain.duplicate })) ∧
        ((∀ b ∈ r.1.chain.blocks, b.pending = false) → ∀ calls,
          Client.displays calls { chain := r.1.chain.duplicate } =
            Client.displays calls { chain := r.1.chain }) := by
  refine ((follows_ofOptions setting depth).run as).imp fun r hr => ?_
  obtain ⟨⟨l, hl, hs, -, -⟩, -⟩ := hr
  obtain ⟨ρ, hrenamed⟩ := hl.renamed_duplicate hs
  have hclients : Client.Renamed ρ { chain := r.1.chain.unmarked }
      { chain := r.1.chain.duplicate } := ⟨hrenamed, rfl, rfl⟩
  refine ⟨hl.copies hs, fun calls => ?_, fun hno calls => ?_⟩
  · have htwin : Client.Twin { chain := r.1.chain } { chain := r.1.chain.unmarked } :=
      ⟨hl.twin_unmarked, rfl, rfl⟩
    have hsketches := htwin.sketches calls
    rwa [Client.sketches, Client.sketches, ← hclients.displays_eq] at hsketches
  · rw [hclients.displays_eq, Chain.unmarked_eq hno]

/-- Three blocks of one entry each with a depth of one. The middle one is compressed. -/
def tripled : List Action :=
  [.push .tail [97], .push .tail (List.replicate 40 98), .push .tail [99]]

theorem run_copies_tripled :
    ∃ r, (ofOptions 1 1).run tripled = .ok r ∧
      r.1.chain.blocks.map Block.summary =
        [⟨1, 14, false, false⟩, ⟨1, 53, true, true⟩, ⟨1, 14, false, false⟩] ∧
      ∀ calls, Client.displays calls { chain := r.1.chain.duplicate } =
        Client.displays calls { chain := r.1.chain } := by
  have hrun : ∃ r, (ofOptions 1 1).run tripled = .ok r ∧
      r.1.chain.blocks.map Block.summary =
        [⟨1, 14, false, false⟩, ⟨1, 53, true, true⟩, ⟨1, 14, false, false⟩] ∧
      ∀ b ∈ r.1.chain.blocks, b.pending = false :=
    exists_eq_ok (by decide +kernel)
  obtain ⟨r, hr, hsummaries, hno⟩ := hrun
  have hcopies := run_copies 1 1 tripled
  rw [hr] at hcopies
  exact ⟨r, hr, hsummaries, hcopies.2.2 hno⟩

/-- **The mark of a block that is open is not copied**: when an element has been looked up and
is read then, the list compresses its block again and the copy leaves it as it is. -/
theorem run_opened :
    ∃ r, (ofOptions 1 1).run (tripled ++ [.index 1]) = .ok r ∧
      (Client.displays [.get 1] { chain := r.1.chain }).map
        (Except.map fun shown => shown.2.blocks.map Block.summary) =
          [.ok [⟨1, 14, false, false⟩, ⟨1, 53, true, true⟩, ⟨1, 14, false, false⟩]] ∧
      (Client.displays [.get 1] { chain := r.1.chain.duplicate }).map
        (Except.map fun shown => shown.2.blocks.map Block.summary) =
          [.ok [⟨1, 14, false, false⟩, ⟨1, 53, false, false⟩, ⟨1, 14, false, false⟩]] :=
  exists_eq_ok (by decide +kernel)

end Session

end UnrolledList
