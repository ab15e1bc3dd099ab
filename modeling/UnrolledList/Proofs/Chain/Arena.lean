import Mathlib.Data.List.Nodup
import UnrolledList.Chain.Arena
import UnrolledList.Proofs.Limits

/-!
# Links in order

An arena **orders** the blocks of a list (`UnrolledList.Arena.Orders`) if its links lead from
each block to the next one and back, its ends are the first block and the last one, and the
names that were given up are neither those of blocks nor have a slot that is not empty.

## How a change of links is followed

Whatever changes links, changes them block by block: there is a function that says what the
neighbours of each block become (`UnrolledList.Arena.Relinks`). For a block that is linked
between two others, or unlinked, only the two blocks at the **seam** get another neighbour,
the one before it on the side of the tail and the one behind it on the side of the head. What
lies farther away does not see it, so a list is taken apart there
(`UnrolledList.Arena.linked_append`), each part gets another end
(`UnrolledList.Arena.Linked.retail`, `UnrolledList.Arena.Linked.rehead`), and the parts are
put together again.

From `UnrolledList.Arena.Orders` it follows that no name without a block is asked for its
neighbours, that is, linking and unlinking give a result.
-/

namespace UnrolledList

namespace BlockId

/-- The names that are made first. -/
def names (slots : Nat) : List BlockId :=
  (List.range slots).map mk

theorem names_succ (slots : Nat) : names (slots + 1) = names slots ++ [⟨slots⟩] := by
  simp [names, List.range_succ]

theorem mem_names {id : BlockId} {slots : Nat} : id ∈ names slots ↔ id.slot < slots := by
  rw [names, List.mem_map]
  constructor
  · rintro ⟨slot, hslot, rfl⟩
    exact List.mem_range.mp hslot
  · exact fun h => ⟨id.slot, List.mem_range.mpr h, rfl⟩

/-- The names that are made are all different. -/
theorem nodup_names (slots : Nat) : (names slots).Nodup :=
  List.Pairwise.map _ (fun _ _ hne => by simpa using hne) List.nodup_range

end BlockId

namespace Arena

variable {a a' a'' : Arena} {id new : BlockId} {ids pre post : List BlockId}
  {g g' : BlockId → Links → Links} {before after : Option BlockId} {side : Side}

/-! ### Slots -/

/-- A name that was made has a slot. -/
theorem lt_size_of_link? (h : (a.link? id).isSome) : id.slot < a.nodes.size := by
  by_contra hge
  rw [link?, Array.getElem?_eq_none (Nat.le_of_not_lt hge)] at h
  contradiction

theorem node_eq {k : Links} (h : a.link? id = some k) : a.node id = .ok k := by
  rw [node, h]

/-- Where a slot is changed, the others are not. -/
theorem join_getElem?_set {nodes : Array (Option Links)} (h : id.slot < nodes.size)
    (k : Option Links) (id' : BlockId) :
    (nodes.set id.slot k h)[id'.slot]?.join = if id' = id then k else nodes[id'.slot]?.join := by
  obtain ⟨slot⟩ := id
  obtain ⟨slot'⟩ := id'
  rw [Array.getElem?_set]
  by_cases heq : slot = slot'
  · simp [heq]
  · simp [heq, Ne.symm heq]

/-- **A name that is taken** is that of a block without neighbours, and no other block is
touched. -/
theorem link?_alloc (a : Arena) (id : BlockId) :
    a.alloc.2.link? id = if id = a.alloc.1 then some {} else a.link? id := by
  obtain ⟨nodes, free, hfree, head, tail, len⟩ := a
  cases free with
  | cons id' free =>
    have hlt := hfree id' List.mem_cons_self
    simp only [alloc, link?, Array.setIfInBounds, hlt, dite_true]
    exact join_getElem?_set hlt _ _
  | nil =>
    obtain ⟨slot⟩ := id
    simp only [alloc, link?, Array.getElem?_push, BlockId.mk.injEq]
    split <;> rfl

/-- It is the one that was given up last, or else a new one. -/
theorem alloc_free (a : Arena) :
    (a.free = a.alloc.1 :: a.alloc.2.free ∧ a.alloc.2.nodes.size = a.nodes.size) ∨
      (a.free = [] ∧ a.alloc.1 = ⟨a.nodes.size⟩ ∧ a.alloc.2.free = [] ∧
        a.alloc.2.nodes.size = a.nodes.size + 1) := by
  obtain ⟨nodes, free, hfree, head, tail, len⟩ := a
  cases free with
  | cons id free => exact .inl ⟨rfl, Array.size_setIfInBounds⟩
  | nil => exact .inr ⟨rfl, rfl, rfl, Array.size_push _⟩

/-- Taking a name changes neither the ends -/
theorem endId?_alloc (a : Arena) (side : Side) : a.alloc.2.endId? side = a.endId? side := by
  obtain ⟨nodes, free, hfree, head, tail, len⟩ := a
  cases free <;> cases side <;> rfl

/-- nor the number of blocks. -/
theorem len_alloc (a : Arena) : a.alloc.2.len = a.len := by
  obtain ⟨nodes, free, hfree, head, tail, len⟩ := a
  cases free <;> rfl

/-- A name that is given up leaves an empty slot behind. -/
structure Releases (id : BlockId) (a a' : Arena) : Prop where
  /-- Its slot is empty, and the others are the same. -/
  link?_eq : ∀ id', a'.link? id' = if id' = id then none else a.link? id'
  /-- It is the first one to be taken again. -/
  free_eq : a'.free = id :: a.free
  /-- There are as many slots. -/
  size_eq : a'.nodes.size = a.nodes.size
  /-- The ends are the same. -/
  ends : ∀ side, a'.endId? side = a.endId? side
  /-- So is the number of blocks. -/
  len_eq : a'.len = a.len

theorem exists_release {k : Links} (h : a.link? id = some k) :
    ∃ a', a.release id = .ok (k, a') ∧ Releases id a a' := by
  have hlt : id.slot < a.nodes.size := lt_size_of_link? (by rw [h]; rfl)
  obtain ⟨nodes, free, hfree, head, tail, len⟩ := a
  have hk : nodes[id.slot] = some k := by
    simpa [link?, Array.getElem?_eq_getElem hlt] using h
  dsimp only at hlt
  simp only [release, dif_pos hlt, hk]
  exact ⟨_, rfl, fun id' => join_getElem?_set hlt _ _, rfl, Array.size_set hlt,
    fun side => by cases side <;> rfl, rfl⟩

/-- A name whose slot is empty cannot be given up. -/
theorem release_eq_missing (h : a.link? id = none) : a.release id = .error .missingBlock := by
  obtain ⟨nodes, free, hfree, head, tail, len⟩ := a
  simp only [release]
  split
  · next hlt =>
    simp only [link?, Array.getElem?_eq_getElem hlt, Option.join_some] at h
    simp only [h]
  · rfl

/-! ### Changes of links -/

/-- The neighbours of each block become what `g` makes of them, and nothing else is changed. -/
structure Relinks (g : BlockId → Links → Links) (a a' : Arena) : Prop where
  /-- The neighbours of a block are changed. -/
  link?_eq : ∀ id, a'.link? id = (a.link? id).map (g id)
  /-- There are as many slots. -/
  size_eq : a'.nodes.size = a.nodes.size
  /-- The same names are free. -/
  free_eq : a'.free = a.free
  /-- The ends are the same. -/
  ends : ∀ side, a'.endId? side = a.endId? side
  /-- So is the number of blocks. -/
  len_eq : a'.len = a.len

theorem Relinks.trans (h : Relinks g a a') (h' : Relinks g' a' a'') :
    Relinks (fun id k => g' id (g id k)) a a'' where
  link?_eq id := by
    rw [h'.link?_eq, h.link?_eq, Option.map_map]
    rfl
  size_eq := h'.size_eq.trans h.size_eq
  free_eq := h'.free_eq.trans h.free_eq
  ends side := (h'.ends side).trans (h.ends side)
  len_eq := h'.len_eq.trans h.len_eq

theorem relinks_refl (a : Arena) : Relinks (fun _ k => k) a a where
  link?_eq _ := Option.map_id'.symm
  size_eq := rfl
  free_eq := rfl
  ends side := by cases side <;> rfl
  len_eq := rfl

/-- No block is added, and none is lost. -/
theorem Relinks.isSome (h : Relinks g a a') (hid : (a.link? id).isSome) :
    (a'.link? id).isSome := by
  rw [h.link?_eq, Option.isSome_map]
  exact hid

/-- What the neighbours of the block `id` become when those of another one, if it is one, are
changed. -/
def relink (changed : Option BlockId) (side : Side) (other : Option BlockId) (id : BlockId)
    (k : Links) : Links :=
  if changed = some id then k.link side other else k

theorem relinks_withLink (a : Arena) (id : BlockId) (side : Side) (other : Option BlockId) :
    Relinks (relink (some id) side other) a (a.withLink id side other) where
  link?_eq id' := by
    obtain ⟨slot⟩ := id
    obtain ⟨slot'⟩ := id'
    simp only [withLink, link?, Array.getElem?_modify]
    by_cases hslot : slot = slot'
    · obtain rfl := hslot
      have hself : relink (some ⟨slot⟩) side other ⟨slot⟩ = (·.link side other) :=
        funext fun k => if_pos rfl
      rw [if_pos rfl, hself]
      rcases a.nodes[slot]? with _ | _ | _ <;> rfl
    · have hother : relink (some ⟨slot⟩) side other ⟨slot'⟩ = fun k => k :=
        funext fun k => if_neg (by simpa using hslot)
      rw [if_neg hslot, hother, Option.map_id']
  size_eq := Array.size_modify
  free_eq := rfl
  ends side := by cases side <;> rfl
  len_eq := rfl

theorem ensures_link (h : (a.link? id).isSome) (side : Side) (other : Option BlockId) :
    Ensures (a.link id side other) (Relinks (relink (some id) side other) a) := by
  obtain ⟨k, hk⟩ := Option.isSome_iff_exists.mp h
  rw [link, node_eq hk, ok_bind]
  exact a.relinks_withLink id side other

theorem ensures_linkIfAny {id : Option BlockId} (h : ∀ i, id = some i → (a.link? i).isSome)
    (side : Side) (other : Option BlockId) :
    Ensures (a.linkIfAny id side other) (Relinks (relink id side other) a) := by
  cases id with
  | some i => exact ensures_link (h i rfl) side other
  | none => exact a.relinks_refl

/-! ### Blocks in a row -/

/-- The blocks are linked in this order, and the two at the ends with what lies beyond. -/
def Linked (a : Arena) : (before : Option BlockId) → List BlockId → (after : Option BlockId) → Prop
  | _, [], _ => True
  | before, id :: ids, after =>
    a.link? id = some ⟨before, ids.head?.or after⟩ ∧ a.Linked (some id) ids after

/-- **A list may be taken apart anywhere**: each part ends at the other one. -/
theorem linked_append {xs ys : List BlockId} :
    a.Linked before (xs ++ ys) after ↔
      a.Linked before xs (ys.head?.or after) ∧ a.Linked (xs.getLast?.or before) ys after := by
  induction xs generalizing before with
  | nil => simp [Linked]
  | cons x xs ih =>
    have hlast : (x :: xs).getLast?.or before = xs.getLast?.or (some x) := by
      cases h : xs.getLast? with
      | none => simp [List.getLast?_eq_none_iff.mp h]
      | some y => rw [List.getLast?_cons, h]; rfl
    rw [List.cons_append, Linked, Linked, ih, hlast, List.head?_append, Option.or_assoc, and_assoc]

/-- What is linked is a block. -/
theorem Linked.isSome (h : a.Linked before ids after) (hid : id ∈ ids) : (a.link? id).isSome := by
  induction ids generalizing before with
  | nil => contradiction
  | cons x ids ih =>
    obtain ⟨hx, hrest⟩ := h
    rcases List.mem_cons.mp hid with rfl | hmem
    · rw [hx]
      rfl
    · exact ih hrest hmem

/-- Blocks that keep their neighbours stay linked. -/
theorem Linked.frame (h : a.Linked before ids after)
    (hsame : ∀ id ∈ ids, a'.link? id = a.link? id) : a'.Linked before ids after := by
  induction ids generalizing before with
  | nil => trivial
  | cons x ids ih =>
    obtain ⟨hx, hrest⟩ := h
    refine ⟨(hsame x List.mem_cons_self).trans hx, ih hrest fun id hid => ?_⟩
    exact hsame id (List.mem_cons_of_mem x hid)

/-- Another block beyond the last one. -/
theorem Linked.retail (h : a.Linked before ids after) (hnodup : ids.Nodup)
    (hlink : ∀ id ∈ ids, a'.link? id =
      (a.link? id).map fun k => if ids.getLast? = some id then k.link .tail after' else k) :
    a'.Linked before ids after' := by
  induction ids generalizing before with
  | nil => trivial
  | cons x ids ih =>
    obtain ⟨hx, hrest⟩ := h
    obtain ⟨hout, hnodup⟩ := List.nodup_cons.mp hnodup
    have hfirst := hlink x List.mem_cons_self
    rw [hx, Option.map_some] at hfirst
    cases ids with
    | nil => exact ⟨by simpa [Links.link] using hfirst, trivial⟩
    | cons y ids =>
      have hlast : (x :: y :: ids).getLast? = (y :: ids).getLast? := List.getLast?_cons_cons
      refine ⟨?_, ih hrest hnodup fun id hid => ?_⟩
      · have hne : ¬ (y :: ids).getLast? = some x := fun heq =>
          hout (List.mem_of_getLast? heq)
        rw [hlast, if_neg hne] at hfirst
        exact hfirst
      · rw [hlink id (List.mem_cons_of_mem x hid), hlast]

/-- Another block beyond the first one. -/
theorem Linked.rehead (h : a.Linked before ids after) (hnodup : ids.Nodup)
    (hlink : ∀ id ∈ ids, a'.link? id =
      (a.link? id).map fun k => if ids.head? = some id then k.link .head before' else k) :
    a'.Linked before' ids after := by
  cases ids with
  | nil => trivial
  | cons x ids =>
    obtain ⟨hx, hrest⟩ := h
    obtain ⟨hout, -⟩ := List.nodup_cons.mp hnodup
    refine ⟨?_, hrest.frame fun id hid => ?_⟩
    · rw [hlink x List.mem_cons_self, hx]
      simp [Links.link]
    · have hne : ¬ (x :: ids).head? = some id := by
        rintro ⟨⟩
        exact hout hid
      simp only [hlink id (List.mem_cons_of_mem x hid), if_neg hne, Option.map_id']

/-! ### Blocks in order -/

/-- The block at an end of a row. -/
def endOf (ids : List BlockId) : Side → Option BlockId
  | .head => ids.head?
  | .tail => ids.getLast?

/-- **The links are in order**: they lead through these blocks, in both directions. -/
structure Orders (a : Arena) (ids : List BlockId) : Prop where
  /-- Each block is linked with the next one and with the one before. -/
  linked : a.Linked none ids none
  /-- The ends are the first block and the last one. -/
  ends : ∀ side, a.endId? side = endOf ids side
  /-- The blocks are counted. -/
  len_eq : a.len = ids.length
  /-- No block is met twice, and no name is free twice or that of a block. -/
  nodup : (ids ++ a.free).Nodup
  /-- The slot of a name that is free is empty. -/
  free_empty : ∀ id ∈ a.free, a.link? id = none

/-- The name was taken for a block that is not linked yet. -/
structure Spare (a : Arena) (ids : List BlockId) (id : BlockId) : Prop where
  /-- The block has no neighbours. -/
  link?_eq : a.link? id = some {}
  /-- It is none of those that are linked. -/
  not_mem : id ∉ ids

theorem orders_empty : empty.Orders [] where
  linked := trivial
  ends side := by cases side <;> rfl
  len_eq := rfl
  nodup := List.nodup_nil
  free_empty := by simp [empty]

namespace Orders

variable {old : Option BlockId}

theorem nodup_ids (h : a.Orders ids) : ids.Nodup :=
  (List.nodup_append.mp h.nodup).1

/-- A block that is not linked yet is not confused with another one, or with a name that is
free. -/
theorem nodup_insert (h : a.Orders (pre ++ post)) (hnew : a.Spare (pre ++ post) new) :
    ((pre ++ new :: post) ++ a.free).Nodup := by
  have hout : new ∉ a.free := fun hmem => by
    have hempty := h.free_empty new hmem
    rw [hnew.link?_eq] at hempty
    contradiction
  rw [List.append_assoc, List.cons_append, List.nodup_middle, ← List.append_assoc]
  exact List.nodup_cons.mpr ⟨by simpa [hout] using hnew.not_mem, h.nodup⟩

/-- Taking a name does not touch the blocks. -/
theorem alloc (h : a.Orders ids) : a.alloc.2.Orders ids ∧ a.alloc.2.Spare ids a.alloc.1 := by
  have hout : a.alloc.1 ∉ ids ++ a.alloc.2.free := by
    rcases a.alloc_free with ⟨hfree, -⟩ | ⟨-, hid, hfree, -⟩
    · have hnodup := h.nodup
      rw [hfree, List.nodup_middle] at hnodup
      exact (List.nodup_cons.mp hnodup).1
    · rw [hfree, List.append_nil, hid]
      exact fun hmem => Nat.lt_irrefl _ (lt_size_of_link? (h.linked.isSome hmem))
  rw [List.mem_append, not_or] at hout
  obtain ⟨hids, hfree⟩ := hout
  have hsame : ∀ id ≠ a.alloc.1, a.alloc.2.link? id = a.link? id := fun id hne => by
    rw [link?_alloc, if_neg hne]
  refine ⟨⟨?_, fun side => ?_, a.len_alloc.trans h.len_eq, ?_, fun id hid => ?_⟩, ?_, hids⟩
  · exact h.linked.frame fun id hid => hsame id fun heq => hids (heq ▸ hid)
  · exact (a.endId?_alloc side).trans (h.ends side)
  · rcases a.alloc_free with ⟨heq, -⟩ | ⟨-, -, heq, -⟩
    · have hnodup := h.nodup
      rw [heq, List.nodup_middle] at hnodup
      exact (List.nodup_cons.mp hnodup).2
    · rw [heq, List.append_nil]
      exact h.nodup_ids
  · rw [hsame id fun heq => hfree (heq ▸ hid)]
    refine h.free_empty id ?_
    rcases a.alloc_free with ⟨heq, -⟩ | ⟨-, -, heq, -⟩
    · exact heq ▸ List.mem_cons_of_mem _ hid
    · simp [heq] at hid
  · rw [link?_alloc, if_pos rfl]

end Orders

/-! ### A block that comes -/

/-- The block beside which one is linked on a side of it that goes between two parts of a row. -/
def seam (pre post : List BlockId) : Side → Option BlockId
  | .head => post.head?
  | .tail => pre.getLast?

/-- What the neighbours become when a block is linked between two parts of a row. -/
def splice (pre : List BlockId) (new : BlockId) (post : List BlockId) (id : BlockId) (k : Links) :
    Links :=
  if new = id then ⟨pre.getLast?, post.head?⟩
  else
    { prev := if post.head? = some id then some new else k.prev
      next := if pre.getLast? = some id then some new else k.next }

/-- A block in a row is linked with those that are before it and behind it. -/
theorem Linked.link?_mid (h : a.Linked none (pre ++ id :: post) none) :
    a.link? id = some ⟨pre.getLast?, post.head?⟩ := by
  obtain ⟨-, hid, -⟩ := linked_append.mp h
  simpa using hid

/-- So the neighbour of a block at the seam is the one on the other side of the seam. -/
theorem Linked.exists_link? (h : a.Linked none (pre ++ post) none) {old : BlockId}
    (hold : seam pre post side = some old) :
    ∃ k, a.link? old = some k ∧ k.beside side = seam pre post side.opposite := by
  cases side with
  | tail =>
    obtain ⟨front, rfl⟩ := List.getLast?_eq_some_iff.mp hold
    rw [List.append_assoc, List.singleton_append] at h
    exact ⟨_, h.link?_mid, rfl⟩
  | head =>
    obtain ⟨back, rfl⟩ := List.head?_eq_some_iff.mp hold
    exact ⟨_, h.link?_mid, rfl⟩

theorem mem_of_seam {old : BlockId} (h : seam pre post side = some old) : old ∈ pre ++ post := by
  cases side with
  | tail => exact List.mem_append_left _ (List.mem_of_getLast? h)
  | head => exact List.mem_append_right _ (List.mem_of_head? h)

/-- **The four links that are changed** make of the neighbours what they become. -/
theorem relink_eq_splice (side : Side) {id : BlockId} {k : Links}
    (hout : ∀ side, seam pre post side ≠ some new) (hk : new = id → k = {}) :
    relink (seam pre post side) side new id
      (relink (seam pre post side.opposite) side.opposite new id
        (relink (some new) side (seam pre post side.opposite) id
          (relink (some new) side.opposite (seam pre post side) id k))) =
      splice pre new post id k := by
  have hhead : post.head? ≠ some new := hout .head
  have htail : pre.getLast? ≠ some new := hout .tail
  by_cases hid : new = id
  · obtain rfl := hid
    cases side <;> simp [relink, splice, seam, Links.link, Side.opposite, hhead, htail]
  · cases side <;>
      simp only [relink, splice, seam, Side.opposite, Option.some.injEq, hid, if_false] <;>
      split <;> split <;> rfl

/-- **Linking a block changes the neighbours at the seam**, whichever side it is linked from. -/
theorem ensures_linkBeside (h : a.Linked none (pre ++ post) none) (hnew : a.Spare (pre ++ post) new)
    (hseam : seam pre post side = none → pre ++ post = []) :
    Ensures (a.linkBeside (seam pre post side) side new) fun a' =>
      ∃ g, Relinks g a a' ∧
        ∀ id k, a.link? id = some k → g id k = splice pre new post id k := by
  have hsome : (a.link? new).isSome := by
    rw [hnew.link?_eq]
    rfl
  have hout : ∀ side, seam pre post side ≠ some new :=
    fun side heq => hnew.not_mem (mem_of_seam heq)
  have hblank : ∀ id k, a.link? id = some k → new = id → k = {} := by
    rintro id k hk rfl
    exact Option.some.inj (hk.symm.trans hnew.link?_eq)
  refine (ensures_link hsome _ _).bind fun a₁ h₁ => ?_
  cases hold : seam pre post side with
  | none =>
    obtain ⟨rfl, rfl⟩ := List.append_eq_nil_iff.mp (hseam hold)
    refine ⟨_, h₁, fun id k hk => ?_⟩
    rw [← relink_eq_splice side hout (hblank id k hk)]
    have hopposite : seam [] [] side.opposite = none := by cases side <;> rfl
    rw [hold, hopposite]
    by_cases hid : new = id
    · obtain rfl := hblank id k hk hid
      cases side <;> simp [relink, Links.link, Side.opposite, hid]
    · simp [relink, hid]
  | some old =>
    obtain ⟨kold, hkold, hbeyond⟩ := h.exists_link? hold
    have hlive : ∀ {i side}, seam pre post side = some i → (a.link? i).isSome :=
      fun hi => h.isSome (mem_of_seam hi)
    have hnode : a₁.link? old = some kold := by
      have hne : ¬ some new = some old := fun heq => hout side (hold.trans heq.symm)
      rw [h₁.link?_eq, hkold, Option.map_some, relink, if_neg hne]
    dsimp only
    rw [node_eq hnode, ok_bind, hbeyond]
    refine (ensures_link (h₁.isSome hsome) _ _).bind fun a₂ h₂ => ?_
    have hlive₂ : ∀ {i side}, seam pre post side = some i → (a₂.link? i).isSome :=
      fun hi => h₂.isSome (h₁.isSome (hlive hi))
    refine (ensures_linkIfAny (fun _ hi => hlive₂ hi) _ _).bind fun a₃ h₃ => ?_
    refine (ensures_link (h₃.isSome (hlive₂ hold)) _ _).imp fun a₄ h₄ =>
      ⟨_, ((h₁.trans h₂).trans h₃).trans h₄, fun id k hk => ?_⟩
    rw [← relink_eq_splice side hout (hblank id k hk), hold]

/-- **With the neighbours at the seam changed** the block stands between the two parts. -/
theorem Linked.splice (h : a.Linked none (pre ++ post) none) (hnodup : (pre ++ post).Nodup)
    (hnew : a.Spare (pre ++ post) new)
    (hlink : ∀ id, a'.link? id = (a.link? id).map (splice pre new post id)) :
    a'.Linked none (pre ++ new :: post) none := by
  obtain ⟨hpre, hpost⟩ := linked_append.mp h
  obtain ⟨hnodup₁, hnodup₂, hapart⟩ := List.nodup_append.mp hnodup
  have hne : ∀ id ∈ pre ++ post, ¬ new = id := fun id hid heq => hnew.not_mem (heq ▸ hid)
  refine linked_append.mpr ⟨?_, ?_, ?_⟩
  · refine hpre.retail hnodup₁ fun id hid => ?_
    have hother : ¬ post.head? = some id := fun heq =>
      hapart id hid id (List.mem_of_head? heq) rfl
    rw [hlink]
    congr 1
    funext k
    rw [Arena.splice, if_neg (hne id (List.mem_append_left _ hid)), if_neg hother]
    split <;> rfl
  · rw [hlink, hnew.link?_eq, Option.map_some, Arena.splice, if_pos rfl, Option.or_none,
      Option.or_none]
  · refine hpost.rehead hnodup₂ fun id hid => ?_
    have hother : ¬ pre.getLast? = some id := fun heq =>
      hapart id (List.mem_of_getLast? heq) id hid rfl
    rw [hlink]
    congr 1
    funext k
    rw [Arena.splice, if_neg (hne id (List.mem_append_right _ hid)), if_neg hother]
    split <;> rfl

@[simp] theorem endId?_withEnd (a : Arena) (side side' : Side) (id : Option BlockId) :
    (a.withEnd side id).endId? side' = if side' = side then id else a.endId? side' := by
  cases side <;> cases side' <;> rfl

@[simp] theorem endId?_replaceEnd (a : Arena) (side side' : Side) (old new : Option BlockId) :
    (a.replaceEnd side old new).endId? side' =
      if side' = side ∧ a.endId? side = old then new else a.endId? side' := by
  unfold replaceEnd
  split
  · next hend => simp [hend]
  · next hend => simp [hend]

/-- Only the ends are changed. -/
theorem replaceEnd_eq (a : Arena) (side : Side) (old new : Option BlockId) :
    ∃ head tail, a.replaceEnd side old new = { a with head := head, tail := tail } := by
  unfold replaceEnd
  cases side <;> split <;> exact ⟨_, _, rfl⟩

/-- The end on the side on which a block is linked beside the last one is that block, and the
other end is what it was. -/
theorem endOf_splice (hnodup : (pre ++ post).Nodup) {old : BlockId}
    (hold : seam pre post side = some old) (side' : Side) :
    endOf (pre ++ new :: post) side' =
      if side' = side ∧ endOf (pre ++ post) side = some old then some new
      else endOf (pre ++ post) side' := by
  obtain ⟨-, -, hapart⟩ := List.nodup_append.mp hnodup
  cases side with
  | tail =>
    obtain ⟨front, rfl⟩ := List.getLast?_eq_some_iff.mp hold
    rcases List.eq_nil_or_concat' post with rfl | ⟨back, last, rfl⟩
    · cases side' <;> simp [endOf]
    · have hne : last ≠ old := fun heq => hapart old (by simp) last (by simp) heq.symm
      cases side' <;> simp [endOf, List.getLast?_append, List.getLast?_cons, hne]
  | head =>
    obtain ⟨back, rfl⟩ := List.head?_eq_some_iff.mp hold
    cases pre with
    | nil => cases side' <;> simp [endOf, List.getLast?_cons]
    | cons first front =>
      have hne : first ≠ old := fun heq => hapart first (by simp) old (by simp) heq
      cases side' <;> simp [endOf, List.getLast?_append, List.getLast?_cons, hne]

theorem stretch_eq (a : Arena) (old : Option BlockId) (side : Side) (new : BlockId) :
    ∃ head tail, a.stretch old side new = { a with head := head, tail := tail } := by
  obtain ⟨head, tail, heq⟩ := a.replaceEnd_eq side old new
  rw [stretch, heq]
  dsimp only
  split <;> exact ⟨_, _, rfl⟩

/-- **The ends are those of the row** in which the new block stands. -/
theorem endId?_stretch (hends : ∀ side, a.endId? side = endOf (pre ++ post) side)
    (hlen : a.len = (pre ++ post).length) (hnodup : (pre ++ post).Nodup)
    (hseam : seam pre post side = none → pre ++ post = []) (side' : Side) :
    (a.stretch (seam pre post side) side new).endId? side' = endOf (pre ++ new :: post) side' := by
  have hkeep : (a.replaceEnd side (seam pre post side) new).len = (pre ++ post).length := by
    obtain ⟨head, tail, heq⟩ := a.replaceEnd_eq side (seam pre post side) new
    rw [heq, ← hlen]
  cases hold : seam pre post side with
  | none =>
    obtain ⟨rfl, rfl⟩ := List.append_eq_nil_iff.mp (hseam hold)
    rw [hold, List.append_nil, List.length_nil] at hkeep
    rw [stretch, if_pos hkeep, endId?_withEnd, endId?_withEnd]
    cases side' <;> rfl
  | some old =>
    have hpos : (pre ++ post).length ≠ 0 :=
      Nat.ne_of_gt (List.length_pos_of_mem (mem_of_seam hold))
    rw [hold] at hkeep
    rw [stretch, if_neg (hkeep ▸ hpos), endId?_replaceEnd, endOf_splice hnodup hold, hends, hends]

/-- **A block that is linked** stands between the two parts of the row. -/
theorem Orders.insertNode (h : a.Orders (pre ++ post)) (hnew : a.Spare (pre ++ post) new)
    (side : Side) (hseam : seam pre post side = none → pre ++ post = []) :
    Ensures (a.insertNode (seam pre post side) side new) fun a' =>
      a'.Orders (pre ++ new :: post) ∧ a'.free = a.free ∧ a'.nodes.size = a.nodes.size := by
  refine (ensures_linkBeside h.linked hnew hseam).bind fun a₁ h₁ => ?_
  obtain ⟨g, h₁, hg⟩ := h₁
  have hlink : ∀ id, a₁.link? id = (a.link? id).map (splice pre new post id) := fun id => by
    rw [h₁.link?_eq]
    exact Option.map_congr fun k hk => hg id k hk
  have hlen : a₁.len = (pre ++ post).length := h₁.len_eq.trans h.len_eq
  have hends : ∀ side, a₁.endId? side = endOf (pre ++ post) side := fun side =>
    (h₁.ends side).trans (h.ends side)
  have hends₂ : ∀ side', _ = endOf (pre ++ new :: post) side' :=
    endId?_stretch hends hlen h.nodup_ids hseam
  obtain ⟨head, tail, hstretch⟩ := a₁.stretch_eq (seam pre post side) side new
  rw [hstretch] at hends₂ ⊢
  refine ⟨⟨?_, fun side' => ?_, ?_, ?_, fun id hid => ?_⟩, h₁.free_eq, h₁.size_eq⟩
  · exact h.linked.splice h.nodup_ids hnew hlink
  · rw [← hends₂ side']
    cases side' <;> rfl
  · change a₁.len + 1 = _
    rw [hlen]
    simp [Nat.add_assoc]
  · change ((pre ++ new :: post) ++ a₁.free).Nodup
    rw [h₁.free_eq]
    exact h.nodup_insert hnew
  · have hlt : id ∈ a.free := h₁.free_eq ▸ hid
    change a₁.link? id = none
    rw [hlink, h.free_empty id hlt, Option.map_none]

/-! ### A block that goes -/

/-- Where a block is the end of a row, its neighbour becomes the end without it. -/
theorem endOf_append (hnodup : (pre ++ id :: post).Nodup) (side : Side) :
    endOf (pre ++ post) side =
      if endOf (pre ++ id :: post) side = some id then seam pre post side
      else endOf (pre ++ id :: post) side := by
  have hout := (List.nodup_cons.mp (List.nodup_middle.mp hnodup)).1
  cases side with
  | tail =>
    rcases List.eq_nil_or_concat' post with rfl | ⟨back, last, rfl⟩
    · simp [endOf, seam]
    · have hne : last ≠ id := fun heq => hout (by simp [heq])
      simp [endOf, List.getLast?_append, List.getLast?_cons, hne]
  | head =>
    cases pre with
    | nil => simp [endOf, seam]
    | cons first front =>
      have hne : first ≠ id := fun heq => hout (by simp [heq])
      simp [endOf, hne]

theorem shrink_eq (a : Arena) (id : BlockId) (k : Links) :
    ∃ head tail, a.shrink id k = { a with head := head, tail := tail } := by
  obtain ⟨head, tail, heq⟩ := a.replaceEnd_eq .tail id k.prev
  rw [shrink, heq]
  obtain ⟨head', tail', heq'⟩ := replaceEnd_eq { a with head := head, tail := tail } .head id k.next
  exact ⟨head', tail', heq'⟩

/-- **The ends are those of the row** without the block. -/
theorem endId?_shrink (hends : ∀ side, a.endId? side = endOf (pre ++ id :: post) side)
    (hnodup : (pre ++ id :: post).Nodup) (side : Side) :
    (a.shrink id ⟨pre.getLast?, post.head?⟩).endId? side = endOf (pre ++ post) side := by
  rw [endOf_append hnodup side, ← hends]
  cases side <;> simp [shrink, seam]

/-- **With the links across the gap** the two parts are one row. -/
theorem Linked.close (h : a.Linked none (pre ++ id :: post) none)
    (hnodup : (pre ++ id :: post).Nodup)
    (hlink : ∀ id' ≠ id, a'.link? id' = (a.link? id').map fun k =>
      relink pre.getLast? .tail post.head? id' (relink post.head? .head pre.getLast? id' k)) :
    a'.Linked none (pre ++ post) none := by
  obtain ⟨hpre, -, hpost⟩ := linked_append.mp h
  obtain ⟨hout, hrest⟩ := List.nodup_cons.mp (List.nodup_middle.mp hnodup)
  obtain ⟨hnodup₁, hnodup₂, hapart⟩ := List.nodup_append.mp hrest
  have hne : ∀ id' ∈ pre ++ post, id' ≠ id := fun id' hid heq => hout (heq ▸ hid)
  refine linked_append.mpr ⟨?_, ?_⟩
  · refine hpre.retail hnodup₁ fun id' hid => ?_
    have hother : ¬ post.head? = some id' := fun heq =>
      hapart id' hid id' (List.mem_of_head? heq) rfl
    rw [hlink id' (hne id' (List.mem_append_left _ hid))]
    simp only [relink, if_neg hother, Option.or_none]
  · refine hpost.rehead hnodup₂ fun id' hid => ?_
    have hother : ¬ pre.getLast? = some id' := fun heq =>
      hapart id' (List.mem_of_getLast? heq) id' hid rfl
    rw [hlink id' (hne id' (List.mem_append_right _ hid))]
    simp only [relink, if_neg hother, Option.or_none]

/-- **A block that is unlinked** leaves the two parts of the row, and its name is free. -/
theorem Orders.removeNode (h : a.Orders (pre ++ id :: post)) :
    Ensures (a.removeNode id) fun a' =>
      a'.Orders (pre ++ post) ∧ a'.free = id :: a.free ∧ a'.nodes.size = a.nodes.size := by
  have hout := (List.nodup_cons.mp (List.nodup_middle.mp h.nodup_ids)).1
  obtain ⟨a₁, hrelease, h₁⟩ := exists_release h.linked.link?_mid
  rw [Arena.removeNode, hrelease, ok_bind]
  have hlive : ∀ i ∈ pre ++ post, (a₁.link? i).isSome := fun i hi => by
    rw [h₁.link?_eq, if_neg (fun heq : i = id => hout (heq ▸ hi))]
    exact h.linked.isSome (by simpa [or_left_comm] using .inr (List.mem_append.mp hi))
  have hnext : ∀ i, post.head? = some i → (a₁.link? i).isSome := fun i hi =>
    hlive i (List.mem_append_right _ (List.mem_of_head? hi))
  have hprev : ∀ i, pre.getLast? = some i → (a₁.link? i).isSome := fun i hi =>
    hlive i (List.mem_append_left _ (List.mem_of_getLast? hi))
  refine (ensures_linkIfAny hnext _ _).bind fun a₂ h₂ => ?_
  refine (ensures_linkIfAny (fun i hi => h₂.isSome (hprev i hi)) _ _).bind fun a₃ h₃ => ?_
  have hlinks := h₂.trans h₃
  have hends : ∀ side, a₃.endId? side = endOf (pre ++ id :: post) side := fun side =>
    ((hlinks.ends side).trans (h₁.ends side)).trans (h.ends side)
  have hends₄ := endId?_shrink hends h.nodup_ids
  have hlen : a₃.len = (pre ++ post).length + 1 := by
    rw [hlinks.len_eq, h₁.len_eq, h.len_eq]
    simp [Nat.add_assoc]
  have hfree : a₃.free = id :: a.free := hlinks.free_eq.trans h₁.free_eq
  obtain ⟨head, tail, hshrink⟩ := a₃.shrink_eq id ⟨pre.getLast?, post.head?⟩
  dsimp only
  rw [hshrink] at hends₄ ⊢
  rw [subtract_eq (show 1 ≤ a₃.len by omega)]
  refine ⟨⟨?_, fun side => ?_, ?_, ?_, fun i hi => ?_⟩, ?_, ?_⟩
  · refine h.linked.close h.nodup_ids fun id' hne => ?_
    change a₃.link? id' = _
    rw [hlinks.link?_eq, h₁.link?_eq, if_neg hne]
  · rw [← hends₄ side]
    cases side <;> rfl
  · change a₃.len - 1 = _
    rw [hlen, Nat.add_sub_cancel]
  · change ((pre ++ post) ++ a₃.free).Nodup
    rw [hfree, List.nodup_middle, List.append_assoc]
    have hnodup := h.nodup
    rwa [List.append_assoc, List.cons_append, List.nodup_middle] at hnodup
  · change a₃.link? i = none
    rw [hlinks.link?_eq, h₁.link?_eq]
    rcases List.mem_cons.mp (hfree ▸ hi : i ∈ id :: a.free) with rfl | hmem
    · rw [if_pos rfl, Option.map_none]
    · split
      · rfl
      · rw [h.free_empty i hmem, Option.map_none]
  · exact hfree
  · exact hlinks.size_eq.trans h₁.size_eq

/-! ### Blocks that are linked one after the other -/

/-- **Another neighbour for the last one**, and the new block stands behind it. -/
theorem Linked.extend (h : a.Linked none ids none) (hnodup : ids.Nodup) (hnew : a.Spare ids new)
    (hlink : ∀ id, a'.link? id = (a.link? id).map fun k =>
      relink ids.getLast? .tail new id (relink (some new) .head ids.getLast? id k)) :
    a'.Linked none (ids ++ [new]) none := by
  have hne : ∀ id ∈ ids, ¬ some new = some id := fun id hid heq =>
    hnew.not_mem (Option.some.inj heq ▸ hid)
  have hlast : ¬ ids.getLast? = some new := fun heq => hnew.not_mem (List.mem_of_getLast? heq)
  refine linked_append.mpr ⟨h.retail hnodup fun id hid => ?_, ?_, trivial⟩
  · rw [hlink]
    simp only [relink, if_neg (hne id hid)]
    rfl
  · rw [hlink, hnew.link?_eq]
    simp [relink, hlast, Links.link]

/-- **A block that is linked at the tail** is the last one. -/
theorem Orders.linkTail (h : a.Orders ids) (hnew : a.Spare ids new) :
    (a.linkTail new).Orders (ids ++ [new]) ∧ (a.linkTail new).free = a.free ∧
      (a.linkTail new).nodes.size = a.nodes.size := by
  have htail : a.tail = ids.getLast? := h.ends .tail
  have h₁ := a.relinks_withLink new .head a.tail
  obtain ⟨a₂, hrelinks, hlinkTail⟩ : ∃ a₂,
      Relinks (fun id k => relink a.tail .tail new id (relink (some new) .head a.tail id k)) a a₂ ∧
        a.linkTail new = { a₂ with
          head := if a.tail = none then new else a₂.head, tail := some new, len := a.len + 1 } := by
    cases hlast : a.tail with
    | none => exact ⟨_, hlast ▸ h₁, by simp [Arena.linkTail, hlast, withEnd]⟩
    | some last =>
      rw [hlast] at h₁
      exact ⟨_, h₁.trans (relinks_withLink _ last .tail new),
        by simp [Arena.linkTail, hlast, withEnd]⟩
  have hlinked := h.linked.extend h.nodup_ids hnew (htail ▸ hrelinks.link?_eq)
  rw [hlinkTail]
  refine ⟨⟨hlinked.frame fun _ _ => rfl, fun side => ?_, ?_, ?_, fun id hid => ?_⟩,
    hrelinks.free_eq, hrelinks.size_eq⟩
  · cases side with
    | tail => simp [endId?, endOf]
    | head =>
      have hhead₂ : a₂.head = _ := (hrelinks.ends .head).trans (h.ends .head)
      cases ids with
      | nil => simp [endId?, endOf, htail]
      | cons id ids => simp [endId?, endOf, htail, hhead₂]
  · change a.len + 1 = _
    rw [h.len_eq, List.length_append, List.length_singleton]
  · change ((ids ++ [new]) ++ a₂.free).Nodup
    rw [← List.append_nil ids] at h hnew
    rw [hrelinks.free_eq]
    exact h.nodup_insert hnew
  · change a₂.link? id = none
    rw [hrelinks.link?_eq, h.free_empty id (hrelinks.free_eq ▸ hid), Option.map_none]

/-- **A row** links the names that are made first, and none of them is free. -/
theorem orders_row (n : Nat) :
    (row n).Orders (BlockId.names n) ∧ (row n).free = [] ∧ (row n).nodes.size = n := by
  induction n with
  | zero => exact ⟨orders_empty, rfl, rfl⟩
  | succ n ih =>
    obtain ⟨hrow, hfree, hsize⟩ := ih
    obtain ⟨halloc, hspare⟩ := hrow.alloc
    obtain ⟨horders, hfree', hsize'⟩ := halloc.linkTail hspare
    rcases (row n).alloc_free with ⟨hcons, -⟩ | ⟨-, hid, hnil, hmore⟩
    · rw [hfree] at hcons
      contradiction
    · rw [hsize] at hid hmore
      refine ⟨?_, hfree'.trans hnil, hsize'.trans hmore⟩
      rw [BlockId.names_succ]
      exact hid ▸ horders

end Arena

end UnrolledList
