import Mathlib.Data.List.Induction
import UnrolledList.Proofs.Chain.Refinement

/-!
# Every list is in order

What a layout promises about a chain is said here of the chain itself
(`UnrolledList.Chain.InOrder`), and it holds after every run
(`UnrolledList.Session.run_inOrder`).

From outside, the blocks are gone through by their links: from the block at an end, each one
leads to the next (`UnrolledList.Arena.follow`) until there is none. From the head this meets
every block of the chain, each of them once, and from the tail the same ones in the opposite
order (`UnrolledList.Arena.Orders.follow_eq`); more steps than there are blocks meet no more
of them, so the way ends. The operations go by numbers instead, and come to the same blocks
(`UnrolledList.Arena.Linked.beside_getElem`). The slots of the names that are met are the only
ones that are not empty. The names of the empty ones are vacant, each of them once.

Each block counts its entries and knows its size, whether it is compressed or not, and what
it keeps is a packed list that a reader accepts. Since all this holds before every action,
no action asks for the neighbours of a name that is vacant, or finds a block missing, a
counter too small or a block corrupt: that is part of `UnrolledList.Ensures`.
-/

namespace UnrolledList

/-- A block in order, whether it is compressed or not. -/
structure Block.InOrder (b : Block) : Prop where
  /-- It has an entry. -/
  pos : 0 < b.count
  /-- It gives a packed list of that many entries and of that size, which a reader
  accepts. -/
  exists_packed : ∃ p, b.packed = .ok p ∧ b.count = p.entries.size ∧ b.size = p.toBytes.length ∧
    Packed.ofBytes p.toBytes = .ok p

/-- A block that keeps a list and counts its entries is in order. -/
theorem Block.Keeps.inOrder {b : Block} {p : Packed} (h : b.Keeps p)
    (hcounted : b.count = p.entries.size) (hpos : 0 < b.count) : b.InOrder := by
  refine ⟨hpos, p, h.packed_eq, hcounted, ?_, ?_⟩
  · rw [h.size_eq, Packed.length_toBytes]
  · exact Packed.ofBytes_toBytes h.wellFormed

/-! ### Going through the blocks by their links -/

/-- Blocks as they are met from an end. -/
def Side.met : (origin : Side) → List BlockId → List BlockId
  | .head, ids => ids
  | .tail, ids => ids.reverse

namespace Arena

variable {a : Arena} {ids : List BlockId} {before after : Option BlockId} {n : Nat}

/-- The blocks that are met from one block on, going away from an end, in at most `n` steps. -/
def follow (a : Arena) (origin : Side) : (n : Nat) → Option BlockId → List BlockId
  | 0, _ => []
  | _ + 1, none => []
  | n + 1, some id => id :: a.follow origin n ((a.link? id).bind (·.beside origin.opposite))

/-- Where there is no block, none is met. -/
theorem follow_none (a : Arena) (origin : Side) (n : Nat) : a.follow origin n none = [] := by
  cases n <;> rfl

/-- **The way from the head** meets the blocks in their order. -/
theorem Linked.follow_head (h : a.Linked before ids none) (hn : ids.length ≤ n) :
    a.follow .head n ids.head? = ids := by
  induction ids generalizing before n with
  | nil => exact a.follow_none .head n
  | cons id ids ih =>
    obtain ⟨hid, hrest⟩ := h
    obtain ⟨n, rfl⟩ := Nat.exists_eq_add_one_of_ne_zero (Nat.ne_zero_of_lt hn)
    have hnext : (a.link? id).bind (·.beside .tail) = ids.head? := by
      rw [hid, Option.or_none]
      rfl
    rw [List.head?_cons, follow, Side.opposite, hnext, ih hrest (Nat.le_of_succ_le_succ hn)]

/-- **The way from the tail** meets them backwards. -/
theorem Linked.follow_tail (h : a.Linked none ids after) (hn : ids.length ≤ n) :
    a.follow .tail n ids.getLast? = ids.reverse := by
  induction ids using List.reverseRecOn generalizing after n with
  | nil => exact a.follow_none .tail n
  | append_singleton ids id ih =>
    obtain ⟨hrest, hid, -⟩ := linked_append.mp h
    rw [List.length_append, List.length_singleton] at hn
    obtain ⟨n, rfl⟩ := Nat.exists_eq_add_one_of_ne_zero (Nat.ne_zero_of_lt hn)
    have hprev : (a.link? id).bind (·.beside .head) = ids.getLast? := by
      rw [hid, Option.or_none]
      rfl
    rw [List.getLast?_concat, follow, Side.opposite, hprev,
      ih hrest (Nat.le_of_succ_le_succ hn), List.reverse_concat]

/-- **The way from an end meets every block once**, and then it ends. -/
theorem Orders.follow_eq (h : a.Orders ids) (origin : Side) (hn : ids.length ≤ n) :
    a.follow origin n (a.endId? origin) = origin.met ids := by
  rw [h.ends]
  cases origin with
  | head => exact h.linked.follow_head hn
  | tail => exact h.linked.follow_tail hn

/-- **To go on by the links is to go on by the numbers.** -/
theorem Linked.beside_getElem (h : a.Linked none ids none) (origin : Side) {i : Nat}
    (hi : i < ids.length) :
    (a.link? ids[i]).bind (·.beside origin.opposite) =
      (Walk.step? origin ids.length i).bind (ids[·]?) := by
  have hsplit : a.Linked none (ids.take i ++ ids[i] :: ids.drop (i + 1)) none := by
    rwa [← List.drop_eq_getElem_cons, List.take_append_drop]
  rw [hsplit.link?_mid, Option.bind_some]
  cases origin with
  | head =>
    change (ids.drop (i + 1)).head? = _
    rw [List.head?_drop, Walk.step?]
    split
    · rfl
    · next hlast => exact List.getElem?_eq_none (Nat.le_of_not_lt hlast)
  | tail =>
    change (ids.take i).getLast? = _
    rw [List.getLast?_take, Walk.step?]
    split
    · rfl
    · have hlt : i - 1 < ids.length := Nat.lt_of_le_of_lt (Nat.sub_le i 1) hi
      rw [List.getElem?_eq_getElem hlt]
      exact (List.getElem?_eq_getElem hlt).symm

end Arena

namespace Chain

/-- A list in order. -/
structure InOrder (c : Chain) : Prop where
  /-- No name is in use twice. -/
  nodup_ids : c.ids.Nodup
  /-- The way from an end meets every block. -/
  follow_eq : ∀ origin n, c.length ≤ n →
    c.arena.follow origin n (c.arena.endId? origin) = origin.met c.ids
  /-- The block at an end has the number that is the end, -/
  endId?_eq : ∀ origin, c.arena.endId? origin = (c.endIdx? origin).bind c.id?
  /-- and the neighbours of a block have the numbers beside its own. -/
  beside_eq : ∀ origin i id, c.id? i = some id →
    (c.arena.link? id).bind (·.beside origin.opposite) = (Walk.step? origin c.length i).bind c.id?
  /-- The slots that are not empty are those of the blocks. -/
  isSome_link? : ∀ id, (c.arena.link? id).isSome ↔ id ∈ c.ids
  /-- No name is vacant twice. -/
  nodup_vacant : c.vacant.Nodup
  /-- A name is vacant if it was made and its slot is empty. -/
  mem_vacant : ∀ id, id ∈ c.vacant ↔ id.slot < c.slots ∧ c.arena.link? id = none
  /-- The blocks are counted. -/
  len_eq : c.arena.len = c.length
  /-- The list counts the entries of its blocks. -/
  count_eq : c.count = (c.blocks.map Block.count).sum
  /-- Every block is in order. -/
  blocks : ∀ b ∈ c.blocks, b.InOrder

variable {c : Chain} {l : Layout}

/-! ### The whole list -/

theorem Has.length_ids (h : c.Has l) : c.ids.length = c.length := by
  rw [h.ids_eq, Layout.ids, List.length_map, h.length_eq]

theorem id?_eq_getElem? (c : Chain) : c.id? = (c.ids[·]?) := by
  funext i
  rw [id?, ids, List.getElem?_map, Array.getElem?_toList]

theorem endIdx?_bind_id? (h : c.ids.length = c.length) (origin : Side) :
    (c.endIdx? origin).bind c.id? = Arena.endOf c.ids origin := by
  unfold endIdx?
  rw [← h, c.id?_eq_getElem?]
  split
  · next hempty =>
    rw [List.length_eq_zero_iff.mp hempty]
    cases origin <;> rfl
  · cases origin with
    | head => exact List.head?_eq_getElem?.symm
    | tail => exact List.getLast?_eq_getElem?.symm

/-- A name that was made is in use or vacant. -/
theorem Has.mem_or_mem (h : c.Has l) (hs : l.Sound) (id : BlockId) :
    id ∈ c.ids ∨ id ∈ c.vacant ↔ id.slot < c.slots := by
  rw [h.ids_eq, h.vacant_eq, h.slots_eq, ← List.mem_append, hs.named.mem_iff, BlockId.mem_names]

/-- **A list with a sound layout is in order.** -/
theorem Has.inOrder (h : c.Has l) (hs : l.Sound) : c.InOrder := by
  have horders : c.arena.Orders c.ids := by
    rw [h.ids_eq]
    exact h.orders
  have hlive : ∀ id ∈ c.ids, (c.arena.link? id).isSome := fun id hid => horders.linked.isSome hid
  obtain ⟨hids, hvacant, -⟩ := List.nodup_append.mp horders.nodup
  exact {
    nodup_ids := hids
    follow_eq := fun origin n hn =>
      horders.follow_eq origin (Nat.le_trans (Nat.le_of_eq h.length_ids) hn)
    endId?_eq := fun origin => by rw [horders.ends, endIdx?_bind_id? h.length_ids]
    beside_eq := fun origin i id hid => by
      rw [c.id?_eq_getElem?] at hid ⊢
      obtain ⟨hi, rfl⟩ := List.getElem?_eq_some_iff.mp hid
      rw [horders.linked.beside_getElem origin hi, h.length_ids]
    isSome_link? := fun id => by
      refine ⟨fun hid => ?_, hlive id⟩
      have hmade := (h.mem_or_mem hs id).mpr (Arena.lt_size_of_link? hid)
      refine hmade.resolve_right fun hfree => ?_
      rw [horders.free_empty id hfree] at hid
      contradiction
    nodup_vacant := hvacant
    mem_vacant := fun id => by
      refine ⟨fun hid => ⟨(h.mem_or_mem hs id).mp (.inr hid), horders.free_empty id hid⟩, ?_⟩
      rintro ⟨hslot, hempty⟩
      refine ((h.mem_or_mem hs id).mpr hslot).resolve_left fun huse => ?_
      have hsome := hlive id huse
      rw [hempty] at hsome
      contradiction
    len_eq := by rw [horders.len_eq, h.length_ids]
    count_eq := by rw [h.count_eq, hs.count_eq, h.map_count_eq, Layout.total]
    blocks := fun b hb => by
      obtain ⟨x, hx, hkeeps, hcount⟩ := h.exists_leaf_of_mem hb
      exact hkeeps.inOrder (hcount.trans (hs.counted x hx)) (hcount ▸ hs.pos x hx) }

end Chain

namespace Session

/-- **Every list is in order**, after every run and under whatever options, and a run stops at
nothing but a limit. -/
theorem run_inOrder (setting depth : Int) (as : List Action) :
    Ensures ((ofOptions setting depth).run as) (·.1.chain.InOrder) := by
  refine ((follows_ofOptions setting depth).run as).imp fun r hr => ?_
  obtain ⟨⟨l, hl, hs, -, -⟩, -⟩ := hr
  exact hl.inOrder hs

end Session

end UnrolledList
