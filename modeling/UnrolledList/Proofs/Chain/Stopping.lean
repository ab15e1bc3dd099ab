import Mathlib.Data.List.Perm.Subperm
import UnrolledList.Proofs.Chain.Capacity
import UnrolledList.Proofs.Packed.Canonical

/-!
# Why an operation stops

An operation on a list in order stops at nothing but a limit, and a limit is not reached
without a **reason** (`UnrolledList.Chain.Exceeds`):

* a packed list has become so large that its header cannot tell its size, and it was made of
  the entries of one block, or of none, and of strings that the operation was given;
* the compressor runs into the end of its output on the bytes of a packed list whose strings
  are in the list, or were given.

So an operation on blocks that are not too large gives a result, as long as the compressor
does.

## How the reasons are followed

What is known on the way is where the lists of the blocks have come from
(`UnrolledList.Chain.GrownFrom`): each of them from one block of the list as it was, and from
the strings given. Everything that only opens or closes blocks keeps that, and so do removals.
A string that is put in is one string more that was given.

Merging is the exception, because it puts the entries of two blocks into one. But blocks are
only merged if they fit into one, and what fits is so small that no header has trouble with
it (`UnrolledList.Packed.size_append_lt`).
-/

namespace UnrolledList

/-- The packed list is made of the entries of one block, or of none, and of strings. -/
def Chain.Makes (c : Chain) (adds : List Bytes) (p : Packed) : Prop :=
  ∃ bodies : List Body, (bodies = [] ∨ ∃ b ∈ c.blocks, ∃ q, b.packed = .ok q ∧ q.bodies = bodies) ∧
    p.bodies.Subperm (bodies ++ adds.map .ofBytes)

/-- Why an operation on a list that is given some strings may stop. -/
inductive Chain.Exceeds (c : Chain) (adds : List Bytes) : Fault → Prop
  /-- A block was to hold what no header can tell the size of. -/
  | outgrown (p : Packed) (hmade : c.Makes adds p) (hsize : Packed.sizeLimit ≤ p.size) :
      c.Exceeds adds .overflow
  /-- The compressor runs into the end of its output. -/
  | overrun (p : Packed) (hp : p.WellFormed) (htexts : p.texts.Subperm (c.texts ++ adds))
      (h : Lzf.compress? p.toBytes = .error .outputOverrun) : c.Exceeds adds .outputOverrun

/-- The blocks hold packed lists of a kind, and between them no strings but some of these. -/
def Chain.Among (c : Chain) (kind : Packed → Prop) (ts : List Bytes) : Prop :=
  ∃ l, c.Has l ∧ (∀ x ∈ l.leaves, kind x.list) ∧ l.texts.Subperm ts

/-- The blocks have come from those of the list `c₀` and from strings. -/
def Chain.GrownFrom (c : Chain) (c₀ : Chain) (adds : List Bytes) : Prop :=
  c.Among (c₀.Makes adds) (c₀.texts ++ adds)

/-! ### What lists are made of -/

section Makes

variable {c c₀ : Chain} {l : Layout} {adds more : List Bytes} {p q : Packed} {s : Bytes}

/-- What is made of the bodies is made of the strings. -/
theorem Packed.texts_subperm (h : p.bodies.Subperm (q.bodies ++ adds.map .ofBytes)) :
    p.texts.Subperm (q.texts ++ adds) := by
  obtain ⟨bodies, hperm, hsub⟩ := h
  have hstrings : (adds.map Body.ofBytes).map (fun b => b.value.render) = adds := by
    simp [Function.comp_def]
  refine ⟨bodies.map fun b => b.value.render, ?_, ?_⟩
  · rw [Packed.texts_eq]
    exact hperm.map _
  · have hmap := hsub.map fun b => b.value.render
    rwa [List.map_append, hstrings, ← Packed.texts_eq] at hmap

/-- Wherever it is inserted, a string is one body more. -/
theorem Packed.bodies_insertIdx_subperm (p : Packed) (k : Nat) (s : Bytes) :
    (p.insertIdx k s).bodies.Subperm (p.bodies ++ [.ofBytes s]) := by
  rcases Nat.lt_or_ge k p.entries.size with hk | hk
  · rw [bodies_insertIdx p (Nat.le_of_lt hk)]
    refine List.Perm.subperm (List.perm_middle.trans ?_)
    rw [List.take_append_drop]
    exact (List.perm_append_singleton _ _).symm
  · rw [insertIdx_of_size_le hk, bodies_push]

namespace Chain

theorem Makes.of_subperm (h : c₀.Makes adds p) (hq : q.bodies.Subperm p.bodies) :
    c₀.Makes adds q := by
  obtain ⟨bodies, hfrom, hsub⟩ := h
  exact ⟨bodies, hfrom, hq.trans hsub⟩

/-- More strings are given, and may be put in. -/
theorem Makes.append (h : c₀.Makes adds p)
    (hq : q.bodies.Subperm (p.bodies ++ more.map .ofBytes)) : c₀.Makes (adds ++ more) q := by
  obtain ⟨bodies, hfrom, hsub⟩ := h
  refine ⟨bodies, hfrom, hq.trans ?_⟩
  rw [List.map_append, ← List.append_assoc]
  exact (List.subperm_append_right _).mpr hsub

theorem Makes.mono (h : c₀.Makes adds p) (more : List Bytes) : c₀.Makes (adds ++ more) p :=
  h.append (List.sublist_append_left _ _).subperm

/-- From strings alone. -/
theorem makes_of_bodies (h : p.bodies.Subperm (more.map .ofBytes)) : c₀.Makes (adds ++ more) p := by
  refine ⟨[], .inl rfl, h.trans ?_⟩
  rw [List.nil_append, List.map_append]
  exact (List.sublist_append_right _ _).subperm

/-- From a block. -/
theorem makes_of_mem {b : Block} (hb : b ∈ c₀.blocks) (hp : b.packed = .ok p) : c₀.Makes [] p :=
  ⟨p.bodies, .inr ⟨b, hb, p, hp, rfl⟩, by simpa using List.Subperm.refl p.bodies⟩

theorem Exceeds.mono {f : Fault} (h : c₀.Exceeds adds f) (more : List Bytes) :
    c₀.Exceeds (adds ++ more) f := by
  cases h with
  | outgrown p hmade hsize => exact .outgrown p (hmade.mono more) hsize
  | overrun p hp htexts h =>
    refine .overrun p hp (htexts.trans ?_) h
    rw [← List.append_assoc]
    exact (List.sublist_append_left _ _).subperm

/-- A string of this length does not go into any packed list. -/
theorem exceeds_of_length_le (hs : Packed.sizeLimit ≤ s.length) :
    c₀.Exceeds (adds ++ [s]) .overflow := by
  have hbodies : (Packed.empty.push s).bodies = [.ofBytes s] := Packed.bodies_push _ s
  refine .outgrown (Packed.empty.push s) (makes_of_bodies (by rw [hbodies]; rfl)) ?_
  have htext : Body.ofBytes s = .text (.ofBytes s) := by
    refine Body.ofBytes_of_ne_render ?_
    rintro n hrange rfl
    have hlen := Numeral.length_render_le hrange
    simp only [Packed.sizeLimit, Numeral.maxLength] at hs hlen
    omega
  have hnarrow := (Packed.empty.push s).narrowSize_bodies_le
  rw [hbodies, Body.narrowSize_cons, htext] at hnarrow
  have hpayload : s.length ≤ (Body.text (.ofBytes s)).size := Nat.le_add_left _ _
  omega

end Chain

end Makes

/-! ### Blocks -/

namespace Block

variable {b : Block} {p : Packed} {why : Fault → Prop} {f : Packed → Packed}
  {g : Block → Except Fault Block}

theorem Keeps.stops_packed (h : b.Keeps p) : Stops b.packed why := by
  rw [h.packed_eq]
  exact stops_ok

theorem Keeps.stops_inflate (h : b.Keeps p) : Stops b.inflate why := by
  rw [inflate_eq h.packed_eq]
  exact stops_ok

theorem Keeps.stops_openForUse (h : b.Keeps p) : Stops b.openForUse why := by
  unfold Block.openForUse
  split
  · exact h.stops_inflate.bind_any fun _ => stops_pure
  · exact stops_ok

theorem Keeps.stops_keepPlain (h : b.Keeps p) : Stops b.keepPlain why :=
  h.stops_inflate.bind_any fun _ => stops_pure

/-- What stops a compression stops the compressor. -/
theorem compress?_of_worthwhile? {size : Nat} {e : Fault} (h : worthwhile? p size = .error e) :
    Lzf.compress? p.toBytes = .error e := by
  unfold worthwhile? at h
  split at h
  · contradiction
  · split at h
    · next hcompress =>
      obtain rfl := Except.error.inj h
      exact hcompress
    · contradiction
    · contradiction

theorem Keeps.stops_compress (h : b.Keeps p)
    (hwhy : Lzf.compress? p.toBytes = .error .outputOverrun → why .outputOverrun) :
    Stops b.compress why := by
  obtain ⟨content, size, count, pending, tried⟩ := b
  cases content with
  | compressed bytes => exact stops_ok
  | plain q =>
    obtain rfl : q = p := Except.ok.inj h.packed_eq
    simp only [Block.compress]
    split
    · next hfault =>
      obtain rfl := eq_outputOverrun_of_worthwhile? hfault
      exact stops_error fun _ => hwhy (compress?_of_worthwhile? hfault)
    · exact stops_ok
    · exact stops_ok

theorem Keeps.stops_settle (h : b.Keeps p)
    (hwhy : Lzf.compress? p.toBytes = .error .outputOverrun → why .outputOverrun) :
    Stops b.settle why := by
  unfold Block.settle
  split
  · exact h.stops_compress hwhy
  · exact stops_ok

/-- The operation changes the list of a block by `f`, unless that makes it too large. -/
structure Changes (g : Block → Except Fault Block) (f : Packed → Packed) : Prop where
  /-- What it gives keeps the changed list. -/
  gives : ∀ {b p}, b.Keeps p → Gives (g b) (·.Keeps (f p))
  /-- A limit stops it if the changed list is too large. -/
  stops : ∀ {b p}, b.Keeps p → Stops (g b) fun e => e = .overflow ∧ Packed.sizeLimit ≤ (f p).size

theorem changes_modify (hf : ∀ p, p.WellFormed → (f p).size < Packed.sizeLimit → (f p).WellFormed) :
    Changes (Block.modify f) f where
  gives h := ((h.modify (hf _ h.wellFormed)).imp fun _ hb' => hb'.1).gives
  stops h := by
    rw [modify_eq h.packed_eq]
    split
    · exact stops_ok
    · next hlarge => exact stops_error fun _ => ⟨rfl, Nat.le_of_not_lt hlarge⟩

/-- Whatever number of entries is recorded. -/
theorem Changes.withCount (h : Changes g f) (n : Block → Nat) :
    Changes (fun b => do
      let b' ← g b
      return b'.withCount (n b)) f where
  gives hb := (h.gives hb).bind fun _ hb' => gives_pure.mpr (hb'.withCount _)
  stops hb := (h.stops hb).bind_any fun _ => stops_pure

/-- Whatever counter is taken down first. -/
theorem Changes.subtract (h : Changes g f) (m : Nat) :
    Changes (fun b => do
      let n ← UnrolledList.subtract b.count m
      let b' ← g b
      return b'.withCount n) f where
  gives hb := Gives.bind_any fun _ =>
    (h.gives hb).bind fun _ hb' => gives_pure.mpr (hb'.withCount _)
  stops hb := (stops_subtract _ _).bind_any fun _ => (h.stops hb).bind_any fun _ => stops_pure

theorem changes_pushFront (s : Bytes) : Changes (Block.pushFront s) (·.pushFront s) :=
  (changes_modify fun _ hp => hp.pushFront).withCount fun b => b.count + 1

theorem changes_pushBack (s : Bytes) : Changes (Block.pushBack s) (·.push s) :=
  (changes_modify fun _ hp => hp.push).withCount fun b => b.count + 1

end Block

/-! ### Links -/

namespace Arena

variable {why : Fault → Prop}

/-- A name without a block is not the fault of a limit. -/
theorem stops_node (a : Arena) (id : BlockId) : Stops (a.node id) why := by
  unfold node
  split
  · exact stops_ok
  · exact stops_error False.elim

theorem stops_link (a : Arena) (id : BlockId) (side : Side) (other : Option BlockId) :
    Stops (a.link id side other) why :=
  (stops_node a id).bind_any fun _ => stops_pure

theorem stops_linkIfAny (a : Arena) (id : Option BlockId) (side : Side) (other : Option BlockId) :
    Stops (a.linkIfAny id side other) why := by
  cases id with
  | some id => exact stops_link a id side other
  | none => exact stops_ok

/-- So linking is stopped by no limit, -/
theorem stops_insertNode (a : Arena) (old : Option BlockId) (side : Side) (new : BlockId) :
    Stops (a.insertNode old side new) why := by
  have hlink : Stops (a.linkBeside old side new) why := by
    refine (stops_link _ _ _ _).bind_any fun a => ?_
    cases old with
    | some old =>
      refine (stops_node _ _).bind_any fun k => (stops_link _ _ _ _).bind_any fun a => ?_
      exact (stops_linkIfAny _ _ _ _).bind_any fun a => stops_link _ _ _ _
    | none => exact stops_pure
  exact hlink.bind_any fun _ => stops_pure

/-- nor is unlinking. -/
theorem stops_removeNode (a : Arena) (id : BlockId) : Stops (a.removeNode id) why := by
  have hrelease : Stops (a.release id) why := by
    cases hk : a.link? id with
    | some k =>
      obtain ⟨a', hrelease, -⟩ := exists_release hk
      rw [hrelease]
      exact stops_ok
    | none =>
      rw [release_eq_missing hk]
      exact stops_error False.elim
  refine hrelease.bind_any fun r => (stops_linkIfAny _ _ _ _).bind_any fun a => ?_
  refine (stops_linkIfAny _ _ _ _).bind_any fun a => ?_
  exact (stops_subtract _ _).bind_any fun n => stops_pure

end Arena

/-! ### Chains -/

namespace Chain

variable {c c₀ : Chain} {l : Layout} {kind : Packed → Prop} {ts adds : List Bytes}
  {f : Packed → Packed} {g : Block → Except Fault Block} {why : Fault → Prop} {new : Cell} {i : Nat}

theorem Has.among (h : c.Has l) (hkind : ∀ x ∈ l.leaves, kind x.list)
    (hts : l.texts.Subperm ts) : c.Among kind ts :=
  ⟨l, h, hkind, hts⟩

/-- A block that can be read is one of the list. -/
theorem mem_blocks {b : Block} (hb : c.block i = .ok b) : b ∈ c.blocks := by
  unfold Chain.block at hb
  split at hb
  · next cell hcell =>
    obtain rfl := Except.ok.inj hb
    exact List.mem_map_of_mem (Array.mem_toList_iff.mpr (Array.mem_of_getElem? hcell))
  · contradiction

/-- At its beginning an operation has been given nothing. -/
theorem Has.grownFrom_self (h : c.Has l) : c.GrownFrom c [] := by
  refine ⟨l, h, fun x hx => ?_, by rw [List.append_nil, h.texts_eq]⟩
  obtain ⟨pre, post, hl⟩ := List.append_of_mem hx
  obtain ⟨b, hb, hkeeps, -⟩ := h.block_eq hl
  exact makes_of_mem (mem_blocks hb) hkeeps.packed_eq

/-- The strings of a block are among those of the list. -/
theorem Has.texts_subperm {pre post : List Leaf} {x : Leaf} (hl : l.leaves = pre ++ x :: post) :
    x.list.texts.Subperm l.texts := by
  rw [Layout.texts, hl, Layout.textsOf_append, Layout.textsOf_cons]
  exact ((List.sublist_append_left _ _).trans (List.sublist_append_right _ _)).subperm

/-- What stops a change of a block stops the change of the chain. -/
theorem Has.stops_modifyBlock (h : c.Has l) {i : Nat}
    (hg : ∀ pre x post, l.leaves = pre ++ x :: post → pre.length = i → ∀ b, c.block i = .ok b →
      b.Keeps x.list → Stops (g b) why) : Stops (c.modifyBlock i g) why := by
  by_cases hi : i < c.cells.size
  · obtain ⟨pre, x, post, hl, rfl⟩ := l.exists_leaf (by rwa [← h.length_eq])
    obtain ⟨b, hb, hkeeps, -⟩ := h.block_eq hl
    rw [block_eq_ok hi] at hb
    obtain rfl := Except.ok.inj hb
    rw [modifyBlock_eq c hi]
    exact (hg pre x post hl rfl _ (block_eq_ok hi) hkeeps).map
  · rw [modifyBlock_eq_missing hi]
    exact stops_error False.elim

/-- Reading a block is stopped by nothing. -/
theorem stops_block (i : Nat) : Stops (c.block i) why := by
  unfold Chain.block
  split
  · exact stops_ok
  · exact stops_error False.elim

/-- A block that is read keeps a list. -/
theorem Has.gives_block (h : c.Has l) (i : Nat) : Gives (c.block i) fun b => ∃ p, b.Keeps p := by
  rintro b hb
  obtain ⟨-, x, -, -, -, hkeeps, -⟩ := h.exists_leaf_of_block hb
  exact ⟨x.list, hkeeps⟩

/-- So its list can be read. -/
theorem Has.stops_packed {β : Type} (h : c.Has l) (i : Nat) {k : Packed → Except Fault β}
    (hk : ∀ p, Stops (k p) why) : Stops (c.block i >>= fun b => b.packed >>= k) why :=
  (stops_block i).bind (h.gives_block i) fun _ ⟨_, hb⟩ => hb.stops_packed.bind_any hk

theorem Has.stops_openForUse (h : c.Has l) (i : Nat) : Stops (c.openForUse i) why :=
  h.stops_modifyBlock fun _ _ _ _ _ _ _ hb => hb.stops_openForUse

theorem Has.stops_inflate (h : c.Has l) (i : Nat) : Stops (c.modifyBlock i Block.inflate) why :=
  h.stops_modifyBlock fun _ _ _ _ _ _ _ hb => hb.stops_inflate

theorem Among.openForUse (h : c.Among kind ts) (i : Nat) :
    Explained (c.openForUse i) (·.Among kind ts) why := by
  obtain ⟨l, hl, hkind, hts⟩ := h
  refine ⟨?_, hl.stops_openForUse i⟩
  exact (hl.gives_recode i fun _ _ hb => hb.openForUse).imp fun c' h' => ⟨l, h', hkind, hts⟩

theorem Among.inflate (h : c.Among kind ts) (i : Nat) :
    Explained (c.modifyBlock i Block.inflate) (·.Among kind ts) why := by
  obtain ⟨l, hl, hkind, hts⟩ := h
  refine ⟨?_, hl.stops_inflate i⟩
  exact (hl.gives_recode i fun _ _ hb => hb.inflate).imp fun c' h' => ⟨l, h', hkind, hts⟩

namespace Among

/-- A block that is kept in another way is changed, or there is a reason why not. -/
theorem recode (h : c.Among kind (c₀.texts ++ adds))
    (hkeep : ∀ (b : Block) (p : Packed), b.Keeps p →
      Ensures (g b) fun b' => b'.Keeps p ∧ b'.count = b.count)
    (hstops : ∀ {b p}, b.Keeps p →
      (Lzf.compress? p.toBytes = .error .outputOverrun → c₀.Exceeds adds .outputOverrun) →
        Stops (g b) (c₀.Exceeds adds)) (i : Nat) :
    Explained (c.modifyBlock i g) (·.Among kind (c₀.texts ++ adds)) (c₀.Exceeds adds) := by
  obtain ⟨l, hl, hkind, hts⟩ := h
  constructor
  · exact (hl.gives_recode i hkeep).imp fun c' h' => ⟨l, h', hkind, hts⟩
  · refine hl.stops_modifyBlock fun pre x post hsplit _ b _ hb => hstops hb fun hcompress => ?_
    exact .overrun x.list hb.wellFormed ((Has.texts_subperm hsplit).trans hts) hcompress

theorem settle (h : c.Among kind (c₀.texts ++ adds)) (i : Nat) :
    Explained (c.settle i) (·.Among kind (c₀.texts ++ adds)) (c₀.Exceeds adds) :=
  h.recode (fun _ _ hb => hb.settle) (fun hb hwhy => hb.stops_settle hwhy) i

theorem modifyBlocks
    (hg : ∀ {c : Chain}, c.Among kind ts → ∀ i,
      Explained (c.modifyBlock i g) (·.Among kind ts) why)
    (h : c.Among kind ts) (idxs : List Nat) :
    Explained (c.modifyBlocks g idxs) (·.Among kind ts) why := by
  induction idxs generalizing c with
  | nil => exact explained_ok.mpr h
  | cons i idxs ih => exact (hg h i).bind fun c₁ h₁ => ih h₁

theorem enforce (h : c.Among kind (c₀.texts ++ adds)) (touched : Option Nat) :
    Explained (c.enforce touched) (·.Among kind (c₀.texts ++ adds)) (c₀.Exceeds adds) := by
  unfold Chain.enforce
  dsimp only
  split
  · exact explained_ok.mpr h
  · refine (modifyBlocks (fun h i => ?_) h _).bind fun c₁ h₁ => modifyBlocks (fun h i => ?_) h₁ _
    · exact h.recode (fun _ _ hb => hb.keepPlain) (fun hb _ => hb.stops_keepPlain) i
    · exact h.recode (fun _ _ hb => hb.compress) (fun hb hwhy => hb.stops_compress hwhy) i

theorem recompress (h : c.Among kind (c₀.texts ++ adds)) (i : Nat) :
    Explained (c.recompress i) (·.Among kind (c₀.texts ++ adds)) (c₀.Exceeds adds) := by
  refine (stops_block i).explained.bind fun b _ => ?_
  split
  · exact h.settle i
  · exact h.enforce _

theorem withCount (h : c.Among kind ts) (n : Nat) : (c.withCount n).Among kind ts := by
  obtain ⟨l, hl, hkind, hts⟩ := h
  exact ⟨_, hl.withCount n, hkind, hts⟩

theorem touch (h : c.Among kind ts) : c.touch.Among kind ts := by
  obtain ⟨l, hl, hkind, hts⟩ := h
  exact ⟨_, hl.touch, hkind, hts⟩

theorem takeId (h : c.Among kind ts) : c.takeId.2.Among kind ts := by
  obtain ⟨l, hl, hkind, hts⟩ := h
  refine ⟨_, hl.takeId.2.1, ?_, ?_⟩
  · simpa only [Layout.leaves_takeId] using hkind
  · simpa only [Layout.texts, Layout.leaves_takeId] using hts

end Among

/-! ### Adding and removing blocks -/

theorem stops_linkCell (c : Chain) (beside : Option Nat) (place : Place) (new : Cell) :
    Stops (c.linkCell beside place new) why := by
  have hbeside : Stops (c.idBeside beside) why := by
    unfold idBeside
    split
    · split
      · exact stops_ok
      · exact stops_error False.elim
    · split
      · exact stops_ok
      · exact stops_error False.elim
  refine hbeside.bind_any fun old => (Arena.stops_insertNode _ _ _ _).bind_any fun arena => ?_
  by_cases hi : beside.elim 0 place.cut ≤ c.cells.size
  · rw [insertCell_eq (c.withArena arena) hi]
    exact stops_ok
  · rw [insertCell_eq_missing (c := c.withArena arena) hi]
    exact stops_error False.elim

theorem stops_removeCell (c : Chain) (i : Nat) : Stops (c.removeCell i) why := by
  by_cases hi : i < c.cells.size
  · rw [removeCell_eq c hi]
    exact (Arena.stops_removeNode _ _).map
  · rw [removeCell_eq_missing hi]
    exact stops_error False.elim

/-- A block that is put in adds its strings. -/
theorem Among.gives_linkCell (h : c.Among kind ts) {y : Leaf} (hnew : new.Shows y)
    (hy : kind y.list) (hspare : c.arena.Spare c.ids new.id) (beside : Option Nat) (place : Place) :
    Gives (c.linkCell beside place new) (·.Among kind (ts ++ y.list.texts)) := by
  obtain ⟨l, hl, hkind, hts⟩ := h
  cases hid : c.idBeside beside with
  | error f =>
    rw [Chain.linkCell, hid]
    exact gives_error
  | ok old =>
    obtain ⟨pre, post, hsplit, hbetween⟩ := hl.exists_between hid place
    rw [hl.ids_eq] at hspare
    have hlink := (hl.linkCell hsplit hbetween hnew hspare).gives
    refine hlink.imp fun c' h' => ⟨_, h', fun x hx => ?_, ?_⟩
    · rw [hsplit] at hkind
      rcases List.mem_append.mp hx with hx | hx
      · exact hkind x (List.mem_append_left _ hx)
      · rcases List.mem_cons.mp hx with rfl | hx
        · exact hy
        · exact hkind x (List.mem_append_right _ hx)
    · refine List.Subperm.trans (List.Perm.subperm ?_) ((List.subperm_append_right _).mpr hts)
      rw [Layout.texts, Layout.texts, hsplit, Layout.textsOf_append, Layout.textsOf_cons,
        Layout.textsOf_append, List.append_assoc]
      exact List.perm_append_comm.append_left _

/-- A block that is taken out takes its strings with it. -/
theorem Among.gives_removeCell (h : c.Among kind ts) (i : Nat) :
    Gives (c.removeCell i) fun r => ∀ n, (r.1.withCount n).Among kind ts := by
  obtain ⟨l, hl, hkind, hts⟩ := h
  by_cases hi : i < c.cells.size
  · obtain ⟨pre, x, post, hsplit, rfl⟩ := l.exists_leaf (by rwa [← hl.length_eq])
    have hremove := (hl.removeCell hsplit).gives
    refine hremove.imp fun r hr n => ⟨_, hr.2.withCount n, fun y hy => ?_, ?_⟩
    · refine hkind y ?_
      simp only [hsplit, List.mem_append, List.mem_cons] at hy ⊢
      exact hy.imp_right .inr
    · refine List.Subperm.trans (List.Sublist.subperm ?_) hts
      simp only [Layout.texts, hsplit, Layout.textsOf_append, Layout.textsOf_cons]
      exact (List.sublist_append_right _ _).append_left _
  · intro r hr
    rw [removeCell_eq_missing hi] at hr
    contradiction

/-- A block is linked, if it is put in its place with everything that is to be known. -/
theorem explained_linkBeside {place : Place}
    (h : Gives (c.linkCell (some i) place new) (·.Among kind (c₀.texts ++ adds))) :
    Explained (c.linkBeside i place new) (·.Among kind (c₀.texts ++ adds)) (c₀.Exceeds adds) := by
  rw [linkBeside_eq]
  refine Explained.bind ⟨h, stops_linkCell c _ _ new⟩ fun c₁ h₁ => ?_
  exact (h₁.recompress _).bind fun c₂ h₂ => h₂.recompress _

theorem explained_linkAt
    (h : ∀ beside place, Gives (c.linkCell beside place new) (·.Among kind (c₀.texts ++ adds)))
    (side : Side) :
    Explained (c.linkAt side new) (·.Among kind (c₀.texts ++ adds)) (c₀.Exceeds adds) := by
  unfold Chain.linkAt
  split
  · exact explained_linkBeside (h _ _)
  · exact Explained.bind ⟨h none _, stops_linkCell c _ _ new⟩ fun c₁ h₁ => h₁.recompress 0

/-- A block is unlinked, if what is left has everything that is to be known. -/
theorem explained_unlink
    (h : Gives (c.removeCell i) fun r => ∀ n, (r.1.withCount n).Among kind (c₀.texts ++ adds)) :
    Explained (c.unlink i) (·.Among kind (c₀.texts ++ adds)) (c₀.Exceeds adds) :=
  Explained.bind ⟨h, stops_removeCell c i⟩ fun _ hr =>
    (stops_subtract _ _).explained.bind fun n _ => (hr n).enforce none

theorem Among.unlink (h : c.Among kind (c₀.texts ++ adds)) (i : Nat) :
    Explained (c.unlink i) (·.Among kind (c₀.texts ++ adds)) (c₀.Exceeds adds) :=
  explained_unlink (h.gives_removeCell i)

/-! ### Changing a block -/

/-- A block that is changed keeps the changed list. -/
theorem Has.gives_change {pre post : List Leaf} {x : Leaf} (h : c.Has l)
    (hl : l.leaves = pre ++ x :: post) (hg : Block.Changes g f) :
    Gives (c.modifyBlock pre.length g) fun c' =>
      ∃ n, c'.Has { l with leaves := pre ++ ⟨x.id, f x.list, n⟩ :: post } := by
  intro c' hc'
  obtain ⟨hlt, hshows⟩ := h.getElem_cells hl
  rw [modifyBlock_eq c hlt] at hc'
  obtain ⟨b, hb, rfl⟩ := exists_of_map_eq_ok hc'
  have hset := h.modifyBlock (y := ⟨x.id, f x.list, b.count⟩) (f := fun _ => .ok b) hl rfl
    fun _ _ _ => ⟨hg.gives hshows.keeps b hb, rfl⟩
  rw [modifyBlock_eq c hlt] at hset
  exact ⟨b.count, hset⟩

/-- **A change of a block** is explained by what the new list is made of. -/
theorem GrownFrom.change (h : c.GrownFrom c₀ adds) (hg : Block.Changes g f) (more : List Bytes)
    (hf : ∀ b p, c.block i = .ok b → b.Keeps p →
      (f p).bodies.Subperm (p.bodies ++ more.map .ofBytes)) :
    Explained (c.modifyBlock i g) (·.GrownFrom c₀ (adds ++ more)) (c₀.Exceeds (adds ++ more)) := by
  obtain ⟨l, hl, hkind, hts⟩ := h
  constructor
  · by_cases hi : i < c.cells.size
    · obtain ⟨pre, x, post, hsplit, rfl⟩ := l.exists_leaf (by rwa [← hl.length_eq])
      obtain ⟨b, hb, hkeeps, -⟩ := hl.block_eq hsplit
      have hx := hf b _ hb hkeeps
      refine (hl.gives_change hsplit hg).imp fun c' h' => ?_
      obtain ⟨n, h'⟩ := h'
      refine ⟨_, h', fun y hy => ?_, ?_⟩
      · simp only [hsplit, List.mem_append, List.mem_cons] at hkind hy
        rcases hy with hy | rfl | hy
        · exact (hkind y (.inl hy)).mono more
        · exact (hkind x (.inr (.inl rfl))).append hx
        · exact (hkind y (.inr (.inr hy))).mono more
      · have hgrown := (List.subperm_append_right more).mpr hts
        rw [List.append_assoc] at hgrown
        refine List.Subperm.trans ?_ hgrown
        simp only [Layout.texts, hsplit, Layout.textsOf_append, Layout.textsOf_cons]
        rw [List.append_assoc, List.append_assoc]
        refine (List.subperm_append_left _).mpr ?_
        refine ((List.subperm_append_right _).mpr (Packed.texts_subperm hx)).trans ?_
        rw [List.append_assoc]
        exact ((List.subperm_append_left _).mpr List.perm_append_comm.subperm)
    · rw [modifyBlock_eq_missing hi]
      exact gives_error
  · refine hl.stops_modifyBlock fun pre x post hsplit _ b hb hkeeps => ?_
    refine (hg.stops hkeeps).imp ?_
    rintro _ ⟨rfl, hsize⟩
    exact .outgrown _ ((hkind x (by simp [hsplit])).append (hf b _ hb hkeeps)) hsize

/-- A change that puts nothing in. -/
theorem GrownFrom.reduce (h : c.GrownFrom c₀ adds) (hg : Block.Changes g f)
    (hf : ∀ p, (f p).bodies.Subperm p.bodies) (i : Nat) :
    Explained (c.modifyBlock i g) (·.GrownFrom c₀ adds) (c₀.Exceeds adds) := by
  have hchange := h.change (i := i) hg [] fun _ p _ _ => by simpa using hf p
  rwa [List.append_nil] at hchange

/-- **An entry that is erased** leaves what was there before. -/
theorem GrownFrom.eraseAt (h : c.GrownFrom c₀ adds) (i k : Nat) :
    Explained (c.eraseAt i k) (·.1.GrownFrom c₀ adds) (c₀.Exceeds adds) := by
  have hchanges : Block.Changes (fun b => do
      let n ← subtract b.count 1
      let b ← b.modify fun p => p.eraseIdx k 1
      return b.withCount n) fun p => p.eraseIdx k 1 :=
    (Block.changes_modify fun _ hp => hp.eraseIdx).subtract 1
  refine (h.reduce hchanges (fun p => (p.sublist_bodies_eraseIdx k 1).subperm) i).bind
    fun c₁ h₁ => ?_
  have hcount : ∀ {c : Chain} (gone : Bool), c.GrownFrom c₀ adds → Explained (do
      let n ← subtract c.count 1
      return (c.withCount n, gone)) (·.1.GrownFrom c₀ adds) (c₀.Exceeds adds) := fun gone hc =>
    (stops_subtract _ _).explained.bind fun n _ => explained_pure.mpr (hc.withCount n)
  refine (stops_block i).explained.bind fun b _ => ?_
  dsimp only
  split
  · exact (Among.unlink h₁ i).bind fun c₂ h₂ => hcount _ h₂
  · exact hcount _ h₁

/-! ### Ends -/

variable {s : Bytes}

/-- Admission is answered, unless the string is too long for any block. -/
theorem Has.stops_admits (h : c.Has l) (adds : List Bytes) (i : Nat) :
    Stops (c.admits i s.length) (c₀.Exceeds (adds ++ [s])) := by
  refine (stops_block i).bind (h.gives_block i) fun b hb => ?_
  obtain ⟨p, hkeeps⟩ := hb
  unfold Fill.admits?
  dsimp only
  split
  · next answer hanswer =>
    split at hanswer
    · exact stops_pure
    · contradiction
  · next hnone =>
    split at hnone
    · contradiction
    · next hlarge =>
      refine stops_error fun _ => exceeds_of_length_le ?_
      have hsize := hkeeps.wellFormed.size_lt
      have hheader : entryOverhead s.length ≤ 10 := by
        unfold entryOverhead
        grind
      rw [hkeeps.size_eq] at hlarge
      simp only [wordLimit, Packed.sizeLimit] at *
      omega

theorem Has.stops_admittingEnd? (h : c.Has l) (side : Side) :
    Stops (c.admittingEnd? side s.length) (c₀.Exceeds (adds ++ [s])) := by
  unfold Chain.admittingEnd?
  split
  · exact stops_ok
  · exact (h.stops_admits adds _).bind_any fun _ => stops_pure

/-- A string that is put into a block at either end. -/
theorem GrownFrom.pushInto (h : c.GrownFrom c₀ adds) (i : Nat) (side : Side) (s : Bytes) :
    Explained (c.pushInto i side s) (·.GrownFrom c₀ (adds ++ [s]))
      (c₀.Exceeds (adds ++ [s])) := by
  cases side with
  | head => exact h.change (Block.changes_pushFront s) [s] fun _ p _ _ =>
      p.bodies_insertIdx_subperm 0 s
  | tail =>
    refine h.change (Block.changes_pushBack s) [s] fun _ p _ _ => ?_
    rw [Packed.bodies_push]
    rfl

/-- A string in a block of its own. -/
theorem explained_singleton (c₀ : Chain) (adds : List Bytes) (s : Bytes) :
    Explained (Block.singleton s) (·.Keeps (Packed.empty.push s)) (c₀.Exceeds (adds ++ [s])) := by
  have hempty := Block.keeps_ofPacked Packed.wellFormed_empty
  refine ⟨(Block.changes_pushBack s).gives hempty, ?_⟩
  refine ((Block.changes_pushBack s).stops hempty).imp ?_
  rintro _ ⟨rfl, hsize⟩
  refine .outgrown _ (makes_of_bodies ?_) hsize
  rw [Packed.bodies_push]
  rfl

/-- A new block with one string. -/
theorem GrownFrom.gives_linkCell (h : c.GrownFrom c₀ adds) {b : Block}
    (hb : b.Keeps (Packed.empty.push s)) {id : BlockId} (hspare : c.arena.Spare c.ids id)
    (beside : Option Nat) (place : Place) :
    Gives (c.linkCell beside place ⟨id, b⟩) (·.GrownFrom c₀ (adds ++ [s])) := by
  obtain ⟨l, hl, hkind, hts⟩ := h
  have hmore : c.Among (c₀.Makes (adds ++ [s])) (c₀.texts ++ adds) :=
    ⟨l, hl, fun x hx => (hkind x hx).mono [s], hts⟩
  have hmakes : c₀.Makes (adds ++ [s]) (Packed.empty.push s) := makes_of_bodies (by
    rw [Packed.bodies_push]
    rfl)
  have hnew : (⟨id, b⟩ : Cell).Shows ⟨id, Packed.empty.push s, b.count⟩ := ⟨rfl, hb, rfl⟩
  have hins := hmore.gives_linkCell hnew hmakes hspare beside place
  rwa [Packed.texts_push, Packed.texts_empty, List.nil_append, List.append_assoc] at hins

/-- **A push** puts in the string that it is given. -/
theorem GrownFrom.push (h : c.GrownFrom c₀ adds) (side : Side) (s : Bytes) :
    Explained (c.push side s) (·.1.GrownFrom c₀ (adds ++ [s])) (c₀.Exceeds (adds ++ [s])) := by
  obtain ⟨l, hl, -⟩ := id h
  refine (hl.stops_admittingEnd? side).explained.bind fun admitting _ => ?_
  cases admitting with
  | some i =>
    refine (h.pushInto i side s).bind fun c₁ h₁ => ?_
    exact explained_pure.mpr (Among.withCount h₁ _).touch
  | none =>
    refine (explained_singleton c₀ adds s).bind fun b hb => ?_
    have htaken : c.takeId.2.GrownFrom c₀ adds := Among.takeId h
    have hlink := htaken.gives_linkCell hb hl.spare_takeId
    refine (explained_linkAt hlink side).bind fun c₁ h₁ => ?_
    exact explained_pure.mpr (Among.withCount h₁ _).touch

theorem GrownFrom.pushAll (h : c.GrownFrom c₀ adds) (vs : List Value) :
    Explained (c.pushAll vs) (·.GrownFrom c₀ (adds ++ vs.map Value.render))
      (c₀.Exceeds (adds ++ vs.map Value.render)) := by
  induction vs generalizing c adds with
  | nil =>
    rw [List.map_nil, List.append_nil]
    exact explained_ok.mpr h
  | cons v vs ih =>
    rw [List.map_cons, List.append_cons]
    have hpush := h.push .tail v.render
    refine Explained.bind ⟨hpush.1, hpush.2.imp fun e he => he.mono _⟩ fun r hr => ?_
    exact ih hr

/-- **A packed list that is appended** is given with its strings. -/
theorem Has.stops_appendBlock (h : c.Has l) {p : Packed} (hp : p.WellFormed) :
    Stops (c.appendBlock p) (c.Exceeds p.texts) := by
  unfold Chain.appendBlock
  split
  · exact stops_ok
  · have hthere : c.takeId.2.Among (fun _ => True) c.texts :=
      Among.takeId (h.among (fun _ _ => trivial) (by rw [h.texts_eq]))
    have hnew : Cell.Shows ⟨c.takeId.1, .ofPacked p⟩ ⟨c.takeId.1, p, (Block.ofPacked p).count⟩ :=
      ⟨rfl, Block.keeps_ofPacked hp, rfl⟩
    have hlink := hthere.gives_linkCell hnew trivial h.spare_takeId
    exact (explained_linkAt hlink .tail).2.bind_any fun _ => stops_pure

theorem Among.outermost? (h : c.Among kind ts) (side : Side) :
    Explained (c.outermost? side) (·.1.Among kind ts) why := by
  unfold Chain.outermost?
  split
  · exact explained_ok.mpr h
  · next i _ =>
    refine (h.inflate i).bind fun c₁ h₁ => ?_
    obtain ⟨l, hl, -⟩ := id h₁
    refine (stops_block i).explained.and_gives (hl.gives_block i) |>.bind fun b hb => ?_
    obtain ⟨-, p, hkeeps⟩ := hb
    exact hkeeps.stops_packed.explained.bind fun q _ => explained_pure.mpr h₁

/-- **A pop** only takes away. -/
theorem Has.stops_pop (h : c.Has l) (side : Side) : Stops (c.pop side) (c.Exceeds []) := by
  unfold Chain.pop
  split
  · exact stops_ok
  · refine (Among.outermost? h.grownFrom_self side).stops_bind fun r hr => ?_
    obtain ⟨c₁, found⟩ := r
    cases found with
    | none => exact stops_pure
    | some found => exact (GrownFrom.eraseAt hr _ _).stops_bind fun r _ => stops_pure

/-- **A rotation** is given the last string of the list. -/
theorem Has.stops_rotate (h : c.Has l) (hs : l.Sound) :
    Stops c.rotate (c.Exceeds c.texts.getLast?.toList) := by
  unfold Chain.rotate
  split
  · exact stops_ok
  · next hmany =>
    have hne : l.texts ≠ [] := by
      rintro hnil
      rw [h.count_eq, ← hs.length_texts, hnil, List.length_nil] at hmany
      omega
    have hfirst : Explained (c.outermost? .tail) (·.1.GrownFrom c [])
        (c.Exceeds c.texts.getLast?.toList) := Among.outermost? h.grownFrom_self .tail
    have hends := ((h.holds hs).outermost? hne .tail).gives
    refine (hfirst.and_gives hends).stops_bind fun r hr => ?_
    obtain ⟨c₁, found⟩ := r
    obtain ⟨h₁, i, place, v, ts', rfl, hts, -⟩ := hr
    have hlast : c.texts.getLast?.toList = [v.render] := by
      rw [h.texts_eq, hts, Side.cons]
      simp
    rw [hlast]
    have hpush := GrownFrom.push h₁ .head v.render
    rw [List.nil_append] at hpush
    refine hpush.stops_bind fun r hr => (Among.outermost? hr .tail).stops_bind fun r hr => ?_
    obtain ⟨c₂, last⟩ := r
    cases last with
    | none => exact stops_pure
    | some last => exact (GrownFrom.eraseAt hr _ _).stops_bind fun r _ => stops_pure

end Chain

end UnrolledList
