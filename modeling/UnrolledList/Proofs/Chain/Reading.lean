import UnrolledList.Proofs.Chain.Faithful
import UnrolledList.Proofs.Chain.Lasting
import UnrolledList.Proofs.Chain.Lookup

/-!
# Reading leaves no trace

An element is read by opening its block and closing it again. If the block is compressed, it is
expanded on the way, it loses its record of having been tried, and then it is compressed anew. All
the same **the list afterwards is the list before** (`UnrolledList.Session.run_reads`), and not
only as far as its elements go: every block is kept as it was, with the same flags and to the byte.

Three things come together here. The bytes of a compressed block are what the compressor makes of
its packed list, and it was worth it at the size that is recorded
(`UnrolledList.Block.Keeps.earned`), so the attempt comes to the same end again. A compressed block
is sealed (`UnrolledList.Block.Sealed`), so the flags that the attempt leaves are those that were
there. And a plain block is not touched, whether or not it would be worth compressing, unless it is
marked: a block that an earlier lookup has left open is closed by the next element that is read in
it, and that one does leave a trace.
-/

namespace UnrolledList

/-- **A block that is opened and closed again is the same block.** -/
theorem Block.Keeps.settle_openForUse {b : Block} {p : Packed} (h : b.Keeps p)
    (hsealed : b.Sealed) (hpending : b.pending = false) :
    ∃ b', b.openForUse = .ok b' ∧ b'.settle = .ok b := by
  rcases hc : b.isCompressed with _ | _
  · exact ⟨b, openForUse_of_expanded hc, settle_of_unmarked hpending⟩
  · obtain ⟨htried, -⟩ := hsealed hc
    refine ⟨{ b.opened p with pending := true }, ?_, ?_⟩
    · rw [Block.openForUse, if_pos hc, inflate_eq h.packed_eq]
      rfl
    · obtain ⟨content, size, count, pending, tried⟩ := b
      cases content with
      | plain q => contradiction
      | compressed bytes =>
        obtain rfl : size = p.size := h.size_eq
        simp only at htried hpending
        subst htried hpending
        rw [Block.settle, if_pos rfl]
        simp only [Block.opened, Block.compress, h.earned bytes rfl]

namespace Chain

variable {c : Chain} {l : Layout} {pre post : List Leaf} {x : Leaf}
  {f g : Block → Except Fault Block} {i : Nat}

/-- What is undone in a block is undone in the list. -/
theorem modifyBlock_undo {b b' : Block} (hb : c.block i = .ok b) (hf : f b = .ok b')
    (hg : g b' = .ok b) : ∃ c', c.modifyBlock i f = .ok c' ∧ c'.modifyBlock i g = .ok c := by
  obtain ⟨cell, hcell, rfl⟩ : ∃ cell, c.cells[i]? = some cell ∧ cell.block = b := by
    unfold Chain.block at hb
    split at hb
    · next cell hcell => exact ⟨cell, hcell, Except.ok.inj hb⟩
    · contradiction
  obtain ⟨hi, rfl⟩ := Array.getElem?_eq_some_iff.mp hcell
  have hi' : i < (c.cells.set i ⟨c.cells[i].id, b'⟩ hi).size := by rwa [Array.size_set]
  refine ⟨{ c with cells := c.cells.set i ⟨c.cells[i].id, b'⟩ hi }, ?_, ?_⟩
  · rw [modifyBlock_eq c hi, hf]
    rfl
  · rw [modifyBlock_eq _ hi']
    have hsame : c.cells.set i ⟨c.cells[i].id, c.cells[i].block⟩ hi = c.cells :=
      Array.set_getElem_self hi
    simp [hg, Except.map, hsame]

/-- **An element is read without a trace** by either of its indexes. -/
theorem Has.get?_entry (h : c.Has l) (hs : l.Sound) (hl : l.leaves = pre ++ x :: post) {m : Nat}
    {v : Value} (hv : x.list.values[m]? = some v) {index : Int}
    (hi : Packed.idxOf? l.count index = some (Layout.total pre + m)) {b : Block}
    (hb : c.block pre.length = .ok b) (hsealed : b.Sealed) (hpending : b.pending = false) :
    c.get? index = .ok (c, some v) := by
  obtain ⟨b₁, hb₁, hkeeps, -⟩ := h.block_eq hl
  obtain rfl : b = b₁ := Except.ok.inj (hb.symm.trans hb₁)
  obtain ⟨b', hopened, hsettled⟩ := hkeeps.settle_openForUse hsealed hpending
  obtain ⟨c', hopen, hsettle⟩ := modifyBlock_undo hb hopened hsettled
  have hhas := h.openForUse (show pre.length < l.leaves.length by simp [hl])
  rw [Chain.openForUse, hopen] at hhas
  rw [Chain.get?, h.find?_entry hs hl hv hopen hhas hi, ok_bind]
  dsimp only
  rw [Chain.settle, hsettle]
  rfl

/-- **Every index can be read.** -/
structure Reads (c : Chain) : Prop where
  /-- Beyond the ends there is nothing to read. -/
  outside : ∀ i : Int, i < -c.elements.length ∨ (c.elements.length : Int) ≤ i →
    c.get? i = .ok (c, none)
  /-- An element is read by either of its indexes. Unless its block was left open, the list
  afterwards is the one before. -/
  inside : ∀ k v, c.elements[k]? = some v → ∃ j m b, c.IsEntry k j m b ∧
    (b.pending = false → c.get? k = .ok (c, some v) ∧
      c.get? ((k : Int) - c.elements.length) = .ok (c, some v))

theorem Has.reads (h : c.Has l) (hs : l.Sound) (hall : c.All Block.Sealed) : c.Reads := by
  have hcount : c.elements.length = l.count := by rw [h.elements_eq, hs.length_elements]
  constructor
  · intro i hi
    rw [hcount] at hi
    rw [Chain.get?, h.find?_eq_none (Packed.idxOf?_eq_none hi)]
    rfl
  · intro k v hv
    have hk : k < l.count := hcount ▸ (List.getElem?_eq_some_iff.mp hv).1
    obtain ⟨pre, x, post, m, -, hl, rfl, hm, -⟩ := h.locate?_eq hs (Packed.idxOf?_natCast hk)
    obtain ⟨b, hentry, -⟩ := h.isEntry hl hm
    have hsealed : b.Sealed := by
      obtain ⟨depth, n, heach⟩ := hall
      obtain ⟨-, -, hb⟩ := heach.block _ b hentry.block_eq
      exact hb
    rw [h.elements_eq, hs.getElem?_elements hl hm] at hv
    refine ⟨pre.length, m, b, hentry, fun hpending => ?_⟩
    rw [hcount]
    exact ⟨h.get?_entry hs hl hv (Packed.idxOf?_natCast hk) hentry.block_eq hsealed hpending,
      h.get?_entry hs hl hv (Packed.idxOf?_sub hk) hentry.block_eq hsealed hpending⟩

end Chain

namespace Session

/-- **Reading an element leaves the list as it was**, in every list that a run can lead to and
under whatever options. -/
theorem run_reads (setting depth : Int) (as : List Action) :
    Ensures ((ofOptions setting depth).run as) (·.1.chain.Reads) := by
  have hsealed := run_all Block.lasting_sealed setting depth as
  refine (((follows_ofOptions setting depth).run as).and_gives hsealed).imp fun r hr => ?_
  obtain ⟨⟨⟨l, hl, hs, -, -⟩, -⟩, hall⟩ := hr
  exact hl.reads hs hall

/-- So it is in the third of the four blocks, which is compressed and not open. -/
theorem run_reads_quartered :
    ∃ r, (ofOptions 1 1).run quartered = .ok r ∧
      r.1.chain.blocks.map Block.isCompressed = [false, true, true, false] ∧
      r.1.chain.get? (-2) = .ok (r.1.chain, some (.text (List.replicate 50 99))) := by
  have hrun : ∃ r, (ofOptions 1 1).run quartered = .ok r ∧
      r.1.chain.blocks.map Block.isCompressed = [false, true, true, false] ∧
      r.1.chain.blocks.map Block.count = [1, 1, 1, 1] ∧
      (∀ b ∈ r.1.chain.blocks, b.pending = false) ∧ r.1.chain.elements.length = 4 ∧
      r.1.chain.elements[2]? = some (.text (List.replicate 50 99)) :=
    exists_eq_ok (by decide +kernel)
  obtain ⟨r, hr, hcompressed, hcounts, hpending, hlength, helement⟩ := hrun
  have hreads := run_reads 1 1 quartered
  rw [hr] at hreads
  obtain ⟨j, m, b, hentry, hread⟩ := hreads.inside 2 _ helement
  refine ⟨r, hr, hcompressed, ?_⟩
  have hb : b.pending = false := by
    have hblock := hentry.block_eq
    unfold Chain.block at hblock
    split at hblock
    · next cell hcell =>
      obtain rfl := Except.ok.inj hblock
      obtain ⟨hj, rfl⟩ := Array.getElem?_eq_some_iff.mp hcell
      exact hpending _ (List.mem_map_of_mem (Array.getElem_mem_toList hj))
    · contradiction
  have hback := (hread hb).2
  rw [hlength] at hback
  exact hback

end Session

end UnrolledList
