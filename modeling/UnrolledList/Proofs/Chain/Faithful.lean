import UnrolledList.Proofs.Chain.Freshness

/-!
# Compressed blocks are faithful

A compressed block has its bytes and, beside them, a size. The size is used twice: it decides
whether the block is worth compressing, and it is how much the bytes are expanded to. So it has
to be right at every moment, also while an operation is halfway through the blocks.

It is, because a block is compressed in one place only (`UnrolledList.Block.compress`), and
what is known of the block there stays true until the block is opened again: the bytes are what
the compressor makes of the packed list whose size is recorded
(`UnrolledList.Block.Keeps.earned`). Every chain that has a layout consists of such blocks, and
after every run, and inside of every walk, a chain has a layout. Then

* each compressed block is **faithful** (`UnrolledList.Block.Faithful`): it was worth it, and it
  expands to exactly as many bytes as it says, which are accepted as a packed list of as many
  entries as it says;
* no block is found corrupt, and that goes for the blocks which an operation meets on its way as
  well. This is the part of `UnrolledList.Ensures` that excludes
  `UnrolledList.Fault.corruptBlock`.
-/

namespace UnrolledList

namespace Block

/-- What there is to know of a block with compressed bytes. -/
structure Faithful (b : Block) (bytes : Bytes) : Prop where
  /-- The block was large enough. -/
  large : minCompressSize ≤ b.size
  /-- There are bytes. -/
  ne_nil : bytes ≠ []
  /-- There was enough to gain. -/
  gains : bytes.length + minGain < b.size
  /-- The bytes expand to as many as the block says, from which the compressor makes the same
  bytes again, and which are accepted as a packed list of as many entries as the block says. -/
  expands : ∃ blob p, Lzf.inflate b.size bytes = .ok (.ok blob) ∧ blob.length = b.size ∧
    Lzf.compress? blob = .ok (some bytes) ∧ Packed.ofBytes blob = .ok p ∧ p.length = b.count

variable {b : Block} {p : Packed}

/-- **What a block was compressed to it has earned.** -/
theorem Keeps.faithful (h : b.Keeps p) (hcount : b.count = p.entries.size) {bytes : Bytes}
    (hbytes : b.content = .compressed bytes) : b.Faithful bytes := by
  have hearned := h.earned bytes hbytes
  obtain ⟨hlarge, hne, hgains, hcompress⟩ := of_worthwhile? hearned
  have hinflate := inflate_of_worthwhile? h.wellFormed hearned
  rw [← h.size_eq] at hlarge hgains hinflate
  refine ⟨hlarge, hne, hgains, p.toBytes, p, hinflate, ?_, hcompress, ?_, ?_⟩
  · rw [Packed.length_toBytes, h.size_eq]
  · exact Packed.ofBytes_toBytes h.wellFormed
  · rw [Packed.length_eq_iff.mpr h.wellFormed.counted, hcount]

end Block

namespace Chain

/-- Every block can be opened, and the compressed ones are faithful. -/
structure Faithful (c : Chain) : Prop where
  /-- No block is corrupt. -/
  opens : ∀ b ∈ c.blocks, ∃ b', b.inflate = .ok b'
  /-- Compressed blocks are faithful. -/
  faithful : ∀ b ∈ c.blocks, ∀ bytes, b.content = .compressed bytes → b.Faithful bytes

variable {c : Chain} {l : Layout}

theorem Has.faithful (h : c.Has l) (hs : l.Sound) : c.Faithful := by
  constructor
  · intro b hb
    obtain ⟨x, -, hkeeps, -⟩ := h.exists_leaf_of_mem hb
    exact ⟨_, Block.inflate_eq hkeeps.packed_eq⟩
  · intro b hb bytes hbytes
    obtain ⟨x, hx, hkeeps, hcount⟩ := h.exists_leaf_of_mem hb
    exact hkeeps.faithful (hcount.trans (hs.counted x hx)) hbytes

end Chain

namespace Session

/-- **Compressed blocks are faithful** after every run, whatever fill the list was given and
however its depth was changed on the way; and they are so in the midst of every walk and between
any further calls. No run meets a block that is corrupt, and what the blocks expand to is the
sequence of the ledger. -/
theorem run_faithful (setting depth : Int) (as : List Action) :
    Ensures ((ofOptions setting depth).run as) fun s => s.1.chain.Faithful ∧
      s.1.chain.texts = (Ledger.run as {}).1.texts ∧
      ∀ calls, Call.totalChanges calls < 2 ^ 64 →
        EnsuresUnlessStale (Client.run calls { chain := s.1.chain }) (·.1.chain.Faithful) := by
  refine ((follows_ofOptions setting depth).run as).imp fun s hs => ?_
  obtain ⟨⟨l, hl, hsound, htexts, -⟩, -⟩ := hs
  refine ⟨hl.faithful hsound, hl.texts_eq.trans htexts, fun calls hfew => ?_⟩
  -- a client that begins here has no walk and no handle yet, so there is nothing to know of them
  have hk : Client.Knows { chain := s.1.chain } l 0 :=
    ⟨hl, hsound, fun o hnone => by contradiction, fun h hnone => by contradiction⟩
  refine (hk.run calls (by omega)).imp fun r hr => ?_
  obtain ⟨l', hk'⟩ := hr
  exact hk'.has.faithful hk'.sound

/-- Four blocks of one entry each with a depth of one. The two in the middle are compressed. -/
def quartered : List Action :=
  [.push .tail [97], .push .tail (List.replicate 40 98), .push .tail (List.replicate 50 99),
    .push .tail [100]]

/-- A walk that has met the first two elements, so that the block of the second one is open. -/
def midway : List Call :=
  [.beginWalk .head none, .next, .next]

/-- Before the walk two blocks are compressed, and in the midst of it one is. -/
theorem run_faithful_midway :
    ∃ s r, (ofOptions 1 1).run quartered = .ok s ∧
      Client.run midway { chain := s.1.chain } = .ok r ∧
      s.1.chain.blocks.map Block.isCompressed = [false, true, true, false] ∧
      r.1.chain.blocks.map Block.isCompressed = [false, false, true, false] ∧
      s.1.chain.Faithful ∧ r.1.chain.Faithful := by
  have hrun : ∃ s, (ofOptions 1 1).run quartered = .ok s ∧
      s.1.chain.blocks.map Block.isCompressed = [false, true, true, false] ∧
      ((Client.run midway { chain := s.1.chain }).map fun r =>
        r.1.chain.blocks.map Block.isCompressed) = .ok [false, false, true, false] :=
    exists_eq_ok (by decide +kernel)
  obtain ⟨s, hs, hblocks, hwalk⟩ := hrun
  have hfaithful := run_faithful 1 1 quartered
  rw [hs] at hfaithful
  obtain ⟨hbefore, -, hcalls⟩ := hfaithful
  have hmidway := hcalls midway (by decide)
  obtain ⟨r, hr, hblocks'⟩ := exists_of_map_eq_ok hwalk
  rw [hr] at hmidway
  exact ⟨s, r, hs, hr, hblocks, hblocks', hbefore, hmidway.resolve_left nofun⟩

end Session

end UnrolledList
