import UnrolledList.Block
import UnrolledList.Proofs.Limits
import UnrolledList.Proofs.Lzf.RoundTrip
import UnrolledList.Proofs.Packed.Contents

/-!
# What a block keeps

A block **keeps** a packed list (`UnrolledList.Block.Keeps`) if that is what comes of
opening it and the size that stands beside it is right, also while the block is
compressed. If it is compressed, then to what the compressor makes of the bytes of that
list, and it was worth it. Opening, settling and compressing a block change how the list
is kept and not which one it is. The only thing that they rest on is that a compressed
string expands to what it came from (`UnrolledList.Lzf.inflate_compress`).

A block that keeps a list can always be opened. What can fail is compressing it, and
changing it into a list whose size no header can tell; both are limits.
-/

namespace UnrolledList

namespace Block

variable {b : Block} {p : Packed}

/-- The packed list of the block is `p`. -/
structure Keeps (b : Block) (p : Packed) : Prop where
  /-- Opening the block gives the list. -/
  packed_eq : b.packed = .ok p
  /-- The size that is recorded is that of the list. -/
  size_eq : b.size = p.size
  /-- The list is one that a reader accepts. -/
  wellFormed : p.WellFormed
  /-- Compressed bytes are those of the list, and there was enough to gain. -/
  earned : ∀ bytes, b.content = .compressed bytes → worthwhile? p p.size = .ok (some bytes)

theorem keeps_plain {size count : Nat} {pending tried : Bool} (hsize : size = p.size)
    (hp : p.WellFormed) : Keeps ⟨.plain p, size, count, pending, tried⟩ p :=
  ⟨rfl, hsize, hp, nofun⟩

theorem keeps_ofPacked (hp : p.WellFormed) : (ofPacked p).Keeps p :=
  keeps_plain rfl hp

/-- The number of entries and the flags have no part in what is kept. -/
theorem Keeps.of_content {b' : Block} (h : b.Keeps p) (hcontent : b'.content = b.content)
    (hsize : b'.size = b.size) : b'.Keeps p := by
  refine ⟨?_, hsize.trans h.size_eq, h.wellFormed, hcontent ▸ h.earned⟩
  rw [← h.packed_eq, packed, packed, hcontent, hsize]

theorem values_of_keeps (h : b.Keeps p) : b.values = p.values := by
  rw [values, h.packed_eq]

/-! ### Opening -/

/-- The block with its list in the open. -/
def opened (b : Block) (p : Packed) : Block :=
  { b with content := .plain p, tried := b.tried && b.content.isPlain }

theorem inflate_eq (h : b.packed = .ok p) : b.inflate = .ok (b.opened p) := by
  obtain ⟨content, size, count, pending, tried⟩ := b
  cases content with
  | plain q =>
    obtain rfl : q = p := Except.ok.inj h
    simp [inflate, opened, Content.isPlain]
  | compressed bytes =>
    replace h : (Content.compressed bytes).unpack size = .ok p := h
    simp [inflate, opened, Content.isPlain, h, bind, Except.bind, pure, Except.pure]

theorem Keeps.opened (h : b.Keeps p) : (b.opened p).Keeps p :=
  keeps_plain h.size_eq h.wellFormed

theorem Keeps.inflate (h : b.Keeps p) :
    Ensures b.inflate fun b' => b'.Keeps p ∧ b'.count = b.count := by
  rw [inflate_eq h.packed_eq]
  exact ⟨h.opened, rfl⟩

theorem Keeps.openForUse (h : b.Keeps p) :
    Ensures b.openForUse fun b' => b'.Keeps p ∧ b'.count = b.count := by
  unfold Block.openForUse
  split
  · exact h.inflate.bind fun b' hb' => ⟨hb'.1.of_content rfl rfl, hb'.2⟩
  · exact ⟨h, rfl⟩

theorem Keeps.keepPlain (h : b.Keeps p) :
    Ensures b.keepPlain fun b' => b'.Keeps p ∧ b'.count = b.count :=
  h.inflate.bind fun _ hb' => ⟨hb'.1.of_content rfl rfl, hb'.2⟩

/-! ### Compressing -/

/-- **When a list is compressed**: to what the compressor makes of its bytes, if it is large
enough and there is enough to gain. -/
theorem of_worthwhile? {size : Nat} {bytes : Bytes} (h : worthwhile? p size = .ok (some bytes)) :
    minCompressSize ≤ size ∧ bytes ≠ [] ∧ bytes.length + minGain < size ∧
      Lzf.compress? p.toBytes = .ok (some bytes) := by
  unfold worthwhile? at h
  split at h
  · simp at h
  · next hlarge =>
    split at h
    · contradiction
    · simp at h
    · next bytes' hcompress =>
      split at h
      · next hgain =>
        obtain rfl : bytes' = bytes := by simpa using h
        simp only [Bool.and_eq_true, Bool.not_eq_true', List.isEmpty_eq_false_iff,
          decide_eq_true_eq] at hgain
        exact ⟨Nat.le_of_not_lt hlarge, hgain.1, hgain.2, hcompress⟩
      · simp at h

/-- **What is compressed expands to the bytes of the list.** -/
theorem inflate_of_worthwhile? {bytes : Bytes} (hp : p.WellFormed)
    (h : worthwhile? p p.size = .ok (some bytes)) :
    Lzf.inflate p.size bytes = .ok (.ok p.toBytes) := by
  obtain ⟨-, -, -, hcompress⟩ := of_worthwhile? h
  have hlen : p.toBytes.length ≤ Lzf.maxOutput := by
    have hlt := hp.size_lt
    rw [Packed.length_toBytes]
    simp only [Packed.sizeLimit, Lzf.maxOutput] at *
    omega
  have hinflate := Lzf.inflate_compress hcompress hlen
  rwa [Packed.length_toBytes] at hinflate

/-- So it can be opened again. -/
theorem unpack_of_worthwhile? {bytes : Bytes} (hp : p.WellFormed)
    (h : worthwhile? p p.size = .ok (some bytes)) :
    (Content.compressed bytes).unpack p.size = .ok p := by
  simp only [Content.unpack, inflate_of_worthwhile? hp h, Packed.ofBytes_toBytes hp]

/-- The block of what is compressed. -/
theorem keeps_compressed {size count : Nat} {pending tried : Bool} {bytes : Bytes}
    (hsize : size = p.size) (hp : p.WellFormed) (h : worthwhile? p size = .ok (some bytes)) :
    Keeps ⟨.compressed bytes, size, count, pending, tried⟩ p := by
  subst hsize
  refine ⟨unpack_of_worthwhile? hp h, rfl, hp, fun bytes' hbytes => ?_⟩
  obtain rfl := Content.compressed.inj hbytes
  exact h

theorem eq_outputOverrun_of_worthwhile? {size : Nat} {f : Fault}
    (h : worthwhile? p size = .error f) : f = .outputOverrun := by
  unfold worthwhile? at h
  split at h
  · simp at h
  · split at h
    · next hcompress =>
      obtain rfl := Except.error.inj h
      exact Lzf.eq_outputOverrun_of_compress? hcompress
    · simp at h
    · simp at h

/-- Nothing stops a compression but the compressor. -/
theorem eq_outputOverrun_of_compress {f : Fault} (h : b.compress = .error f) :
    f = .outputOverrun := by
  unfold Block.compress at h
  split at h
  · contradiction
  · dsimp only at h
    split at h
    · next hfault =>
      obtain rfl := Except.error.inj h
      exact eq_outputOverrun_of_worthwhile? hfault
    · contradiction
    · contradiction

theorem Keeps.compress (h : b.Keeps p) :
    Ensures b.compress fun b' => b'.Keeps p ∧ b'.count = b.count := by
  obtain ⟨content, size, count, pending, tried⟩ := b
  cases content with
  | compressed bytes => exact ⟨h, rfl⟩
  | plain q =>
    obtain rfl : q = p := Except.ok.inj h.packed_eq
    have hsize : size = q.size := h.size_eq
    simp only [Block.compress]
    split
    · next hfault =>
      rw [eq_outputOverrun_of_worthwhile? hfault]
      trivial
    · next bytes hbytes =>
      exact ⟨keeps_compressed hsize h.wellFormed hbytes, rfl⟩
    · exact ⟨keeps_plain hsize h.wellFormed, rfl⟩

theorem Keeps.settle (h : b.Keeps p) :
    Ensures b.settle fun b' => b'.Keeps p ∧ b'.count = b.count := by
  unfold Block.settle
  split
  · exact h.compress
  · exact ⟨h, rfl⟩

/-! ### Changing -/

/-- A change takes effect if a header can tell the new size. -/
theorem modify_eq (h : b.packed = .ok p) (f : Packed → Packed) :
    b.modify f =
      if (f p).size < Packed.sizeLimit then
        .ok { b with content := .plain (f p), size := (f p).size,
                     tried := b.tried && b.content.isPlain }
      else .error .overflow := by
  obtain ⟨content, size, count, pending, tried⟩ := b
  replace h : content.unpack size = .ok p := h
  simp only [modify, h]
  simp only [bind, Except.bind]
  split <;> rfl

/-- A change that keeps a list well formed within the limit changes what the block keeps. -/
theorem Keeps.modify (h : b.Keeps p) {f : Packed → Packed}
    (hf : (f p).size < Packed.sizeLimit → (f p).WellFormed) :
    Ensures (b.modify f) fun b' => b'.Keeps (f p) ∧ b'.count = b.count := by
  rw [modify_eq h.packed_eq]
  split
  · next hsize => exact ⟨keeps_plain rfl (hf hsize), rfl⟩
  · trivial

theorem Keeps.withCount (h : b.Keeps p) (n : Nat) : (b.withCount n).Keeps p :=
  h.of_content rfl rfl

theorem Keeps.pushFront (h : b.Keeps p) (s : Bytes) :
    Ensures (b.pushFront s) fun b' => b'.Keeps (p.pushFront s) ∧ b'.count = b.count + 1 :=
  (h.modify h.wellFormed.pushFront).bind fun _ hb' => ⟨hb'.1.withCount _, rfl⟩

theorem Keeps.pushBack (h : b.Keeps p) (s : Bytes) :
    Ensures (b.pushBack s) fun b' => b'.Keeps (p.push s) ∧ b'.count = b.count + 1 :=
  (h.modify h.wellFormed.push).bind fun _ hb' => ⟨hb'.1.withCount _, rfl⟩

theorem keeps_singleton (s : Bytes) :
    Ensures (singleton s) fun b => b.Keeps (Packed.empty.push s) ∧ b.count = 1 :=
  (keeps_ofPacked Packed.wellFormed_empty).pushBack s

end Block

end UnrolledList
