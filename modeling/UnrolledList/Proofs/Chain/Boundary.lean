import UnrolledList.Proofs.Chain.Blocks

/-!
# The boundaries of compression

The rule is that the first and the last blocks are plain and the others compressed, as far
as that is worth it. Here it is said block by block (`UnrolledList.Block.Fits`): a block on
the outer side of a boundary **is plain**, and one inside **is judged**, which is to say that
it is compressed or that an attempt was made.

There are two exceptions inside. A block may be **open**, that is plain and marked to be
compressed again; which blocks may be so, `A` says by number and name. And it may be plain
without ever having been judged; which blocks may be so, `F` says by number. The second
exception exists only within an operation.

Restoring the boundaries (`UnrolledList.Chain.Each.enforce`) looks at the touched block and
at the first one on each side. That is enough because an operation that moves the boundaries
moves them by one: no other block can have crossed.

All this is about what an operation leaves behind if it gives a result
(`UnrolledList.Gives`), and it needs to know nothing about what the blocks hold.
-/

namespace UnrolledList

namespace Block

variable {b : Block}

/-! ### How a block is kept -/

/-- The block is plain and is not to be compressed again. -/
structure IsPlain (b : Block) : Prop where
  /-- It is not compressed. -/
  expanded : b.isCompressed = false
  /-- It is not marked. -/
  unmarked : b.pending = false

/-- The block is plain and marked to be compressed again. -/
structure IsOpen (b : Block) : Prop where
  /-- It is not compressed. -/
  expanded : b.isCompressed = false
  /-- It is marked. -/
  marked : b.pending = true

/-- The block is compressed, or an attempt was made. -/
structure IsJudged (b : Block) : Prop where
  /-- It is not marked. -/
  unmarked : b.pending = false
  /-- It is compressed or was tried. -/
  judged : b.isCompressed = true ∨ b.tried = true

/-- A compressed block is not marked. -/
def Calm (b : Block) : Prop :=
  b.isCompressed = true → b.pending = false

theorem IsPlain.calm (h : b.IsPlain) : b.Calm :=
  fun _ => h.unmarked

theorem IsJudged.calm (h : b.IsJudged) : b.Calm :=
  fun _ => h.unmarked

theorem IsOpen.calm (h : b.IsOpen) : b.Calm :=
  fun hc => absurd hc (by simp [h.expanded])

theorem isPlain_ofPacked (p : Packed) : (ofPacked p).IsPlain :=
  ⟨rfl, rfl⟩

/-! ### What is done to a block -/

theorem gives_inflate (b : Block) :
    Gives b.inflate fun b' => b'.isCompressed = false ∧ b'.pending = b.pending ∧
      (b.isCompressed = false → b' = b) := by
  obtain ⟨content, size, count, pending, tried⟩ := b
  cases content with
  | plain p => exact gives_ok.mpr ⟨rfl, rfl, fun _ => rfl⟩
  | compressed bytes =>
    refine Gives.bind_any fun p => ?_
    exact gives_pure.mpr ⟨rfl, rfl, fun h => by simp [isCompressed, Content.isPlain] at h⟩

theorem gives_keepPlain (b : Block) : Gives b.keepPlain IsPlain :=
  (gives_inflate b).bind fun _ hb => gives_pure.mpr ⟨hb.1, rfl⟩

/-- An attempt to compress a block judges it. -/
theorem Calm.compress (h : b.Calm) : Gives b.compress IsJudged := by
  unfold Block.compress
  split
  · next bytes hcontent =>
    have hcompressed : b.isCompressed = true := by simp [isCompressed, hcontent, Content.isPlain]
    exact gives_ok.mpr ⟨h hcompressed, .inl hcompressed⟩
  · dsimp only
    split
    · exact gives_error
    · exact gives_ok.mpr ⟨rfl, .inl rfl⟩
    · exact gives_ok.mpr ⟨rfl, .inr rfl⟩

theorem IsOpen.settle (h : b.IsOpen) : Gives b.settle IsJudged := by
  rw [Block.settle, if_pos h.marked]
  exact h.calm.compress

theorem settle_of_unmarked (h : b.pending = false) : b.settle = .ok b := by
  rw [Block.settle, if_neg (by simp [h])]

theorem openForUse_of_expanded (h : b.isCompressed = false) : b.openForUse = .ok b := by
  rw [Block.openForUse, if_neg (by simp [h])]

/-- A compressed block that is opened for use is marked. -/
theorem gives_openForUse (h : b.isCompressed = true) : Gives b.openForUse IsOpen := by
  rw [Block.openForUse, if_pos h]
  exact (gives_inflate b).bind fun _ hb => gives_pure.mpr ⟨hb.1, rfl⟩

/-- A change that works on the list of a block: it expands the block first and leaves its
mark alone, and a block that was plain is the same as before in all that matters here. -/
def Rewrites (f : Block → Except Fault Block) : Prop :=
  ∀ b, Gives (f b) fun b' => b'.isCompressed = false ∧ b'.pending = b.pending ∧
    (b.isCompressed = false → b'.tried = b.tried)

theorem rewrites_inflate : Rewrites Block.inflate :=
  fun b => (gives_inflate b).imp fun _ hb => ⟨hb.1, hb.2.1, fun h => by rw [hb.2.2 h]⟩

theorem rewrites_modify (f : Packed → Packed) : Rewrites (Block.modify f) := by
  rintro ⟨content, size, count, pending, tried⟩
  refine Gives.bind_any fun p => ?_
  dsimp only
  split
  · refine gives_pure.mpr ⟨rfl, rfl, fun h => ?_⟩
    have hplain : content.isPlain = true := by simpa [isCompressed] using h
    simp [hplain]
  · exact gives_error

/-- Setting the number of entries afterwards changes nothing of this. -/
theorem Rewrites.withCount {f : Block → Except Fault Block} (h : Rewrites f) (n : Block → Nat) :
    Rewrites fun b => do
      let b' ← f b
      return b'.withCount (n b) :=
  fun b => (h b).bind fun _ hb => gives_pure.mpr hb

/-- Nor does a subtraction beforehand. -/
theorem Rewrites.subtract {f : Block → Except Fault Block} (h : Rewrites f) (n : Nat) :
    Rewrites fun b => do
      let left ← subtract b.count n
      let b' ← f b
      return b'.withCount left :=
  fun b => Gives.bind_any fun _ => (h b).bind fun _ hb => gives_pure.mpr hb

theorem rewrites_pushFront (s : Bytes) : Rewrites (Block.pushFront s) :=
  (rewrites_modify fun p => p.pushFront s).withCount fun b => b.count + 1

theorem rewrites_pushBack (s : Bytes) : Rewrites (Block.pushBack s) :=
  (rewrites_modify fun p => p.push s).withCount fun b => b.count + 1

theorem Rewrites.isPlain {f : Block → Except Fault Block} (h : Rewrites f) (hb : b.IsPlain) :
    Gives (f b) IsPlain :=
  (h b).imp fun _ hb' => ⟨hb'.1, hb'.2.1.trans hb.unmarked⟩

theorem isPlain_singleton (s : Bytes) : Gives (singleton s) IsPlain :=
  (rewrites_pushBack s).isPlain (isPlain_ofPacked _)

/-! ### Where a block belongs -/

/-- Block number `i` of `n` is to be plain. -/
def Outside (depth n i : Nat) : Prop :=
  depth = 0 ∨ Chain.IsOuter depth n i

/-- With few blocks all of them lie on the outer side. -/
theorem outside_of_few {depth n i : Nat} (h : depth = 0 ∨ n < 2 * depth) : Outside depth n i := by
  unfold Outside Chain.IsOuter
  omega

/-- Block number `i` of `n` is kept as the rule asks, or is an exception: `A` if it may be
open, and `F` if it may be plain without having been judged. -/
structure Fits (depth n : Nat) (A F : Prop) (i : Nat) (b : Block) : Prop where
  /-- On the outer side it is plain. -/
  outer : Outside depth n i → b.IsPlain
  /-- Inside it is judged, or open or plain by exception. -/
  inner : ¬ Outside depth n i → b.IsJudged ∨ (A ∧ b.IsOpen) ∨ (F ∧ b.IsPlain)

namespace Fits

variable {depth n i : Nat} {A A' F F' : Prop}

theorem calm (h : Fits depth n A F i b) : b.Calm := by
  by_cases hi : Outside depth n i
  · exact (h.outer hi).calm
  · rcases h.inner hi with hb | ⟨-, hb⟩ | ⟨-, hb⟩
    · exact hb.calm
    · exact hb.calm
    · exact hb.calm

theorem imp (h : Fits depth n A F i b) (hA : A → A') (hF : F → F') : Fits depth n A' F' i b :=
  ⟨h.outer, fun hi => (h.inner hi).imp_right (.imp (.imp_left hA) (.imp_left hF))⟩

theorem of_isPlain (h : b.IsPlain) (hF : F) : Fits depth n A F i b :=
  ⟨fun _ => h, fun _ => .inr (.inr ⟨hF, h⟩)⟩

/-- A block that is marked lies inside, and is an exception. -/
theorem isOpen (h : Fits depth n A F i b) (hb : b.pending = true) :
    ¬ Outside depth n i ∧ A ∧ b.IsOpen := by
  have hinside : ¬ Outside depth n i := fun hi => by simp [(h.outer hi).unmarked] at hb
  refine ⟨hinside, ?_⟩
  rcases h.inner hinside with hj | ho | ⟨-, hp⟩
  · simp [hj.unmarked] at hb
  · exact ho
  · simp [hp.unmarked] at hb

/-- A block that is no exception is not marked. -/
theorem unmarked (h : Fits depth n A F i b) (hA : ¬ A) : b.pending = false := by
  rcases hp : b.pending with _ | _
  · rfl
  · exact absurd (h.isOpen hp).2.1 hA

/-- Opening a block for use makes it an exception at most, and plain. -/
theorem openForUse (h : Fits depth n A F i b) (hA : A → A') (hi : A') :
    Gives b.openForUse fun b' => Fits depth n A' F i b' ∧ b'.isCompressed = false := by
  rcases hc : b.isCompressed with _ | _
  · rw [openForUse_of_expanded hc]
    exact gives_ok.mpr ⟨h.imp hA id, hc⟩
  · refine (gives_openForUse hc).imp fun b' hb' => ⟨⟨fun ho => ?_, fun _ => ?_⟩, hb'.expanded⟩
    · simp [(h.outer ho).expanded] at hc
    · exact .inr (.inl ⟨hi, hb'⟩)

/-- Settling a block ends its being open, and if it was open, then also its being unjudged. -/
theorem settle (h : Fits depth n A F i b) (hF : b.pending = false → F → F') :
    Gives b.settle (Fits depth n A' F' i) := by
  rcases hp : b.pending with _ | _
  · rw [settle_of_unmarked hp]
    refine gives_ok.mpr ⟨h.outer, fun hi => ?_⟩
    rcases h.inner hi with hb | ⟨-, hb⟩ | ⟨hf, hb⟩
    · exact .inl hb
    · simp [hb.marked] at hp
    · exact .inr (.inr ⟨hF hp hf, hb⟩)
  · obtain ⟨hinside, -, hopen⟩ := h.isOpen hp
    exact hopen.settle.imp fun b' hb' => ⟨fun hi => absurd hi hinside, fun _ => .inl hb'⟩

/-- A change of a plain block leaves it what it is. -/
theorem rewrite (h : Fits depth n A F i b) (hb : b.isCompressed = false)
    {f : Block → Except Fault Block} (hf : Rewrites f) :
    Gives (f b) fun b' => Fits depth n A F i b' ∧ b'.isCompressed = false := by
  refine (hf b).imp fun b' hb' => ?_
  obtain ⟨hexpanded, hpending, htried⟩ := hb'
  refine ⟨⟨fun hi => ⟨hexpanded, hpending.trans (h.outer hi).unmarked⟩, fun hi => ?_⟩, hexpanded⟩
  rcases h.inner hi with hj | ⟨hA, ho⟩ | ⟨hF, hp⟩
  · have hold : b.tried = true := hj.judged.resolve_left (by simp [hb])
    exact .inl ⟨hpending.trans hj.unmarked, .inr ((htried hb).trans hold)⟩
  · exact .inr (.inl ⟨hA, hexpanded, hpending.trans ho.marked⟩)
  · exact .inr (.inr ⟨hF, hexpanded, hpending.trans hp.unmarked⟩)

/-- A change of any block may leave it plain without its being judged. -/
theorem rewrite_any (h : Fits depth n A F i b) (hi : F') {f : Block → Except Fault Block}
    (hf : Rewrites f) : Gives (f b) (Fits depth n A F' i) := by
  rcases hc : b.isCompressed with _ | _
  · exact ((h.imp id fun _ => hi).rewrite hc hf).imp fun _ hb' => hb'.1
  · exact (hf b).imp fun b' hb' => of_isPlain ⟨hb'.1, hb'.2.1.trans (h.calm hc)⟩ hi

end Fits

end Block

namespace Chain

/-! ### Blocks by number -/

section Idxs

variable {depth n i : Nat} {t : Option Nat}

/-- The blocks that are expanded are those on the outer side. -/
theorem mem_outerIdxs (hdepth : depth ≠ 0) (hi : i < n) :
    i ∈ outerIdxs depth n ↔ Block.Outside depth n i := by
  simp only [outerIdxs, List.mem_append, List.mem_range, List.mem_map, Block.Outside, IsOuter]
  constructor
  · rintro (hlt | ⟨k, hk, rfl⟩)
    · exact .inr (.inl hlt)
    · exact .inr (.inr (by omega))
  · rintro (hzero | hlt | hge)
    · exact absurd hzero hdepth
    · exact .inl hlt
    · exact .inr ⟨n - 1 - i, by omega, by omega⟩

/-- The blocks that are compressed are the touched one and the first ones inside. -/
theorem mem_innerIdxs (hdepth : depth ≠ 0) :
    i ∈ innerIdxs depth n t ↔
      (t = some i ∨ i = depth ∨ i = n - 1 - depth) ∧ ¬ Block.Outside depth n i := by
  simp only [innerIdxs, List.mem_filter, List.mem_append, Option.mem_toList, List.mem_cons,
    List.not_mem_nil, or_false, decide_eq_true_eq, Block.Outside, hdepth, false_or]

end Idxs

/-- Each of the `n` blocks of the chain has the property of its number and its name. -/
structure Each (c : Chain) (depth n : Nat) (R : Nat → BlockId → Block → Prop) : Prop where
  /-- The chain has the depth. -/
  depth_eq : c.depth = depth
  /-- It has so many blocks. -/
  length_eq : c.length = n
  /-- The blocks have the properties. -/
  each : ∀ i (h : i < c.cells.size), R i c.cells[i].id c.cells[i].block

namespace Each

variable {c : Chain} {depth n i : Nat} {R R' : Nat → BlockId → Block → Prop} {S : Block → Prop}
  {A : Nat → BlockId → Prop} {F : Nat → Prop} {f : Block → Except Fault Block}

theorem imp (h : c.Each depth n R) (himp : ∀ i id b, i < n → R i id b → R' i id b) :
    c.Each depth n R' :=
  ⟨h.depth_eq, h.length_eq, fun i hi => himp i _ _ (h.length_eq ▸ hi) (h.each i hi)⟩

theorem withCount (h : c.Each depth n R) (count : Nat) : (c.withCount count).Each depth n R :=
  ⟨h.depth_eq, h.length_eq, h.each⟩

theorem touch (h : c.Each depth n R) : c.touch.Each depth n R :=
  ⟨h.depth_eq, h.length_eq, h.each⟩

theorem takeId (h : c.Each depth n R) : c.takeId.2.Each depth n R :=
  ⟨h.depth_eq, h.length_eq, h.each⟩

theorem withArena (h : c.Each depth n R) (arena : Arena) : (c.withArena arena).Each depth n R :=
  ⟨h.depth_eq, h.length_eq, h.each⟩

/-- A block that is read has its property. -/
theorem block (h : c.Each depth n R) (i : Nat) :
    Gives (c.block i) fun b => i < n ∧ ∃ id, R i id b := by
  intro b hb
  unfold Chain.block at hb
  split at hb
  · next cell hcell =>
    obtain ⟨hi, rfl⟩ := Array.getElem?_eq_some_iff.mp hcell
    obtain rfl := Except.ok.inj hb
    exact ⟨h.length_eq ▸ hi, _, h.each i hi⟩
  · contradiction

/-! ### Changing blocks -/

/-- A change of one block. -/
theorem modifyBlock (h : c.Each depth n R)
    (hf : ∀ id b, i < n → R i id b → Gives (f b) (R' i id))
    (hother : ∀ j id b, j ≠ i → R j id b → R' j id b) :
    Gives (c.modifyBlock i f) (·.Each depth n R') := by
  refine gives_modifyBlock fun hi => ?_
  refine (hf _ _ (h.length_eq ▸ hi) (h.each i hi)).imp fun b hb => ⟨h.depth_eq, ?_, fun j hj => ?_⟩
  · rw [← h.length_eq, Chain.length, Chain.length, Array.size_set]
  · simp only [Array.size_set] at hj
    simp only [Array.getElem_set]
    split
    · next heq =>
      subst heq
      exact hb
    · next hne => exact hother j _ _ (Ne.symm hne) (h.each j hj)

/-- The same change of several blocks. -/
theorem modifyBlocks {idxs : List Nat} (h : c.Each depth n R)
    (hf : ∀ i ∈ idxs, ∀ id b, i < n → R i id b → Gives (f b) S)
    (hagain : ∀ b, S b → Gives (f b) S) :
    Gives (c.modifyBlocks f idxs)
      (·.Each depth n fun i id b => if i ∈ idxs then S b else R i id b) := by
  induction idxs generalizing c R with
  | nil => exact gives_ok.mpr (h.imp fun i id b _ hb => by simpa using hb)
  | cons i idxs ih =>
    have hfirst : Gives (c.modifyBlock i f)
        (·.Each depth n fun j id b => if j = i then S b else R j id b) := by
      refine h.modifyBlock (fun id b hi hb => ?_) fun j id b hj hb => ?_
      · exact (hf i List.mem_cons_self id b hi hb).imp fun b' hb' => by rwa [if_pos rfl]
      · rwa [if_neg hj]
    refine hfirst.bind fun c₁ h₁ => ?_
    refine (ih h₁ fun j hj id b hlt hb => ?_).imp fun c₂ h₂ => h₂.imp fun j id b _ hb => ?_
    · split at hb
      · exact hagain b hb
      · exact hf j (List.mem_cons_of_mem i hj) id b hlt hb
    · by_cases hj : j ∈ idxs
      · rw [if_pos hj] at hb
        rwa [if_pos (List.mem_cons_of_mem i hj)]
      · rw [if_neg hj] at hb
        by_cases hji : j = i
        · rw [if_pos hji] at hb
          rwa [if_pos (hji ▸ List.mem_cons_self)]
        · rw [if_neg hji] at hb
          rwa [if_neg (by simp [hj, hji])]

/-! ### The boundaries -/

/-- **Restoring the boundaries** makes every block fit but those far from them. -/
theorem enforce {t : Option Nat} (h : c.Each depth n R) (hcalm : ∀ i id b, R i id b → b.Calm)
    (hfew : depth = 0 ∨ n < 2 * depth → ∀ i id b, i < n → R i id b → b.IsPlain)
    (hinner : ∀ i id b, i < n → ¬ Block.Outside depth n i → i ≠ depth → i ≠ n - 1 - depth →
      t ≠ some i → R i id b → b.IsJudged ∨ (A i id ∧ b.IsOpen) ∨ (F i ∧ b.IsPlain)) :
    Gives (c.enforce t) (·.Each depth n fun i id => Block.Fits depth n (A i id) (F i) i) := by
  have hdepth := h.depth_eq
  have hlength := h.length_eq
  unfold Chain.enforce
  dsimp only
  rw [hdepth, hlength]
  split
  · next hcond =>
    refine gives_ok.mpr (h.imp fun i id b hi hb => ⟨fun _ => ?_, fun hout => ?_⟩)
    · exact hfew hcond i id b hi hb
    · exact absurd (Block.outside_of_few hcond) hout
  · next hcond =>
    have houter : Gives (c.modifyBlocks Block.keepPlain (outerIdxs depth n)) (·.Each depth n
        fun i id b => if i ∈ outerIdxs depth n then b.IsPlain else R i id b) :=
      h.modifyBlocks (fun _ _ _ b _ _ => b.gives_keepPlain) fun b _ => b.gives_keepPlain
    refine houter.bind fun c₁ h₁ => ?_
    refine (h₁.modifyBlocks (S := Block.IsJudged) (fun i _ id b _ hb => ?_)
      fun b hb => hb.calm.compress).imp fun c₂ h₂ => h₂.imp fun i id b hi hb => ?_
    · have hb' : b.Calm := by
        split at hb
        · exact hb.calm
        · exact hcalm i id b hb
      exact hb'.compress
    · have hpos : depth ≠ 0 := fun hzero => hcond (.inl hzero)
      have houterIdxs := mem_outerIdxs hpos hi
      have hinnerIdxs := mem_innerIdxs (n := n) (t := t) (i := i) hpos
      by_cases hin : i ∈ innerIdxs depth n t
      · rw [if_pos hin] at hb
        exact ⟨fun hout => absurd hout (hinnerIdxs.mp hin).2, fun _ => .inl hb⟩
      · rw [if_neg hin] at hb
        refine ⟨fun hout => ?_, fun hout => ?_⟩
        · rwa [if_pos (houterIdxs.mpr hout)] at hb
        · rw [if_neg (mt houterIdxs.mp hout)] at hb
          -- a block that was not compressed now is neither touched nor at a boundary
          have hfar := fun hnear => hin (hinnerIdxs.mpr ⟨hnear, hout⟩)
          exact hinner i id b hi hout (fun heq => hfar (.inr (.inl heq)))
            (fun heq => hfar (.inr (.inr heq))) (fun heq => hfar (.inl heq)) hb

end Each

end Chain

end UnrolledList
