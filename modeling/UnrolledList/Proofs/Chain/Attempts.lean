import UnrolledList.Proofs.Chain.Compression

/-!
# What an attempt to compress speaks of

A block inside the boundaries that is plain was tried, and compression was not worth it
(`UnrolledList.Chain.KeepsBoundaries`). It was not worth it **when it was tried**. Whether it
still would not be is another matter, and a block for which it would be is *overlooked*
(`UnrolledList.Chain.Overlooks`).

Nearly all operations overlook nothing: they leave a block that they changed by attempting to
compress it anew (`UnrolledList.Chain.recompress`). Two do not. An insertion beside an element
and an erasure of a range leave their block by settling it (`UnrolledList.Chain.settle`), which
compresses a block only if it was opened for the access, and a block that was plain before is
not. Whatever it holds by then, it stays plain (`UnrolledList.Session.run_outgrown`).

These two can be anywhere in a run. What is shown is that **nothing else overlooks a block**:
from wherever they have led, other actions overlook no block that was not overlooked before
(`UnrolledList.Session.run_overlooks`).

## Exceptions

A block is followed as in `UnrolledList.Proofs.Chain.Settling`, with exceptions of two kinds.
`E` says by name which blocks were overlooked to begin with. `F` says by number which blocks an
operation has changed and not yet left; every way of restoring the boundaries removes some of
these, and it is the same ones that may be plain without having been judged.
-/

namespace UnrolledList

namespace Block

variable {b : Block}

/-- **An attempt is given up** if the list is small, if the compressor gives up on it, or if the
compressed bytes are not fewer by enough. -/
def GivenUp (p : Packed) (size : Nat) : Prop :=
  size < minCompressSize ∨ Lzf.compress? p.toBytes = .ok none ∨
    ∃ bytes, Lzf.compress? p.toBytes = .ok (some bytes) ∧
      (bytes = [] ∨ size ≤ bytes.length + minGain)

theorem worthwhile?_eq_none_iff {p : Packed} {size : Nat} :
    worthwhile? p size = .ok none ↔ GivenUp p size := by
  unfold worthwhile? GivenUp
  by_cases hsize : size < minCompressSize
  · simp [hsize]
  · rw [if_neg hsize]
    rcases hcompress : Lzf.compress? p.toBytes with f | _ | bytes
    · simp [hsize]
    · simp
    · by_cases hempty : bytes = []
      · simp [hempty]
      · simp [hsize, hempty]

/-- An attempt to compress the block as it is now would be given up. -/
def Declines (b : Block) : Prop :=
  ∃ p, b.packed = .ok p ∧ GivenUp p b.size

/-- There is nothing to gain from an attempt now: the block is compressed or is to be, or the
attempt would be given up. -/
def Spent (b : Block) : Prop :=
  b.isCompressed = true ∨ b.pending = true ∨ b.Declines

/-- **An attempt spends a block**, whatever it was. -/
theorem gives_compress_spent (b : Block) : Gives b.compress Spent := by
  unfold Block.compress
  split
  · next bytes hcontent =>
    exact gives_ok.mpr (.inl (by simp [isCompressed, hcontent, Content.isPlain]))
  · next p hcontent =>
    dsimp only
    split
    · exact gives_error
    · exact gives_ok.mpr (.inl rfl)
    · next hnone =>
      refine gives_ok.mpr (.inr (.inr ⟨p, ?_, worthwhile?_eq_none_iff.mp hnone⟩))
      simp [packed, hcontent, Content.unpack]

theorem Spent.settle (h : b.Spent) : Gives b.settle Spent := by
  unfold Block.settle
  split
  · exact b.gives_compress_spent
  · exact gives_ok.mpr h

theorem Spent.openForUse (h : b.Spent) : Gives b.openForUse Spent := by
  unfold Block.openForUse
  split
  · exact Gives.bind_any fun b' => gives_pure.mpr (.inr (.inl rfl))
  · exact gives_ok.mpr h

/-- A block that is plain, but would be compressed if it were tried, is not spent. -/
theorem not_spent {b' : Block} (hplain : b.IsPlain) (hcompress : b.compress = .ok b')
    (hb' : b'.isCompressed = true) : ¬ b.Spent := by
  rintro (hcompressed | hpending | ⟨p, hp, hgiven⟩)
  · simp [hplain.expanded] at hcompressed
  · simp [hplain.unmarked] at hpending
  · cases hcontent : b.content with
    | compressed bytes =>
      have hexpanded := hplain.expanded
      simp [isCompressed, hcontent, Content.isPlain] at hexpanded
    | plain q =>
      obtain rfl : q = p := by simpa [packed, hcontent, Content.unpack] using hp
      rw [Block.compress, hcontent] at hcompress
      simp only [worthwhile?_eq_none_iff.mpr hgiven] at hcompress
      obtain rfl := Except.ok.inj hcompress
      simp [isCompressed, Content.isPlain] at hb'

end Block

namespace Chain

open Block (Outside Rewrites)

variable {c : Chain} {depth n i : Nat} {P E E' : BlockId → Prop} {F F' : Nat → Prop}
  {t : Option Nat} {f : Block → Except Fault Block} {new : Cell} {side : Side} {b : Block}

/-! ### Steps -/

/-- If it lies inside, a block is spent, but for the exceptions that are allowed for its name and
its number. -/
def SpentBut (depth n : Nat) (E : BlockId → Prop) (F : Nat → Prop) (i : Nat) (id : BlockId)
    (b : Block) : Prop :=
  ¬ Outside depth n i → b.Spent ∨ E id ∨ F i

namespace Each

theorem spent_imp (h : c.Each depth n (SpentBut depth n E F)) (hF : ∀ j, F j → F' j) :
    c.Each depth n (SpentBut depth n E F') :=
  h.imp fun j _ _ _ hb hin => (hb hin).imp_right (.imp_right (hF j))

/-- A change of a block that leaves it spent if it was, and is no exception. -/
theorem spent_modifyBlock (h : c.Each depth n (SpentBut depth n E F))
    (hf : ∀ b, b.Spent → Gives (f b) Block.Spent) :
    Gives (c.modifyBlock i f) (·.Each depth n (SpentBut depth n E F)) := by
  refine h.modifyBlock (fun id b _ hb => ?_) fun _ _ _ _ hb => hb
  by_cases hspent : b.Spent
  · exact (hf b hspent).imp fun b' hb' _ => .inl hb'
  · exact fun b' _ hin => .inr ((hb hin).resolve_left hspent)

/-- A change of which nothing is known, in a block that is an exception or lies outside. -/
theorem spent_modifyBlock_any (h : c.Each depth n (SpentBut depth n E F))
    (hi : Outside depth n i ∨ F i) :
    Gives (c.modifyBlock i f) (·.Each depth n (SpentBut depth n E F)) := by
  refine h.modifyBlock (fun id b _ _ b' _ hin => ?_) fun _ _ _ _ hb => hb
  exact .inr (.inr (hi.resolve_left hin))

/-- **Restoring the boundaries** spends the block that was touched and those at the
boundaries. -/
theorem spent_enforce (h : c.Each depth n (SpentBut depth n E F))
    (hF : ∀ j, j ≠ depth → j ≠ n - 1 - depth → t ≠ some j → F j → F' j) :
    Gives (c.enforce t) (·.Each depth n (SpentBut depth n E F')) := by
  have hdepth := h.depth_eq
  have hlength := h.length_eq
  unfold Chain.enforce
  dsimp only
  rw [hdepth, hlength]
  split
  · next hcond =>
    exact gives_ok.mpr (h.imp fun i id b _ _ hin => absurd (Block.outside_of_few hcond) hin)
  · next hcond =>
    have hpos : depth ≠ 0 := fun hzero => hcond (.inl hzero)
    have houter : Gives (c.modifyBlocks Block.keepPlain (outerIdxs depth n))
        (·.Each depth n (SpentBut depth n E F)) := by
      refine (h.modifyBlocks (S := fun _ => True) (fun _ _ _ _ _ _ _ _ => trivial)
        fun _ _ _ _ => trivial).imp fun c₁ h₁ => h₁.imp fun j id b hj hb hin => ?_
      rw [if_neg (mt (mem_outerIdxs hpos hj).mp hin)] at hb
      exact hb hin
    refine houter.bind fun c₁ h₁ => ?_
    refine (h₁.modifyBlocks (S := Block.Spent) (fun _ _ _ b _ _ => b.gives_compress_spent)
      fun b _ => b.gives_compress_spent).imp fun c₂ h₂ => h₂.imp fun j id b hj hb hin => ?_
    split at hb
    · exact .inl hb
    · next hfar =>
      have hfar' := fun hnear => hfar ((mem_innerIdxs hpos).mpr ⟨hnear, hin⟩)
      exact (hb hin).imp_right (.imp_right (hF j (fun heq => hfar' (.inr (.inl heq)))
        (fun heq => hfar' (.inr (.inr heq))) fun heq => hfar' (.inl heq)))

/-- Whichever way it is taken, **ending a change** spends the block. -/
theorem spent_recompress (h : c.Each depth n (SpentBut depth n E F))
    (hF : ∀ j, j ≠ i → F j → F' j) :
    Gives (c.recompress i) (·.Each depth n (SpentBut depth n E F')) := by
  unfold Chain.recompress
  refine Gives.bind (q := fun b => c.block i = .ok b) (fun _ hb => hb) fun b hb => ?_
  split
  · next hpending =>
    refine (h.of_block hb).modifyBlock (fun id b' _ hb' => ?_) fun j id b' hj hb' hin => ?_
    · rw [Block.settle, if_pos (hb'.2 rfl ▸ hpending)]
      exact b'.gives_compress_spent.imp fun _ hspent _ => .inl hspent
    · exact (hb'.1 hin).imp_right (.imp_right (hF j hj))
  · exact h.spent_enforce fun j _ _ hj => hF j fun heq => hj (by rw [heq])

/-- With a new block, what has crossed the boundaries is an exception. -/
theorem spent_insertCell (h : c.Each depth n (SpentBut depth n E fun _ => False)) :
    Gives (c.insertCell i new)
      (·.Each depth (n + 1) (SpentBut depth (n + 1) E (Crossed depth (n + 1) i))) := by
  refine h.insertCell (fun _ => .inr (.inr (.inl rfl))) (fun j id b hj hlt hb hin => ?_)
    fun j id b hj hle hb hin => ?_
  · by_cases hout : Outside depth n j
    · refine .inr (.inr ?_)
      simp only [Outside, IsOuter, Crossed] at *
      omega
    · exact (hb hout).imp_right (.imp_right False.elim)
  · by_cases hout : Outside depth n j
    · refine .inr (.inr ?_)
      simp only [Outside, IsOuter, Crossed] at *
      omega
    · exact (hb hout).imp_right (.imp_right False.elim)

theorem spent_linkCell (h : c.Each depth n (SpentBut depth n E fun _ => False))
    (beside : Option Nat) (place : Place) :
    Gives (c.linkCell beside place new) (·.Each depth (n + 1)
      (SpentBut depth (n + 1) E (Crossed depth (n + 1) (beside.elim 0 place.cut)))) :=
  gives_linkCell fun arena => (h.withArena arena).spent_insertCell

/-- When a block goes, what has crossed the boundaries is at them. -/
theorem spent_unlink (h : c.Each depth n (SpentBut depth n E F)) (hF : ∀ j, F j → j = i) :
    Gives (c.unlink i) (·.Each depth (n - 1) (SpentBut depth (n - 1) E fun _ => False)) := by
  have hremoved : Gives (c.removeCell i) (·.1.Each depth (n - 1)
      (SpentBut depth (n - 1) E fun j => j = depth ∨ j = n - 1 - 1 - depth)) := by
    refine h.removeCell (fun j id b hj hlt hb hin => ?_) fun j id b hj hle hb hin => ?_
    · by_cases hout : Outside depth n j
      · refine .inr (.inr ?_)
        simp only [Outside, IsOuter] at *
        omega
      · exact (hb hout).imp_right (.imp_right fun hf => absurd (hF j hf) (Nat.ne_of_lt hlt))
    · by_cases hout : Outside depth n (j + 1)
      · refine .inr (.inr ?_)
        simp only [Outside, IsOuter] at *
        omega
      · exact (hb hout).imp_right (.imp_right fun hf => absurd (hF _ hf) (by omega))
  unfold Chain.unlink
  refine hremoved.bind fun r hr => Gives.bind_any fun left => ?_
  exact (hr.withCount left).spent_enforce fun j hj hj' _ hf => (hf.elim hj hj').elim

end Each

/-! ### Between operations -/

/-- Every block inside is spent, but for the exceptions that are allowed for its name and its
number. -/
def AllSpent (c : Chain) (depth : Nat) (E : BlockId → Prop) (F : Nat → Prop) : Prop :=
  ∃ n, c.Each depth n (SpentBut depth n E F)

namespace AllSpent

theorem imp (h : c.AllSpent depth E F) (hF : ∀ j, F j → F' j) : c.AllSpent depth E F' := by
  obtain ⟨n, h⟩ := h
  exact ⟨n, h.spent_imp hF⟩

theorem withCount (h : c.AllSpent depth E F) (n : Nat) : (c.withCount n).AllSpent depth E F := by
  obtain ⟨n', h⟩ := h
  exact ⟨n', h.withCount n⟩

theorem touch (h : c.AllSpent depth E F) : c.touch.AllSpent depth E F := by
  obtain ⟨n, h⟩ := h
  exact ⟨n, h.touch⟩

theorem takeId (h : c.AllSpent depth E F) : c.takeId.2.AllSpent depth E F := by
  obtain ⟨n, h⟩ := h
  exact ⟨n, h.takeId⟩

theorem openForUse (h : c.AllSpent depth E F) (i : Nat) :
    Gives (c.openForUse i) (·.AllSpent depth E F) := by
  obtain ⟨n, h⟩ := h
  exact (h.spent_modifyBlock fun _ hb => hb.openForUse).imp fun _ h₁ => ⟨n, h₁⟩

theorem settle (h : c.AllSpent depth E F) (i : Nat) :
    Gives (c.settle i) (·.AllSpent depth E F) := by
  obtain ⟨n, h⟩ := h
  exact (h.spent_modifyBlock fun _ hb => hb.settle).imp fun _ h₁ => ⟨n, h₁⟩

/-- A block that is an exception may be changed. -/
theorem modify (h : c.AllSpent depth E F) (hi : F i) (f : Block → Except Fault Block) :
    Gives (c.modifyBlock i f) (·.AllSpent depth E F) := by
  obtain ⟨n, h⟩ := h
  exact (h.spent_modifyBlock_any (.inr hi)).imp fun _ h₁ => ⟨n, h₁⟩

/-- The block at an end may be changed anyhow. -/
theorem modify_end (h : c.AllSpent depth E F) (hi : c.endIdx? side = some i)
    (f : Block → Except Fault Block) : Gives (c.modifyBlock i f) (·.AllSpent depth E F) := by
  obtain ⟨n, h⟩ := h
  have hout : Outside depth n i := h.length_eq ▸ outside_of_endIdx? hi
  exact (h.spent_modifyBlock_any (.inl hout)).imp fun _ h₁ => ⟨n, h₁⟩

theorem recompress (h : c.AllSpent depth E F) (hF : ∀ j, F j → j = i) :
    Gives (c.recompress i) (·.AllSpent depth E fun _ => False) := by
  obtain ⟨n, h⟩ := h
  exact (h.spent_recompress fun j hj hf => hj (hF j hf)).imp fun _ h₁ => ⟨n, h₁⟩

theorem unlink (h : c.AllSpent depth E F) (hF : ∀ j, F j → j = i) :
    Gives (c.unlink i) (·.AllSpent depth E fun _ => False) := by
  obtain ⟨n, h⟩ := h
  exact (h.spent_unlink hF).imp fun _ h₁ => ⟨n - 1, h₁⟩

/-- **Beside a new block** the boundaries are restored last by that block, which is not open. -/
theorem linkBeside (hs : c.AllSpent depth E fun _ => False) (h : c.Held depth P i)
    (hnew : new.block.IsPlain) (place : Place) :
    Gives (c.linkBeside i place new) (·.AllSpent depth E fun _ => False) := by
  obtain ⟨n, hs⟩ := hs
  rw [linkBeside_eq]
  refine ((h.linkCell hnew place).and (hs.spent_linkCell _ _)).bind fun c₁ h₁ => ?_
  obtain ⟨⟨n₁, hfits⟩, hspent⟩ := h₁
  obtain rfl : n₁ = n + 1 := hfits.length_eq.symm.trans hspent.length_eq
  -- the old block may be open; the new one is not, so the boundaries are restored after it
  have hfits' : Gives (c₁.recompress (place.moved i)) (·.Each depth (n + 1) (FitsBut depth (n + 1)
      (fun j id => P id ∧ j ≠ place.cut i) (Crossed depth (n + 1) (place.cut i)))) :=
    hfits.recompress (fun j id hj ha => ha.resolve_right hj) fun _ _ hf => hf
  refine (hfits'.and (hspent.spent_recompress fun _ _ hf => hf)).bind fun c₂ h₂ => ?_
  obtain ⟨hfits, hspent⟩ := h₂
  unfold Chain.recompress
  refine (hfits.block (place.cut i)).bind fun b hb => ?_
  obtain ⟨-, id, hb⟩ := hb
  rw [if_neg (by simp [hb.unmarked fun ha => ha.2 rfl])]
  refine (hspent.spent_enforce fun j hj hj' hi hf => ?_).imp fun _ h₃ => ⟨n + 1, h₃⟩
  rcases hf with heq | heq | heq
  · exact hi (congrArg some heq.symm)
  · exact hj heq
  · exact hj' heq

/-! ### Ends -/

theorem linkAt (hs : c.AllSpent depth E fun _ => False) (h : c.Settled depth P)
    (hnew : new.block.IsPlain) (side : Side) :
    Gives (c.linkAt side new) (·.AllSpent depth E fun _ => False) := by
  unfold Chain.linkAt
  split
  · exact hs.linkBeside (h.held _) hnew _
  · next hnone =>
    obtain ⟨n, hs⟩ := hs
    have hzero : n = 0 := by
      rw [← hs.length_eq]
      by_contra hpos
      simp only [endIdx?, if_neg hpos] at hnone
      split at hnone <;> contradiction
    -- with no other block the new one lies outside
    refine (hs.spent_linkCell none _).bind fun c₁ h₁ => ?_
    refine recompress (F := fun _ => False) ⟨n + 1, h₁.imp fun j id b hj _ hin => ?_⟩
      fun _ => False.elim
    simp only [Outside, IsOuter] at hin
    omega

theorem push (hs : c.AllSpent depth E fun _ => False) (h : c.Settled depth P) (side : Side)
    (s : Bytes) : Gives (c.push side s) (·.1.AllSpent depth E fun _ => False) := by
  unfold Chain.push
  refine (gives_admittingEnd? c side s.length).bind fun admitting hadmits => ?_
  cases admitting with
  | some i =>
    refine (hs.modify_end (hadmits i rfl) _).bind fun c₁ h₁ => ?_
    exact gives_pure.mpr (h₁.withCount _).touch
  | none =>
    refine (Block.isPlain_singleton s).bind fun b hb => ?_
    refine (hs.takeId.linkAt h.takeId hb side).bind fun c₁ h₁ => ?_
    exact gives_pure.mpr (h₁.withCount _).touch

theorem pushAll (hs : c.AllSpent depth E fun _ => False) (h : c.Settled depth P)
    (vs : List Value) : Gives (c.pushAll vs) (·.AllSpent depth E fun _ => False) := by
  induction vs generalizing c with
  | nil => exact gives_ok.mpr hs
  | cons v vs ih =>
    refine ((hs.push h .tail v.render).and (h.push .tail v.render)).bind fun r hr => ?_
    exact ih hr.1 hr.2

theorem appendBlock (hs : c.AllSpent depth E fun _ => False) (h : c.Settled depth P)
    (p : Packed) : Gives (c.appendBlock p) (·.AllSpent depth E fun _ => False) := by
  unfold Chain.appendBlock
  split
  · exact gives_ok.mpr hs
  · refine (hs.takeId.linkAt h.takeId (Block.isPlain_ofPacked p) .tail).bind fun c₁ h₁ => ?_
    exact gives_pure.mpr (h₁.withCount _).touch

theorem eraseAt_end (h : c.AllSpent depth E fun _ => False) (hi : c.endIdx? side = some i)
    (k : Nat) : Gives (c.eraseAt i k) (·.1.AllSpent depth E fun _ => False) := by
  refine (gives_eraseAt (fun f _ => h.modify_end hi f) (fun _ h₁ => h₁.unlink fun _ => False.elim)
    (fun _ n h₁ => h₁.withCount n) (fun _ n h₁ => h₁.withCount n) k).imp fun r hr => ?_
  split at hr
  · exact hr
  · exact hr

theorem outermost? (h : c.AllSpent depth E F) (side : Side) :
    Gives (c.outermost? side) (·.1.AllSpent depth E F) := by
  unfold Chain.outermost?
  split
  · exact gives_ok.mpr h
  · next i hend =>
    refine (h.modify_end hend Block.inflate).bind fun c₁ h₁ => ?_
    exact Gives.bind_any fun b => Gives.bind_any fun p => gives_pure.mpr h₁

theorem pop (hs : c.AllSpent depth E fun _ => False) (h : c.Settled depth P) (side : Side) :
    Gives (c.pop side) (·.1.AllSpent depth E fun _ => False) := by
  unfold Chain.pop
  split
  · exact gives_ok.mpr hs
  · refine ((hs.outermost? side).and (h.outermost? side)).bind fun r hr => ?_
    obtain ⟨c₁, found⟩ := r
    obtain ⟨h₁, -, hend⟩ := hr
    cases found with
    | none => exact gives_pure.mpr h₁
    | some found =>
      obtain ⟨i, place, v⟩ := found
      exact (h₁.eraseAt_end (hend i place v rfl) place.idx).bind fun r hr => gives_pure.mpr hr.touch

theorem rotate (hs : c.AllSpent depth E fun _ => False) (h : c.Settled depth P) :
    Gives c.rotate (·.AllSpent depth E fun _ => False) := by
  unfold Chain.rotate
  split
  · exact gives_ok.mpr hs
  · refine ((hs.outermost? .tail).and (h.outermost? .tail)).bind fun r hr => ?_
    obtain ⟨c₁, found⟩ := r
    obtain ⟨hs₁, h₁, -⟩ := hr
    cases found with
    | none => exact gives_pure.mpr hs₁
    | some found =>
      obtain ⟨i, place, v⟩ := found
      refine ((hs₁.push h₁ .head v.render).and (h₁.push .head v.render)).bind fun r hr => ?_
      refine ((hr.1.outermost? .tail).and (hr.2.outermost? .tail)).bind fun r' hr' => ?_
      obtain ⟨c₃, last⟩ := r'
      obtain ⟨hs₃, -, hend⟩ := hr'
      cases last with
      | none => exact gives_pure.mpr hs₃.touch
      | some last =>
        obtain ⟨j, place', v'⟩ := last
        refine (hs₃.eraseAt_end (hend j place' v' rfl) place'.idx).bind fun r hr => ?_
        exact gives_pure.mpr hr.touch

/-! ### Elements that are found -/

theorem find? (h : c.AllSpent depth E F) (index : Int) :
    Gives (c.find? index) (·.1.AllSpent depth E F) := by
  unfold Chain.find?
  split
  · exact gives_ok.mpr h
  · refine (h.openForUse _).bind fun c₁ h₁ => Gives.bind_any fun b => Gives.bind_any fun p => ?_
    split
    · exact gives_pure.mpr h₁
    · exact Gives.bind_any fun found => gives_pure.mpr h₁

theorem index (h : c.AllSpent depth E F) (index : Int) :
    Gives (c.index index) (·.1.AllSpent depth E F) :=
  (h.find? index).bind fun _ hr => gives_pure.mpr hr

theorem get? (h : c.AllSpent depth E F) (index : Int) :
    Gives (c.get? index) (·.1.AllSpent depth E F) := by
  unfold Chain.get?
  refine (h.find? index).bind fun r hr => ?_
  obtain ⟨c₁, found⟩ := r
  cases found with
  | none => exact gives_pure.mpr hr
  | some found => exact (settle hr _).bind fun c₂ h₂ => gives_pure.mpr h₂

/-- What is overwritten is attempted anew. -/
theorem overwrite (h : c.AllSpent depth E fun _ => False) (i k : Nat) (s : Bytes) :
    Gives (c.overwrite i k s) (·.AllSpent depth E fun _ => False) := by
  unfold Chain.overwrite
  have hbut : c.AllSpent depth E (· = i) := h.imp fun _ => False.elim
  refine (hbut.modify rfl _).bind fun c₁ h₁ => ?_
  exact (h₁.recompress fun _ hj => hj).bind fun c₂ h₂ => gives_pure.mpr h₂.touch

theorem replace (h : c.AllSpent depth E fun _ => False) (handle : Handle) (s : Bytes) :
    Gives (c.replace handle s) (·.AllSpent depth E fun _ => False) := by
  unfold Chain.replace
  exact Gives.bind_any fun _ => Gives.bind_any fun i => h.overwrite i _ s

theorem replaceAt (h : c.AllSpent depth E fun _ => False) (index : Int) (s : Bytes) :
    Gives (c.replaceAt index s) (·.1.AllSpent depth E fun _ => False) := by
  unfold Chain.replaceAt
  refine (h.find? index).bind fun r hr => ?_
  obtain ⟨c₁, found⟩ := r
  cases found with
  | none => exact gives_pure.mpr hr
  | some found => exact (overwrite hr _ _ s).bind fun c₂ h₂ => gives_pure.mpr h₂

end AllSpent

end Chain

/-! ### Walks -/

namespace Walk

open Chain

variable {c : Chain} {w : Walk} {depth : Nat} {E : BlockId → Prop}

/-- Every block inside is spent, but for the one that the walk is in. -/
def Attends (w : Walk) (c : Chain) (depth : Nat) (E : BlockId → Prop) : Prop :=
  c.AllSpent depth E (w.current = some ·)

theorem attends_of_allSpent (h : c.AllSpent depth E fun _ => False) (w : Walk) :
    w.Attends c depth E :=
  h.imp fun _ => False.elim

/-- A walk that leaves its block attempts to compress it. -/
theorem Attends.recompress {i : Nat} (h : w.Attends c depth E) (hi : w.current = some i) :
    Gives (c.recompress i) (·.AllSpent depth E fun _ => False) :=
  Chain.AllSpent.recompress h fun _ hj => Option.some.inj (hj.symm.trans hi)

theorem Attends.nextAmong (h : w.Attends c depth E) (blocks : Nat) :
    Gives (nextAmong blocks w c) fun r => r.1.Attends r.2.1 depth E := by
  induction blocks generalizing w c with
  | zero => exact gives_ok.mpr h
  | succ blocks ih =>
    rw [Walk.nextAmong]
    split
    · exact gives_ok.mpr h
    · next i hi =>
      have hopen : Gives (w.openBlock c i) (w.Attends · depth E) := by
        unfold Walk.openBlock
        split
        · exact Chain.AllSpent.openForUse h i
        · exact Chain.AllSpent.modify h hi _
      refine hopen.bind fun c₁ h₁ => Gives.bind_any fun b => Gives.bind_any fun p => ?_
      have hcurrent : (w.advance p).current = some i := by rw [current_advance, hi]
      have h₂ : (w.advance p).Attends c₁ depth E := by
        unfold Attends
        rw [hcurrent, ← hi]
        exact h₁
      refine Gives.bind_any fun found => ?_
      cases found with
      | some handle => exact gives_pure.mpr h₂
      | none => exact (h₂.recompress hcurrent).bind fun c₂ h₃ => ih (attends_of_allSpent h₃ _)

theorem Attends.finish (h : w.Attends c depth E) :
    Gives (w.finish c) (·.AllSpent depth E fun _ => False) := by
  unfold Walk.finish
  split
  · next i hi => exact h.recompress hi
  · next hnone =>
    refine gives_ok.mpr (Chain.AllSpent.imp h fun j hj => ?_)
    simp [hnone] at hj

theorem Attends.erase (h : w.Attends c depth E) (handle : Handle) :
    Gives (w.erase c handle) fun r => r.1.Attends r.2.1 depth E := by
  unfold Walk.erase
  split
  · exact gives_error
  · next i hi =>
    split
    · refine (gives_eraseAt (Q := (w.Attends · depth E))
        (fun f _ => Chain.AllSpent.modify h hi f)
        (fun _ h₁ => Chain.AllSpent.unlink h₁ fun _ hj => Option.some.inj (hj.symm.trans hi))
        (fun _ n h₁ => Chain.AllSpent.withCount h₁ n)
        (fun _ n h₁ => h₁.withCount n) handle.place.idx).bind fun r hr => ?_
      obtain ⟨c₁, gone⟩ := r
      refine gives_pure.mpr ?_
      cases gone with
      | true => exact attends_of_allSpent (Chain.AllSpent.touch hr) _
      | false => exact Chain.AllSpent.touch hr
    · exact gives_error

end Walk

/-! ### Overlooked blocks -/

namespace Chain

variable {c : Chain} {depth : Nat} {E : BlockId → Prop}

/-- The block with the name lies inside, and it is plain although it would be compressed if it
were tried. -/
def Overlooks (c : Chain) (id : BlockId) : Prop :=
  ∃ i, ∃ h : i < c.cells.size, c.cells[i].id = id ∧ ¬ Block.Outside c.depth c.length i ∧
    ¬ c.cells[i].block.Spent

/-- Only what is overlooked has to be an exception. -/
theorem allSpent_overlooks (hdepth : c.depth = depth) :
    c.AllSpent depth c.Overlooks fun _ => False := by
  refine ⟨c.length, hdepth, rfl, fun i hi hin => ?_⟩
  by_cases hspent : c.cells[i].block.Spent
  · exact .inl hspent
  · exact .inr (.inl ⟨i, hi, rfl, hdepth ▸ hin, hspent⟩)

/-- And what is overlooked is an exception. -/
theorem AllSpent.of_overlooks {id : BlockId} (h : c.AllSpent depth E fun _ => False)
    (hid : c.Overlooks id) : E id := by
  obtain ⟨n, h⟩ := h
  obtain ⟨i, hi, rfl, hin, hspent⟩ := hid
  rw [h.depth_eq, h.length_eq] at hin
  exact ((h.each i hi hin).resolve_left hspent).resolve_right not_false

end Chain

/-- Whether the action is an insertion beside an element or an erasure of a range, which settle
the block that they have worked in. -/
def Action.settlesBlock : Action → Bool
  | .insertBeside _ _ _ | .eraseRange _ _ => true
  | _ => false

namespace Session

variable {s : Session} {m : Ledger} {depth : Nat} {P E : BlockId → Prop} {a : Action}
  {as : List Action}

theorem allSpent_follow {w : Walk} (h : w.Attends s.chain depth E) (script : List Bool)
    (met : List Bytes) :
    Gives (follow script w s met) (·.1.chain.AllSpent depth E fun _ => False) := by
  induction script generalizing w s met with
  | nil => exact h.finish.bind fun c hc => gives_pure.mpr hc
  | cons erasing script ih =>
    rw [follow]
    refine (h.nextAmong _).bind fun r hr => ?_
    obtain ⟨w₁, c₁, found⟩ := r
    cases found with
    | none => exact hr.finish.bind fun c hc => gives_pure.mpr hc
    | some handle =>
      cases erasing with
      | true => exact (hr.erase handle).bind fun r hr => ih hr _
      | false => exact ih hr _

/-- **An action overlooks nothing** if it does not settle its block. -/
theorem allSpent_perform (hs : s.chain.AllSpent depth E fun _ => False)
    (h : s.chain.Settled depth P) (ha : a.keepsDepth) (hsettles : ¬ a.settlesBlock) :
    Gives (s.perform a) (·.1.chain.AllSpent depth E fun _ => False) := by
  cases a with
  | setDepth | duplicate => contradiction
  | insertBeside | eraseRange => simp [Action.settlesBlock] at hsettles
  | push side t => exact (hs.push h side t).bind fun r hr => gives_pure.mpr hr
  | pop side => exact (hs.pop h side).bind fun r hr => gives_pure.mpr hr
  | get i => exact (hs.get? i).bind fun r hr => gives_pure.mpr hr
  | index i => exact (hs.index i).bind fun r hr => gives_pure.mpr hr
  | rotate => exact (hs.rotate h).bind fun c hc => gives_pure.mpr hc
  | append p => exact (hs.appendBlock h p.val).bind fun c hc => gives_pure.mpr hc
  | appendValues p => exact (hs.pushAll h p.val.values).bind fun c hc => gives_pure.mpr hc
  | replaceAt i t => exact (hs.replaceAt i t).bind fun r hr => gives_pure.mpr hr
  | setFill setting =>
    obtain ⟨n, hn⟩ := hs
    exact gives_ok.mpr ⟨n, hn.depth_eq, hn.length_eq, hn.each⟩
  | insertAtEnd place t =>
    rw [Session.perform]
    unfold Chain.insert
    refine Gives.bind (q := (·.AllSpent depth E fun _ => False)) ?_ fun c hc => gives_pure.mpr hc
    exact (hs.push h _ t).bind fun r hr => gives_pure.mpr hr
  | appendBytes blob =>
    rw [Session.perform, Chain.appendBytes]
    cases Packed.ofBytes blob with
    | error d => exact gives_ok.mpr hs
    | ok p =>
      refine Gives.bind (q := fun r => ∃ c, r = .ok c ∧ c.AllSpent depth E fun _ => False) ?_ ?_
      · exact (hs.appendBlock h p).bind fun c hc => gives_pure.mpr ⟨c, rfl, hc⟩
      · rintro _ ⟨c, rfl, hc⟩
        exact gives_pure.mpr hc
  | replace number t =>
    rw [Session.perform]
    split
    · exact gives_ok.mpr hs
    · exact (hs.replace _ t).bind fun c hc => gives_pure.mpr hc
  | walk origin i script =>
    refine gives_walk (Q := (·.AllSpent depth E fun _ => False)) hs hs.find?
      (fun c w hr => ?_) origin i
    exact allSpent_follow (s := s.withChain c) (Walk.attends_of_allSpent hr w) script []

/-- **Nor do several of them.** -/
theorem Follows.run_allSpent (h : s.Follows m)
    (has : ∀ a ∈ as, a.keepsDepth ∧ ¬ a.settlesBlock) (hsettled : s.chain.Settled depth P)
    (hs : s.chain.AllSpent depth E fun _ => False) :
    Gives (s.run as) (·.1.chain.AllSpent depth E fun _ => False) := by
  induction as generalizing s m P with
  | nil => exact gives_ok.mpr hs
  | cons a as ih =>
    obtain ⟨⟨hdepth, hsettles⟩, has⟩ := List.forall_mem_cons.mp has
    have hspent := allSpent_perform hs hsettled hdepth hsettles
    rw [Session.run]
    refine ((hspent.and (h.hasOpen hdepth hsettled)).and (h.perform a).gives).bind fun r hr => ?_
    obtain ⟨⟨hspent, ⟨P', hsettled'⟩, -⟩, hfollows, -⟩ := hr
    exact (ih hfollows has hsettled' hspent).bind fun r' hr' => gives_pure.mpr hr'

/-- **Only an insertion beside an element and an erasure of a range overlook a block.** At first
no block is overlooked, and wherever a run has led, as long as none of these two follows, no
other block is overlooked than was by then. -/
theorem run_overlooks (setting depth : Int) (before after : List Action)
    (hbefore : ∀ a ∈ before, a.keepsDepth)
    (hafter : ∀ a ∈ after, a.keepsDepth ∧ ¬ a.settlesBlock) :
    (∀ id, ¬ (ofOptions setting depth).chain.Overlooks id) ∧
      Ensures ((ofOptions setting depth).run before) fun r =>
        Ensures (r.1.run after) fun r' =>
          ∀ id, r'.1.chain.Overlooks id → r.1.chain.Overlooks id := by
  have hfollows := follows_ofOptions setting depth
  have hopen := hfollows.run_hasOpen hbefore (settled_ofOptions setting depth fun _ => False)
  refine ⟨?_, ((hfollows.run before).and_gives hopen).imp fun r hr => ?_⟩
  · rintro id ⟨i, hi, -⟩
    exact absurd hi i.not_lt_zero
  · obtain ⟨⟨hfollows', -⟩, ⟨P, hsettled⟩, -⟩ := hr
    have hdepth : r.1.chain.depth = (Chain.ofOptions setting depth).depth := by
      obtain ⟨n, hn⟩ := hsettled
      exact hn.depth_eq
    have hspent := hfollows'.run_allSpent hafter hsettled (Chain.allSpent_overlooks hdepth)
    exact ((hfollows'.run after).and_gives hspent).imp fun r' hr' id hid => hr'.2.of_overlooks hid

/-- Three blocks of small entries with a depth of one. The middle one, which is too small to be
worth compressing, loses an entry and gets a long one. -/
def outgrown : List Action :=
  [.push .tail [97], .push .tail [98], .push .tail [99], .push .tail [100], .push .tail [101],
    .eraseRange 2 1, .index 2, .insertBeside 0 .before (List.replicate 60 97)]

theorem run_overlooks_settled :
    (∀ a ∈ outgrown, a.keepsDepth) ∧
      (∀ a ∈ [Action.replaceAt 2 [98], .pop .tail], a.keepsDepth ∧ ¬ a.settlesBlock) ∧
      Ensures ((ofOptions 2 1).run outgrown) fun r =>
        Ensures (r.1.run [.replaceAt 2 [98], .pop .tail]) fun r' =>
          ∀ id, r'.1.chain.Overlooks id → r.1.chain.Overlooks id := by
  have hbefore : ∀ a ∈ outgrown, a.keepsDepth := by decide +kernel
  have hafter : ∀ a ∈ [Action.replaceAt 2 [98], .pop .tail], a.keepsDepth ∧ ¬ a.settlesBlock := by
    decide
  exact ⟨hbefore, hafter, (run_overlooks 2 1 _ _ hbefore hafter).2⟩

/-- **A block inside may stay plain although compression would help it now**, with no block left
open. -/
theorem run_outgrown :
    ∃ r, (ofOptions 2 1).run outgrown = .ok r ∧ (∀ b ∈ r.1.chain.blocks, b.pending = false) ∧
      r.1.chain.Overlooks ⟨1⟩ := by
  have hrun : ∃ r, (ofOptions 2 1).run outgrown = .ok r ∧
      (∀ b ∈ r.1.chain.blocks, b.pending = false) ∧ r.1.chain.depth = 1 ∧
      r.1.chain.length = 3 ∧ r.1.chain.cells[1]?.map (fun cell =>
        (cell.id, cell.block.isCompressed, cell.block.compress.map Block.isCompressed)) =
          some (⟨1⟩, false, .ok true) :=
    exists_eq_ok (by decide +kernel)
  obtain ⟨r, hr, hpending, hdepth, hlength, hcell⟩ := hrun
  obtain ⟨cell, hcell, hsummary⟩ := Option.map_eq_some_iff.mp hcell
  obtain ⟨hlt, rfl⟩ := Array.getElem?_eq_some_iff.mp hcell
  simp only [Prod.mk.injEq] at hsummary
  obtain ⟨hid, hexpanded, hcompress⟩ := hsummary
  refine ⟨r, hr, hpending, 1, hlt, hid, ?_, ?_⟩
  · simp [hdepth, hlength, Block.Outside, Chain.IsOuter]
  · have hmem : r.1.chain.cells[1].block ∈ r.1.chain.blocks :=
      List.mem_map_of_mem (Array.getElem_mem_toList hlt)
    cases hb : r.1.chain.cells[1].block.compress with
    | error f => simp [hb, Except.map] at hcompress
    | ok b' =>
      refine Block.not_spent ⟨hexpanded, hpending _ hmem⟩ hb ?_
      simpa [hb, Except.map] using hcompress

end Session

end UnrolledList
