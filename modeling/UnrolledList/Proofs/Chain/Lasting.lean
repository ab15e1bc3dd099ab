import UnrolledList.Proofs.Chain.Refinement
import UnrolledList.Proofs.Chain.Upkeep

/-!
# What a block has at all times

Whatever is asked of a list, little is ever done to a block. It is made plain; its packed list is
rewritten; it is opened, closed or compressed; its number of entries is set; and it is copied. A
property that a new block has, and that none of these takes away (`UnrolledList.Block.Lasting`),
is one that **every block has after every run** (`UnrolledList.Session.run_all`). Here it does not
matter which actions these are: the fill may be set and the depth may be moved on the way.

So what lasts is shown block by block, and the operations are gone through once, here. The first
thing that lasts is that a compressed block is **sealed** (`UnrolledList.Block.Sealed`): it says
that it was tried, and it is not marked to be compressed again.
-/

namespace UnrolledList

namespace Block

variable {b : Block} {R : Block → Prop}

/-- A property of blocks that none of the things takes away that are done to a block. -/
structure Lasting (R : Block → Prop) : Prop where
  /-- A new block. -/
  fresh : ∀ p, R (ofPacked p)
  /-- A change of the packed list, or opening the block for one. -/
  rewrite : ∀ {f b}, Rewrites f → R b → Gives (f b) R
  /-- Opening a block for a single access. -/
  openForUse : ∀ {b}, R b → Gives b.openForUse R
  /-- Opening a block that is to stay plain. -/
  keepPlain : ∀ {b}, R b → Gives b.keepPlain R
  /-- An attempt to compress the block. -/
  compress : ∀ {b}, R b → Gives b.compress R
  /-- Setting the number of entries. -/
  withCount : ∀ {b} (n : Nat), R b → R (b.withCount n)
  /-- A copy. -/
  duplicate : ∀ {b}, R b → R b.duplicate

theorem Lasting.settle (hR : Lasting R) (h : R b) : Gives b.settle R := by
  unfold Block.settle
  split
  · exact hR.compress h
  · exact gives_ok.mpr h

theorem Lasting.singleton (hR : Lasting R) (s : Bytes) : Gives (singleton s) R :=
  hR.rewrite (rewrites_pushBack s) (hR.fresh _)

/-! ### Sealed blocks -/

/-- If it is compressed, the block was tried and is not marked. -/
def Sealed (b : Block) : Prop :=
  b.isCompressed = true → b.tried = true ∧ b.pending = false

theorem sealed_of_expanded (h : b.isCompressed = false) : b.Sealed := fun hc => by
  rw [h] at hc
  contradiction

/-- **A block that gets compressed is sealed** with it. -/
theorem Sealed.compress (h : b.Sealed) : Gives b.compress Sealed := by
  unfold Block.compress
  split
  · exact gives_ok.mpr h
  · dsimp only
    split
    · exact gives_error
    · exact gives_ok.mpr fun _ => ⟨rfl, rfl⟩
    · next p hcontent _ _ => exact gives_ok.mpr (sealed_of_expanded (by
        simp [isCompressed, hcontent, Content.isPlain]))

theorem lasting_sealed : Lasting Sealed where
  fresh _ := sealed_of_expanded rfl
  rewrite hf _ := (hf _).imp fun _ hb' => sealed_of_expanded hb'.1
  openForUse {b} h := by
    rcases hc : b.isCompressed with _ | _
    · rw [openForUse_of_expanded hc]
      exact gives_ok.mpr h
    · exact (gives_openForUse hc).imp fun _ hb' => sealed_of_expanded hb'.expanded
  keepPlain {b} _ := b.gives_keepPlain.imp fun _ hb' => sealed_of_expanded hb'.expanded
  compress h := h.compress
  withCount _ h := h
  duplicate h hc := ⟨(h hc).1, rfl⟩

end Block

/-! ### Lists -/

namespace Chain

open Block (Lasting Rewrites)

variable {c : Chain} {R : Block → Prop} {f : Block → Except Fault Block} {new : Cell}

/-- Every block of the list has the property. -/
def All (c : Chain) (R : Block → Prop) : Prop :=
  ∃ depth n, c.Each depth n fun _ _ => R

namespace All

theorem withCount (h : c.All R) (n : Nat) : (c.withCount n).All R := by
  obtain ⟨depth, n', h⟩ := h
  exact ⟨depth, n', h.withCount n⟩

theorem touch (h : c.All R) : c.touch.All R := by
  obtain ⟨depth, n, h⟩ := h
  exact ⟨depth, n, h.touch⟩

theorem takeId (h : c.All R) : c.takeId.2.All R := by
  obtain ⟨depth, n, h⟩ := h
  exact ⟨depth, n, h.takeId⟩

/-- The property has nothing to do with the options. -/
theorem withOptions (h : c.All R) (fill : Fill) (depth : Nat) :
    { c with fill := fill, depth := depth }.All R := by
  obtain ⟨depth', n, h⟩ := h
  exact ⟨depth, n, rfl, h.length_eq, h.each⟩

/-! #### Changing blocks -/

theorem modifyBlock (h : c.All R) (hf : ∀ b, R b → Gives (f b) R) (i : Nat) :
    Gives (c.modifyBlock i f) (·.All R) := by
  obtain ⟨depth, n, h⟩ := h
  exact (h.modifyBlock (fun _ b _ hb => hf b hb) fun _ _ _ _ hb => hb).imp
    fun _ h₁ => ⟨depth, n, h₁⟩

variable (hR : Lasting R)
include hR

theorem rewrite (h : c.All R) (hf : Rewrites f) (i : Nat) : Gives (c.modifyBlock i f) (·.All R) :=
  h.modifyBlock (fun _ hb => hR.rewrite hf hb) i

theorem openForUse (h : c.All R) (i : Nat) : Gives (c.openForUse i) (·.All R) :=
  h.modifyBlock (fun _ hb => hR.openForUse hb) i

theorem settle (h : c.All R) (i : Nat) : Gives (c.settle i) (·.All R) :=
  h.modifyBlock (fun _ hb => hR.settle hb) i

theorem enduring : Enduring (·.All R) where
  keepPlain h := h.modifyBlock fun _ hb => hR.keepPlain hb
  compress h := h.modifyBlock fun _ hb => hR.compress hb
  settle h := h.settle hR

theorem recompress (h : c.All R) (i : Nat) : Gives (c.recompress i) (·.All R) :=
  (enduring hR).recompress h i

omit hR in
theorem linkCell (h : c.All R) (hnew : R new.block) (beside : Option Nat) (place : Place) :
    Gives (c.linkCell beside place new) (·.All R) := by
  obtain ⟨depth, n, h⟩ := h
  refine gives_linkCell fun arena => ?_
  exact ((h.withArena arena).insertCell hnew (fun _ _ _ _ _ hb => hb) fun _ _ _ _ _ hb => hb).imp
    fun _ h₁ => ⟨depth, n + 1, h₁⟩

theorem linkBeside (h : c.All R) (hnew : R new.block) (i : Nat) (place : Place) :
    Gives (c.linkBeside i place new) (·.All R) :=
  (enduring hR).linkBeside (h.linkCell hnew _ _)

theorem linkAt (h : c.All R) (hnew : R new.block) (side : Side) :
    Gives (c.linkAt side new) (·.All R) :=
  (enduring hR).linkAt (h.linkCell hnew) side

theorem unlink (h : c.All R) (i : Nat) : Gives (c.unlink i) (·.All R) := by
  obtain ⟨depth, n, h⟩ := h
  have hremoved : Gives (c.removeCell i) (·.1.Each depth (n - 1) fun _ _ => R) :=
    h.removeCell (fun _ _ _ _ _ hb => hb) fun _ _ _ _ _ hb => hb
  exact (enduring hR).unlink (hremoved.imp fun _ hr left => withCount ⟨depth, n - 1, hr⟩ left)

theorem eraseAt (h : c.All R) (i k : Nat) : Gives (c.eraseAt i k) (·.1.All R) := by
  refine (gives_eraseAt (Q := (·.All R)) (fun f hf => h.rewrite hR hf i)
    (fun _ h₁ => h₁.unlink hR i) (fun _ n h₁ => h₁.withCount n)
    (fun _ n h₁ => h₁.withCount n) k).imp fun r hr => ?_
  split at hr <;> exact hr

/-! #### Ends -/

theorem push (h : c.All R) (side : Side) (s : Bytes) : Gives (c.push side s) (·.1.All R) := by
  unfold Chain.push
  refine Gives.bind_any fun admitting => ?_
  cases admitting with
  | some i =>
    refine (h.rewrite hR (rewrites_pushInto side s) i).bind fun c₁ h₁ => ?_
    exact gives_pure.mpr (h₁.withCount _).touch
  | none =>
    refine (hR.singleton s).bind fun b hb => (h.takeId.linkAt hR hb side).bind fun c₁ h₁ => ?_
    exact gives_pure.mpr (h₁.withCount _).touch

theorem pushAll (h : c.All R) (vs : List Value) : Gives (c.pushAll vs) (·.All R) := by
  induction vs generalizing c with
  | nil => exact gives_ok.mpr h
  | cons v vs ih => exact (h.push hR .tail v.render).bind fun r hr => ih hr

theorem appendBlock (h : c.All R) (p : Packed) : Gives (c.appendBlock p) (·.All R) := by
  unfold Chain.appendBlock
  split
  · exact gives_ok.mpr h
  · refine (h.takeId.linkAt hR (hR.fresh p) .tail).bind fun c₁ h₁ => ?_
    exact gives_pure.mpr (h₁.withCount _).touch

theorem outermost? (h : c.All R) (side : Side) : Gives (c.outermost? side) (·.1.All R) := by
  unfold Chain.outermost?
  split
  · exact gives_ok.mpr h
  · refine (h.rewrite hR Block.rewrites_inflate _).bind fun c₁ h₁ => ?_
    exact Gives.bind_any fun b => Gives.bind_any fun p => gives_pure.mpr h₁

theorem pop (h : c.All R) (side : Side) : Gives (c.pop side) (·.1.All R) := by
  unfold Chain.pop
  split
  · exact gives_ok.mpr h
  · refine (h.outermost? hR side).bind fun r hr => ?_
    obtain ⟨c₁, found⟩ := r
    cases found with
    | none => exact gives_pure.mpr hr
    | some found => exact (eraseAt hR hr _ _).bind fun r hr => gives_pure.mpr hr.touch

theorem rotate (h : c.All R) : Gives c.rotate (·.All R) := by
  unfold Chain.rotate
  split
  · exact gives_ok.mpr h
  · refine (h.outermost? hR .tail).bind fun r hr => ?_
    obtain ⟨c₁, found⟩ := r
    cases found with
    | none => exact gives_pure.mpr hr
    | some found =>
      refine (push hR hr .head found.2.2.render).bind fun r₂ h₂ => ?_
      refine (h₂.outermost? hR .tail).bind fun r₃ h₃ => ?_
      obtain ⟨c₃, last⟩ := r₃
      cases last with
      | none => exact gives_pure.mpr (All.touch h₃)
      | some last => exact (eraseAt hR h₃ _ _).bind fun r hr => gives_pure.mpr hr.touch

/-! #### Elements that are found -/

theorem find? (h : c.All R) (index : Int) : Gives (c.find? index) (·.1.All R) := by
  unfold Chain.find?
  split
  · exact gives_ok.mpr h
  · refine (h.openForUse hR _).bind fun c₁ h₁ => Gives.bind_any fun b => Gives.bind_any fun p => ?_
    split
    · exact gives_pure.mpr h₁
    · exact Gives.bind_any fun found => gives_pure.mpr h₁

theorem index (h : c.All R) (index : Int) : Gives (c.index index) (·.1.All R) :=
  (h.find? hR index).bind fun _ hr => gives_pure.mpr hr

theorem get? (h : c.All R) (index : Int) : Gives (c.get? index) (·.1.All R) := by
  unfold Chain.get?
  refine (h.find? hR index).bind fun r hr => ?_
  obtain ⟨c₁, found⟩ := r
  cases found with
  | none => exact gives_pure.mpr hr
  | some found => exact (settle hR hr _).bind fun c₂ h₂ => gives_pure.mpr h₂

theorem overwrite (h : c.All R) (i k : Nat) (s : Bytes) :
    Gives (c.overwrite i k s) (·.All R) := by
  unfold Chain.overwrite
  refine (h.rewrite hR (Block.rewrites_modify _) i).bind fun c₁ h₁ => ?_
  exact (h₁.recompress hR i).bind fun c₂ h₂ => gives_pure.mpr h₂.touch

theorem replace (h : c.All R) (handle : Handle) (s : Bytes) :
    Gives (c.replace handle s) (·.All R) :=
  Gives.bind_any fun _ => Gives.bind_any fun i => h.overwrite hR i _ s

theorem replaceAt (h : c.All R) (index : Int) (s : Bytes) :
    Gives (c.replaceAt index s) (·.1.All R) := by
  unfold Chain.replaceAt
  refine (h.find? hR index).bind fun r hr => ?_
  obtain ⟨c₁, found⟩ := r
  cases found with
  | none => exact gives_pure.mpr hr
  | some found => exact (overwrite hR hr _ _ s).bind fun c₂ h₂ => gives_pure.mpr h₂

/-! #### Merging and splitting -/

theorem mergeWithNext (h : c.All R) (i : Nat) : Gives (c.mergeWithNext i) (·.All R) := by
  unfold Chain.mergeWithNext
  refine Gives.bind_any fun right => Gives.bind_any fun q => ?_
  have hjoin : Rewrites fun left => do
      let n := left.count + right.count
      let left ← left.modify fun p => p ++ q
      return left.withCount n :=
    (Block.rewrites_modify fun p => p ++ q).withCount fun left => left.count + right.count
  refine (h.rewrite hR hjoin i).bind fun c₁ h₁ => ?_
  refine (h₁.modifyBlock (fun b hb => gives_ok.mpr (hR.withCount 0 hb)) (i + 1)).bind
    fun c₂ h₂ => ?_
  exact (h₂.unlink hR (i + 1)).bind fun c₃ h₃ => h₃.recompress hR i

theorem mergeIfFits (h : c.All R) (i : Nat) : Gives (c.mergeIfFits i) (·.1.All R) := by
  unfold Chain.mergeIfFits
  split
  · refine Gives.bind_any fun fits => ?_
    split
    · exact (h.mergeWithNext hR i).bind fun c₁ h₁ => gives_pure.mpr h₁
    · exact gives_pure.mpr h
  · exact gives_ok.mpr h

theorem mergeBefore (h : c.All R) (i distance : Nat) :
    Gives (c.mergeBefore i distance) (·.1.All R) := by
  unfold Chain.mergeBefore
  split
  · exact (h.mergeIfFits hR _).bind fun r hr => gives_pure.mpr hr
  · exact gives_ok.mpr h

theorem mergeAround (h : c.All R) (i : Nat) : Gives (c.mergeAround i) (·.All R) := by
  unfold Chain.mergeAround
  refine (h.mergeBefore hR i 2).bind fun r₁ h₁ => ?_
  refine (h₁.mergeIfFits hR (r₁.2 + 1)).bind fun r₂ h₂ => ?_
  refine (h₂.mergeBefore hR r₁.2 1).bind fun r₃ h₃ => ?_
  exact (h₃.mergeIfFits hR r₃.2).bind fun r₄ h₄ => gives_pure.mpr h₄

theorem splitBlock (h : c.All R) (i k : Nat) (place : Place) :
    Gives (c.splitBlock i k place) fun r => r.1.All R ∧ R r.2.block := by
  unfold Chain.splitBlock
  refine Gives.bind_any fun b => Gives.bind_any fun p => ?_
  have hkeep := (Block.rewrites_modify fun _ => (p.halves k place).1).withCount
    fun _ => (p.halves k place).1.length
  exact (h.rewrite hR hkeep i).bind fun c₁ h₁ => gives_pure.mpr ⟨h₁.takeId, hR.fresh _⟩

theorem insertSplitting (h : c.All R) (i k : Nat) (place : Place) (s : Bytes) :
    Gives (c.insertSplitting i k place s) (·.All R) := by
  unfold Chain.insertSplitting
  refine (h.openForUse hR i).bind fun c₁ h₁ => (h₁.splitBlock hR i k place).bind fun r hr => ?_
  refine (hR.rewrite (rewrites_pushFacing place s) hr.2).bind fun b hb => ?_
  exact (hr.1.linkBeside hR hb i place).bind fun c₃ h₃ => h₃.mergeAround hR _

/-! #### Inserting -/

theorem insertWithin (h : c.All R) (i : Nat) (entry : Cursor) (place : Place) (s : Bytes) :
    Gives (c.insertWithin i entry place s) (·.All R) := by
  have hinsert := (Block.rewrites_modify fun p => p.insertIdx (place.cut entry.idx) s).withCount
    fun b => b.count + 1
  unfold Chain.insertWithin
  refine (h.openForUse hR i).bind fun c₁ h₁ => (h₁.rewrite hR hinsert i).bind fun c₂ h₂ => ?_
  exact h₂.settle hR i

theorem insertInNeighbour (h : c.All R) (i j : Nat) (facing : Side) (s : Bytes) :
    Gives (c.insertInNeighbour i j facing s) (·.All R) := by
  unfold Chain.insertInNeighbour
  refine (h.openForUse hR j).bind fun c₁ h₁ => ?_
  refine (h₁.rewrite hR (rewrites_pushInto facing s) j).bind fun c₂ h₂ => ?_
  exact (h₂.settle hR j).bind fun c₃ h₃ => h₃.settle hR i

theorem insertBeyond (h : c.All R) (i : Nat) (k : Int) (place : Place) (s : Bytes) :
    Gives (c.insertBeyond i k place s) (·.All R) := by
  unfold Chain.insertBeyond
  refine Gives.bind_any fun neighbour => ?_
  split
  · next j facing =>
    refine Gives.bind_any fun ok => ?_
    split
    · exact h.insertInNeighbour hR i j facing s
    · exact (hR.singleton s).bind fun b hb => h.takeId.linkBeside hR hb i place
  · exact h.insertSplitting hR i _ place s

theorem insertBeside (h : c.All R) (handle : Handle) (place : Place) (s : Bytes) :
    Gives (c.insertBeside handle place s) (·.All R) := by
  unfold Chain.insertBeside
  refine Gives.bind_any fun _ => Gives.bind_any fun i => Gives.bind_any fun b => ?_
  refine Gives.bind_any fun ok => ?_
  cases ok with
  | true =>
    refine (h.insertWithin hR i _ place s).bind fun c₁ h₁ => ?_
    exact gives_pure.mpr (h₁.withCount _).touch
  | false =>
    refine (h.insertBeyond hR i _ place s).bind fun c₁ h₁ => ?_
    exact gives_pure.mpr (h₁.withCount _).touch

theorem insert (h : c.All R) (handle : Option Handle) (place : Place) (s : Bytes) :
    Gives (c.insert handle place s) (·.All R) := by
  cases handle with
  | some handle => exact h.insertBeside hR handle place s
  | none => exact (h.push hR _ s).bind fun r hr => gives_pure.mpr hr

/-! #### Erasing -/

theorem eraseWithin (h : c.All R) (i : Nat) (offset : Int) (n : Nat) :
    Gives (c.eraseWithin i offset n) (·.1.All R) := by
  have herase := (Block.rewrites_modify fun p => (p.eraseRange offset n).1).subtract n
  unfold Chain.eraseWithin
  refine (h.openForUse hR i).bind fun c₁ h₁ => (h₁.rewrite hR herase i).bind fun c₂ h₂ => ?_
  refine Gives.bind_any fun left => Gives.bind_any fun b => ?_
  dsimp only
  split
  · exact ((h₂.withCount left).unlink hR i).bind fun c₃ h₃ => gives_pure.mpr h₃
  · exact ((h₂.withCount left).settle hR i).bind fun c₃ h₃ => gives_pure.mpr h₃

theorem eraseFrom (h : c.All R) (blocks i : Nat) (offset : Int) (extent : Nat) :
    Gives (eraseFrom blocks i offset extent c) (·.All R) := by
  induction blocks generalizing c i offset extent with
  | zero => exact gives_ok.mpr h
  | succ blocks ih =>
    rw [Chain.eraseFrom]
    split
    · exact gives_ok.mpr h
    · refine Gives.bind_any fun b => ?_
      dsimp only
      split
      · exact (h.unlink hR i).bind fun c₁ h₁ => ih h₁ _ _ _
      · exact (h.eraseWithin hR i offset _).bind fun r hr => ih hr _ _ _

theorem eraseRange (h : c.All R) (start n : Int) :
    Gives (c.eraseRange start n) (·.1.All R) := by
  unfold Chain.eraseRange
  split
  · exact gives_ok.mpr h
  · refine (h.find? hR start).bind fun r hr => ?_
    obtain ⟨c₁, found⟩ := r
    cases found with
    | none => exact gives_pure.mpr hr
    | some found => exact (eraseFrom hR hr _ _ _ _).bind fun c₂ h₂ => gives_pure.mpr h₂.touch

/-! #### Copies -/

theorem duplicate (h : c.All R) : c.duplicate.All R := by
  obtain ⟨depth, n, h⟩ := h
  refine ⟨depth, n, h.depth_eq, ?_, fun i hi => ?_⟩
  · rw [← h.length_eq]
    simp [Chain.duplicate, Chain.length]
  · simp only [Chain.duplicate, Array.getElem_mapIdx]
    exact hR.duplicate (h.each i (by simpa [Chain.duplicate] using hi))

end All

end Chain

/-! ### Walks -/

namespace Walk

open Chain Block

variable {c : Chain} {R : Block → Prop} (hR : Lasting R)
include hR

theorem all_nextAmong (h : c.All R) (w : Walk) (blocks : Nat) :
    Gives (nextAmong blocks w c) (·.2.1.All R) := by
  induction blocks generalizing w c with
  | zero => exact gives_ok.mpr h
  | succ blocks ih =>
    rw [nextAmong]
    split
    · exact gives_ok.mpr h
    · next i _ =>
      have hopen : Gives (w.openBlock c i) (·.All R) := by
        unfold openBlock
        split
        · exact h.openForUse hR i
        · exact h.rewrite hR rewrites_inflate i
      refine hopen.bind fun c₁ h₁ => Gives.bind_any fun b => Gives.bind_any fun p => ?_
      refine Gives.bind_any fun found => ?_
      cases found with
      | some handle => exact gives_pure.mpr h₁
      | none => exact (h₁.recompress hR i).bind fun c₂ h₂ => ih h₂ _

theorem all_finish (h : c.All R) (w : Walk) : Gives (w.finish c) (·.All R) := by
  unfold finish
  split
  · exact h.recompress hR _
  · exact gives_ok.mpr h

theorem all_erase (h : c.All R) (w : Walk) (handle : Handle) :
    Gives (w.erase c handle) (·.2.1.All R) := by
  unfold erase
  split
  · exact gives_error
  · split
    · exact (h.eraseAt hR _ _).bind fun r hr => gives_pure.mpr hr.touch
    · exact gives_error

end Walk

/-! ### Sessions -/

namespace Session

open Chain Block

variable {s : Session} {R : Block → Prop} (hR : Lasting R)
include hR

theorem all_follow (h : s.chain.All R) (w : Walk) (script : List Bool) (met : List Bytes) :
    Gives (follow script w s met) (·.1.chain.All R) := by
  induction script generalizing w s met with
  | nil => exact (w.all_finish hR h).bind fun c hc => gives_pure.mpr hc
  | cons erasing script ih =>
    rw [follow]
    refine (w.all_nextAmong hR h _).bind fun r hr => ?_
    obtain ⟨w₁, c₁, found⟩ := r
    cases found with
    | none => exact (w₁.all_finish hR hr).bind fun c hc => gives_pure.mpr hc
    | some handle =>
      cases erasing with
      | true => exact (w₁.all_erase hR hr handle).bind fun r hr => ih hr _ _
      | false => exact ih (s := (s.withChain c₁).hold [handle]) hr _ _

/-- **No action takes away what lasts.** -/
theorem all_perform (h : s.chain.All R) (a : Action) :
    Gives (s.perform a) (·.1.chain.All R) := by
  cases a with
  | push side t => exact (h.push hR side t).bind fun r hr => gives_pure.mpr hr
  | pop side => exact (h.pop hR side).bind fun r hr => gives_pure.mpr hr
  | get i => exact (h.get? hR i).bind fun r hr => gives_pure.mpr hr
  | index i => exact (h.index hR i).bind fun r hr => gives_pure.mpr hr
  | insertAtEnd place t => exact (h.insert hR none place t).bind fun c hc => gives_pure.mpr hc
  | replaceAt i t => exact (h.replaceAt hR i t).bind fun r hr => gives_pure.mpr hr
  | eraseRange start n => exact (h.eraseRange hR start n).bind fun r hr => gives_pure.mpr hr
  | rotate => exact (h.rotate hR).bind fun c hc => gives_pure.mpr hc
  | append p => exact (h.appendBlock hR p.val).bind fun c hc => gives_pure.mpr hc
  | appendValues p => exact (h.pushAll hR p.val.values).bind fun c hc => gives_pure.mpr hc
  | setFill setting => exact gives_ok.mpr (h.withOptions _ s.chain.depth)
  | setDepth depth => exact gives_ok.mpr (h.withOptions s.chain.fill _)
  | duplicate => exact gives_ok.mpr (h.duplicate hR)
  | appendBytes blob =>
    rw [Session.perform, Chain.appendBytes]
    cases Packed.ofBytes blob with
    | error d => exact gives_ok.mpr h
    | ok p =>
      refine Gives.bind (q := fun r => ∃ c, r = .ok c ∧ c.All R) ?_ ?_
      · exact (h.appendBlock hR p).bind fun c hc => gives_pure.mpr ⟨c, rfl, hc⟩
      · rintro _ ⟨c, rfl, hc⟩
        exact gives_pure.mpr hc
  | insertBeside number place t =>
    rw [Session.perform]
    split
    · exact gives_ok.mpr h
    · exact (h.insert hR _ place t).bind fun c hc => gives_pure.mpr hc
  | replace number t =>
    rw [Session.perform]
    split
    · exact gives_ok.mpr h
    · exact (h.replace hR _ t).bind fun c hc => gives_pure.mpr hc
  | walk origin i script =>
    refine gives_walk (Q := (·.All R)) h (h.find? hR) (fun c w hc => ?_) origin i
    exact all_follow hR (s := s.withChain c) hc w script []

/-- **Every block has what lasts**, after every run and under whatever options. -/
theorem run_all (setting depth : Int) (as : List Action) :
    Gives ((ofOptions setting depth).run as) (·.1.chain.All R) := by
  have hrun : ∀ {s : Session}, s.chain.All R → Gives (s.run as) (·.1.chain.All R) := by
    induction as with
    | nil => exact fun h => gives_ok.mpr h
    | cons a as ih =>
      intro s h
      exact (all_perform hR h a).bind fun r hr => (ih hr).bind fun r' hr' => gives_pure.mpr hr'
  exact hrun ⟨_, 0, rfl, rfl, fun i hi => absurd hi i.not_lt_zero⟩

end Session

end UnrolledList
