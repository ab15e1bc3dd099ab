import UnrolledList.Chain.Insert
import UnrolledList.Proofs.Chain.Handles

/-!
# Blocks that are merged and split

A merge makes one leaf of two and gives up a name; a split makes two of one and takes a
name. Neither shows in the sequence. A merge sweep looks at up to four pairs of blocks, and
which of them fit depends on the sizes, so what is said of it is what every merge keeps
(`UnrolledList.Layout.Merges`): the strings, the counter, and that the layout is sound
under whatever counter it was sound under before.

That last clause is for insertions, which merge **before they count**: at that time the
layout holds one element more than its counter says.
-/

namespace UnrolledList

namespace Layout

variable {l l' l'' : Layout} {pre post : List Leaf} {a b : Leaf}

/-- Some blocks of the first layout are merged in the second. -/
structure Merges (l l' : Layout) : Prop where
  /-- The strings are the same. -/
  texts_eq : l'.texts = l.texts
  /-- The counter is the same. -/
  count_eq : l'.count = l.count
  /-- The stamp is the same. -/
  stamp_eq : l'.stamp = l.stamp
  /-- Under any counter, what was sound is sound. -/
  sound : ∀ n, Sound { l with count := n } → Sound { l' with count := n }

theorem Merges.refl (l : Layout) : l.Merges l :=
  ⟨rfl, rfl, rfl, fun _ h => h⟩

theorem Merges.trans (h : l.Merges l') (h' : l'.Merges l'') : l.Merges l'' :=
  ⟨h'.texts_eq.trans h.texts_eq, h'.count_eq.trans h.count_eq, h'.stamp_eq.trans h.stamp_eq,
    fun n hn => h'.sound n (h.sound n hn)⟩

/-- Two neighbours that become one. -/
theorem merges_of_leaves_eq (hl : l.leaves = pre ++ a :: b :: post) :
    l.Merges { l with
      leaves := pre ++ ⟨a.id, a.list ++ b.list, a.count + b.count⟩ :: post
      vacant := b.id :: l.vacant } where
  texts_eq := by simp [texts, hl]
  count_eq := rfl
  stamp_eq := rfl
  sound n hn := by
    have ha := hn.counted a (by simp [hl])
    have hb := hn.counted b (by simp [hl])
    have hpos := hn.pos a (by simp [hl])
    have hcount := hn.count_eq
    simp only [hl, total_append, total_cons] at hcount
    have hl' : l.leaves = (pre ++ [a]) ++ b :: post := by rw [hl, ← List.append_cons]
    have hremoved := hn.remove hl' (show n - b.count + b.count = n by omega)
    refine hremoved.set (y := ⟨a.id, a.list ++ b.list, a.count + b.count⟩)
      (List.append_cons _ _ _).symm rfl ?_ ?_ ?_
    · rw [← Packed.length_texts, Packed.texts_append, List.length_append, Packed.length_texts,
        Packed.length_texts, ha, hb]
    · exact Nat.add_pos_left hpos _
    · simp only
      omega

end Layout

namespace Chain

variable {c : Chain} {l : Layout} {pre post : List Leaf} {x a b : Leaf}

/-! ### Merging -/

/-- Moves the entries of a block to the one before it, which is what a merge does before it
removes the block. -/
def gatherNext (c : Chain) (i : Nat) : Except Fault Chain := do
  let right ← c.block (i + 1)
  let q ← right.packed
  let c ← c.modifyBlock i fun left => do
    let n := left.count + right.count
    let left ← left.modify fun p => p ++ q
    return left.withCount n
  c.modifyBlock (i + 1) fun b => .ok (b.withCount 0)

theorem mergeWithNext_eq (c : Chain) (i : Nat) :
    c.mergeWithNext i = (do
      let c ← c.gatherNext i
      let c ← c.unlink (i + 1)
      c.recompress i) := by
  simp only [Chain.mergeWithNext, gatherNext, bind_assoc]

/-- The entries are counted where they have gone. -/
theorem Has.gatherNext (h : c.Has l) (hl : l.leaves = pre ++ a :: b :: post) :
    Ensures (c.gatherNext pre.length) (·.Has { l with
      leaves := (pre ++ [⟨a.id, a.list ++ b.list, a.count + b.count⟩]) ++
        ⟨b.id, b.list, 0⟩ :: post }) := by
  have hl' : l.leaves = (pre ++ [a]) ++ b :: post := by rw [hl, ← List.append_cons]
  have hlen : (pre ++ [a]).length = pre.length + 1 := by simp
  obtain ⟨right, hright, hkeeps, hcount⟩ := h.block_eq hl'
  rw [hlen] at hright
  have hmod := h.modifyBlock (y := ⟨a.id, a.list ++ b.list, a.count + b.count⟩)
    (f := fun left => do
      let n := left.count + right.count
      let left ← left.modify fun p => p ++ b.list
      return left.withCount n) hl rfl fun left hleft hleftCount => by
        refine (hleft.modify (f := fun p => p ++ b.list) fun hsize =>
          hleft.wellFormed.append hkeeps.wellFormed hsize).bind fun b' hb' => ?_
        rw [hleftCount, hcount]
        exact ⟨hb'.1.withCount _, rfl⟩
  rw [Chain.gatherNext, hright, ok_bind, hkeeps.packed_eq, ok_bind]
  refine hmod.bind fun c₁ h₁ => ?_
  have hmod' := h₁.modifyBlock (y := ⟨b.id, b.list, 0⟩) (f := fun b => .ok (b.withCount 0))
    (List.append_cons _ _ _) rfl fun b' hb' _ => ⟨hb'.withCount 0, rfl⟩
  rwa [List.length_append, List.length_singleton] at hmod'

theorem Has.mergeWithNext (h : c.Has l) (hl : l.leaves = pre ++ a :: b :: post) :
    Ensures (c.mergeWithNext pre.length) (·.Has { l with
      leaves := pre ++ ⟨a.id, a.list ++ b.list, a.count + b.count⟩ :: post
      vacant := b.id :: l.vacant }) := by
  rw [mergeWithNext_eq]
  refine (h.gatherNext hl).bind fun c₁ h₁ => ?_
  have hunlink := h₁.unlink rfl (Nat.zero_le _)
  rw [List.length_append, List.length_singleton] at hunlink
  refine hunlink.bind fun c₂ h₂ => (h₂.recompress (by simp)).imp fun c₃ h₃ => ?_
  simpa using h₃

theorem Has.admitsMerge (h : c.Has l) (hl : l.leaves = pre ++ a :: b :: post) :
    Ensures (c.admitsMerge pre.length) fun _ => True := by
  have hl' : l.leaves = (pre ++ [a]) ++ b :: post := by rw [hl, ← List.append_cons]
  obtain ⟨left, hleft, -⟩ := h.block_eq hl
  obtain ⟨right, hright, -⟩ := h.block_eq hl'
  rw [List.length_append, List.length_singleton] at hright
  rw [Chain.admitsMerge, hleft, ok_bind, hright, ok_bind]
  split <;> trivial

/-- Two neighbours are merged if they fit, and the number is that of a block. -/
theorem Has.mergeIfFits (h : c.Has l) (i : Nat) :
    Ensures (c.mergeIfFits i) fun r => ∃ l', r.1.Has l' ∧ l.Merges l' := by
  unfold Chain.mergeIfFits
  split
  · next hlt =>
    rw [h.length_eq] at hlt
    obtain ⟨pre, a, b, post, hl, rfl⟩ := l.exists_pair hlt
    refine (h.admitsMerge hl).bind fun fits _ => ?_
    split
    · exact (h.mergeWithNext hl).bind fun c' hc' => ⟨_, hc', Layout.merges_of_leaves_eq hl⟩
    · exact ⟨l, h, .refl l⟩
  · exact ⟨l, h, .refl l⟩

theorem Has.mergeBefore (h : c.Has l) (i distance : Nat) :
    Ensures (c.mergeBefore i distance) fun r => ∃ l', r.1.Has l' ∧ l.Merges l' := by
  unfold Chain.mergeBefore
  split
  · exact (h.mergeIfFits _).bind fun r hr => hr
  · exact ⟨l, h, .refl l⟩

/-- **A merge sweep** merges some blocks, and nothing else. -/
theorem Has.mergeAround (h : c.Has l) (i : Nat) :
    Ensures (c.mergeAround i) fun c' => ∃ l', c'.Has l' ∧ l.Merges l' := by
  refine (h.mergeBefore i 2).bind fun r hr => ?_
  obtain ⟨l₁, h₁, hm₁⟩ := hr
  refine (Has.mergeIfFits h₁ (r.2 + 1)).bind fun r' hr => ?_
  obtain ⟨l₂, h₂, hm₂⟩ := hr
  refine (Has.mergeBefore h₂ r.2 1).bind fun r'' hr => ?_
  obtain ⟨l₃, h₃, hm₃⟩ := hr
  refine (Has.mergeIfFits h₃ r''.2).bind fun r''' hr => ?_
  obtain ⟨l₄, h₄, hm₄⟩ := hr
  exact ⟨l₄, h₄, ((hm₁.trans hm₂).trans hm₃).trans hm₄⟩

end Chain

end UnrolledList
