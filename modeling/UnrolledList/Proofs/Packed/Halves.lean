import UnrolledList.Chain.Insert
import UnrolledList.Proofs.Packed.Splicing

/-!
# Packed lists cut in two

A block that is split keeps one half of its packed list, and the other half goes to a block
of its own (`UnrolledList.Packed.halves`). Neither is written afresh. Both are the whole list
with a range removed: **everything behind the place** for the half in front of it, and
**everything in front of it** for the half behind.

The ranges are asked for without looking at the list, so some of them are not there: behind
the last entry there is nothing to remove, and in front of the first there is nothing either.
What is left is the same as if they had been there, for every place
(`UnrolledList.Packed.toList_eraseRange_from`, `UnrolledList.Packed.toList_eraseRange_zero`).

## Nothing has to widen

A removal may make a blob longer (`UnrolledList.Packed.Erases.length_toBytes`). A cut never
does. The half in front stands where it stood; the half behind comes to stand at the head,
where the first link has to record zero, and zero fits every field. So both halves are of one
form, **a repair at the head** of the entries that they have in the whole, and the size of
each is that of these entries and of an envelope (`UnrolledList.Packed.PartOf`). A header that
could tell the size of the whole can tell theirs, so there are always two halves, and both
are accepted by the reader.
-/

namespace UnrolledList

/-- Something and what stands at a place beside it, in order. -/
def Place.inOrder {α : Type} (place : Place) (here beside : α) : List α :=
  match place with
  | .before => [beside, here]
  | .after => [here, beside]

/-- Every field has room for zero. -/
theorem Link.not_overflows_zero (link : Link) : ¬ link.Overflows 0 := by
  cases link <;> simp [Overflows, widthFor]

namespace Packed

variable {p q r : Packed} {i j k : Nat} {place : Place}

/-! ### Entries at the head -/

/-- At the head no entry becomes longer. -/
theorem totalSize_repair_zero (es : List Entry) : totalSize (repair 0 es) = totalSize es := by
  cases es with
  | nil => rfl
  | cons e es =>
    have hroom := e.link.not_overflows_zero
    rw [repair, if_neg hroom]
    split
    · rfl
    · rw [totalSize_cons, totalSize_cons, Entry.size_relink_of_not_overflows hroom]

/-- **Without what is behind a place**, whether there is anything or not. -/
theorem toList_eraseRange_from (h : Linked 0 p.entries.toList) (k : Nat) :
    (p.eraseRange k p.entries.size).1.entries.toList = p.entries.toList.take k := by
  rcases Nat.lt_or_ge k p.entries.size with hk | hk
  · rw [eraseRange_of_idxOf? h (idxOf?_natCast hk), toList_eraseIdx_of_linked h,
      List.drop_of_length_le (by simp only [Array.length_toList]; omega), repair_nil,
      List.append_nil]
  · rw [eraseRange_of_idxOf?_eq_none h (idxOf?_eq_none (.inr (by omega))),
      List.take_of_length_le (by simpa using hk)]

/-- **Without what is in front of a place**, whether there is anything or not. -/
theorem toList_eraseRange_zero (h : Linked 0 p.entries.toList) (k : Nat) :
    (p.eraseRange 0 k).1.entries.toList = repair 0 (p.entries.toList.drop k) := by
  rcases Nat.eq_zero_or_pos p.entries.size with hnone | hsome
  · have hnil : p.entries.toList = [] := by
      rw [← List.length_eq_zero_iff, Array.length_toList, hnone]
    rw [eraseRange_of_idxOf?_eq_none h (idxOf?_eq_none (.inr (by omega))), hnil, List.drop_nil,
      repair_nil]
  · have hfirst : idxOf? p.entries.size 0 = some 0 := idxOf?_natCast hsome
    rw [eraseRange_of_idxOf? h hfirst, toList_eraseIdx_of_linked h, List.take_zero, endSize_nil,
      List.nil_append, Nat.zero_add]

/-- A cut leaves the length field right, even where a header could not tell the size. -/
theorem counted_eraseRange (h : p.Counted) (i : Int) (num : Nat) :
    (p.eraseRange i num).1.Counted := by
  unfold eraseRange
  split
  · exact h
  · exact counted_eraseIdx h _ _

/-! ### Parts -/

/-- **`q` is the part of `p`** from entry number `i` to entry number `j`, without the last, as a
packed list of its own. -/
structure PartOf (p : Packed) (i j : Nat) (q : Packed) : Prop where
  /-- The blob passes all checks. -/
  accepted : ofBytes q.toBytes = .ok q
  /-- The length tells how many entries there are. -/
  length_eq : q.length = j - i
  /-- The entries keep their order, their encodings and payloads. -/
  kept : List.Forall₂ Entry.Relinked (p.entries.toList.extract i j) q.entries.toList
  /-- The blob has the bytes of these entries and an envelope, and no field that widened. -/
  length_toBytes : q.toBytes.length = envelopeSize + totalSize (p.entries.toList.extract i j)

/-- Some of the entries are no longer than all of them. -/
theorem totalSize_extract_le (es : List Entry) (i j : Nat) :
    totalSize (es.extract i j) ≤ totalSize es := by
  have hfront := totalSize_take_add_drop es i
  have hback := totalSize_take_add_drop (es.drop i) (j - i)
  rw [List.extract_eq_take_drop]
  omega

/-- Some of the entries at the head are linked, and a header can tell their size. -/
theorem WellFormed.of_repair_zero (hp : p.WellFormed) (hq : q.Counted)
    (hentries : q.entries.toList = repair 0 (p.entries.toList.extract i j)) : q.WellFormed := by
  have hpart := totalSize_extract_le p.entries.toList i j
  have hlimit := hp.size_lt
  rw [p.size_eq] at hlimit
  refine ⟨?_, hq, ?_⟩
  · have hlinked := (hp.linked.drop i).take (j - i)
    rw [hentries]
    rw [← List.extract_eq_take_drop] at hlinked
    refine linked_repair hlinked (by decide) ?_
    rw [totalSize_repair_zero]
    omega
  · rw [q.size_eq, hentries, totalSize_repair_zero]
    omega

/-- Some of the entries at the head are a part. -/
theorem partOf_of_repair_zero (hp : p.WellFormed) (hq : q.Counted) (hj : j ≤ p.entries.size)
    (hentries : q.entries.toList = repair 0 (p.entries.toList.extract i j)) : p.PartOf i j q where
  accepted := ofBytes_toBytes (hp.of_repair_zero hq hentries)
  length_eq := by
    have hlen := congrArg List.length hentries
    rw [length_repair, List.extract_eq_take_drop, List.length_take, List.length_drop,
      Array.length_toList, Array.length_toList] at hlen
    rw [length_eq_iff.mpr hq]
    omega
  kept := by
    rw [hentries, List.extract_eq_take_drop]
    exact relinked_repair (by decide) fun e he =>
      hp.size_add_four_lt (List.mem_of_mem_drop (List.mem_of_mem_take he))
  length_toBytes := by
    rw [Packed.length_toBytes, q.size_eq, hentries, totalSize_repair_zero]

namespace PartOf

theorem wellFormed (h : p.PartOf i j q) : q.WellFormed :=
  (ofBytes_eq_ok_iff.mp h.accepted).2

theorem size_entries (h : p.PartOf i j q) : q.entries.size = j - i := by
  rw [← h.length_eq, length_eq_iff.mpr h.wellFormed.counted]

/-- A part holds what stood there. -/
theorem bodies_eq (h : p.PartOf i j q) : q.bodies = p.bodies.extract i j := by
  have hbodies : q.bodies = (p.entries.toList.extract i j).map Entry.body := by
    rw [bodies, ← List.forall₂_eq_eq_eq, List.forall₂_map_left_iff, List.forall₂_map_right_iff]
    exact h.kept.flip.imp fun _ _ he => he.body_eq
  rw [hbodies, bodies, List.extract_eq_take_drop, List.extract_eq_take_drop, List.map_take,
    List.map_drop]

end PartOf

/-! ### Halves -/

/-- **`q` and `r` divide `p`**: the one is the half with entry number `k`, and the other is all
that lies on the given side of it. -/
def Divides (p : Packed) (k : Nat) (place : Place) (q r : Packed) : Prop :=
  match place with
  | .after => p.PartOf 0 (k + 1) q ∧ p.PartOf (k + 1) p.entries.size r
  | .before => p.PartOf k p.entries.size q ∧ p.PartOf 0 k r

/-- To split behind an entry is to split before the next one, which need not be there. -/
theorem splitAfter_eq (p : Packed) (k : Nat) : p.splitAfter k = p.splitBefore (k + 1) := rfl

/-- The two ranges are complementary, wherever they are cut. -/
theorem toList_splitBefore (h : Linked 0 p.entries.toList) (k : Nat) :
    (p.splitBefore k).1.entries.toList = repair 0 (p.entries.toList.extract 0 k) ∧
      (p.splitBefore k).2.entries.toList =
        repair 0 (p.entries.toList.extract k p.entries.size) := by
  constructor
  · rw [splitBefore, toList_eraseRange_from h, List.extract_eq_take_drop, List.drop_zero,
      Nat.sub_zero, repair_of_linked (h.take k)]
  · rw [splitBefore, toList_eraseRange_zero h, List.extract_eq_take_drop,
      List.take_of_length_le (by simp)]

theorem counted_splitBefore (h : p.Counted) (k : Nat) :
    (p.splitBefore k).1.Counted ∧ (p.splitBefore k).2.Counted :=
  ⟨counted_eraseRange h _ _, counted_eraseRange h _ _⟩

/-- **Both halves are in order**, whether the entry is there or not. -/
theorem WellFormed.halves (h : p.WellFormed) (k : Nat) (place : Place) :
    (p.halves k place).1.WellFormed ∧ (p.halves k place).2.WellFormed := by
  have hsplit : ∀ k, (p.splitBefore k).1.WellFormed ∧ (p.splitBefore k).2.WellFormed := fun k =>
    have hlists := toList_splitBefore h.linked k
    have hcounted := counted_splitBefore h.counted k
    ⟨h.of_repair_zero hcounted.1 hlists.1, h.of_repair_zero hcounted.2 hlists.2⟩
  cases place with
  | after =>
    rw [Packed.halves, splitAfter_eq]
    exact hsplit (k + 1)
  | before => exact (hsplit k).symm

/-- **The halves of a list divide it**, at every entry and on both sides. -/
theorem divides_halves (h : p.WellFormed) (hk : k < p.entries.size) (place : Place) :
    p.Divides k place (p.halves k place).1 (p.halves k place).2 := by
  have hparts : ∀ k ≤ p.entries.size, p.PartOf 0 k (p.splitBefore k).1 ∧
      p.PartOf k p.entries.size (p.splitBefore k).2 := fun k hk =>
    have hlists := toList_splitBefore h.linked k
    have hcounted := counted_splitBefore h.counted k
    ⟨partOf_of_repair_zero h hcounted.1 hk hlists.1,
      partOf_of_repair_zero h hcounted.2 (Nat.le_refl _) hlists.2⟩
  cases place with
  | after =>
    rw [Packed.halves, splitAfter_eq]
    exact hparts (k + 1) hk
  | before => exact (hparts k (Nat.le_of_lt hk)).symm

/-- What the halves hold. -/
theorem Divides.bodies_eq (h : p.Divides k place q r) :
    match place with
    | .after => q.bodies = p.bodies.take (k + 1) ∧ r.bodies = p.bodies.drop (k + 1)
    | .before => q.bodies = p.bodies.drop k ∧ r.bodies = p.bodies.take k := by
  have hfront : ∀ {k q}, p.PartOf 0 k q → q.bodies = p.bodies.take k := fun hq => by
    rw [hq.bodies_eq, List.extract_eq_take_drop, List.drop_zero, Nat.sub_zero]
  have hback : ∀ {k q}, p.PartOf k p.entries.size q → q.bodies = p.bodies.drop k := fun hq => by
    rw [hq.bodies_eq, List.extract_eq_take_drop, List.take_of_length_le (by simp)]
  cases place with
  | after => exact ⟨hfront h.1, hback h.2⟩
  | before => exact ⟨hback h.1, hfront h.2⟩

/-- The one half has an entry at least, and together they have as many as there were. -/
theorem Divides.size_entries (h : p.Divides k place q r) (hk : k < p.entries.size) :
    0 < q.entries.size ∧ q.entries.size + r.entries.size = p.entries.size := by
  cases place with
  | after =>
    rw [h.1.size_entries, h.2.size_entries]
    omega
  | before =>
    rw [h.1.size_entries, h.2.size_entries]
    omega

/-! ### A string beside the cut -/

/-- A string at the end of a list that faces another one, on whose given side it is. -/
def pushFacing (place : Place) (s : Bytes) (p : Packed) : Packed :=
  match place with
  | .after => p.pushFront s
  | .before => p.push s

theorem WellFormed.pushFacing (h : p.WellFormed) {place : Place} {s : Bytes}
    (hsize : (p.pushFacing place s).size < sizeLimit) : (p.pushFacing place s).WellFormed := by
  cases place with
  | after => exact h.pushFront hsize
  | before => exact h.push hsize

theorem size_pushFacing (p : Packed) (place : Place) (s : Bytes) :
    (p.pushFacing place s).entries.size = p.entries.size + 1 := by
  cases place with
  | after => exact p.size_insertIdx 0 s
  | before => rw [pushFacing, ← insertIdx_size, size_insertIdx]

theorem bodies_pushFacing (p : Packed) (place : Place) (s : Bytes) :
    (p.pushFacing place s).bodies =
      match place with
      | .after => .ofBytes s :: p.bodies
      | .before => p.bodies ++ [.ofBytes s] := by
  cases place with
  | after => rw [pushFacing, pushFront, bodies_insertIdx p (Nat.zero_le _)]; rfl
  | before => exact bodies_push p s

/-- **The string comes to stand at the cut**, when the half that has got it stands on the given
side of the other one. -/
theorem Divides.bodies_inOrder (h : p.Divides k place q r) (s : Bytes) :
    (place.inOrder q (r.pushFacing place s)).flatMap bodies =
      p.bodies.take (place.cut k) ++ .ofBytes s :: p.bodies.drop (place.cut k) := by
  have hhalves := h.bodies_eq
  cases place with
  | after => simp [Place.inOrder, Place.cut, bodies_pushFacing, hhalves.1, hhalves.2]
  | before => simp [Place.inOrder, Place.cut, bodies_pushFacing, hhalves.1, hhalves.2]

theorem Divides.texts_inOrder (h : p.Divides k place q r) (s : Bytes) :
    (place.inOrder q (r.pushFacing place s)).flatMap texts =
      p.texts.take (place.cut k) ++ s :: p.texts.drop (place.cut k) := by
  have hrendered := congrArg (List.map fun b => b.value.render) (h.bodies_inOrder s)
  simpa [List.map_flatMap, ← Packed.texts_eq] using hrendered

end Packed

end UnrolledList
