import UnrolledList.Proofs.Packed.Splicing

/-!
# Mending a list that is cut at one place

When an entry of a packed list has changed its size, the link behind it is wrong, and no other one
is (`UnrolledList.Packed.LinkedBut`). To **mend** the list behind that entry
(`UnrolledList.Packed.mend`) is to run the repair from there. What comes of it is said by
`UnrolledList.Packed.Mends`: the list is accepted, all entries keep their encodings and payloads,
and of the links only those behind the entry are changed that have to be.

The repair stops early, and it may: what it stops at is a field that was wide enough. Since the
entry of that field keeps its size, the link behind it is as right as it was, and so are all that
follow. On the way every field has to widen, each of them by four bytes
(`UnrolledList.Packed.exists_stop`).
-/

namespace UnrolledList

namespace Packed

variable {p : Packed} {k : Nat}

/-! ### Where a repair stops -/

/-- A link that has to widen is narrow, and is wide afterwards. -/
theorem width_of_overflows {link : Link} {before : Nat} (h : link.Overflows before) :
    link.width = 1 ∧ (link.record before).width = 5 ∧ Link.widthFor before = 5 := by
  unfold Link.Overflows Link.widthFor at h
  split at h
  · cases link <;> simp at h
  · next hbefore =>
    refine ⟨?_, ?_, if_neg hbefore⟩
    · cases link with
      | narrow len => rfl
      | wide len => simp at h
    · cases link with
      | narrow len => simp [Link.record, Link.ofLen, hbefore]
      | wide len => rfl

/-- A link that is wide enough keeps its width. -/
theorem width_of_not_overflows {link : Link} {before : Nat} (h : ¬ link.Overflows before) :
    (link.record before).width = link.width := by
  have hsize := Entry.size_relink_of_not_overflows (e := ⟨link, .number (.immediate 0)⟩) h
  exact Nat.add_right_cancel hsize

/-- The `n` fields before the one that a repair stops at have widened, that one has kept its
width, and behind it nothing is changed. -/
structure StopsAfter (es fs : List Entry) (n : Nat) : Prop where
  /-- The fields that had to widen. -/
  widens : ∀ j < n, ∀ e f, es[j]? = some e → fs[j]? = some f → e.link.width = 1 ∧ f.link.width = 5
  /-- The field that did not. -/
  keeps : ∀ e f, es[n]? = some e → fs[n]? = some f → f.link.width = e.link.width
  /-- All others. -/
  rest : fs.drop (n + 1) = es.drop (n + 1)

/-- **A repair stops at the first field that does not have to widen.** -/
theorem exists_stop (before : Nat) (es : List Entry) :
    ∃ n, StopsAfter es (repair before es) n := by
  have hzero (es fs : List Entry) : ∀ j < 0, ∀ e f, es[j]? = some e → fs[j]? = some f →
      e.link.width = 1 ∧ f.link.width = 5 := fun j hj => absurd hj (Nat.not_lt_zero j)
  induction es generalizing before with
  | nil => exact ⟨0, hzero _ _, fun e f he => absurd he (by simp), rfl⟩
  | cons e es ih =>
    rw [repair]
    split
    · refine ⟨0, hzero _ _, ?_, rfl⟩
      rintro _ _ ⟨⟩ ⟨⟩
      rfl
    · split
      · next hover =>
        obtain ⟨hnarrow, hwide, -⟩ := width_of_overflows hover
        obtain ⟨n, hwidens, hkeeps, hrest⟩ := ih (e.relink before).size
        refine ⟨n + 1, fun j hj => ?_, hkeeps, hrest⟩
        cases j with
        | zero =>
          rintro _ _ ⟨⟩ ⟨⟩
          exact ⟨hnarrow, hwide⟩
        | succ j => exact hwidens j (Nat.lt_of_succ_lt_succ hj)
      · next hover =>
        refine ⟨0, hzero _ _, ?_, rfl⟩
        rintro _ _ ⟨⟩ ⟨⟩
        exact width_of_not_overflows hover

/-! ### Lists of the same length field -/

/-- The list with other entries under the same length field. -/
def withEntries (p : Packed) (es : Array Entry) : Packed where
  entries := es
  lengthField := p.lengthField
  size := totalSize es.toList + envelopeSize
  size_eq := Nat.add_comm _ _

/-- The list with entry number `j` set behind an entry of length `before`. -/
def relinkIdx (p : Packed) (j before : Nat) (h : j < p.entries.size) : Packed :=
  p.withEntries (p.entries.set j (p.entries[j].relink before))

/-- **The list mended behind entry number `k`**, whose size has changed. -/
def mend (p : Packed) (k : Nat) : Packed :=
  match p.entries[k]? with
  | some e => p.withEntries (repairFrom p.entries (k + 1) e.size 0).1
  | none => p

@[simp] theorem lengthField_mend (p : Packed) (k : Nat) :
    (p.mend k).lengthField = p.lengthField := by
  unfold mend
  split <;> rfl

/-- What is mended is what stands behind the entry. -/
theorem toList_mend (hk : k < p.entries.size) :
    (p.mend k).entries.toList =
      p.entries.toList.take (k + 1) ++
        repair p.entries[k].size (p.entries.toList.drop (k + 1)) := by
  rw [mend, Array.getElem?_eq_getElem hk]
  exact toList_repairFrom p.entries (k + 1) p.entries[k].size 0

theorem mend_eq {q : Packed} (hk : k < p.entries.size) (hfield : q.lengthField = p.lengthField)
    (hentries : q.entries.toList = p.entries.toList.take (k + 1) ++
      repair p.entries[k].size (p.entries.toList.drop (k + 1))) : p.mend k = q := by
  rw [← toList_mend hk] at hentries
  exact ext_entries (Array.toList_inj.mp hentries.symm) (by rw [lengthField_mend, hfield])

/-- Mending never makes a list shorter. -/
theorem size_le_mend (p : Packed) (k : Nat) : p.size ≤ (p.mend k).size := by
  unfold mend
  split
  · next e _ =>
    have htotal := totalSize_repairFrom p.entries (k + 1) e.size 0
    have hold := p.size_eq
    have hnew := (p.withEntries (repairFrom p.entries (k + 1) e.size 0).1).size_eq
    simp only [withEntries] at hnew ⊢
    omega
  · exact Nat.le_refl _

@[simp] theorem size_entries_mend (p : Packed) (k : Nat) :
    (p.mend k).entries.size = p.entries.size := by
  rcases Nat.lt_or_ge k p.entries.size with hk | hk
  · have hlen := congrArg List.length (toList_mend hk)
    simp only [Array.length_toList, List.length_append, List.length_take, length_repair,
      List.length_drop] at hlen
    omega
  · rw [mend, Array.getElem?_eq_none hk]

/-! ### One step at a time -/

/-- The entry behind number `k` and those behind that one. -/
theorem drop_succ (hk : k + 1 < p.entries.size) :
    p.entries.toList.drop (k + 1) = p.entries[k + 1] :: p.entries.toList.drop (k + 2) := by
  rw [List.drop_eq_getElem_cons (by simpa using hk), Array.getElem_toList]

/-- Behind the last entry there is nothing to mend. -/
theorem mend_of_last (hk : k + 1 = p.entries.size) : p.mend k = p := by
  refine mend_eq (by omega) rfl ?_
  rw [List.drop_of_length_le (by simp [hk]), repair_nil, List.append_nil,
    List.take_of_length_le (by simp [hk])]

/-- Nor is there where the link is right. -/
theorem mend_of_len_eq (hk : k + 1 < p.entries.size)
    (hlen : p.entries[k + 1].link.len = p.entries[k].size) : p.mend k = p := by
  refine mend_eq (by omega) rfl ?_
  rw [drop_succ hk, repair, if_pos hlen, ← drop_succ hk, List.take_append_drop]

theorem toList_relinkIdx {before : Nat} (hk : k < p.entries.size) :
    (p.relinkIdx k before hk).entries.toList =
      p.entries.toList.take k ++
        p.entries[k].relink before :: p.entries.toList.drop (k + 1) := by
  rw [relinkIdx, withEntries, Array.toList_set, List.set_eq_take_append_cons_drop,
    if_pos (by simpa using hk)]

/-- A link that is wide enough is set, and that is all. -/
theorem mend_of_not_overflows (hk : k + 1 < p.entries.size)
    (hlen : p.entries[k + 1].link.len ≠ p.entries[k].size)
    (hover : ¬ p.entries[k + 1].link.Overflows p.entries[k].size) :
    p.mend k = p.relinkIdx (k + 1) p.entries[k].size hk := by
  refine mend_eq (by omega) rfl ?_
  rw [drop_succ hk, repair, if_neg hlen, if_neg hover, toList_relinkIdx]

/-- **A link that has to widen** leaves the list to be mended behind its own entry. -/
theorem mend_of_overflows (hk : k + 1 < p.entries.size)
    (hlen : p.entries[k + 1].link.len ≠ p.entries[k].size)
    (hover : p.entries[k + 1].link.Overflows p.entries[k].size) :
    p.mend k = (p.relinkIdx (k + 1) p.entries[k].size hk).mend (k + 1) := by
  have hsize : k + 1 < (p.relinkIdx (k + 1) p.entries[k].size hk).entries.size := by
    simpa [relinkIdx, withEntries] using hk
  have hentry : (p.relinkIdx (k + 1) p.entries[k].size hk).entries[k + 1] =
      p.entries[k + 1].relink p.entries[k].size := by
    simp [relinkIdx, withEntries]
  have hlength : (p.entries.toList.take (k + 1)).length = k + 1 := by
    simp only [List.length_take, Array.length_toList]
    omega
  have hgone : (p.entries.toList.take (k + 1)).drop (k + 1 + 1) = [] :=
    List.drop_of_length_le (by omega)
  refine mend_eq (by omega) (lengthField_mend _ _) ?_
  rw [toList_mend hsize, hentry, toList_relinkIdx, drop_succ hk, repair, if_neg hlen, if_pos hover,
    List.take_append, List.drop_append, hlength, hgone]
  simp [List.take_take]

/-! ### What comes of it -/

/-- Every link is right, except perhaps that of the entry behind number `k`. -/
structure LinkedBut (p : Packed) (k : Nat) : Prop where
  /-- The links up to that of entry number `k`. -/
  front : Linked 0 (p.entries.toList.take (k + 1))
  /-- The links behind, of which the first may record any length. -/
  back : ∃ elsewhere, Linked elsewhere (p.entries.toList.drop (k + 1))

/-- `q` is `p` with the links behind entry number `k` put right. -/
structure Mends (p : Packed) (k : Nat) (q : Packed) : Prop where
  /-- The blob passes all checks. -/
  accepted : ofBytes q.toBytes = .ok q
  /-- The length field is the same. -/
  lengthField_eq : q.lengthField = p.lengthField
  /-- The entries keep their encodings and payloads. -/
  kept : List.Forall₂ Entry.Relinked p.entries.toList q.entries.toList
  /-- The entries up to number `k` keep their links as well. -/
  take_eq : q.entries.toList.take (k + 1) = p.entries.toList.take (k + 1)
  /-- Nothing is changed between the header and the field behind entry number `k`. -/
  front : SameFront p q (k + 1)
  /-- From there on fields widen, each of them once and by four bytes, up to the first one that
  does not have to. Behind that one nothing is changed. -/
  stops : ∃ n, StopsAfter (p.entries.toList.drop (k + 1)) (q.entries.toList.drop (k + 1)) n
  /-- The blob grows by four bytes for each field that widens. -/
  length_toBytes : q.toBytes.length =
    p.toBytes.length + 4 * widened p.entries.toList q.entries.toList

/-- **A list that is wrong at one link is mended**, however far the repair has to go. -/
theorem LinkedBut.mends (h : p.LinkedBut k) (hk : k < p.entries.size) (hcounted : p.Counted)
    (hsize : (p.mend k).size < sizeLimit) : p.Mends k (p.mend k) := by
  have hold : p.size < sizeLimit := Nat.lt_of_le_of_lt (size_le_mend p k) hsize
  have hroom : ∀ e ∈ p.entries.toList, e.size + 4 < sizeLimit := fun e he =>
    size_add_four_lt hold he
  have hbefore : p.entries[k].size < sizeLimit := by
    have := hroom p.entries[k] (Array.getElem_mem_toList hk)
    omega
  have hend : endSize 0 (p.entries.toList.take (k + 1)) = p.entries[k].size := by
    rw [List.take_succ_eq_append_getElem (by simpa using hk), endSize_append]
    simp
  have hlength : (p.entries.toList.take (k + 1)).length = k + 1 := by
    simp only [List.length_take, Array.length_toList]
    omega
  have hkept : List.Forall₂ Entry.Relinked p.entries.toList (p.mend k).entries.toList := by
    have hback : List.Forall₂ Entry.Relinked (p.entries.toList.drop (k + 1)) _ :=
      relinked_repair hbefore fun e he => hroom e (List.mem_of_mem_drop he)
    rw [toList_mend hk]
    simpa using List.rel_append (relinked_refl (p.entries.toList.take (k + 1))) hback
  have hlinked : Linked 0 (p.mend k).entries.toList := by
    obtain ⟨elsewhere, hback⟩ := h.back
    have htotal := totalSize_lt hsize
    rw [toList_mend hk, totalSize_append] at htotal
    rw [toList_mend hk, linked_append, hend]
    exact ⟨h.front, linked_repair hback hbefore (by omega)⟩
  have htake : (p.mend k).entries.toList.take (k + 1) = p.entries.toList.take (k + 1) := by
    rw [toList_mend hk, List.take_left' hlength]
  refine ⟨ofBytes_toBytes ⟨hlinked, ?_, hsize⟩, lengthField_mend p k, hkept, htake, .of_take htake,
    ?_, ?_⟩
  · rw [Counted, lengthField_mend, size_entries_mend]
    exact hcounted
  · obtain ⟨n, hn⟩ := exists_stop p.entries[k].size (p.entries.toList.drop (k + 1))
    exact ⟨n, by rwa [toList_mend hk, List.drop_left' hlength]⟩
  · have hold := p.size_eq
    rw [length_toBytes, length_toBytes, size_of_relinked hkept]
    omega

end Packed

end UnrolledList
