import UnrolledList.Packed.Cursor
import UnrolledList.Proofs.Packed.Validity

/-!
# Packed lists that can be reached

Whatever is done to a packed list, it stays well formed as long as the header can tell its
size (`UnrolledList.Packed.wellFormed_of_reachable`). For the links this is the work of
`UnrolledList.Packed.linked_repair`; what is left for this file is the **length field**.

## The length field

Sixteen bits count the entries up to 65534. The field 65535 says that the entries have to
be counted, and every change respects it in its own way:

* a push or an insertion adds one, so the field may become 65535 but never passes it;
* a removal takes nothing away from a field that no longer counts, however few entries
  are left;
* joining two lists starts afresh from the true number of entries, so a list that counts
  again may come of two that do not.

All three keep `UnrolledList.Packed.Counted`, and with it the number of entries that
`UnrolledList.Packed.length` tells.
-/

namespace UnrolledList

namespace Packed

/-! ### The length field -/

theorem toNat_saturated : saturated.toNat = 65535 := rfl

/-- Counting up stays right, also where it ends. -/
theorem toNat_countUp {field : UInt16} {n : Nat} (h : field < saturated → field.toNat = n)
    (hup : countUp field < saturated) : (countUp field).toNat = n + 1 := by
  unfold countUp at hup ⊢
  split at hup
  · next hlt =>
    have hfield := UInt16.lt_iff_toNat_lt.mp hlt
    have hone : (1 : UInt16).toNat = 1 := rfl
    rw [toNat_saturated] at hfield
    rw [if_pos hlt, UInt16.toNat_add, hone, ← h hlt]
    omega
  · contradiction

/-- Counting down stays right, and does not begin anew. -/
theorem toNat_countDown {field : UInt16} {n gone : Nat}
    (h : field < saturated → field.toNat = n) (hdown : countDown field gone < saturated) :
    (countDown field gone).toNat = n - gone := by
  unfold countDown at hdown ⊢
  split at hdown
  · next hlt =>
    have hfield := field.toNat_lt
    rw [if_pos hlt, UInt16.toNat_ofNat', ← h hlt]
    omega
  · contradiction

theorem counted_push {p : Packed} (h : p.Counted) (s : Bytes) : (p.push s).Counted := by
  intro hup
  have hsize : (p.push s).entries.size = p.entries.size + 1 := Array.size_push _
  rw [hsize]
  exact toNat_countUp h hup

/-- An insertion where there is no entry is a push. -/
theorem insertIdx_of_size_le {p : Packed} {k : Nat} (hk : p.entries.size ≤ k) (s : Bytes) :
    p.insertIdx k s = p.push s := by
  obtain ⟨entries, lengthField, size, size_eq⟩ := p
  exact dif_neg (Nat.not_lt.mpr hk)

/-- An insertion makes one entry more, wherever it is. -/
theorem size_insertIdx (p : Packed) (k : Nat) (s : Bytes) :
    (p.insertIdx k s).entries.size = p.entries.size + 1 := by
  rcases Nat.lt_or_ge k p.entries.size with hk | hk
  · have hlen := congrArg List.length (toList_entries_insertIdx p hk s)
    simp only [Array.length_toList, List.length_append, List.length_take, List.length_cons,
      length_repair, List.length_drop] at hlen
    omega
  · rw [insertIdx_of_size_le hk]
    exact Array.size_push _

theorem lengthField_insertIdx (p : Packed) (k : Nat) (s : Bytes) :
    (p.insertIdx k s).lengthField = countUp p.lengthField := by
  obtain ⟨entries, lengthField, size, size_eq⟩ := p
  simp only [insertIdx]
  split <;> rfl

theorem counted_insertIdx {p : Packed} (h : p.Counted) (k : Nat) (s : Bytes) :
    (p.insertIdx k s).Counted := by
  intro hup
  rw [lengthField_insertIdx] at hup ⊢
  rw [size_insertIdx]
  exact toNat_countUp h hup

/-- A removal that finds nothing to remove changes nothing. -/
theorem eraseIdx_of_available_eq_zero {p : Packed} {k num : Nat}
    (h : p.available k num = 0) : p.eraseIdx k num = p := by
  obtain ⟨entries, lengthField, size, size_eq⟩ := p
  simp only [available] at h
  simp [eraseIdx, h]

theorem size_entries_eraseIdx (p : Packed) (k num : Nat) :
    (p.eraseIdx k num).entries.size = p.entries.size - p.available k num := by
  rcases Nat.eq_zero_or_pos (p.available k num) with hnone | hsome
  · rw [eraseIdx_of_available_eq_zero hnone, hnone, Nat.sub_zero]
  · simp only [available] at hsome ⊢
    have hentries := toList_entries_eraseIdx p (show k < p.entries.size by omega)
      (show 0 < num by omega)
    have hlen := congrArg List.length hentries
    simp only [Array.length_toList, List.length_append, List.length_take, length_repair,
      List.length_drop] at hlen
    omega

theorem lengthField_eraseIdx {p : Packed} {k num : Nat} (h : 0 < p.available k num) :
    (p.eraseIdx k num).lengthField = countDown p.lengthField (p.available k num) := by
  obtain ⟨entries, lengthField, size, size_eq⟩ := p
  simp only [available] at h
  simp [eraseIdx, h, available]

theorem counted_eraseIdx {p : Packed} (h : p.Counted) (k num : Nat) :
    (p.eraseIdx k num).Counted := by
  rcases Nat.eq_zero_or_pos (p.available k num) with hnone | hsome
  · rwa [eraseIdx_of_available_eq_zero hnone]
  · intro hdown
    rw [lengthField_eraseIdx hsome] at hdown ⊢
    rw [size_entries_eraseIdx]
    exact toNat_countDown h hdown

/-- A join counts afresh. -/
theorem lengthField_append {p q : Packed} (hp : p.isEmpty = false) (hq : q.isEmpty = false) :
    (p ++ q).lengthField = UInt16.ofNat (min (p.length + q.length) 65535) := by
  change (append p q).lengthField = _
  simp [append, hp, hq]

theorem counted_append {p q : Packed} (hp : p.Counted) (hq : q.Counted) : (p ++ q).Counted := by
  rcases hpe : p.isEmpty with _ | _
  · rcases hqe : q.isEmpty with _ | _
    · have hsize : (p ++ q).entries.size = p.entries.size + q.entries.size := by
        have hlen := congrArg List.length (toList_entries_append p q hpe hqe)
        rw [List.length_append, length_repair] at hlen
        exact hlen
      have hlength := length_eq_iff.mpr hp
      have hlength' := length_eq_iff.mpr hq
      intro hlt
      have htoNat := UInt16.lt_iff_toNat_lt.mp hlt
      rw [toNat_saturated] at htoNat
      rw [lengthField_append hpe hqe, UInt16.toNat_ofNat'] at htoNat ⊢
      omega
    · rwa [append_of_isEmpty_right hpe hqe]
  · rwa [append_of_isEmpty_left hpe]

/-! ### Changes that only add -/

/-- An insertion makes a list longer, whatever has to be repaired. -/
theorem size_le_insertIdx (p : Packed) (k : Nat) (s : Bytes) :
    p.size ≤ (p.insertIdx k s).size := by
  obtain ⟨entries, lengthField, size, size_eq⟩ := p
  simp only [insertIdx]
  split
  · simp only
    omega
  · exact Nat.le_add_right _ _

theorem envelopeSize_le_size (p : Packed) : envelopeSize ≤ p.size := by
  rw [p.size_eq]
  exact Nat.le_add_right _ _

/-- Two lists that are joined lose one envelope between them and nothing else. -/
theorem size_add_size_le_append (p q : Packed) :
    p.size + q.size ≤ (p ++ q).size + envelopeSize := by
  have hempty : ∀ r : Packed, r.isEmpty = true → r.size = envelopeSize := by
    intro r hr
    rw [r.size_eq, entries_of_isEmpty hr, totalSize_nil, Nat.add_zero]
  change _ ≤ (append p q).size + envelopeSize
  unfold append
  split
  · next hp => exact Nat.le_of_eq (by rw [hempty p hp, Nat.add_comm])
  · split
    · next hq => exact Nat.le_of_eq (by rw [hempty q hq])
    · simp only
      omega

/-! ### Changes keep a list well formed -/

namespace WellFormed

theorem push {p : Packed} (h : p.WellFormed) {s : Bytes} (hsize : (p.push s).size < sizeLimit) :
    (p.push s).WellFormed where
  linked := linked_push h.linked h.size_lt s
  counted := counted_push h.counted s
  size_lt := hsize

theorem insertIdx {p : Packed} (h : p.WellFormed) {k : Nat} {s : Bytes}
    (hsize : (p.insertIdx k s).size < sizeLimit) : (p.insertIdx k s).WellFormed := by
  rcases Nat.lt_or_ge k p.entries.size with hk | hk
  · exact ⟨linked_insertIdx h.linked hk hsize, counted_insertIdx h.counted k s, hsize⟩
  · rw [insertIdx_of_size_le hk] at hsize ⊢
    exact h.push hsize

theorem pushFront {p : Packed} (h : p.WellFormed) {s : Bytes}
    (hsize : (p.pushFront s).size < sizeLimit) : (p.pushFront s).WellFormed :=
  h.insertIdx hsize

theorem eraseIdx {p : Packed} (h : p.WellFormed) {k num : Nat}
    (hsize : (p.eraseIdx k num).size < sizeLimit) : (p.eraseIdx k num).WellFormed where
  linked := linked_eraseIdx h.linked hsize
  counted := counted_eraseIdx h.counted k num
  size_lt := hsize

theorem eraseRange {p : Packed} (h : p.WellFormed) {i : Int} {num : Nat}
    (hsize : (p.eraseRange i num).1.size < sizeLimit) : (p.eraseRange i num).1.WellFormed := by
  unfold Packed.eraseRange at hsize ⊢
  split at hsize
  · exact h
  · exact h.eraseIdx hsize

theorem append {p q : Packed} (hp : p.WellFormed) (hq : q.WellFormed)
    (hsize : (p ++ q).size < sizeLimit) : (p ++ q).WellFormed where
  linked := linked_append_packed hp.linked hq.linked hsize
  counted := counted_append hp.counted hq.counted
  size_lt := hsize

end WellFormed

/-! ### Reachability -/

/-- The packed lists that come of a new one and of accepted blobs by changes after which
the header can tell the size. -/
inductive Reachable : Packed → Prop where
  /-- A new list. -/
  | empty : Reachable empty
  /-- A blob that was accepted. -/
  | ofBytes {blob : Bytes} {p : Packed} : ofBytes blob = .ok p → Reachable p
  /-- A string at the head. -/
  | pushFront {p : Packed} (s : Bytes) :
      Reachable p → (p.pushFront s).size < sizeLimit → Reachable (p.pushFront s)
  /-- A string at the tail. -/
  | push {p : Packed} (s : Bytes) :
      Reachable p → (p.push s).size < sizeLimit → Reachable (p.push s)
  /-- A string before an entry or at the end marker. -/
  | insertIdx {p : Packed} {k : Nat} (s : Bytes) :
      Reachable p → k ≤ p.entries.size → (p.insertIdx k s).size < sizeLimit →
        Reachable (p.insertIdx k s)
  /-- An entry removed. -/
  | eraseIdx {p : Packed} {k : Nat} :
      Reachable p → k < p.entries.size → (p.eraseIdx k 1).size < sizeLimit →
        Reachable (p.eraseIdx k 1)
  /-- A range of entries removed. -/
  | eraseRange {p : Packed} (i : Int) (num : Nat) :
      Reachable p → (p.eraseRange i num).1.size < sizeLimit → Reachable (p.eraseRange i num).1
  /-- Two lists joined. -/
  | append {p q : Packed} :
      Reachable p → Reachable q → (p ++ q).size < sizeLimit → Reachable (p ++ q)

/-- **Every packed list that can be reached is well formed.** -/
theorem wellFormed_of_reachable {p : Packed} (h : Reachable p) : p.WellFormed := by
  induction h with
  | empty => exact wellFormed_empty
  | ofBytes hblob => exact (ofBytes_eq_ok_iff.mp hblob).2
  | pushFront s _ hsize ih => exact ih.pushFront hsize
  | push s _ hsize ih => exact ih.push hsize
  | insertIdx s _ _ hsize ih => exact ih.insertIdx hsize
  | eraseIdx _ _ hsize ih => exact ih.eraseIdx hsize
  | eraseRange i num _ hsize ih => exact ih.eraseRange hsize
  | append _ _ hsize ihp ihq => exact ihp.append ihq hsize

/-- Every packed list that can be reached passes all checks of the reader, which gives it
back as it was, and knows its number of entries. -/
theorem reachable_accepted {p : Packed} (h : Reachable p) :
    ofBytes p.toBytes = .ok p ∧ p.length = p.entries.size :=
  have hp := wellFormed_of_reachable h
  ⟨ofBytes_toBytes hp, length_eq_iff.mpr hp.counted⟩

/-- A list of one string under a length field that does not count. -/
def uncounted : Packed where
  entries := #[.ofBytes 0 [97]]
  lengthField := saturated
  size := 14
  size_eq := rfl

theorem ofBytes_uncounted :
    ofBytes [14, 0, 0, 0, 10, 0, 0, 0, 255, 255, 0, 1, 97, 255] = .ok uncounted :=
  ofBytes_eq_ok_iff.mpr ⟨by decide, ⟨by decide, trivial⟩, by unfold Counted; decide, by decide⟩

end Packed

end UnrolledList
