import Mathlib.Data.List.Forall2
import UnrolledList.Proofs.Packed.Contents

/-!
# Entries that come to stand elsewhere

After a change of a packed list the entries behind the cut stand behind other entries than
before. Their bodies are the same, and their links record the new lengths **in the old
width, unless that is too narrow**. This is `UnrolledList.Entry.Relinked`, a relation
between the entry before and the entry after.

## What it says about sizes

An entry that is relinked keeps its size, or grows by the four bytes of a field that had to
widen. So the size of all of them follows from the number of such fields
(`UnrolledList.Packed.widened`), and nothing has to be known of how far a repair went.

## One form for three changes

On a list that is linked, an insertion, a removal and a join are all of one form: the
entries in front of the cut, what is put in, and the entries behind the cut, **repaired
behind the last of those in front of them**. The cases in which nothing has to be repaired
(an insertion at the tail, a removal of nothing, a join with an empty list) need not be told
apart, because a repair of what is linked already changes nothing
(`UnrolledList.Packed.repair_of_linked`).
-/

namespace UnrolledList

/-! ### Links -/

namespace Link

/-- To record what is recorded changes nothing. -/
@[simp] theorem record_len (link : Link) : link.record link.len = link := by
  cases link with
  | narrow len => simp [record, Link.len, ofLen]
  | wide len => simp [record, Link.len]

end Link

/-! ### Entries -/

namespace Entry

/-- The entry `f` is the entry `e` behind another one: **the body is kept**, and the link
is widened only if the length that it has to record does not fit. -/
structure Relinked (e f : Entry) : Prop where
  /-- The encoding and the payload are kept. -/
  body_eq : f.body = e.body
  /-- The new length stands in the old field, or in one that had to widen. -/
  link_eq : f.link = e.link.record f.link.len

theorem Relinked.refl (e : Entry) : e.Relinked e where
  body_eq := rfl
  link_eq := (e.link.record_len).symm

theorem relinked_relink (e : Entry) {before : Nat} (h : before < Packed.sizeLimit) :
    e.Relinked (e.relink before) where
  body_eq := rfl
  link_eq := by
    rw [e.len_link_relink h]
    rfl

/-- An entry that is relinked grows only by a field that has to widen. -/
theorem Relinked.size_eq {e f : Entry} (h : e.Relinked f) :
    f.size = e.size + if e.link.Overflows f.link.len then 4 else 0 := by
  obtain ⟨link, body⟩ := f
  obtain ⟨rfl, hlink⟩ := h
  have hf : (⟨link, e.body⟩ : Entry) = e.relink link.len := by
    rw [relink, ← hlink]
  rw [hf]
  split
  · next hover => exact size_relink_of_overflows (by simpa [← hf] using hover)
  · next hover => exact size_relink_of_not_overflows (by simpa [← hf] using hover)

end Entry

namespace Packed

/-! ### Many entries -/

/-- The number of entries of `es` whose links had to widen for them to become those of
`fs`. -/
def widened (es fs : List Entry) : Nat :=
  (es.zip fs).countP fun (e, f) => e.link.Overflows f.link.len

@[simp] theorem widened_nil : widened [] [] = 0 := rfl

theorem widened_cons (e f : Entry) (es fs : List Entry) :
    widened (e :: es) (f :: fs) =
      widened es fs + if e.link.Overflows f.link.len then 1 else 0 := by
  simp [widened, List.countP_cons]

/-- **Four bytes for each field that had to widen**, and nothing else. -/
theorem totalSize_of_relinked {es fs : List Entry} (h : List.Forall₂ Entry.Relinked es fs) :
    totalSize fs = totalSize es + 4 * widened es fs := by
  induction h with
  | nil => rfl
  | cons hhead _ ih =>
    rw [totalSize_cons, totalSize_cons, widened_cons, ih, hhead.size_eq]
    split <;> omega

theorem relinked_refl (es : List Entry) : List.Forall₂ Entry.Relinked es es :=
  List.forall₂_same.mpr fun e _ => .refl e

theorem exists_relinked {es fs : List Entry} (h : List.Forall₂ Entry.Relinked es fs) {k : Nat}
    {e : Entry} (he : es[k]? = some e) : ∃ f, fs[k]? = some f ∧ e.Relinked f := by
  obtain ⟨hlen, hget⟩ := List.forall₂_iff_get.mp h
  obtain ⟨hk, rfl⟩ := List.getElem?_eq_some_iff.mp he
  exact ⟨fs[k], List.getElem?_eq_getElem (hlen ▸ hk), by simpa using hget k hk (hlen ▸ hk)⟩

/-- A repair relinks: it changes no body, and widens no link that is wide enough. -/
theorem relinked_repair {before : Nat} {es : List Entry} (hbefore : before < sizeLimit)
    (hroom : ∀ e ∈ es, e.size + 4 < sizeLimit) :
    List.Forall₂ Entry.Relinked es (repair before es) := by
  induction es generalizing before with
  | nil => exact .nil
  | cons e es ih =>
    rw [repair]
    split
    · exact relinked_refl _
    -- the repair goes on behind this entry only if its size has changed
    · split
      · next hover =>
        have hsize := Entry.size_relink_of_overflows hover
        have hwider : (e.relink before).size < sizeLimit := hsize ▸ hroom e List.mem_cons_self
        exact .cons (e.relinked_relink hbefore)
          (ih hwider fun f hf => hroom f (List.mem_cons_of_mem e hf))
      · exact .cons (e.relinked_relink hbefore) (relinked_refl es)

/-- An entry may widen its link and is still one that a link can tell, because the envelope takes
more than four bytes. -/
theorem size_add_four_lt {p : Packed} (hsize : p.size < sizeLimit) {e : Entry}
    (he : e ∈ p.entries.toList) : e.size + 4 < sizeLimit := by
  have hle := size_le_totalSize he
  rw [p.size_eq, envelopeSize] at hsize
  omega

theorem WellFormed.size_add_four_lt {p : Packed} (h : p.WellFormed) {e : Entry}
    (he : e ∈ p.entries.toList) : e.size + 4 < sizeLimit :=
  Packed.size_add_four_lt h.size_lt he

/-! ### The one form of the three changes -/

/-- There is nothing to repair where every link is right. -/
theorem repair_of_linked {before : Nat} {es : List Entry} (h : Linked before es) :
    repair before es = es := by
  cases es with
  | nil => rfl
  | cons e es => rw [repair, if_pos h.1]

variable {p q : Packed}

/-- The entry that stores `s` at place number `k`. -/
def entryAt (p : Packed) (k : Nat) (s : Bytes) : Entry :=
  .ofBytes (endSize 0 (p.entries.toList.take k)) s

/-- An insertion puts one entry in and repairs what stands behind it. -/
theorem toList_insertIdx_of_linked (h : Linked 0 p.entries.toList) {k : Nat}
    (hk : k ≤ p.entries.size) (s : Bytes) :
    (p.insertIdx k s).entries.toList =
      p.entries.toList.take k ++
        p.entryAt k s :: repair (p.entryAt k s).size (p.entries.toList.drop k) := by
  rcases Nat.lt_or_eq_of_le hk with hlt | rfl
  · have hlen : p.entries[k].link.len = endSize 0 (p.entries.toList.take k) :=
      h.len_link (by simpa using hlt)
    rw [toList_entries_insertIdx p hlt s, hlen, entryAt]
  · rw [insertIdx_size, toList_entries_push, entryAt, ← Array.length_toList, List.take_length,
      List.drop_length, repair_nil, lastSize_eq]

/-- A removal leaves what stands in front of the gap, and repairs what stands behind. -/
theorem toList_eraseIdx_of_linked (h : Linked 0 p.entries.toList) (k num : Nat) :
    (p.eraseIdx k num).entries.toList =
      p.entries.toList.take k ++
        repair (endSize 0 (p.entries.toList.take k)) (p.entries.toList.drop (k + num)) := by
  rcases Nat.eq_zero_or_pos (p.available k num) with hnone | hsome
  · rw [eraseIdx_of_available_eq_zero hnone]
    rw [available] at hnone
    rcases Nat.lt_or_ge k p.entries.size with hk | hk
    -- nothing is asked for, or nothing is there
    · obtain rfl : num = 0 := by omega
      rw [Nat.add_zero, repair_of_linked (h.drop k), List.take_append_drop]
    · rw [List.take_of_length_le (by simpa using hk),
        List.drop_of_length_le (by simp only [Array.length_toList]; omega), repair_nil,
        List.append_nil]
  · rw [available] at hsome
    have hk : k < p.entries.size := by omega
    have hlen : p.entries[k].link.len = endSize 0 (p.entries.toList.take k) :=
      h.len_link (by simpa using hk)
    rw [toList_entries_eraseIdx p hk (by omega), hlen]

/-- A join repairs the second list behind the first. -/
theorem toList_append_of_linked (hq : Linked 0 q.entries.toList) :
    (p ++ q).entries.toList =
      p.entries.toList ++ repair (endSize 0 p.entries.toList) q.entries.toList := by
  rcases hpe : p.isEmpty with _ | _
  · rcases hqe : q.isEmpty with _ | _
    · rw [toList_entries_append p q hpe hqe, lastSize_eq]
    · rw [append_of_isEmpty_right hpe hqe, entries_of_isEmpty hqe, repair_nil, List.append_nil]
  · rw [append_of_isEmpty_left hpe, entries_of_isEmpty hpe, endSize_nil, repair_of_linked hq,
      List.nil_append]

/-! ### The changes relink -/

/-- Without the new entry an insertion leaves what was there, repaired. -/
theorem others_insertIdx (h : Linked 0 p.entries.toList) {k : Nat} (hk : k ≤ p.entries.size)
    (s : Bytes) :
    (p.insertIdx k s).entries.toList.eraseIdx k =
      p.entries.toList.take k ++ repair (p.entryAt k s).size (p.entries.toList.drop k) := by
  have hlen : (p.entries.toList.take k).length = k := by simp [Nat.min_eq_left hk]
  rw [toList_insertIdx_of_linked h hk, List.eraseIdx_append_of_length_le (Nat.le_of_eq hlen), hlen,
    Nat.sub_self, List.eraseIdx_zero, List.tail_cons]

/-- The new entry and the others take what there is. -/
theorem totalSize_insertIdx_of_linked (h : Linked 0 p.entries.toList) {k : Nat}
    (hk : k ≤ p.entries.size) (s : Bytes) :
    totalSize (p.insertIdx k s).entries.toList =
      totalSize ((p.insertIdx k s).entries.toList.eraseIdx k) + (p.entryAt k s).size := by
  rw [others_insertIdx h hk, toList_insertIdx_of_linked h hk, totalSize_append, totalSize_append,
    totalSize_cons]
  omega

theorem relinked_insertIdx (h : p.WellFormed) {k : Nat} (hk : k ≤ p.entries.size) {s : Bytes}
    (hsize : (p.insertIdx k s).size < sizeLimit) :
    List.Forall₂ Entry.Relinked p.entries.toList
      ((p.insertIdx k s).entries.toList.eraseIdx k) := by
  have hnew : (p.entryAt k s).size < sizeLimit := by
    have hlt := totalSize_lt hsize
    rw [totalSize_insertIdx_of_linked h.linked hk] at hlt
    omega
  have hback : List.Forall₂ Entry.Relinked (p.entries.toList.drop k)
      (repair (p.entryAt k s).size (p.entries.toList.drop k)) :=
    relinked_repair hnew fun e he => h.size_add_four_lt (List.mem_of_mem_drop he)
  rw [others_insertIdx h.linked hk]
  simpa using List.rel_append (relinked_refl (p.entries.toList.take k)) hback

/-- A removal relinks what it leaves, **whatever the size becomes**: the length that the
first entry behind the gap has to record was recorded in the list before. -/
theorem relinked_eraseIdx (h : p.WellFormed) (k num : Nat) :
    List.Forall₂ Entry.Relinked (p.entries.toList.take k ++ p.entries.toList.drop (k + num))
      (p.eraseIdx k num).entries.toList := by
  have hbefore : endSize 0 (p.entries.toList.take k) < sizeLimit := by
    have hle := endSize_zero_le (p.entries.toList.take k)
    have hcut := totalSize_take_add_drop p.entries.toList k
    have hlt := totalSize_lt h.size_lt
    omega
  rw [toList_eraseIdx_of_linked h.linked]
  exact List.rel_append (relinked_refl _)
    (relinked_repair hbefore fun e he => h.size_add_four_lt (List.mem_of_mem_drop he))

theorem relinked_append (hp : p.WellFormed) (hq : q.WellFormed) :
    List.Forall₂ Entry.Relinked (p.entries.toList ++ q.entries.toList)
      (p ++ q).entries.toList := by
  have hbefore : endSize 0 p.entries.toList < sizeLimit :=
    Nat.lt_of_le_of_lt (endSize_zero_le _) (totalSize_lt hp.size_lt)
  rw [toList_append_of_linked hq.linked]
  exact List.rel_append (relinked_refl _)
    (relinked_repair hbefore fun e he => hq.size_add_four_lt he)

/-- The size of a list whose entries are relinked. -/
theorem size_of_relinked {es : List Entry}
    (h : List.Forall₂ Entry.Relinked es q.entries.toList) :
    q.size = envelopeSize + totalSize es + 4 * widened es q.entries.toList := by
  rw [q.size_eq, totalSize_of_relinked h, Nat.add_assoc]

end Packed

end UnrolledList
