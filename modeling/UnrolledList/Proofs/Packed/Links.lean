import UnrolledList.Packed.Edit
import UnrolledList.Proofs.Packed.Codec

/-!
# Entries that are linked

A list of entries is **linked** behind an entry of length `before`
(`UnrolledList.Packed.Linked`) if every back link records the length of the entry before
it. This file shows that each of the four changes to a packed list leaves it linked: what
is put in or left behind at the cut has the right link to begin with, and the repair
behind the cut does the rest.

The one lemma with an argument in it is `UnrolledList.Packed.linked_repair`. A repair is
given entries of which **only the first can have a wrong link**, and it may stop at the
first field that did not have to grow, because the entry behind that field has kept its
size. All that has to be supplied is that no entry becomes longer than a link can record,
which a bound on the size of the whole gives.
-/

namespace UnrolledList

/-! ### What a link can record -/

namespace Link

theorem len_ofLen {n : Nat} (h : n < Packed.sizeLimit) : (ofLen n).len = n := by
  unfold ofLen
  split
  · rfl
  · rw [len, UInt32.toNat_ofNat']
    exact Nat.mod_eq_of_lt h

/-- A link records every length of 32 bits, whatever its width was. -/
theorem len_record {n : Nat} (link : Link) (h : n < Packed.sizeLimit) :
    (link.record n).len = n := by
  cases link with
  | narrow len => exact len_ofLen h
  | wide len =>
    rw [record, Link.len, UInt32.toNat_ofNat']
    exact Nat.mod_eq_of_lt h

end Link

theorem Entry.len_link_relink {n : Nat} (e : Entry) (h : n < Packed.sizeLimit) :
    (e.relink n).link.len = n :=
  e.link.len_record h

/-- An entry that a packed list has room for can be written. -/
theorem Entry.writable_of_size_lt {e : Entry} (h : e.size < Packed.sizeLimit) : e.Writable := by
  obtain ⟨link, body⟩ := e
  cases body with
  | text t =>
    simp only [size, Body.size, Packed.sizeLimit] at h
    simp only [Writable, Body.Writable]
    omega
  | number n => trivial

namespace Packed

theorem size_le_totalSize {e : Entry} {es : List Entry} (h : e ∈ es) : e.size ≤ totalSize es := by
  induction es with
  | nil => contradiction
  | cons e' es ih =>
    rw [totalSize_cons]
    rcases List.mem_cons.mp h with rfl | h
    · omega
    · have := ih h
      omega

theorem length_le_totalSize (es : List Entry) : es.length ≤ totalSize es := by
  induction es with
  | nil => exact Nat.zero_le _
  | cons e es ih =>
    have := e.size_pos
    rw [List.length_cons, totalSize_cons]
    omega

/-! ### Linked entries -/

/-- Every link records the length of the entry before, the first one the length
`before`. -/
def Linked (before : Nat) : List Entry → Prop
  | [] => True
  | e :: es => e.link.len = before ∧ Linked e.size es

@[simp] theorem linked_nil (before : Nat) : Linked before [] := trivial

@[simp] theorem linked_cons {before : Nat} {e : Entry} {es : List Entry} :
    Linked before (e :: es) ↔ e.link.len = before ∧ Linked e.size es := Iff.rfl

/-- The length of the last entry of some that stand behind an entry of length
`before`. -/
def endSize (before : Nat) : List Entry → Nat
  | [] => before
  | e :: es => endSize e.size es

@[simp] theorem endSize_nil (before : Nat) : endSize before [] = before := rfl

@[simp] theorem endSize_cons (before : Nat) (e : Entry) (es : List Entry) :
    endSize before (e :: es) = endSize e.size es := rfl

@[simp] theorem linked_append {before : Nat} {es fs : List Entry} :
    Linked before (es ++ fs) ↔ Linked before es ∧ Linked (endSize before es) fs := by
  induction es generalizing before with
  | nil => simp
  | cons e es ih => simp [ih, and_assoc]

theorem endSize_append (before : Nat) (es fs : List Entry) :
    endSize before (es ++ fs) = endSize (endSize before es) fs := by
  induction es generalizing before with
  | nil => rfl
  | cons e es ih => exact ih e.size

theorem lastSize_eq (es : Array Entry) : lastSize es = endSize 0 es.toList := by
  obtain ⟨es⟩ := es
  rw [lastSize, List.back?_toArray]
  rcases List.eq_nil_or_concat es with rfl | ⟨es, e, rfl⟩
  · rfl
  · simp [endSize_append]

/-- The last entry is no longer than all of them. -/
theorem endSize_zero_le (es : List Entry) : endSize 0 es ≤ totalSize es := by
  rcases List.eq_nil_or_concat es with rfl | ⟨es, e, rfl⟩
  · simp
  · simp [endSize_append]

/-- A link tells the length of what stands before it. -/
theorem Linked.len_link {es : List Entry} (h : Linked 0 es) {k : Nat} (hk : k < es.length) :
    es[k].link.len = endSize 0 (es.take k) := by
  rw [← List.take_append_drop k es, linked_append] at h
  have hback := h.2
  rw [List.drop_eq_getElem_cons hk, linked_cons] at hback
  exact hback.1

theorem Linked.take {before : Nat} {es : List Entry} (h : Linked before es) (k : Nat) :
    Linked before (es.take k) := by
  rw [← List.take_append_drop k es, linked_append] at h
  exact h.1

/-- What is left behind a cut is linked, only not behind what stands there now. -/
theorem Linked.drop {before : Nat} {es : List Entry} (h : Linked before es) (k : Nat) :
    Linked (endSize before (es.take k)) (es.drop k) := by
  rw [← List.take_append_drop k es, linked_append] at h
  simpa using h.2

/-! ### Repairs -/

/-- **A repair links what was linked elsewhere**: of the entries it is given only the first
can have a wrong link, and where it stops the lengths are again those that the links
record. -/
theorem linked_repair {before elsewhere : Nat} {es : List Entry} (h : Linked elsewhere es)
    (hbefore : before < sizeLimit) (hsize : totalSize (repair before es) < sizeLimit) :
    Linked before (repair before es) := by
  induction es generalizing before elsewhere with
  | nil => trivial
  | cons e es ih =>
    rw [repair] at hsize ⊢
    split
    · next hlen => exact ⟨hlen, h.2⟩
    · next hlen =>
      rw [if_neg hlen] at hsize
      split
      · next hover =>
        rw [if_pos hover, totalSize_cons] at hsize
        exact ⟨e.len_link_relink hbefore, ih h.2 (by omega) (by omega)⟩
      · next hover =>
        rw [linked_cons, Entry.size_relink_of_not_overflows hover]
        exact ⟨e.len_link_relink hbefore, h.2⟩

/-! ### Changes -/

theorem totalSize_lt {p : Packed} (h : p.size < sizeLimit) :
    totalSize p.entries.toList < sizeLimit := by
  have := p.size_eq
  omega

theorem entries_of_isEmpty {p : Packed} (h : p.isEmpty = true) : p.entries.toList = [] := by
  rw [Array.toList_eq_nil_iff]
  exact Array.isEmpty_iff.mp h

/-- Of two lists the second is the join if the first is empty. -/
theorem append_of_isEmpty_left {p q : Packed} (h : p.isEmpty = true) : p ++ q = q := by
  change append p q = q
  rw [append, if_pos h]

/-- The first list is the join if only the second is empty. -/
theorem append_of_isEmpty_right {p q : Packed} (h : p.isEmpty = false) (hq : q.isEmpty = true) :
    p ++ q = p := by
  change append p q = p
  rw [append, if_neg (by simp [h]), if_pos hq]

/-- A new entry at the tail records the length of the one that was last. -/
theorem linked_push {p : Packed} (h : Linked 0 p.entries.toList) (hsize : p.size < sizeLimit)
    (s : Bytes) : Linked 0 (p.push s).entries.toList := by
  have hlast : endSize 0 p.entries.toList < sizeLimit :=
    Nat.lt_of_le_of_lt (endSize_zero_le _) (totalSize_lt hsize)
  rw [toList_entries_push, linked_append, lastSize_eq]
  exact ⟨h, Link.len_ofLen hlast, trivial⟩

/-- A new entry elsewhere takes over a link that was right, and what stands behind it is
repaired. -/
theorem linked_insertIdx {p : Packed} (h : Linked 0 p.entries.toList) {k : Nat} {s : Bytes}
    (hk : k < p.entries.size) (hsize : (p.insertIdx k s).size < sizeLimit) :
    Linked 0 (p.insertIdx k s).entries.toList := by
  have htotal := totalSize_lt hsize
  rw [toList_entries_insertIdx p hk s] at htotal ⊢
  have hlen : p.entries[k].link.len = endSize 0 (p.entries.toList.take k) :=
    h.len_link (by simpa using hk)
  have hfront := endSize_zero_le (p.entries.toList.take k)
  rw [totalSize_append, totalSize_cons] at htotal
  rw [hlen] at htotal ⊢
  rw [linked_append, linked_cons]
  exact ⟨h.take k, Link.len_ofLen (by omega), linked_repair (h.drop k) (by omega) (by omega)⟩

/-- The entry behind a gap takes over a link that was right. -/
theorem linked_eraseIdx {p : Packed} (h : Linked 0 p.entries.toList) {k num : Nat}
    (hsize : (p.eraseIdx k num).size < sizeLimit) :
    Linked 0 (p.eraseIdx k num).entries.toList := by
  rcases Nat.eq_zero_or_pos (min num (p.entries.size - k)) with hnone | hsome
  · simpa [eraseIdx, hnone] using h
  · have hk : k < p.entries.size := by omega
    have htotal := totalSize_lt hsize
    rw [toList_entries_eraseIdx p hk (by omega)] at htotal ⊢
    have hlen : p.entries[k].link.len = endSize 0 (p.entries.toList.take k) :=
      h.len_link (by simpa using hk)
    have hfront := endSize_zero_le (p.entries.toList.take k)
    rw [totalSize_append] at htotal
    rw [hlen] at htotal ⊢
    exact linked_append.mpr
      ⟨h.take k, linked_repair (h.drop (k + num)) (by omega) (by omega)⟩

/-- The entries of a second list are repaired behind the last one of the first. -/
theorem linked_append_packed {p q : Packed} (hp : Linked 0 p.entries.toList)
    (hq : Linked 0 q.entries.toList) (hsize : (p ++ q).size < sizeLimit) :
    Linked 0 (p ++ q).entries.toList := by
  have htotal := totalSize_lt hsize
  rcases hpe : p.isEmpty with _ | _
  · rcases hqe : q.isEmpty with _ | _
    · rw [toList_entries_append p q hpe hqe] at htotal ⊢
      rw [totalSize_append, lastSize_eq] at htotal
      rw [linked_append, lastSize_eq]
      have hlast := endSize_zero_le p.entries.toList
      exact ⟨hp, linked_repair hq (by omega) (by omega)⟩
    · rwa [append_of_isEmpty_right hpe hqe]
  · rwa [append_of_isEmpty_left hpe]

end Packed

end UnrolledList
