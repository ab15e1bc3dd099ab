import UnrolledList.Proofs.Packed.Places
import UnrolledList.Proofs.Packed.Reachable
import UnrolledList.Proofs.Packed.Rendering

/-!
# What a packed list holds

Seen from outside a packed list is a sequence of strings (`UnrolledList.Packed.texts`), and
its operations are those of sequences: a push appends, an insertion divides, a removal cuts
out, a join concatenates. Links and widths do not show, because a repair changes no body
(`UnrolledList.Packed.map_body_repair`); nor does it show whether a string was stored as an
integer (`UnrolledList.Body.render_ofBytes`).

What is read at a place depends on its number alone (`UnrolledList.Packed.render_get?`), and
which number an index leads to is known from `UnrolledList.Proofs.Packed.Places`.
-/

namespace UnrolledList

namespace Packed

/-- What the entries hold, from head to tail. -/
def bodies (p : Packed) : List Body :=
  p.entries.toList.map Entry.body

/-- The strings from head to tail. -/
def texts (p : Packed) : List Bytes :=
  p.values.map Value.render

/-! ### The bodies under changes -/

@[simp] theorem length_bodies (p : Packed) : p.bodies.length = p.entries.size := by
  simp [bodies]

/-- A push is an insertion behind the last entry. -/
theorem insertIdx_size (p : Packed) (s : Bytes) : p.insertIdx p.entries.size s = p.push s :=
  insertIdx_of_size_le (Nat.le_refl _) s

theorem bodies_push (p : Packed) (s : Bytes) : (p.push s).bodies = p.bodies ++ [.ofBytes s] := by
  rw [bodies, toList_entries_push, List.map_append]
  rfl

theorem bodies_insertIdx (p : Packed) {k : Nat} (h : k ≤ p.entries.size) (s : Bytes) :
    (p.insertIdx k s).bodies = p.bodies.take k ++ .ofBytes s :: p.bodies.drop k := by
  rcases Nat.lt_or_eq_of_le h with hlt | rfl
  · rw [bodies, toList_entries_insertIdx p hlt s, List.map_append, List.map_cons, map_body_repair]
    simp [bodies, Entry.ofBytes]
  · rw [insertIdx_size, bodies_push, ← length_bodies, List.take_length, List.drop_length]

theorem bodies_eraseIdx (p : Packed) (k num : Nat) :
    (p.eraseIdx k num).bodies = p.bodies.take k ++ p.bodies.drop (k + num) := by
  have hlen := p.length_bodies
  rcases Nat.eq_zero_or_pos (p.available k num) with hnone | hsome
  · rw [eraseIdx_of_available_eq_zero hnone]
    rw [available] at hnone
    rcases Nat.lt_or_ge k p.entries.size with hk | hk
    · obtain rfl : num = 0 := by omega
      simp
    · rw [List.take_of_length_le (by omega), List.drop_of_length_le (by omega), List.append_nil]
  · rw [available] at hsome
    rw [bodies, toList_entries_eraseIdx p (by omega) (by omega), List.map_append, map_body_repair]
    simp [bodies]

theorem sublist_bodies_eraseIdx (p : Packed) (k num : Nat) :
    (p.eraseIdx k num).bodies.Sublist p.bodies := by
  rw [bodies_eraseIdx]
  calc (p.bodies.take k ++ p.bodies.drop (k + num)).Sublist
        (p.bodies.take k ++ p.bodies.drop k) :=
      (List.drop_sublist_drop_left _ (Nat.le_add_right k num)).append_left _
    _ = p.bodies := List.take_append_drop k _

theorem sublist_bodies_eraseRange (p : Packed) (i : Int) (num : Nat) :
    (p.eraseRange i num).1.bodies.Sublist p.bodies := by
  unfold eraseRange
  split
  · exact .refl _
  · exact p.sublist_bodies_eraseIdx _ _

theorem bodies_of_isEmpty {p : Packed} (h : p.isEmpty = true) : p.bodies = [] := by
  rw [bodies, entries_of_isEmpty h, List.map_nil]

theorem bodies_append (p q : Packed) : (p ++ q).bodies = p.bodies ++ q.bodies := by
  rcases hp : p.isEmpty with _ | _
  · rcases hq : q.isEmpty with _ | _
    · rw [bodies, toList_entries_append p q hp hq, List.map_append, map_body_repair]
      rfl
    · rw [append_of_isEmpty_right hp hq, bodies_of_isEmpty hq, List.append_nil]
  · rw [append_of_isEmpty_left hp, bodies_of_isEmpty hp, List.nil_append]

/-! ### The contents under changes -/

theorem values_eq (p : Packed) : p.values = p.bodies.map Body.value := by
  simp [values, bodies, Entry.value]

theorem texts_eq (p : Packed) : p.texts = p.bodies.map fun b => b.value.render := by
  simp [texts, values_eq]

@[simp] theorem length_texts (p : Packed) : p.texts.length = p.entries.size := by
  simp [texts_eq]

@[simp] theorem texts_empty : empty.texts = [] := rfl

@[simp] theorem texts_push (p : Packed) (s : Bytes) : (p.push s).texts = p.texts ++ [s] := by
  simp [texts_eq, bodies_push]

theorem texts_insertIdx (p : Packed) {k : Nat} (h : k ≤ p.entries.size) (s : Bytes) :
    (p.insertIdx k s).texts = p.texts.take k ++ s :: p.texts.drop k := by
  simp [texts_eq, bodies_insertIdx p h]

@[simp] theorem texts_pushFront (p : Packed) (s : Bytes) :
    (p.pushFront s).texts = s :: p.texts := by
  simpa [pushFront] using texts_insertIdx p (Nat.zero_le _) s

theorem values_eraseIdx (p : Packed) (k num : Nat) :
    (p.eraseIdx k num).values = p.values.take k ++ p.values.drop (k + num) := by
  simp [values_eq, bodies_eraseIdx]

theorem texts_eraseIdx (p : Packed) (k num : Nat) :
    (p.eraseIdx k num).texts = p.texts.take k ++ p.texts.drop (k + num) := by
  simp [texts, values_eraseIdx]

@[simp] theorem texts_append (p q : Packed) : (p ++ q).texts = p.texts ++ q.texts := by
  simp [texts_eq, bodies_append]

/-! ### Places -/

/-- What is read at a place is what stands there. -/
theorem render_get? (p : Packed) (place : Cursor) :
    (p.get? place).map Value.render = p.texts[place.idx]? := by
  simp [get?, entry?, texts, values, Option.map_map]

theorem get?_eq_some {p : Packed} {place : Cursor} {t : Bytes} (h : p.texts[place.idx]? = some t) :
    ∃ v, p.get? place = some v ∧ v.render = t := by
  rw [← render_get?] at h
  exact Option.map_eq_some_iff.mp h

end Packed

end UnrolledList
