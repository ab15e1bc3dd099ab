import UnrolledList.Chain.Handle
import UnrolledList.Proofs.Packed.Contents
import UnrolledList.Proofs.Packed.Inside
import UnrolledList.Proofs.Packed.Numerals

/-!
# Comparison and search

An entry is compared with a string without being rendered: a stored string byte by byte, a
stored integer by reading the string as a numeral. This file says that the outcome is **equality
of renderings** all the same (`UnrolledList.Entry.matches_value_iff`), whichever way the entry
came to be stored, because the reader of numerals is the inverse of the writer
(`UnrolledList.Numeral.parse_eq_ok_iff`).

## Searching with a stride

A search looks at an entry, passes over `skip` others, and looks again; it counts the others
down and takes up the count afresh after each look. Seen from outside it looks at the entries
numbered `k`, `k + (skip + 1)`, `k + 2 * (skip + 1)` and so on, and it answers the first of them
that is equal (`UnrolledList.Packed.Finds`). The invariant of the walk is that an entry that
stands `wait` steps before the next look has that look as its own first one
(`UnrolledList.Packed.finds_go`).

In place the search is a loop over positions, and its step is that of every walk; that it does
what the packed list does is `UnrolledList.InPlace.search?_posOfIdx`.
-/

namespace UnrolledList

/-! ### Comparison -/

/-- A stored integer has at most 64 bits. -/
theorem Number.inRange_toInt (x : Number) : Numeral.InRange x.toInt := by
  have hmin : Numeral.minValue = -0x8000000000000000 := rfl
  have hmax : Numeral.maxValue = 0x7FFFFFFFFFFFFFFF := rfl
  unfold Numeral.InRange
  cases x with
  | immediate n =>
    have hn := n.isLt
    simp only [toInt]
    omega
  | word w bits =>
    obtain ⟨hlow, hhigh⟩ := WordWidth.holds_toInt bits
    simp only [toInt]
    cases w <;> simp only [WordWidth.half] at hlow hhigh <;> omega

/-- An integer is matched by its text and by no other. -/
theorem Value.matches_number_iff {n : Int} {s : Bytes} (h : Numeral.InRange n) :
    (number n).Matches s ↔ Numeral.render n = s := by
  have hparse : (number n).Matches s ↔ Numeral.parse s = .ok n := by
    change (Numeral.parse s).toOption = some n ↔ _
    cases Numeral.parse s <;> simp [Except.toOption]
  rw [hparse, Numeral.parse_eq_ok_iff, eq_comm (a := s)]
  exact and_iff_right h

/-- **Comparison is equality of renderings.** -/
theorem Entry.matches_value_iff (e : Entry) (s : Bytes) :
    e.value.Matches s ↔ e.value.render = s := by
  obtain ⟨link, body⟩ := e
  cases body with
  | text t => exact Iff.rfl
  | number x => exact Value.matches_number_iff x.inRange_toInt

namespace Packed

variable {p : Packed} {s : Bytes} {k stride : Nat}

theorem holds_iff (p : Packed) (place : Cursor) (s : Bytes) :
    p.Holds place s ↔ (p.get? place).map Value.render = some s := by
  unfold Holds get?
  cases p.entry? place with
  | none => simp
  | some e => simp [Entry.matches_value_iff]

/-! ### Search -/

/-- Of the entries numbered `k`, `k + stride`, `k + 2 * stride` and so on, the one that comes
`j`-th holds the string `s`, and none before it does. -/
def IsFirst (p : Packed) (s : Bytes) (k stride j : Nat) : Prop :=
  p.texts[k + j * stride]? = some s ∧ ∀ i < j, p.texts[k + i * stride]? ≠ some s

/-- The right answer to the question for the first of these entries. -/
def Finds (p : Packed) (s : Bytes) (k stride : Nat) : Option Cursor → Prop
  | some place => ∃ j, p.IsFirst s k stride j ∧ place = p.cursor (k + j * stride)
  | none => ∀ j, p.texts[k + j * stride]? ≠ some s

theorem finds_of_eq (h : p.texts[k]? = some s) : p.Finds s k stride (some (p.cursor k)) := by
  refine ⟨0, ⟨?_, fun i hi => absurd hi (Nat.not_lt_zero i)⟩, ?_⟩
  · rwa [Nat.zero_mul, Nat.add_zero]
  · rw [Nat.zero_mul, Nat.add_zero]

/-- An entry that does not hold the string does not change the answer. -/
theorem finds_of_ne {r : Option Cursor} (hne : p.texts[k]? ≠ some s)
    (h : p.Finds s (k + stride) stride r) : p.Finds s k stride r := by
  -- the `j`-th look from the next one on is the one numbered `j + 1` from here
  have hshift : ∀ j, k + stride + j * stride = k + (j + 1) * stride := fun j => by
    rw [Nat.succ_mul]
    omega
  have hzero : p.texts[k + 0 * stride]? ≠ some s := by rwa [Nat.zero_mul, Nat.add_zero]
  cases r with
  | none =>
    intro j
    cases j with
    | zero => exact hzero
    | succ j => rw [← hshift]; exact h j
  | some place =>
    obtain ⟨j, ⟨heq, hbefore⟩, hplace⟩ := h
    rw [hshift] at heq hplace
    refine ⟨j + 1, ⟨heq, fun i hi => ?_⟩, hplace⟩
    cases i with
    | zero => exact hzero
    | succ i => rw [← hshift]; exact hbefore i (Nat.lt_of_succ_lt_succ hi)

theorem finds_none_of_size_le (h : p.entries.size ≤ k) : p.Finds s k stride none := by
  intro j
  rw [List.getElem?_eq_none]
  · exact Option.some_ne_none s |>.symm
  · rw [length_texts]
    omega

/-- The cursor that a search makes for the next entry. -/
theorem cursor_succ (p : Packed) (hk : k < p.entries.size) :
    (⟨(p.cursor k).idx + 1, (p.cursor k).pos + p.entries[k].size⟩ : Cursor) = p.cursor (k + 1) := by
  rw [idx_cursor, pos_cursor, cursor, posOfIdx_succ hk]

theorem getElem?_texts (h : k < p.entries.size) :
    p.texts[k]? = some p.entries[k].value.render := by
  have hget := render_get? p (p.cursor k)
  rw [idx_cursor, get?, entry?_cursor, Array.getElem?_eq_getElem h] at hget
  exact hget.symm

/-- A search that has none to pass over looks at the entry where it stands, -/
theorem find?_go_zero (hk : k < p.entries.size) (s : Bytes) (skip : Nat) :
    find?.go s skip (p.cursor k) 0 (p.entries.toList.drop k) =
      if p.entries[k].value.Matches s then some (p.cursor k)
      else find?.go s skip (p.cursor (k + 1)) skip (p.entries.toList.drop (k + 1)) := by
  rw [List.drop_eq_getElem_cons (by simpa using hk), Array.getElem_toList, find?.go,
    p.cursor_succ hk]

/-- and any other goes on to the next one. -/
theorem find?_go_succ (hk : k < p.entries.size) (s : Bytes) (skip wait : Nat) :
    find?.go s skip (p.cursor k) (wait + 1) (p.entries.toList.drop k) =
      find?.go s skip (p.cursor (k + 1)) wait (p.entries.toList.drop (k + 1)) := by
  rw [List.drop_eq_getElem_cons (by simpa using hk), find?.go, Array.getElem_toList,
    p.cursor_succ hk]

/-- **A search that still passes over `wait` entries** finds the first of those that it will
look at. -/
theorem finds_go (p : Packed) (s : Bytes) (skip wait k : Nat) :
    p.Finds s (k + wait) (skip + 1)
      (find?.go s skip (p.cursor k) wait (p.entries.toList.drop k)) := by
  -- each step moves to the next entry, so the induction is on how many are left
  induction hn : p.entries.size - k generalizing k wait with
  | zero =>
    rw [List.drop_of_length_le (by rw [Array.length_toList]; omega)]
    exact finds_none_of_size_le (by omega)
  | succ n ih =>
    have hk : k < p.entries.size := by omega
    cases wait with
    | zero =>
      rw [find?_go_zero hk]
      split
      · next hmatch =>
        refine finds_of_eq ?_
        rw [Nat.add_zero, getElem?_texts hk, (Entry.matches_value_iff _ s).mp hmatch]
      · next hmatch =>
        -- the count starts afresh, and the next look is a whole stride further on
        refine finds_of_ne ?_ ?_
        · rw [Nat.add_zero, getElem?_texts hk, ne_eq, Option.some.injEq]
          rwa [Entry.matches_value_iff] at hmatch
        · have hrest := ih skip (k + 1) (by omega)
          rwa [show k + 1 + skip = k + 0 + (skip + 1) by omega] at hrest
    | succ wait =>
      rw [find?_go_succ hk]
      have hrest := ih wait (k + 1) (by omega)
      rwa [show k + 1 + wait = k + (wait + 1) by omega] at hrest

/-- **A search finds the first entry** of its stride that holds the string. -/
theorem finds_find? (p : Packed) (s : Bytes) (k skip : Nat) :
    p.Finds s k (skip + 1) (p.find? (p.cursor k) s skip) :=
  finds_go p s skip 0 k

/-- There is only one first entry, so the answer tells which it is. -/
theorem find?_eq_some_iff {skip : Nat} {place : Cursor} :
    p.find? (p.cursor k) s skip = some place ↔
      ∃ j, p.IsFirst s k (skip + 1) j ∧ place = p.cursor (k + j * (skip + 1)) := by
  have hfinds := finds_find? p s k skip
  constructor
  · intro h
    rwa [h] at hfinds
  · rintro ⟨j, ⟨heq, hbefore⟩, rfl⟩
    cases hfound : p.find? (p.cursor k) s skip with
    | none =>
      rw [hfound] at hfinds
      exact absurd heq (hfinds j)
    | some place =>
      rw [hfound] at hfinds
      obtain ⟨i, ⟨heq', hbefore'⟩, rfl⟩ := hfinds
      rcases Nat.lt_trichotomy i j with hlt | rfl | hgt
      · exact absurd heq' (hbefore i hlt)
      · rfl
      · exact absurd heq (hbefore' j hgt)

theorem find?_eq_none_iff {skip : Nat} :
    p.find? (p.cursor k) s skip = none ↔ ∀ j, p.texts[k + j * (skip + 1)]? ≠ some s := by
  have hfinds := finds_find? p s k skip
  constructor
  · intro h
    rwa [h] at hfinds
  · intro h
    cases hfound : p.find? (p.cursor k) s skip with
    | none => rfl
    | some place =>
      rw [hfound] at hfinds
      obtain ⟨j, ⟨heq, -⟩, -⟩ := hfinds
      exact absurd heq (h j)

end Packed

namespace InPlace

/-! ### In place -/

/-- Whether the entry at a position has the value `s`. An end marker has no value. -/
def compare? (d : Bytes) (p : Nat) (s : Bytes) : Option Bool := do
  match ← get? d p with
  | none => return false
  | some v => return decide (v.Matches s)

/-- Looks at the entry at a position if there is none to pass over first, and goes on from the
next position. A search that takes more than `fuel` steps has no answer. -/
def search? (d s : Bytes) (skip : Nat) : (fuel wait : Nat) → Option Nat → Option (Option Nat)
  | _, _, none => some none
  | 0, _, some _ => none
  | fuel + 1, 0, some p => do
    if ← compare? d p s then return some p
    else search? d s skip fuel skip (← next? d p)
  | fuel + 1, wait + 1, some p => do
    search? d s skip fuel wait (← next? d p)

/-- The position of the first entry with the value `s`, looking at the entry at a position and
then at every entry that comes after `skip` others. -/
def find? (d : Bytes) (p : Nat) (s : Bytes) (skip : Nat) : Option (Option Nat) := do
  let place := if ← atEnd? d p then none else some p
  search? d s skip d.length 0 place

variable {p : Packed} {k : Nat}

theorem compare?_posOfIdx (h : p.WellFormed) (hk : k ≤ p.entries.size) (s : Bytes) :
    compare? p.toBytes (p.posOfIdx k) s = some (decide (p.Holds (p.cursor k) s)) := by
  rw [compare?, get?_posOfIdx h hk]
  cases hget : p.get? (p.cursor k) with
  | none =>
    have hno : ¬ p.Holds (p.cursor k) s := by
      rintro ⟨v, hv, -⟩
      rw [hget] at hv
      contradiction
    rw [decide_eq_false hno]
    rfl
  | some v =>
    have hiff : v.Matches s ↔ p.Holds (p.cursor k) s := by simp [Packed.Holds, hget]
    exact congrArg some (decide_eq_decide.mpr hiff)

theorem search?_none (d s : Bytes) (skip fuel wait : Nat) :
    search? d s skip fuel wait none = some none := by
  cases fuel <;> cases wait <;> rfl

/-- **The search in place** goes through the entries as the packed list does. -/
theorem search?_posOfIdx (h : p.WellFormed) (s : Bytes) (skip fuel wait : Nat)
    (hk : k < p.entries.size) (hfuel : p.entries.size - k ≤ fuel) :
    search? p.toBytes s skip fuel wait (some (p.posOfIdx k)) =
      some ((Packed.find?.go s skip (p.cursor k) wait (p.entries.toList.drop k)).map
        Cursor.pos) := by
  induction fuel generalizing k wait with
  | zero => omega
  | succ fuel ih =>
    -- what the search does from the next position on, if there is one
    have hrest : ∀ wait,
        search? p.toBytes s skip fuel wait ((p.next? (p.cursor k)).map Cursor.pos) =
          some ((Packed.find?.go s skip (p.cursor (k + 1)) wait
            (p.entries.toList.drop (k + 1))).map Cursor.pos) := fun wait => by
      rw [Packed.next?_cursor]
      by_cases hlast : k + 1 < p.entries.size
      · rw [if_pos hlast]
        exact ih wait hlast (by omega)
      · rw [if_neg hlast, List.drop_of_length_le (by rw [Array.length_toList]; omega)]
        exact search?_none _ _ _ _ _
    have hnext := next?_posOfIdx h (Nat.le_of_lt hk)
    cases wait with
    | zero =>
      have hholds : p.Holds (p.cursor k) s ↔ p.entries[k].value.Matches s := by
        simp [Packed.Holds, Packed.get?, Packed.entry?_cursor, Array.getElem?_eq_getElem hk]
      rw [Packed.find?_go_zero hk]
      simp only [search?, compare?_posOfIdx h (Nat.le_of_lt hk), hnext, hrest, hholds,
        Option.bind_eq_bind, Option.bind_some, decide_eq_true_eq]
      split <;> rfl
    | succ wait =>
      rw [Packed.find?_go_succ hk]
      simp only [search?, hnext, hrest, Option.bind_eq_bind, Option.bind_some]

theorem find?_posOfIdx (h : p.WellFormed) (hk : k < p.entries.size) (s : Bytes) (skip : Nat) :
    find? p.toBytes (p.posOfIdx k) s skip =
      some ((p.find? (p.cursor k) s skip).map Cursor.pos) := by
  have hlen := size_entries_lt_length (p := p)
  have hsearch := search?_posOfIdx h s skip p.toBytes.length 0 hk (by omega)
  simp only [find?, atEnd?_posOfIdx (Nat.le_of_lt hk), decide_eq_false (Nat.ne_of_lt hk),
    Option.bind_eq_bind, Option.bind_some, Bool.false_eq_true, if_false, hsearch]
  rfl

/-! ### Handles -/

/-- A handle that was taken at an entry carries its value. -/
theorem handleAt?_cursor {c : Chain} {b : Block} {id : BlockId} {i : Nat}
    (hblock : c.block i = .ok b) (hid : c.id? i = some id) (hpacked : b.packed = .ok p)
    (hk : k < p.entries.size) (offset : Int) :
    c.handleAt? i (p.cursor k) offset =
      .ok (some ⟨id, p.cursor k, offset, p.entries[k].value, c.stamp⟩) := by
  have hget : p.get? (p.cursor k) = some p.entries[k].value := by
    rw [Packed.get?, Packed.entry?_cursor, Array.getElem?_eq_getElem hk, Option.map_some]
  simp only [Chain.handleAt?, hblock, hpacked, hid, hget, bind, Except.bind, pure, Except.pure,
    Option.bind]

/-! ### Both -/

/-- **Comparison and search on a blob** are equality of renderings. -/
structure Searches (d : Bytes) (p : Packed) : Prop where
  /-- The value of an entry is read in place, and renders as one of the strings of the list. -/
  get_eq : ∀ k < p.entries.size, ∃ v, get? d (p.posOfIdx k) = some (some v) ∧
    p.texts[k]? = some v.render
  /-- An entry compares equal exactly to the string as which it renders, in place, -/
  compare_iff : ∀ k < p.entries.size, ∀ s,
    compare? d (p.posOfIdx k) s = some (decide (p.texts[k]? = some s))
  /-- in the list, -/
  holds_iff : ∀ k < p.entries.size, ∀ s, p.Holds (p.cursor k) s ↔ p.texts[k]? = some s
  /-- and through a handle, in whatever block the list is. -/
  handle_iff : ∀ k < p.entries.size, ∀ (c : Chain) (b : Block) (id : BlockId) (i : Nat)
    (offset : Int), c.block i = .ok b → c.id? i = some id → b.packed = .ok p →
    ∃ handle, c.handleAt? i (p.cursor k) offset = .ok (some handle) ∧
      ∀ s, handle.value.Matches s ↔ p.texts[k]? = some s
  /-- A search in place answers as the list does. -/
  find_eq : ∀ k < p.entries.size, ∀ s skip,
    find? d (p.posOfIdx k) s skip = some ((p.find? (p.cursor k) s skip).map Cursor.pos)
  /-- It finds an entry exactly if that is the first of its stride that renders as the string, -/
  find_some_iff : ∀ k < p.entries.size, ∀ s skip q,
    find? d (p.posOfIdx k) s skip = some (some q) ↔
      ∃ j, p.IsFirst s k (skip + 1) j ∧ q = p.posOfIdx (k + j * (skip + 1))
  /-- and nothing exactly if there is none. -/
  find_none_iff : ∀ k < p.entries.size, ∀ s skip,
    find? d (p.posOfIdx k) s skip = some none ↔ ∀ j, p.texts[k + j * (skip + 1)]? ≠ some s

/-- **Every blob that is accepted is compared and searched by renderings.** -/
theorem ofBytes_searches {d : Bytes} (h : Packed.ofBytes d = .ok p) : Searches d p := by
  obtain ⟨rfl, hwell⟩ := Packed.ofBytes_eq_ok_iff.mp h
  have hholds : ∀ k s, p.Holds (p.cursor k) s ↔ p.texts[k]? = some s := fun k s => by
    rw [Packed.holds_iff, Packed.render_get?, Packed.idx_cursor]
  exact
    { get_eq := fun k hk => ⟨p.entries[k].value,
        get?_of_drop (writable_getElem hwell hk) (drop_posOfIdx_of_lt hk), Packed.getElem?_texts hk⟩
      compare_iff := fun k hk s => by
        rw [compare?_posOfIdx hwell (Nat.le_of_lt hk)]
        exact congrArg some (decide_eq_decide.mpr (hholds k s))
      holds_iff := fun k _ s => hholds k s
      handle_iff := fun k hk c b id i offset hblock hid hpacked =>
        ⟨_, handleAt?_cursor hblock hid hpacked hk offset, fun s => by
          rw [Entry.matches_value_iff, Packed.getElem?_texts hk, Option.some.injEq]⟩
      find_eq := fun k hk s skip => find?_posOfIdx hwell hk s skip
      find_some_iff := fun k hk s skip q => by
        rw [find?_posOfIdx hwell hk, Option.some.injEq, Option.map_eq_some_iff]
        simp only [Packed.find?_eq_some_iff]
        constructor
        · rintro ⟨place, ⟨j, hfirst, rfl⟩, rfl⟩
          exact ⟨j, hfirst, rfl⟩
        · rintro ⟨j, hfirst, rfl⟩
          exact ⟨_, ⟨j, hfirst, rfl⟩, rfl⟩
      find_none_iff := fun k hk s skip => by
        rw [find?_posOfIdx hwell hk, Option.some.injEq, Option.map_eq_none_iff,
          Packed.find?_eq_none_iff] }

/-- The numeral 7 as a string under too long a header, as a word of eight bytes and without
payload, and a letter among them. -/
def sevens : Packed where
  entries := #[⟨.ofLen 0, .text ⟨.long ⟨0, by decide⟩, 1, [55], rfl, trivial⟩⟩,
    ⟨.ofLen 7, .number (.word .eight 7)⟩, ⟨.ofLen 10, .text (.ofBytes [120])⟩,
    ⟨.ofLen 3, .number (.immediate ⟨7, by decide⟩)⟩]
  lengthField := 4
  size := 33
  size_eq := rfl

theorem texts_sevens : sevens.texts = [[55], [55], [120], [55]] := by
  have hseven : Numeral.render 7 = [55] := Numeral.render_of_parse rfl
  change [[55], Numeral.render 7, [120], Numeral.render 7] = _
  rw [hseven]

/-- All three forms of the numeral are equal to its text, and the stride decides whether the
letter is looked at. -/
theorem ofBytes_searches_sevens :
    let d : Bytes := [33, 0, 0, 0, 30, 0, 0, 0, 4, 0, 0, 0x80, 0, 0, 0, 1, 55,
      7, 0xE0, 7, 0, 0, 0, 0, 0, 0, 0, 10, 1, 120, 3, 0xF8, 0xFF]
    let c : Chain := { cells := #[⟨⟨0⟩, .ofPacked sevens⟩] }
    Packed.ofBytes d = .ok sevens ∧ compare? d 10 [55] = some true ∧
      compare? d 17 [55] = some true ∧ compare? d 30 [55] = some true ∧
      find? d 10 [120] 1 = some (some 27) ∧ find? d 10 [120] 2 = some none ∧
      ∃ handle, c.handleAt? 0 (sevens.cursor 1) (-3) = .ok (some handle) ∧
        handle.value.Matches [55] := by
  intro d c
  have hd : Packed.ofBytes d = .ok sevens :=
    Packed.ofBytes_eq_ok_iff.mpr ⟨by decide, ⟨by decide, by decide, by decide, by decide, trivial⟩,
      by unfold Packed.Counted; decide, by decide⟩
  have h := ofBytes_searches hd
  refine ⟨hd, ?_, ?_, ?_, ?_, ?_, ?_⟩
  · rw [show 10 = sevens.posOfIdx 0 by decide, h.compare_iff 0 (by decide), texts_sevens]
    rfl
  · rw [show 17 = sevens.posOfIdx 1 by decide, h.compare_iff 1 (by decide), texts_sevens]
    rfl
  · rw [show 30 = sevens.posOfIdx 3 by decide, h.compare_iff 3 (by decide), texts_sevens]
    rfl
  · refine (h.find_some_iff 0 (by decide) _ _ _).mpr ⟨1, ⟨?_, ?_⟩, by decide⟩
    · rw [texts_sevens]
      rfl
    · rw [texts_sevens]
      decide
  · refine (h.find_none_iff 0 (by decide) _ _).mpr fun j => ?_
    rw [texts_sevens]
    match j with
    | 0 | 1 => decide
    | j + 2 =>
      rw [List.getElem?_eq_none (by simp; omega)]
      exact (Option.some_ne_none _).symm
  · obtain ⟨handle, hhandle, hmatches⟩ :=
      h.handle_iff 1 (by decide) c (.ofPacked sevens) ⟨0⟩ 0 (-3) rfl rfl rfl
    refine ⟨handle, hhandle, (hmatches [55]).mpr ?_⟩
    rw [texts_sevens]
    rfl

end InPlace

end UnrolledList
