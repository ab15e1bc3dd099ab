import UnrolledList.Proofs.Packed.Inside

/-!
# Forward and backward navigation agree

The entries of a packed list are found in two ways that share no data. Forward, a reader adds
up the sizes that the headers announce and stops at the end marker; backward, it starts where
the header of the list says that the last entry is, subtracts the links, and stops at a link of
zero or behind the header. `UnrolledList.InPlace.ofBytes_navigates` says that on every blob that
is accepted both find **the same positions**: from any index, by single steps in both
directions, and by whole walks.

A walk from the head is also looked at while it is under way
(`UnrolledList.InPlace.Tour`). It remembers where it stands and nothing else, and once it is
over it stays over, however often it is asked again.

As everywhere in this part, a reader that left the blob would have no answer at all, so each of
the equations says as well that it stays inside; and a walk that does not come to an end within
as many steps as the blob has bytes would have none either.
-/

namespace UnrolledList

namespace InPlace

/-! ### A walk that is under way -/

/-- A walk over the entries from head to tail. -/
structure Tour where
  /-- Whether it has begun. -/
  started : Bool
  /-- The position at which it stands, if it has begun and is not over. -/
  place : Option Nat

namespace Tour

/-- The walk that has not begun. -/
def start : Tour where
  started := false
  place := none

/-- The next position, if there is one, and the walk that has come to it. -/
def step? (d : Bytes) (t : Tour) : Option (Tour × Option Nat) :=
  if t.started then
    match t.place with
    | none => some (t, none)
    | some q => (next? d q).map fun place => (⟨true, place⟩, place)
  else (seek? d 0).map fun place => (⟨true, place⟩, place)

/-- The walk answers these positions in this order, and then no other for ever. -/
inductive Yields (d : Bytes) : Tour → List Nat → Prop
  /-- There is no position left, and the walk does not change any more. -/
  | over {t u : Tour} : step? d t = some (u, none) → step? d u = some (u, none) → Yields d t []
  /-- A position is answered, and the others behind it. -/
  | step {t u : Tour} {q : Nat} {qs : List Nat} : step? d t = some (u, some q) → Yields d u qs →
      Yields d t (q :: qs)

end Tour

variable {d : Bytes} {p : Packed} {k : Nat}

/-- A walk that stands at an entry goes on to the `n` behind it. -/
theorem Tour.yields_of_place (h : p.WellFormed) {n : Nat} (hn : k + 1 + n = p.entries.size) :
    Yields p.toBytes ⟨true, some (p.posOfIdx k)⟩ ((List.range' (k + 1) n).map p.posOfIdx) := by
  induction n generalizing k with
  | zero =>
    have hstep : step? p.toBytes ⟨true, some (p.posOfIdx k)⟩ = some (⟨true, none⟩, none) := by
      simp only [step?, if_true, next?_posOfIdx h (show k ≤ p.entries.size by omega),
        Packed.next?_cursor]
      rw [if_neg (by omega)]
      rfl
    exact .over hstep rfl
  | succ n ih =>
    have hstep : step? p.toBytes ⟨true, some (p.posOfIdx k)⟩ =
        some (⟨true, some (p.posOfIdx (k + 1))⟩, some (p.posOfIdx (k + 1))) := by
      simp only [step?, if_true, next?_posOfIdx h (show k ≤ p.entries.size by omega),
        Packed.next?_cursor]
      rw [if_pos (by omega)]
      rfl
    rw [List.range'_succ, List.map_cons]
    exact .step hstep (ih (by omega))

/-- **A walk answers every position once**, in order. -/
theorem Tour.yields_start (h : p.WellFormed) :
    Yields p.toBytes .start ((List.range p.entries.size).map p.posOfIdx) := by
  have hstep : step? p.toBytes .start =
      (seek? p.toBytes 0).map fun place => (⟨true, place⟩, place) := rfl
  rw [seek?_toBytes h, Packed.seek?_eq h.linked] at hstep
  rw [List.range_eq_range']
  cases hsize : p.entries.size with
  | zero =>
    rw [hsize] at hstep
    exact .over hstep rfl
  | succ n =>
    have hfirst : Packed.idxOf? p.entries.size 0 = some 0 :=
      Packed.idxOf?_natCast (hsize ▸ Nat.succ_pos n)
    rw [hfirst] at hstep
    rw [List.range'_succ, List.map_cons]
    exact .step hstep (yields_of_place h (by omega))

/-! ### Both directions -/

/-- **A blob is walked both ways.** With `n` entries, the positions are `p.posOfIdx k` for
`k < n`; the end marker is the one for `n`. -/
structure Navigates (d : Bytes) (p : Packed) : Prop extends Reads d p where
  /-- The first entry stands behind the header, -/
  pos_zero : p.posOfIdx 0 = 10
  /-- and each is followed by the next. -/
  pos_succ : ∀ k (hk : k < p.entries.size),
    p.posOfIdx (k + 1) = p.posOfIdx k + p.entries[k].encode.length
  /-- The positions ascend. -/
  pos_lt : ∀ j k, j < k → k ≤ p.entries.size → p.posOfIdx j < p.posOfIdx k
  /-- The end marker is the last byte. -/
  pos_end : p.posOfIdx p.entries.size + 1 = d.length
  /-- At the position of an entry stand its bytes. -/
  stands : ∀ k (hk : k < p.entries.size), p.entries[k].encode <+: d.drop (p.posOfIdx k)
  /-- An index counts from the head, -/
  seek_of_lt : ∀ k < p.entries.size, seek? d k = some (some (p.posOfIdx k))
  /-- or from the tail if it is negative, -/
  seek_sub : ∀ k < p.entries.size, seek? d ((k : Int) - p.entries.size) = some (some (p.posOfIdx k))
  /-- and any other finds nothing. -/
  seek_outside : ∀ i : Int, i < -p.entries.size ∨ (p.entries.size : Int) ≤ i →
    seek? d i = some none
  /-- Behind an entry stands the next one, and behind the last none. -/
  next_of_lt : ∀ k < p.entries.size,
    next? d (p.posOfIdx k) =
      some (if k + 1 < p.entries.size then some (p.posOfIdx (k + 1)) else none)
  /-- Before an entry or the end marker stands the one before it, and before the first none. -/
  prev_of_le : ∀ k ≤ p.entries.size,
    prev? d (p.posOfIdx k) = some (if k = 0 then none else some (p.posOfIdx (k - 1)))
  /-- A step in one direction is undone by one in the other. -/
  next_iff_prev : ∀ j < p.entries.size, ∀ k < p.entries.size,
    next? d (p.posOfIdx j) = some (some (p.posOfIdx k)) ↔
      prev? d (p.posOfIdx k) = some (some (p.posOfIdx j))
  /-- A walk from the head answers the positions, and then none for ever. -/
  yields : Tour.Yields d .start ((List.range p.entries.size).map p.posOfIdx)
  /-- They are those of the list. -/
  positions_eq : p.positions = (List.range p.entries.size).map p.posOfIdx

theorem next?_of_lt (h : p.WellFormed) (hk : k < p.entries.size) :
    next? p.toBytes (p.posOfIdx k) =
      some (if k + 1 < p.entries.size then some (p.posOfIdx (k + 1)) else none) := by
  rw [next?_posOfIdx h (Nat.le_of_lt hk), Packed.next?_cursor]
  split <;> rfl

theorem prev?_of_le (h : p.WellFormed) (hk : k ≤ p.entries.size) :
    prev? p.toBytes (p.posOfIdx k) =
      some (if k = 0 then none else some (p.posOfIdx (k - 1))) := by
  rw [prev?_posOfIdx h hk, Packed.prev?_cursor h.linked hk]
  split <;> rfl

theorem next?_iff_prev? (h : p.WellFormed) {j : Nat} (hj : j < p.entries.size)
    (hk : k < p.entries.size) :
    next? p.toBytes (p.posOfIdx j) = some (some (p.posOfIdx k)) ↔
      prev? p.toBytes (p.posOfIdx k) = some (some (p.posOfIdx j)) := by
  have hnext : next? p.toBytes (p.posOfIdx j) = some (some (p.posOfIdx k)) ↔ k = j + 1 := by
    rw [next?_of_lt h hj, Option.some.injEq, Option.ite_none_right_eq_some, Option.some.injEq]
    constructor
    · rintro ⟨hlt, hpos⟩
      exact ((Packed.posOfIdx_inj (Nat.le_of_lt hlt) (Nat.le_of_lt hk)).mp hpos).symm
    · rintro rfl
      exact ⟨hk, rfl⟩
  have hprev : prev? p.toBytes (p.posOfIdx k) = some (some (p.posOfIdx j)) ↔ k = j + 1 := by
    rw [prev?_of_le h (Nat.le_of_lt hk), Option.some.injEq, Option.ite_none_left_eq_some,
      Option.some.injEq]
    constructor
    · rintro ⟨hne, hpos⟩
      have := (Packed.posOfIdx_inj (by omega) (Nat.le_of_lt hj)).mp hpos
      omega
    · rintro rfl
      exact ⟨Nat.succ_ne_zero j, rfl⟩
  rw [hnext, hprev]

/-- **Forward and backward navigation agree** on every blob that is accepted. -/
theorem ofBytes_navigates (h : Packed.ofBytes d = .ok p) : Navigates d p := by
  obtain ⟨rfl, hwell⟩ := Packed.ofBytes_eq_ok_iff.mp h
  have hseek : ∀ i, seek? p.toBytes i =
      some ((Packed.idxOf? p.entries.size i).map p.posOfIdx) := fun i => by
    rw [seek?_toBytes hwell, Packed.seek?_eq hwell.linked, Option.map_map]
    rfl
  exact
    { reads_toBytes hwell with
      pos_zero := Packed.posOfIdx_zero p
      pos_succ := fun k hk => by rw [Entry.length_encode]; exact Packed.posOfIdx_succ hk
      pos_lt := fun j k hjk hk => Packed.posOfIdx_lt hjk hk
      pos_end := by
        have hsize := p.size_eq
        rw [Packed.posOfIdx_size, Packed.endPos, Packed.length_toBytes]
        simp only [Packed.envelopeSize] at hsize
        omega
      stands := fun k hk => ⟨behind p k, (drop_posOfIdx_of_lt hk).symm⟩
      seek_of_lt := fun k hk => by rw [hseek, Packed.idxOf?_natCast hk]; rfl
      seek_sub := fun k hk => by rw [hseek, Packed.idxOf?_sub hk]; rfl
      seek_outside := fun i hi => by rw [hseek, Packed.idxOf?_eq_none hi]; rfl
      next_of_lt := fun k hk => next?_of_lt hwell hk
      prev_of_le := fun k hk => prev?_of_le hwell hk
      next_iff_prev := fun j hj k hk => next?_iff_prev? hwell hj hk
      yields := Tour.yields_start hwell
      positions_eq := Packed.positions_eq p }

/-- A list with a string under too long a header and an integer behind too wide a link is
walked both ways, and an index of any size is answered. -/
theorem ofBytes_navigates_unusual :
    let d : Bytes := [25, 0, 0, 0, 17, 0, 0, 0, 255, 255, 0, 0xBF, 0, 0, 0, 1, 97,
      0xFE, 7, 0, 0, 0, 0xFE, 0x80, 0xFF]
    Packed.ofBytes d = .ok unusual ∧ next? d 10 = some (some 17) ∧ prev? d 17 = some (some 10) ∧
      prev? d 24 = some (some 17) ∧ seek? d (-2) = some (some 10) ∧
      seek? d (-0x8000000000000000) = some none ∧ Tour.Yields d .start [10, 17] := by
  intro d
  have h := ofBytes_navigates ofBytes_unusual
  exact ⟨ofBytes_unusual, h.next_of_lt 0 (by decide), h.prev_of_le 1 (by decide),
    h.prev_of_le 2 (by decide), h.seek_sub 0 (by decide), h.seek_outside _ (by decide), h.yields⟩

end InPlace

end UnrolledList
