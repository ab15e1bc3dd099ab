import UnrolledList.Proofs.Packed.Mutation

/-!
# Whatever is done to a blob

A blob begins as a new one, or as one that has been accepted, and then strings are put in, entries
removed and blobs joined, in any order and at any place. **As long as the header can tell the size**
(`UnrolledList.InPlace.Reachable`), what there is at any time passes all checks, is read as what it
was written for, and knows its number of entries; and no change that is asked of it leaves it
(`UnrolledList.InPlace.reachable_valid`).

The limit is on the size of what comes out, so it is not known beforehand. That it says the same of
the bytes and of the list which they are the blob of is because a blob that is too large has all
its bytes nevertheless (`UnrolledList.InPlace.Writes.length_eq`).
-/

namespace UnrolledList

namespace InPlace

open Packed (sizeLimit)

/-- Puts a string in at the head or at the tail. -/
def push? (d : Bytes) (s : Bytes) (atHead : Bool) : Option Bytes :=
  insert? d (if atHead then 10 else d.length - 1) s

/-- An entry begins at a position. -/
def IsEntry (d : Bytes) (p : Nat) : Prop :=
  ∃ ps, positions? d = some ps ∧ p ∈ ps

/-- A string can be put in at a position: before an entry, or at the end marker. -/
def IsPlace (d : Bytes) (p : Nat) : Prop :=
  IsEntry d p ∨ p = d.length - 1

/-- The blobs that come of a new one and of accepted ones by changes in place, after each of which
the header can tell the size. -/
inductive Reachable : Bytes → Prop where
  /-- A new blob. -/
  | new : Reachable [11, 0, 0, 0, 10, 0, 0, 0, 0, 0, 255]
  /-- A blob that was accepted. -/
  | accepted {d : Bytes} : check? d = some (.ok ()) → Reachable d
  /-- A string at the head or at the tail. -/
  | push {d d' : Bytes} (s : Bytes) (atHead : Bool) :
      Reachable d → push? d s atHead = some d' → d'.length < sizeLimit → Reachable d'
  /-- A string before an entry or at the end marker. -/
  | insert {d d' : Bytes} {p : Nat} (s : Bytes) :
      Reachable d → IsPlace d p → insert? d p s = some d' → d'.length < sizeLimit → Reachable d'
  /-- An entry removed. -/
  | erase {d d' : Bytes} {p : Nat} {next : Option Nat} :
      Reachable d → IsEntry d p → erase? d p = some (d', next) → d'.length < sizeLimit →
        Reachable d'
  /-- A range of entries removed. -/
  | eraseRange {d d' : Bytes} {n : Nat} (i : Int) (num : Nat) :
      Reachable d → eraseRange? d i num = some (d', n) → d'.length < sizeLimit → Reachable d'
  /-- Two blobs joined. -/
  | join {d e d' : Bytes} :
      Reachable d → Reachable e → join? d e = some d' → d'.length < sizeLimit → Reachable d'

/-- **No change leaves the blob**, wherever it is made and whatever is to be put in. -/
structure Serves (d : Bytes) : Prop where
  /-- At the head and at the tail. -/
  push : ∀ s atHead, ∃ d', push? d s atHead = some d'
  /-- At any place. -/
  insert : ∀ p s, IsPlace d p → ∃ d', insert? d p s = some d'
  /-- Of any entry. -/
  erase : ∀ p, IsEntry d p → ∃ r, erase? d p = some r
  /-- With any index and number. -/
  eraseRange : ∀ i num, ∃ r, eraseRange? d i num = some r
  /-- With any blob that can be reached. -/
  join : ∀ e, Reachable e → ∃ r, join? d e = some r

variable {d d' : Bytes} {p q : Packed} {k : Nat}

/-! ### Places -/

theorem isEntry_toBytes_iff (h : p.WellFormed) {n : Nat} :
    IsEntry p.toBytes n ↔ ∃ k < p.entries.size, n = p.posOfIdx k := by
  constructor
  · rintro ⟨ps, hps, hn⟩
    rw [positions?_toBytes h, Option.some.injEq] at hps
    subst hps
    rw [Packed.positions_eq] at hn
    obtain ⟨k, hk, rfl⟩ := List.mem_map.mp hn
    exact ⟨k, List.mem_range.mp hk, rfl⟩
  · rintro ⟨k, hk, rfl⟩
    refine ⟨p.positions, positions?_toBytes h, ?_⟩
    rw [Packed.positions_eq]
    exact List.mem_map.mpr ⟨k, List.mem_range.mpr hk, rfl⟩

theorem isPlace_toBytes_iff (h : p.WellFormed) {n : Nat} :
    IsPlace p.toBytes n ↔ ∃ k ≤ p.entries.size, n = p.posOfIdx k := by
  have hend : p.toBytes.length - 1 = p.posOfIdx p.entries.size := by
    rw [Packed.length_toBytes, Packed.posOfIdx_size, Packed.endPos]
  rw [IsPlace, isEntry_toBytes_iff h, hend]
  constructor
  · rintro (⟨k, hk, rfl⟩ | rfl)
    · exact ⟨k, Nat.le_of_lt hk, rfl⟩
    · exact ⟨_, Nat.le_refl _, rfl⟩
  · rintro ⟨k, hk, rfl⟩
    rcases Nat.lt_or_eq_of_le hk with hlt | rfl
    · exact .inl ⟨k, hlt, rfl⟩
    · exact .inr rfl

/-- The head is the place of the first entry, or that of the end marker, as the tail always is. -/
theorem push?_eq (p : Packed) (s : Bytes) (atHead : Bool) :
    push? p.toBytes s atHead =
      insert? p.toBytes (p.posOfIdx (if atHead then 0 else p.entries.size)) s := by
  cases atHead with
  | true => rfl
  | false =>
    rw [push?, Packed.length_toBytes]
    simp only [Bool.false_eq_true, if_false, Packed.posOfIdx_size, Packed.endPos]

/-! ### Every history -/

/-- What is written is the blob of its list, if the header can tell its size. -/
theorem Writes.exists_reachable (h : Writes d p) (hsize : d.length < sizeLimit)
    (hp : p.size < sizeLimit → Packed.Reachable p) :
    ∃ p, Packed.Reachable p ∧ p.toBytes = d := by
  rw [h.length_eq] at hsize
  exact ⟨p, hp hsize, (h.exact hsize).symm⟩

/-- **A blob that can be reached is the blob of a list that can be reached.** -/
theorem exists_reachable (h : Reachable d) : ∃ p, Packed.Reachable p ∧ p.toBytes = d := by
  induction h with
  | new => exact ⟨.empty, .empty, by decide⟩
  | @accepted d hcheck =>
    rw [check?_eq] at hcheck
    cases hp : Packed.ofBytes d with
    | error defect =>
      rw [hp, Except.map, Option.some.injEq] at hcheck
      contradiction
    | ok p => exact ⟨p, .ofBytes hp, (Packed.ofBytes_eq_ok_iff.mp hp).1⟩
  | push s atHead _ hd' hsize ih =>
    obtain ⟨p, hp, rfl⟩ := ih
    have hk : (if atHead then 0 else p.entries.size) ≤ p.entries.size := by
      split
      · exact Nat.zero_le _
      · exact Nat.le_refl _
    obtain ⟨d, hd, hwrites⟩ := insert?_writes (Packed.wellFormed_of_reachable hp) hk s
    rw [push?_eq, hd, Option.some.injEq] at hd'
    subst hd'
    exact hwrites.exists_reachable hsize fun hlt => .insertIdx s hp hk hlt
  | insert s _ hplace hd' hsize ih =>
    obtain ⟨p, hp, rfl⟩ := ih
    have hwell := Packed.wellFormed_of_reachable hp
    obtain ⟨k, hk, rfl⟩ := (isPlace_toBytes_iff hwell).mp hplace
    obtain ⟨d, hd, hwrites⟩ := insert?_writes hwell hk s
    rw [hd, Option.some.injEq] at hd'
    subst hd'
    exact hwrites.exists_reachable hsize fun hlt => .insertIdx s hp hk hlt
  | erase _ hentry hd' hsize ih =>
    obtain ⟨p, hp, rfl⟩ := ih
    have hwell := Packed.wellFormed_of_reachable hp
    obtain ⟨k, hk, rfl⟩ := (isEntry_toBytes_iff hwell).mp hentry
    obtain ⟨d, hd, hwrites⟩ := erase?_writes hwell hk
    rw [hd, Option.some.injEq, Prod.mk.injEq] at hd'
    obtain ⟨rfl, -⟩ := hd'
    exact hwrites.exists_reachable hsize fun hlt => .eraseIdx hp hk hlt
  | eraseRange i num _ hd' hsize ih =>
    obtain ⟨p, hp, rfl⟩ := ih
    obtain ⟨d, hd, hwrites⟩ := eraseRange?_writes (Packed.wellFormed_of_reachable hp) i num
    rw [hd, Option.some.injEq, Prod.mk.injEq] at hd'
    obtain ⟨rfl, -⟩ := hd'
    exact hwrites.exists_reachable hsize fun hlt => .eraseRange i num hp hlt
  | join _ _ hd' hsize ihd ihe =>
    obtain ⟨p, hp, rfl⟩ := ihd
    obtain ⟨q, hq, rfl⟩ := ihe
    obtain ⟨d, hd, hwrites⟩ :=
      join?_writes (Packed.wellFormed_of_reachable hp) (Packed.wellFormed_of_reachable hq)
    rw [hd, Option.some.injEq] at hd'
    subst hd'
    exact hwrites.exists_reachable hsize fun hlt => .append hp hq hlt

/-- An accepted blob bears every change. -/
theorem serves_toBytes (h : p.WellFormed) : Serves p.toBytes where
  push s atHead := by
    have hk : (if atHead then 0 else p.entries.size) ≤ p.entries.size := by
      split
      · exact Nat.zero_le _
      · exact Nat.le_refl _
    obtain ⟨d, hd, -⟩ := insert?_writes h hk s
    exact ⟨d, (push?_eq p s atHead).trans hd⟩
  insert n s hplace := by
    obtain ⟨k, hk, rfl⟩ := (isPlace_toBytes_iff h).mp hplace
    obtain ⟨d, hd, -⟩ := insert?_writes h hk s
    exact ⟨d, hd⟩
  erase n hentry := by
    obtain ⟨k, hk, rfl⟩ := (isEntry_toBytes_iff h).mp hentry
    obtain ⟨d, hd, -⟩ := erase?_writes h hk
    exact ⟨_, hd⟩
  eraseRange i num := by
    obtain ⟨d, hd, -⟩ := eraseRange?_writes h i num
    exact ⟨_, hd⟩
  join e he := by
    obtain ⟨q, hq, rfl⟩ := exists_reachable he
    obtain ⟨d, hd, -⟩ := join?_writes h (Packed.wellFormed_of_reachable hq)
    exact ⟨d, hd⟩

/-- **Every blob that can be reached is valid.** It passes the check; reading it and writing what
was read gives it back; the length that it tells is the number of entries that a walk meets; and
it bears every change. -/
theorem reachable_valid (h : Reachable d) :
    check? d = some (.ok ()) ∧ (∃ p, Packed.ofBytes d = .ok p ∧ p.toBytes = d) ∧
      (∃ ps, positions? d = some ps ∧ length? d = some ps.length) ∧ Serves d := by
  obtain ⟨p, hp, rfl⟩ := exists_reachable h
  obtain ⟨haccepted, hlength⟩ := Packed.reachable_accepted hp
  have hwell := Packed.wellFormed_of_reachable hp
  refine ⟨?_, ⟨p, haccepted, rfl⟩, ⟨p.positions, positions?_toBytes hwell, ?_⟩,
    serves_toBytes hwell⟩
  · rw [check?_eq, haccepted]
    rfl
  · rw [length?_toBytes hwell, hlength, Packed.positions_eq, List.length_map, List.length_range]

/-- The length field comes in from a blob, outlives the only entry, and ends with a join. -/
theorem reachable_valid_uncounted :
    let d : Bytes := [17, 0, 0, 0, 13, 0, 0, 0, 2, 0, 0, 0xFE, 42, 3, 0xFE, 42, 255]
    Reachable d ∧ check? d = some (.ok ()) ∧
      ∃ ps, positions? d = some ps ∧ length? d = some ps.length := by
  intro d
  have hblob : check? [14, 0, 0, 0, 10, 0, 0, 0, 255, 255, 0, 1, 97, 255] = some (.ok ()) := by
    rw [check?_eq, Packed.ofBytes_uncounted]
    rfl
  have hplace : IsEntry [14, 0, 0, 0, 10, 0, 0, 0, 255, 255, 0, 1, 97, 255] 10 :=
    ⟨[10], by decide +kernel, List.mem_singleton_self 10⟩
  have herase : erase? [14, 0, 0, 0, 10, 0, 0, 0, 255, 255, 0, 1, 97, 255] 10 =
      some ([11, 0, 0, 0, 10, 0, 0, 0, 255, 255, 255], none) := by decide +kernel
  have hempty : Reachable [11, 0, 0, 0, 10, 0, 0, 0, 255, 255, 255] :=
    .erase (.accepted hblob) hplace herase (by decide)
  have hone : Reachable [14, 0, 0, 0, 10, 0, 0, 0, 255, 255, 0, 0xFE, 42, 255] :=
    .push [52, 50] false hempty (by decide +kernel) (by decide)
  have hd : Reachable d := .join hone hone (by decide +kernel) (by decide)
  obtain ⟨hcheck, -, hlength, -⟩ := reachable_valid hd
  exact ⟨hd, hcheck, hlength⟩

end InPlace

end UnrolledList
