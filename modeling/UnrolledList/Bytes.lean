/-!
# Byte strings

Everything this library stores is in the end a string of bytes, and the fields of
the packed format are unsigned numbers of a fixed number of bytes. This file holds
the two byte orders and the one way a reader may take bytes off the front of a
string: **exactly as many as it asked for, or not at all**
(`UnrolledList.Bytes.split?`). A reader built on it cannot look past the end.

Byte strings are lists: the codec laws are inductions over them, and nothing here
needs random access.
-/

namespace UnrolledList

/-- A byte string. -/
abbrev Bytes := List UInt8

namespace Bytes

/-! ### Fixed-width numbers -/

/-- The number of values that `width` bytes can have. -/
def capacity : (width : Nat) → Nat
  | 0 => 1
  | width + 1 => 256 * capacity width

/-- The `width` low bytes of `n`, the least significant first. Higher bytes are
dropped. -/
def littleEndian : (width n : Nat) → Bytes
  | 0, _ => []
  | width + 1, n => UInt8.ofNat n :: littleEndian width (n / 256)

/-- The number whose bytes, the least significant first, are the given ones. -/
def ofLittleEndian : Bytes → Nat
  | [] => 0
  | b :: bs => b.toNat + 256 * ofLittleEndian bs

/-- The `width` low bytes of `n`, the most significant first. -/
def bigEndian (width n : Nat) : Bytes :=
  (littleEndian width n).reverse

/-- The number whose bytes, the most significant first, are the given ones. -/
def ofBigEndian (bs : Bytes) : Nat :=
  ofLittleEndian bs.reverse

@[simp] theorem littleEndian_zero (n : Nat) : littleEndian 0 n = [] := rfl

@[simp] theorem littleEndian_succ (width n : Nat) :
    littleEndian (width + 1) n = UInt8.ofNat n :: littleEndian width (n / 256) := rfl

@[simp] theorem ofLittleEndian_nil : ofLittleEndian [] = 0 := rfl

@[simp] theorem ofLittleEndian_cons (b : UInt8) (bs : Bytes) :
    ofLittleEndian (b :: bs) = b.toNat + 256 * ofLittleEndian bs := rfl

@[simp] theorem length_littleEndian (width n : Nat) : (littleEndian width n).length = width := by
  induction width generalizing n with
  | zero => rfl
  | succ width ih => simp [ih]

@[simp] theorem length_bigEndian (width n : Nat) : (bigEndian width n).length = width := by
  simp [bigEndian]

/-- Writing a number and reading it back keeps its low bytes. -/
theorem ofLittleEndian_littleEndian (width n : Nat) :
    ofLittleEndian (littleEndian width n) = n % capacity width := by
  induction width generalizing n with
  | zero => simp [capacity, Nat.mod_one]
  | succ width ih =>
    have byte : (UInt8.ofNat n).toNat = n % 256 := UInt8.toNat_ofNat'
    rw [littleEndian_succ, ofLittleEndian_cons, ih, byte, capacity, Nat.mod_mul]

/-- Bytes are determined by the number they spell. -/
theorem littleEndian_ofLittleEndian (bs : Bytes) :
    littleEndian bs.length (ofLittleEndian bs) = bs := by
  induction bs with
  | nil => rfl
  | cons b bs ih =>
    have hb : b.toNat < 256 := b.toNat_lt
    have hdiv : (b.toNat + 256 * ofLittleEndian bs) / 256 = ofLittleEndian bs := by omega
    rw [List.length_cons, ofLittleEndian_cons, littleEndian_succ, hdiv, ih]
    congr 1
    apply UInt8.toNat_inj.mp
    rw [UInt8.toNat_ofNat']
    omega

/-- A number of so many bytes is one of the values that so many bytes can have. -/
theorem ofLittleEndian_lt (bs : Bytes) : ofLittleEndian bs < capacity bs.length := by
  induction bs with
  | nil => simp [capacity]
  | cons b bs ih =>
    have hb : b.toNat < 256 := b.toNat_lt
    rw [ofLittleEndian_cons, List.length_cons, capacity]
    omega

/-! ### Taking bytes off the front -/

/-- The first `n` bytes and what follows them, or nothing when there are fewer than
`n`. It looks at no more than `n` bytes, so a long tail costs nothing. -/
def split? (n : Nat) (bs : Bytes) : Option (Bytes × Bytes) :=
  go [] n bs
where
  /-- Moves `n` bytes onto `front`, which holds those already taken in reverse. -/
  go (front : Bytes) : Nat → Bytes → Option (Bytes × Bytes)
    | 0, rest => some (front.reverse, rest)
    | _ + 1, [] => none
    | n + 1, b :: rest => go (b :: front) n rest

theorem split?.go_eq_some_iff {front xs ys : Bytes} (n : Nat) (bs : Bytes) :
    split?.go front n bs = some (xs, ys) ↔
      ∃ zs, zs.length = n ∧ bs = zs ++ ys ∧ xs = front.reverse ++ zs := by
  induction n generalizing front bs with
  | zero =>
    simp only [go, Option.some.injEq, Prod.mk.injEq, List.length_eq_zero_iff]
    constructor
    · rintro ⟨rfl, rfl⟩
      exact ⟨[], rfl, rfl, by simp⟩
    · rintro ⟨zs, rfl, rfl, rfl⟩
      exact ⟨by simp, by simp⟩
  | succ n ih =>
    cases bs with
    | nil =>
      simp only [go, reduceCtorEq, false_iff]
      rintro ⟨zs, hlen, hnil, -⟩
      have : zs = [] := (List.append_eq_nil_iff.mp hnil.symm).1
      simp [this] at hlen
    | cons b bs =>
      simp only [go, ih]
      constructor
      · rintro ⟨zs, rfl, rfl, rfl⟩
        exact ⟨b :: zs, by simp, by simp, by simp⟩
      · rintro ⟨zs, hlen, hbs, rfl⟩
        cases zs with
        | nil => simp at hlen
        | cons z zs =>
          simp only [List.cons_append, List.cons.injEq] at hbs
          obtain ⟨rfl, rfl⟩ := hbs
          exact ⟨zs, by simpa using hlen, rfl, by simp⟩

/-- **A split cuts the string at `n` and nowhere else.** -/
theorem split?_eq_some_iff {n : Nat} {bs xs ys : Bytes} :
    split? n bs = some (xs, ys) ↔ xs.length = n ∧ bs = xs ++ ys := by
  rw [split?, split?.go_eq_some_iff]
  constructor
  · rintro ⟨zs, hlen, rfl, rfl⟩
    exact ⟨by simpa using hlen, by simp⟩
  · rintro ⟨hlen, rfl⟩
    exact ⟨xs, hlen, rfl, by simp⟩

theorem length_of_split? {n : Nat} {bs xs ys : Bytes} (h : split? n bs = some (xs, ys)) :
    xs.length = n :=
  (split?_eq_some_iff.mp h).1

/-- What a split leaves is no longer than what it was given. -/
theorem length_rest_of_split? {n : Nat} {bs xs ys : Bytes} (h : split? n bs = some (xs, ys)) :
    ys.length ≤ bs.length := by
  obtain ⟨-, rfl⟩ := split?_eq_some_iff.mp h
  simp

@[simp] theorem split?_append (xs ys : Bytes) : split? xs.length (xs ++ ys) = some (xs, ys) :=
  split?_eq_some_iff.mpr ⟨rfl, rfl⟩

end Bytes

end UnrolledList
