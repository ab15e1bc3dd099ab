import Mathlib.Algebra.Group.Nat.Defs
import UnrolledList.Proofs.Packed.Rendering

/-!
# Which texts are numerals

`UnrolledList.Numeral.parse` decides whether a string is stored as an integer, so it has to be
the exact inverse of the writer: `UnrolledList.Numeral.render_of_parse` says that nothing but
what is written is read, and this file says that **all that is written is read**, and what is
wrong with every text that is not. The two together are
`UnrolledList.Numeral.parse_decides`.

## The canonical numerals

A numeral other than zero is an optional minus, a digit from 1 to 9, and further digits
(`UnrolledList.Numeral.IsNumeral`). Its value is defined by the digits alone, without a bound.
The reader works in 64 bits, unsigned until the sign is applied at the end, and it may stop at
an overflow before it has seen the whole text. That an overflow never hides a wrong character
is a matter of length: the text has at most twenty characters, so the value read so far is
below `10 ^ j` after `j` of them, and **only the last one can be too much**
(`UnrolledList.Numeral.accumulate_of_not_isDigit`).

## How the refusals are told apart

A text falls into one of six classes, by its length, by its first character and by the others
(`UnrolledList.Numeral.classes`), and the reader's answer is known for each. The classes
exclude each other because the answers differ, so every refusal stands for its class.
-/

namespace UnrolledList

/-- Whether a refusal says that the integer is too large for the machine. -/
def NumeralError.IsOverflow : NumeralError → Prop
  | overflowTimesTen | overflowPlusDigit | belowRange | aboveRange => True
  | badLength | badFirstDigit | badDigit => False

namespace Numeral

/-! ### Canonical numerals -/

/-- A decimal digit. -/
def IsDigit (c : UInt8) : Prop :=
  0x30 ≤ c ∧ c ≤ 0x39

/-- A digit that may open a numeral. -/
def IsLeading (c : UInt8) : Prop :=
  0x31 ≤ c ∧ c ≤ 0x39

/-- The number that digits spell behind others that spell `v`. -/
def valueFrom (v : Nat) (ds : Bytes) : Nat :=
  ds.foldl (fun v c => v * 10 + (c.toNat - 0x30)) v

/-- **The canonical numerals other than zero**, and the integers they spell. -/
inductive IsNumeral : Bytes → Int → Prop
  /-- A digit from 1 to 9, and further digits. -/
  | positive {c : UInt8} {cs : Bytes} : IsLeading c → (∀ x ∈ cs, IsDigit x) →
      IsNumeral (c :: cs) (valueFrom 0 (c :: cs))
  /-- The same behind a minus. -/
  | negative {c : UInt8} {cs : Bytes} : IsLeading c → (∀ x ∈ cs, IsDigit x) →
      IsNumeral (minus :: c :: cs) (-(valueFrom 0 (c :: cs) : Int))

/-- A text without the minus that may open it. -/
def unsigned (s : Bytes) : Bytes :=
  if s.head? = some minus then s.tail else s

/-- The integers of 64 bits. -/
def InRange (n : Int) : Prop :=
  minValue ≤ n ∧ n ≤ maxValue

/-! ### Digits -/

theorem isDigit_iff {c : UInt8} : IsDigit c ↔ 48 ≤ c.toNat ∧ c.toNat ≤ 57 := by
  rw [IsDigit, UInt8.le_iff_toNat_le, UInt8.le_iff_toNat_le]
  rfl

theorem isLeading_iff {c : UInt8} : IsLeading c ↔ 49 ≤ c.toNat ∧ c.toNat ≤ 57 := by
  rw [IsLeading, UInt8.le_iff_toNat_le, UInt8.le_iff_toNat_le]
  rfl

/-- The reader knows the digits, and what each is worth. -/
theorem digit?_of_isDigit {c : UInt8} (h : IsDigit c) : digit? c = some (c.toNat - 48) := by
  have hzero : zero.toNat = 48 := rfl
  rw [digit?, if_pos (show zero ≤ c ∧ c ≤ 0x39 from h), hzero]

theorem digit?_of_not_isDigit {c : UInt8} (h : ¬ IsDigit c) : digit? c = none := by
  rw [digit?, if_neg (show ¬ (zero ≤ c ∧ c ≤ 0x39) from h)]

@[simp] theorem valueFrom_nil (v : Nat) : valueFrom v [] = v := rfl

@[simp] theorem valueFrom_cons (v : Nat) (c : UInt8) (cs : Bytes) :
    valueFrom v (c :: cs) = valueFrom (v * 10 + (c.toNat - 48)) cs := by
  rw [valueFrom, List.foldl_cons, valueFrom]

theorem valueFrom_append (v : Nat) (cs ds : Bytes) :
    valueFrom v (cs ++ ds) = valueFrom (valueFrom v cs) ds :=
  List.foldl_append

/-- Further digits do not make a number smaller. -/
theorem le_valueFrom (v : Nat) (cs : Bytes) : v ≤ valueFrom v cs := by
  induction cs generalizing v with
  | nil => exact Nat.le_refl v
  | cons c cs ih =>
    have hstep := ih (v * 10 + (c.toNat - 48))
    rw [valueFrom_cons]
    omega

/-! ### Reading digits -/

/-- Digits are read if the number they spell has 64 bits. -/
theorem accumulate_of_lt {v : Nat} {cs : Bytes} (hdigits : ∀ x ∈ cs, IsDigit x)
    (h : valueFrom v cs < magnitudeLimit) : accumulate v cs = .ok (valueFrom v cs) := by
  -- the number never falls while digits are read, so the bound at the end bounds every step
  induction cs generalizing v with
  | nil => rfl
  | cons c cs ih =>
    have hc := digit?_of_isDigit (hdigits c List.mem_cons_self)
    have hle := le_valueFrom (v * 10 + (c.toNat - 48)) cs
    rw [valueFrom_cons] at h
    rw [accumulate, hc]
    simp only
    rw [if_neg (by omega), if_neg (by omega), valueFrom_cons]
    exact ih (fun x hx => hdigits x (List.mem_cons_of_mem c hx)) h

/-- Digits that spell a larger number are refused, and the refusal says so. -/
theorem accumulate_of_le {v : Nat} {cs : Bytes} (hdigits : ∀ x ∈ cs, IsDigit x)
    (hv : v < magnitudeLimit) (h : magnitudeLimit ≤ valueFrom v cs) :
    ∃ e, accumulate v cs = .error e ∧ e.IsOverflow := by
  induction cs generalizing v with
  | nil => exact absurd h (Nat.not_le_of_lt hv)
  | cons c cs ih =>
    have hc := digit?_of_isDigit (hdigits c List.mem_cons_self)
    rw [accumulate, hc]
    simp only
    split
    · exact ⟨_, rfl, trivial⟩
    · split
      · exact ⟨_, rfl, trivial⟩
      · next hplus =>
        exact ih (fun x hx => hdigits x (List.mem_cons_of_mem c hx)) (Nat.lt_of_not_le hplus) h

/-- Nineteen digits always fit 64 bits. -/
theorem pow_lt_magnitudeLimit {j : Nat} (h : j ≤ 19) : 10 ^ j < magnitudeLimit :=
  Nat.lt_of_le_of_lt (Nat.pow_le_pow_right (by decide) h) (by decide)

/-- **A wrong character is found before an overflow.** With `j` digits before them and at
most twenty characters in all, a step that overflows is the last one. -/
theorem accumulate_of_not_isDigit {v j : Nat} {cs : Bytes} {x : UInt8} (hv : v < 10 ^ j)
    (hlen : j + cs.length ≤ maxLength) (hx : x ∈ cs) (hdigit : ¬ IsDigit x) :
    accumulate v cs = .error .badDigit := by
  induction cs generalizing v j with
  | nil => contradiction
  | cons c cs ih =>
    by_cases hc : IsDigit c
    · -- the wrong character comes later, so there is room for one more digit
      have hrest : x ∈ cs := by
        rcases List.mem_cons.mp hx with rfl | hrest
        · exact absurd hc hdigit
        · exact hrest
      have hpos := List.length_pos_of_mem hrest
      rw [List.length_cons, maxLength] at hlen
      have hnext : v * 10 + (c.toNat - 48) < 10 ^ (j + 1) := by
        have hc9 := (isDigit_iff.mp hc).2
        rw [Nat.pow_succ]
        omega
      have hfits := pow_lt_magnitudeLimit (show j + 1 ≤ 19 by omega)
      rw [accumulate, digit?_of_isDigit hc]
      simp only
      rw [if_neg (by omega), if_neg (by omega)]
      exact ih hnext (by rw [maxLength]; omega) hrest
    · rw [accumulate, digit?_of_not_isDigit hc]

/-! ### Reading magnitudes -/

theorem magnitude_of_isLeading {c : UInt8} {cs : Bytes} (h : IsLeading c) :
    magnitude (c :: cs) = accumulate (c.toNat - 48) cs := by
  have hrange := isLeading_iff.mp h
  obtain ⟨d, hd⟩ : ∃ d, c.toNat - 48 = d + 1 := ⟨c.toNat - 49, by omega⟩
  have hc := digit?_of_isDigit (isDigit_iff.mpr ⟨by omega, hrange.2⟩)
  rw [magnitude, hc, hd]

theorem magnitude_of_not_isLeading {c : UInt8} {cs : Bytes} (h : ¬ IsLeading c) :
    magnitude (c :: cs) = .error .badFirstDigit := by
  rw [isLeading_iff] at h
  by_cases hc : IsDigit c
  · have hrange := isDigit_iff.mp hc
    have hzero : c.toNat - 48 = 0 := by omega
    rw [magnitude, digit?_of_isDigit hc, hzero]
  · rw [magnitude, digit?_of_not_isDigit hc]

/-- A magnitude is read if it has 64 bits. -/
theorem magnitude_of_lt {c : UInt8} {cs : Bytes} (hc : IsLeading c)
    (hcs : ∀ x ∈ cs, IsDigit x) (h : valueFrom 0 (c :: cs) < magnitudeLimit) :
    magnitude (c :: cs) = .ok (valueFrom 0 (c :: cs)) := by
  rw [valueFrom_cons, Nat.zero_mul, Nat.zero_add] at *
  rw [magnitude_of_isLeading hc, accumulate_of_lt hcs h]

theorem magnitude_of_le {c : UInt8} {cs : Bytes} (hc : IsLeading c)
    (hcs : ∀ x ∈ cs, IsDigit x) (h : magnitudeLimit ≤ valueFrom 0 (c :: cs)) :
    ∃ e, magnitude (c :: cs) = .error e ∧ e.IsOverflow := by
  rw [valueFrom_cons, Nat.zero_mul, Nat.zero_add] at h
  rw [magnitude_of_isLeading hc]
  refine accumulate_of_le hcs ?_ h
  have hrange := isLeading_iff.mp hc
  have hlimit : magnitudeLimit = 0x10000000000000000 := rfl
  omega

theorem magnitude_of_not_isDigit {c x : UInt8} {cs : Bytes} (hc : IsLeading c) (hx : x ∈ cs)
    (hdigit : ¬ IsDigit x) (hlen : (c :: cs).length ≤ maxLength) :
    magnitude (c :: cs) = .error .badDigit := by
  have hrange := isLeading_iff.mp hc
  rw [List.length_cons] at hlen
  rw [magnitude_of_isLeading hc]
  exact accumulate_of_not_isDigit (show c.toNat - 48 < 10 ^ 1 by omega) (by omega) hx hdigit

/-! ### Reading texts -/

/-- The sign is applied to a magnitude that was read. -/
theorem parse_eq {s : Bytes} (hne : s ≠ []) (hlen : s.length ≤ maxLength) (hzero : s ≠ [zero]) :
    parse s = match magnitude (unsigned s) with
      | .error e => .error e
      | .ok v =>
        if s.head? = some minus then
          if -(v : Int) < minValue then .error .belowRange else .ok (-(v : Int))
        else if maxValue < (v : Int) then .error .aboveRange else .ok v := by
  have hguard : ¬ (s.isEmpty ∨ maxLength < s.length) := by
    rw [List.isEmpty_iff]
    exact fun h => h.elim hne (Nat.not_lt_of_le hlen)
  rw [parse, if_neg hguard, if_neg hzero, unsigned]
  split <;> rfl

/-- A refusal of the magnitude is one of the text. -/
theorem parse_of_magnitude_error {s : Bytes} {e : NumeralError} (hne : s ≠ [])
    (hlen : s.length ≤ maxLength) (hzero : s ≠ [zero])
    (h : magnitude (unsigned s) = .error e) : parse s = .error e := by
  rw [parse_eq hne hlen hzero, h]

theorem length_unsigned_le (s : Bytes) : (unsigned s).length ≤ s.length := by
  unfold unsigned
  split
  · rw [List.length_tail]
    exact Nat.sub_le _ _
  · exact Nat.le_refl _

theorem head_ne_minus {c : UInt8} {cs : Bytes} (h : IsLeading c) :
    (c :: cs).head? ≠ some minus := by
  have hrange := isLeading_iff.mp h
  intro hc
  obtain rfl : c = minus := Option.some.inj hc
  exact absurd hrange.1 (by decide)

theorem unsigned_of_isLeading {c : UInt8} {cs : Bytes} (h : IsLeading c) :
    unsigned (c :: cs) = c :: cs :=
  if_neg (head_ne_minus h)

theorem ne_zero_of_isLeading {c : UInt8} {cs : Bytes} (h : IsLeading c) : c :: cs ≠ [zero] := by
  rintro heq
  obtain rfl : c = zero := (List.cons.inj heq).1
  exact absurd (isLeading_iff.mp h).1 (by decide)

/-- The text without its minus is a magnitude exactly if the text is a numeral. -/
theorem isNumeral_of_unsigned {s : Bytes} {c : UInt8} {cs : Bytes} (hs : unsigned s = c :: cs)
    (hc : IsLeading c) (hcs : ∀ x ∈ cs, IsDigit x) : ∃ n, IsNumeral s n := by
  unfold unsigned at hs
  split at hs
  · next hminus =>
    obtain ⟨t, rfl⟩ := List.head?_eq_some_iff.mp hminus
    obtain rfl : t = c :: cs := hs
    exact ⟨_, .negative hc hcs⟩
  · subst hs
    exact ⟨_, .positive hc hcs⟩

/-- Without a minus, the number read must not be too large, -/
theorem parse_of_isLeading {c : UInt8} {cs : Bytes} (hc : IsLeading c)
    (hlen : (c :: cs).length ≤ maxLength) :
    parse (c :: cs) = match magnitude (c :: cs) with
      | .error e => .error e
      | .ok v => if maxValue < (v : Int) then .error .aboveRange else .ok v := by
  rw [parse_eq (List.cons_ne_nil _ _) hlen (ne_zero_of_isLeading hc), unsigned_of_isLeading hc]
  simp only [if_neg (head_ne_minus hc)]

/-- and behind a minus, its negation must not be too small. -/
theorem parse_minus_cons {c : UInt8} {cs : Bytes} (hlen : (minus :: c :: cs).length ≤ maxLength) :
    parse (minus :: c :: cs) = match magnitude (c :: cs) with
      | .error e => .error e
      | .ok v => if -(v : Int) < minValue then .error .belowRange else .ok (-(v : Int)) := by
  have hunsigned : unsigned (minus :: c :: cs) = c :: cs := rfl
  have hzero : minus :: c :: cs ≠ [zero] := by simp
  rw [parse_eq (List.cons_ne_nil _ _) hlen hzero, hunsigned]
  simp only [List.head?_cons, if_true]

/-- **A canonical numeral is read** if its value has 64 bits. -/
theorem parse_of_isNumeral {s : Bytes} {n : Int} (h : IsNumeral s n)
    (hlen : s.length ≤ maxLength) (hn : InRange n) : parse s = .ok n := by
  have hmin : minValue = -0x8000000000000000 := rfl
  have hmax : maxValue = 0x7FFFFFFFFFFFFFFF := rfl
  have hlimit : magnitudeLimit = 0x10000000000000000 := rfl
  obtain ⟨hlow, hhigh⟩ := hn
  cases h with
  | positive hc hcs =>
    rw [parse_of_isLeading hc hlen, magnitude_of_lt hc hcs (by omega)]
    exact if_neg (by omega)
  | negative hc hcs =>
    rw [parse_minus_cons hlen, magnitude_of_lt hc hcs (by omega)]
    exact if_neg (by omega)

/-- A canonical numeral of another value is refused, and the refusal says so. -/
theorem parse_of_isNumeral_of_not_inRange {s : Bytes} {n : Int} (h : IsNumeral s n)
    (hlen : s.length ≤ maxLength) (hn : ¬ InRange n) :
    ∃ e, parse s = .error e ∧ e.IsOverflow := by
  have hmin : minValue = -0x8000000000000000 := rfl
  have hmax : maxValue = 0x7FFFFFFFFFFFFFFF := rfl
  unfold InRange at hn
  -- the value has at most 64 bits without its sign, or it was too much before the sign
  cases h with
  | @positive c cs hc hcs =>
    rw [parse_of_isLeading hc hlen]
    rcases Nat.lt_or_ge (valueFrom 0 (c :: cs)) magnitudeLimit with hfits | hlarge
    · rw [magnitude_of_lt hc hcs hfits]
      exact ⟨_, if_pos (by omega), trivial⟩
    · obtain ⟨e, he, hover⟩ := magnitude_of_le hc hcs hlarge
      exact ⟨e, by rw [he], hover⟩
  | @negative c cs hc hcs =>
    rw [parse_minus_cons hlen]
    rcases Nat.lt_or_ge (valueFrom 0 (c :: cs)) magnitudeLimit with hfits | hlarge
    · rw [magnitude_of_lt hc hcs hfits]
      exact ⟨_, if_pos (by omega), trivial⟩
    · obtain ⟨e, he, hover⟩ := magnitude_of_le hc hcs hlarge
      exact ⟨e, by rw [he], hover⟩

/-! ### The classes of texts -/

/-- A text that is too long, or has nothing but a minus at most. -/
def LacksLength (s : Bytes) : Prop :=
  maxLength < s.length ∨ unsigned s = []

/-- A text whose magnitude does not begin with a digit from 1 to 9. -/
def LacksFirstDigit (s : Bytes) : Prop :=
  s.length ≤ maxLength ∧ s ≠ [zero] ∧ ∃ c cs, unsigned s = c :: cs ∧ ¬ IsLeading c

/-- A text whose magnitude begins well and goes on with a character that is no digit. -/
def LacksDigit (s : Bytes) : Prop :=
  s.length ≤ maxLength ∧ ∃ c cs, unsigned s = c :: cs ∧ IsLeading c ∧ ∃ x ∈ cs, ¬ IsDigit x

/-- **Every text is of one of these classes.** -/
theorem classes (s : Bytes) :
    LacksLength s ∨ s = [zero] ∨ LacksFirstDigit s ∨ LacksDigit s ∨
      (s.length ≤ maxLength ∧ ∃ n, IsNumeral s n) := by
  rcases Nat.lt_or_ge maxLength s.length with hlong | hlen
  · exact .inl (.inl hlong)
  by_cases hzero : s = [zero]
  · exact .inr (.inl hzero)
  cases hs : unsigned s with
  | nil => exact .inl (.inr hs)
  | cons c cs =>
    refine .inr (.inr ?_)
    by_cases hc : IsLeading c
    · by_cases hcs : ∀ x ∈ cs, IsDigit x
      · exact .inr (.inr ⟨hlen, isNumeral_of_unsigned hs hc hcs⟩)
      · obtain ⟨x, hx⟩ := Classical.not_forall.mp hcs
        obtain ⟨hmem, hdigit⟩ := Classical.not_imp.mp hx
        exact .inr (.inl ⟨hlen, c, cs, hs, hc, x, hmem, hdigit⟩)
    · exact .inl ⟨hlen, hzero, c, cs, hs, hc⟩

theorem parse_of_lacksLength {s : Bytes} (h : LacksLength s) : parse s = .error .badLength := by
  rcases h with hlong | hnil
  · rw [parse, if_pos (.inr hlong)]
  · match s with
    | [] => rfl
    | c :: cs =>
      -- what is left of a text without its minus is empty only for the minus alone
      unfold unsigned at hnil
      split at hnil
      · next hminus =>
        obtain rfl : c = minus := Option.some.inj hminus
        obtain rfl : cs = [] := hnil
        rfl
      · exact absurd hnil (List.cons_ne_nil c cs)

theorem ne_nil_of_unsigned {s : Bytes} {c : UInt8} {cs : Bytes} (h : unsigned s = c :: cs) :
    s ≠ [] := by
  rintro rfl
  exact absurd h (List.cons_ne_nil c cs).symm

theorem parse_of_lacksFirstDigit {s : Bytes} (h : LacksFirstDigit s) :
    parse s = .error .badFirstDigit := by
  obtain ⟨hlen, hzero, c, cs, hs, hc⟩ := h
  refine parse_of_magnitude_error (ne_nil_of_unsigned hs) hlen hzero ?_
  rw [hs, magnitude_of_not_isLeading hc]

theorem parse_of_lacksDigit {s : Bytes} (h : LacksDigit s) : parse s = .error .badDigit := by
  obtain ⟨hlen, c, cs, hs, hc, x, hx, hdigit⟩ := h
  have hzero : s ≠ [zero] := by
    rintro rfl
    obtain rfl : zero = c := (List.cons.inj hs).1
    exact absurd (isLeading_iff.mp hc).1 (by decide)
  refine parse_of_magnitude_error (ne_nil_of_unsigned hs) hlen hzero ?_
  rw [hs]
  exact magnitude_of_not_isDigit hc hx hdigit (hs ▸ Nat.le_trans (length_unsigned_le s) hlen)

/-! ### What is written is read -/

/-- The digits of a positive number are those of a numeral, and spell it. -/
theorem digits_spell {n : Nat} (h : 0 < n) :
    ∃ c cs, digits n = c :: cs ∧ IsLeading c ∧ (∀ x ∈ cs, IsDigit x) ∧
      valueFrom 0 (c :: cs) = n := by
  fun_induction digits n with
  | case1 n hn =>
    have hdigit : (UInt8.ofNat (zero.toNat + n)).toNat = 48 + n := by
      rw [UInt8.toNat_ofNat']
      change (48 + n) % 256 = 48 + n
      omega
    refine ⟨_, [], rfl, isLeading_iff.mpr (by omega), by simp, ?_⟩
    rw [valueFrom_cons, valueFrom_nil, hdigit]
    omega
  | case2 n hn ih =>
    have hdigit : (UInt8.ofNat (zero.toNat + n % 10)).toNat = 48 + n % 10 := by
      rw [UInt8.toNat_ofNat']
      change (48 + n % 10) % 256 = 48 + n % 10
      omega
    obtain ⟨c, cs, hdigits, hc, hcs, hvalue⟩ := ih (by omega)
    refine ⟨c, cs ++ [UInt8.ofNat (zero.toNat + n % 10)], by rw [hdigits, List.cons_append], hc, ?_,
      ?_⟩
    · intro x hx
      rcases List.mem_append.mp hx with hx | hx
      · exact hcs x hx
      · obtain rfl := List.mem_singleton.mp hx
        exact isDigit_iff.mpr (by omega)
    · rw [← List.cons_append, valueFrom_append, hvalue, valueFrom_cons, valueFrom_nil, hdigit]
      omega

theorem length_digits_le {n k : Nat} (hk : 0 < k) (h : n < 10 ^ k) : (digits n).length ≤ k := by
  induction k generalizing n with
  | zero => contradiction
  | succ k ih =>
    rw [digits]
    split
    · exact hk
    · next hn =>
      rw [Nat.pow_succ] at h
      have hpos : 0 < k := by
        refine Nat.pos_of_ne_zero fun hzero => hn ?_
        rw [hzero] at h
        omega
      have hfront := ih hpos (show n / 10 < 10 ^ k by omega)
      rw [List.length_append, List.length_singleton]
      omega

/-- What is written for an integer other than zero is a canonical numeral. -/
theorem isNumeral_render {n : Int} (h : n ≠ 0) : IsNumeral (render n) n := by
  obtain ⟨c, cs, hdigits, hc, hcs, hvalue⟩ := digits_spell (n := n.natAbs) (by omega)
  unfold render
  split
  · have hneg := IsNumeral.negative hc hcs
    rw [hvalue, ← hdigits] at hneg
    rwa [show -(n.natAbs : Int) = n by omega] at hneg
  · have hpos := IsNumeral.positive hc hcs
    rw [hvalue, ← hdigits] at hpos
    rwa [show (n.natAbs : Int) = n by omega] at hpos

/-- What is written for an integer of 64 bits is not too long. -/
theorem length_render_le {n : Int} (h : InRange n) : (render n).length ≤ maxLength := by
  have hmin : minValue = -0x8000000000000000 := rfl
  have hmax : maxValue = 0x7FFFFFFFFFFFFFFF := rfl
  obtain ⟨hlow, hhigh⟩ := h
  have hbound : (0x8000000000000000 : Nat) < 10 ^ 19 := by decide
  have hdigits := length_digits_le (n := n.natAbs) (k := 19) (by decide) (by omega)
  rw [render, maxLength]
  split
  · rw [List.length_cons]
    omega
  · omega

/-- **Every integer of 64 bits is read back from its text.** -/
theorem parse_render {n : Int} (h : InRange n) : parse (render n) = .ok n := by
  by_cases hzero : n = 0
  · rw [hzero, render_zero]
    rfl
  · exact parse_of_isNumeral (isNumeral_render hzero) (length_render_le h) h

/-- **The reader is the inverse of the writer.** -/
theorem parse_eq_ok_iff {s : Bytes} {n : Int} : parse s = .ok n ↔ InRange n ∧ s = render n := by
  constructor
  · intro h
    exact ⟨bounds_of_parse h, (render_of_parse h).symm⟩
  · rintro ⟨hn, rfl⟩
    exact parse_render hn

/-! ### The decimal text of an integer -/

theorem digits_eq_toDigits (n : Nat) :
    digits n = (Nat.toDigits 10 n).flatMap String.utf8EncodeChar := by
  have hall : ∀ d : Fin 10, String.utf8EncodeChar (Nat.digitChar d) =
      [UInt8.ofNat (zero.toNat + d)] := by decide
  fun_induction digits n with
  | case1 n hn =>
    rw [Nat.toDigits_of_lt_base hn, List.flatMap_singleton]
    exact (hall ⟨n, hn⟩).symm
  | case2 n hn ih =>
    have hlast := hall ⟨n % 10, Nat.mod_lt n (by decide)⟩
    rw [Nat.toDigits_of_base_le (by decide) (Nat.le_of_not_lt hn), List.flatMap_append,
      List.flatMap_singleton, hlast, ih]

/-- The writer writes an integer as the language does. -/
theorem render_eq_toString (n : Int) : render n = (toString n).toUTF8.data.toList := by
  have htext : ∀ m : Nat, (Nat.repr m).toByteArray.data.toList = digits m := fun m => by
    rw [Nat.repr, String.toByteArray_ofList, List.utf8Encode, digits_eq_toDigits]
    simp
  cases n with
  | ofNat m =>
    have hnonneg : ¬ Int.ofNat m < 0 := Int.not_lt.mpr (Int.natCast_nonneg m)
    rw [render, if_neg hnonneg]
    exact (htext m).symm
  | negSucc m =>
    rw [render, if_pos (Int.negSucc_lt_zero m)]
    change minus :: digits (m + 1) = ("-" ++ Nat.repr (m + 1)).toByteArray.data.toList
    rw [String.toByteArray_append, ByteArray.data_append, Array.toList_append, htext]
    rfl

/-! ### The verdict -/

/-- A canonical numeral, of right length, whose value has more than 64 bits. -/
def LeavesRange (s : Bytes) : Prop :=
  s.length ≤ maxLength ∧ ∃ n, IsNumeral s n ∧ ¬ InRange n

end Numeral

/-- What a refusal says about the text. -/
def NumeralError.Explains : NumeralError → Bytes → Prop
  | badLength => Numeral.LacksLength
  | badFirstDigit => Numeral.LacksFirstDigit
  | badDigit => Numeral.LacksDigit
  | overflowTimesTen | overflowPlusDigit | belowRange | aboveRange => Numeral.LeavesRange

namespace Numeral

/-- **A refusal is true of the text that it refuses.** -/
theorem explains_of_parse {s : Bytes} {e : NumeralError} (h : parse s = .error e) :
    e.Explains s := by
  rcases classes s with hlength | rfl | hfirst | hdigit | ⟨hlen, n, hn⟩
  · obtain rfl := Except.error.inj ((parse_of_lacksLength hlength).symm.trans h)
    exact hlength
  · contradiction
  · obtain rfl := Except.error.inj ((parse_of_lacksFirstDigit hfirst).symm.trans h)
    exact hfirst
  · obtain rfl := Except.error.inj ((parse_of_lacksDigit hdigit).symm.trans h)
    exact hdigit
  · by_cases hrange : InRange n
    · have hok := parse_of_isNumeral hn hlen hrange
      rw [h] at hok
      contradiction
    · obtain ⟨e', he', hover⟩ := parse_of_isNumeral_of_not_inRange hn hlen hrange
      obtain rfl := Except.error.inj (he'.symm.trans h)
      have hleaves : LeavesRange s := ⟨hlen, n, hn, hrange⟩
      cases e' with
      | overflowTimesTen | overflowPlusDigit | belowRange | aboveRange => exact hleaves
      | badLength | badFirstDigit | badDigit => exact hover.elim

/-- **A text is read exactly if it is the decimal text of an integer of 64 bits**, and a text
that is refused is refused for what is wrong with it: an overflow stands for a canonical
numeral of another value and for nothing else, and the other three refusals for a wrong length,
a wrong first character and a wrong character behind it. -/
theorem parse_decides (s : Bytes) :
    (∀ n, parse s = .ok n ↔ InRange n ∧ s = (toString n).toUTF8.data.toList) ∧
      ((∃ e, parse s = .error e ∧ e.IsOverflow) ↔
        s.length ≤ maxLength ∧ ∃ n, IsNumeral s n ∧ ¬ InRange n) ∧
      (parse s = .error .badLength ↔ LacksLength s) ∧
      (parse s = .error .badFirstDigit ↔ LacksFirstDigit s) ∧
      (parse s = .error .badDigit ↔ LacksDigit s) := by
  refine ⟨fun n => ?_, ⟨?_, ?_⟩, ⟨explains_of_parse, parse_of_lacksLength⟩,
    ⟨explains_of_parse, parse_of_lacksFirstDigit⟩, ⟨explains_of_parse, parse_of_lacksDigit⟩⟩
  · rw [parse_eq_ok_iff, render_eq_toString]
  · rintro ⟨e, he, hover⟩
    have hexplains := explains_of_parse he
    cases e with
    | overflowTimesTen | overflowPlusDigit | belowRange | aboveRange => exact hexplains
    | badLength | badFirstDigit | badDigit => exact hover.elim
  · rintro ⟨hlen, n, hn, hrange⟩
    exact parse_of_isNumeral_of_not_inRange hn hlen hrange

end Numeral

end UnrolledList
