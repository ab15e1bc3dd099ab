import UnrolledList.Packed.Body

/-!
# What is stored renders as what was given

A string that is the canonical text of an integer is stored as that integer, and read
back by writing the integer out. Nothing is lost on the way: `UnrolledList.Numeral.parse`
accepts **only texts that `UnrolledList.Numeral.render` produces**
(`UnrolledList.Numeral.render_of_parse`), and every integer it accepts fits the narrowest
word that is chosen for it (`UnrolledList.Number.toInt_ofInt`). So the body of a string
renders as that string (`UnrolledList.Body.render_ofBytes`).
-/

namespace UnrolledList

namespace Numeral

/-! ### Digits -/

theorem digits_of_lt {n : Nat} (h : n < 10) : digits n = [UInt8.ofNat (zero.toNat + n)] := by
  rw [digits, if_pos h]

theorem render_zero : render 0 = [zero] := by
  rw [render, if_neg (by decide), Int.natAbs_zero, digits_of_lt (by decide)]
  rfl

/-- A further digit is written behind those before it. -/
theorem digits_mul_ten_add {v d : Nat} (hv : 0 < v) (hd : d < 10) :
    digits (v * 10 + d) = digits v ++ [UInt8.ofNat (zero.toNat + d)] := by
  have hdiv : (v * 10 + d) / 10 = v := by omega
  have hmod : (v * 10 + d) % 10 = d := by omega
  rw [digits, if_neg (by omega), hdiv, hmod]

/-- A character that is read as a digit is the one written for it. -/
theorem eq_of_digit? {c : UInt8} {d : Nat} (h : digit? c = some d) :
    d < 10 ∧ c = UInt8.ofNat (zero.toNat + d) := by
  unfold digit? at h
  split at h
  · next hrange =>
    obtain ⟨hlow, hhigh⟩ := hrange
    rw [UInt8.le_iff_toNat_le] at hlow hhigh
    have hd : c.toNat - zero.toNat = d := Option.some.inj h
    have h48 : zero.toNat = 48 := rfl
    have h57 : (0x39 : UInt8).toNat = 57 := rfl
    have hc : zero.toNat + d = c.toNat := by omega
    refine ⟨by omega, ?_⟩
    rw [hc, UInt8.ofNat_toNat]
  · contradiction

/-! ### Reading is the inverse of writing -/

/-- What is read onto a value is what is written behind it. -/
theorem digits_of_accumulate {v m : Nat} {cs : Bytes} (hv : 0 < v)
    (h : accumulate v cs = .ok m) : v ≤ m ∧ digits m = digits v ++ cs := by
  induction cs generalizing v with
  | nil =>
    obtain rfl : v = m := Except.ok.inj h
    simp
  | cons c cs ih =>
    rw [accumulate] at h
    split at h
    · contradiction
    · next d hd =>
      obtain ⟨hd10, rfl⟩ := eq_of_digit? hd
      split at h
      · contradiction
      · split at h
        · contradiction
        · obtain ⟨hle, hdigits⟩ := ih (by omega) h
          refine ⟨by omega, ?_⟩
          rw [hdigits, digits_mul_ten_add hv hd10, List.append_assoc, List.singleton_append]

/-- A magnitude is positive and is written as it was read. -/
theorem digits_of_magnitude {s : Bytes} {m : Nat} (h : magnitude s = .ok m) :
    0 < m ∧ digits m = s := by
  match s with
  | [] => simp [magnitude] at h
  | c :: cs =>
    rw [magnitude] at h
    split at h
    · next d hd =>
      obtain ⟨hd10, rfl⟩ := eq_of_digit? hd
      obtain ⟨hle, hdigits⟩ := digits_of_accumulate (Nat.succ_pos d) h
      refine ⟨by omega, ?_⟩
      rw [hdigits, digits_of_lt hd10, List.singleton_append]
    · contradiction

/-- **Only what the writer produces is read**: an integer that was read from a text
renders as that text. -/
theorem render_of_parse {s : Bytes} {n : Int} (h : parse s = .ok n) : render n = s := by
  unfold parse at h
  split at h
  · contradiction
  · split at h
    · next hzero =>
      obtain rfl : 0 = n := Except.ok.inj h
      rw [hzero, render_zero]
    · split at h
      · next hminus =>
        split at h
        · contradiction
        · next v hv =>
          split at h
          · contradiction
          · obtain ⟨hpos, hdigits⟩ := digits_of_magnitude hv
            obtain rfl : -(v : Int) = n := Except.ok.inj h
            rw [render, if_pos (by omega), Int.natAbs_neg, Int.natAbs_natCast, hdigits]
            obtain ⟨t, rfl⟩ := List.head?_eq_some_iff.mp hminus
            rfl
      · split at h
        · contradiction
        · next v hv =>
          split at h
          · contradiction
          · obtain ⟨hpos, hdigits⟩ := digits_of_magnitude hv
            obtain rfl : (v : Int) = n := Except.ok.inj h
            rw [render, if_neg (by omega), Int.natAbs_natCast, hdigits]

/-- An integer that was read has at most 64 bits. -/
theorem bounds_of_parse {s : Bytes} {n : Int} (h : parse s = .ok n) :
    minValue ≤ n ∧ n ≤ maxValue := by
  have hmin : minValue = -0x8000000000000000 := rfl
  have hmax : maxValue = 0x7FFFFFFFFFFFFFFF := rfl
  unfold parse at h
  split at h
  · contradiction
  · split at h
    · obtain rfl : 0 = n := Except.ok.inj h
      omega
    · split at h
      · split at h
        · contradiction
        · split at h
          · contradiction
          · next v _ hrange =>
            obtain rfl : -(v : Int) = n := Except.ok.inj h
            omega
      · split at h
        · contradiction
        · split at h
          · contradiction
          · next v _ hrange =>
            obtain rfl : (v : Int) = n := Except.ok.inj h
            omega

end Numeral

/-! ### Words -/

namespace WordWidth

/-- A word gives back an integer that it holds. -/
theorem toInt_ofInt {w : WordWidth} {n : Int} (h : w.Holds n) :
    (BitVec.ofInt w.bits n).toInt = n := by
  rw [BitVec.toInt_ofInt]
  obtain ⟨hlow, hhigh⟩ := h
  apply Int.bmod_eq_of_le_mul_two
  all_goals cases w <;> simp only [bits, bytes, half] at * <;> omega

/-- A word stands for an integer that it holds. -/
theorem holds_toInt {w : WordWidth} (bits : BitVec w.bits) : w.Holds bits.toInt := by
  have hlow := BitVec.le_two_mul_toInt (x := bits)
  have hhigh := BitVec.two_mul_toInt_lt (x := bits)
  unfold Holds
  cases w <;> simp only [WordWidth.bits, bytes, half] at * <;> omega

/-- The narrowest word holds every integer of at most 64 bits. -/
theorem holds_narrowest {n : Int} (hlow : Numeral.minValue ≤ n) (hhigh : n ≤ Numeral.maxValue) :
    (narrowest n).Holds n := by
  unfold narrowest
  repeat' split
  all_goals first
    | assumption
    | (simp only [Holds, half, Numeral.minValue, Numeral.maxValue] at *; omega)

end WordWidth

/-- The stored form of an integer of at most 64 bits stands for that integer. -/
theorem Number.toInt_ofInt {n : Int} (hlow : Numeral.minValue ≤ n)
    (hhigh : n ≤ Numeral.maxValue) : (Number.ofInt n).toInt = n := by
  unfold Number.ofInt
  split
  · next h =>
    simp only [toInt]
    omega
  · exact WordWidth.toInt_ofInt (WordWidth.holds_narrowest hlow hhigh)

/-- **The body of a string renders as that string.** -/
@[simp] theorem Body.render_ofBytes (s : Bytes) : (Body.ofBytes s).value.render = s := by
  unfold Body.ofBytes
  split
  · next n hn =>
    obtain ⟨hlow, hhigh⟩ := Numeral.bounds_of_parse hn
    rw [value, Value.render_number, Number.toInt_ofInt hlow hhigh, Numeral.render_of_parse hn]
  · rfl

end UnrolledList
