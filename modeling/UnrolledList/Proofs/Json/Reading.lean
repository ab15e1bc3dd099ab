import Mathlib.Data.List.DropRight
import UnrolledList.Json.Reader

/-!
# What is read of a text

A reader of settings takes its pieces off a text from which the comments have been blanked out.
Two things are proved about that: outside of strings and comments the text is the one that was
written (`UnrolledList.Json.Source.ofText_append`), and a number that was found to be an integer
is its digits and nothing else (`UnrolledList.Json.finds_readNumber`). What a reader has found is
said with `UnrolledList.Json.Finds`, which goes through a reader step by step.
-/

namespace UnrolledList

namespace Json

/-! ### What a reader finds -/

section Finds

variable {α β : Type}

/-- What is read without an error is as `Q` says. -/
def Finds (x : Except ReadError α) (Q : α → Prop) : Prop :=
  ∀ a, x = .ok a → Q a

variable {Q : β → Prop}

@[simp]
theorem finds_ok {b : β} : Finds (.ok b) Q ↔ Q b := by
  simp [Finds]

@[simp]
theorem finds_error {e : ReadError} : Finds (.error e) Q := by
  simp [Finds]

@[simp]
theorem finds_pure {b : β} : Finds (pure b) Q ↔ Q b :=
  finds_ok

@[simp]
theorem finds_throw {e : ReadError} : Finds (throw e) Q :=
  finds_error

@[simp]
theorem finds_throw_bind {e : ReadError} {f : α → Except ReadError β} : Finds (throw e >>= f) Q :=
  finds_error

namespace Finds

theorem bind {x : Except ReadError α} {f : α → Except ReadError β} {P : α → Prop}
    (h : Finds x P) (hf : ∀ a, P a → Finds (f a) Q) : Finds (x >>= f) Q := by
  cases x with
  | error e => exact finds_throw
  | ok a => exact hf a (h a rfl)

/-- What is found does not always depend on what was read before. -/
theorem after {x : Except ReadError α} {f : α → Except ReadError β}
    (hf : ∀ a, Finds (f a) Q) : Finds (x >>= f) Q :=
  bind (P := fun _ => True) (fun _ _ => trivial) fun a _ => hf a

theorem mono {P : β → Prop} {x : Except ReadError β} (h : Finds x P)
    (hPQ : ∀ b, P b → Q b) : Finds x Q :=
  fun b hb => hPQ b (h b hb)

end Finds

end Finds

/-! ### Texts without their comments -/

namespace Source

/-- A text with characters put in front. -/
def prepend (w : List Char) (s : Source) : Source :=
  { s with rest := w ++ s.rest }

@[simp]
theorem prepend_rest (w : List Char) (s : Source) : (s.prepend w).rest = w ++ s.rest :=
  rfl

@[simp]
theorem prepend_prepend (v w : List Char) (s : Source) :
    (s.prepend w).prepend v = s.prepend (v ++ w) := by
  simp [prepend]

theorem prepend_right_inj {w : List Char} {s s' : Source} :
    s.prepend w = s'.prepend w ↔ s = s' := by
  obtain ⟨rest, intact⟩ := s
  obtain ⟨rest', intact'⟩ := s'
  simp [prepend]

/-- A character that stands for itself outside of strings and comments, and begins neither. -/
def IsOutside (c : Char) : Prop :=
  c ≠ '"' ∧ c ≠ '/' ∧ c ≠ '#'

theorem ofText_cons {c : Char} (hc : IsOutside c) (s : List Char) :
    ofText (c :: s) = (ofText s).prepend [c] := by
  simp [ofText, Scan.run, Scan.step, hc.1, hc.2.1, hc.2.2, prepend]

/-- What begins neither a string nor a comment is read as it was written. -/
theorem ofText_append {w : List Char} (hw : ∀ c ∈ w, IsOutside c) (s : List Char) :
    ofText (w ++ s) = (ofText s).prepend w := by
  induction w with
  | nil => rfl
  | cons c w ih =>
    rw [List.cons_append, ofText_cons (hw c (by simp)), ih fun d hd => hw d (by simp [hd]),
      prepend_prepend, List.singleton_append]

/-- A text that begins with the sign of a comment is read as one that begins with a blank; any
other begins as it was written. -/
theorem ofText_head (c : Char) (s : List Char) :
    ∃ u, (ofText (c :: s)).rest = (if c = '/' ∨ c = '#' then ' ' else c) :: u := by
  by_cases hq : c = '"'
  · subst hq
    exact ⟨(Scan.string.run s).rest, rfl⟩
  by_cases hslash : c = '/'
  · subst hslash
    exact ⟨(Scan.slash.run s).rest, rfl⟩
  by_cases hhash : c = '#'
  · subst hhash
    exact ⟨(Scan.line.run s).rest, rfl⟩
  · exact ⟨(ofText s).rest, by rw [ofText_cons ⟨hq, hslash, hhash⟩]; simp [hslash, hhash]⟩

@[simp]
theorem skipBlanks_skipBlanks (s : Source) : s.skipBlanks.skipBlanks = s.skipBlanks := by
  simp only [skipBlanks, List.dropWhile_idempotent]

theorem skipBlanks_of_rest {s : Source} {c : Char} {u : List Char} (hs : s.rest = c :: u)
    (hc : ¬ isBlank c) : s.skipBlanks = s := by
  rw [skipBlanks, hs, List.dropWhile_cons_of_neg hc, ← hs]

theorem skipBlanks_ofText_of_isOutside {c : Char} (hc : IsOutside c) (hblank : ¬ isBlank c)
    (s : List Char) : (ofText (c :: s)).skipBlanks = (ofText s).prepend [c] := by
  rw [ofText_cons hc]
  exact skipBlanks_of_rest rfl hblank

theorem skipBlanks_ofText_cons {c : Char} (hc : isBlank c) (s : List Char) :
    (ofText (c :: s)).skipBlanks = (ofText s).skipBlanks := by
  have houtside : IsOutside c := by
    refine ⟨?_, ?_, ?_⟩ <;> rintro rfl <;> simp [isBlank] at hc
  rw [ofText_cons houtside]
  simp [skipBlanks, prepend, hc]

end Source

/-- A comment up to the end of its line is read as blanks. -/
theorem Scan.skipBlanks_run_line {cs : List Char} (hcs : ∀ c ∈ cs, c ≠ '\n') (s : List Char) :
    (Scan.line.run (cs ++ s)).skipBlanks = (Scan.line.run s).skipBlanks := by
  induction cs with
  | nil => rfl
  | cons c cs ih =>
    rw [List.cons_append, Scan.run]
    simp only [Scan.step, if_neg (hcs c (by simp))]
    rw [← ih fun d hd => hcs d (by simp [hd])]
    simp [Source.skipBlanks, Source.isBlank]

/-! ### Numbers -/

theorem finds_realOf (significand : Nat) (exponent : Int) (s : Source) :
    Finds (realOf significand exponent s) fun p => p.1 = .real := by
  rw [realOf]
  split <;> simp

theorem finds_readExponent (significand : Nat) (scale : Int) (s : Source) :
    Finds (readExponent significand scale s) fun p => p.1 = .real := by
  dsimp only [readExponent]
  refine .after fun sign => ?_
  generalize (if sign = some '+' then (true, s.drop)
    else if sign = some '-' then (false, s.drop) else (true, s)) = p
  refine .after fun d => ?_
  split
  · exact finds_throw_bind
  split
  · split
    · exact finds_throw_bind
    · exact .after fun _ => finds_pure.2 rfl
  · exact .after fun _ => finds_realOf _ _ _

theorem finds_readFraction (significand : Nat) (scale : Int) (s : Source) :
    Finds (readFraction significand scale s) fun p => p.1 = .real := by
  dsimp only [readFraction]
  split
  · refine .after fun c => ?_
    split <;> exact finds_throw_bind
  · refine .after fun c => ?_
    split
    · exact finds_readExponent _ _ _
    · exact finds_realOf _ _ _

/-- Reads what may follow the digits of a number. -/
def finishNumber (positive : Bool) (ds : List Char) (s : Source) :
    Except ReadError (Number × Source) := do
  let (significand, unused) := accumulate 0 ds
  let scale : Int := unused.length
  let c ← s.peek
  if c = some '.' then readFraction significand scale s.drop
  else if c = some 'e' || c = some 'E' then readExponent significand scale s.drop
  else if !unused.isEmpty then realOf significand scale s
  else if positive then return (.integer significand, s)
  else if significand = 0 || 0x8000000000000000 < significand then return (.real, s)
  else return (.integer (-significand), s)

/-- A number is its digits, of which a leading zero counts alone, and what follows them. -/
theorem readNumber_eq (positive : Bool) (s : Source) :
    readNumber positive s = (do
      let (c, _) ← s.next
      if !c.isDigit then throw .malformed
      if c = '0' then
        match ← s.drop.peek with
        | some d => if d.isDigit then throw .malformed else finishNumber positive ['0'] s.digits.2
        | none => finishNumber positive ['0'] s.digits.2
      else finishNumber positive s.digits.1 s.digits.2) := by
  rfl

theorem finds_finishNumber (positive : Bool) (ds : List Char) (s : Source) :
    Finds (finishNumber positive ds s) fun p => p.1 = .real ∨ p.2 = s := by
  dsimp only [finishNumber]
  refine .after fun c => ?_
  split
  · exact (finds_readFraction _ _ _).mono fun _ => .inl
  split
  · exact (finds_readExponent _ _ _).mono fun _ => .inl
  split
  · exact (finds_realOf _ _ _).mono fun _ => .inl
  split
  · simp
  split <;> simp

theorem finds_next (s : Source) :
    Finds s.next fun p => s = p.2.prepend [p.1] := by
  obtain ⟨rest, intact⟩ := s
  cases rest <;> simp [Source.next, Source.prepend]

theorem finds_peek (s : Source) :
    Finds s.peek fun c => c = none → s = { rest := [], intact := true } := by
  obtain ⟨rest, intact⟩ := s
  cases rest <;> cases intact <;> simp [Source.peek]

/-- **An integer is its digits**: of a text from which one is read, they are what is missing. -/
theorem finds_readNumber (positive : Bool) (s : Source) :
    Finds (readNumber positive s) fun p => p.1 = .real ∨
      ∃ ds, ds ≠ [] ∧ (∀ d ∈ ds, d.isDigit) ∧ s = p.2.prepend ds := by
  rw [readNumber_eq]
  refine (finds_next s).bind fun ⟨c, u⟩ hc => ?_
  dsimp only at hc ⊢
  split
  · exact finds_throw_bind
  next hdigit =>
  have hds : s.digits.1 ≠ [] ∧ (∀ d ∈ s.digits.1, d.isDigit) ∧
      s = s.digits.2.prepend s.digits.1 := by
    have hrest : s.rest = c :: u.rest := by simp [hc]
    refine ⟨?_, fun d hd => List.mem_takeWhile_imp hd, ?_⟩
    · simpa [Source.digits, hrest] using hdigit
    · simp [Source.digits, Source.prepend]
  -- whichever digits count, all of them are passed over
  have hfinish (ds : List Char) : Finds (finishNumber positive ds s.digits.2) fun p =>
      p.1 = .real ∨ ∃ ds, ds ≠ [] ∧ (∀ d ∈ ds, d.isDigit) ∧ s = p.2.prepend ds :=
    (finds_finishNumber positive ds s.digits.2).mono fun p hp => hp.imp_right fun heq => by
      rw [heq]
      exact ⟨_, hds⟩
  split
  · refine .after fun d => ?_
    split
    · split
      · exact finds_throw
      · exact hfinish _
    · exact hfinish _
  · exact hfinish _

end Json

end UnrolledList
