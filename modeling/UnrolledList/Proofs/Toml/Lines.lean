import Mathlib.Data.List.DropRight
import UnrolledList.Toml.Document

/-!
# Where a document says something

A document is read line by line, and much of what its lines are made of says nothing: blanks,
comments, line breaks. `UnrolledList.Toml.Past` passes over these, and then a text that is a
document is over, or a statement stands there (`UnrolledList.Toml.past_of_parse?`). How values
are read does not matter for that. What matters is the character that a statement begins with.
-/

namespace UnrolledList

namespace Toml

/-! ### Readers applied to a text -/

namespace Reader

variable {α β : Type}

@[simp]
theorem bind_apply (r : Reader α) (f : α → Reader β) (s : List Char) :
    (r >>= f) s = (r s).bind fun p => f p.1 p.2 :=
  rfl

@[simp]
theorem map_apply (f : α → β) (r : Reader α) (s : List Char) :
    (f <$> r) s = (r s).map fun p => (f p.1, p.2) := by
  show (r s).bind (fun p => some (f p.1, p.2)) = _
  cases r s <;> rfl

@[simp]
theorem pure_apply (a : α) (s : List Char) : (pure a : Reader α) s = some (a, s) :=
  rfl

@[simp]
theorem orElse_apply (r r' : Reader α) (s : List Char) :
    (r <|> r') s = (r s).orElse fun _ => r' s :=
  rfl

theorem bind_some {r : Reader α} {f : α → Reader β} {s u : List Char} {b : β} :
    (r >>= f) s = some (b, u) ↔ ∃ a v, r s = some (a, v) ∧ f a v = some (b, u) := by
  simp [Option.bind_eq_some_iff]

theorem orElse_some {r r' : Reader α} {s u : List Char} {a : α}
    (h : (r <|> r') s = some (a, u)) : r s = some (a, u) ∨ r' s = some (a, u) := by
  cases hr : r s with
  | none => exact .inr (by simpa [hr] using h)
  | some p => exact .inl (by simpa [hr] using h)

@[simp]
theorem get_apply (s : List Char) : (get : Reader (List Char)) s = some (s, s) :=
  rfl

@[simp]
theorem allOf_apply (p : Char → Bool) (s : List Char) :
    allOf p s = some (s.takeWhile p, s.dropWhile p) :=
  rfl

@[simp]
theorem oneOf_nil (p : Char → Bool) : oneOf p [] = none :=
  rfl

@[simp]
theorem oneOf_cons (p : Char → Bool) (c : Char) (s : List Char) :
    oneOf p (c :: s) = if p c then some (c, s) else none :=
  rfl

@[simp]
theorem char_nil (c : Char) : char c [] = none :=
  rfl

@[simp]
theorem char_cons (c d : Char) (s : List Char) :
    char c (d :: s) = if d = c then some ((), s) else none := by
  by_cases h : d = c <;> simp [char, h]

theorem chars_iff {cs s u : List Char} {a : Unit} :
    chars cs s = some (a, u) ↔ s = cs ++ u := by
  induction cs generalizing s with
  | nil => simp [chars]
  | cons c cs ih =>
    rcases s with - | ⟨d, s⟩
    · simp [chars]
    · by_cases h : d = c <;> simp [chars, h, ih]

/-- Taking at least one character takes all that fit, if the first one does. -/
theorem someOf_cons {p : Char → Bool} {c : Char} (h : p c) (s : List Char) :
    someOf p (c :: s) = some ((c :: s).takeWhile p, (c :: s).dropWhile p) := by
  simp [someOf, h]

/-- What is not there at all is read no times. -/
theorem many_of_none {r : Reader α} {s : List Char} (h : r s = none) :
    many r s = some ([], s) := by
  cases s <;> simp [many, many.go, h]

end Reader

/-! ### Passing over what says nothing -/

/-- A line is over: so is the text, or a line break follows. -/
def LineOver (s : List Char) : Prop :=
  s = [] ∨ ∃ u, s = '\n' :: u ∨ s = '\r' :: '\n' :: u

/-- Past the blanks, the comments and the line breaks in front, a text is as `P` says. -/
inductive Past (P : List Char → Prop) : List Char → Prop
  | here {s : List Char} (h : P s) : Past P s
  | blank {c : Char} {s : List Char} (hc : isBlank c) (h : Past P s) : Past P (c :: s)
  | comment {cs s : List Char} (hcs : ∀ c ∈ cs, isPlain c) (hs : LineOver s) (h : Past P s) :
      Past P ('#' :: (cs ++ s))
  | feed {s : List Char} (h : Past P s) : Past P ('\n' :: s)
  | carriage {s : List Char} (h : Past P s) : Past P ('\r' :: '\n' :: s)

/-- A text that says nothing: there are only blanks, comments and line breaks in it. -/
abbrev Silent : List Char → Prop :=
  Past (· = [])

theorem Past.mono {P Q : List Char → Prop} (h : ∀ s, P s → Q s) {s : List Char}
    (hs : Past P s) : Past Q s := by
  induction hs with
  | here hs => exact .here (h _ hs)
  | blank hc _ ih => exact .blank hc ih
  | comment hcs hs _ ih => exact .comment hcs hs ih
  | feed _ ih => exact .feed ih
  | carriage _ ih => exact .carriage ih

/-- What is passed over ends at one place of the text. -/
theorem Past.exists_eq {P : List Char → Prop} {s : List Char} (hs : Past P s) :
    ∃ v, P v ∧ Past (· = v) s := by
  induction hs with
  | here h => exact ⟨_, h, .here rfl⟩
  | blank hc _ ih => exact ih.imp fun v hv => ⟨hv.1, .blank hc hv.2⟩
  | comment hcs hs _ ih => exact ih.imp fun v hv => ⟨hv.1, .comment hcs hs hv.2⟩
  | feed _ ih => exact ih.imp fun v hv => ⟨hv.1, .feed hv.2⟩
  | carriage _ ih => exact ih.imp fun v hv => ⟨hv.1, .carriage hv.2⟩

/-- Blanks in front may be left out. -/
theorem Past.of_dropWhile {P : List Char → Prop} {s : List Char}
    (h : Past P (s.dropWhile isBlank)) : Past P s := by
  induction s with
  | nil => exact h
  | cons c s ih =>
    by_cases hc : isBlank c
    · rw [List.dropWhile_cons_of_pos hc] at h
      exact .blank hc (ih h)
    · rwa [List.dropWhile_cons_of_neg hc] at h

/-! ### The end of a line -/

theorem lineBreak_feed (s : List Char) : lineBreak ('\n' :: s) = some ((), s) := by
  simp [lineBreak]

theorem lineBreak_carriage (s : List Char) : lineBreak ('\r' :: '\n' :: s) = some ((), s) := by
  simp [lineBreak, Reader.chars]

theorem lineBreak_some {s u : List Char} (h : lineBreak s = some ((), u)) :
    s = '\n' :: u ∨ s = '\r' :: '\n' :: u := by
  rcases s with - | ⟨c, s⟩
  · simp [lineBreak, Reader.chars] at h
  by_cases hc : c = '\n'
  · subst hc
    simp [lineBreak_feed] at h
    simp [h]
  rcases s with - | ⟨d, s⟩
  · by_cases hr : c = '\r' <;> simp [lineBreak, Reader.chars, hc, hr] at h
  · by_cases hr : c = '\r' <;> by_cases hd : d = '\n' <;>
      simp_all [lineBreak, Reader.chars]

/-- How a line ends: blanks and a comment are passed over first. -/
theorem lineEnd_apply (s : List Char) :
    lineEnd s = match s.dropWhile isBlank with
      | '#' :: u => (lineBreak <|> Reader.atEnd) (u.dropWhile isPlain)
      | u => (lineBreak <|> Reader.atEnd) u := by
  simp only [lineEnd, blanks, Reader.bind_apply, Reader.allOf_apply, Option.bind_some,
    Reader.pure_apply]
  generalize s.dropWhile isBlank = u
  rcases u with - | ⟨c, u⟩
  · rfl
  · by_cases hc : c = '#'
    · subst hc
      simp [Reader.optional, comment]
    · simp [Reader.optional, comment, hc]

theorem lineEnd_nil : lineEnd [] = some ((), []) :=
  rfl

theorem lineEnd_blank {c : Char} (hc : isBlank c) (s : List Char) :
    lineEnd (c :: s) = lineEnd s := by
  simp only [lineEnd_apply, List.dropWhile_cons_of_pos hc]

theorem lineEnd_dropWhile (s : List Char) : lineEnd (s.dropWhile isBlank) = lineEnd s := by
  simp only [lineEnd_apply, List.dropWhile_idempotent]

theorem lineEnd_feed (s : List Char) : lineEnd ('\n' :: s) = some ((), s) := by
  simp [lineEnd_apply, isBlank, lineBreak_feed]

theorem lineEnd_carriage (s : List Char) : lineEnd ('\r' :: '\n' :: s) = some ((), s) := by
  simp [lineEnd_apply, isBlank, lineBreak_carriage]

/-- A comment changes nothing about how its line ends. -/
theorem lineEnd_comment {cs s : List Char} (hcs : ∀ c ∈ cs, isPlain c) (hs : LineOver s) :
    lineEnd ('#' :: (cs ++ s)) = lineEnd s := by
  have hdrop : (cs ++ s).dropWhile isPlain = s := by
    rw [List.dropWhile_append_of_pos hcs]
    rcases hs with rfl | ⟨u, rfl | rfl⟩ <;> rfl
  have hleft : lineEnd ('#' :: (cs ++ s)) = (lineBreak <|> Reader.atEnd) s := by
    simp [lineEnd_apply, isBlank, hdrop]
  rw [hleft]
  rcases hs with rfl | ⟨u, rfl | rfl⟩
  · rfl
  · simp [lineEnd_feed, lineBreak_feed]
  · simp [lineEnd_carriage, lineBreak_carriage]

/-- What stands between the last part of a line and the next line says nothing. -/
theorem Past.of_lineEnd {P : List Char → Prop} {s u : List Char}
    (h : lineEnd s = some ((), u)) (hu : Past P u) : Past P s := by
  have stop : ∀ {v : List Char}, (lineBreak <|> Reader.atEnd) v = some ((), u) →
      LineOver v ∧ Past P v := by
    intro v hv
    rcases v with - | ⟨c, v⟩
    · obtain rfl : u = [] := by simpa [lineBreak, Reader.chars, Reader.atEnd, eq_comm] using hv
      exact ⟨.inl rfl, hu⟩
    · have hbreak : lineBreak (c :: v) = some ((), u) := by
        simpa [Reader.atEnd] using hv
      rcases lineBreak_some hbreak with heq | heq
      · exact ⟨.inr ⟨u, .inl heq⟩, heq ▸ .feed hu⟩
      · exact ⟨.inr ⟨u, .inr heq⟩, heq ▸ .carriage hu⟩
  rw [lineEnd_apply] at h
  refine .of_dropWhile ?_
  split at h
  · next v heq =>
    rw [heq, ← List.takeWhile_append_dropWhile (p := isPlain) (l := v)]
    exact .comment (fun c hc => List.mem_takeWhile_imp hc) (stop h).1 (stop h).2
  · exact (stop h).2

/-- After a silent rest of a line comes a silent text. -/
theorem lineEnd_of_silent {s : List Char} (h : Silent s) :
    ∃ u, lineEnd s = some ((), u) ∧ Silent u ∧ u.length ≤ s.length := by
  induction h with
  | here h => exact ⟨[], h ▸ lineEnd_nil, .here rfl, by simp⟩
  | blank hc _ ih =>
    obtain ⟨u, hu, hsilent, hle⟩ := ih
    exact ⟨u, by rw [lineEnd_blank hc, hu], hsilent, by simp; omega⟩
  | comment hcs hs _ ih =>
    obtain ⟨u, hu, hsilent, hle⟩ := ih
    exact ⟨u, by rw [lineEnd_comment hcs hs, hu], hsilent, by simp; omega⟩
  | feed h _ => exact ⟨_, lineEnd_feed _, h, by simp⟩
  | carriage h _ => exact ⟨_, lineEnd_carriage _, h, by simp; omega⟩

/-! ### Keys and statements -/

/-- A character that a key may begin with. -/
def BeginsKey (c : Char) : Prop :=
  c = '"' ∨ c = '\'' ∨ isBare c

theorem simpleKey_some {s u k : List Char} (h : simpleKey s = some (k, u)) :
    ∃ c v, s = c :: v ∧ BeginsKey c := by
  rcases s with - | ⟨c, v⟩
  · simp [simpleKey, basicString, literalString, Reader.someOf] at h
  · refine ⟨c, v, rfl, ?_⟩
    by_contra hc
    simp only [BeginsKey, not_or] at hc
    obtain ⟨hq, hl, hb⟩ := hc
    simp [simpleKey, basicString, literalString, Reader.someOf, hq, hl, hb] at h

theorem simpleKey_bare {c : Char} (hc : isBare c) (s : List Char) :
    simpleKey (c :: s) = some ((c :: s).takeWhile isBare, (c :: s).dropWhile isBare) := by
  have hq : c ≠ '"' := by rintro rfl; simp [isBare] at hc
  have hl : c ≠ '\'' := by rintro rfl; simp [isBare] at hc
  simp only [simpleKey, basicString, literalString, Reader.orElse_apply, Reader.bind_apply,
    Reader.char_cons, if_neg hq, if_neg hl, Option.bind_none, Option.orElse_none,
    Reader.someOf_cons hc]

theorem key_begins {s u : List Char} {k : List (List Char) × List Char}
    (h : key s = some (k, u)) : ∃ c v, s.dropWhile isBlank = c :: v ∧ BeginsKey c := by
  cases hsimple : simpleKey (s.dropWhile isBlank) with
  | none => simp [key, blanks, hsimple] at h
  | some p => exact simpleKey_some hsimple

/-- A key that no dot follows is its one part. -/
theorem key_of_simpleKey {s w u : List Char}
    (h : simpleKey (s.dropWhile isBlank) = some (w, u))
    (hdot : ∀ v, u.dropWhile isBlank ≠ '.' :: v) :
    key s = some (([], w), u.dropWhile isBlank) := by
  have hchar : Reader.char '.' (u.dropWhile isBlank) = none := by
    rcases heq : u.dropWhile isBlank with - | ⟨c, v⟩
    · rfl
    · have hc : c ≠ '.' := by rintro rfl; exact hdot v heq
      simp [hc]
  have hmany {α : Type} (r : Reader α) :
      Reader.many (do Reader.char '.'; r) (u.dropWhile isBlank)
        = some ([], u.dropWhile isBlank) :=
    Reader.many_of_none (by simp [hchar])
  simp [key, blanks, h, hmany, Reader.check, maxNesting]

/-- A character that a statement may begin with. -/
def BeginsStatement (c : Char) : Prop :=
  c = '[' ∨ BeginsKey c

/-- No key begins with a bracket. -/
theorem key_bracket (s : List Char) : key ('[' :: s) = none := by
  cases h : key ('[' :: s) with
  | none => rfl
  | some p =>
    obtain ⟨c, u, hc, hbegins⟩ := key_begins h
    obtain ⟨rfl, -⟩ : '[' = c ∧ s = u := by simpa [isBlank] using hc
    simp [BeginsKey, isBare] at hbegins

theorem header_iff {opening closing s u : List Char} {k : List (List Char) × List Char} :
    header opening closing s = some (k, u) ↔
      ∃ v, s = opening ++ v ∧ key v = some (k, closing ++ u) := by
  simp only [header, Reader.bind_some, Reader.chars_iff, Reader.pure_apply, Option.some.injEq,
    Prod.mk.injEq]
  constructor
  · rintro ⟨-, v, hs, _, _, hkey, -, _, rfl, rfl, rfl⟩
    exact ⟨v, hs, hkey⟩
  · rintro ⟨v, hs, hkey⟩
    exact ⟨(), v, hs, k, _, hkey, (), u, rfl, rfl, rfl⟩

/-- Statements of two kinds are headers, and those of the third kind begin with a key. -/
theorem statement_some {s u : List Char} {l : Line} (h : statement s = some (l, u)) :
    (∃ v, s = '[' :: '[' :: v) ∨ (∃ v k, s = '[' :: v ∧ key v = some (k, ']' :: u)) ∨
      ∃ k v, key s = some (k, v) := by
  rcases Reader.orElse_some h with hseries | h
  · obtain ⟨k, w, hk, -⟩ := Reader.bind_some.1 hseries
    obtain ⟨v, hs, -⟩ := header_iff.1 hk
    exact .inl ⟨v, hs⟩
  rcases Reader.orElse_some h with htable | hassign
  · obtain ⟨k, w, hk, hw⟩ := Reader.bind_some.1 htable
    obtain ⟨v, hs, hkey⟩ := header_iff.1 hk
    obtain ⟨-, rfl⟩ : _ ∧ w = u := by simpa using hw
    exact .inr (.inl ⟨v, k, hs, hkey⟩)
  · obtain ⟨m, v, hm, -⟩ := Reader.bind_some.1 hassign
    obtain ⟨k, w, hkey, -⟩ := Reader.bind_some.1 hm
    exact .inr (.inr ⟨k, w, hkey⟩)

/-- A statement begins with a bracket or with a key. -/
theorem statement_begins {s u : List Char} {l : Line} (h : statement s = some (l, u)) :
    ∃ c v, s.dropWhile isBlank = c :: v ∧ BeginsStatement c := by
  rcases statement_some h with ⟨v, rfl⟩ | ⟨v, k, rfl, -⟩ | ⟨k, v, hkey⟩
  · exact ⟨'[', _, rfl, .inl rfl⟩
  · exact ⟨'[', _, rfl, .inl rfl⟩
  · obtain ⟨c, w, hc, hbegins⟩ := key_begins hkey
    exact ⟨c, w, hc, .inr hbegins⟩

/-- What stands at a bracket is a header. -/
theorem statement_bracket {s u : List Char} {l : Line}
    (h : statement ('[' :: s) = some (l, u)) :
    (∃ v, s = '[' :: v) ∨ ∃ k, key s = some (k, ']' :: u) := by
  rcases statement_some h with ⟨v, heq⟩ | ⟨v, k, heq, hkey⟩ | ⟨k, v, hkey⟩
  · exact .inl ⟨v, List.tail_eq_of_cons_eq heq⟩
  · exact .inr ⟨k, List.tail_eq_of_cons_eq heq ▸ hkey⟩
  · rw [key_bracket] at hkey
    exact absurd hkey (by simp)

/-! ### Lines -/

theorem line_apply (s : List Char) :
    line s = if s = [] then none
      else match statement (s.dropWhile isBlank) with
        | some (l, u) => (lineEnd u).map fun p => (l, p.2)
        | none => (lineEnd s).map fun p => (.empty, p.2) := by
  rcases s with - | ⟨c, s⟩
  · rfl
  · rw [← lineEnd_dropWhile (c :: s)]
    cases h : statement ((c :: s).dropWhile isBlank) with
    | none =>
      cases hend : lineEnd ((c :: s).dropWhile isBlank) <;>
        simp [line, blanks, Reader.optional, Reader.check, h, hend]
    | some p =>
      cases hend : lineEnd p.2 <;>
        simp [line, blanks, Reader.optional, Reader.check, h, hend]

/-- A text is over or goes on with what a statement begins with. -/
def GoesOn (s : List Char) : Prop :=
  s = [] ∨ ∃ c u, s = c :: u ∧ BeginsStatement c

/-- A statement stands in front of a text, with nothing else on its line, and so do those
below. -/
def Opens (s : List Char) : Prop :=
  GoesOn s ∧ ∃ l u, statement s = some (l, u) ∧ Past GoesOn u

/-- A line that was read says nothing, or there is a statement on it. -/
theorem Past.of_line {s u : List Char} {l : Line} (h : line s = some (l, u))
    (hu : Past (fun v => v = [] ∨ Opens v) u) : Past (fun v => v = [] ∨ Opens v) s := by
  rw [line_apply] at h
  split at h
  · simp at h
  split at h
  · next l' v hstatement =>
    obtain ⟨⟨⟩, w, hend, -, rfl⟩ : ∃ a w, lineEnd v = some (a, w) ∧ l' = l ∧ w = u := by
      simpa using h
    obtain ⟨c, x, hc, hbegins⟩ := statement_begins hstatement
    rw [List.dropWhile_idempotent] at hc
    refine .of_dropWhile (.here (.inr ⟨.inr ⟨c, x, hc, hbegins⟩, l', v, hstatement, ?_⟩))
    exact .of_lineEnd hend (hu.mono fun y hy => hy.elim .inl (·.1))
  · obtain ⟨⟨⟩, w, hend, -, rfl⟩ : ∃ a w, lineEnd s = some (a, w) ∧ Line.empty = l ∧ w = u := by
      simpa using h
    exact .of_lineEnd hend hu

/-- **Where a document says something**: past what says nothing, a text that is read to its end
line by line is over, or a statement stands there. -/
theorem Past.of_lines {turns s : List Char} {ls : List Line}
    (h : Reader.many.go line turns s = some (ls, [])) :
    Past (fun v => v = [] ∨ Opens v) s := by
  induction turns generalizing s ls with
  | nil =>
    obtain ⟨-, rfl⟩ : _ ∧ s = [] := by simpa [Reader.many.go] using h
    exact .here (.inl rfl)
  | cons _ turns ih =>
    rw [Reader.many.go] at h
    split at h
    · obtain ⟨-, rfl⟩ : _ ∧ s = [] := by simpa using h
      exact .here (.inl rfl)
    · next l rest hline =>
      split at h
      · simp at h
      · next ls' rest' hgo =>
        obtain ⟨-, rfl⟩ : _ ∧ rest' = [] := by simpa using h
        exact .of_line hline (ih hgo)

/-- Without a byte order mark, a text is the lines that it can be cut into. -/
theorem lines_iff {t u : List Char} {all : List Line} (hmark : ∀ v, t ≠ '\uFEFF' :: v) :
    lines t = some (all, u) ↔ Reader.many.go line t t = some (all, []) ∧ u = [] := by
  have hoptional : Reader.optional (Reader.char '\uFEFF') t = some (none, t) := by
    rcases t with - | ⟨c, t⟩
    · rfl
    · have hc : c ≠ '\uFEFF' := by rintro rfl; exact hmark t rfl
      simp [Reader.optional, hc]
  have hmany : Reader.many line t = Reader.many.go line t t := rfl
  rcases hgo : Reader.many.go line t t with - | ⟨ls, rest⟩
  · simp [lines, hoptional, hmany, hgo]
  · rcases rest with - | ⟨c, rest⟩
    · simp [lines, hoptional, hmany, hgo, Reader.atEnd, @eq_comm _ [] u]
    · simp [lines, hoptional, hmany, hgo, Reader.atEnd]

/-- Past what says nothing, a document is over, or a statement stands there. -/
theorem past_of_parse? {t : List Char} {root : Node} (hmark : ∀ v, t ≠ '\uFEFF' :: v)
    (h : parse? t = some root) : Past (fun v => v = [] ∨ Opens v) t := by
  obtain ⟨⟨all, u⟩, hlines, -⟩ := Option.bind_eq_some_iff.1 h
  exact .of_lines ((lines_iff hmark).1 hlines).1

end Toml

end UnrolledList
