import UnrolledList.Proofs.Toml.Lines

/-!
# Documents with a single heading

The other way round from `UnrolledList.Proofs.Toml.Lines`, where the lines of a document are
taken apart, a text is read here whose lines are known. It is one heading, a bare key in
brackets, and what says nothing. Such a text is a document with one table in it
(`UnrolledList.Toml.parse?_of_heading`).
-/

namespace UnrolledList

namespace Toml

/-! ### What the lines of a text say -/

/-- A text is read to its end as lines, of which those that are not empty are given. -/
inductive Tells : List Char → List Line → Prop
  | nil : Tells [] []
  | silent {s u : List Char} {ls : List Line} (h : line s = some (.empty, u))
      (hu : u.length < s.length) (hs : Tells u ls) : Tells s ls
  | said {s u : List Char} {l : Line} {ls : List Line} (h : line s = some (l, u))
      (hu : u.length < s.length) (hs : Tells u ls) : Tells s (l :: ls)

/-- The lines that say nothing leave a document as it is. -/
theorem Tells.go {s : List Char} {ls : List Line} (h : Tells s ls) (turns : List Char)
    (hturns : s.length ≤ turns.length) :
    ∃ all, Reader.many.go line turns s = some (all, []) ∧
      ∀ st : State, all.foldlM State.add st = ls.foldlM State.add st := by
  induction h generalizing turns with
  | nil => cases turns <;> exact ⟨[], rfl, fun _ => rfl⟩
  | @silent s u ls h hu _ ih =>
    rcases turns with - | ⟨turn, turns⟩
    · rw [List.length_nil] at hturns; omega
    · obtain ⟨all, hall, hadd⟩ := ih turns (by rw [List.length_cons] at hturns; omega)
      exact ⟨.empty :: all, by simp [Reader.many.go, h, hall], fun st => by
        simp [State.add, hadd]⟩
  | @said s u l ls h hu _ ih =>
    rcases turns with - | ⟨turn, turns⟩
    · rw [List.length_nil] at hturns; omega
    · obtain ⟨all, hall, hadd⟩ := ih turns (by rw [List.length_cons] at hturns; omega)
      exact ⟨l :: all, by simp [Reader.many.go, h, hall], fun st => by simp [hadd]⟩

/-- The document of a text is made of what its lines say. -/
theorem Tells.parse? {t : List Char} {ls : List Line} (h : Tells t ls)
    (hmark : ∀ v, t ≠ '\uFEFF' :: v) :
    Toml.parse? t = (ls.foldlM State.add {}).map State.root := by
  obtain ⟨all, hall, hadd⟩ := h.go t (Nat.le_refl _)
  have hlines : lines t = some (all, []) := (lines_iff hmark).2 ⟨hall, rfl⟩
  simp only [Toml.parse?, hlines, Option.bind_eq_bind, Option.bind_some, hadd]
  cases ls.foldlM State.add {} <;> rfl

/-- Characters in front change nothing if the line they stand on says the same without
them. -/
theorem Tells.append_left {f s : List Char} {ls : List Line} (hs : Tells s ls) (hf : f ≠ [])
    (hline : s ≠ [] → line (f ++ s) = line s) (hempty : line f = some (.empty, [])) :
    Tells (f ++ s) ls := by
  have hpos : 0 < f.length := List.length_pos_iff.2 hf
  cases hs with
  | nil => exact .silent (by simpa using hempty) (by simpa using hpos) .nil
  | silent h hu hs =>
    have hne : s ≠ [] := by rintro rfl; simp at hu
    exact .silent ((hline hne).trans h) (by simp only [List.length_append]; omega) hs
  | said h hu hs =>
    have hne : s ≠ [] := by rintro rfl; simp at hu
    exact .said ((hline hne).trans h) (by simp only [List.length_append]; omega) hs

theorem statement_eq_none {s : List Char}
    (h : ∀ c u, s.dropWhile isBlank = c :: u → ¬ BeginsStatement c) : statement s = none := by
  cases hs : statement s with
  | none => rfl
  | some p =>
    obtain ⟨c, u, hc, hbegins⟩ := statement_begins hs
    exact absurd hbegins (h c u hc)

/-- A line says nothing that begins with neither a blank nor a statement. -/
theorem line_of_silent {c : Char} (hblank : ¬ isBlank c) (hc : ¬ BeginsStatement c)
    (s : List Char) : line (c :: s) = (lineEnd (c :: s)).map fun p => (.empty, p.2) := by
  have hnone : statement ((c :: s).dropWhile isBlank) = none := by
    refine statement_eq_none fun d u hd => ?_
    rw [List.dropWhile_idempotent, List.dropWhile_cons_of_neg hblank, List.cons.injEq] at hd
    exact hd.1 ▸ hc
  simp [line_apply, hnone]

theorem line_feed (s : List Char) : line ('\n' :: s) = some (.empty, s) := by
  rw [line_of_silent (by decide) (by simp [BeginsStatement, BeginsKey, isBare]), lineEnd_feed]
  rfl

theorem line_carriage (s : List Char) : line ('\r' :: '\n' :: s) = some (.empty, s) := by
  rw [line_of_silent (by decide) (by simp [BeginsStatement, BeginsKey, isBare]), lineEnd_carriage]
  rfl

theorem line_comment {cs s : List Char} (hcs : ∀ c ∈ cs, isPlain c) (hs : LineOver s) :
    line ('#' :: (cs ++ s)) = (lineEnd s).map fun p => (.empty, p.2) := by
  rw [line_of_silent (by decide) (by simp [BeginsStatement, BeginsKey, isBare]),
    lineEnd_comment hcs hs]

/-- What a text says is said past what says nothing. -/
theorem Past.tells {P : List Char → Prop} {ls : List Line} (h : ∀ s, P s → Tells s ls)
    {s : List Char} (hs : Past P s) : Tells s ls := by
  induction hs with
  | here hs => exact h _ hs
  | @blank c s hc _ ih =>
    refine ih.append_left (f := [c]) (by simp) (fun hne => ?_) ?_
    · simp [line_apply, hc, hne, lineEnd_blank hc]
    · have hnone : statement [] = none := statement_eq_none (by simp)
      simp [line_apply, hc, lineEnd_blank hc, lineEnd_nil, hnone]
  | @comment cs s hcs hs _ ih =>
    refine ih.append_left (f := '#' :: cs) (by simp) (fun hne => ?_) ?_
    · rcases hs with rfl | ⟨u, rfl | rfl⟩
      · exact absurd rfl hne
      · rw [List.cons_append, line_comment hcs (.inr ⟨u, .inl rfl⟩), lineEnd_feed, line_feed]; rfl
      · rw [List.cons_append, line_comment hcs (.inr ⟨u, .inr rfl⟩), lineEnd_carriage,
          line_carriage]; rfl
    · simpa [lineEnd_nil] using line_comment hcs (.inl rfl)
  | feed _ ih => exact .silent (line_feed _) (by simp) ih
  | carriage _ ih =>
    exact .silent (line_carriage _) (by simp only [List.length_cons]; omega) ih

/-! ### A single heading -/

/-- A name in brackets, all on one line, with nothing but blanks and comments behind and
below. -/
inductive Heading (name : List Char) : List Char → Prop
  | intro {before after rest : List Char} (hbefore : ∀ c ∈ before, isBlank c)
      (hafter : ∀ c ∈ after, isBlank c) (hrest : Silent rest) :
      Heading name ('[' :: (before ++ (name ++ (after ++ ']' :: rest))))

theorem isBlank_of_isBare {c : Char} (h : isBare c) : ¬ isBlank c := by
  intro hc
  rcases (by simpa [isBlank] using hc : c = ' ' ∨ c = '\t') with rfl | rfl <;>
    simp [isBare] at h

section Heading

variable {name : List Char} (hne : name ≠ []) (hbare : ∀ c ∈ name, isBare c)
include hne hbare

theorem key_of_bare {before after rest : List Char} (hbefore : ∀ c ∈ before, isBlank c)
    (hafter : ∀ c ∈ after, isBlank c) :
    key (before ++ (name ++ (after ++ ']' :: rest))) = some (([], name), ']' :: rest) := by
  have hblank : (after ++ ']' :: rest).dropWhile isBlank = ']' :: rest := by
    rw [List.dropWhile_append_of_pos hafter]
    rfl
  have hstop : ∃ c u, after ++ ']' :: rest = c :: u ∧ ¬ isBare c := by
    rcases after with - | ⟨c, after⟩
    · exact ⟨']', rest, rfl, by simp [isBare]⟩
    · exact ⟨c, _, rfl, fun hc => isBlank_of_isBare hc (hafter c (by simp))⟩
  have hsimple : simpleKey ((before ++ (name ++ (after ++ ']' :: rest))).dropWhile isBlank)
      = some (name, after ++ ']' :: rest) := by
    obtain ⟨d, u, hd, hnbare⟩ := hstop
    rw [List.dropWhile_append_of_pos hbefore, hd]
    obtain ⟨c, name, rfl⟩ := List.exists_cons_of_ne_nil hne
    have hc : isBare c := hbare c (by simp)
    rw [List.cons_append, List.dropWhile_cons_of_neg (isBlank_of_isBare hc), simpleKey_bare hc,
      ← List.cons_append, List.takeWhile_append_of_pos hbare, List.dropWhile_append_of_pos hbare,
      List.takeWhile_cons_of_neg hnbare, List.dropWhile_cons_of_neg hnbare, List.append_nil]
  rw [key_of_simpleKey hsimple (by simp [hblank]), hblank]

/-- A heading is the header of a table. -/
theorem Heading.tells {s : List Char} (h : Heading name s) : Tells s [.table [] name] := by
  obtain @⟨before, after, rest, hbefore, hafter, hrest⟩ := h
  have hkey : key _ = some (([], name), ']' :: rest) := key_of_bare hne hbare hbefore hafter
  have hlen : rest.length < (before ++ (name ++ (after ++ ']' :: rest))).length := by
    simp; omega
  generalize before ++ (name ++ (after ++ ']' :: rest)) = x at hkey hlen ⊢
  have hseries : header ['[', '['] [']', ']'] ('[' :: x) = none := by
    cases h : header ['[', '['] [']', ']'] ('[' :: x) with
    | none => rfl
    | some p =>
      obtain ⟨v, hv, -⟩ := header_iff.1 h
      obtain rfl : x = '[' :: v := by simpa using hv
      rw [key_bracket] at hkey
      exact absurd hkey (by simp)
  have htable : header ['['] [']'] ('[' :: x) = some (([], name), rest) :=
    header_iff.2 ⟨x, rfl, hkey⟩
  obtain ⟨u, hend, hsilent, hle⟩ := lineEnd_of_silent hrest
  refine .said (u := u) ?_ ?_ (hsilent.tells fun v hv => hv ▸ .nil)
  · simp [line_apply, isBlank, statement, hseries, htable, hend]
  · rw [List.length_cons]; omega

/-- **A text with a single heading is a document**, and all there is in it is one table. -/
theorem parse?_of_heading {t : List Char} (h : Past (Heading name) t) :
    parse? t = some (.table false false [(name, .emptyTable false false)]) := by
  have htells : Tells t [.table [] name] := h.tells fun s hs => hs.tells hne hbare
  rw [htells.parse? fun v hv => ?_]
  · rfl
  · -- a byte order mark is nothing that a heading or what says nothing begins with
    subst hv
    cases h with
    | here h => cases h
    | blank hc => simp [isBlank] at hc

end Heading

end Toml

end UnrolledList
