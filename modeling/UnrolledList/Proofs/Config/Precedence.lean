import UnrolledList.Config.Load
import UnrolledList.Proofs.Json.Reading
import UnrolledList.Proofs.Toml.Headings

/-!
# Texts in two formats

Settings are looked for in TOML first and in JSON only if the text is no TOML, so a text that is
both has two meanings and gets the first. There are such texts: an array of one integer is also
the header of a table, whose name is the integer, and then no setting is given. This module
proves that there are no others (`UnrolledList.Config.parse_of_ofJson`).
-/

namespace UnrolledList

namespace Config

open Json

/-- An integer as it is written: digits, and perhaps a minus sign in front. -/
def IsInteger (w : List Char) : Prop :=
  ∃ ds, ds ≠ [] ∧ (∀ d ∈ ds, d.isDigit) ∧ (w = ds ∨ w = '-' :: ds)

/-- A text that is one line with an integer in brackets, apart from blanks, from comments with a
number sign and from lines with nothing else on them. -/
def IsHeading (t : List Char) : Prop :=
  ∃ n, IsInteger n ∧ Toml.Past (Toml.Heading n) t

/-! ### What is read of an array -/

theorem finds_readSetting (s : Source) :
    Finds (readSetting s) fun p => ∃ w, IsInteger w ∧ s.skipBlanks = p.2.prepend w := by
  dsimp only [readSetting]
  refine (finds_next _).bind fun ⟨c, u⟩ hc => ?_
  dsimp only at hc ⊢
  split
  · next hminus =>
    refine (finds_readNumber _ _).bind fun ⟨n, v⟩ hn => ?_
    split
    · obtain ⟨ds, hne, hds, hu⟩ := hn.resolve_left (by simp_all)
      split
      · refine finds_pure.2 ⟨'-' :: ds, ⟨ds, hne, hds, .inr rfl⟩, ?_⟩
        rw [hc, hu, hminus, Source.prepend_prepend, List.singleton_append]
      · simp
    · simp
  split
  · refine (finds_readNumber _ _).bind fun ⟨n, v⟩ hn => ?_
    split
    · obtain ⟨ds, hne, hds, hs⟩ := hn.resolve_left (by simp_all)
      split
      · exact finds_pure.2 ⟨ds, ⟨ds, hne, hds, .inl rfl⟩, hs⟩
      · simp
    · simp
  · simp

theorem finds_readElement_first (s : Source) :
    Finds (readElement true s) fun p => (∃ v, s.skipBlanks.rest = ']' :: v) ∨
      ∃ w, IsInteger w ∧ s.skipBlanks = p.2.prepend w := by
  dsimp only [readElement]
  refine (finds_next _).bind fun ⟨c, u⟩ hc => ?_
  dsimp only at hc ⊢
  split
  · next hclose => simp [hc, hclose]
  · simp only [if_true]
    refine (finds_readSetting _).bind fun p hp => ?_
    rw [Source.skipBlanks_skipBlanks] at hp
    exact finds_pure.2 (.inr hp)

theorem finds_readElement (s : Source) :
    Finds (readElement false s) fun p => (∃ v, s.skipBlanks.rest = ',' :: v) ∨
      (∃ v, s.skipBlanks.rest = ']' :: v) ∧ p.2 = s.skipBlanks := by
  dsimp only [readElement]
  refine (finds_next _).bind fun ⟨c, u⟩ hc => ?_
  dsimp only at hc ⊢
  split
  · next hclose => simp [hc, hclose]
  · by_cases hcomma : c = ','
    · exact fun _ _ => .inl ⟨u.rest, by simp [hc, hcomma]⟩
    · simp [hcomma]

/-- After its first element an array ends, or a comma stands there. -/
theorem finds_readArray (s : Source) :
    Finds (readArray s) fun p => (∃ v, s.skipBlanks.rest = ']' :: v) ∨
      ∃ w, ∃ u : Source, IsInteger w ∧ s.skipBlanks = u.prepend w ∧
        ((∃ v, u.skipBlanks.rest = ',' :: v) ∨ u.skipBlanks = p.2.prepend [']']) := by
  dsimp only [readArray]
  refine (finds_readElement_first s).bind fun ⟨n, u⟩ hfirst => ?_
  rcases hfirst with hclose | ⟨w, hw, hs⟩
  · exact fun _ _ => .inl hclose
  refine (finds_readElement u).bind fun ⟨m, v⟩ hsecond => ?_
  rcases hsecond with hcomma | ⟨-, rfl⟩
  · exact fun _ _ => .inr ⟨w, u, hw, hs, .inl hcomma⟩
  refine (finds_next _).bind fun ⟨c, x⟩ hc => ?_
  rw [Source.skipBlanks_skipBlanks] at hc
  dsimp only
  split
  · next hclose => exact finds_pure.2 (.inr ⟨w, u, hw, hs, .inr (by rw [hc, hclose])⟩)
  · simp

/-- Settings in JSON are an object, or an array with nothing behind. -/
theorem finds_ofJson (t : List Char) :
    Finds (ofJson t) fun _ => ∃ c u, (Source.ofText t).skipBlanks = Source.prepend [c] u ∧
      (c = '\x7b' ∨ c = '[' ∧ ∃ p, readArray u = .ok p ∧ p.2.skipBlanks = ⟨[], true⟩) := by
  dsimp only [ofJson]
  refine (finds_next _).bind fun ⟨c, u⟩ hc => ?_
  dsimp only at hc ⊢
  split
  · next hopen =>
    refine Finds.bind (P := fun p => readArray u = .ok p) (fun _ => id) fun p hp => ?_
    refine (finds_peek _).bind fun d hd => ?_
    split
    · simp
    · exact finds_pure.2 ⟨c, u, hc, .inr ⟨hopen, p, hp, hd rfl⟩⟩
  split
  · next hopen => exact fun _ _ => ⟨c, u, hc, .inl hopen⟩
  · simp

/-! ### What both formats pass over -/

theorem isBlank_of_toml {c : Char} (hc : Toml.isBlank c) : Source.isBlank c := by
  rcases (by simpa [Toml.isBlank] using hc : c = ' ' ∨ c = '\t') with rfl | rfl <;> rfl

theorem skipBlanks_ofText_comment {cs s : List Char} (hcs : ∀ c ∈ cs, Toml.isPlain c)
    (hs : Toml.LineOver s) :
    (Source.ofText ('#' :: (cs ++ s))).skipBlanks = (Source.ofText s).skipBlanks := by
  have hline : ∀ c ∈ cs, c ≠ '\n' := by
    rintro c hc rfl
    exact absurd (hcs _ hc) (by decide)
  have hsign : (Source.ofText ('#' :: (cs ++ s))).skipBlanks
      = (Scan.line.run (cs ++ s)).skipBlanks := rfl
  rw [hsign, Scan.skipBlanks_run_line hline]
  rcases hs with rfl | ⟨u, rfl | rfl⟩
  · rfl
  · rfl
  · rfl

/-- What says nothing in TOML says nothing in JSON. -/
theorem skipBlanks_ofText_of_past {s v : List Char} (h : Toml.Past (· = v) s) :
    (Source.ofText s).skipBlanks = (Source.ofText v).skipBlanks := by
  induction h with
  | here h => rw [h]
  | blank hc _ ih => rw [Source.skipBlanks_ofText_cons (isBlank_of_toml hc), ih]
  | comment hcs hs _ ih => rw [skipBlanks_ofText_comment hcs hs, ih]
  | feed _ ih => rw [Source.skipBlanks_ofText_cons rfl, ih]
  | carriage _ ih =>
    rw [Source.skipBlanks_ofText_cons rfl, Source.skipBlanks_ofText_cons rfl, ih]

theorem skipBlanks_ofText_dropWhile (s : List Char) :
    (Source.ofText (s.dropWhile Toml.isBlank)).skipBlanks = (Source.ofText s).skipBlanks :=
  (skipBlanks_ofText_of_past (.of_dropWhile (.here rfl))).symm

theorem ne_of_begins {c d : Char} (hc : Toml.BeginsStatement c)
    (hd : d ∈ [' ', '\n', '\t', '\r', '/', '#', '.', ']', '\x7b', '\uFEFF']) : c ≠ d := by
  rintro rfl
  simp only [List.mem_cons, List.not_mem_nil, or_false] at hd
  rcases hd with rfl | rfl | rfl | rfl | rfl | rfl | rfl | rfl | rfl | rfl <;>
    simp [Toml.BeginsStatement, Toml.BeginsKey, Toml.isBare] at hc

theorem not_isBlank_of_begins {c : Char} (hc : Toml.BeginsStatement c) : ¬ Source.isBlank c := by
  simp [Source.isBlank, ne_of_begins hc]

/-- What a statement of TOML begins with is read as it was written in JSON too. -/
theorem ofText_of_begins {c : Char} (hc : Toml.BeginsStatement c) (s : List Char) :
    ∃ u, (Source.ofText (c :: s)).rest = c :: u := by
  obtain ⟨u, hu⟩ := Source.ofText_head c s
  have hno : ¬ (c = '/' ∨ c = '#') :=
    not_or.2 ⟨ne_of_begins hc (by simp), ne_of_begins hc (by simp)⟩
  exact ⟨u, by rw [hu, if_neg hno]⟩

theorem skipBlanks_ofText_of_begins {c : Char} (hc : Toml.BeginsStatement c) (s : List Char) :
    (Source.ofText (c :: s)).skipBlanks = Source.ofText (c :: s) := by
  obtain ⟨u, hu⟩ := ofText_of_begins hc s
  exact Source.skipBlanks_of_rest hu (not_isBlank_of_begins hc)

theorem isBare_of_isInteger {w : List Char} (hw : IsInteger w) : ∀ c ∈ w, Toml.isBare c := by
  obtain ⟨ds, -, hds, hw⟩ := hw
  have hdigits : ∀ c ∈ ds, Toml.isBare c := fun c hc => by
    simp [Toml.isBare, Char.isAlphanum, hds c hc]
  rcases hw with rfl | rfl
  · exact hdigits
  · simpa [Toml.isBare] using hdigits

theorem ne_nil_of_isInteger {w : List Char} (hw : IsInteger w) : w ≠ [] := by
  obtain ⟨ds, hne, -, rfl | rfl⟩ := hw
  · exact hne
  · simp

theorem isOutside_of_isBare {c : Char} (hc : Toml.isBare c) : Source.IsOutside c := by
  refine ⟨?_, ?_, ?_⟩ <;> rintro rfl <;> simp [Toml.isBare] at hc

/-! ### Bare keys and integers -/

/-- The characters of a bare key are the same with the comments blanked out. -/
theorem takeWhile_isBare_ofText (s : List Char) :
    (Source.ofText s).rest.takeWhile Toml.isBare = s.takeWhile Toml.isBare := by
  induction s with
  | nil => rfl
  | cons c s ih =>
    by_cases hc : Toml.isBare c
    · rw [Source.ofText_cons (isOutside_of_isBare hc), Source.prepend_rest, List.singleton_append,
        List.takeWhile_cons_of_pos hc, List.takeWhile_cons_of_pos hc, ih]
    · obtain ⟨u, hu⟩ := Source.ofText_head c s
      rw [hu, List.takeWhile_cons_of_neg hc, List.takeWhile_cons_of_neg]
      split
      · simp [Toml.isBare]
      · exact hc

/-- An integer with something behind that is not part of a bare key is a bare key itself. -/
theorem simpleKey_of_isInteger {s w v : List Char} {u : Source} {c : Char} (hw : IsInteger w)
    (hs : Source.ofText s = u.prepend w) (hu : u.skipBlanks.rest = c :: v)
    (hc : ¬ Toml.isBare c) :
    ∃ r, Toml.simpleKey s = some (w, r) ∧ s = w ++ r ∧ u = Source.ofText r := by
  have hstop : u.rest.takeWhile Toml.isBare = [] := by
    rcases hrest : u.rest with - | ⟨d, x⟩
    · rfl
    · refine List.takeWhile_cons_of_neg fun hd => hc ?_
      have hblank : ¬ Source.isBlank d := not_isBlank_of_begins (.inr (.inr (.inr hd)))
      obtain ⟨rfl, -⟩ : d = c ∧ x = v := by
        simpa [Source.skipBlanks, hrest, hblank] using hu
      exact hd
  have htake : s.takeWhile Toml.isBare = w := by
    rw [← takeWhile_isBare_ofText, hs, Source.prepend_rest,
      List.takeWhile_append_of_pos (isBare_of_isInteger hw), hstop, List.append_nil]
  have hsplit : s = w ++ s.dropWhile Toml.isBare := by
    rw [← htake, List.takeWhile_append_dropWhile]
  refine ⟨s.dropWhile Toml.isBare, ?_, hsplit, ?_⟩
  · obtain ⟨d, w, rfl⟩ := List.exists_cons_of_ne_nil (ne_nil_of_isInteger hw)
    have hd : Toml.isBare d := isBare_of_isInteger hw d (by simp)
    rw [List.cons_append] at hsplit
    rw [hsplit, Toml.simpleKey_bare hd, ← hsplit, htake]
  · have houtside : ∀ d ∈ w, Source.IsOutside d := fun d hd =>
      isOutside_of_isBare (isBare_of_isInteger hw d hd)
    rw [hsplit, Source.ofText_append houtside] at hs
    exact (Source.prepend_right_inj.1 hs).symm

/-- Where JSON reads the first element of an array and TOML a key, they read the same. -/
theorem readArray_key {x y : List Char} {p : Config × Source} {k : List (List Char) × List Char}
    (hread : readArray (Source.ofText x) = .ok p) (hkey : Toml.key x = some (k, ']' :: y)) :
    ∃ before name after, (∀ c ∈ before, Toml.isBlank c) ∧ IsInteger name ∧
      (∀ c ∈ after, Toml.isBlank c) ∧ x = before ++ (name ++ (after ++ ']' :: y)) ∧
      p.2 = Source.ofText y := by
  obtain ⟨d, v, hd, hbegins⟩ := Toml.key_begins hkey
  have htext : (Source.ofText x).skipBlanks = Source.ofText (x.dropWhile Toml.isBlank) := by
    rw [← skipBlanks_ofText_dropWhile, hd, skipBlanks_ofText_of_begins (.inr hbegins)]
  obtain ⟨z, hz⟩ := ofText_of_begins (.inr hbegins) v
  rcases finds_readArray _ p hread with ⟨_, hclose⟩ | ⟨w, u, hw, hwu, hnext⟩
  · rw [htext, hd, hz, List.cons.injEq] at hclose
    exact absurd hclose.1 (ne_of_begins (.inr hbegins) (by simp))
  obtain ⟨e, q, hq, hbare, hdot⟩ :
      ∃ e q, u.skipBlanks.rest = e :: q ∧ ¬ Toml.isBare e ∧ e ≠ '.' := by
    rcases hnext with ⟨q, hq⟩ | hq
    · exact ⟨',', q, hq, by simp [Toml.isBare], by simp⟩
    · exact ⟨']', p.2.rest, by rw [hq]; rfl, by simp [Toml.isBare], by simp⟩
  obtain ⟨r, hsimple, hsplit, rfl⟩ := simpleKey_of_isInteger hw (htext ▸ hwu) hq hbare
  rw [← skipBlanks_ofText_dropWhile] at hq hnext
  -- behind the integer the key has ended, and so has the array
  have hr : r.dropWhile Toml.isBlank = ']' :: y := by
    have hone := Toml.key_of_simpleKey hsimple fun a ha => by
      rw [ha, Source.skipBlanks_ofText_of_isOutside (by simp [Source.IsOutside]) (by decide)] at hq
      exact hdot (List.cons.inj hq).1.symm
    rw [hone] at hkey
    simpa using (Prod.mk.inj (Option.some.inj hkey)).2
  have hclose : p.2 = Source.ofText y := by
    rw [hr, Source.skipBlanks_ofText_of_isOutside (by simp [Source.IsOutside]) (by decide)]
      at hnext
    rcases hnext with ⟨a, ha⟩ | heq
    · simp at ha
    · exact (Source.prepend_right_inj.1 heq).symm
  refine ⟨x.takeWhile Toml.isBlank, w, r.takeWhile Toml.isBlank,
    fun c hc => List.mem_takeWhile_imp hc, hw, fun c hc => List.mem_takeWhile_imp hc, ?_, hclose⟩
  rw [← hr, List.takeWhile_append_dropWhile, ← hsplit, List.takeWhile_append_dropWhile]

/-- There is no array in an array of settings. -/
theorem readArray_bracket (x : List Char) (p : Config × Source) :
    readArray (Source.ofText ('[' :: x)) ≠ .ok p := by
  intro hread
  have hrest : (Source.ofText ('[' :: x)).skipBlanks.rest = '[' :: (Source.ofText x).rest := by
    rw [Source.skipBlanks_ofText_of_isOutside (by simp [Source.IsOutside]) (by decide)]
    rfl
  rcases finds_readArray _ p hread with ⟨v, hclose⟩ | ⟨w, u, hw, hwu, -⟩
  · simp [hrest] at hclose
  · obtain ⟨c, w, rfl⟩ := List.exists_cons_of_ne_nil (ne_nil_of_isInteger hw)
    obtain ⟨rfl, -⟩ : '[' = c ∧ _ := by simpa [hrest] using congrArg Source.rest hwu
    have hbare : Toml.isBare '[' := isBare_of_isInteger hw '[' (by simp)
    simp [Toml.isBare] at hbare

/-- **What is a document in both formats**: only the text of a heading. -/
theorem isHeading_of_both {t : List Char} {c : Config} {root : Toml.Node}
    (hjson : ofJson t = .ok c) (htoml : Toml.parse? t = some root) : IsHeading t := by
  obtain ⟨d, u, hu, hd⟩ := finds_ofJson t c hjson
  have hmark : ∀ v, t ≠ '\uFEFF' :: v := by
    rintro v rfl
    rw [Source.skipBlanks_ofText_of_isOutside (by simp [Source.IsOutside]) (by decide)] at hu
    obtain rfl : '\uFEFF' = d := (List.cons.inj (Source.mk.inj hu).1).1
    simp at hd
  obtain ⟨v, hv, hfront⟩ := (Toml.past_of_parse? hmark htoml).exists_eq
  rw [skipBlanks_ofText_of_past hfront] at hu
  rcases hv with rfl | ⟨hgoes, l, y, hstatement, hy⟩
  · simp [Source.ofText, Scan.run, Source.skipBlanks, Source.prepend] at hu
  rcases hgoes with rfl | ⟨e, x, rfl, hbegins⟩
  · simp [Source.ofText, Scan.run, Source.skipBlanks, Source.prepend] at hu
  -- both formats begin with the same character, which is a bracket
  obtain ⟨z, hz⟩ := ofText_of_begins hbegins x
  rw [skipBlanks_ofText_of_begins hbegins] at hu
  obtain rfl : e = d := by
    rw [hu] at hz
    exact (List.cons.inj hz).1.symm
  rcases hd with rfl | ⟨rfl, p, hread, hend⟩
  · exact absurd rfl (ne_of_begins hbegins (by simp))
  rw [Source.ofText_cons (by simp [Source.IsOutside]), Source.prepend_right_inj] at hu
  subst hu
  rcases Toml.statement_bracket hstatement with ⟨v, rfl⟩ | ⟨k, hkey⟩
  · exact absurd hread (readArray_bracket v p)
  obtain ⟨before, name, after, hbefore, hname, hafter, rfl, hp⟩ := readArray_key hread hkey
  -- nothing that JSON sees is behind the bracket, so there is no other statement in TOML
  have hsilent : Toml.Silent y := by
    obtain ⟨v, hv, hfront⟩ := hy.exists_eq
    rcases hv with rfl | ⟨e, x, rfl, hbegins⟩
    · exact hfront
    · obtain ⟨z, hz⟩ := ofText_of_begins hbegins x
      rw [hp, skipBlanks_ofText_of_past hfront, skipBlanks_ofText_of_begins hbegins] at hend
      simp [hend] at hz
  exact ⟨name, hname, hfront.mono fun s hs => hs ▸ .intro hbefore hafter hsilent⟩

/-- A heading gives no settings, whatever its name. -/
theorem ofToml?_of_isHeading {t : List Char} (h : IsHeading t) : ofToml? t = some {} := by
  obtain ⟨n, hn, ht⟩ := h
  -- the names of the settings begin with a letter
  have hname : ∀ key : Key, n ≠ key.name.toList := by
    rintro key rfl
    obtain ⟨ds, -, hds, hw⟩ := hn
    cases key <;> rcases hw with rfl | hw
    · exact absurd (hds 'l' (by simp [Key.name])) (by decide)
    · simp [Key.name] at hw
    · exact absurd (hds 'l' (by simp [Key.name])) (by decide)
    · simp [Key.name] at hw
  have hroot := Toml.parse?_of_heading (ne_nil_of_isInteger hn) (isBare_of_isInteger hn) ht
  simp [ofToml?, hroot, settingOf?, Toml.Node.get?, Toml.Node.find?, hname, ofGiven]

/-- **Where the meaning of a JSON text changes**: if a text gives settings in JSON, it gives the
same when TOML is tried first, unless it is a heading; and then it gives none. -/
theorem parse_of_ofJson {t : List Char} {c : Config} (h : ofJson t = .ok c) :
    (IsHeading t → parse t = .ok {}) ∧ (¬ IsHeading t → parse t = .ok c) := by
  constructor
  · intro ht
    rw [parse, ofToml?_of_isHeading ht]
  · intro ht
    have hnone : Toml.parse? t = none := by
      cases htoml : Toml.parse? t with
      | none => rfl
      | some root => exact absurd (isHeading_of_both h htoml) ht
    rw [parse, ofToml?, hnone]
    exact h

/-- An array of one integer below a line with a comment, which is a heading, and an array of two
behind a comment, which is none. -/
theorem parse_of_ofJson_arrays :
    parse "# fill\n[ 128 ]".toList = .ok {} ∧
      parse "/* fill and depth */ [128, 2]".toList = .ok { blockSize := 128, depth := 2 } := by
  constructor
  · have hone : ofJson "# fill\n[ 128 ]".toList = .ok { blockSize := 128 } := rfl
    have hline : Toml.Heading ['1', '2', '8'] "[ 128 ]".toList :=
      @Toml.Heading.intro _ [' '] [' '] [] (by simp [Toml.isBlank]) (by simp [Toml.isBlank])
        (.here rfl)
    have hname : IsInteger ['1', '2', '8'] := ⟨_, by simp, by simp, .inl rfl⟩
    refine (parse_of_ofJson hone).1 ⟨_, hname, ?_⟩
    exact @Toml.Past.comment _ [' ', 'f', 'i', 'l', 'l'] _ (by simp [Toml.isPlain])
      (.inr ⟨_, .inl rfl⟩) (.feed (.here hline))
  · have htwo : ofJson "/* fill and depth */ [128, 2]".toList
        = .ok { blockSize := 128, depth := 2 } := rfl
    obtain ⟨s, hs⟩ : ∃ s, "/* fill and depth */ [128, 2]".toList = '/' :: s := ⟨_, rfl⟩
    refine (parse_of_ofJson htwo).2 ?_
    rintro ⟨n, -, hpast⟩
    -- what begins with a slash is neither a heading nor passed over
    rw [hs] at hpast
    cases hpast with
    | here h => cases h
    | blank hc _ => simp [Toml.isBlank] at hc

/-- An array of one integer is a list of settings in JSON and gives none in TOML. -/
theorem ofJson_ne_parse :
    ofJson "[-3]".toList = .ok { blockSize := -3 } ∧ parse "[-3]".toList = .ok {} ∧
      ({ blockSize := -3 } : Config) ≠ {} :=
  ⟨rfl, rfl, by decide⟩

end Config

end UnrolledList
