import UnrolledList.Proofs.Lzf.RoundTrip

/-!
# Where the compressor runs into its end

The compressor has one fault (`UnrolledList.Lzf.eq_outputOverrun_of_compress?`), and it does
happen. What it takes is a stretch of the string in which nothing can be copied, long enough
that the lengths of its runs use up what is left of the room, and a copy right behind it
(`UnrolledList.Lzf.scan_overrun`).

Nothing can be copied where the three bytes of the position are **new**
(`UnrolledList.Lzf.IsNew`), whatever the table holds. A stretch of `32 q` such positions is
written as `33 q` bytes. The copy behind it is sure if the three bytes there are those of the
last position of the stretch, because that position was noted last.
-/

namespace UnrolledList

namespace Lzf

variable {d : Array UInt8} {cur ref n : Nat} {recent : Recent} {w : Writer}

/-! ### Positions that are new -/

/-- The three bytes at a position. -/
def window (d : Array UInt8) (i : Nat) : UInt8 × UInt8 × UInt8 :=
  (d.getD i 0, d.getD (i + 1) 0, d.getD (i + 2) 0)

/-- The three bytes at a position did not stand earlier, apart from position zero. -/
def IsNew (d : Array UInt8) (cur : Nat) : Prop :=
  ∀ ref, 0 < ref → ref < cur → window d ref ≠ window d cur

theorem three_le_matchLength (hn : 3 ≤ n) :
    3 ≤ matchLength d n ref cur ↔ window d ref = window d cur := by
  obtain ⟨n, rfl⟩ := Nat.exists_eq_add_of_le' hn
  rw [matchLength, matchLength, matchLength]
  simp only [window, Prod.mk.injEq]
  by_cases h₀ : d.getD ref 0 = d.getD cur 0
  · by_cases h₁ : d.getD (ref + 1) 0 = d.getD (cur + 1) 0
    · by_cases h₂ : d.getD (ref + 2) 0 = d.getD (cur + 2) 0
      · simp only [h₀, h₁, h₂, if_true, and_self, iff_true]
        omega
      · simp only [h₀, h₁, h₂, if_true, if_false, and_false, iff_false]
        omega
    · simp only [h₀, h₁, if_true, if_false, false_and, and_false, iff_false]
      omega
  · simp only [h₀, if_false, false_and, iff_false]
    omega

/-- Nothing is copied where the bytes are new. -/
theorem copyLength?_eq_none (h : IsNew d cur) (ref : Nat) : copyLength? d ref cur = none := by
  unfold copyLength?
  split
  · next hcond =>
    obtain ⟨hpos, hlt, -, hroom⟩ := hcond
    have hbound : 3 ≤ min (d.size - cur - 2) maxCopy := by
      have hmax : 3 ≤ maxCopy := by decide
      omega
    rw [dif_neg]
    rw [three_le_matchLength hbound]
    exact h ref hpos hlt
  · rfl

/-- The bytes of the position before are copied. -/
theorem copyLength?_pred (hcur : cur + 5 < d.size) (hpos : 0 < cur)
    (h : window d cur = window d (cur + 1)) :
    ∃ n, copyLength? d cur (cur + 1) = some n := by
  have hbound : 3 ≤ min (d.size - (cur + 1) - 2) maxCopy := by
    have hmax : 3 ≤ maxCopy := by decide
    omega
  have hnear : cur + 1 - cur ≤ maxDistance := by
    rw [Nat.add_sub_cancel_left]
    decide
  rw [copyLength?, if_pos ⟨hpos, Nat.lt_succ_self _, hnear, hcur⟩]
  exact ⟨_, dif_pos ((three_le_matchLength hbound).mpr h)⟩

/-! ### The table -/

/-- The table has all its pages, and each that was written is of full length. -/
structure Recent.Paged (recent : Recent) : Prop where
  /-- All pages are there. -/
  size_eq : recent.size = 2048
  /-- A page is empty or full. -/
  pages : ∀ page ∈ recent, page.size = 0 ∨ page.size = pageSize

theorem Recent.paged_empty : Recent.empty.Paged where
  size_eq := Array.size_replicate
  pages page hpage := by
    obtain ⟨-, rfl⟩ := Array.mem_replicate.mp hpage
    exact .inl rfl

/-- A page with a position put into a slot. -/
def writePage (slot cur : Nat) (page : Array Nat) : Array Nat :=
  (if page.isEmpty then Array.replicate pageSize 0 else page).setIfInBounds slot cur

theorem size_writePage {page : Array Nat} (h : page.size = 0 ∨ page.size = pageSize)
    (slot cur : Nat) : (writePage slot cur page).size = pageSize := by
  rw [writePage, Array.size_setIfInBounds]
  split
  · exact Array.size_replicate
  · next hsome =>
    rw [Array.isEmpty_iff_size_eq_zero] at hsome
    exact h.resolve_left hsome

theorem getD_writePage {page : Array Nat} (h : page.size = 0 ∨ page.size = pageSize) {slot : Nat}
    (hslot : slot < pageSize) (cur other : Nat) :
    (writePage slot cur page).getD other 0 = if slot = other then cur else page.getD other 0 := by
  have hsize := size_writePage h slot cur
  rw [Array.getD_eq_getD_getElem?, Array.getD_eq_getD_getElem?]
  by_cases hother : slot = other
  · subst hother
    rw [if_pos rfl, Array.getElem?_eq_getElem (hsize ▸ hslot)]
    simp [writePage]
  · rw [if_neg hother, writePage, Array.getElem?_setIfInBounds_ne hother]
    split
    · next hempty =>
      rw [Array.isEmpty_iff_size_eq_zero] at hempty
      rw [Array.getElem?_replicate, Array.getElem?_eq_none (by omega)]
      split <;> rfl
    · rfl

theorem Recent.note_eq (recent : Recent) (slot cur : Nat) :
    recent.note slot cur = recent.modify (slot / pageSize) (writePage (slot % pageSize) cur) := rfl

theorem Recent.Paged.note (h : recent.Paged) (slot cur : Nat) : (recent.note slot cur).Paged where
  size_eq := by rw [Recent.note_eq, Array.size_modify, h.size_eq]
  pages page hpage := by
    rw [Recent.note_eq] at hpage
    obtain ⟨i, hi, rfl⟩ := Array.mem_iff_getElem.mp hpage
    rw [Array.size_modify] at hi
    rw [Array.getElem_modify]
    split
    · exact .inr (size_writePage (h.pages _ (Array.getElem_mem hi)) _ _)
    · exact h.pages _ (Array.getElem_mem hi)

/-- **What was put into a slot is found there**, and what is in the others stays. -/
theorem Recent.Paged.lookup_note (h : recent.Paged) {slot : Nat} (hslot : slot < 65536)
    (cur other : Nat) :
    (recent.note slot cur).lookup other = if slot = other then cur else recent.lookup other := by
  have hsize := h.size_eq
  have hpage : slot % pageSize < pageSize := Nat.mod_lt _ (by decide)
  simp only [Recent.lookup, Recent.note_eq, Array.getD_eq_getD_getElem? (α := Array Nat),
    Array.getElem?_modify]
  by_cases hsame : slot / pageSize = other / pageSize
  · have hlt : other / pageSize < recent.size := by
      simp only [pageSize] at hsame ⊢
      omega
    rw [if_pos hsame, Array.getElem?_eq_getElem hlt, Option.map_some, Option.getD_some,
      getD_writePage (h.pages _ (Array.getElem_mem hlt)) hpage]
    have hslots : slot % pageSize = other % pageSize ↔ slot = other := by
      simp only [pageSize] at hsame ⊢
      omega
    simp only [hslots, Option.getD_some]
  · have hne : slot ≠ other := by
      rintro rfl
      exact hsame rfl
    rw [if_neg hsame, if_neg hne]

theorem slotAt_lt (d : Array UInt8) (cur : Nat) : slotAt d cur < 65536 :=
  UInt16.toNat_lt _

/-! ### Scanning -/

/-- A run that is closed takes one byte more than it has. -/
theorem size_out_close (w : Writer) :
    w.close.out.size =
      if w.pending.size = 0 then w.out.size else w.out.size + (w.pending.size + 1) := by
  unfold Writer.close
  simp only [Array.isEmpty_iff_size_eq_zero]
  split
  · rfl
  · rw [← Array.length_toList, Array.toList_append, Array.toList_appendList]
    simp only [Instruction.encode, List.length_append, List.length_singleton, Array.length_toList]
    omega

/-- A literal byte goes to the open run, and a run that is full is closed. -/
theorem size_literal (w : Writer) (b : UInt8) :
    (w.literal b).out.size =
        (if w.pending.size + 1 = maxRun then w.out.size + (maxRun + 1) else w.out.size) ∧
      (w.literal b).pending.size =
        if w.pending.size + 1 = maxRun then 0 else w.pending.size + 1 := by
  unfold Writer.literal
  simp only [Array.size_push]
  split
  · next hfull =>
    refine ⟨?_, by rw [Writer.pending_close]; rfl⟩
    rw [size_out_close, if_neg (by simp), Array.size_push, hfull]
  · exact ⟨rfl, Array.size_push _⟩

/-- **A stretch of new positions** is written literally: a byte more for each run of 32. What
is noted last under a slot stays in the table. -/
theorem scan_literals (hpending : w.pending = #[]) (hrecent : recent.Paged)
    (hnew : ∀ i, cur ≤ i → i < cur + n → IsNew d i) (hcur : cur + n + 2 ≤ d.size)
    (hroom : ∀ j < n, w.out.size + 33 * (j / 32) + j % 32 + 1 < d.size) :
    ∃ recent' w', scan d cur recent w = scan d (cur + n) recent' w' ∧ recent'.Paged ∧
      w'.out.size = w.out.size + 33 * (n / 32) ∧ w'.pending.size = n % 32 ∧
      ∀ i, cur ≤ i → i < cur + n → (∀ j, i < j → j < cur + n → slotAt d j ≠ slotAt d i) →
        recent'.lookup (slotAt d i) = i := by
  induction n with
  | zero => exact ⟨recent, w, rfl, hrecent, by simp, by simp [hpending], fun i _ _ => by omega⟩
  | succ n ih =>
    obtain ⟨recent', w', hscan, hpaged, hout, hopen, hlookup⟩ :=
      ih (fun i hi hlt => hnew i hi (by omega)) (by omega) fun j hj => hroom j (by omega)
    have hlt : cur + n + 2 < d.size := by omega
    have hsize : ¬ d.size ≤ w'.size := by
      have := hroom n (Nat.lt_succ_self n)
      simp only [Writer.size, Writer.lengthPos, hout, hopen]
      omega
    refine ⟨recent'.note (slotAt d (cur + n)) (cur + n), w'.literal d[cur + n], ?_, hpaged.note _ _,
      ?_, ?_, ?_⟩
    · rw [hscan, scan, dif_pos hlt]
      simp only [copyLength?_eq_none (hnew (cur + n) (by omega) (by omega)), if_neg hsize,
        Nat.add_assoc]
    · rw [(size_literal w' _).1, hout, hopen]
      by_cases hfull : n % 32 + 1 = maxRun
      · rw [if_pos hfull]
        simp only [maxRun] at hfull ⊢
        omega
      · rw [if_neg hfull]
        simp only [maxRun] at hfull
        omega
    · rw [(size_literal w' _).2, hopen]
      by_cases hfull : n % 32 + 1 = maxRun
      · rw [if_pos hfull]
        simp only [maxRun] at hfull
        omega
      · rw [if_neg hfull]
        simp only [maxRun] at hfull
        omega
    · intro i hi hlast hother
      rw [hpaged.lookup_note (slotAt_lt d _)]
      rcases Nat.lt_succ_iff_lt_or_eq.mp (show i < (cur + n).succ from hlast) with hbefore | rfl
      · rw [if_neg (hother (cur + n) hbefore (by omega))]
        exact hlookup i hi hbefore fun j hj hj' => hother j hj (by omega)
      · rw [if_pos rfl]

/-- **The output is overrun** when a stretch of new positions leaves no room for the length
of a run, and a copy follows. -/
theorem scan_overrun {q : Nat} (hq : 0 < q) (hpending : w.pending = #[]) (hrecent : recent.Paged)
    (hnew : ∀ i, cur ≤ i → i < cur + 32 * q → IsNew d i)
    (hroom : w.out.size + 33 * q = d.size) (hcur : cur + 32 * q + 4 < d.size)
    (hsame : window d (cur + 32 * q - 1) = window d (cur + 32 * q)) :
    scan d cur recent w = .error .outputOverrun := by
  obtain ⟨recent', w', hscan, hpaged, hout, -, hlookup⟩ :=
    scan_literals hpending hrecent hnew (by omega) fun j hj => by omega
  obtain ⟨last, hlast⟩ : ∃ last, cur + 32 * q = last + 1 := ⟨cur + 32 * q - 1, by omega⟩
  rw [hlast, Nat.add_sub_cancel] at hsame
  have hslot : slotAt d (last + 1) = slotAt d last := by
    simp only [window, Prod.mk.injEq] at hsame
    rw [slotAt, slotAt, hsame.1, hsame.2.1, hsame.2.2]
  have hfound := hlookup last (by omega) (by omega) fun j hj hj' => by omega
  rw [← hslot] at hfound
  obtain ⟨n, hn⟩ := copyLength?_pred (by omega) (by omega) hsame
  have hfull : d.size ≤ w'.lengthPos := by
    rw [Writer.lengthPos, hout]
    omega
  rw [hscan, hlast, scan, dif_pos (show last + 1 + 2 < d.size by omega)]
  simp only [hfound, hn, putCopy, if_pos hfull]

/-! ### A string on which it happens -/

/-- Three bytes as a number. -/
def code (bytes : UInt8 × UInt8 × UInt8) : Nat :=
  bytes.1.toNat * 65536 + bytes.2.1.toNat * 256 + bytes.2.2.toNat

/-- The three bytes at each position, as numbers. -/
def codes : Bytes → List Nat
  | a :: b :: c :: rest => code (a, b, c) :: codes (b :: c :: rest)
  | _ => []

theorem getElem?_codes {s : Bytes} {i : Nat} (h : i + 2 < s.length) :
    (codes s)[i]? = some (code (window s.toArray i)) := by
  fun_induction codes s generalizing i with
  | case1 a b c rest ih =>
    cases i with
    | zero => rfl
    | succ i =>
      rw [List.getElem?_cons_succ, ih (by simpa using h)]
      simp [window]
  | case2 s hshort =>
    match s, h with
    | a :: b :: c :: rest, _ => exact absurd rfl (hshort a b c rest)

/-- A string of 173 bytes, which is also that of a packed list with a single entry: its first
thirteen bytes are the header of the list and of the entry, and the last one is the end
marker. -/
def overrunning : Bytes :=
  [173, 0, 0, 0, 10, 0, 0, 0, 1, 0, 0, 64, 159] ++ (List.range 154).map UInt8.ofNat ++
    List.replicate 6 255

/-- From position 2 to position 167 no three bytes stand twice. -/
theorem nodup_codes_overrunning : (((codes overrunning).drop 2).take 166).Nodup := by
  decide +kernel

theorem length_overrunning : overrunning.length = 173 := by simp [overrunning]

theorem window_ne_of_lt {i j : Nat} (hi : 2 ≤ i) (hij : i < j) (hj : j < 168) :
    window overrunning.toArray i ≠ window overrunning.toArray j := by
  intro hsame
  have hlen := length_overrunning
  have hcode : ∀ k, 2 ≤ k → k < 168 →
      (((codes overrunning).drop 2).take 166)[k - 2]? =
        some (code (window overrunning.toArray k)) := by
    intro k hk hk'
    rw [List.getElem?_take_of_lt (by omega), List.getElem?_drop, ← getElem?_codes (by omega)]
    congr 1
    omega
  have hi' := hcode i hi (by omega)
  have hj' := hcode j (by omega) hj
  rw [hsame, ← hj'] at hi'
  have hlt : i - 2 < (((codes overrunning).drop 2).take 166).length := by
    rw [hj'] at hi'
    exact (List.getElem?_eq_some_iff.mp hi').1
  have hidx := (List.getElem?_inj hlt nodup_codes_overrunning).mp hi'
  omega

/-- **The compressor fails on the string.** The bytes 1 to 3 of the string stand again behind
byte 4, so the long stretch begins behind a copy. -/
theorem compress?_overrunning : compress? overrunning = .error .outputOverrun := by
  have hsize : overrunning.toArray.size = 173 := length_overrunning
  have hnewAt : ∀ i < 5, IsNew overrunning.toArray i := by
    intro i hi ref hpos hlt
    have hcases : ∀ i < 5, ∀ ref < i, 0 < ref →
        window overrunning.toArray ref ≠ window overrunning.toArray i := by decide +kernel
    exact hcases i hi ref hlt hpos
  -- five bytes are written literally
  obtain ⟨recent, w, hscan, hrecent, hout, hpending, hlookup⟩ :=
    scan_literals (d := overrunning.toArray) (n := 5) (w := {}) rfl Recent.paged_empty
      (fun i (_ : 0 ≤ i) hi => hnewAt i (by omega)) (by omega) fun j hj => by
        simp only [Array.size_empty]
        omega
  -- then three zeros are copied from position 1
  have hfound : recent.lookup (slotAt overrunning.toArray 5) = 1 := by
    have hslot : slotAt overrunning.toArray 5 = slotAt overrunning.toArray 1 := by decide +kernel
    have hother : ∀ j < 5, 1 < j → slotAt overrunning.toArray j ≠ slotAt overrunning.toArray 1 := by
      decide +kernel
    rw [hslot]
    exact hlookup 1 (by omega) (by omega) fun j hj hj' => hother j (by omega) hj
  have hcopy : copyLength? overrunning.toArray 1 5 = some ⟨3, Nat.le_refl 3⟩ := by decide +kernel
  have hclose : w.close.out.size = 6 := by
    rw [size_out_close, hpending, hout]
    rfl
  have hput : putCopy overrunning.toArray.size w (5 - 1) 3 = .ok (some (w.close.copy 4 3)) := by
    rw [putCopy, hsize, Writer.lengthPos, hout, if_neg (by decide)]
    dsimp only
    rw [hclose, if_neg (by decide)]
  have hcopied : (w.close.copy 4 3).out.size = 8 := by
    rw [Writer.copy, ← Array.length_toList, Array.toList_appendList, List.length_append,
      Array.length_toList, size_out_close, Writer.pending_close]
    simp [hclose, Instruction.encode]
  have hoverrun : scan overrunning.toArray 0 Recent.empty {} = .error .outputOverrun := by
    rw [hscan, scan, dif_pos (by omega)]
    simp only [Nat.zero_add, hfound, hcopy, hput]
    refine scan_overrun (q := 5) (by decide) ?_ ?_ ?_ ?_ ?_ ?_
    · exact Writer.pending_close _
    · exact ((hrecent.note _ _).note _ _).note _ _
    · intro i hi hlt ref hpos href
      rcases Nat.lt_or_ge ref 2 with hone | htwo
      · -- what stands at position 1 stands at position 5 as well
        obtain rfl : ref = 1 := by omega
        have hagain : window overrunning.toArray 1 = window overrunning.toArray 5 := by
          decide +kernel
        rw [hagain]
        exact window_ne_of_lt (by decide) (by omega) (by omega)
      · exact window_ne_of_lt htwo href (by omega)
    · rw [hcopied, hsize]
    · rw [hsize]
      decide
    · decide +kernel
  rw [compress?, if_neg (by rw [length_overrunning]; decide), hoverrun]

end Lzf

end UnrolledList
