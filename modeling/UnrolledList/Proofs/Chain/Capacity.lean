import UnrolledList.Proofs.Chain.Admission

/-!
# How much a block comes to hold

What the two kinds of fill achieve, over a whole run.

* **A number of entries is never passed** (`UnrolledList.Session.run_count_le`). Two ways of
  adding an entry ask nobody, and neither can pass the number: an entry in a block of its own is
  one, and a half of a block that was split lacks at least the entry it was split at, so with the
  string that it gets it has no more entries than the block had.
* **A size is passed, but only at the edges of a block**
  (`UnrolledList.Session.run_heldTo`). The half that was split off gets its string however long
  that is (`UnrolledList.Session.run_overfull`), and it gets it at one of its ends. What stands
  between the ends was admitted, and is held to the size.

## What an entry is charged

The size of a block is not what was asked about: a link is widened when the entry before it
grows, long after the entry was admitted. So sizes are compared with all links narrow
(`UnrolledList.Body.narrowSize`), which is what is left of a size when four bytes for each wide
link are taken away (`UnrolledList.Packed.totalSize_eq_narrowSize`). The header that an entry is
charged before it is admitted covers it with a narrow link, also if the string turns out to be
stored as an integer (`UnrolledList.Body.size_ofBytes_lt`).
-/

namespace UnrolledList

/-! ### Numerals -/

theorem Numeral.lt_ten_pow_length_digits (n : Nat) : n < 10 ^ (digits n).length := by
  fun_induction digits n with
  | case1 n h => simpa using h
  | case2 n h ih =>
    rw [List.length_append, List.length_singleton, Nat.pow_succ]
    omega

/-- A word is no wider than the integer asks for. -/
theorem WordWidth.ten_pow_le_of_narrowest {n : Int} (h : n ≠ 0) :
    10 ^ ((narrowest n).bytes - 1) ≤ n.natAbs := by
  unfold narrowest
  repeat' split
  all_goals simp only [Holds, half, bytes] at *; omega

/-- An integer takes no more bytes than its text has characters. -/
theorem Number.payloadSize_ofInt_le (n : Int) :
    (Number.ofInt n).payloadSize ≤ (Numeral.render n).length := by
  unfold Number.ofInt
  split
  · exact Nat.zero_le _
  · next hword =>
    have hdigits := Numeral.lt_ten_pow_length_digits n.natAbs
    have hnarrowest := WordWidth.ten_pow_le_of_narrowest (n := n) (by omega)
    have hlt := (Nat.pow_lt_pow_iff_right (by decide)).mp (Nat.lt_of_le_of_lt hnarrowest hdigits)
    have hrender : (Numeral.digits n.natAbs).length ≤ (Numeral.render n).length := by
      rw [Numeral.render]
      split <;> simp
    change (WordWidth.narrowest n).bytes ≤ _
    omega

/-! ### Narrow sizes -/

/-- Whether a link takes five bytes. -/
def Link.isWide : Link → Bool
  | narrow _ => false
  | wide _ => true

namespace Body

/-- **The header that an entry is charged covers it**, with a link as wide as an entry of its
length asks for. -/
theorem size_ofBytes_add_widthFor_le (s : Bytes) :
    (ofBytes s).size + Link.widthFor s.length ≤ s.length + entryOverhead s.length := by
  unfold ofBytes entryOverhead Link.widthFor
  split
  · next n hn =>
    have hpayload := Number.payloadSize_ofInt_le n
    rw [Numeral.render_of_parse hn] at hpayload
    simp only [size]
    split <;> split <;> (try split) <;> omega
  · simp only [size, Text.ofBytes, LengthForm.ofLength]
    split <;> split <;> (try split) <;> simp only [LengthForm.headerSize] <;> omega

theorem size_ofBytes_lt (s : Bytes) : (ofBytes s).size < s.length + entryOverhead s.length := by
  have hcharge := size_ofBytes_add_widthFor_le s
  have hwidth : 0 < Link.widthFor s.length := by
    unfold Link.widthFor
    split <;> decide
  omega

/-- The bytes that entries with these bodies take at least. -/
def narrowSize (bs : List Body) : Nat :=
  (bs.map fun b => b.size + 1).sum

@[simp] theorem narrowSize_nil : narrowSize [] = 0 := rfl

@[simp] theorem narrowSize_cons (b : Body) (bs : List Body) :
    narrowSize (b :: bs) = b.size + 1 + narrowSize bs := by
  simp [narrowSize]

@[simp] theorem narrowSize_append (bs bs' : List Body) :
    narrowSize (bs ++ bs') = narrowSize bs + narrowSize bs' := by
  simp [narrowSize]

theorem length_le_narrowSize (bs : List Body) : bs.length ≤ narrowSize bs := by
  induction bs with
  | nil => exact Nat.le_refl _
  | cons b bs ih =>
    rw [List.length_cons, narrowSize_cons]
    omega

theorem narrowSize_le_of_sublist {bs bs' : List Body} (h : bs.Sublist bs') :
    narrowSize bs ≤ narrowSize bs' := by
  induction h with
  | slnil => exact Nat.le_refl _
  | cons b _ ih =>
    rw [narrowSize_cons]
    omega
  | cons_cons b _ ih =>
    rw [narrowSize_cons, narrowSize_cons]
    omega

end Body

namespace Packed

variable {p q : Packed}

/-- The number of entries with a wide link. -/
def wides (es : List Entry) : Nat :=
  es.countP fun e => e.link.isWide

/-- **A size is a narrow size and four bytes for each wide link.** -/
theorem totalSize_eq_narrowSize (es : List Entry) :
    totalSize es = Body.narrowSize (es.map Entry.body) + 4 * wides es := by
  induction es with
  | nil => rfl
  | cons e es ih =>
    obtain ⟨link, body⟩ := e
    rw [wides] at ih ⊢
    rw [List.map_cons, Body.narrowSize_cons, totalSize_cons, Entry.size, List.countP_cons, ih]
    cases link <;> simp only [Link.width_narrow, Link.width_wide, Link.isWide] <;> grind

/-- A link is wider than a narrow one by four bytes. -/
theorem totalSize_le_narrowSize (es : List Entry) :
    totalSize es ≤ Body.narrowSize (es.map Entry.body) + 4 * es.length := by
  rw [totalSize_eq_narrowSize es]
  exact Nat.add_le_add_left (Nat.mul_le_mul_left 4 List.countP_le_length) _

theorem size_eq_narrowSize (p : Packed) :
    p.size = envelopeSize + Body.narrowSize p.bodies + 4 * wides p.entries.toList := by
  rw [p.size_eq, totalSize_eq_narrowSize, Nat.add_assoc]
  rfl

theorem narrowSize_bodies_le (p : Packed) : envelopeSize + Body.narrowSize p.bodies ≤ p.size :=
  p.size_eq_narrowSize ▸ Nat.le_add_right _ _

/-- Wherever a string is inserted, it adds the same. -/
theorem narrowSize_insertIdx (p : Packed) (k : Nat) (s : Bytes) :
    Body.narrowSize (p.insertIdx k s).bodies =
      Body.narrowSize p.bodies + ((Body.ofBytes s).size + 1) := by
  rcases Nat.lt_or_ge k p.entries.size with hk | hk
  · have hcut := congrArg Body.narrowSize (List.take_append_drop k p.bodies)
    rw [Body.narrowSize_append] at hcut
    rw [bodies_insertIdx p (Nat.le_of_lt hk), Body.narrowSize_append, Body.narrowSize_cons]
    omega
  · rw [insertIdx_of_size_le hk, bodies_push, Body.narrowSize_append, Body.narrowSize_cons,
      Body.narrowSize_nil]

/-! ### Numbers of entries -/

theorem size_append (p q : Packed) :
    (p ++ q).entries.size = p.entries.size + q.entries.size := by
  rw [← length_bodies, bodies_append, List.length_append, length_bodies, length_bodies]

end Packed

namespace Fill

/-- What is admitted to a counted fill is within its number. -/
theorem le_of_saturate_le {n m : Nat} (hn : n < maxEntries) (h : saturate m ≤ n) : m ≤ n := by
  unfold saturate at h
  omega

theorem saturate_le_of_admits? {f : Fill} {size entries len : Nat}
    (h : f.admits? size entries len = some true) :
    size + len + entryOverhead len ≤ f.bounds.bytes ∧
      saturate (entries + 1) ≤ f.bounds.entries := by
  unfold admits? at h
  dsimp only at h
  split at h
  · simpa [Bounds.ExceededBy] using h
  · contradiction

theorem saturate_le_of_admitsMerge? {f : Fill} {size₁ entries₁ size₂ entries₂ : Nat}
    (h : f.admitsMerge? size₁ entries₁ size₂ entries₂ = some true) :
    size₁ + size₂ - 11 ≤ f.bounds.bytes ∧ saturate (entries₁ + entries₂) ≤ f.bounds.entries := by
  unfold admitsMerge? at h
  dsimp only at h
  split at h
  · simpa [Bounds.ExceededBy] using h
  · contradiction

/-- **A counted fill keeps to its number**, whatever is inserted or overwritten. -/
theorem preserves_size_le {n : Nat} (hn : n < maxEntries) :
    (entries n).Preserves (fun _ => True) (fun _ => True) fun p => p.entries.size ≤ max n 1 where
  alone s := Nat.le_max_right _ _
  grow k s _ _ hadmits := by
    rw [Packed.size_insertIdx]
    have hle := le_of_saturate_le hn (saturate_le_of_admits? hadmits).2
    exact Nat.le_trans hle (Nat.le_max_left _ _)
  shrink k num hp := by
    rw [Packed.size_entries_eraseIdx]
    exact Nat.le_trans (Nat.sub_le _ _) hp
  join hp hq hadmits := by
    rw [Packed.size_append]
    have hle := le_of_saturate_le hn (saturate_le_of_admitsMerge? hadmits).2
    exact Nat.le_trans hle (Nat.le_max_left _ _)
  split place s hp hk hsize _ := by
    obtain ⟨hpos, hsum⟩ := (Packed.divides_halves hp hk place).size_entries hk
    rw [Packed.size_pushFacing]
    omega
  overwrite hk hsize _ := by
    rw [Packed.size_insertIdx, Packed.size_entries_eraseIdx, Packed.available]
    omega

end Fill

/-! ### What is held to a size -/

/-- The entries are **held to a size** but for one at each end, which may be a string that was
inserted beside an element. A single entry is held to nothing. -/
def Body.HeldTo (bytes : Nat) (beside : Bytes → Prop) (bs : List Body) : Prop :=
  bs.length ≤ 1 ∨ ∃ first mid last, bs = first ++ mid ++ last ∧
    first.length ≤ 1 ∧ last.length ≤ 1 ∧ (∀ b ∈ first ++ last, ∃ s, beside s ∧ b = .ofBytes s) ∧
    Packed.envelopeSize + narrowSize mid ≤ bytes

namespace Body

variable {bytes : Nat} {beside : Bytes → Prop} {bs bs' : List Body}

/-- What fits as a whole is held to the size. -/
theorem heldTo_of_le (h : Packed.envelopeSize + narrowSize bs ≤ bytes) : HeldTo bytes beside bs :=
  .inr ⟨[], bs, [], by simp, Nat.zero_le _, Nat.zero_le _, by simp, h⟩

theorem HeldTo.of_sublist (h : HeldTo bytes beside bs') (hsub : bs.Sublist bs') :
    HeldTo bytes beside bs := by
  rcases h with hone | ⟨first, mid, last, rfl, hfirst, hlast, hends, hmid⟩
  · exact .inl (Nat.le_trans hsub.length_le hone)
  · obtain ⟨front, last', rfl, hfront, hlast'⟩ := List.sublist_append_iff.mp hsub
    obtain ⟨first', mid', rfl, hfirst', hmid'⟩ := List.sublist_append_iff.mp hfront
    refine .inr ⟨first', mid', last', rfl, ?_, ?_, fun b hb => hends b ?_, ?_⟩
    · exact Nat.le_trans hfirst'.length_le hfirst
    · exact Nat.le_trans hlast'.length_le hlast
    · exact (hfirst'.append hlast').subset hb
    · exact Nat.le_trans (Nat.add_le_add_left (narrowSize_le_of_sublist hmid') _) hmid

/-- Where at least the first entry is cut off, the place at the head is free, -/
theorem HeldTo.cons_drop {s : Bytes} (h : HeldTo bytes beside bs) (hs : beside s) (k : Nat) :
    HeldTo bytes beside (.ofBytes s :: bs.drop (k + 1)) := by
  rcases h with hone | ⟨first, mid, last, rfl, hfirst, hlast, hends, hmid⟩
  · rw [List.drop_of_length_le (by omega)]
    exact .inl (Nat.le_refl _)
  · -- the cut takes `first` away, so there is one string at the head again
    have hsub : ((first ++ mid ++ last).drop (k + 1)).Sublist (mid ++ last) := by
      rw [List.append_assoc, List.drop_append, List.drop_of_length_le (by omega), List.nil_append]
      exact List.drop_sublist _ _
    obtain ⟨mid', last', hcut, hmid', hlast'⟩ := List.sublist_append_iff.mp hsub
    rw [hcut]
    refine .inr ⟨[.ofBytes s], mid', last', rfl, Nat.le_refl _, ?_, fun b hb => ?_, ?_⟩
    · exact Nat.le_trans hlast'.length_le hlast
    · rcases List.mem_cons.mp hb with rfl | hb
      · exact ⟨s, hs, rfl⟩
      · exact hends b (List.mem_append_right _ (hlast'.subset hb))
    · exact Nat.le_trans (Nat.add_le_add_left (narrowSize_le_of_sublist hmid') _) hmid

/-- and where at least the last one is, the place at the tail. -/
theorem HeldTo.take_concat {s : Bytes} (h : HeldTo bytes beside bs) (hs : beside s) {k : Nat}
    (hk : k < bs.length) : HeldTo bytes beside (bs.take k ++ [.ofBytes s]) := by
  rcases h with hone | ⟨first, mid, last, rfl, hfirst, hlast, hends, hmid⟩
  · obtain rfl : k = 0 := by omega
    exact .inl (Nat.le_refl _)
  · have hsub : ((first ++ mid ++ last).take k).Sublist (first ++ mid) := by
      rw [List.length_append] at hk
      rw [List.take_append_of_le_length (by omega)]
      exact List.take_sublist _ _
    obtain ⟨first', mid', hcut, hfirst', hmid'⟩ := List.sublist_append_iff.mp hsub
    rw [hcut]
    refine .inr ⟨first', mid', [.ofBytes s], rfl, ?_, Nat.le_refl _, fun b hb => ?_, ?_⟩
    · exact Nat.le_trans hfirst'.length_le hfirst
    · rcases List.mem_append.mp hb with hb | hb
      · exact hends b (List.mem_append_left _ (hfirst'.subset hb))
      · exact ⟨s, hs, List.mem_singleton.mp hb⟩
    · exact Nat.le_trans (Nat.add_le_add_left (narrowSize_le_of_sublist hmid') _) hmid

end Body

/-- **A fill holds every block to its size** but for strings inserted beside an element, as long
as nothing is overwritten. -/
theorem Fill.preserves_heldTo (fill : Fill) (beside : Bytes → Prop) :
    fill.Preserves beside (fun _ => False)
      fun p => Body.HeldTo fill.bounds.bytes beside p.bodies where
  alone s := .inl (Nat.le_refl _)
  grow {p} k {s} _ _ hadmits := by
    have hcharge := Body.size_ofBytes_lt s
    have hsize := p.narrowSize_bodies_le
    have hbytes := (saturate_le_of_admits? hadmits).1
    refine Body.heldTo_of_le ?_
    rw [Packed.narrowSize_insertIdx]
    omega
  shrink {p} k num hp := hp.of_sublist (p.sublist_bodies_eraseIdx k num)
  join {p q} _ _ hadmits := by
    have hp := p.narrowSize_bodies_le
    have hq := q.narrowSize_bodies_le
    have hbytes := (saturate_le_of_admitsMerge? hadmits).1
    refine Body.heldTo_of_le ?_
    rw [Packed.bodies_append, Body.narrowSize_append]
    simp only [Packed.envelopeSize] at *
    omega
  split {p k} place {s} hp hk hheld hs := by
    have hbodies := (Packed.divides_halves hp hk place).bodies_eq
    rw [Packed.bodies_pushFacing]
    cases place with
    | after => exact hbodies.2 ▸ hheld.cons_drop hs k
    | before => exact hbodies.2 ▸ hheld.take_concat hs (by simpa using hk)
  overwrite _ _ hover := hover.elim

/-! ### Every run -/

/-- Every block holds a list with the property, and knows its number of entries. -/
theorem Chain.Every.of_mem {c : Chain} {fill : Fill} {B : Packed → Prop}
    (h : c.Every fill fun _ => Packed.Counting B) {b : Block} (hb : b ∈ c.blocks) :
    ∃ p, b.Keeps p ∧ b.count = p.entries.size ∧ B p := by
  obtain ⟨-, depth, n, h⟩ := h
  obtain ⟨cell, hcell, rfl⟩ := List.mem_map.mp hb
  obtain ⟨i, hi, rfl⟩ := List.mem_iff_getElem.mp hcell
  exact h.each i (by simpa using hi)

namespace Session

/-- **A number of entries is never passed**, however the entries come and go: a block has no more
than the list was told, or one if it was told zero. -/
theorem run_count_le {setting : Int} (hsetting : 0 ≤ setting) (depth : Int) {as : List Action}
    (has : ∀ a ∈ as, a.keepsFill) :
    Ensures ((ofOptions setting depth).run as) fun r => ∀ b ∈ r.1.chain.blocks,
      b.values.length = b.count ∧ b.count ≤ max (min setting Fill.maxSetting).toNat 1 := by
  have hlt : (min setting Fill.maxSetting).toNat < maxEntries := by
    have hmax : Fill.maxSetting = 32768 := rfl
    have hentries : maxEntries = 0xFFFFFFFF := rfl
    omega
  have hstart := every_ofOptions setting depth
    fun _ => Packed.Counting fun p => p.entries.size ≤ max (min setting Fill.maxSetting).toNat 1
  rw [Fill.ofSetting_of_nonneg hsetting] at hstart
  have hfollows := follows_ofOptions setting depth
  have hevery := hfollows.run_every (Fill.preserves_size_le hlt)
    (fun a ha => Action.obeys_of_keepsFill (has a ha)) hstart
  refine ((hfollows.run as).and_gives hevery).imp fun r hr b hb => ?_
  obtain ⟨p, hp, hcount, hle⟩ := hr.2.of_mem hb
  refine ⟨?_, hcount ▸ hle⟩
  rw [hcount, Block.values, hp.packed_eq]
  simp [Packed.values]

/-- Three strings, the last of which is inserted between the others. -/
def between : List Action :=
  [.push .tail [97], .push .tail [98], .index 0, .insertBeside 0 .after [99]]

theorem run_count_le_between :
    (0 : Int) ≤ 2 ∧ (∀ a ∈ between, a.keepsFill) ∧
      Ensures ((ofOptions 2 1).run between) fun r => ∀ b ∈ r.1.chain.blocks,
        b.values.length = b.count ∧ b.count ≤ 2 := by
  have hsetting : (0 : Int) ≤ 2 := by decide
  have has : ∀ a ∈ between, a.keepsFill := by decide
  exact ⟨hsetting, has, run_count_le hsetting 1 has⟩

/-- **A size is passed at the edges of a block only.** As long as nothing is overwritten, a block
of several entries is held to its size but for one entry at each end, and such an entry is a
string that was inserted beside an element. -/
theorem run_heldTo (setting depth : Int) {as : List Action}
    (has : ∀ a ∈ as, a.keepsFill ∧ ¬ a.overwrites) :
    Ensures ((ofOptions setting depth).run as) fun r => ∀ b ∈ r.1.chain.blocks, 2 ≤ b.count →
      ∃ p first mid last, b.packed = .ok p ∧ b.size = p.size ∧
        p.entries.toList = first ++ mid ++ last ∧ first.length ≤ 1 ∧ last.length ≤ 1 ∧
        (∀ e ∈ first ++ last, ∃ s, Action.InsertsBeside as s ∧ e.body = .ofBytes s) ∧
        Packed.envelopeSize + Packed.totalSize mid ≤
          (Fill.ofSetting setting).bounds.bytes + 4 * mid.length := by
  have hfollows := follows_ofOptions setting depth
  have hevery := hfollows.run_every
    ((Fill.ofSetting setting).preserves_heldTo (Action.InsertsBeside as))
    (fun a ha => Action.obeys_of_mem ha (has a ha).1 (has a ha).2)
    (every_ofOptions setting depth _)
  refine ((hfollows.run as).and_gives hevery).imp fun r hr b hb htwo => ?_
  obtain ⟨p, hp, hcount, hheld⟩ := hr.2.of_mem hb
  rcases hheld with hone | ⟨first, mid, last, hsplit, hfirst, hlast, hends, hmid⟩
  · rw [Packed.length_bodies] at hone
    omega
  · obtain ⟨front, last, hentries, hfront, rfl⟩ := List.map_eq_append_iff.mp hsplit
    obtain ⟨first, mid, rfl, rfl, rfl⟩ := List.map_eq_append_iff.mp hfront
    rw [List.length_map] at hfirst hlast
    refine ⟨p, first, mid, last, hp.packed_eq, hp.size_eq, hentries, hfirst, hlast,
      fun e he => ?_, ?_⟩
    · rw [← List.map_append] at hends
      exact hends e.body (List.mem_map_of_mem he)
    · have htotal := Packed.totalSize_le_narrowSize mid
      omega

theorem run_heldTo_between :
    (∀ a ∈ between, a.keepsFill ∧ ¬ a.overwrites) ∧
      Ensures ((ofOptions (-1) 0).run between) fun r => ∀ b ∈ r.1.chain.blocks, 2 ≤ b.count →
        ∃ p first mid last, b.packed = .ok p ∧ p.entries.toList = first ++ mid ++ last ∧
          (∀ e ∈ first ++ last, ∃ s, Action.InsertsBeside between s ∧ e.body = .ofBytes s) ∧
          Packed.totalSize mid ≤ 4085 + 4 * mid.length := by
  have has : ∀ a ∈ between, a.keepsFill ∧ ¬ a.overwrites := by decide
  refine ⟨has, (run_heldTo (-1) 0 has).imp fun r hr b hb htwo => ?_⟩
  obtain ⟨p, first, mid, last, hp, -, hsplit, -, -, hends, hmid⟩ := hr b hb htwo
  refine ⟨p, first, mid, last, hp, hsplit, hends, ?_⟩
  have hbytes : (Fill.ofSetting (-1)).bounds.bytes = 4096 := rfl
  rw [hbytes, Packed.envelopeSize] at hmid
  omega

/-- Two strings that share a block of the first size class, and one inserted between them that is
longer than what is left of it. -/
def overfull : List Action :=
  [.push .tail (List.replicate 2000 97), .push .tail (List.replicate 2000 98), .index 0,
    .insertBeside 0 .after (List.replicate 4000 99)]

/-- **A block of several entries may be larger than its class**, however its links are
counted. -/
theorem run_overfull :
    ∃ r, (ofOptions (-1) 0).run overfull = .ok r ∧ ∃ b ∈ r.1.chain.blocks,
      2 ≤ b.count ∧ (Fill.ofSetting (-1)).bounds.bytes + 4 * b.count < b.size :=
  exists_eq_ok (by decide +kernel)

end Session

end UnrolledList
