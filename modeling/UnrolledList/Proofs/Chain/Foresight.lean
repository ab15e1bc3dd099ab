import UnrolledList.Proofs.Chain.Capacity

/-!
# What an estimate foresees

Before an entry is added, and before two blocks become one, the size that would result is
estimated. This file says what is known of the size that does result.

* **A number of entries is foreseen exactly**: what is admitted does not pass it.
* **A size is foreseen but for links that become wide** (`UnrolledList.Fill.Foresees`). An entry is
  charged a link as wide as an entry of its own length would ask of the next one. Its own link is
  as wide as the entry *before* it asks for, and the entry behind it may have to widen its link as
  well, and so on to the end of the list. Two lists that are joined are charged no link at all, and
  the first link of the second one may have to widen. Each of these adds four bytes that nobody was
  asked about.

So a list to which entries are only added at the ends may have a block of several entries that is
larger than its class (`UnrolledList.Session.run_widened`), by four bytes for each wide link and by
no more (`UnrolledList.Session.run_foresees`).
-/

namespace UnrolledList

/-! ### One estimate -/

/-- What a fill foresees of the lists that it admits. -/
structure Fill.Foresees (fill : Fill) : Prop where
  /-- A string that is admitted, wherever it goes: the number of entries is kept to, and so is the
  size but for links that have become wide. For a long string four bytes are in reserve. -/
  insert : ∀ (p : Packed) (k : Nat) (s : Bytes), p.WellFormed →
    fill.admits? p.size p.length s.length = some true →
      (p.insertIdx k s).length ≤ fill.bounds.entries ∧
      (p.insertIdx k s).size + 4 * Packed.wides p.entries.toList + Link.widthFor s.length ≤
        fill.bounds.bytes + 4 * Packed.wides (p.insertIdx k s).entries.toList + 1
  /-- Two lists that fit into one. -/
  join : ∀ p q : Packed, p.WellFormed → q.WellFormed →
    fill.admitsMerge? p.size p.length q.size q.length = some true →
      (p ++ q).length ≤ fill.bounds.entries ∧
      (p ++ q).size + 4 * Packed.wides p.entries.toList + 4 * Packed.wides q.entries.toList ≤
        fill.bounds.bytes + 4 * Packed.wides (p ++ q).entries.toList

theorem Packed.length_le_size {p : Packed} (h : p.WellFormed) : p.length ≤ p.size := by
  have hle := length_le_totalSize p.entries.toList
  rw [length_eq_iff.mpr h.counted, p.size_eq]
  rw [Array.length_toList] at hle
  omega

namespace Fill

theorem bytes_bounds_lt (fill : Fill) :
    fill.bounds.bytes + Packed.envelopeSize < maxEntries := by
  cases fill with
  | entries n =>
    change safetySize + Packed.envelopeSize < maxEntries
    decide
  | sizeClass level =>
    revert level
    decide

/-- **What a fill admits is what it foresees**, but for links that become wide. -/
theorem foresees (fill : Fill) : fill.Foresees where
  insert p k s hp hadmits := by
    obtain ⟨hbytes, hentries⟩ := saturate_le_of_admits? hadmits
    have hcharge := Body.size_ofBytes_add_widthFor_le s
    have hbefore := p.size_eq_narrowSize
    have hafter := (p.insertIdx k s).size_eq_narrowSize
    rw [Packed.narrowSize_insertIdx] at hafter
    refine ⟨?_, by omega⟩
    rw [Packed.length_eq_iff.mpr (Packed.counted_insertIdx hp.counted k s),
      Packed.size_insertIdx, ← Packed.length_eq_iff.mpr hp.counted]
    -- so small a list has fewer entries than a number could be held at
    have hlength := Packed.length_le_size hp
    have hlimit := fill.bytes_bounds_lt
    rwa [saturate, Nat.min_eq_left (by omega)] at hentries
  join p q hp hq hadmits := by
    obtain ⟨hbytes, hentries⟩ := saturate_le_of_admitsMerge? hadmits
    have hleft := p.size_eq_narrowSize
    have hright := q.size_eq_narrowSize
    have hboth := (p ++ q).size_eq_narrowSize
    rw [Packed.bodies_append, Body.narrowSize_append] at hboth
    simp only [Packed.envelopeSize] at hleft hright hboth
    -- narrow sizes are added without loss, and only the envelope is counted once
    refine ⟨?_, by omega⟩
    rw [Packed.length_eq_iff.mpr (Packed.counted_append hp.counted hq.counted),
      Packed.size_append, ← Packed.length_eq_iff.mpr hp.counted,
      ← Packed.length_eq_iff.mpr hq.counted]
    have hlength := Packed.length_le_size hp
    have hlength' := Packed.length_le_size hq
    have hlimit := fill.bytes_bounds_lt
    rw [Packed.envelopeSize] at hlimit
    rwa [saturate, Nat.min_eq_left (by omega)] at hentries

end Fill

/-! ### Every run -/

/-- Whether the action asks the fill before it adds an entry to a block: it adds at the ends, if
anywhere, and it overwrites nothing. -/
def Action.asksFirst : Action → Bool
  | .insertBeside _ _ _ | .replace _ _ | .replaceAt _ _ => false
  | .append _ | .appendBytes _ | .setFill _ => false
  | _ => true

theorem Action.obeys_of_asksFirst {a : Action} (h : a.asksFirst) :
    a.Obeys (fun _ => False) fun _ => False := by
  cases a with
  | insertBeside | replace | replaceAt | append | appendBytes | setFill => contradiction
  | _ => trivial

namespace Session

/-- **A size is passed by links that became wide, and by nothing else.** The same is true of every
block of several entries, as long as entries are added at the ends only. -/
theorem run_foresees (setting depth : Int) {as : List Action} (has : ∀ a ∈ as, a.asksFirst) :
    (Fill.ofSetting setting).Foresees ∧
      Ensures ((ofOptions setting depth).run as) fun r => ∀ b ∈ r.1.chain.blocks, 2 ≤ b.count →
        ∃ p, b.packed = .ok p ∧ b.size = p.size ∧
          b.size ≤ (Fill.ofSetting setting).bounds.bytes + 4 * Packed.wides p.entries.toList := by
  refine ⟨Fill.foresees _, ?_⟩
  have hfollows := follows_ofOptions setting depth
  have hevery := hfollows.run_every
    ((Fill.ofSetting setting).preserves_heldTo fun _ => False)
    (fun a ha => Action.obeys_of_asksFirst (has a ha)) (every_ofOptions setting depth _)
  refine ((hfollows.run as).and_gives hevery).imp fun r hr b hb htwo => ?_
  obtain ⟨p, hp, hcount, hheld⟩ := hr.2.of_mem hb
  refine ⟨p, hp.packed_eq, hp.size_eq, ?_⟩
  rcases hheld with hone | ⟨first, mid, last, hsplit, -, -, hends, hmid⟩
  · rw [Packed.length_bodies] at hone
    omega
  · -- nothing was inserted beside an element, so the ends are empty
    have hnone : first ++ last = [] := List.eq_nil_iff_forall_not_mem.mpr fun e he =>
      (hends e he).choose_spec.1
    obtain ⟨rfl, rfl⟩ := List.append_eq_nil_iff.mp hnone
    rw [List.nil_append, List.append_nil] at hsplit
    rw [hp.size_eq, p.size_eq_narrowSize, hsplit]
    omega

/-- A string at each end. -/
def atEnds : List Action :=
  [.push .tail [97], .push .head [98]]

/-- A string that all but fills a block of the first size class. -/
def nearlyFull : Packed :=
  Packed.empty.push (List.replicate 4070 97)

theorem wellFormed_nearlyFull : nearlyFull.WellFormed :=
  Packed.wellFormed_empty.push (by decide +kernel)

theorem run_foresees_atEnds :
    (∀ a ∈ atEnds, a.asksFirst) ∧
      ((Fill.ofSetting (-1)).admits? nearlyFull.size nearlyFull.length 10 = some true ∧
        (nearlyFull.insertIdx 1 (List.replicate 10 98)).size ≤ 4096 + 4) ∧
      Ensures ((ofOptions (-1) 0).run atEnds) fun r => ∀ b ∈ r.1.chain.blocks, 2 ≤ b.count →
        ∃ p, b.packed = .ok p ∧ b.size ≤ 4096 + 4 * Packed.wides p.entries.toList := by
  have has : ∀ a ∈ atEnds, a.asksFirst := by decide
  have hadmits :
      (Fill.ofSetting (-1)).admits? nearlyFull.size nearlyFull.length 10 = some true := by
    decide +kernel
  obtain ⟨hforesees, hrun⟩ := run_foresees (-1) 0 has
  refine ⟨has, ⟨hadmits, ?_⟩, hrun.imp fun r hr b hb htwo => ?_⟩
  · have hsize := (hforesees.insert nearlyFull 1 (List.replicate 10 98) wellFormed_nearlyFull
      (by rwa [List.length_replicate])).2
    have hwides :
        Packed.wides (nearlyFull.insertIdx 1 (List.replicate 10 98)).entries.toList = 1 := by
      decide +kernel
    have hbytes : (Fill.ofSetting (-1)).bounds.bytes = 4096 := rfl
    have hwidth : Link.widthFor (List.replicate 10 (98 : UInt8)).length = 1 := rfl
    rw [hbytes, hwidth, hwides] at hsize
    -- the sizes are numbers, so they are named before anything is compared
    generalize (nearlyFull.insertIdx 1 (List.replicate 10 98)).size = after at hsize ⊢
    omega
  · obtain ⟨p, hp, -, hle⟩ := hr b hb htwo
    exact ⟨p, hp, hle⟩

/-- That string, and one that fits behind it if its link is narrow. -/
def widened : List Action :=
  [.push .tail (List.replicate 4070 97), .push .tail (List.replicate 10 98)]

/-- **What is admitted may pass the size of its class**, and a block to which entries were only
added at the tail does: the second link has to be wide. -/
theorem run_widened :
    nearlyFull.WellFormed ∧
      (Fill.ofSetting (-1)).admits? nearlyFull.size nearlyFull.length 10 = some true ∧
      (Fill.ofSetting (-1)).bounds.bytes < (nearlyFull.insertIdx 1 (List.replicate 10 98)).size ∧
      ∃ r, (ofOptions (-1) 0).run widened = .ok r ∧
        r.1.chain.blocks.map (fun b => (b.count, b.size)) = [(2, 4096 + 4)] :=
  ⟨wellFormed_nearlyFull, by decide +kernel, by decide +kernel, exists_eq_ok (by decide +kernel)⟩

end Session

end UnrolledList
