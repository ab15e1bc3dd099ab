import UnrolledList.Proofs.Packed.Mending

/-!
# Mending a blob in place

`UnrolledList.InPlace.cascade?` mends the links behind a position **in the bytes of the blob**. It
reads how long the entry at the position is, and what the field behind that entry says. If the
field is too narrow, a wide one is spliced in, the two positions in the header are set anew, and
the walk goes on at the next entry of a blob that is longer than before; otherwise the field is
set where it stands, and the walk is over.

What has to be seen is that this keeps to what it does not look at. The blob grows under the walk,
so the end of it and the position of the last entry move while the walk is under way; the header
that a step leaves has to be right for the blob that it leaves. **The invariant is that the blob is
always that of a packed list** with the same entries, in which the links up to the position are
right (`UnrolledList.InPlace.widen?_toBytes`). With it one step in the bytes is one step of the
repair (`UnrolledList.Packed.mend_of_overflows`), and the walk as a whole is the repair as a whole
(`UnrolledList.InPlace.cascade?_toBytes`). It takes one step for each entry at most, so it ends.

Together with what the repair does to a list (`UnrolledList.Packed.LinkedBut.mends`) this is
`UnrolledList.InPlace.cascade?_mends`.
-/

namespace UnrolledList

namespace InPlace

open Packed (endMarker sizeLimit totalSize)

/-! ### Writing at a position -/

/-- The blob with other bytes in the place of the `n` at a position. -/
def splice? (d : Bytes) (p n : Nat) (new : Bytes) : Option Bytes :=
  if p + n ≤ d.length then some (d.take p ++ (new ++ d.drop (p + n))) else none

/-- The blob with a field of the header set. -/
def setField? (d : Bytes) (p width n : Nat) : Option Bytes :=
  splice? d p width (Bytes.littleEndian width n)

/-- The blob with a wider field in the place of a link, which has to record the length `before`,
and with a header that is right for it. -/
def widen? (d : Bytes) (p : Nat) (link : Link) (before : Nat) : Option Bytes := do
  let width := Link.widthFor before
  let d ← splice? d p link.width (Link.field before width)
  let tail ← field? d 4 4
  -- an entry that is the last one keeps its position when its own field widens
  let d ← if tail = p then some d else setField? d 4 4 (tail + width - link.width)
  setField? d 0 4 d.length

/-- **Mends the links** behind the entry at a position, in so many steps at most. -/
def cascade? : (fuel : Nat) → (d : Bytes) → (p : Nat) → Option Bytes
  | 0, _, _ => none
  | fuel + 1, d, p => do
    if ← atEnd? d p then return d
    else
      let size ← entrySize? d p
      let next := p + size
      if ← atEnd? d next then return d
      else
        let link ← link? d next
        if link.len = size then return d
        else if link.Overflows size then
          let d ← widen? d next link size
          cascade? fuel d next
        else splice? d next link.width (Link.field size link.width)

/-! ### Blobs by their fields -/

/-- The bytes of entries behind a header with the given fields. -/
def spell (total tail : Nat) (field : UInt16) (es : List Entry) : Bytes :=
  Bytes.littleEndian 4 total ++ (Bytes.littleEndian 4 tail ++
    (Bytes.littleEndian 2 field.toNat ++ (es.flatMap Entry.encode ++ [endMarker])))

variable {p : Packed} {total tail n k : Nat} {field : UInt16} {es front back : List Entry}
  {e : Entry} {link : Link}

theorem splice?_append (front mid back new : Bytes) :
    splice? (front ++ (mid ++ back)) front.length mid.length new =
      some (front ++ (new ++ back)) := by
  have hfits : front.length + mid.length ≤ (front ++ (mid ++ back)).length := by
    simp only [List.length_append]
    omega
  rw [splice?, if_pos hfits, List.take_left, ← List.drop_drop, List.drop_left, List.drop_left]

theorem setField?_total : setField? (spell total tail field es) 0 4 n =
    some (spell n tail field es) := by
  have hsplice := splice?_append [] (Bytes.littleEndian 4 total) (Bytes.littleEndian 4 tail ++
    (Bytes.littleEndian 2 field.toNat ++ (es.flatMap Entry.encode ++ [endMarker])))
    (Bytes.littleEndian 4 n)
  rwa [Bytes.length_littleEndian] at hsplice

theorem setField?_tail : setField? (spell total tail field es) 4 4 n =
    some (spell total n field es) := by
  have hsplice := splice?_append (Bytes.littleEndian 4 total) (Bytes.littleEndian 4 tail)
    (Bytes.littleEndian 2 field.toNat ++ (es.flatMap Entry.encode ++ [endMarker]))
    (Bytes.littleEndian 4 n)
  rwa [Bytes.length_littleEndian, Bytes.length_littleEndian] at hsplice

theorem length_spell :
    (spell total tail field es).length = Packed.envelopeSize + totalSize es := by
  simp only [spell, List.length_append, Bytes.length_littleEndian, Packed.length_flatMap_encode,
    List.length_singleton, Packed.envelopeSize]
  omega

/-- What the header tells of the last entry are the low bytes of its position. -/
theorem field?_low : field? (spell total tail field es) 4 4 = some (tail % sizeLimit) := by
  have hfits : 4 + 4 ≤ (spell total tail field es).length := by
    rw [length_spell, Packed.envelopeSize]
    omega
  rw [field?_eq hfits, spell, List.drop_left' (Bytes.length_littleEndian 4 _),
    List.take_left' (Bytes.length_littleEndian 4 _), Bytes.ofLittleEndian_littleEndian,
    Bytes.capacity_four, sizeLimit]

theorem field?_tail (htail : tail < sizeLimit) :
    field? (spell total tail field es) 4 4 = some tail := by
  rw [field?_low, Nat.mod_eq_of_lt htail]

/-- **Bytes are exchanged** among those of the entries. What stands before them and behind them
is not touched, and neither is the header. -/
theorem splice?_spell {mid mid' : List Entry} {old new rest : Bytes}
    (hold : mid.flatMap Entry.encode = old ++ rest)
    (hnew : mid'.flatMap Entry.encode = new ++ rest) :
    splice? (spell total tail field (front ++ (mid ++ back))) (Packed.headerSize + totalSize front)
      old.length new = some (spell total tail field (front ++ (mid' ++ back))) := by
  let before := Bytes.littleEndian 4 total ++ (Bytes.littleEndian 4 tail ++
    (Bytes.littleEndian 2 field.toNat ++ front.flatMap Entry.encode))
  have hcut : ∀ (mid : List Entry) (s : Bytes), mid.flatMap Entry.encode = s ++ rest →
      spell total tail field (front ++ (mid ++ back)) =
        before ++ (s ++ (rest ++ (back.flatMap Entry.encode ++ [endMarker]))) := by
    intro mid s hmid
    simp [spell, before, hmid]
  have hbefore : before.length = Packed.headerSize + totalSize front := by
    simp only [before, List.length_append, Bytes.length_littleEndian, Packed.length_flatMap_encode,
      Packed.headerSize]
    omega
  rw [hcut mid old hold, hcut mid' new hnew, ← hbefore]
  exact splice?_append before old _ new

/-- **A link is exchanged** for another one, with nothing else changed. -/
theorem splice?_link : splice? (spell total tail field (front ++ e :: back))
    (Packed.headerSize + totalSize front) e.link.width link.encode =
      some (spell total tail field (front ++ { e with link := link } :: back)) := by
  have hold : [e].flatMap Entry.encode = e.link.encode ++ e.body.encode := by simp [Entry.encode]
  have hnew : [{ e with link := link }].flatMap Entry.encode = link.encode ++ e.body.encode := by
    simp [Entry.encode]
  have hsplice : splice? (spell total tail field (front ++ ([e] ++ back)))
      (Packed.headerSize + totalSize front) e.link.encode.length link.encode = _ :=
    splice?_spell hold hnew
  rwa [Link.length_encode, List.singleton_append, List.singleton_append] at hsplice

/-! ### One step -/

/-- A link that was set is a field of its width, whatever it is to record. -/
theorem encode_record (link : Link) (before : Nat) :
    (link.record before).encode = Link.field before (link.record before).width := by
  have hwide : ∀ n, (Link.wide (UInt32.ofNat n)).encode = Link.field n 5 := by
    intro n
    have hlow := Bytes.littleEndian_ofLittleEndian (Bytes.littleEndian 4 n)
    rw [Bytes.length_littleEndian, Bytes.ofLittleEndian_littleEndian, Bytes.capacity_four] at hlow
    rw [Link.encode, Link.width, Link.field, if_neg (by decide), Link.len, UInt32.toNat_ofNat',
      Link.field, if_neg (by decide)]
    exact congrArg (Link.wideMarker :: ·) hlow
  rcases link with len | len
  · change (Link.ofLen before).encode = Link.field before (Link.ofLen before).width
    unfold Link.ofLen
    split
    · rfl
    · exact hwide before
  · exact hwide before

/-- The entries of a list, cut at one of them. -/
theorem toList_eq_cut (hk : k < p.entries.size) :
    p.entries.toList = p.entries.toList.take k ++
      p.entries[k] :: p.entries.toList.drop (k + 1) := by
  have hcut := List.drop_eq_getElem_cons (l := p.entries.toList) (by simpa using hk)
  rw [Array.getElem_toList] at hcut
  rw [← hcut, List.take_append_drop]

/-- The header of a list and its entries. -/
theorem toBytes_eq_spell (p : Packed) :
    p.toBytes = spell p.size p.tailPos p.lengthField p.entries.toList :=
  p.toBytes_eq

/-- Exchanging a link in the bytes of a list. -/
theorem splice?_toBytes (hk : k < p.entries.size) (before : Nat) :
    splice? p.toBytes (p.posOfIdx k) p.entries[k].link.width
        (Link.field before (p.entries[k].link.record before).width) =
      some (spell p.size p.tailPos p.lengthField (p.relinkIdx k before hk).entries.toList) := by
  rw [← encode_record, toBytes_eq_spell, toList_eq_cut hk, Packed.posOfIdx_eq, splice?_link,
    Packed.toList_relinkIdx]
  rfl

/-- What becomes of the header when a link is exchanged: the size grows with the entry, and the
position of the last entry moves unless it is that entry itself. -/
theorem header_relinkIdx {before grown : Nat} (hk : k < p.entries.size)
    (hgrown : (p.entries[k].relink before).size = p.entries[k].size + grown) :
    (p.relinkIdx k before hk).size = p.size + grown ∧
      (p.relinkIdx k before hk).tailPos =
        p.tailPos + if k + 1 = p.entries.size then 0 else grown := by
  let f := p.entries[k].relink before
  have hentries : (p.relinkIdx k before hk).entries.toList = p.entries.toList.set k f :=
    p.entries.toList_set k f hk
  have hcount : (p.relinkIdx k before hk).entries.size = p.entries.size := Array.size_set hk
  constructor
  · have hset := Packed.totalSize_set p.entries.toList (by simpa using hk) f
    rw [hgrown, Array.getElem_toList] at hset
    rw [(p.relinkIdx k before hk).size_eq, p.size_eq, hentries]
    omega
  · rw [← Packed.posOfIdx_tail (by omega), ← Packed.posOfIdx_tail (by omega), Packed.posOfIdx_eq,
      Packed.posOfIdx_eq, hentries, hcount, List.take_set]
    split
    · next hlast =>
      rw [List.set_eq_of_length_le (by simp only [List.length_take]; omega)]
      rfl
    · next hinner =>
      have hlt : k < (p.entries.toList.take (p.entries.size - 1)).length := by
        simp only [List.length_take, Array.length_toList]
        omega
      have hset := Packed.totalSize_set _ hlt f
      rw [hgrown, List.getElem_take, Array.getElem_toList] at hset
      omega

/-- **Widening a link** leaves the blob of the list in which it is set. -/
theorem widen?_toBytes {before : Nat} (hk : k < p.entries.size)
    (hover : p.entries[k].link.Overflows before) (hsize : p.size < sizeLimit) :
    widen? p.toBytes (p.posOfIdx k) p.entries[k].link before =
      some (p.relinkIdx k before hk).toBytes := by
  obtain ⟨hnarrow, hwide, hneed⟩ := Packed.width_of_overflows hover
  have hsplice := splice?_toBytes hk before
  obtain ⟨htotal, htail⟩ := header_relinkIdx hk (Entry.size_relink_of_overflows hover)
  have hposition : p.tailPos = p.posOfIdx k ↔ k + 1 = p.entries.size := by
    rw [← Packed.posOfIdx_tail (by omega), Packed.posOfIdx_inj (by omega) (by omega)]
    omega
  rw [hwide, hnarrow] at hsplice
  simp only [widen?, hnarrow, hneed, hsplice, Option.bind_eq_bind, Option.bind_some,
    field?_tail (Packed.tailPos_lt hsize), hposition]
  rw [toBytes_eq_spell (p.relinkIdx k before hk), htail]
  split
  · rw [setField?_total, length_spell, ← (p.relinkIdx k before hk).size_eq]
    rfl
  · rw [setField?_tail, Option.bind_some, setField?_total, length_spell,
      ← (p.relinkIdx k before hk).size_eq]
    rfl

/-- **Setting a link** that is wide enough leaves the blob of the list in which it is set. -/
theorem splice?_toBytes_of_not_overflows {before : Nat} (hk : k < p.entries.size)
    (hover : ¬ p.entries[k].link.Overflows before) :
    splice? p.toBytes (p.posOfIdx k) p.entries[k].link.width
        (Link.field before p.entries[k].link.width) =
      some (p.relinkIdx k before hk).toBytes := by
  have hsplice := splice?_toBytes hk before
  obtain ⟨htotal, htail⟩ :=
    header_relinkIdx hk (show _ = p.entries[k].size + 0 from
      Entry.size_relink_of_not_overflows hover)
  rw [Packed.width_of_not_overflows hover] at hsplice
  rw [hsplice, toBytes_eq_spell (p.relinkIdx k before hk), htotal, htail]
  split <;> rfl

/-! ### The walk -/

/-- **The walk in the bytes is the repair of the entries.** -/
theorem cascade?_toBytes {fuel : Nat} (hk : k < p.entries.size) (hfuel : p.entries.size ≤ k + fuel)
    (hsize : (p.mend k).size < sizeLimit) :
    cascade? fuel p.toBytes (p.posOfIdx k) = some (p.mend k).toBytes := by
  induction fuel generalizing p k with
  | zero => omega
  | succ fuel ih =>
    have hold : p.size < sizeLimit := Nat.lt_of_le_of_lt (p.size_le_mend k) hsize
    have hbefore : p.entries[k].size < sizeLimit := by
      have := Packed.size_add_four_lt hold (Array.getElem_mem_toList hk)
      omega
    have hhere := atEnd?_posOfIdx (Nat.le_of_lt hk)
    have hnext := atEnd?_posOfIdx (p := p) (Nat.succ_le_of_lt hk)
    rw [decide_eq_false (Nat.ne_of_lt hk)] at hhere
    rw [cascade?]
    simp only [hhere, Option.bind_eq_bind, Option.bind_some, Bool.false_eq_true, if_false,
      entrySize?_of_drop (Entry.writable_of_size_lt hbefore) (drop_posOfIdx_of_lt hk),
      ← Packed.posOfIdx_succ hk, hnext, decide_eq_true_eq]
    by_cases hlast : k + 1 = p.entries.size
    · rw [if_pos hlast, Packed.mend_of_last hlast]
      rfl
    · have hk' : k + 1 < p.entries.size := by omega
      rw [if_neg hlast, link?_posOfIdx hk', Option.bind_some]
      by_cases hlen : p.entries[k + 1].link.len = p.entries[k].size
      · rw [if_pos hlen, Packed.mend_of_len_eq hk' hlen]
        rfl
      · rw [if_neg hlen]
        by_cases hover : p.entries[k + 1].link.Overflows p.entries[k].size
        -- the entry behind is longer now, so the walk goes on from there
        · have hmend := Packed.mend_of_overflows hk' hlen hover
          have hcount : (p.relinkIdx (k + 1) p.entries[k].size hk').entries.size =
            p.entries.size := Array.size_set hk'
          have hposition : (p.relinkIdx (k + 1) p.entries[k].size hk').posOfIdx (k + 1) =
              p.posOfIdx (k + 1) := by
            rw [Packed.posOfIdx_eq, Packed.posOfIdx_eq, Packed.toList_relinkIdx,
              List.take_left' (by simp only [List.length_take, Array.length_toList]; omega)]
          have hstep := ih (p := p.relinkIdx (k + 1) p.entries[k].size hk') (k := k + 1)
            (by omega) (by omega) (hmend ▸ hsize)
          rw [hposition, ← hmend] at hstep
          rw [if_pos hover, widen?_toBytes hk' hover hold, Option.bind_some, hstep]
        · rw [if_neg hover, splice?_toBytes_of_not_overflows hk' hover,
            Packed.mend_of_not_overflows hk' hlen hover]

/-- **A blob that is wrong at one link is mended in place.** However many fields have to widen,
the walk never leaves the blob, ends after as many steps as there are entries, and leaves the blob
of the list whose links are right. -/
theorem cascade?_mends (fuel : Nat) (h : p.LinkedBut k) (hk : k < p.entries.size)
    (hcounted : p.Counted) (hsize : (p.mend k).size < sizeLimit)
    (hfuel : p.entries.size ≤ k + fuel) :
    cascade? fuel p.toBytes (p.posOfIdx k) = some (p.mend k).toBytes ∧ p.Mends k (p.mend k) :=
  ⟨cascade?_toBytes hk hfuel hsize, h.mends hk hcounted hsize⟩

/-- A long string in front of the brimful list, whose first link still says that nothing stands
before it. -/
def frayed : Packed where
  entries := #[Entry.ofBytes 0 (List.replicate 252 100)] ++ Packed.brimful.entries
  lengthField := 4
  size := Packed.envelopeSize +
    totalSize (#[Entry.ofBytes 0 (List.replicate 252 100)] ++ Packed.brimful.entries).toList
  size_eq := rfl

theorem linkedBut_frayed : frayed.LinkedBut 0 where
  front := ⟨by decide +kernel, trivial⟩
  back := ⟨0, Packed.wellFormed_brimful.linked⟩

/-- Mending it makes **all three** links widen, one after the other. -/
theorem cascade?_mends_frayed :
    cascade? 4 frayed.toBytes 10 = some (frayed.mend 0).toBytes ∧
      frayed.Mends 0 (frayed.mend 0) ∧
      (frayed.mend 0).toBytes.length = frayed.toBytes.length + 4 * 3 := by
  have hcounted : frayed.Counted := fun _ => by decide +kernel
  obtain ⟨hcascade, hmends⟩ := cascade?_mends 4 linkedBut_frayed (by decide +kernel)
    hcounted (by decide +kernel) (by decide +kernel)
  rw [Packed.posOfIdx_zero] at hcascade
  refine ⟨hcascade, hmends, ?_⟩
  rw [hmends.length_toBytes]
  decide +kernel

end InPlace

end UnrolledList
