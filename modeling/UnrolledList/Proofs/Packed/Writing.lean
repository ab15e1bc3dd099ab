import UnrolledList.Proofs.Packed.Cascade

/-!
# Changing a blob where it stands

`UnrolledList.Proofs.Packed.InPlace` reads a blob at positions; this file **changes it at
positions**. An insertion, a removal and a join splice bytes in or out, and then patch what else
has to be right: the link behind the splice, the position of the last entry, the size, the length
field, and, if the link had to widen, all the links that have to follow
(`UnrolledList.InPlace.cascade?`). Each patch is a small sum over what stands in the blob at that
moment, and it depends on the order in which they are made.

As with the readers, an outer `none` says that the blob was left, or that a number became
negative.

## What is to be seen

A packed list knows its size and the position of its last entry without being told. Of the bytes
nothing of the kind can be taken for granted: they tell what the last patch has put there. So what
is said of a changed blob is of which list it **is the blob**
(`UnrolledList.InPlace.Writes`), header included. The one exception is forced by the format: the
header has four bytes for a size. If that is not enough, the entries are right all the same, and
their order and bytes are still those of the list.

That the three operations do write the blobs of the lists that they should is
`UnrolledList.Proofs.Packed.Mutation`.
-/

namespace UnrolledList

/-- The length field after so many entries more, or fewer. It stays within its bounds, and it does
not change any more when it no longer counts. -/
def Packed.countBy (field : UInt16) (n : Int) : UInt16 :=
  if field < saturated then UInt16.ofNat (max 0 (min (field.toNat + n) 65535)).toNat else field

namespace InPlace

open Packed (endMarker sizeLimit totalSize headerSize envelopeSize)

/-! ### Patches -/

/-- The blob with its own size in its header. -/
def setTotal? (d : Bytes) : Option Bytes :=
  setField? d 0 4 d.length

/-- The blob with so many entries more in its length field, or fewer. -/
def addCount? (d : Bytes) (n : Int) : Option Bytes := do
  let count ← field? d 8 2
  if count < 65535 then setField? d 8 2 (max 0 (min (count + n) 65535)).toNat else return d

/-- The width of a link that has to record a length. It may grow, and never shrinks. -/
def newWidth (link : Link) (len : Nat) : Nat :=
  max link.width (Link.widthFor len)

/-- Mends the links behind the entry at a position if its own link has widened. -/
def cascadeIf? (d : Bytes) (p : Nat) (link : Link) (width : Nat) : Option Bytes :=
  if width = link.width then some d else cascade? d.length d p

/-! ### Insertion -/

/-- The size of the last entry, or zero if there is none. -/
def lastSize? (d : Bytes) : Option Nat := do
  match ← tail? d with
  | none => return 0
  | some tail => entrySize? d tail

/-- Puts a string in at the end marker. -/
def insertAtEnd? (d : Bytes) (p : Nat) (s : Bytes) : Option Bytes := do
  let before ← lastSize? d
  let d ← splice? d p 0 (Entry.ofBytes before s).encode
  let d ← setField? d 4 4 p
  setTotal? d

/-- Puts a string in before the entry at a position. -/
def insertBefore? (d : Bytes) (p : Nat) (s : Bytes) : Option Bytes := do
  let link ← link? d p
  let entry := (Entry.ofBytes link.len s).encode
  let size := entry.length
  let width := newWidth link size
  let d ← splice? d p link.width (entry ++ Link.field size width)
  let tail ← field? d 4 4
  let d ← setField? d 4 4 (if tail = p then p + size else tail + size + (width - link.width))
  let d ← setTotal? d
  cascadeIf? d (p + size) link width

/-- **Inserts a string** before the entry at a position, or at the end marker. -/
def insert? (d : Bytes) (p : Nat) (s : Bytes) : Option Bytes := do
  let ending ← atEnd? d p
  let d ← if ending then insertAtEnd? d p s else insertBefore? d p s
  addCount? d 1

/-! ### Removal -/

/-- Passes over so many entries from a position on, or as many as there are. Gives the position
behind them, and their number. -/
def pass? (d : Bytes) : (num p : Nat) → Option (Nat × Nat)
  | 0, p => some (p, 0)
  | num + 1, p => do
    if ← atEnd? d p then return (p, 0)
    else
      let size ← entrySize? d p
      let (q, gone) ← pass? d num (p + size)
      return (q, gone + 1)

/-- Takes out the entries between two positions, of which the second is that of the end marker. -/
def cutToEnd? (d : Bytes) (p q before : Nat) : Option Bytes := do
  let d ← splice? d p (q - p) []
  let tail ← back? p before
  let d ← setField? d 4 4 tail
  setTotal? d

/-- Where the last entry stands when the one at `q` has moved up to `p` and has grown. -/
def movedTail? (tail p q grown : Nat) : Option Nat :=
  if tail = q then some p else (back? tail (q - p)).map (· + grown)

/-- Takes out the entries between two positions, of which the second is that of an entry. That
entry has to record the length `before` from now on. -/
def cutBetween? (d : Bytes) (p q before tail : Nat) : Option Bytes := do
  let link ← link? d q
  let width := newWidth link before
  let d ← splice? d p (q - p + link.width) (Link.field before width)
  let moved ← movedTail? tail p q (width - link.width)
  let d ← setField? d 4 4 moved
  let d ← setTotal? d
  cascadeIf? d p link width

/-- Takes out the entries between two positions. -/
def cut? (d : Bytes) (p q : Nat) : Option Bytes := do
  let link ← link? d p
  let tail ← field? d 4 4
  let ending ← atEnd? d q
  if ending then cutToEnd? d p q link.len else cutBetween? d p q link.len tail

/-- Removes so many entries from a position on, or as many as there are, and tells how many. -/
def eraseAt? (d : Bytes) (p num : Nat) : Option (Bytes × Nat) := do
  let (q, gone) ← pass? d num p
  if gone = 0 then return (d, 0)
  else
    let d ← cut? d p q
    let d ← addCount? d (-gone)
    return (d, gone)

/-- **Removes the entry** at a position, and gives the position back if an entry has moved up to
it. -/
def erase? (d : Bytes) (p : Nat) : Option (Bytes × Option Nat) := do
  let (d, _) ← eraseAt? d p 1
  return (d, if ← atEnd? d p then none else some p)

/-- **Removes up to so many entries** from an index on, and tells how many. -/
def eraseRange? (d : Bytes) (i : Int) (num : Nat) : Option (Bytes × Nat) := do
  match ← seek? d i with
  | none => return (d, 0)
  | some p => eraseAt? d p num

/-! ### Joining -/

/-- The number of entries, by the length field as long as it counts. -/
def length? (d : Bytes) : Option Nat := do
  let count ← field? d 8 2
  if count < 65535 then return count else return (← positions? d).length

/-- The entries of two blobs behind the header of the first, with the position of the last entry
and the number of entries. Of the links none is changed. -/
def concat? (d d' : Bytes) (tail : Nat) : Option Bytes := do
  let length ← length? d
  let length' ← length? d'
  let past ← back? tail 10
  let joint := d.length - 1
  let d ← setField? (d.take joint ++ d'.drop 10) 4 4 (joint + past)
  setField? d 8 2 (min (length + length') 65535)

/-- Moves the position of the last entry by as much as the first entry of the second blob has
grown, unless that entry is the last one itself. -/
def moveTail? (d : Bytes) (tail : Nat) (link : Link) (width : Nat) : Option Bytes := do
  if width ≠ link.width ∧ tail ≠ 10 then
    let moved ← field? d 4 4
    setField? d 4 4 (moved + width - link.width)
  else return d

/-- Puts the entries of the second of two blobs behind those of the first. -/
def joinEntries? (d d' : Bytes) : Option Bytes := do
  let last ← field? d 4 4
  let before ← entrySize? d last
  let tail ← field? d' 4 4
  let joint := d.length - 1
  let d ← concat? d d' tail
  let link ← link? d joint
  let width := newWidth link before
  let d ← splice? d joint link.width (Link.field before width)
  let d ← moveTail? d tail link width
  let d ← setTotal? d
  cascadeIf? d joint link width

/-- **Joins two blobs.** An empty one gives way to the other. -/
def join? (d d' : Bytes) : Option Bytes := do
  if ← atEnd? d 10 then return d'
  else if ← atEnd? d' 10 then return d
  else joinEntries? d d'

/-! ### Blobs by their fields -/

variable {d : Bytes} {p q r : Packed} {total tail n : Nat} {field : UInt16}
  {es front back : List Entry} {e x : Entry} {link : Link}

theorem setTotal?_spell : setTotal? (spell total tail field es) =
    some (spell (envelopeSize + totalSize es) tail field es) := by
  rw [setTotal?, setField?_total, length_spell]

theorem field?_count : field? (spell total tail field es) 8 2 = some field.toNat := by
  have hfits : 8 + 2 ≤ (spell total tail field es).length := by
    rw [length_spell, envelopeSize]
    omega
  have hcut : (spell total tail field es).drop 8 =
      Bytes.littleEndian 2 field.toNat ++ (es.flatMap Entry.encode ++ [endMarker]) := by
    rw [spell, ← List.append_assoc]
    exact List.drop_left' (by simp)
  rw [field?_eq hfits, hcut, List.take_left' (Bytes.length_littleEndian 2 _),
    Bytes.ofLittleEndian_littleEndian, Nat.mod_eq_of_lt (show _ < Bytes.capacity 2 from
    field.toNat_lt)]

theorem setField?_count (hn : n < 65536) : setField? (spell total tail field es) 8 2 n =
    some (spell total tail (UInt16.ofNat n) es) := by
  have hsplice := splice?_append (Bytes.littleEndian 4 total ++ Bytes.littleEndian 4 tail)
    (Bytes.littleEndian 2 field.toNat) (es.flatMap Entry.encode ++ [endMarker])
    (Bytes.littleEndian 2 n)
  have hlen : (Bytes.littleEndian 4 total ++ Bytes.littleEndian 4 tail).length = 8 := by simp
  have hfield : (UInt16.ofNat n).toNat = n := UInt16.toNat_ofNat_of_lt hn
  rw [hlen, Bytes.length_littleEndian, List.append_assoc, List.append_assoc] at hsplice
  rw [setField?, spell, hsplice, spell, hfield]

/-- Whatever the header says, the entries stand behind it. -/
theorem drop_spell : (spell total tail field (front ++ back)).drop (headerSize + totalSize front) =
    back.flatMap Entry.encode ++ [endMarker] := by
  have hcut : spell total tail field (front ++ back) =
      (Bytes.littleEndian 4 total ++ (Bytes.littleEndian 4 tail ++
        (Bytes.littleEndian 2 field.toNat ++ front.flatMap Entry.encode))) ++
          (back.flatMap Entry.encode ++ [endMarker]) := by
    simp [spell]
  rw [hcut]
  refine List.drop_left' ?_
  simp only [List.length_append, Bytes.length_littleEndian, Packed.length_flatMap_encode,
    headerSize]
  omega

theorem drop_header :
    (spell total tail field es).drop headerSize = es.flatMap Entry.encode ++ [endMarker] := by
  have hdrop : (spell total tail field ([] ++ es)).drop (headerSize + totalSize []) = _ :=
    drop_spell
  exact hdrop

theorem drop_spell_cons : (spell total tail field (front ++ x :: back)).drop
    (headerSize + totalSize front) =
      x.encode ++ (back.flatMap Entry.encode ++ [endMarker]) := by
  rw [drop_spell, List.flatMap_cons, List.append_assoc]

/-- The next entry stands behind the bytes of the last one. -/
theorem totalSize_snoc : headerSize + totalSize (front ++ [x]) =
    headerSize + totalSize front + x.size := by
  rw [Packed.totalSize_append, Packed.totalSize_cons, Packed.totalSize_nil, Nat.add_zero,
    Nat.add_assoc]

/-- Behind the entries stands the end marker. -/
theorem atEnd?_spell :
    atEnd? (spell total tail field es) (headerSize + totalSize es) = some true := by
  have hend : (spell total tail field (es ++ [])).drop (headerSize + totalSize es) = [endMarker] :=
    drop_spell
  rw [List.append_nil] at hend
  rw [atEnd?, getElem?_eq_head? hend]
  simp

/-! ### The position of the last entry -/

/-- The position of the last of some entries, or that behind the header if there is none. -/
def tailOf (es : List Entry) : Nat :=
  headerSize + totalSize es.dropLast

theorem tailPos_eq (p : Packed) : p.tailPos = tailOf p.entries.toList := by
  have hsize := p.size_eq
  have hlast := Packed.lastSize_eq p.entries
  rcases List.eq_nil_or_concat p.entries.toList with hnil | ⟨es, e, hes⟩
  · rw [hnil] at hsize hlast
    rw [Packed.tailPos, Packed.endPos, hsize, hlast, tailOf, hnil]
    rfl
  · rw [List.concat_eq_append] at hes
    rw [hes, Packed.totalSize_append, Packed.totalSize_cons, Packed.totalSize_nil] at hsize
    rw [hes, Packed.endSize_append, Packed.endSize_cons, Packed.endSize_nil] at hlast
    rw [Packed.tailPos, Packed.endPos, hsize, hlast, tailOf, hes, List.dropLast_concat,
      envelopeSize,
      headerSize]
    omega

@[simp] theorem tailOf_concat : tailOf (front ++ [x]) = headerSize + totalSize front := by
  rw [tailOf, List.dropLast_concat]

/-- If something stands behind an entry, the last one is found there. -/
theorem tailOf_cons (hback : back ≠ []) :
    tailOf (front ++ x :: back) = headerSize + totalSize front + x.size +
      totalSize back.dropLast := by
  rw [tailOf, List.dropLast_append_of_ne_nil (List.cons_ne_nil x back),
    List.dropLast_cons_of_ne_nil hback, Packed.totalSize_append, Packed.totalSize_cons]
  omega

/-- The last entry stands at a place if nothing stands behind it. -/
theorem tailOf_eq_iff :
    tailOf (front ++ x :: back) = headerSize + totalSize front ↔ back = [] := by
  constructor
  · intro htail
    by_contra hback
    have hpos := x.size_pos
    rw [tailOf_cons hback] at htail
    omega
  · rintro rfl
    exact tailOf_concat

/-! ### What is written -/

/-- **The bytes are the blob of a packed list**, except that the header cannot tell more than it
has room for. -/
structure Writes (d : Bytes) (p : Packed) : Prop where
  /-- The length field and the entries. -/
  spelled : ∃ total tail, d = spell total tail p.lengthField p.entries.toList
  /-- The whole blob. -/
  exact : p.size < sizeLimit → d = p.toBytes

namespace Writes

theorem toBytes (p : Packed) : Writes p.toBytes p where
  spelled := ⟨p.size, p.tailPos, toBytes_eq_spell p⟩
  exact _ := rfl

/-- A blob with its own size in its header, and with the right position of the last entry as far as
that can be told. -/
theorem of_spell (hentries : p.entries.toList = es) (hfield : p.lengthField = field)
    (htail : p.size < sizeLimit → tail = tailOf es) :
    Writes (spell (envelopeSize + totalSize es) tail field es) p := by
  subst hentries hfield
  refine ⟨⟨_, _, rfl⟩, fun hsize => ?_⟩
  rw [toBytes_eq_spell, p.size_eq, tailPos_eq, htail hsize]

/-- However much it is, all of it is there. -/
theorem length_eq (h : Writes d p) : d.length = p.size := by
  obtain ⟨total, tail, rfl⟩ := h.spelled
  rw [length_spell, p.size_eq]

/-- Behind the header there is no exception. -/
theorem drop_eq (h : Writes d p) : d.drop headerSize = p.toBytes.drop headerSize := by
  obtain ⟨total, tail, rfl⟩ := h.spelled
  rw [toBytes_eq_spell, drop_header, drop_header]

end Writes

/-! ### Links that are set -/

/-- A link that records a length is not changed by recording it. -/
theorem relink_len (x : Entry) : x.relink x.link.len = x := by
  rw [Entry.relink, Link.record_len]

theorem not_overflows_len (link : Link) : ¬ link.Overflows link.len := by
  rcases link with len | len
  · simp [Link.Overflows, Link.widthFor, Link.len]
  · simp only [Link.Overflows, Link.widthFor, Link.width_wide]
    split <;> omega

/-- A repair sets the first link, and goes on if that has to widen. -/
theorem repair_cons (before : Nat) (x : Entry) (back : List Entry) :
    Packed.repair before (x :: back) = x.relink before ::
      if x.link.Overflows before then Packed.repair (x.relink before).size back else back := by
  rw [Packed.repair]
  split
  · next hlen =>
    subst hlen
    rw [relink_len, if_neg (not_overflows_len _)]
  · split <;> rfl

/-- The width that a link comes to have. -/
theorem newWidth_eq (link : Link) (n : Nat) : newWidth link n = (link.record n).width := by
  by_cases hover : link.Overflows n
  · obtain ⟨hnarrow, hwide, hneed⟩ := Packed.width_of_overflows hover
    rw [newWidth, hnarrow, hneed, hwide]
    rfl
  · rw [Packed.width_of_not_overflows hover, newWidth]
    exact Nat.max_eq_left (Nat.le_of_not_lt hover)

theorem newWidth_eq_width_iff : newWidth link n = link.width ↔ ¬ link.Overflows n := by
  rw [newWidth, Link.Overflows]
  omega

/-- An entry grows with its link. -/
theorem size_relink (x : Entry) (n : Nat) :
    (x.relink n).size + x.link.width = x.size + newWidth x.link n := by
  simp only [newWidth_eq, Entry.size, Entry.relink]
  omega

/-- **The position of the last entry moves** with what is put before it or taken away, and with
the link that has been set. -/
theorem tailOf_relink (front front' : List Entry) (x : Entry) (n : Nat) (hback : back ≠ []) :
    tailOf (front' ++ x.relink n :: back) + totalSize front + x.link.width =
      tailOf (front ++ x :: back) + totalSize front' + newWidth x.link n := by
  have hgrown := size_relink x n
  rw [tailOf_cons hback, tailOf_cons hback]
  omega

/-! ### The walk, whatever the header says -/

/-- A link that has to widen is widened, and something is put into the header. -/
theorem widen?_spell (total tail : Nat) (field : UInt16) (front : List Entry)
    (hover : x.link.Overflows n) :
    ∃ total' tail', widen? (spell total tail field (front ++ x :: back))
        (headerSize + totalSize front) x.link n =
      some (spell total' tail' field (front ++ x.relink n :: back)) := by
  obtain ⟨-, hwide, hneed⟩ := Packed.width_of_overflows hover
  have hsplice : splice? (spell total tail field (front ++ x :: back))
      (headerSize + totalSize front) x.link.width (x.link.record n).encode =
        some (spell total tail field (front ++ x.relink n :: back)) := splice?_link
  rw [encode_record, hwide, ← hneed] at hsplice
  simp only [widen?, hsplice, Option.bind_eq_bind, Option.bind_some, field?_low]
  split
  · exact ⟨_, _, setField?_total⟩
  · rw [setField?_tail]
    exact ⟨_, _, setField?_total⟩

/-- **The walk repairs the entries**, and does not leave the blob whatever stands in the header. -/
theorem cascade?_spell {fuel : Nat} (total tail : Nat) (field : UInt16) (front : List Entry)
    (hfuel : back.length < fuel) (hx : x.size < sizeLimit)
    (hback : ∀ e ∈ back, e.size + 4 < sizeLimit) :
    ∃ total' tail', cascade? fuel (spell total tail field (front ++ x :: back))
        (headerSize + totalSize front) =
      some (spell total' tail' field (front ++ x :: Packed.repair x.size back)) := by
  induction back generalizing fuel front x total tail with
  | nil =>
    obtain ⟨fuel, rfl⟩ := Nat.exists_eq_succ_of_ne_zero (Nat.ne_of_gt (Nat.zero_lt_of_lt hfuel))
    have hhere : (spell total tail field (front ++ [x])).drop (headerSize + totalSize front) =
      x.encode ++ _ := drop_spell_cons
    have hend : atEnd? (spell total tail field (front ++ [x]))
        (headerSize + totalSize (front ++ [x])) =
      some true := atEnd?_spell
    rw [totalSize_snoc] at hend
    refine ⟨total, tail, ?_⟩
    simp only [cascade?, atEnd?_of_drop hhere, Option.bind_eq_bind, Option.bind_some,
      Bool.false_eq_true, if_false, entrySize?_of_drop (Entry.writable_of_size_lt hx) hhere, hend,
      if_true]
    rfl
  | cons y back ih =>
    obtain ⟨fuel, rfl⟩ := Nat.exists_eq_succ_of_ne_zero (Nat.ne_of_gt (Nat.zero_lt_of_lt hfuel))
    have hhere : (spell total tail field (front ++ x :: y :: back)).drop
      (headerSize + totalSize front) = x.encode ++ _ := drop_spell_cons
    have hnext : (spell total tail field (front ++ [x] ++ y :: back)).drop
      (headerSize + totalSize (front ++ [x])) = y.encode ++ _ := drop_spell_cons
    have hy := hback y List.mem_cons_self
    have hrest : ∀ e ∈ back, e.size + 4 < sizeLimit := fun e he =>
      hback e (List.mem_cons_of_mem y he)
    rw [totalSize_snoc, ← List.append_cons] at hnext
    simp only [cascade?, atEnd?_of_drop hhere, Option.bind_eq_bind, Option.bind_some,
      Bool.false_eq_true, if_false, entrySize?_of_drop (Entry.writable_of_size_lt hx) hhere,
      atEnd?_of_drop hnext, link?_of_drop hnext]
    rw [Packed.repair]
    by_cases hlen : y.link.len = x.size
    · rw [if_pos hlen, if_pos hlen]
      exact ⟨total, tail, rfl⟩
    · rw [if_neg hlen, if_neg hlen]
      by_cases hover : y.link.Overflows x.size
      -- the next entry is longer now, and the walk goes on from there
      · obtain ⟨total', tail', hwiden⟩ := widen?_spell total tail field (front ++ [x]) hover
        rw [totalSize_snoc, ← List.append_cons, ← List.append_cons] at hwiden
        rw [if_pos hover, if_pos hover, hwiden, Option.bind_some]
        have hgrown := Entry.size_relink_of_overflows hover
        obtain ⟨total'', tail'', hstep⟩ := ih total' tail' (front ++ [x])
          (Nat.lt_of_succ_lt_succ hfuel) (hgrown ▸ hy) hrest
        rw [totalSize_snoc, ← List.append_cons, ← List.append_cons] at hstep
        exact ⟨total'', tail'', hstep⟩
      · rw [if_neg hover, if_neg hover]
        have hset : splice? (spell total tail field (front ++ [x] ++ y :: back))
            (headerSize + totalSize (front ++ [x])) y.link.width (y.link.record x.size).encode =
              some (spell total tail field (front ++ [x] ++ y.relink x.size :: back)) :=
        splice?_link
        rw [encode_record, Packed.width_of_not_overflows hover, totalSize_snoc, ← List.append_cons,
          ← List.append_cons] at hset
        exact ⟨total, tail, hset⟩

/-! ### What is left to do behind a splice -/

/-- **The links are mended** behind an entry whose own link has been set. -/
theorem Writes.cascadeIf? (h : Writes d q) (hq : q.entries.toList = front ++ x.relink n :: back)
    (hroom : ∀ e ∈ x :: back, e.size + 4 < sizeLimit)
    (hr : r.entries.toList = front ++ Packed.repair n (x :: back))
    (hfield : r.lengthField = q.lengthField) :
    ∃ d', InPlace.cascadeIf? d (headerSize + totalSize front) x.link (newWidth x.link n) = some d' ∧
      Writes d' r := by
  rw [repair_cons] at hr
  unfold InPlace.cascadeIf?
  by_cases hover : x.link.Overflows n
  · have hwidth : newWidth x.link n ≠ x.link.width := fun heq => newWidth_eq_width_iff.mp heq hover
    have hx : (x.relink n).size < sizeLimit := by
      rw [Entry.size_relink_of_overflows hover]
      exact hroom x List.mem_cons_self
    have hcount := congrArg List.length hq
    rw [List.length_append, List.length_cons, Array.length_toList] at hcount
    have hk : front.length < q.entries.size := by omega
    have hentry : q.entries[front.length] = x.relink n := by
      rw [← Array.getElem_toList]
      simp [hq]
    have hfuel : q.entries.size ≤ d.length := by
      have hle := Packed.length_le_totalSize q.entries.toList
      rw [Array.length_toList] at hle
      rw [h.length_eq, q.size_eq]
      omega
    have hmend : q.mend front.length = r := by
      refine Packed.mend_eq hk hfield ?_
      have htake : q.entries.toList.take (front.length + 1) = front ++ [x.relink n] := by
        rw [hq, List.append_cons]
        exact List.take_left' (by simp)
      have hdrop : q.entries.toList.drop (front.length + 1) = back := by
        rw [hq, List.append_cons]
        exact List.drop_left' (by simp)
      rw [hr, if_pos hover, hentry, htake, hdrop, ← List.append_cons]
    obtain ⟨total, tail, hd⟩ := h.spelled
    rw [hq] at hd
    obtain ⟨total', tail', hwalk⟩ := cascade?_spell total tail q.lengthField front
      (show back.length < d.length by omega) hx fun e he => hroom e (List.mem_cons_of_mem x he)
    rw [← hd] at hwalk
    rw [if_neg hwidth, hwalk]
    refine ⟨_, rfl, ⟨total', tail', by rw [hr, if_pos hover, hfield]⟩, fun hsize => ?_⟩
    -- within the limit the walk is known, and leaves the right header
    have hexact := h.exact (Nat.lt_of_le_of_lt (q.size_le_mend front.length) (hmend ▸ hsize))
    have hposition : q.posOfIdx front.length = headerSize + totalSize front := by
      rw [Packed.posOfIdx_eq, hq, List.take_left]
    have hknown : cascade? d.length q.toBytes (q.posOfIdx front.length) = _ :=
      cascade?_toBytes hk (by omega) (hmend ▸ hsize)
    rw [hposition, ← hexact, hwalk, hmend] at hknown
    exact Option.some.inj hknown
  · have hsame : q = r := by
      refine Packed.ext_entries (Array.toList_inj.mp ?_) hfield.symm
      rw [hq, hr, if_neg hover]
    rw [if_pos (newWidth_eq_width_iff.mpr hover)]
    exact ⟨d, rfl, hsame ▸ h⟩

theorem addCount?_spell (total tail : Nat) (field : UInt16) (es : List Entry) (m : Int) :
    addCount? (spell total tail field es) m =
      some (spell total tail (Packed.countBy field m) es) := by
  have hbound : field < Packed.saturated ↔ field.toNat < 65535 := UInt16.lt_iff_toNat_lt
  simp only [addCount?, field?_count, Option.bind_eq_bind, Option.bind_some, Packed.countBy, hbound]
  split
  · exact setField?_count (by omega)
  · rfl

/-- **The entries are counted** when everything else is done. -/
theorem Writes.addCount? {m : Int} (h : Writes d q) (hentries : r.entries = q.entries)
    (hfield : r.lengthField = Packed.countBy q.lengthField m) :
    ∃ d', InPlace.addCount? d m = some d' ∧ Writes d' r := by
  have hsize : r.size = q.size := by rw [r.size_eq, q.size_eq, hentries]
  obtain ⟨total, tail, hd⟩ := h.spelled
  refine ⟨spell total tail r.lengthField r.entries.toList, ?_, ⟨total, tail, rfl⟩, fun hlt => ?_⟩
  · rw [hd, addCount?_spell, hfield, hentries]
  · have hexact := h.exact (hsize ▸ hlt)
    have hadd := addCount?_spell q.size q.tailPos q.lengthField q.entries.toList m
    rw [← toBytes_eq_spell, ← hexact, hd, addCount?_spell] at hadd
    have htail : r.tailPos = q.tailPos := by rw [tailPos_eq, tailPos_eq, hentries]
    rw [toBytes_eq_spell r, hsize, htail, hfield, hentries]
    exact Option.some.inj hadd

/-- One entry more. -/
theorem countUp_eq (field : UInt16) : Packed.countUp field = Packed.countBy field 1 := by
  unfold Packed.countUp Packed.countBy
  split
  · next hlt =>
    have hfield := UInt16.lt_iff_toNat_lt.mp hlt
    rw [Packed.toNat_saturated] at hfield
    have hsum : (max 0 (min ((field.toNat : Int) + 1) 65535)).toNat = field.toNat + 1 := by omega
    rw [hsum, UInt16.ofNat_add, UInt16.ofNat_toNat]
    rfl
  · rfl

/-- Some entries fewer. -/
theorem countDown_eq (field : UInt16) (gone : Nat) :
    Packed.countDown field gone = Packed.countBy field (-gone) := by
  unfold Packed.countDown Packed.countBy
  split
  · next hlt =>
    have hfield := UInt16.lt_iff_toNat_lt.mp hlt
    rw [Packed.toNat_saturated] at hfield
    have hdifference : (max 0 (min ((field.toNat : Int) + -gone) 65535)).toNat =
        field.toNat - gone := by omega
    rw [hdifference]
  · rfl

end InPlace

end UnrolledList
