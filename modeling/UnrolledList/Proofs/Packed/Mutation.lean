import UnrolledList.Proofs.Packed.Writing

/-!
# The three changes, byte for byte

Each of the changes of `UnrolledList.Proofs.Packed.Writing` begins at the blob of a packed list and
ends at the blob of the list that has been changed: with the string put in
(`UnrolledList.InPlace.insert?_writes`), without the entries removed
(`UnrolledList.InPlace.eraseAt?_writes`), with the other list behind it
(`UnrolledList.InPlace.join?_writes`). None of them leaves the blob on the way. What is known of
the changed list is known of the blob that way.

## How the header is followed

In every case the bytes are spelt out before the change (`UnrolledList.InPlace.spell`), the splice
is seen to give the bytes of other entries (`UnrolledList.InPlace.splice?_spell`), and what is left
is a question about numbers: whether the position that has been put in the header is the one of the
last entry (`UnrolledList.InPlace.tailOf`). There are two cases to that, as the code has them: the
entry behind the splice is the last one, or another one is and has moved with it.
-/

namespace UnrolledList

namespace InPlace

open Packed (endMarker sizeLimit totalSize headerSize envelopeSize endSize)

variable {d : Bytes} {p q r : Packed} {front gone back : List Entry} {x : Entry} {k : Nat}

/-! ### Insertion -/

/-- The list with other entries, before they are counted. -/
theorem size_withEntries (p : Packed) (es : Array Entry) :
    (p.withEntries es).size = envelopeSize + totalSize es.toList :=
  (p.withEntries es).size_eq

theorem drop_toBytes (hp : p.entries.toList = front ++ x :: back) :
    p.toBytes.drop (headerSize + totalSize front) =
      x.encode ++ (back.flatMap Entry.encode ++ [endMarker]) := by
  rw [toBytes_eq_spell, hp]
  exact drop_spell_cons

theorem lastSize?_toBytes (h : p.WellFormed) :
    lastSize? p.toBytes = some (Packed.lastSize p.entries) := by
  have htail := tail?_toBytes h
  rw [lastSize?, htail]
  rcases Nat.eq_zero_or_pos p.entries.size with hzero | hpos
  · have hnil : p.entries.toList = [] := List.eq_nil_of_length_eq_zero hzero
    rw [if_pos hzero, Packed.lastSize_eq, hnil]
    rfl
  · have hlast : Packed.lastSize p.entries = p.entries[p.entries.size - 1].size := by
      rw [Packed.lastSize, Array.back?_eq_getElem?, Array.getElem?_eq_getElem (by omega)]
    rw [if_neg (by omega), hlast]
    exact entrySize?_posOfIdx h (by omega)

/-- **At the end marker** the new entry is the last one. -/
theorem insertAtEnd?_writes (h : p.WellFormed) (s : Bytes) :
    ∃ d, insertAtEnd? p.toBytes (headerSize + totalSize p.entries.toList) s = some d ∧
      Writes d (p.withEntries (p.push s).entries) := by
  let e := Entry.ofBytes (Packed.lastSize p.entries) s
  have hsplice : splice?
      (spell p.size p.tailPos p.lengthField (p.entries.toList ++ ([] ++ [])))
      (headerSize + totalSize p.entries.toList) ([] : Bytes).length e.encode =
        some (spell p.size p.tailPos p.lengthField (p.entries.toList ++ ([e] ++ []))) :=
    splice?_spell (List.append_nil _).symm (by simp)
  simp only [List.append_nil, List.length_nil] at hsplice
  rw [← toBytes_eq_spell] at hsplice
  simp only [insertAtEnd?, lastSize?_toBytes h, Option.bind_eq_bind, Option.bind_some, hsplice,
    setField?_tail, setTotal?_spell, e]
  refine ⟨_, rfl, .of_spell (p.toList_entries_push s) rfl fun _ => ?_⟩
  rw [tailOf_concat]

/-- **Before an entry** the new one pushes back all that follows. -/
theorem insertBefore?_writes (h : p.WellFormed) (hp : p.entries.toList = front ++ x :: back)
    (s : Bytes) :
    ∃ d, insertBefore? p.toBytes (headerSize + totalSize front) s = some d ∧
      Writes d (p.withEntries (p.insertIdx front.length s).entries) := by
  obtain ⟨e, he⟩ : ∃ e, e = Entry.ofBytes x.link.len s := ⟨_, rfl⟩
  have hlink : link? p.toBytes (headerSize + totalSize front) = some x.link :=
    link?_of_drop (drop_toBytes hp)
  have hroom : ∀ y ∈ x :: back, y.size + 4 < sizeLimit := fun y hy =>
    h.size_add_four_lt (hp ▸ List.mem_append_right front hy)
  -- the bytes of the new entry and of the link behind it
  have hold : [x].flatMap Entry.encode = x.link.encode ++ x.body.encode := by simp [Entry.encode]
  have hnew : [e, x.relink e.size].flatMap Entry.encode =
      (e.encode ++ (x.link.record e.size).encode) ++ x.body.encode := by
    simp [Entry.encode, Entry.relink]
  have hsplice : splice? (spell p.size p.tailPos p.lengthField (front ++ ([x] ++ back)))
      (headerSize + totalSize front) x.link.encode.length _ = _ := splice?_spell hold hnew
  rw [Link.length_encode, encode_record, ← newWidth_eq, List.singleton_append, ← hp,
    ← toBytes_eq_spell, List.cons_append, List.singleton_append, List.append_cons] at hsplice
  have hposition : p.tailPos = headerSize + totalSize front ↔ back = [] := by
    rw [tailPos_eq, hp, tailOf_eq_iff]
  have hmoved : (if back = [] then headerSize + totalSize front + e.size
      else p.tailPos + e.size + (newWidth x.link e.size - x.link.width)) =
        tailOf (front ++ [e] ++ x.relink e.size :: back) := by
    have hwider : x.link.width ≤ newWidth x.link e.size := Nat.le_max_left _ _
    split
    · next hback => rw [hback, tailOf_concat, totalSize_snoc]
    · next hback =>
      have hmoved := tailOf_relink front (front ++ [e]) x e.size hback
      have hfront : totalSize (front ++ [e]) = totalSize front + e.size := by simp
      rw [tailPos_eq, hp]
      omega
  have hleft : (p.withEntries (p.insertIdx front.length s).entries).entries.toList =
      front ++ [e] ++ Packed.repair e.size (x :: back) := by
    have hk : front.length < p.entries.size := by
      rw [← Array.length_toList, hp]
      simp
    have hx : p.entries[front.length] = x := by
      rw [← Array.getElem_toList]
      simp [hp]
    have hinsert := p.toList_entries_insertIdx hk s
    dsimp only at hinsert
    rw [hx, hp, List.take_left, List.drop_left, ← he, List.append_cons] at hinsert
    exact hinsert
  have hwrites : Writes (spell (envelopeSize + totalSize (front ++ [e] ++ x.relink e.size :: back))
      (tailOf (front ++ [e] ++ x.relink e.size :: back)) p.lengthField
      (front ++ [e] ++ x.relink e.size :: back))
      (p.withEntries (front ++ [e] ++ x.relink e.size :: back).toArray) :=
    .of_spell rfl rfl fun _ => rfl
  obtain ⟨d, hd, hwritten⟩ := hwrites.cascadeIf? rfl hroom hleft rfl
  rw [totalSize_snoc] at hd
  refine ⟨d, ?_, hwritten⟩
  simp only [insertBefore?, hlink, Option.bind_eq_bind, Option.bind_some, Entry.length_encode, ← he,
    hsplice, field?_tail (Packed.tailPos_lt h.size_lt), hposition, hmoved, setField?_tail,
    setTotal?_spell, hd]

/-- **An insertion writes the list with the string put in.** -/
theorem insert?_writes (h : p.WellFormed) (hk : k ≤ p.entries.size) (s : Bytes) :
    ∃ d, insert? p.toBytes (p.posOfIdx k) s = some d ∧ Writes d (p.insertIdx k s) := by
  have hend := atEnd?_posOfIdx hk
  have hcount : ∀ d, Writes d (p.withEntries (p.insertIdx k s).entries) →
      ∃ d', addCount? d 1 = some d' ∧ Writes d' (p.insertIdx k s) := fun d hd =>
    hd.addCount? rfl (by rw [Packed.lengthField_insertIdx, countUp_eq]; rfl)
  rcases Nat.lt_or_eq_of_le hk with hlt | rfl
  · have hcut := toList_eq_cut hlt
    have hlen : (p.entries.toList.take k).length = k := by
      rw [List.length_take, Array.length_toList]
      omega
    obtain ⟨d, hd, hwrites⟩ := insertBefore?_writes h hcut s
    rw [hlen] at hwrites
    obtain ⟨d', hd', hwrites'⟩ := hcount d hwrites
    rw [decide_eq_false (Nat.ne_of_lt hlt)] at hend
    refine ⟨d', ?_, hwrites'⟩
    simp only [insert?, hend, Option.bind_eq_bind, Option.bind_some, Bool.false_eq_true, if_false]
    rw [Packed.posOfIdx_eq, hd, Option.bind_some, hd']
  · obtain ⟨d, hd, hwrites⟩ := insertAtEnd?_writes h s
    rw [← Packed.insertIdx_size] at hwrites
    obtain ⟨d', hd', hwrites'⟩ := hcount d hwrites
    rw [decide_eq_true rfl] at hend
    refine ⟨d', ?_, hwrites'⟩
    simp only [insert?, hend, Option.bind_eq_bind, Option.bind_some, if_true]
    rw [Packed.posOfIdx_eq, ← Array.length_toList, List.take_length, hd, Option.bind_some, hd']

/-- **Insertion, byte for byte.** At every place of an accepted blob, and as long as the header can
tell the new size, what is left is the blob of the list with the string put in. -/
theorem insert?_inserts (hd : Packed.ofBytes d = .ok p) (hk : k ≤ p.entries.size) (s : Bytes)
    (hsize : (p.insertIdx k s).size < sizeLimit) :
    insert? d (p.posOfIdx k) s = some (p.insertIdx k s).toBytes ∧
      p.Inserts k s (p.insertIdx k s) := by
  obtain ⟨rfl, hwell⟩ := Packed.ofBytes_eq_ok_iff.mp hd
  obtain ⟨d, hinsert, hwrites⟩ := insert?_writes hwell hk s
  refine ⟨?_, Packed.insertIdx_inserts hwell hk s hsize⟩
  rw [hinsert, hwrites.exact hsize]

/-- In front of three strings of 250 bytes a long one makes **all three** of their links widen. -/
theorem insert?_inserts_brimful :
    let s : Bytes := List.replicate 252 100
    insert? Packed.brimful.toBytes 10 s = some (Packed.brimful.insertIdx 0 s).toBytes ∧
      Packed.brimful.Inserts 0 s (Packed.brimful.insertIdx 0 s) ∧
      (Packed.brimful.insertIdx 0 s).toBytes.length =
        Packed.brimful.toBytes.length + 255 + 4 * 3 := by
  intro s
  have hd := Packed.ofBytes_toBytes Packed.wellFormed_brimful
  obtain ⟨hbytes, hinserts⟩ :=
    insert?_inserts hd (Nat.zero_le Packed.brimful.entries.size) s (by decide +kernel)
  refine ⟨hbytes, hinserts, ?_⟩
  rw [hinserts.length_toBytes]
  decide +kernel

/-! ### Removal -/

/-- As many entries are passed over as there are. -/
theorem pass?_posOfIdx (h : p.WellFormed) (num : Nat) (hk : k ≤ p.entries.size) :
    pass? p.toBytes num (p.posOfIdx k) =
      some (p.posOfIdx (k + p.available k num), p.available k num) := by
  induction num generalizing k with
  | zero => rw [pass?, Packed.available, Nat.zero_min, Nat.add_zero]
  | succ num ih =>
    have hend := atEnd?_posOfIdx hk
    rcases Nat.lt_or_eq_of_le hk with hlt | rfl
    · have hstep := ih (Nat.succ_le_of_lt hlt)
      have hone : p.available k (num + 1) = p.available (k + 1) num + 1 := by
        simp only [Packed.available]
        omega
      rw [Packed.posOfIdx_succ hlt] at hstep
      rw [decide_eq_false (Nat.ne_of_lt hlt)] at hend
      simp only [pass?, hend, entrySize?_posOfIdx h hlt, hstep, Option.bind_eq_bind,
        Option.bind_some, Bool.false_eq_true, if_false, hone]
      rw [Nat.succ_add, ← Nat.add_succ]
      rfl
    · have hnone : p.available p.entries.size (num + 1) = 0 := by
        rw [Packed.available, Nat.sub_self, Nat.min_zero]
      rw [decide_eq_true rfl] at hend
      simp only [pass?, hend, Option.bind_eq_bind, Option.bind_some, if_true, hnone]
      rfl

/-- The last entry ends where the next one would begin. -/
theorem back?_endSize (es : List Entry) :
    back? (headerSize + totalSize es) (endSize 0 es) = some (tailOf es) := by
  rcases List.eq_nil_or_concat es with rfl | ⟨es, e, rfl⟩
  · rfl
  · have hend : endSize 0 (es ++ [e]) = e.size := by
      rw [Packed.endSize_append, Packed.endSize_cons, Packed.endSize_nil]
    rw [List.concat_eq_append, totalSize_snoc, hend, tailOf_concat, back?,
      if_pos (Nat.le_add_left _ _), Nat.add_sub_cancel]

/-- **Up to the end marker** nothing is left behind the gap. -/
theorem cutToEnd?_writes (hp : p.entries.toList = front ++ gone) :
    ∃ d, cutToEnd? p.toBytes (headerSize + totalSize front)
        (headerSize + totalSize front + totalSize gone) (endSize 0 front) = some d ∧
      Writes d (p.withEntries front.toArray) := by
  have hold : gone.flatMap Entry.encode = gone.flatMap Entry.encode ++ [] :=
    (List.append_nil _).symm
  have hsplice : splice? (spell p.size p.tailPos p.lengthField (front ++ (gone ++ [])))
      (headerSize + totalSize front) (gone.flatMap Entry.encode).length [] =
        some (spell p.size p.tailPos p.lengthField (front ++ ([] ++ []))) :=
    splice?_spell hold rfl
  rw [Packed.length_flatMap_encode, List.append_nil, List.append_nil, List.append_nil, ← hp,
    ← toBytes_eq_spell] at hsplice
  refine ⟨_, ?_, .of_spell rfl rfl fun _ => rfl⟩
  simp only [cutToEnd?, Nat.add_sub_cancel_left, hsplice, back?_endSize, Option.bind_eq_bind,
    Option.bind_some, setField?_tail, setTotal?_spell]
  rfl

/-- **Up to an entry** that one moves up, with its link set. -/
theorem cutBetween?_writes (h : p.WellFormed) (n : Nat)
    (hp : p.entries.toList = front ++ gone ++ x :: back) :
    ∃ d, cutBetween? p.toBytes (headerSize + totalSize front)
        (headerSize + totalSize front + totalSize gone) n p.tailPos = some d ∧
      Writes d (p.withEntries (front ++ Packed.repair n (x :: back)).toArray) := by
  have hgap : headerSize + totalSize front + totalSize gone =
      headerSize + totalSize (front ++ gone) := by
    rw [Packed.totalSize_append, Nat.add_assoc]
  have hlink : link? p.toBytes (headerSize + totalSize front + totalSize gone) = some x.link := by
    rw [hgap]
    exact link?_of_drop (drop_toBytes hp)
  have hroom : ∀ y ∈ x :: back, y.size + 4 < sizeLimit := fun y hy =>
    h.size_add_four_lt (hp ▸ List.mem_append_right (front ++ gone) hy)
  -- the bytes of the entries that go, and of the link that is set
  have hold : (gone ++ [x]).flatMap Entry.encode =
      (gone.flatMap Entry.encode ++ x.link.encode) ++ x.body.encode := by
    simp [Entry.encode]
  have hnew : [x.relink n].flatMap Entry.encode = (x.link.record n).encode ++ x.body.encode := by
    simp [Entry.encode, Entry.relink]
  have hsplice : splice? (spell p.size p.tailPos p.lengthField (front ++ (gone ++ [x] ++ back)))
      (headerSize + totalSize front) (gone.flatMap Entry.encode ++ x.link.encode).length _ = _ :=
    splice?_spell hold hnew
  rw [List.length_append, Packed.length_flatMap_encode, Link.length_encode, encode_record,
    ← newWidth_eq, ← List.append_cons, ← List.append_assoc, ← hp, ← toBytes_eq_spell,
    List.singleton_append] at hsplice
  have hposition : p.tailPos = headerSize + totalSize front + totalSize gone ↔ back = [] := by
    rw [hgap, tailPos_eq, hp, tailOf_eq_iff]
  have hmoved : movedTail? p.tailPos (headerSize + totalSize front)
      (headerSize + totalSize front + totalSize gone) (newWidth x.link n - x.link.width) =
        some (tailOf (front ++ x.relink n :: back)) := by
    have hwider : x.link.width ≤ newWidth x.link n := Nat.le_max_left _ _
    unfold movedTail?
    split
    · next hlast => rw [hposition.mp hlast, tailOf_concat]
    · next hlast =>
      have hback : back ≠ [] := fun hback => hlast (hposition.mpr hback)
      have hmoved := tailOf_relink (front ++ gone) front x n hback
      have htail : tailOf (front ++ gone ++ x :: back) = _ := tailOf_cons hback
      rw [← hp, ← tailPos_eq, Packed.totalSize_append] at hmoved htail
      rw [Nat.add_sub_cancel_left, back?, if_pos (by omega), Option.map_some]
      exact congrArg some (by omega)
  have hwrites : Writes (spell (envelopeSize + totalSize (front ++ x.relink n :: back))
      (tailOf (front ++ x.relink n :: back)) p.lengthField (front ++ x.relink n :: back))
      (p.withEntries (front ++ x.relink n :: back).toArray) := .of_spell rfl rfl fun _ => rfl
  obtain ⟨d, hd, hwritten⟩ := hwrites.cascadeIf? rfl hroom
    (r := p.withEntries (front ++ Packed.repair n (x :: back)).toArray) rfl rfl
  refine ⟨d, ?_, hwritten⟩
  simp only [cutBetween?, hlink, Nat.add_sub_cancel_left, Option.bind_eq_bind, Option.bind_some,
    hsplice, hmoved, setField?_tail, setTotal?_spell, hd]

/-- **What stands between two places is cut out**, and what stands behind is repaired. -/
theorem cut?_writes (h : p.WellFormed) {m : Nat} (hm : 0 < m) (hle : k + m ≤ p.entries.size) :
    ∃ d, cut? p.toBytes (p.posOfIdx k) (p.posOfIdx (k + m)) = some d ∧
      Writes d (p.withEntries (p.entries.toList.take k ++
        Packed.repair (endSize 0 (p.entries.toList.take k))
          (p.entries.toList.drop (k + m))).toArray) := by
  have hk : k < p.entries.size := by omega
  have hlen : p.entries[k].link.len = endSize 0 (p.entries.toList.take k) :=
    h.linked.len_link (by simpa using hk)
  have htail : field? p.toBytes 4 4 = some p.tailPos := by
    rw [toBytes_eq_spell]
    exact field?_tail (Packed.tailPos_lt h.size_lt)
  -- the list, cut at both places
  have hspan : p.entries.toList.take (k + m) =
      p.entries.toList.take k ++ (p.entries.toList.drop k).take m := List.take_add
  have hcut : p.entries.toList = p.entries.toList.take k ++ (p.entries.toList.drop k).take m ++
      p.entries.toList.drop (k + m) := by rw [← hspan, List.take_append_drop]
  have hposition : p.posOfIdx (k + m) = headerSize + totalSize (p.entries.toList.take k) +
      totalSize ((p.entries.toList.drop k).take m) := by
    rw [Packed.posOfIdx_eq, hspan, Packed.totalSize_append, Nat.add_assoc]
  have hend := atEnd?_posOfIdx hle
  simp only [cut?, link?_posOfIdx hk, htail, Option.bind_eq_bind, Option.bind_some, hend, hlen]
  rw [hposition, Packed.posOfIdx_eq]
  rcases Nat.lt_or_eq_of_le hle with hlt | heq
  · rw [decide_eq_false (Nat.ne_of_lt hlt), if_neg Bool.false_ne_true]
    rw [List.drop_eq_getElem_cons (i := k + m) (by simpa using hlt)] at hcut ⊢
    exact cutBetween?_writes h _ hcut
  · rw [decide_eq_true heq, if_pos rfl]
    rw [List.drop_of_length_le (i := k + m) (by simp [heq])] at hcut ⊢
    rw [List.append_nil] at hcut
    rw [Packed.repair_nil, List.append_nil]
    exact cutToEnd?_writes hcut

/-- **A removal writes the list without the entries**, and tells how many they were. -/
theorem eraseAt?_writes (h : p.WellFormed) (hk : k ≤ p.entries.size) (num : Nat) :
    ∃ d, eraseAt? p.toBytes (p.posOfIdx k) num = some (d, p.available k num) ∧
      Writes d (p.eraseIdx k num) := by
  simp only [eraseAt?, pass?_posOfIdx h num hk, Option.bind_eq_bind, Option.bind_some]
  rcases Nat.eq_zero_or_pos (p.available k num) with hnone | hsome
  · rw [if_pos hnone, Packed.eraseIdx_of_available_eq_zero hnone, hnone]
    exact ⟨_, rfl, .toBytes p⟩
  · have hle : k + p.available k num ≤ p.entries.size := by
      rw [Packed.available]
      omega
    have hgone : p.entries.toList.drop (k + p.available k num) =
        p.entries.toList.drop (k + num) := by
      simpa [Packed.available] using Packed.drop_add_min p.entries.toList k num
    have hleft := Packed.toList_eraseIdx_of_linked h.linked k num
    obtain ⟨d, hd, hwrites⟩ := cut?_writes h hsome hle
    rw [hgone, ← hleft] at hwrites
    obtain ⟨d', hd', hwrites'⟩ := hwrites.addCount? (r := p.eraseIdx k num)
      (m := -(p.available k num : Int)) rfl (by
        rw [Packed.lengthField_eraseIdx hsome, countDown_eq]
        rfl)
    refine ⟨d', ?_, hwrites'⟩
    rw [if_neg (Nat.ne_of_gt hsome), hd, Option.bind_some, hd']
    rfl

/-- Where the entries end is seen whatever the header says. -/
theorem Writes.atEnd?_posOfIdx (h : Writes d p) (hk : k ≤ p.entries.size) :
    atEnd? d (p.posOfIdx k) = some (decide (k = p.entries.size)) := by
  have hsame : d[p.posOfIdx k]? = p.toBytes[p.posOfIdx k]? := by
    have hbehind := congrArg (·[totalSize (p.entries.toList.take k)]?) h.drop_eq
    simp only [List.getElem?_drop] at hbehind
    rwa [← Packed.posOfIdx_eq] at hbehind
  rw [atEnd?, hsame, ← atEnd?, InPlace.atEnd?_posOfIdx hk]

/-- **The removal of one entry** tells whether another one has moved up. -/
theorem erase?_writes (h : p.WellFormed) (hk : k < p.entries.size) :
    ∃ d, erase? p.toBytes (p.posOfIdx k) =
        some (d, if k + 1 < p.entries.size then some (p.posOfIdx k) else none) ∧
      Writes d (p.eraseIdx k 1) := by
  obtain ⟨d, hd, hwrites⟩ := eraseAt?_writes h (Nat.le_of_lt hk) 1
  have hsize : (p.eraseIdx k 1).entries.size = p.entries.size - 1 := by
    rw [Packed.size_entries_eraseIdx, Packed.available]
    omega
  have hposition : (p.eraseIdx k 1).posOfIdx k = p.posOfIdx k := by
    have hlen : (p.entries.toList.take k).length = k := by simp [Nat.min_eq_left (Nat.le_of_lt hk)]
    rw [Packed.posOfIdx_eq, Packed.posOfIdx_eq, Packed.toList_eraseIdx_of_linked h.linked,
      List.take_left' hlen]
  have hend := hwrites.atEnd?_posOfIdx (k := k) (by omega)
  rw [hposition, hsize] at hend
  refine ⟨d, ?_, hwrites⟩
  simp only [erase?, hd, Option.bind_eq_bind, Option.bind_some, hend]
  by_cases hlast : k + 1 < p.entries.size
  · rw [if_pos hlast, decide_eq_false (by omega)]
    rfl
  · rw [if_neg hlast, decide_eq_true (by omega)]
    rfl

/-- **The removal by index** finds its first entry, or none. -/
theorem eraseRange?_writes (h : p.WellFormed) (i : Int) (num : Nat) :
    ∃ d, eraseRange? p.toBytes i num = some (d, (p.eraseRange i num).2) ∧
      Writes d (p.eraseRange i num).1 := by
  have hseek := Packed.seek?_eq h.linked i
  simp only [eraseRange?, seek?_toBytes h, hseek, Option.bind_eq_bind, Option.bind_some,
    Packed.eraseRange]
  cases hi : Packed.idxOf? p.entries.size i with
  | none => exact ⟨_, rfl, .toBytes p⟩
  | some k => exact eraseAt?_writes h (Nat.le_of_lt (Packed.lt_of_idxOf? hi)) num

/-- **Removal, byte for byte**, by index and at a place. An index that names no entry leaves every
byte as it was. Otherwise those of the `num` entries go that there are, their number is told, and
what is left is the blob of the list without them. -/
theorem eraseRange?_erases (hd : Packed.ofBytes d = .ok p) (i : Int) (num : Nat) :
    (match Packed.idxOf? p.entries.size i with
      | none => eraseRange? d i num = some (d, 0)
      | some k => ∃ d', eraseRange? d i num = some (d', min num (p.entries.size - k)) ∧
          Writes d' (p.eraseRange i num).1 ∧
          p.Erases k (min num (p.entries.size - k)) (p.eraseRange i num).1) ∧
      ∀ k < p.entries.size, ∃ d',
        erase? d (p.posOfIdx k) =
          some (d', if k + 1 < p.entries.size then some (p.posOfIdx k) else none) ∧
        Writes d' (p.erase (p.cursor k)).1 ∧ p.Erases k 1 (p.erase (p.cursor k)).1 := by
  obtain ⟨rfl, hwell⟩ := Packed.ofBytes_eq_ok_iff.mp hd
  obtain ⟨hrange, hplace⟩ := Packed.eraseRange_erases hwell i num
  constructor
  · cases hi : Packed.idxOf? p.entries.size i with
    | none =>
      simp only [eraseRange?, seek?_toBytes hwell, Packed.seek?_eq hwell.linked, hi,
        Option.bind_eq_bind, Option.bind_some, Option.map_none]
      rfl
    | some k =>
      rw [hi] at hrange
      obtain ⟨hgone, herases⟩ := hrange
      obtain ⟨d, herase, hwrites⟩ := eraseRange?_writes hwell i num
      rw [hgone] at herase
      exact ⟨d, herase, hwrites, herases⟩
  · intro k hk
    obtain ⟨d, herase, hwrites⟩ := erase?_writes hwell hk
    refine ⟨d, herase, ?_, (hplace k hk).1⟩
    rw [Packed.erase_cursor p hk]
    exact hwrites

/-- With a short string gone a long one stands in front of three strings of 250 bytes: seven bytes
are removed and **twelve** are added. -/
theorem eraseRange?_erases_dammed :
    ∃ d, eraseRange? Packed.dammed.toBytes (-4) 1 = some (d, 1) ∧
      Writes d (Packed.dammed.eraseRange (-4) 1).1 ∧
      Packed.dammed.Erases 1 1 (Packed.dammed.eraseRange (-4) 1).1 ∧
      d.length = Packed.dammed.toBytes.length + 5 := by
  have hd := Packed.ofBytes_toBytes Packed.wellFormed_dammed
  have h := (eraseRange?_erases hd (-4) 1).1
  rw [show Packed.dammed.entries.size = 5 by decide +kernel] at h
  obtain ⟨d, herase, hwrites, herases⟩ : ∃ d, _ ∧ _ ∧ Packed.dammed.Erases 1 1 _ := h
  refine ⟨d, herase, hwrites, herases, ?_⟩
  rw [hwrites.length_eq, Packed.length_toBytes]
  decide +kernel

/-! ### Joining -/

theorem length?_toBytes (h : p.WellFormed) : length? p.toBytes = some p.length := by
  have hbound : p.lengthField < Packed.saturated ↔ p.lengthField.toNat < 65535 :=
    UInt16.lt_iff_toNat_lt
  have hfield : field? p.toBytes 8 2 = some p.lengthField.toNat := by
    rw [toBytes_eq_spell, field?_count]
  simp only [length?, hfield, Option.bind_eq_bind, Option.bind_some, positions?_toBytes h,
    Packed.length, hbound, Packed.positions_eq, List.length_map, List.length_range]
  split <;> rfl

/-- Behind the header of one list the entries of both, none of them changed. -/
theorem concat?_toBytes (hp : p.WellFormed) (hq : q.WellFormed) (hne : q.entries.toList ≠ []) :
    concat? p.toBytes q.toBytes q.tailPos =
      some (spell p.size (tailOf (p.entries.toList ++ q.entries.toList))
        (UInt16.ofNat (min (p.length + q.length) 65535))
        (p.entries.toList ++ q.entries.toList)) := by
  have hjoint : p.toBytes.length - 1 = headerSize + totalSize p.entries.toList := by
    rw [Packed.length_toBytes, p.size_eq, envelopeSize, headerSize]
    omega
  have hbytes : p.toBytes.take (headerSize + totalSize p.entries.toList) ++ q.toBytes.drop 10 =
      spell p.size p.tailPos p.lengthField (p.entries.toList ++ q.entries.toList) := by
    have hbehind : q.toBytes.drop 10 = q.entries.toList.flatMap Entry.encode ++ [endMarker] := by
      rw [toBytes_eq_spell]
      exact drop_header
    have hbefore : p.toBytes = (Bytes.littleEndian 4 p.size ++ (Bytes.littleEndian 4 p.tailPos ++
        (Bytes.littleEndian 2 p.lengthField.toNat ++ p.entries.toList.flatMap Entry.encode))) ++
          [endMarker] := by
      rw [toBytes_eq_spell]
      simp only [spell, List.append_assoc]
    rw [← hjoint, ← List.dropLast_eq_take, hbehind, hbefore, List.dropLast_concat]
    simp only [spell, List.flatMap_append, List.append_assoc]
  have htail := tailPos_eq q
  rw [tailOf] at htail
  have hpast : back? q.tailPos 10 = some (totalSize q.entries.toList.dropLast) := by
    rw [htail, back?, headerSize, if_pos (Nat.le_add_right _ _), Nat.add_sub_cancel_left]
  have hmoved : headerSize + totalSize p.entries.toList + totalSize q.entries.toList.dropLast =
      tailOf (p.entries.toList ++ q.entries.toList) := by
    rw [tailOf, List.dropLast_append_of_ne_nil hne, Packed.totalSize_append, Nat.add_assoc]
  simp only [concat?, length?_toBytes hp, length?_toBytes hq, hpast, Option.bind_eq_bind,
    Option.bind_some, hjoint, hbytes, hmoved, setField?_tail]
  exact setField?_count (by omega)

/-- The position of the last entry of a join, as far as the header can tell it. -/
theorem moveTail?_spell (total n : Nat) (field : UInt16) (front : List Entry)
    (hq : q.entries.toList = x :: back) :
    ∃ tail, moveTail?
        (spell total (tailOf (front ++ x :: back)) field (front ++ x.relink n :: back))
        q.tailPos x.link (newWidth x.link n) =
        some (spell total tail field (front ++ x.relink n :: back)) ∧
      (envelopeSize + totalSize (front ++ x.relink n :: back) < sizeLimit →
        tail = tailOf (front ++ x.relink n :: back)) := by
  have hposition : q.tailPos = 10 ↔ back = [] := by
    have hfirst : tailOf ([] ++ x :: back) = headerSize + totalSize [] ↔ back = [] := tailOf_eq_iff
    rw [tailPos_eq, hq]
    exact hfirst
  have hwider : x.link.width ≤ newWidth x.link n := Nat.le_max_left _ _
  have hgrown := size_relink x n
  unfold moveTail?
  by_cases hback : back = []
  · rw [if_neg fun hmoves => hmoves.2 (hposition.mpr hback), hback]
    refine ⟨_, rfl, fun _ => ?_⟩
    rw [tailOf_concat, tailOf_concat]
  · have hmoved := tailOf_relink front front x n hback
    by_cases hwidth : newWidth x.link n = x.link.width
    · rw [if_neg fun hmoves => hmoves.1 hwidth]
      exact ⟨_, rfl, fun _ => by omega⟩
    · rw [if_pos ⟨hwidth, fun hlast => hback (hposition.mp hlast)⟩]
      simp only [field?_low, Option.bind_eq_bind, Option.bind_some, setField?_tail]
      refine ⟨_, rfl, fun hsize => ?_⟩
      -- within the limit the position is one of those that the header can tell
      have hlast := List.dropLast_concat_getLast hback
      have hrest := congrArg totalSize hlast
      have htail : tailOf (front ++ x :: back) = _ := tailOf_cons hback
      rw [Packed.totalSize_append] at hrest
      rw [Packed.totalSize_append, Packed.totalSize_cons, envelopeSize] at hsize
      rw [headerSize] at htail
      rw [Nat.mod_eq_of_lt (by omega)]
      omega

theorem joinEntries?_writes (hp : p.WellFormed) (hq : q.WellFormed) (hpe : p.isEmpty = false)
    (hqe : q.isEmpty = false) :
    ∃ d, joinEntries? p.toBytes q.toBytes = some d ∧ Writes d (p ++ q) := by
  have hpos : 0 < p.entries.size := Nat.pos_of_ne_zero fun hzero => by
    rw [Packed.isEmpty, Array.isEmpty_iff_size_eq_zero.mpr hzero] at hpe
    contradiction
  have hne : q.entries.toList ≠ [] := fun hnil => by
    rw [Packed.isEmpty, Array.toList_eq_nil_iff.mp hnil] at hqe
    contradiction
  obtain ⟨x, back, hsecond⟩ := List.exists_cons_of_ne_nil hne
  obtain ⟨front, hfront⟩ : ∃ front, p.entries.toList = front := ⟨_, rfl⟩
  obtain ⟨n, hn⟩ : ∃ n, Packed.lastSize p.entries = n := ⟨_, rfl⟩
  have htail : ∀ p : Packed, p.WellFormed → field? p.toBytes 4 4 = some p.tailPos := fun p hp => by
    rw [toBytes_eq_spell]
    exact field?_tail (Packed.tailPos_lt hp.size_lt)
  have hlast : entrySize? p.toBytes p.tailPos = some n := by
    rw [← Packed.posOfIdx_tail hpos, entrySize?_posOfIdx hp (by omega), ← hn, Packed.lastSize,
      Array.back?_eq_getElem?, Array.getElem?_eq_getElem (by omega)]
  have hjoint : p.toBytes.length - 1 = headerSize + totalSize front := by
    rw [Packed.length_toBytes, p.size_eq, hfront, envelopeSize, headerSize]
    omega
  have hconcat := concat?_toBytes hp hq hne
  rw [hfront, hsecond, ← Packed.lengthField_append hpe hqe] at hconcat
  have hlink : link? (spell p.size (tailOf (front ++ x :: back)) (p ++ q).lengthField
      (front ++ x :: back)) (headerSize + totalSize front) = some x.link :=
    link?_of_drop drop_spell_cons
  have hsplice : splice? (spell p.size (tailOf (front ++ x :: back)) (p ++ q).lengthField
      (front ++ x :: back)) (headerSize + totalSize front) x.link.width (x.link.record n).encode =
        some (spell p.size (tailOf (front ++ x :: back)) (p ++ q).lengthField
          (front ++ x.relink n :: back)) := splice?_link
  rw [encode_record, ← newWidth_eq] at hsplice
  obtain ⟨tail, hmove, hmoved⟩ := moveTail?_spell p.size n (p ++ q).lengthField front hsecond
  have hwrites : Writes (spell (envelopeSize + totalSize (front ++ x.relink n :: back)) tail
      (p ++ q).lengthField (front ++ x.relink n :: back))
      ((p ++ q).withEntries (front ++ x.relink n :: back).toArray) :=
    .of_spell rfl rfl fun hsize => hmoved (by rwa [size_withEntries] at hsize)
  have hroom : ∀ y ∈ x :: back, y.size + 4 < sizeLimit := fun y hy =>
    hq.size_add_four_lt (hsecond ▸ hy)
  have hentries : (p ++ q).entries.toList = front ++ Packed.repair n (x :: back) := by
    rw [Packed.toList_entries_append p q hpe hqe, hfront, hn, hsecond]
  obtain ⟨d, hd, hwritten⟩ := hwrites.cascadeIf? rfl hroom hentries rfl
  refine ⟨d, ?_, hwritten⟩
  simp only [joinEntries?, htail p hp, htail q hq, hlast, hconcat, hjoint, hlink, hsplice, hmove,
    setTotal?_spell, hd, Option.bind_eq_bind, Option.bind_some]

/-- **A join writes the one list behind the other.** -/
theorem join?_writes (hp : p.WellFormed) (hq : q.WellFormed) :
    ∃ d, join? p.toBytes q.toBytes = some d ∧ Writes d (p ++ q) := by
  have hfirst : ∀ p : Packed, atEnd? p.toBytes 10 = some p.isEmpty := by
    intro p
    have hend := atEnd?_posOfIdx (p := p) (Nat.zero_le _)
    rw [Packed.posOfIdx_zero] at hend
    change atEnd? p.toBytes 10 = _ at hend
    rw [hend, Packed.isEmpty, Array.isEmpty]
    simp only [eq_comm]
  simp only [join?, hfirst, Option.bind_eq_bind, Option.bind_some]
  rcases hpe : p.isEmpty with _ | _
  · rcases hqe : q.isEmpty with _ | _
    · exact joinEntries?_writes hp hq hpe hqe
    · rw [Packed.append_of_isEmpty_right hpe hqe]
      exact ⟨_, rfl, .toBytes p⟩
  · rw [Packed.append_of_isEmpty_left hpe]
    exact ⟨_, rfl, .toBytes q⟩

/-- **Joining, byte for byte.** Of two accepted blobs comes the blob of the concatenation, as far as
the header can tell its size. -/
theorem join?_joins {e : Bytes} (hd : Packed.ofBytes d = .ok p) (he : Packed.ofBytes e = .ok q) :
    (∃ r, join? d e = some r ∧ Writes r (p ++ q)) ∧ p.Joins q (p ++ q) ∧
      ∀ r : Packed, (p ++ q ++ r).bodies = (p ++ (q ++ r)).bodies := by
  obtain ⟨rfl, hp⟩ := Packed.ofBytes_eq_ok_iff.mp hd
  obtain ⟨rfl, hq⟩ := Packed.ofBytes_eq_ok_iff.mp he
  exact ⟨join?_writes hp hq, Packed.append_joins hp hq⟩

/-- A long string joined to three strings of 250 bytes: the widening runs to the end. -/
theorem join?_joins_brimful :
    let p := Packed.empty.push (List.replicate 252 100)
    (∃ r, join? p.toBytes Packed.brimful.toBytes = some r ∧ Writes r (p ++ Packed.brimful) ∧
      r.length + 11 = p.toBytes.length + Packed.brimful.toBytes.length + 12) ∧
      p.Joins Packed.brimful (p ++ Packed.brimful) := by
  intro p
  have hp : p.WellFormed := Packed.wellFormed_empty.push (by decide +kernel)
  obtain ⟨⟨r, hjoin, hwrites⟩, hjoins, -⟩ :=
    join?_joins (Packed.ofBytes_toBytes hp) (Packed.ofBytes_toBytes Packed.wellFormed_brimful)
  refine ⟨⟨r, hjoin, hwrites, ?_⟩, hjoins⟩
  rw [hwrites.length_eq, Packed.length_toBytes, Packed.length_toBytes]
  decide +kernel

end InPlace

end UnrolledList
