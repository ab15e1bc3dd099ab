import UnrolledList.Lzf.Compress
import UnrolledList.Lzf.Expand

/-!
# Compressed strings expand to what they came from

The compressor and the expander share the instructions and nothing else. What ties them
together is said about the writer (`UnrolledList.Lzf.Writer.Wrote`): **its finished
instructions put down a beginning of the string, and the open run is what comes after
it**. A literal byte moves on the end of the open run, a copy closes the run and moves on
the beginning, and closing the last run makes the beginning all of the string
(`UnrolledList.Lzf.inflate_compress`).

The hash table needs no invariant, because whatever position it yields is compared with
the bytes before it is used.
-/

namespace UnrolledList

namespace Lzf

/-! ### Instructions -/

/-- The instructions that have bytes. -/
def Instruction.Valid : Instruction → Prop
  | run n => 1 ≤ n ∧ n ≤ maxRun
  | copy distance length => 1 ≤ distance ∧ distance ≤ maxDistance ∧ 3 ≤ length ∧ length ≤ maxCopy

/-- **An instruction is read back**, and what follows it is left alone. -/
theorem Instruction.read?_encode {i : Instruction} (h : i.Valid) (rest : Bytes) :
    read? (i.encode ++ rest) = some (i, rest) := by
  cases i with
  | run n =>
    simp only [Valid, maxRun] at h
    have hn : (UInt8.ofNat (n - 1)).toNat = n - 1 := by
      rw [UInt8.toNat_ofNat']
      omega
    have hlt : UInt8.ofNat (n - 1) < 32 := UInt8.lt_iff_toNat_lt.mpr (by rw [hn]; simp; omega)
    simp only [encode, List.cons_append, List.nil_append, read?, hlt, if_true, hn]
    congr 3
    omega
  | copy distance length =>
    simp only [Valid, maxDistance, maxCopy] at h
    have hlow : (UInt8.ofNat (distance - 1)).toNat = (distance - 1) % 256 := UInt8.toNat_ofNat'
    simp only [encode]
    split
    · have hb : (UInt8.ofNat ((distance - 1) / 256 + (length - 2) * 32)).toNat =
          (distance - 1) / 256 + (length - 2) * 32 := by
        rw [UInt8.toNat_ofNat']
        omega
      have hnot : ¬ UInt8.ofNat ((distance - 1) / 256 + (length - 2) * 32) < 32 := by
        rw [UInt8.lt_iff_toNat_lt, hb]
        simp
        omega
      have hlt : UInt8.ofNat ((distance - 1) / 256 + (length - 2) * 32) < 224 := by
        rw [UInt8.lt_iff_toNat_lt, hb]
        simp
        omega
      simp only [List.cons_append, List.nil_append, read?, hnot, hlt, if_true, if_false, hb, hlow]
      congr 3 <;> omega
    · have hb : (UInt8.ofNat ((distance - 1) / 256 + 224)).toNat = (distance - 1) / 256 + 224 := by
        rw [UInt8.toNat_ofNat']
        omega
      have hmore : (UInt8.ofNat (length - 9)).toNat = length - 9 := by
        rw [UInt8.toNat_ofNat']
        omega
      have hnot : ¬ UInt8.ofNat ((distance - 1) / 256 + 224) < 32 := by
        rw [UInt8.lt_iff_toNat_lt, hb]
        simp
      have hge : ¬ UInt8.ofNat ((distance - 1) / 256 + 224) < 224 := by
        rw [UInt8.lt_iff_toNat_lt, hb]
        simp
      simp only [List.cons_append, List.nil_append, read?, hnot, hge, if_false, hb, hlow, hmore]
      congr 3 <;> omega

/-! ### Running instructions -/

/-- Runs the instructions of a string that may be empty. -/
def runAll (limit : Nat) (input : Bytes) (out : Array UInt8) : Except ExpandError (Array UInt8) :=
  if input.isEmpty then .ok out else run limit input out

@[simp] theorem runAll_nil (limit : Nat) (out : Array UInt8) : runAll limit [] out = .ok out := rfl

/-- Running a string carries out its first instruction and runs the rest. -/
theorem runAll_encode (limit : Nat) {i : Instruction} (h : i.Valid) (rest : Bytes)
    (out : Array UInt8) :
    runAll limit (i.encode ++ rest) out =
      match execute limit i rest out with
      | .error e => .error e
      | .ok (rest, out) => runAll limit rest out := by
  have hread := Instruction.read?_encode h rest
  have hne : (i.encode ++ rest).isEmpty = false := by
    cases i with
    | run n => rfl
    | copy distance length =>
      simp only [Instruction.encode]
      split <;> rfl
  rw [runAll, hne, if_neg (by decide), run]
  split
  · next hnone =>
    rw [hread] at hnone
    contradiction
  · next i' rest' hsome =>
    rw [hread] at hsome
    obtain ⟨rfl, rfl⟩ : i = i' ∧ rest = rest' := by simpa using hsome
    split <;> next hexec => simp only [hexec]; try rfl

/-- A run puts down the bytes that follow it. -/
theorem runAll_run {limit : Nat} {bytes : Bytes} (out : Array UInt8) (hpos : bytes ≠ [])
    (hrun : bytes.length ≤ maxRun) (hlimit : out.size + bytes.length ≤ limit) (rest : Bytes) :
    runAll limit ((Instruction.run bytes.length).encode ++ (bytes ++ rest)) out =
      runAll limit rest (out ++ bytes) := by
  have hvalid : (Instruction.run bytes.length).Valid :=
    ⟨List.length_pos_iff.mpr hpos, hrun⟩
  rw [runAll_encode limit hvalid, execute, if_neg (Nat.not_lt.mpr hlimit), Bytes.split?_append]

/-- A copy repeats what stands so far back. -/
theorem runAll_copy {limit distance length : Nat} (out : Array UInt8)
    (hvalid : (Instruction.copy distance length).Valid) (hdistance : distance ≤ out.size)
    (hlimit : out.size + length ≤ limit) (rest : Bytes) :
    runAll limit ((Instruction.copy distance length).encode ++ rest) out =
      runAll limit rest (repeatBack distance length out) := by
  rw [runAll_encode limit hvalid, execute, if_neg (Nat.not_lt.mpr hlimit),
    if_neg (Nat.not_lt.mpr hdistance)]

/-! ### The writer -/

/-- What is written so far of the string `s`: the finished instructions put down a
beginning of it, and the rest of it is in the open run, which is not full. -/
structure Writer.Wrote (w : Writer) (limit : Nat) (s : Bytes) : Prop where
  /-- A full run does not stay open. -/
  pending_lt : w.pending.size < maxRun
  /-- The finished instructions and the open run make up the string. -/
  runs : ∃ front : Bytes, s = front ++ w.pending.toList ∧
    ∀ rest, runAll limit (w.out.toList ++ rest) #[] = runAll limit rest front.toArray

namespace Writer

variable {w : Writer} {limit : Nat} {s : Bytes}

/-- A new writer has written nothing. -/
theorem wrote_empty (limit : Nat) : Wrote {} limit [] :=
  ⟨by decide, [], rfl, fun _ => rfl⟩

/-- With the open run closed, all of it is put down. -/
theorem runAll_close {front : Bytes} (hpending : w.pending.size ≤ maxRun)
    (hlimit : (front ++ w.pending.toList).length ≤ limit)
    (hruns : ∀ rest, runAll limit (w.out.toList ++ rest) #[] = runAll limit rest front.toArray)
    (rest : Bytes) :
    runAll limit (w.close.out.toList ++ rest) #[] =
      runAll limit rest (front ++ w.pending.toList).toArray := by
  unfold close
  split
  · next hempty =>
    have hnil : w.pending.toList = [] := by simpa using hempty
    rw [hnil, List.append_nil, hruns]
  · next hsome =>
    have hne : w.pending.toList ≠ [] := by simpa using hsome
    have hlen : w.pending.toList.length = w.pending.size := rfl
    rw [List.length_append] at hlimit
    have hrun := runAll_run front.toArray hne hpending (by simpa using hlimit) rest
    rw [hlen] at hrun
    have hout : (w.out ++ (Instruction.run w.pending.size).encode ++ w.pending).toList ++ rest =
        w.out.toList ++
          ((Instruction.run w.pending.size).encode ++ (w.pending.toList ++ rest)) := by
      simp
    have hfront : front.toArray ++ w.pending.toList = (front ++ w.pending.toList).toArray := by
      simp
    rw [hout, hruns, hrun, hfront]

theorem pending_close (w : Writer) : w.close.pending = #[] := by
  unfold close
  split
  · next hempty => simpa using hempty
  · rfl

/-- A closed writer has put down all that was written. -/
theorem Wrote.close (h : w.Wrote limit s) (hlimit : s.length ≤ limit) :
    w.close.Wrote limit s := by
  obtain ⟨hpending, front, rfl, hruns⟩ := h
  refine ⟨?_, _, ?_, runAll_close (Nat.le_of_lt hpending) hlimit hruns⟩
  · rw [pending_close]
    decide
  · rw [pending_close, List.append_nil]

/-- A literal byte extends what is written. -/
theorem Wrote.literal (h : w.Wrote limit s) (b : UInt8) (hlimit : s.length < limit) :
    (w.literal b).Wrote limit (s ++ [b]) := by
  obtain ⟨hpending, front, rfl, hruns⟩ := h
  have hlen : (front ++ (w.pending.push b).toList).length ≤ limit := by
    simp only [List.length_append, Array.toList_push, List.length_singleton] at hlimit ⊢
    omega
  rw [Writer.literal]
  split
  · next hfull =>
    refine ⟨?_, _, ?_, runAll_close (Nat.le_of_eq hfull) hlen hruns⟩
    · rw [pending_close]
      decide
    · simp [pending_close]
  · next hopen =>
    refine ⟨?_, front, by simp, hruns⟩
    simp only [Array.size_push] at hopen ⊢
    omega

theorem Wrote.literals (h : w.Wrote limit s) (bytes : Bytes)
    (hlimit : (s ++ bytes).length ≤ limit) :
    (bytes.foldl Writer.literal w).Wrote limit (s ++ bytes) := by
  induction bytes generalizing w s with
  | nil => simpa using h
  | cons b bytes ih =>
    simp only [List.length_append, List.length_cons] at hlimit
    rw [List.foldl_cons, List.append_cons]
    exact ih (h.literal b (by omega)) (by simp; omega)

/-- A copy extends what is written by what it repeats. -/
theorem Wrote.copy (h : w.Wrote limit s) {distance length : Nat}
    (hvalid : (Instruction.copy distance length).Valid) (hdistance : distance ≤ s.length)
    (hlimit : s.length + length ≤ limit) :
    (w.copy distance length).Wrote limit (repeatBack distance length s.toArray).toList := by
  obtain ⟨hpending, front, hs, hruns⟩ := h.close (by omega)
  rw [pending_close, List.append_nil] at hs
  subst hs
  refine ⟨hpending, (repeatBack distance length s.toArray).toList, ?_, fun rest => ?_⟩
  · simp [Writer.copy, pending_close]
  · have hcopy := runAll_copy s.toArray hvalid hdistance hlimit rest
    have hout : (w.copy distance length).out.toList ++ rest =
        w.close.out.toList ++ ((Instruction.copy distance length).encode ++ rest) := by
      simp [Writer.copy]
    rw [hout, hruns, hcopy]

/-- When the last run is closed, the string is put down. -/
theorem Wrote.finish (h : w.Wrote limit s) (hlimit : s.length ≤ limit) :
    runAll limit w.finish #[] = .ok s.toArray := by
  obtain ⟨-, front, hs, hruns⟩ := h.close hlimit
  rw [pending_close, List.append_nil] at hs
  subst hs
  have hall := hruns []
  rwa [List.append_nil, runAll_nil] at hall

end Writer

/-! ### The compressor -/

theorem matchLength_le (d : Array UInt8) (n ref cur : Nat) : matchLength d n ref cur ≤ n := by
  induction n generalizing ref cur with
  | zero => exact Nat.le_refl 0
  | succ n ih =>
    rw [matchLength]
    split
    · exact Nat.succ_le_succ (ih _ _)
    · exact Nat.zero_le _

/-- **Where two places agree, one is a copy of the other**, also if they overlap. -/
theorem repeatBack_of_le_matchLength {d : Array UInt8} {distance : Nat} (hpos : 0 < distance)
    {n bound ref : Nat} (hn : n ≤ matchLength d bound ref (ref + distance))
    (hsize : ref + distance + n ≤ d.size) :
    repeatBack distance n (d.toList.take (ref + distance)).toArray =
      (d.toList.take (ref + distance + n)).toArray := by
  induction n generalizing ref bound with
  | zero => rfl
  | succ n ih =>
    cases bound with
    | zero =>
      rw [matchLength] at hn
      omega
    | succ bound =>
      rw [matchLength] at hn
      split at hn
      · next hbyte =>
        have hlen : (d.toList.take (ref + distance)).length = ref + distance := by
          rw [List.length_take, Array.length_toList]
          omega
        have hback : (d.toList.take (ref + distance)).toArray.getD
            ((d.toList.take (ref + distance)).toArray.size - distance) 0 = d.getD ref 0 := by
          rw [List.size_toArray, hlen, Nat.add_sub_cancel]
          simp [Array.getD_eq_getD_getElem?, hpos]
        have hlt : ref + distance < d.toList.length := by
          rw [Array.length_toList]
          omega
        have hcur : d.getD (ref + distance) 0 = d.toList[ref + distance] := by
          rw [Array.getD_eq_getD_getElem?, Array.getElem?_eq_getElem (by omega)]
          rfl
        have hnext : (d.toList.take (ref + distance)).toArray.push (d.getD ref 0) =
            (d.toList.take (ref + 1 + distance)).toArray := by
          rw [hbyte, hcur, List.push_toArray, Nat.add_right_comm,
            List.take_succ_eq_append_getElem]
        have hplace : ref + distance + 1 = ref + 1 + distance := Nat.add_right_comm _ _ _
        rw [hplace] at hn
        rw [repeatBack, hback, hnext, ih (Nat.le_of_succ_le_succ hn) (by omega)]
        congr 2
        omega
      · omega

/-- A copy that is found is worth an instruction, repeats what stands there and leaves the
last two bytes alone. -/
theorem copyLength?_eq_some {d : Array UInt8} {ref cur : Nat} {n : { n : Nat // 3 ≤ n }}
    (h : copyLength? d ref cur = some n) :
    (Instruction.copy (cur - ref) n).Valid ∧ cur - ref ≤ cur ∧ cur + n + 2 ≤ d.size ∧
      repeatBack (cur - ref) n (d.toList.take cur).toArray =
        (d.toList.take (cur + n)).toArray := by
  unfold copyLength? at h
  split at h
  · next hcond =>
    obtain ⟨hpos, hlt, hfar, hroom⟩ := hcond
    dsimp only at h
    split at h
    · next hthree =>
      obtain rfl := Option.some.inj h
      have hle := matchLength_le d (min (d.size - cur - 2) maxCopy) ref cur
      have hcur : ref + (cur - ref) = cur := by omega
      have hbound : min (d.size - cur - 2) maxCopy ≤ maxCopy := Nat.min_le_right _ _
      have hroom' : min (d.size - cur - 2) maxCopy ≤ d.size - cur - 2 := Nat.min_le_left _ _
      have hagree : matchLength d (min (d.size - cur - 2) maxCopy) ref cur ≤
          matchLength d (min (d.size - cur - 2) maxCopy) ref (ref + (cur - ref)) :=
        Nat.le_of_eq (by rw [hcur])
      have hcopy := repeatBack_of_le_matchLength (by omega) hagree (by omega)
      refine ⟨⟨by omega, hfar, hthree, Nat.le_trans hle hbound⟩, by omega, by dsimp only; omega, ?_⟩
      rwa [hcur] at hcopy
    · contradiction
  · contradiction

theorem eq_of_putCopy {room : Nat} {w w' : Writer} {distance length : Nat}
    (h : putCopy room w distance length = .ok (some w')) :
    w' = w.close.copy distance length := by
  unfold putCopy at h
  split at h
  · contradiction
  · dsimp only at h
    split at h
    · simp at h
    · simpa using h.symm

/-- **Scanning writes the string**, all but its last two bytes. -/
theorem wrote_of_scan {d : Array UInt8} {cur : Nat} {recent : Recent} {w w' : Writer}
    (h : scan d cur recent w = .ok (some w')) (hcur : cur + 2 ≤ d.size)
    (hw : w.Wrote d.size (d.toList.take cur)) :
    w'.Wrote d.size (d.toList.take (d.size - 2)) := by
  fun_induction scan d cur recent w with
  | case1 => contradiction
  | case2 => simp at h
  | case3 cur recent w hlt here ref recent₁ n hthree hcopy w₁ hput recent₂ recent₃ ih =>
    obtain ⟨hvalid, hdistance, hroom, hrepeat⟩ := copyLength?_eq_some hcopy
    have hlen : (d.toList.take cur).length = cur := by
      rw [List.length_take, Array.length_toList]
      omega
    have hclosed := hw.close (by omega)
    have hcopied := hclosed.copy hvalid (by omega) (by dsimp only at hroom ⊢; omega)
    rw [hrepeat, ← eq_of_putCopy hput] at hcopied
    exact ih h hroom hcopied
  | case4 => simp at h
  | case5 cur recent w hlt here ref recent₁ hcopy hfull ih =>
    have hlen : (d.toList.take cur).length = cur := by
      rw [List.length_take, Array.length_toList]
      omega
    have hnext := hw.literal d[cur] (by omega)
    rw [← Array.getElem_toList, ← List.take_succ_eq_append_getElem] at hnext
    exact ih h hlt hnext
  | case6 cur recent w hge =>
    obtain rfl : w = w' := by simpa using h
    obtain rfl : cur = d.size - 2 := by omega
    exact hw

/-- **A string that was compressed is given back**, by whoever knows its length. -/
theorem inflate_compress {s bytes : Bytes} (h : compress? s = .ok (some bytes))
    (hlen : s.length ≤ maxOutput) : inflate s.length bytes = .ok (.ok s) := by
  unfold compress? at h
  split at h
  · simp at h
  · next htwo =>
    split at h
    · contradiction
    · simp at h
    · next w hscan =>
      split at h
      · simp at h
      · obtain rfl : Writer.finish _ = bytes := by simpa using h
        have hw := wrote_of_scan hscan (by rw [List.size_toArray]; omega)
          (Writer.wrote_empty _)
        rw [List.size_toArray] at hw
        have hall := hw.literals (s.drop (s.length - 2)) (by simp)
        rw [List.take_append_drop] at hall
        have hrun := hall.finish (Nat.le_refl _)
        unfold runAll at hrun
        split at hrun
        · have hnil : s = [] := by simpa using hrun.symm
          simp [hnil] at htwo
        · have hexpand : expand s.length
              ((s.drop (s.length - 2)).foldl Writer.literal w).finish = .ok s := by
            rw [expand, hrun]
            rfl
          rw [inflate, if_neg fun hc => Nat.not_lt.mpr hlen hc.2]
          simp only [hexpand, if_true]

/-- The one way in which the compressor fails. -/
theorem eq_outputOverrun_of_scan {d : Array UInt8} {cur : Nat} {recent : Recent} {w : Writer}
    {f : Fault} (h : scan d cur recent w = .error f) : f = .outputOverrun := by
  fun_induction scan d cur recent w with
  | case1 cur recent w hlt here ref n hthree hcopy f' hput =>
    obtain rfl : f' = f := by simpa using h
    unfold putCopy at hput
    split at hput
    · simpa using hput.symm
    · dsimp only at hput
      split at hput <;> simp at hput
  | case2 => simp at h
  | case3 cur recent w hlt here ref recent₁ n hthree hcopy w₁ hput recent₂ recent₃ ih =>
    exact ih h
  | case4 => simp at h
  | case5 cur recent w hlt here ref recent₁ hcopy hfull ih => exact ih h
  | case6 => simp at h

theorem eq_outputOverrun_of_compress? {s : Bytes} {f : Fault} (h : compress? s = .error f) :
    f = .outputOverrun := by
  unfold compress? at h
  split at h
  · simp at h
  · split at h
    · next hscan =>
      obtain rfl := Except.error.inj h
      exact eq_outputOverrun_of_scan hscan
    · simp at h
    · split at h <;> simp at h

end Lzf

end UnrolledList
