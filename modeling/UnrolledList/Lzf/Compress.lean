import UnrolledList.Fault
import UnrolledList.Lzf.Writer

/-!
# Compressing

The compressor goes through a string once, from left to right. At each position it asks
where the three bytes that stand there were last seen; if the answer is near enough and
right, it writes a copy that is as long as the two places agree, and otherwise a literal
byte.

## The memory of positions

The last place is looked up by a hash of sixteen bits, in a table without collision
lists: a slot holds the latest position only. A slot that was never written holds zero,
so **position zero is never copied from**. The candidate that the table yields is only a
guess; `UnrolledList.Lzf.matchLength` compares the bytes, so what is written expands to
what was read whatever the table holds. The table comes in pages that are made when they
are first written, so a short string does not pay for all of it.

A copy skips the positions it covers, except that the last two of them are entered into
the table.

## When it gives up

The output has as much room as the string is long. A literal byte needs a byte of that
room, a copy needs four and one to spare, and the last two bytes, which are always
literals, need three together with what closes them. When the room is gone the attempt is
given up: such a string does not become shorter.

**One check is missing.** A copy first writes the length of the open run, also of an
empty one, and only then asks for room. When a full run has just taken the last byte, the
run opened after it has its length beyond the end of the output, so a copy that follows
writes there. That is a fault (`UnrolledList.Fault.outputOverrun`) and not an answer.
-/

namespace UnrolledList

namespace Lzf

/-- The hash of three bytes. -/
def slot (a b c : UInt8) : UInt16 :=
  (a.toUInt16 * 256 + b.toUInt16) - 5 * (b.toUInt16 * 256 + c.toUInt16)

/-- The number of slots in a page. -/
def pageSize : Nat := 32

/-- The latest position of each hash, or zero. A page is empty until one of its slots is
written. -/
abbrev Recent := Array (Array Nat)

/-- The memory before anything was seen: all the pages of a table of 65536 slots. -/
def Recent.empty : Recent :=
  Array.replicate 2048 #[]

/-- The position in a slot. -/
def Recent.lookup (recent : Recent) (slot : Nat) : Nat :=
  (recent.getD (slot / pageSize) #[]).getD (slot % pageSize) 0

/-- Puts a position into a slot. -/
def Recent.note (recent : Recent) (slot cur : Nat) : Recent :=
  recent.modify (slot / pageSize) fun page =>
    (if page.isEmpty then Array.replicate pageSize 0 else page).setIfInBounds (slot % pageSize) cur

/-- The slot of the three bytes at a position. -/
def slotAt (d : Array UInt8) (cur : Nat) : Nat :=
  (slot (d.getD cur 0) (d.getD (cur + 1) 0) (d.getD (cur + 2) 0)).toNat

/-- The number of bytes, up to `n`, by which the string agrees at two positions. -/
def matchLength (d : Array UInt8) : (n ref cur : Nat) → Nat
  | 0, _, _ => 0
  | n + 1, ref, cur =>
    if d.getD ref 0 = d.getD cur 0 then matchLength d n (ref + 1) (cur + 1) + 1 else 0

/-- The length of the copy from `ref` that is worth writing at `cur`. A copy leaves the
last two bytes alone and has at least three. -/
def copyLength? (d : Array UInt8) (ref cur : Nat) : Option { n : Nat // 3 ≤ n } :=
  if 0 < ref ∧ ref < cur ∧ cur - ref ≤ maxDistance ∧ cur + 4 < d.size then
    let n := matchLength d (min (d.size - cur - 2) maxCopy) ref cur
    if h : 3 ≤ n then some ⟨n, h⟩ else none
  else none

/-- Writes a copy into an output of `room` bytes, if there is room for it. -/
def putCopy (room : Nat) (w : Writer) (distance length : Nat) : Except Fault (Option Writer) :=
  if room ≤ w.lengthPos then .error .outputOverrun
  else
    let w := w.close
    if room ≤ w.out.size + 4 then .ok none else .ok (some (w.copy distance length))

/-- Writes the string from position `cur` on, all but its last two bytes, as long as there
is room. -/
def scan (d : Array UInt8) (cur : Nat) (recent : Recent) (w : Writer) :
    Except Fault (Option Writer) :=
  if h : cur + 2 < d.size then
    let here := slotAt d cur
    let ref := recent.lookup here
    let recent := recent.note here cur
    match copyLength? d ref cur with
    | some ⟨n, _⟩ =>
      match putCopy d.size w (cur - ref) n with
      | .error f => .error f
      | .ok none => .ok none
      | .ok (some w) =>
        -- of the positions that the copy covers only the last two are remembered
        let recent := recent.note (slotAt d (cur + n - 2)) (cur + n - 2)
        let recent := recent.note (slotAt d (cur + n - 1)) (cur + n - 1)
        scan d (cur + n) recent w
    | none =>
      if d.size ≤ w.size then .ok none else scan d (cur + 1) recent (w.literal d[cur])
  else .ok (some w)
termination_by d.size - cur

/-- **Compresses a string**, unless that would not make it shorter. -/
def compress? (s : Bytes) : Except Fault (Option Bytes) :=
  if s.length < 2 then .ok none
  else
    match scan s.toArray 0 Recent.empty {} with
    | .error f => .error f
    | .ok none => .ok none
    | .ok (some w) =>
      if s.length < w.size + 3 then .ok none
      else .ok (some ((s.drop (s.length - 2)).foldl Writer.literal w).finish)

end Lzf

end UnrolledList
