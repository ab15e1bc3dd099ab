import UnrolledList.Chain.Copy
import UnrolledList.Proofs.Chain.Erasing
import UnrolledList.Proofs.Chain.Inserting
import UnrolledList.Proofs.Chain.Walking

/-!
# What a caller can do

A **session** (`UnrolledList.Session`) is what a caller has: a list, and the handles that
were taken and are still good. What the caller asks for is an `UnrolledList.Action`, and
what is answered an `UnrolledList.Reply`, in which every element is the string that it
renders to.

Beside it stands the **ledger** (`UnrolledList.Ledger`), which is what the caller thinks of:
a sequence of strings, and the places of those elements of which there is a handle. It
takes the same actions and gives the same replies, and it knows nothing of blocks, of
fills and depths, or of compression.

## Handles

A handle is good until the list is changed, so a session gives up all its handles when the
stamp has advanced (`UnrolledList.Session.withChain`). A caller that kept a handle beyond
that would have broken its promise, and an action that asks for a handle that is not there
does nothing.

## Walks

A walk has the list to itself, so it is one action from its beginning to its end. A script
says for each element that is met whether to erase it; the walk ends with the script, or
earlier if it has run out. An element that is not erased leaves its handle behind.
-/

namespace UnrolledList

/-- What a caller asks for. -/
inductive Action where
  /-- To add a string at an end. -/
  | push (side : Side) (s : Bytes)
  /-- To take the element at an end off. -/
  | pop (side : Side)
  /-- To read the element with an index. -/
  | get (i : Int)
  /-- To take a handle to the element with an index. -/
  | index (i : Int)
  /-- To insert a string without saying beside which element. -/
  | insertAtEnd (place : Place) (s : Bytes)
  /-- To insert a string beside the element of a handle. -/
  | insertBeside (handle : Nat) (place : Place) (s : Bytes)
  /-- To overwrite the element of a handle. -/
  | replace (handle : Nat) (s : Bytes)
  /-- To overwrite the element with an index. -/
  | replaceAt (i : Int) (s : Bytes)
  /-- To erase so many elements from an index on. -/
  | eraseRange (start n : Int)
  /-- To move the last element to the head. -/
  | rotate
  /-- To add a packed list as a block. -/
  | append (p : { p : Packed // p.WellFormed })
  /-- To add a packed list that is given by its bytes as a block. -/
  | appendBytes (blob : Bytes)
  /-- To add the elements of a packed list. -/
  | appendValues (p : { p : Packed // p.WellFormed })
  /-- To walk from an end, or from an index. -/
  | walk (origin : Side) (i : Option Int) (script : List Bool)
  /-- To set the fill. -/
  | setFill (setting : Int)
  /-- To set the depth. -/
  | setDepth (depth : Int)
  /-- To go on with a copy. -/
  | duplicate

/-- What is answered. -/
inductive Reply where
  /-- Nothing. -/
  | done
  /-- Whether there was an element. -/
  | flag (answer : Bool)
  /-- An element, if there is one. -/
  | element (t : Option Bytes)
  /-- The elements that a walk met, if it could begin. -/
  | elements (ts : Option (List Bytes))
  /-- What is wrong with the bytes of a packed list. -/
  | refused (d : Defect)
deriving DecidableEq

/-! ### The sequence -/

/-- The string at an end of a sequence, and the rest of it. -/
def Side.uncons? : Side → List Bytes → Option (Bytes × List Bytes)
  | .head, [] => none
  | .head, t :: ts => some (t, ts)
  | .tail, ts => ts.getLast?.map fun t => (t, ts.dropLast)

/-- A sequence of strings, and the places of the elements of which there is a handle. -/
structure Ledger where
  /-- The strings. -/
  texts : List Bytes := []
  /-- The places. -/
  held : List Nat := []

namespace Ledger

/-- The place of the element with an index. -/
def place? (m : Ledger) (i : Int) : Option Nat :=
  Packed.idxOf? m.texts.length i

/-- The ledger of a sequence to which there is no handle. -/
def ofTexts (ts : List Bytes) : Ledger where
  texts := ts

/-- The ledger with strings added at the tail. -/
def append (m : Ledger) (ts : List Bytes) : Ledger :=
  if ts = [] then m else ofTexts (m.texts ++ ts)

/-- The ledger with places added. -/
def hold (m : Ledger) (places : List Nat) : Ledger :=
  { m with held := m.held ++ places }

/-- Walks along a sequence from a cut. -/
def follow (origin : Side) : (script : List Bool) → (pos : Nat) → Ledger → List Bytes →
    Ledger × List Bytes
  | [], _, m, met => (m, met)
  | erasing :: script, pos, m, met =>
    match origin.next? m.texts.length pos with
    | none => (m, met)
    | some k =>
      let met := met ++ m.texts[k]?.toList
      if erasing then follow origin script k (ofTexts (m.texts.eraseIdx k)) met
      else follow origin script (origin.past k) (m.hold [k]) met

/-- The cut at which a walk begins. -/
def begin? (m : Ledger) (origin : Side) : Option Int → Option Nat
  | none => some (origin.start m.texts.length)
  | some i => (m.place? i).map origin.before

/-- What an action does to a sequence. -/
def perform (m : Ledger) : Action → Ledger × Reply
  | .push side s => (ofTexts (side.cons s m.texts), .done)
  | .pop side =>
    match side.uncons? m.texts with
    | none => (m, .element none)
    | some (t, ts) => (ofTexts ts, .element (some t))
  | .get i => (m, .element ((m.place? i).bind (m.texts[·]?)))
  | .index i => (m.hold (m.place? i).toList, .element ((m.place? i).bind (m.texts[·]?)))
  | .insertAtEnd .before s => (ofTexts (s :: m.texts), .done)
  | .insertAtEnd .after s => (ofTexts (m.texts ++ [s]), .done)
  | .insertBeside handle place s =>
    match m.held[handle]? with
    | none => (m, .done)
    | some k => (ofTexts (m.texts.insertIdx (place.cut k) s), .done)
  | .replace handle s =>
    match m.held[handle]? with
    | none => (m, .done)
    | some k => (ofTexts (m.texts.set k s), .done)
  | .replaceAt i s =>
    match m.place? i with
    | none => (m, .flag false)
    | some k => (ofTexts (m.texts.set k s), .flag true)
  | .eraseRange start n =>
    match if 0 < n then m.place? start else none with
    | none => (m, .flag false)
    | some k => (ofTexts (m.texts.take k ++ m.texts.drop (k + n.toNat)), .flag true)
  | .rotate =>
    if m.texts.length ≤ 1 then (m, .done)
    else (ofTexts (m.texts.getLast?.toList ++ m.texts.dropLast), .done)
  | .append p => (m.append p.val.texts, .done)
  | .appendBytes blob =>
    match Packed.ofBytes blob with
    | .error d => (m, .refused d)
    | .ok p => (m.append p.texts, .done)
  | .appendValues p => (m.append p.val.texts, .done)
  | .walk origin i script =>
    match m.begin? origin i with
    | none => (m, .elements none)
    | some pos =>
      let (m, met) := follow origin script pos m []
      (m, .elements (some met))
  | .setFill _ => (m, .done)
  | .setDepth _ => (m, .done)
  | .duplicate => (ofTexts m.texts, .done)

/-- What several actions do to a sequence, and what is answered. -/
def run : List Action → Ledger → Ledger × List Reply
  | [], m => (m, [])
  | a :: as, m =>
    let (m, r) := m.perform a
    let (m, rs) := run as m
    (m, r :: rs)

end Ledger

/-! ### The list -/

/-- A list, and the handles that are still good. -/
structure Session where
  /-- The list. -/
  chain : Chain
  /-- The handles, in the order in which they were taken. -/
  held : List Handle := []
deriving DecidableEq

namespace Session

/-- The session of the empty list with the given options. -/
def ofOptions (setting depth : Int) : Session where
  chain := .ofOptions setting depth

/-- The session after the list has become `c`. If it was changed, no handle is good any
more. -/
def withChain (s : Session) (c : Chain) : Session where
  chain := c
  held := if c.stamp = s.chain.stamp then s.held else []

/-- The session with handles added. -/
def hold (s : Session) (handles : List Handle) : Session :=
  { s with held := s.held ++ handles }

/-- Walks along a list. -/
def follow : (script : List Bool) → Walk → Session → List Bytes →
    Except Fault (Session × List Bytes)
  | [], w, s, met => do
    let c ← w.finish s.chain
    return (s.withChain c, met)
  | erasing :: script, w, s, met => do
    let (w, c, found) ← w.next s.chain
    match found with
    | none => do
      let c ← w.finish c
      return (s.withChain c, met)
    | some h =>
      let met := met ++ [h.value.render]
      if erasing then do
        let (w, c, _) ← w.erase c h
        follow script w (s.withChain c) met
      else follow script w ((s.withChain c).hold [h]) met

/-- Begins a walk. -/
def begin (c : Chain) (origin : Side) : Option Int → Except Fault (Chain × Option Walk)
  | none => .ok (c, some (.ofEnd c origin))
  | some i => Walk.ofIndex c origin i

/-- What an action does to a list. -/
def perform (s : Session) : Action → Except Fault (Session × Reply)
  | .push side t => do
    let (c, _) ← s.chain.push side t
    return (s.withChain c, .done)
  | .pop side => do
    let (c, v) ← s.chain.pop side
    return (s.withChain c, .element (v.map Value.render))
  | .get i => do
    let (c, v) ← s.chain.get? i
    return (s.withChain c, .element (v.map Value.render))
  | .index i => do
    let (c, h) ← s.chain.index i
    return ((s.withChain c).hold h.toList, .element (h.map fun h => h.value.render))
  | .insertAtEnd place t => do
    let c ← s.chain.insert none place t
    return (s.withChain c, .done)
  | .insertBeside handle place t =>
    match s.held[handle]? with
    | none => .ok (s, .done)
    | some h => do
      let c ← s.chain.insert (some h) place t
      return (s.withChain c, .done)
  | .replace handle t =>
    match s.held[handle]? with
    | none => .ok (s, .done)
    | some h => do
      let c ← s.chain.replace h t
      return (s.withChain c, .done)
  | .replaceAt i t => do
    let (c, answer) ← s.chain.replaceAt i t
    return (s.withChain c, .flag answer)
  | .eraseRange start n => do
    let (c, answer) ← s.chain.eraseRange start n
    return (s.withChain c, .flag answer)
  | .rotate => do
    let c ← s.chain.rotate
    return (s.withChain c, .done)
  | .append p => do
    let c ← s.chain.appendBlock p.val
    return (s.withChain c, .done)
  | .appendBytes blob => do
    match ← s.chain.appendBytes blob with
    | .error d => return (s, .refused d)
    | .ok c => return (s.withChain c, .done)
  | .appendValues p => do
    let c ← s.chain.pushAll p.val.values
    return (s.withChain c, .done)
  | .walk origin i script => do
    match ← begin s.chain origin i with
    | (c, none) => return (s.withChain c, .elements none)
    | (c, some w) => do
      let (s, met) ← follow script w (s.withChain c) []
      return (s, .elements (some met))
  | .setFill setting => .ok (s.withChain (s.chain.withFill setting), .done)
  | .setDepth depth => .ok (s.withChain (s.chain.withDepth depth), .done)
  | .duplicate => .ok ({ chain := s.chain.duplicate }, .done)

/-- What several actions do to a list, and what is answered. -/
def run : List Action → Session → Except Fault (Session × List Reply)
  | [], s => .ok (s, [])
  | a :: as, s => do
    let (s, r) ← s.perform a
    let (s, rs) ← run as s
    return (s, r :: rs)

end Session

end UnrolledList
