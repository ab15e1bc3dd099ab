import UnrolledList.Proofs.Chain.Session

/-!
# A caller that keeps everything

A **client** (`UnrolledList.Client`) has a list, all the handles that were ever taken of it,
and the walk that is open, if there is one. It asks for a `UnrolledList.Call` and is given
an `UnrolledList.Answer`.

A session (`UnrolledList.Session`) shows a list as the caller thinks of it: its replies are
strings, a walk is one action, and a handle is given up when the list is changed. A client
shows the list **as it is**. The values, the handles and the positions of a walk are
answered as they come, a walk is taken one element at a time, and a handle that is no longer
good is kept and may be tried.

## Calls that cannot be made

A walk has the list to itself, so while one is open the only calls are those that go on with
it, erase the element that was just met, or end it; and these are not made where there is no
walk, or no such element. A call that cannot be made is answered by
`UnrolledList.Answer.idle` and does nothing.
-/

namespace UnrolledList

/-- What a client asks for. -/
inductive Call where
  /-- To add a string at an end. -/
  | push (side : Side) (s : Bytes)
  /-- To take the element at an end off. -/
  | pop (side : Side)
  /-- To read the element with an index. -/
  | get (i : Int)
  /-- To take a handle to the element with an index. -/
  | index (i : Int)
  /-- To insert a string beside the element of a handle, or at the end that the place
  stands for. -/
  | insert (handle : Option Nat) (place : Place) (s : Bytes)
  /-- To overwrite the element of a handle. -/
  | replace (handle : Nat) (s : Bytes)
  /-- To overwrite the element with an index. -/
  | replaceAt (i : Int) (s : Bytes)
  /-- To erase so many elements from an index on. -/
  | eraseRange (start n : Int)
  /-- To move the last element to the head. -/
  | rotate
  /-- To add a packed list as a block. -/
  | append (p : { p : Packed // p.WellFormed })
  /-- To add a packed list that is given by its bytes as a block. -/
  | appendBytes (blob : Bytes)
  /-- To add the elements of a packed list. -/
  | appendValues (p : { p : Packed // p.WellFormed })
  /-- To begin a walk from an end, or from an index. -/
  | beginWalk (origin : Side) (start : Option Int)
  /-- To go on with the walk. -/
  | next
  /-- To erase the element that the walk has just met. -/
  | erase
  /-- To end the walk. -/
  | finish
  /-- To set the fill. -/
  | setFill (setting : Int)
  /-- To set the depth. -/
  | setDepth (depth : Int)
  /-- To go on with a copy. -/
  | duplicate

/-- What is answered. -/
inductive Answer where
  /-- Nothing. -/
  | done
  /-- A yes or a no. -/
  | flag (answer : Bool)
  /-- An element, if there is one. -/
  | value (v : Option Value)
  /-- A handle, if there is an element. -/
  | handle (h : Option Handle)
  /-- Where the walk goes on after an erasure, and whether the block is gone. -/
  | resumes (block : Option BlockId) (offset : Int) (gone : Bool)
  /-- What is wrong with the bytes of a packed list. -/
  | refused (d : Defect)
  /-- That the call cannot be made now. -/
  | idle
deriving DecidableEq

/-- A walk, and the element it has just met if that was not erased. -/
structure OpenWalk where
  /-- The walk. -/
  walk : Walk
  /-- The handle of the element. -/
  last : Option Handle := none
deriving DecidableEq

/-- A list, what was taken of it, and the walk that is open. -/
structure Client where
  /-- The list. -/
  chain : Chain
  /-- The handles, in the order in which they were taken. -/
  taken : List Handle := []
  /-- The walk. -/
  walking : Option OpenWalk := none
deriving DecidableEq

namespace Client

/-- The client of the empty list with the given options. -/
def ofOptions (setting depth : Int) : Client where
  chain := .ofOptions setting depth

/-- The client after the list has become `c`. -/
def withChain (k : Client) (c : Chain) : Client :=
  { k with chain := c }

/-- The client with a handle added, if there is one. -/
def take (k : Client) (h : Option Handle) : Client :=
  { k with taken := k.taken ++ h.toList }

/-- The client with another walk, or with none. -/
def withWalk (k : Client) (walking : Option OpenWalk) : Client :=
  { k with walking := walking }

/-- What a call does while no walk is open. -/
def ask (k : Client) : Call → Except Fault (Client × Answer)
  | .push side s => do
    let (c, isNew) ← k.chain.push side s
    return (k.withChain c, .flag isNew)
  | .pop side => do
    let (c, v) ← k.chain.pop side
    return (k.withChain c, .value v)
  | .get i => do
    let (c, v) ← k.chain.get? i
    return (k.withChain c, .value v)
  | .index i => do
    let (c, h) ← k.chain.index i
    return ((k.withChain c).take h, .handle h)
  | .insert none place s => do
    let c ← k.chain.insert none place s
    return (k.withChain c, .done)
  | .insert (some handle) place s =>
    match k.taken[handle]? with
    | none => .ok (k, .idle)
    | some h => do
      let c ← k.chain.insert (some h) place s
      return (k.withChain c, .done)
  | .replace handle s =>
    match k.taken[handle]? with
    | none => .ok (k, .idle)
    | some h => do
      let c ← k.chain.replace h s
      return (k.withChain c, .done)
  | .replaceAt i s => do
    let (c, answer) ← k.chain.replaceAt i s
    return (k.withChain c, .flag answer)
  | .eraseRange start n => do
    let (c, answer) ← k.chain.eraseRange start n
    return (k.withChain c, .flag answer)
  | .rotate => do
    let c ← k.chain.rotate
    return (k.withChain c, .done)
  | .append p => do
    let c ← k.chain.appendBlock p.val
    return (k.withChain c, .done)
  | .appendBytes blob => do
    match ← k.chain.appendBytes blob with
    | .error d => return (k, .refused d)
    | .ok c => return (k.withChain c, .done)
  | .appendValues p => do
    let c ← k.chain.pushAll p.val.values
    return (k.withChain c, .done)
  | .beginWalk origin start => do
    let (c, w) ← Session.begin k.chain origin start
    return ((k.withChain c).withWalk (w.map fun w => { walk := w }), .flag w.isSome)
  | .setFill setting => .ok (k.withChain (k.chain.withFill setting), .done)
  | .setDepth depth => .ok (k.withChain (k.chain.withDepth depth), .done)
  | .duplicate => .ok ({ chain := k.chain.duplicate }, .done)
  | .next | .erase | .finish => .ok (k, .idle)

/-- What a call does while a walk is open. -/
def walkOn (k : Client) (o : OpenWalk) : Call → Except Fault (Client × Answer)
  | .next => do
    let (w, c, h) ← o.walk.next k.chain
    return (((k.withChain c).take h).withWalk (some { walk := w, last := h }), .handle h)
  | .erase =>
    match o.last with
    | none => .ok (k, .idle)
    | some h => do
      let (w, c, gone) ← o.walk.erase k.chain h
      return ((k.withChain c).withWalk (some { walk := w }),
        .resumes (w.block? c) w.offset gone)
  | .finish => do
    let c ← o.walk.finish k.chain
    return ((k.withChain c).withWalk none, .done)
  | _ => .ok (k, .idle)

/-- What a call does. -/
def perform (k : Client) (call : Call) : Except Fault (Client × Answer) :=
  match k.walking with
  | none => k.ask call
  | some o => k.walkOn o call

/-- What several calls do, and what is answered. -/
def run : List Call → Client → Except Fault (Client × List Answer)
  | [], k => .ok (k, [])
  | call :: calls, k => do
    let (k, answer) ← k.perform call
    let (k, answers) ← run calls k
    return (k, answer :: answers)

end Client

end UnrolledList
