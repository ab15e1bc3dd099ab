import UnrolledList.Chain.Link

/-!
# The two ends

Elements are pushed at an end and popped from it. A push goes into the block at that end
if the block admits the element, and otherwise into a new block of its own; a pop removes
the block together with its last entry.

A rotation is a push of the last element at the head followed by the removal of the last
entry. The push comes first, so with a single block it lands in the block that the entry
is then removed from.
-/

namespace UnrolledList

/-- The text shown when bytes are refused as a block of a list. -/
def Defect.refusal (d : Defect) : String :=
  "[QuickList] invalid ziplist: " ++ d.message

namespace Chain

/-! ### Pushing -/

/-- Adds an entry at an end of block number `i`. -/
def pushInto (c : Chain) (i : Nat) (side : Side) (s : Bytes) : Except Fault Chain :=
  c.modifyBlock i <|
    match side with
    | .head => Block.pushFront s
    | .tail => Block.pushBack s

/-- The block at an end, if it takes one more entry of `n` bytes. -/
def admittingEnd? (c : Chain) (side : Side) (n : Nat) : Except Fault (Option Nat) :=
  match c.endIdx? side with
  | none => .ok none
  | some i => do
    let ok ← c.admits i n
    return if ok then some i else none

/-- Adds an element at an end. Tells whether a new block was made for it. -/
def push (c : Chain) (side : Side) (s : Bytes) : Except Fault (Chain × Bool) := do
  let admitting ← c.admittingEnd? side s.length
  let c ← match admitting with
    | some i => c.pushInto i side s
    | none => do
      let b ← Block.singleton s
      let (id, c) := c.takeId
      c.linkAt side ⟨id, b⟩
  let n := c.count
  return ((c.withCount (n + 1)).touch, admitting.isNone)

/-- Adds elements at the tail, one after the other. -/
def pushAll (c : Chain) : List Value → Except Fault Chain
  | [] => .ok c
  | v :: vs => do
    let (c, _) ← c.push .tail v.render
    c.pushAll vs

/-- Adds a packed list at the tail as a block of its own. -/
def appendBlock (c : Chain) (p : Packed) : Except Fault Chain :=
  if p.isEmpty then .ok c
  else do
    let b := Block.ofPacked p
    let n := c.count + b.count
    let (id, c) := c.takeId
    let c ← c.linkAt .tail ⟨id, b⟩
    return (c.withCount n).touch

/-- Adds a packed list that is given by its bytes, at the tail and as a block of its own,
unless something is wrong with the bytes. -/
def appendBytes (c : Chain) (blob : Bytes) : Except Fault (Except Defect Chain) :=
  match Packed.ofBytes blob with
  | .error d => .ok (.error d)
  | .ok p => do
    let c ← c.appendBlock p
    return .ok c

/-- The list of the elements of a packed list, laid out according to the given options. -/
def ofPacked (setting depth : Int) (p : Packed) : Except Fault Chain :=
  (ofOptions setting depth).pushAll p.values

/-! ### Popping -/

/-- The index of the entry at an end of a block. -/
def endEntry : Side → Int
  | .head => 0
  | .tail => -1

/-- The block at an end, and the place and value of its outermost entry. The block is
expanded. -/
def outermost? (c : Chain) (side : Side) :
    Except Fault (Chain × Option (Nat × Cursor × Value)) :=
  match c.endIdx? side with
  | none => .ok (c, none)
  | some i => do
    let c ← c.modifyBlock i Block.inflate
    let p ← (← c.block i).packed
    let found := do
      let place ← p.seek? (endEntry side)
      let v ← p.get? place
      return (i, place, v)
    return (c, found)

/-- Removes the element at an end and returns it. -/
def pop (c : Chain) (side : Side) : Except Fault (Chain × Option Value) :=
  if c.count = 0 then .ok (c, none)
  else do
    let (c, found) ← c.outermost? side
    match found with
    | none => return (c, none)
    | some (i, place, v) => do
      let (c, _) ← c.eraseAt i place.idx
      return (c.touch, some v)

/-- Moves the last element to the head. -/
def rotate (c : Chain) : Except Fault Chain :=
  if c.count ≤ 1 then .ok c
  else do
    let (c, found) ← c.outermost? .tail
    match found with
    | none => return c
    | some (_, _, v) => do
      let (c, _) ← c.push .head v.render
      -- with a single block the push may have moved the entry, so it is looked up again
      let (c, last) ← c.outermost? .tail
      match last with
      | none => return c.touch
      | some (i, place, _) => do
        let (c, _) ← c.eraseAt i place.idx
        return c.touch

end Chain

end UnrolledList
