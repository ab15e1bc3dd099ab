import UnrolledList.Fault
import UnrolledList.Lzf.Compress
import UnrolledList.Lzf.Expand
import UnrolledList.Packed.Blob

/-!
# Blocks

A block of the list holds one packed list, either plain or compressed
(`UnrolledList.Content`). Beside it stand the size and the number of the entries, which
are known without opening a compressed block, and two flags:

* `pending` – the block was opened for a single access and is to be compressed again;
* `tried` – compression was attempted on the block since it was last expanded. On a plain
  block this says that the attempt was not worth it.

## Opening a block

A plain block is read as it stands. There are three ways to open a compressed one, and
they differ only in what they leave behind: `UnrolledList.Block.inflate` expands it,
`UnrolledList.Block.openForUse` also marks it as pending, and
`UnrolledList.Block.keepPlain` also removes the mark, which is for blocks that are to stay
plain.
-/

namespace UnrolledList

/-- The packed list of a block, as it is kept. -/
inductive Content where
  /-- As it is. -/
  | plain (p : Packed)
  /-- Compressed. -/
  | compressed (bytes : Bytes)
deriving DecidableEq, Inhabited

/-- Whether nothing has to be expanded. -/
def Content.isPlain : Content → Bool
  | plain _ => true
  | compressed _ => false

/-- The packed list, given its size in bytes. -/
def Content.unpack (size : Nat) : Content → Except Fault Packed
  | plain p => .ok p
  | compressed bytes =>
    match Lzf.inflate size bytes with
    | .error f => .error f
    | .ok (.error _) => .error .corruptBlock
    | .ok (.ok blob) =>
      match Packed.ofBytes blob with
      | .error _ => .error .corruptBlock
      | .ok p => .ok p

/-- A block of the list. -/
structure Block where
  /-- The packed list. -/
  content : Content
  /-- The size in bytes of the packed list, also while it is compressed. -/
  size : Nat
  /-- The number of entries. -/
  count : Nat
  /-- The block was opened for use and is to be compressed again. -/
  pending : Bool := false
  /-- Compression was attempted since the block was last expanded. -/
  tried : Bool := false
deriving DecidableEq, Inhabited

namespace Block

/-- The least size that is worth compressing. -/
def minCompressSize : Nat := 48

/-- How many bytes compression has to gain, at least one more than this. -/
def minGain : Nat := 8

/-! ### Building and reading -/

/-- The plain block of a packed list. -/
def ofPacked (p : Packed) : Block where
  content := .plain p
  size := p.size
  count := p.length

/-- Whether the block is compressed. -/
def isCompressed (b : Block) : Bool :=
  !b.content.isPlain

/-- The packed list of a block. -/
def packed (b : Block) : Except Fault Packed :=
  b.content.unpack b.size

/-- The compressed bytes of a block. -/
def compressedBytes? (b : Block) : Option Bytes :=
  match b.content with
  | .plain _ => none
  | .compressed bytes => some bytes

/-- The values of a block. -/
def values (b : Block) : List Value :=
  match b.packed with
  | .ok p => p.values
  | .error _ => []

/-- The same block for another list: nothing there has opened it. -/
def duplicate (b : Block) : Block :=
  { b with pending := false }

/-! ### Compression -/

/-- Expands a compressed block. -/
def inflate (b : Block) : Except Fault Block :=
  match b with
  | ⟨.plain p, size, count, pending, tried⟩ => .ok ⟨.plain p, size, count, pending, tried⟩
  | ⟨.compressed bytes, size, count, pending, _⟩ => do
    let p ← (Content.compressed bytes).unpack size
    return ⟨.plain p, size, count, pending, false⟩

/-- Expands a compressed block for a single access. -/
def openForUse (b : Block) : Except Fault Block :=
  if b.isCompressed then do
    let b ← b.inflate
    return { b with pending := true }
  else .ok b

/-- Expands a block that is to stay plain. -/
def keepPlain (b : Block) : Except Fault Block := do
  let b ← b.inflate
  return { b with pending := false }

/-- The compressed bytes of a packed list, if there is enough to gain. -/
def worthwhile? (p : Packed) (size : Nat) : Except Fault (Option Bytes) :=
  if size < minCompressSize then .ok none
  else
    match Lzf.compress? p.toBytes with
    | .error f => .error f
    | .ok none => .ok none
    | .ok (some bytes) =>
      .ok (if !bytes.isEmpty && bytes.length + minGain < size then some bytes else none)

/-- Attempts to compress a plain block. A compressed one stays as it is. -/
def compress (b : Block) : Except Fault Block :=
  match b.content with
  | .compressed _ => .ok b
  | .plain p =>
    let b := { b with pending := false, tried := true }
    match worthwhile? p b.size with
    | .error f => .error f
    | .ok (some bytes) => .ok { b with content := .compressed bytes }
    | .ok none => .ok b

/-- Compresses a block again that was opened for use. -/
def settle (b : Block) : Except Fault Block :=
  if b.pending then b.compress else .ok b

/-! ### Changing the packed list -/

/-- Changes the packed list, expanding the block first if need be. A list whose header
could not tell its size does not become one of a block. -/
def modify (f : Packed → Packed) (b : Block) : Except Fault Block :=
  match b with
  | ⟨content, size, count, pending, tried⟩ => do
    let tried := tried && content.isPlain
    let p ← content.unpack size
    let p := f p
    if p.size < Packed.sizeLimit then return ⟨.plain p, p.size, count, pending, tried⟩
    else throw .overflow

/-- The same block with its number of entries set. -/
def withCount (n : Nat) (b : Block) : Block :=
  { b with count := n }

/-- Adds a string at the head. -/
def pushFront (s : Bytes) (b : Block) : Except Fault Block := do
  let n := b.count
  let b ← b.modify fun p => p.pushFront s
  return b.withCount (n + 1)

/-- Adds a string at the tail. -/
def pushBack (s : Bytes) (b : Block) : Except Fault Block := do
  let n := b.count
  let b ← b.modify fun p => p.push s
  return b.withCount (n + 1)

/-- The block of one string. -/
def singleton (s : Bytes) : Except Fault Block :=
  (ofPacked Packed.empty).pushBack s

end Block

end UnrolledList
