import UnrolledList.Chain.Basic

/-!
# Which blocks are compressed

With a depth of `d` the first `d` blocks and the last `d` are plain and all others are
compressed, as far as compression is worth it. The rule is kept up **locally**. A change
can bring a block across the boundary only by one place, so after each change it is enough
(`UnrolledList.Chain.enforce`) to

* expand the blocks on the outer side of both boundaries,
* compress the block that was changed, if it lies inside, and
* compress the first block on the inner side of each boundary.

With fewer than `2 d` blocks nothing is done, because there is no inside.

A block that was opened for a single access is not judged by its place: it is simply
compressed again (`UnrolledList.Chain.settle`).
-/

namespace UnrolledList

namespace Chain

/-- Block number `i` of `n` lies on the outer side of a boundary. -/
def IsOuter (depth n i : Nat) : Prop :=
  i < depth ∨ n ≤ i + depth

instance (depth n i : Nat) : Decidable (IsOuter depth n i) :=
  inferInstanceAs (Decidable (_ ∨ _))

/-- The blocks on the outer side of the boundaries, the first ones and the last ones. -/
def outerIdxs (depth n : Nat) : List Nat :=
  List.range depth ++ (List.range depth).map fun i => n - 1 - i

/-- The blocks inside the boundaries to which the rule is applied after a change of block
`touched`: that block and the first one on each side. -/
def innerIdxs (depth n : Nat) (touched : Option Nat) : List Nat :=
  (touched.toList ++ [depth, n - 1 - depth]).filter fun i => ¬ IsOuter depth n i

/-- Changes several blocks, one after the other. -/
def modifyBlocks (c : Chain) (f : Block → Except Fault Block) : List Nat → Except Fault Chain
  | [] => .ok c
  | i :: rest => do
    let c ← c.modifyBlock i f
    c.modifyBlocks f rest

/-- **Restores the boundaries** of compression after a change. -/
def enforce (c : Chain) (touched : Option Nat) : Except Fault Chain :=
  let depth := c.depth
  let n := c.length
  if depth = 0 ∨ n < 2 * depth then .ok c
  else do
    let c ← c.modifyBlocks Block.keepPlain (outerIdxs depth n)
    c.modifyBlocks Block.compress (innerIdxs depth n touched)

/-- Opens a block for a single access. -/
def openForUse (c : Chain) (i : Nat) : Except Fault Chain :=
  c.modifyBlock i Block.openForUse

/-- Ends a single access: a block that was opened for it is compressed again. -/
def settle (c : Chain) (i : Nat) : Except Fault Chain :=
  c.modifyBlock i Block.settle

/-- Ends a change: a block that was opened for use is compressed again, and otherwise the
boundaries are restored. -/
def recompress (c : Chain) (i : Nat) : Except Fault Chain := do
  let b ← c.block i
  if b.pending then c.settle i else c.enforce (some i)

end Chain

end UnrolledList
