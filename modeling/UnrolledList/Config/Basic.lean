import UnrolledList.Chain.Basic

/-!
# Settings

The two settings of a list – how much goes into a block, and how many blocks at each end
are kept plain – with the names under which they are written in a file and the values they
have when they are not.

Settings are 32-bit integers and are kept as they were given. They are moved into range
only when a list is made from them.
-/

namespace UnrolledList

/-- The settings of a list. -/
structure Config where
  /-- How much goes into a block, as an integer. -/
  blockSize : Int := -2
  /-- How many blocks at each end are kept plain. -/
  depth : Int := 0
deriving DecidableEq, Repr

namespace Config

/-- One of the two settings. -/
inductive Key where
  /-- How much goes into a block. -/
  | blockSize
  /-- How many blocks at each end are kept plain. -/
  | depth
deriving DecidableEq, Repr

/-- The name of a setting in a file. -/
def Key.name : Key → String
  | blockSize => "list_max_ziplist_size"
  | depth => "list_compress_depth"

/-- The setting with a name. -/
def Key.ofName? (name : List Char) : Option Key :=
  if name = Key.blockSize.name.toList then some .blockSize
  else if name = Key.depth.name.toList then some .depth
  else none

/-- Whether an integer can be a setting. -/
def Fits (n : Int) : Prop :=
  -0x80000000 ≤ n ∧ n < 0x80000000

instance (n : Int) : Decidable (Fits n) :=
  inferInstanceAs (Decidable (_ ∧ _))

/-- The settings that were given, and the default of each that was not. -/
def ofGiven (blockSize depth : Option Int) : Config :=
  let config : Config := {}
  { blockSize := blockSize.getD config.blockSize
    depth := depth.getD config.depth }

/-- The empty list with the given settings. -/
def build (config : Config) : Chain :=
  .ofOptions config.blockSize config.depth

end Config

end UnrolledList
