/-!
# How full a block may be

A list decides by its **fill** how much goes into one block. A fill is either a bound on
the number of entries, with a fixed bound on the size beside it, or one of five size
classes with no bound on the number (`UnrolledList.Fill`). In a setting the two share one
integer: zero and above is a number of entries, and `-1` to `-5` are the classes.

Before an entry is added, and before two blocks become one, the size that would result is
**estimated** without looking at the bytes:

* an entry is charged the header that its length as a string asks for, although it may be
  stored as an integer and its back link belongs to the entry before it;
* two blocks lose one header and one end marker between them.

Sizes are machine words. An estimate that does not fit one has no value, and there is no
answer.

## Where the estimate may be wrong

An estimate is no bound. It is too high for an entry that is stored as an integer. It is too
low where back links become wide: the link of the new entry is charged by the wrong length, the
links behind it may have to widen in turn, and so may the first link of a block that is put
behind another. Each of these is four bytes that were not charged, so a block may come to be
larger than what it was admitted under.
-/

namespace UnrolledList

/-- The number of values of a machine word, in which sizes are counted. -/
def wordLimit : Nat := 0x10000000000000000

/-- The greatest number of entries that a block may be said to have. -/
def maxEntries : Nat := 0xFFFFFFFF

/-! ### Bounds -/

/-- What a block is held to. -/
structure Bounds where
  /-- The greatest size in bytes. -/
  bytes : Nat
  /-- The greatest number of entries. -/
  entries : Nat
deriving DecidableEq, Repr

/-- A block of this size and with this many entries is beyond the bounds. -/
def Bounds.ExceededBy (b : Bounds) (size entries : Nat) : Prop :=
  b.bytes < size ∨ b.entries < entries

instance (b : Bounds) (size entries : Nat) : Decidable (b.ExceededBy size entries) :=
  inferInstanceAs (Decidable (_ ∨ _))

/-- How much goes into one block. -/
inductive Fill where
  /-- At most so many entries. -/
  | entries (n : Nat)
  /-- At most a size, which doubles from class to class. -/
  | sizeClass (level : Fin 5)
deriving DecidableEq, Repr

namespace Fill

/-- The size that no block of a counted fill may pass. -/
def safetySize : Nat := 8192

/-- The greatest size of a class. -/
def classSize : Fin 5 → Nat
  | 0 => 4096
  | 1 => 8192
  | 2 => 16384
  | 3 => 32768
  | 4 => 65536

/-- The bounds that a fill sets. -/
def bounds : Fill → Bounds
  | entries n => ⟨safetySize, n⟩
  | sizeClass level => ⟨classSize level, maxEntries⟩

/-- The class that a negative setting names; those beyond the last name the last. -/
def levelOf (setting : Int) : Fin 5 :=
  ⟨min (-setting - 1).toNat 4, by omega⟩

/-- The fill that a setting names. The least 32-bit integer has no negation of 32 bits, so
it names none. -/
def ofSetting? (setting : Int) : Option Fill :=
  if 0 ≤ setting then some (entries setting.toNat)
  else if setting = -0x80000000 then none
  else some (sizeClass (levelOf setting))

/-- The least setting of a list. -/
def minSetting : Int := -5

/-- The greatest setting of a list. -/
def maxSetting : Int := 32768

/-- The fill of a list: settings outside the range of a list are moved to its ends. -/
def ofSetting (setting : Int) : Fill :=
  let setting := max minSetting (min setting maxSetting)
  if 0 ≤ setting then entries setting.toNat else sizeClass (levelOf setting)

/-- A number of entries is held at the greatest setting, and the least one does not matter. -/
theorem ofSetting_of_nonneg {setting : Int} (h : 0 ≤ setting) :
    ofSetting setting = entries (min setting maxSetting).toNat := by
  have hnonneg : 0 ≤ min setting maxSetting := Int.le_min.mpr ⟨h, by decide⟩
  have hrange : max minSetting (min setting maxSetting) = min setting maxSetting :=
    Int.max_eq_right (Int.le_trans (by decide) hnonneg)
  rw [ofSetting, hrange, if_pos hnonneg]

/-- The setting that names a fill. -/
def setting : Fill → Int
  | entries n => n
  | sizeClass level => -(level.val + 1 : Int)

/-- The fill of a list that was given none. -/
def default : Fill := sizeClass 1

/-- The size class that a negative setting names. -/
def classSize? (setting : Int) : Option Nat :=
  match ofSetting? setting with
  | some (sizeClass level) => some (classSize level)
  | _ => none

end Fill

/-! ### Admission -/

/-- The header that an entry of `n` bytes is charged: a back link as wide as an entry of
that length would ask of its successor, and the header of a string. -/
def entryOverhead (n : Nat) : Nat :=
  (if n < 254 then 1 else 5) + (if n < 64 then 1 else if n < 16384 then 2 else 5)

/-- A number of entries, held at the greatest that can be said. -/
def saturate (entries : Nat) : Nat :=
  min entries maxEntries

/-- Whether a block of `size` bytes and `entries` entries takes one more entry of `n`
bytes. -/
def Fill.admits? (f : Fill) (size entries n : Nat) : Option Bool :=
  let total := size + n + entryOverhead n
  if total < wordLimit then some (¬ f.bounds.ExceededBy total (saturate (entries + 1))) else none

/-- Whether two blocks fit into one. -/
def Fill.admitsMerge? (f : Fill) (size₁ entries₁ size₂ entries₂ : Nat) : Option Bool :=
  let total := size₁ + size₂
  if total < wordLimit then
    some (¬ f.bounds.ExceededBy (total - 11) (saturate (entries₁ + entries₂)))
  else none

end UnrolledList
