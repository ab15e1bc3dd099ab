import UnrolledList.Config.Basic
import UnrolledList.Json.Reader

/-!
# Settings in JSON

Settings are an object whose members are named, or an array of up to two integers in the
order block size, depth; what is missing has its default. Members with other names are
passed over, whatever their values, but none of the two settings may be given twice.
-/

namespace UnrolledList

namespace Config

open Json

/-! ### Values -/

/-- What to say of a value where another kind was asked for. It is read as far as is needed
to see that it is a value. -/
def refuse (s : Source) : ReadError :=
  match s.next with
  | .error e => e
  | .ok (c, s) =>
    let outcome : Except ReadError Unit := do
      if c = 'n' then let _ ← s.word ['u', 'l', 'l']
      else if c = 't' then let _ ← s.word ['r', 'u', 'e']
      else if c = 'f' then let _ ← s.word ['a', 'l', 's', 'e']
      else if c = '-' then let _ ← readNumber false s
      else if c.isDigit then let _ ← readNumber true { s with rest := c :: s.rest }
      else if c = '"' then let _ ← readString true s
      else if c ≠ '[' && c ≠ '\x7b' then throw .malformed
    match outcome with
    | .error e => e
    | .ok () => .unsuitable

/-- Reads a setting. -/
def readSetting (s : Source) : Except ReadError (Int × Source) := do
  let s := s.skipBlanks
  let (c, after) ← s.next
  let (n, s) ←
    if c = '-' then readNumber false after
    else if c.isDigit then readNumber true s
    else throw (refuse s)
  match n with
  | .integer n => if Fits n then return (n, s) else throw .unsuitable
  | .real => throw .unsuitable

/-! ### Arrays -/

/-- Reads the next element of an array, if it has not ended. A comma has to stand before
every element but the first. -/
def readElement (first : Bool) (s : Source) : Except ReadError (Option Int × Source) := do
  let s := s.skipBlanks
  let (c, after) ← s.next
  if c = ']' then return (none, s)
  let s ← if first then pure s
    else if c ≠ ',' then throw .malformed
    else do
      let s := after.skipBlanks
      let (c, _) ← s.next
      if c = ']' then throw .malformed else pure s
  let (n, s) ← readSetting s
  return (some n, s)

/-- Reads the settings of an array after its opening bracket. -/
def readArray (s : Source) : Except ReadError (Config × Source) := do
  let (blockSize, s) ← readElement true s
  let (depth, s) ← readElement false s
  let (c, s) ← s.skipBlanks.next
  if c = ']' then return (ofGiven blockSize depth, s) else throw .malformed

/-! ### Objects -/

/-- The settings met so far. -/
structure Given where
  /-- The block size, if it was given. -/
  blockSize : Option Int := none
  /-- The depth, if it was given. -/
  depth : Option Int := none

/-- What was given for a setting. -/
def Given.get? (given : Given) : Key → Option Int
  | .blockSize => given.blockSize
  | .depth => given.depth

/-- The settings with one more. -/
def Given.set (given : Given) (key : Key) (n : Int) : Given :=
  match key with
  | .blockSize => { given with blockSize := some n }
  | .depth => { given with depth := some n }

/-- Reads a colon. -/
def readColon (s : Source) : Except ReadError Source := do
  let (c, s) ← s.skipBlanks.next
  if c = ':' then return s else throw .malformed

/-- Reads a member whose opening quote has been read. -/
def readMember (given : Given) (s : Source) : Except ReadError (Given × Source) := do
  let (name, s) ← readString true s
  match Key.ofName? name with
  | some key =>
    if (given.get? key).isSome then throw .unsuitable
    let s ← readColon s
    let (n, s) ← readSetting s
    return (given.set key n, s)
  | none =>
    let s ← readColon s
    let s ← skipValue s
    return (given, s)

/-- Reads the members of an object and its closing brace, of which there are no more than
`n` characters. -/
def readMembers : (n : Nat) → (first : Bool) → Given → Source → Except ReadError (Config × Source)
  | 0, _, _, s => .error s.atEnd
  | n + 1, first, given, s => do
    let (c, s) ← s.skipBlanks.next
    if c = '\x7d' then return (ofGiven given.blockSize given.depth, s)
    let (c, s) ← if first then pure (c, s)
      else if c ≠ ',' then throw .malformed
      else s.skipBlanks.next
    if c ≠ '"' then throw .malformed
    let (given, s) ← readMember given s
    readMembers n false given s

/-! ### Documents -/

/-- **The settings that a JSON text gives.** -/
def ofJson (text : List Char) : Except ReadError Config := do
  let s := (Source.ofText text).skipBlanks
  let (c, after) ← s.next
  let (config, s) ←
    if c = '[' then readArray after
    else if c = '\x7b' then readMembers (after.rest.length + 1) true {} after
    else throw (refuse s)
  match ← s.skipBlanks.peek with
  | some _ => throw .malformed
  | none => return config

end Config

end UnrolledList
