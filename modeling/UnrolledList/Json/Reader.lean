import UnrolledList.Json.Comments
import UnrolledList.Text.Character

/-!
# Reading JSON

The pieces of a JSON text that a reader of settings needs: strings, numbers, words, and
whole values that are only to be passed over. Everything here reads from the front of a
`UnrolledList.Json.Source` and leaves the rest.

## Errors

There are four kinds, and **the first problem in reading order decides**: the text ends too
early, something stands where it may not, a value is well formed but of no use, or the
text cannot be read on because its comments are not right. The last one shows only when the
reader gets there. Where a number that is passed over breaks off at the end of the text,
that counts as something that may not stand there.

## Numbers

A number with a fraction or an exponent is no integer, and neither is a minus zero, but both
have to be well formed and within the range of a double, which only the *size* of the
significand and the exponent decide. The significand is cut off at 64 bits, the value is
rounded to 53 bits, and so are the powers of ten.
-/

namespace UnrolledList

namespace Json

/-- Why a text is not what it should be. -/
inductive ReadError where
  /-- The text ends too early. -/
  | incomplete
  /-- Something stands where it may not. -/
  | malformed
  /-- A value is well formed but of no use. -/
  | unsuitable
  /-- The comments of the text are not right. -/
  | unreadable
deriving DecidableEq, Repr

namespace Source

/-! ### Characters -/

/-- Whether a character may stand between any two pieces of a text. -/
def isBlank (c : Char) : Bool :=
  c = ' ' || c = '\n' || c = '\t' || c = '\r'

/-- What it means to find the text at its end. -/
def atEnd (s : Source) : ReadError :=
  if s.intact then .incomplete else .unreadable

/-- The same text without the blanks in front. -/
def skipBlanks (s : Source) : Source :=
  { s with rest := s.rest.dropWhile isBlank }

/-- The next character, which has to be there. -/
def next (s : Source) : Except ReadError (Char × Source) :=
  match s.rest with
  | c :: rest => .ok (c, { s with rest := rest })
  | [] => .error s.atEnd

/-- The next character, which stays where it is; at the end of the text there is none. -/
def peek (s : Source) : Except ReadError (Option Char) :=
  match s.rest with
  | c :: _ => .ok (some c)
  | [] => if s.intact then .ok none else .error .unreadable

/-- The text after its first character. -/
def drop (s : Source) : Source :=
  { s with rest := s.rest.drop 1 }

/-- Reads the letters of a word. -/
def word (s : Source) : List Char → Except ReadError Source
  | [] => .ok s
  | c :: cs => do
    let (d, s) ← s.next
    if d = c then word s cs else throw .malformed

end Source

/-! ### Strings -/

/-- Whether a number is the first half of a surrogate pair. -/
def isHighSurrogate (n : Nat) : Bool :=
  0xD800 ≤ n && n < 0xDC00

/-- Whether a number is the second half of a surrogate pair. -/
def isLowSurrogate (n : Nat) : Bool :=
  0xDC00 ≤ n && n < 0xE000

/-- The number that the digits of an escape stand for. The escape takes four bytes of the
text, whatever they are, and then looks whether they are digits; `need` bytes are still
missing. -/
def readHex (value : Option Nat) (need : Nat) (s : Source) : Except ReadError (Nat × Source) :=
  go value need s.rest
where
  /-- Reads from the characters that are left. -/
  go (value : Option Nat) (need : Nat) : List Char → Except ReadError (Nat × Source)
    | [] =>
      if need = 0 then
        match value with
        | some n => .ok (n, { s with rest := [] })
        | none => .error .malformed
      else .error s.atEnd
    | c :: rest =>
      if need = 0 then
        match value with
        | some n => .ok (n, { s with rest := c :: rest })
        | none => .error .malformed
      else
        let value := value.bind fun n => (Text.hexDigit? c).map fun d => n * 16 + d
        go value (need - c.utf8Size) rest

/-- The character that a single one stands for behind a backslash, which may also be a
slash. -/
def shortEscape? (c : Char) : Option Char :=
  if c = '/' then some c else Text.shortEscape? c

/-- Reads the part of an escape after its backslash. A string that is `strict` has to be
text: halves of a surrogate pair have to come in pairs. -/
def readEscape (strict : Bool) (s : Source) : Except ReadError (Char × Source) := do
  let (c, s) ← s.next
  if c = 'u' then
    let (n, s) ← readHex (some 0) 4 s
    if !strict then return (Char.ofNat n, s)
    else if isLowSurrogate n then throw .malformed
    else if !isHighSurrogate n then return (Char.ofNat n, s)
    else
      let (c, s) ← s.next
      if c ≠ '\\' then throw .malformed
      let (c, s) ← s.next
      if c ≠ 'u' then throw .malformed
      let (m, s) ← readHex (some 0) 4 s
      if isLowSurrogate m then
        return (Char.ofNat (0x10000 + (n - 0xD800) * 0x400 + (m - 0xDC00)), s)
      else throw .malformed
  else
    match shortEscape? c with
    | some c => return (c, s)
    | none => throw .malformed

/-- Reads a string after its opening quote. -/
def readString (strict : Bool) (s : Source) : Except ReadError (List Char × Source) :=
  go s.rest [] s
where
  /-- Reads onto the characters before, which stand in reverse. Each step takes at least one
  character, so there are no more steps than characters in the first text, and after the
  last of them the string has not ended. -/
  go : List Char → List Char → Source → Except ReadError (List Char × Source)
    | [], _, s => .error s.atEnd
    | _ :: turns, front, s => do
      let (c, s) ← s.next
      if c = '"' then return (front.reverse, s)
      else if c = '\\' then
        let (c, s) ← readEscape strict s
        go turns (c :: front) s
      else if c < ' ' then throw .malformed
      else go turns (c :: front) s

/-! ### Numbers -/

/-- A number as far as settings can tell. -/
inductive Number where
  /-- An integer of at most 64 bits, signed or not. -/
  | integer (n : Int)
  /-- Any other number. -/
  | real
deriving DecidableEq, Repr

/-- A natural number rounded to 53 significant bits, a half going to the even neighbour. -/
def roundTo53 (n : Nat) : Nat :=
  let excess := n.log2 + 1 - 53
  let unit := 1 <<< excess
  let q := n / unit
  let r := n % unit
  let up := unit < 2 * r || (2 * r = unit && q % 2 = 1)
  (if up then q + 1 else q) * unit

/-- Whether a significand with a decimal exponent stays within the range of a double. -/
def inRange (significand : Nat) (exponent : Int) : Bool :=
  if significand = 0 || exponent < 0 then true
  else if 308 < exponent then false
  else roundTo53 (roundTo53 significand * roundTo53 (Nat.pow 10 exponent.toNat)) < 1 <<< 1024

/-- A number that is no integer, if it is in range. -/
def realOf (significand : Nat) (exponent : Int) (s : Source) :
    Except ReadError (Number × Source) :=
  if inRange significand exponent then .ok (.real, s) else .error .malformed

/-- The digits in front of a text, and what follows them. -/
def Source.digits (s : Source) : List Char × Source :=
  (s.rest.takeWhile Char.isDigit, { s with rest := s.rest.dropWhile Char.isDigit })

/-- The number of values of the 64 bits of a significand. -/
def significandLimit : Nat := 0x10000000000000000

/-- Reads digits onto a significand until it would leave 64 bits. What is returned is the
significand and the digits that were not used. -/
def accumulate (significand : Nat) : List Char → Nat × List Char
  | [] => (significand, [])
  | c :: cs =>
    let longer := significand * 10 + (c.toNat - '0'.toNat)
    if longer < significandLimit then accumulate longer cs else (significand, c :: cs)

/-- The greatest exponent that is written out. -/
def maxExponent : Nat := 0x7FFFFFFF

/-- Reads an exponent after its letter, for a significand that is already scaled by
`scale`. -/
def readExponent (significand : Nat) (scale : Int) (s : Source) :
    Except ReadError (Number × Source) := do
  let sign ← s.peek
  let (positive, s) :=
    if sign = some '+' then (true, s.drop)
    else if sign = some '-' then (false, s.drop)
    else (true, s)
  let (c, _) ← s.next
  if !c.isDigit then throw .malformed
  let (ds, s) := s.digits
  let exponent := ds.foldl (fun n c => n * 10 + (c.toNat - '0'.toNat)) 0
  if maxExponent < exponent then
    if significand ≠ 0 && positive then throw .malformed
    let _ ← s.peek
    return (.real, s)
  let _ ← s.peek
  realOf significand (if positive then scale + exponent else scale - exponent) s

/-- Reads a fraction after its point, for a significand that is already scaled. -/
def readFraction (significand : Nat) (scale : Int) (s : Source) :
    Except ReadError (Number × Source) := do
  let (ds, s) := s.digits
  let (significand, unused) := accumulate significand ds
  -- a point without a digit behind it breaks off or is followed by something else
  if ds.isEmpty then
    match ← s.peek with
    | some _ => throw .malformed
    | none => throw .incomplete
  let scale := scale - (ds.length - unused.length : Nat)
  let c ← s.peek
  if c = some 'e' || c = some 'E' then readExponent significand scale s.drop
  else realOf significand scale s

/-- Reads the part of a number after its sign. -/
def readNumber (positive : Bool) (s : Source) : Except ReadError (Number × Source) := do
  let (c, _) ← s.next
  if !c.isDigit then throw .malformed
  let (ds, after) := s.digits
  let (ds, s) ← if c = '0' then
      match ← s.drop.peek with
      | some d => if d.isDigit then throw .malformed else pure (['0'], after)
      | none => pure (['0'], after)
    else pure (ds, after)
  let (significand, unused) := accumulate 0 ds
  let scale : Int := unused.length
  let c ← s.peek
  if c = some '.' then readFraction significand scale s.drop
  else if c = some 'e' || c = some 'E' then readExponent significand scale s.drop
  else if !unused.isEmpty then realOf significand scale s
  else if positive then return (.integer significand, s)
  -- minus zero is no integer, and neither is what lies below the least of 64 bits
  else if significand = 0 || 0x8000000000000000 < significand then return (.real, s)
  else return (.integer (-significand), s)

/-! ### Passing over a value -/

/-- Passes over digits, of which there has to be one. -/
def skipDigits (s : Source) : Except ReadError Source := do
  let (ds, s) := s.digits
  let _ ← s.peek
  if ds.isEmpty then throw .malformed else return s

/-- Passes over an exponent after its letter. -/
def skipExponent (s : Source) : Except ReadError Source := do
  let c ← s.peek
  skipDigits (if c = some '+' || c = some '-' then s.drop else s)

/-- Passes over the part of a number after its sign. -/
def skipNumber (s : Source) : Except ReadError Source := do
  let zero := (← s.peek) = some '0'
  let s ← if zero then do
      let d ← s.drop.peek
      if d.any Char.isDigit then throw .malformed else pure s.drop
    else skipDigits s
  let c ← s.peek
  if c = some '.' then
    let s ← skipDigits s.drop
    let c ← s.peek
    if c = some 'e' || c = some 'E' then skipExponent s.drop else return s
  else if c = some 'e' || c = some 'E' then skipExponent s.drop
  else return s

/-- What a value is nested in. -/
inductive Frame where
  /-- An array. -/
  | array
  /-- An object. -/
  | object
deriving DecidableEq, Repr

/-- The character that closes a frame. -/
def Frame.close : Frame → Char
  | array => ']'
  | object => '\x7d'

/-- Passes over the name of a member and its colon. -/
def skipName (s : Source) : Except ReadError Source := do
  let (c, s) ← s.skipBlanks.next
  if c ≠ '"' then throw .malformed
  let (_, s) ← readString false s
  let (c, s) ← s.skipBlanks.next
  if c ≠ ':' then throw .malformed
  return s

/-- What has to come next in a value that is passed over. -/
inductive Expected where
  /-- A value. -/
  | value
  /-- The first member of the innermost frame, or its end. -/
  | first
  /-- A comma, or the end of the innermost frame. -/
  | more

/-- Passes over what is left of a value inside the given frames, the innermost first, in at
most `n` steps. -/
def skipWithin : (n : Nat) → List Frame → Expected → Source → Except ReadError Source
  | 0, _, _, s => .error s.atEnd
  | n + 1, frames, .value, s => do
    let (c, s) ← s.skipBlanks.next
    if c = 'n' then skipWithin n frames .more (← s.word ['u', 'l', 'l'])
    else if c = 't' then skipWithin n frames .more (← s.word ['r', 'u', 'e'])
    else if c = 'f' then skipWithin n frames .more (← s.word ['a', 'l', 's', 'e'])
    else if c = '-' then skipWithin n frames .more (← skipNumber s)
    else if c.isDigit then
      skipWithin n frames .more (← skipNumber { s with rest := c :: s.rest })
    else if c = '"' then do
      let (_, s) ← readString false s
      skipWithin n frames .more s
    else if c = '[' then skipWithin n (.array :: frames) .first s
    else if c = '\x7b' then skipWithin n (.object :: frames) .first s
    else throw .malformed
  | _ + 1, [], _, s => .ok s
  | n + 1, frame :: frames, .first, s => do
    let (c, after) ← s.skipBlanks.next
    if c = frame.close then skipWithin n frames .more after
    else
      match frame with
      | .array => skipWithin n (frame :: frames) .value s
      | .object => skipWithin n (frame :: frames) .value (← skipName s)
  | n + 1, frame :: frames, .more, s => do
    let (c, s) ← s.skipBlanks.next
    if c = frame.close then skipWithin n frames .more s
    else if c ≠ ',' then throw .malformed
    else
      match frame with
      | .array => skipWithin n (frame :: frames) .value s
      | .object => skipWithin n (frame :: frames) .value (← skipName s)

/-- Passes over a value. -/
def skipValue (s : Source) : Except ReadError Source :=
  skipWithin (2 * s.rest.length + 2) [] .value s

end Json

end UnrolledList
