import ResourceTree.Bytes

/-!
# Scanning — source octets, one at a time

A scan step takes octets from the front of what is left and counts them. A problem is reported
either at the octets taken so far, or one octet further, at the one that is looked at.

* `Problem`, `Problem.message`; `Fault`: a problem and where it is;
* `Cursor`, `Scan`;
* `next?`, `peek?`, `skip`, `failHere`, `failAhead`, `skipBlanks`.
-/

namespace ResourceTree.Json

/-- What can be wrong with source text. -/
inductive Problem where
  | endInValue
  | endInList
  | endInObject
  | endInString
  | expectedIdent
  | expectedValue
  | expectedListEnd
  | expectedObjectEnd
  | expectedColon
  | keyNotString
  | trailingComma
  | trailingCharacters
  | recursionLimit
  | controlCharacter
  | invalidEscape
  | unexpectedEscapeEnd
  | loneSurrogate
  | invalidNumber
  | numberOutOfRange
deriving DecidableEq, Repr

def Problem.message : Problem → String
  | endInValue => "EOF while parsing a value"
  | endInList => "EOF while parsing a list"
  | endInObject => "EOF while parsing an object"
  | endInString => "EOF while parsing a string"
  | expectedIdent => "expected ident"
  | expectedValue => "expected value"
  | expectedListEnd => "expected `,` or `]`"
  | expectedObjectEnd => "expected `,` or `\x7d`"
  | expectedColon => "expected `:`"
  | keyNotString => "key must be a string"
  | trailingComma => "trailing comma"
  | trailingCharacters => "trailing characters"
  | recursionLimit => "recursion limit exceeded"
  | controlCharacter => "control character (\\u0000-\\u001F) found while parsing a string"
  | invalidEscape => "invalid escape"
  | unexpectedEscapeEnd => "unexpected end of hex escape"
  | loneSurrogate => "lone leading surrogate in hex escape"
  | invalidNumber => "invalid number"
  | numberOutOfRange => "number out of range"

/-- A problem, and how many octets lead up to it. -/
structure Fault where
  problem : Problem
  index : Nat
deriving DecidableEq, Repr

/-- The octets left, and how many were taken. -/
structure Cursor where
  taken : Nat
  rest : Bytes

abbrev Scan := StateT Cursor (Except Fault)

/-- Reports a problem at the octets taken so far. -/
def failHere {α : Type} (problem : Problem) : Scan α := fun c => .error ⟨problem, c.taken⟩

/-- Reports a problem at the octet looked at. -/
def failAhead {α : Type} (problem : Problem) : Scan α := fun c =>
  .error ⟨problem, if c.rest.isEmpty then c.taken else c.taken + 1⟩

/-- The octet looked at. -/
def peek? : Scan (Option UInt8) := fun c => .ok (c.rest.head?, c)

/-- Takes an octet. -/
def next? : Scan (Option UInt8) := fun c =>
  match c.rest with
  | [] => .ok (none, c)
  | b :: rest => .ok (some b, ⟨c.taken + 1, rest⟩)

/-- Takes an octet that is known to be there. -/
def skip : Scan Unit := do discard next?

/-- How many octets are left. -/
def remaining : Scan Nat := fun c => .ok (c.rest.length, c)

/-- Takes every octet from the front that has a property. -/
def takeWhile (p : UInt8 → Bool) : Scan Bytes := fun c =>
  let run := c.rest.takeWhile p
  .ok (run, ⟨c.taken + run.length, c.rest.dropWhile p⟩)

/-- Space, line feed, tab and carriage return. -/
def isBlank (b : UInt8) : Bool := b = 0x20 || b = 0x0a || b = 0x09 || b = 0x0d

def skipBlanks : Scan Unit := do discard (takeWhile isBlank)

def isDigit (b : UInt8) : Bool := 0x30 ≤ b && b ≤ 0x39

/-- The octet of an ASCII character. -/
def octet (c : Char) : UInt8 := c.toUInt8

end ResourceTree.Json
