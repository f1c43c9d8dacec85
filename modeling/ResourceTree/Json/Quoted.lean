import ResourceTree.Json.Scan

/-!
# Quoted text — strings in source text

Octets stand for themselves up to the closing quote. A backslash begins an escape: one of eight
letters, or four hexadecimal digits, where a leading surrogate has to be followed by the escape of
a trailing one.

* `hexUnit`, `unicodeEscape`, `escape`;
* **`quotedTail`**: a string behind its opening quote.
-/

namespace ResourceTree.Json

/-- The value of a hexadecimal digit. -/
def hexValue? (b : UInt8) : Option Nat :=
  if isDigit b then some (b.toNat - 48)
  else if octet 'a' ≤ b && b ≤ octet 'f' then some (b.toNat - 87)
  else if octet 'A' ≤ b && b ≤ octet 'F' then some (b.toNat - 55)
  else none

/-- Takes the next `n` octets, or all that are left when there are fewer. -/
def takeUpTo (n : Nat) : Scan Bytes := fun c =>
  let first := c.rest.take n
  .ok (first, ⟨c.taken + first.length, c.rest.drop n⟩)

/-- Four hexadecimal digits as a code unit. -/
def hexUnit : Scan Nat := do
  let digits ← takeUpTo 4
  if digits.length < 4 then failHere .endInString
  else
    match digits.mapM hexValue? with
    | some values => return values.foldl (fun n v => 16 * n + v) 0
    | none => failHere .invalidEscape

def isLeading (unit : Nat) : Bool := 0xd800 ≤ unit && unit ≤ 0xdbff

def isTrailing (unit : Nat) : Bool := 0xdc00 ≤ unit && unit ≤ 0xdfff

/-- Takes an octet that has to follow inside a pair of surrogates. -/
def expectInPair (wanted : Char) : Scan Unit := do
  match ← next? with
  | none => failHere .endInString
  | some b => if b = octet wanted then return () else failHere .unexpectedEscapeEnd

/-- The character of an escape, behind its `u`. -/
def unicodeEscape : Scan Char := do
  let unit ← hexUnit
  if isTrailing unit then failHere .loneSurrogate
  else if isLeading unit then do
    expectInPair '\\'
    expectInPair 'u'
    let low ← hexUnit
    if isTrailing low then
      return Char.ofNat (0x10000 + (unit - 0xd800) * 0x400 + (low - 0xdc00))
    else failHere .loneSurrogate
  else return Char.ofNat unit

/-- The character of an escape, behind its backslash. -/
def escape : Scan Char := do
  match ← next? with
  | none => failHere .endInString
  | some b =>
    if b = octet '"' || b = octet '\\' || b = octet '/' then return Char.ofNat b.toNat
    else if b = octet 'b' then return '\x08'
    else if b = octet 'f' then return '\x0c'
    else if b = octet 'n' then return '\n'
    else if b = octet 'r' then return '\r'
    else if b = octet 't' then return '\t'
    else if b = octet 'u' then unicodeEscape
    else failHere .invalidEscape

/-- Whether the octet stands for itself between quotes. -/
def isPlain (b : UInt8) : Bool := 0x20 ≤ b && b ≠ octet '"' && b ≠ octet '\\'

/-- Reads up to the closing quote; every round takes an octet, so as many as are left are enough.
The octets of the parts read so far come last part first. -/
def quotedParts : Nat → List Bytes → Scan Bytes
  | 0, _ => failHere .endInString
  | rounds + 1, parts => do
    let plain ← takeWhile isPlain
    let parts := plain :: parts
    match ← next? with
    | none => failHere .endInString
    | some b =>
      if b = octet '"' then return parts.reverse.flatten
      else if b = octet '\\' then do
        let c ← escape
        quotedParts rounds (Bytes.ofString c.toString :: parts)
      else failHere .controlCharacter

/-- **Reads a string behind its opening quote.** Source text is well formed, so the octets between
its quotes are text again. -/
def quotedTail : Scan String := do
  let bytes ← quotedParts ((← remaining) + 1) []
  return (bytes.toString?).getD ""

end ResourceTree.Json
