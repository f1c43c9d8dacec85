import ResourceTree.Json.Scan
import ResourceTree.Number.Basic

/-!
# Numerals — numbers in source text

Digits are gathered in a 64-bit significand as long as they fit. Of the digits that do not fit,
those before the point add one to the exponent each and those after it are dropped; a gathered digit
after the point takes one from the exponent. The significand is rounded to a number and then
multiplied or divided by one rounded power of ten, so the outcome is not always the number nearest
to the numeral.

* `powerOfTen`, **`scale`**: the number of a significand and an exponent;
* **`numeral`**: a numeral after its sign.
-/

namespace ResourceTree.Json

/-- The greatest power of ten that is a number. -/
def maxPower : Nat := 308

/-- The number nearest to `10 ^ n`. -/
def powerOfTen (n : Nat) : Number := Number.ofNat (Nat.pow 10 n)

/-- Multiplies or divides by a power of ten, by the greatest one while the exponent is out of its
reach; `none` when the outcome is infinite. From a 64-bit significand, two divisions by the greatest
power leave zero. -/
def scaleWithin : Nat → Number → Int → Option Number
  | 0, x, _ => some x
  | steps + 1, x, exponent =>
    if exponent.natAbs ≤ maxPower then
      if 0 ≤ exponent then
        let y := x.mul (powerOfTen exponent.natAbs)
        if y.isInfinite then none else some y
      else some (x.div (powerOfTen exponent.natAbs))
    else if x.isZero then some x
    else if 0 ≤ exponent then none
    else scaleWithin steps (x.div (powerOfTen maxPower)) (exponent + maxPower)

/-- **The number of a significand and a decimal exponent.** -/
def scale (significand : Nat) (exponent : Int) : Option Number :=
  scaleWithin 4 (Number.ofNat significand) exponent

/-- A significand has to stay below this. -/
def significandLimit : Nat := Nat.pow 2 64

/-- An exponent has to stay below this. -/
def exponentLimit : Nat := Nat.pow 2 31

def digitValue (b : UInt8) : Nat := b.toNat - 48

/-- Gathers digits in a significand as long as they fit: the significand, and the digits that are
left over. -/
def gather : Nat → Bytes → Nat × Bytes
  | significand, [] => (significand, [])
  | significand, b :: rest =>
    let longer := 10 * significand + digitValue b
    if longer < significandLimit then gather longer rest else (significand, b :: rest)

/-- The number with its sign. -/
def signed (negative : Bool) (x : Number) : Number := if negative then x.neg else x

/-- Ends a numeral that has a point or an exponent. -/
def finish (negative : Bool) (significand : Nat) (exponent : Int) : Scan Number :=
  match scale significand exponent with
  | some x => return signed negative x
  | none => failHere .numberOutOfRange

/-- Reads the digits of an exponent; `none` when they do not fit. It stops behind the digit that
does not fit. -/
def exponentDigits : Nat → (fuel : Nat) → Scan (Option Nat)
  | n, 0 => return some n
  | n, fuel + 1 => do
    match ← peek? with
    | some b =>
      if isDigit b then do
        skip
        let longer := 10 * n + digitValue b
        if longer < exponentLimit then exponentDigits longer fuel else return none
      else return some n
    | none => return some n

/-- Reads the exponent behind `e` and ends the numeral. -/
def exponentPart (negative : Bool) (significand : Nat) (start : Int) : Scan Number := do
  skip
  let down ← match ← peek? with
    | some b =>
      if b = octet '+' then do skip; pure false
      else if b = octet '-' then do skip; pure true
      else pure false
    | none => pure false
  match ← next? with
  | none => failHere .endInValue
  | some b =>
    if !isDigit b then failHere .invalidNumber
    else
      match ← exponentDigits (digitValue b) (← remaining) with
      | some n => finish negative significand (if down then start - n else start + n)
      | none =>
        if significand ≠ 0 && !down then failHere .numberOutOfRange
        else do
          discard (takeWhile isDigit)
          return signed negative Number.zero

/-- Whether the octet begins an exponent. -/
def beginsExponent (b : Option UInt8) : Bool := b = some (octet 'e') || b = some (octet 'E')

/-- Reads what may follow the digits of a numeral, and ends it. -/
def tailPart (negative : Bool) (significand : Nat) (exponent : Int) : Scan Number := do
  if beginsExponent (← peek?) then exponentPart negative significand exponent
  else finish negative significand exponent

/-- Reads the fraction behind the point, and ends the numeral. -/
def fractionPart (negative : Bool) (significand : Nat) (exponent : Int) : Scan Number := do
  skip
  let digits ← takeWhile isDigit
  if digits.isEmpty then
    match ← peek? with
    | some _ => failAhead .invalidNumber
    | none => failAhead .endInValue
  else
    let (significand, dropped) := gather significand digits
    tailPart negative significand (exponent - (digits.length - dropped.length : Nat))

/-- **Reads a numeral behind its sign.** -/
def numeral (negative : Bool) : Scan Number := do
  match ← next? with
  | none => failHere .endInValue
  | some b =>
    if !isDigit b then failHere .invalidNumber
    else
      let more ← if b = octet '0' then do
          match ← peek? with
          | some d => if isDigit d then failAhead .invalidNumber else pure []
          | none => pure []
        else takeWhile isDigit
      let (significand, dropped) := gather 0 (b :: more)
      let after ← peek?
      if after = some (octet '.') then fractionPart negative significand dropped.length
      else if dropped.isEmpty && !beginsExponent after then
        return signed negative (Number.ofNat significand)
      else tailPart negative significand dropped.length

end ResourceTree.Json
