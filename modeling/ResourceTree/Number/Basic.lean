/-!
# Numbers — binary64 data, exact in their bits

A number is a 64-bit datum in the binary64 interchange format. Two numbers are the same when
their bits are, so the signs of zeros and the payloads of NaNs are kept.

* `Number`, `isNaN`, `isInfinite`, `isZero`;
* a finite number is `± significand · 2 ^ exponent` (`significand`, `exponent`);
* **`ofRatio`**: the number nearest to a quotient of naturals, ties to the even significand;
* arithmetic through it: `add`, `mul`, `div`, `ofNat`.
-/

namespace ResourceTree

/-- A binary64 datum. -/
structure Number where
  bits : UInt64
deriving DecidableEq, Inhabited

namespace Number

/-! ## The three fields -/

/-- The sign bit. -/
def negative (x : Number) : Bool := Nat.pow 2 63 ≤ x.bits.toNat

/-- The eleven bits of the exponent field. -/
def exponentField (x : Number) : Nat := x.bits.toNat / Nat.pow 2 52 % 2048

/-- The fifty-two bits of the fraction field. -/
def fractionField (x : Number) : Nat := x.bits.toNat % Nat.pow 2 52

/-- The datum with the given sign and the given sixty-three low bits. -/
def ofMagnitude (negative : Bool) (low : Nat) : Number :=
  ⟨UInt64.ofNat ((if negative then Nat.pow 2 63 else 0) + low)⟩

def isNaN (x : Number) : Bool := x.exponentField = 2047 && x.fractionField ≠ 0

def isInfinite (x : Number) : Bool := x.exponentField = 2047 && x.fractionField = 0

def isFinite (x : Number) : Bool := x.exponentField ≠ 2047

/-- Zero of either sign. -/
def isZero (x : Number) : Bool := x.bits.toNat % Nat.pow 2 63 = 0

/-- The integer significand of a finite number. -/
def significand (x : Number) : Nat :=
  if x.exponentField = 0 then x.fractionField else x.fractionField + Nat.pow 2 52

/-- The power of two that scales the significand of a finite number. -/
def exponent (x : Number) : Int :=
  if x.exponentField = 0 then -1074 else (x.exponentField : Int) - 1075

def zero : Number := ⟨0⟩

def negZero : Number := ⟨0x8000000000000000⟩

def infinity (negative : Bool) : Number := ofMagnitude negative (2047 * Nat.pow 2 52)

/-- The NaN that text stands for. -/
def nan : Number := ⟨0x7ff8000000000000⟩

/-- The NaN that an invalid operation gives: its sign bit is set. -/
def invalid : Number := ⟨0xfff8000000000000⟩

/-- The NaN with its quiet bit set; its sign and payload stay. -/
def quiet (x : Number) : Number := ⟨x.bits ||| 0x0008000000000000⟩

/-- The number with the other sign; a NaN changes its sign too. -/
def neg (x : Number) : Number := ⟨x.bits ^^^ 0x8000000000000000⟩

/-! ## Rounding -/

/-- `num / den` rounded to the nearest natural, ties to even. -/
def roundDiv (num den : Nat) : Nat :=
  let quotient := num / den
  let remainder := num % den
  if 2 * remainder < den then quotient
  else if den < 2 * remainder then quotient + 1
  else quotient + quotient % 2

/-- The exponent of the binade of `num / den`: the quotient over `2 ^ scaleOf num den` lies
below `2 ^ 53`, and at or above `2 ^ 52` unless the exponent is already the least one. -/
def scaleOf (num den : Nat) : Int :=
  let guess : Int := (num.log2 : Int) - den.log2 - 52
  let below := if 0 ≤ guess then num < den * Nat.pow 2 (guess.toNat + 52)
    else num * Nat.pow 2 (-guess).toNat < den * Nat.pow 2 52
  max (-1074) (if below then guess - 1 else guess)

/-- **The number nearest to `± num / den`**, ties to the even significand, infinite from the
overflow threshold on. The significand is laid over the exponent field, so that a carry out of it
moves to the next binade by itself. -/
def ofRatio (negative : Bool) (num den : Nat) : Number :=
  if num = 0 then ofMagnitude negative 0
  else
    let scale := scaleOf num den
    let m := if 0 ≤ scale then roundDiv num (den * Nat.pow 2 scale.toNat)
      else roundDiv (num * Nat.pow 2 (-scale).toNat) den
    ofMagnitude negative (min ((scale + 1074).toNat * Nat.pow 2 52 + m) (2047 * Nat.pow 2 52))

/-- The number nearest to `± m · 2 ^ e`. -/
def ofDyadic (negative : Bool) (m : Nat) (e : Int) : Number :=
  if 0 ≤ e then ofRatio negative (m * Nat.pow 2 e.toNat) 1
  else ofRatio negative m (Nat.pow 2 (-e).toNat)

def ofNat (n : Nat) : Number := ofRatio false n 1

/-! ## Arithmetic -/

/-- The first NaN among two operands, made quiet. -/
def propagate (x y : Number) : Option Number :=
  if x.isNaN then some x.quiet else if y.isNaN then some y.quiet else none

def mul (x y : Number) : Number :=
  match propagate x y with
  | some n => n
  | none =>
    let sign := x.negative != y.negative
    if x.isInfinite || y.isInfinite then
      if x.isZero || y.isZero then invalid else infinity sign
    else ofDyadic sign (x.significand * y.significand) (x.exponent + y.exponent)

def div (x y : Number) : Number :=
  match propagate x y with
  | some n => n
  | none =>
    let sign := x.negative != y.negative
    if x.isInfinite then if y.isInfinite then invalid else infinity sign
    else if y.isInfinite then ofMagnitude sign 0
    else if y.isZero then if x.isZero then invalid else infinity sign
    else
      let e := x.exponent - y.exponent
      if 0 ≤ e then ofRatio sign (x.significand * Nat.pow 2 e.toNat) y.significand
      else ofRatio sign x.significand (y.significand * Nat.pow 2 (-e).toNat)

/-- The signed significand of a finite number over a common, smaller exponent. -/
def signedOver (x : Number) (e : Int) : Int :=
  let m : Int := x.significand * Nat.pow 2 (x.exponent - e).toNat
  if x.negative then -m else m

/-- The sum; a sum that cancels is `+0`, and `-0` only when both operands are. -/
def add (x y : Number) : Number :=
  match propagate x y with
  | some n => n
  | none =>
    if x.isInfinite then if y.isInfinite && x.negative != y.negative then invalid else x
    else if y.isInfinite then y
    else
      let e := min x.exponent y.exponent
      let total := x.signedOver e + y.signedOver e
      if total = 0 then ofMagnitude (x.negative && y.negative) 0
      else ofDyadic (total < 0) total.natAbs e

/-- Whether the number is zero or below; a NaN is not. -/
def atMostZero (x : Number) : Bool := !x.isNaN && (x.negative || x.isZero)

/-- An integer that grows with the number. -/
def rank (x : Number) : Int :=
  let magnitude : Int := x.bits.toNat % Nat.pow 2 63
  if x.negative then -magnitude - 1 else magnitude

/-- The order of the numbers: `-0` comes before `0`, and NaNs lie beyond the infinities. -/
def order (x y : Number) : Ordering := compare x.rank y.rank

/-- Whether the number differs from zero; a NaN does. -/
def isNonzero (x : Number) : Bool := !x.isZero

/-- The integer that the number is, when it is one. -/
def toInt? (x : Number) : Option Int :=
  if x.isFinite then
    let magnitude? : Option Nat :=
      if 0 ≤ x.exponent then some (x.significand * Nat.pow 2 x.exponent.toNat)
      else
        let unit := Nat.pow 2 (-x.exponent).toNat
        if x.significand % unit = 0 then some (x.significand / unit) else none
    magnitude?.map fun m => if x.negative then -(m : Int) else m
  else none

end Number

end ResourceTree
