import ResourceTree.Number.Shortest

/-!
# Number text — how numbers are written and read

A number is written in positional form, never with an exponent, by its shortest digits; a whole
number below `10 ^ 15` in size is written as an integer, where `-0` is `0`.

Reading takes an optional sign, digits with an optional point and an optional exponent, or one of
the words `inf`, `infinity`, `nan` in any case. The decimal is rounded once.

* `Number.positional`, **`Number.text`**;
* `Numeral`, `Numeral.scan`, **`Number.ofText?`**.
-/

namespace ResourceTree

namespace Number

/-! ## Writing -/

/-- The digits of a natural without the zeros at their end, and how many zeros those were. -/
def dropZeros (digits : List Char) : List Char × Nat :=
  let zeros := digits.reverse.takeWhile (· == '0')
  (digits.take (digits.length - zeros.length), zeros.length)

/-- `d · 10 ^ e` in positional form. -/
def positional (d : Nat) (e : Int) : String :=
  let (digits, zeros) := dropZeros (Nat.toDigits 10 d)
  let e := e + zeros
  if 0 ≤ e then String.ofList (digits ++ List.replicate e.toNat '0')
  else
    let places := (-e).toNat
    if places < digits.length then
      let whole := digits.length - places
      String.ofList (digits.take whole ++ '.' :: digits.drop whole)
    else String.ofList ('0' :: '.' :: (List.replicate (places - digits.length) '0' ++ digits))

/-- The text with all its digits; a sign before every negative number but a NaN. -/
def fullText (x : Number) : String :=
  if x.isNaN then "NaN"
  else
    let size := if x.isInfinite then "inf" else if x.isZero then "0" else
      positional x.shortest.1 x.shortest.2
    if x.negative then "-" ++ size else size

/-- **The text of a number.** -/
def text (x : Number) : String :=
  match x.toInt? with
  | some i => if i.natAbs < Nat.pow 10 15 then toString i else x.fullText
  | none => x.fullText

/-! ## Reading -/

/-- A decimal numeral: `digits · 10 ^ exponent`. -/
structure Numeral where
  digits : Nat
  exponent : Int
deriving DecidableEq

/-- The value of a run of decimal digits. -/
def digitsValue (cs : List Char) : Nat := cs.foldl (fun n c => 10 * n + (c.toNat - 48)) 0

/-- A signed run of at least one digit. -/
def signedDigits? (cs : List Char) : Option Int :=
  let (negative, ds) := match cs with
    | '-' :: r => (true, r)
    | '+' :: r => (false, r)
    | r => (false, r)
  if ds.isEmpty || !ds.all Char.isDigit then none
  else some (if negative then -(digitsValue ds : Int) else digitsValue ds)

/-- Reads digits with an optional point and an optional exponent. -/
def Numeral.scan (cs : List Char) : Option Numeral :=
  let whole := cs.takeWhile Char.isDigit
  let rest := cs.dropWhile Char.isDigit
  let (fraction, rest) := match rest with
    | '.' :: r => (r.takeWhile Char.isDigit, r.dropWhile Char.isDigit)
    | r => ([], r)
  if whole.isEmpty && fraction.isEmpty then none
  else
    let numeral := fun e : Int => Numeral.mk (digitsValue (whole ++ fraction)) (e - fraction.length)
    match rest with
    | [] => some (numeral 0)
    | c :: r => if c = 'e' || c = 'E' then (signedDigits? r).map numeral else none

/-- The number nearest to a numeral. Beyond the range of exponents the outcome is zero or infinite
whatever the digits are. -/
def Numeral.round (n : Numeral) (negative : Bool) : Number :=
  let lead := (digitCount n.digits : Int) + n.exponent
  if n.digits = 0 || lead < -400 then ofMagnitude negative 0
  else if 400 < lead then infinity negative
  else if 0 ≤ n.exponent then ofRatio negative (n.digits * Nat.pow 10 n.exponent.toNat) 1
  else ofRatio negative n.digits (Nat.pow 10 (-n.exponent).toNat)

/-- **The number that a text stands for.** -/
def ofText? (s : String) : Option Number :=
  let (negative, cs) := match s.toList with
    | '-' :: r => (true, r)
    | '+' :: r => (false, r)
    | r => (false, r)
  let word := String.ofList (cs.map Char.toLower)
  if word = "inf" || word = "infinity" then some (infinity negative)
  else if word = "nan" then some (if negative then nan.neg else nan)
  else (Numeral.scan cs).map (·.round negative)

end Number

end ResourceTree
