import ResourceTree.Number.Basic

/-!
# Shortest digits — the fewest decimal digits that read back

The reals that round to a finite number form an interval, its ends included exactly when the
significand is even. Grids of one, two, … seventeen decimal digits are tried in turn: the first
grid with a point in the interval wins, and of two such points the nearer one; an exact tie goes to
the upper point.

* `Interval`, `Number.interval`: the interval, over a common denominator;
* **`Number.shortest`**: the digits and the power of ten of the point chosen.
-/

namespace ResourceTree

namespace Number

/-- The reals that round to one positive number, as numerators over `den`. -/
structure Interval where
  low : Nat
  value : Nat
  high : Nat
  den : Nat
  closed : Bool

/-- Whether `point / Interval.den` rounds to the number. -/
def Interval.covers (i : Interval) (point : Nat) : Bool :=
  if i.closed then i.low ≤ point && point ≤ i.high else i.low < point && point < i.high

/-- The interval of a positive finite number. The lower end is nearer when the number is the least
of its binade. -/
def interval (x : Number) : Interval :=
  let m := x.significand
  let lower := if m = Nat.pow 2 52 && x.exponentField > 1 then 4 * m - 1 else 4 * m - 2
  let e := x.exponent - 2
  if 0 ≤ e then
    let s := Nat.pow 2 e.toNat
    ⟨lower * s, 4 * m * s, (4 * m + 2) * s, 1, m % 2 = 0⟩
  else ⟨lower, 4 * m, 4 * m + 2, Nat.pow 2 (-e).toNat, m % 2 = 0⟩

/-- The count of decimal digits of a natural. -/
def digitCount (n : Nat) : Nat := (Nat.toDigits 10 n).length

/-- The place of the leading digit of `num / den`: the quotient is below `10 ^ p` and at least
`10 ^ (p - 1)`. -/
def leadingPlace (num den : Nat) : Int :=
  let guess : Int := (digitCount num : Int) - digitCount den
  let below := if 0 ≤ guess then num < den * Nat.pow 10 guess.toNat
    else num * Nat.pow 10 (-guess).toNat < den
  if below then guess else guess + 1

/-- The point of the grid of spacing `10 ^ place` that stands for the interval, if one does: its
multiple of the spacing. -/
def Interval.onGrid (i : Interval) (place : Int) : Option Nat :=
  -- one unit of the grid, and the ends, over the same denominator
  let scaled := fun n : Nat => if 0 ≤ place then n else n * Nat.pow 10 (-place).toNat
  let unit := if 0 ≤ place then i.den * Nat.pow 10 place.toNat else i.den
  let j : Interval := ⟨scaled i.low, scaled i.value, scaled i.high, unit, i.closed⟩
  let down := j.value / unit
  let up := down + 1
  let downFits := 0 < down && j.covers (down * unit)
  let upFits := j.covers (up * unit)
  if downFits && upFits then
    if 2 * (j.value - down * unit) < unit then some down else some up
  else if downFits then some down
  else if upFits then some up
  else none

/-- The first grid that has a point, from `count` digits on, for `fuel` grids. -/
def Interval.firstGrid (i : Interval) (lead : Int) : Nat → Nat → Nat × Int
  | 0, _ => (i.value / i.den, 0)
  | fuel + 1, count =>
    match i.onGrid (lead - count) with
    | some point => (point, lead - count)
    | none => i.firstGrid lead fuel (count + 1)

/-- **The fewest digits that read back**: `|x|` is written `d · 10 ^ e`, and no decimal with fewer
digits rounds to it. -/
def shortest (x : Number) : Nat × Int :=
  let i := x.interval
  i.firstGrid (leadingPlace i.value i.den) 17 1

end Number

end ResourceTree
