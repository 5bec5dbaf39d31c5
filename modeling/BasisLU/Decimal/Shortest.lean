import BasisLU.Decimal.Binary

/-!
# Decimals of a binary fraction

A positive decimal is `digits · 10 ^ exponent` (`Decimal`).

- `leadingExponent` is the exponent of the first significant digit of a rational;
- `shortest` has the fewest digits among the decimals that round back to a binary value, and of
  those the nearest to it, an exact tie going up;
- `rounded` has a fixed number of digits, an exact tie going to the even neighbour.
-/

namespace BasisLU

/-- The positive value `digits · 10 ^ exponent`. -/
structure Decimal where
  digits : Nat
  exponent : Int
  deriving DecidableEq, Repr

namespace Decimal

/-- How many digits a whole number is written with. -/
def digitCount (k : Nat) : Nat := (Nat.toDigits 10 k).length

/-- The value as a rational. -/
def toRat (d : Decimal) : Rat := d.digits * 10 ^ d.exponent

/-- The exponent `e` with `10 ^ e ≤ x < 10 ^ (e + 1)`, for positive `x`: a value below one needs as
many places as its reciprocal, less one unit, has digits. -/
def leadingExponent (x : Rat) : Int :=
  if 1 ≤ x then digitCount x.floor.toNat - 1
  else -digitCount (x⁻¹.ceil.toNat - 1)

/-- The last point at or below `x` of the grid with step `10 ^ e`. -/
def floorAt (e : Int) (x : Rat) : Decimal := ⟨(x / 10 ^ e).floor.toNat, e⟩

/-- The next point of the same grid. -/
def next (d : Decimal) : Decimal := ⟨d.digits + 1, d.exponent⟩

/-- The nearer of the two neighbours of `x`, and the upper one at an exact tie. -/
def nearerUp (x : Rat) (below : Decimal) : Decimal :=
  if x - below.toRat < below.next.toRat - x then below else below.next

/-- The neighbour of the value on a grid that rounds back to it, if there is one, and the nearer if
both do. -/
def onGrid? (b : Binary) (e : Int) : Option Decimal :=
  let below := floorAt e b.toRat
  if b.Rounds below.toRat then
    if b.Rounds below.next.toRat then some (nearerUp b.toRat below) else some below
  else if b.Rounds below.next.toRat then some below.next else none

/-- The same value without the zeros at the end of its digits; `fuel` bounds their number. -/
def strip : Nat → Decimal → Decimal
  | 0, d => d
  | fuel + 1, d =>
    if d.digits % 10 = 0 ∧ d.digits ≠ 0 then strip fuel ⟨d.digits / 10, d.exponent + 1⟩ else d

/-- The shortest decimal that rounds back to the value. Grids of one digit, two digits and so on
are tried in turn; seventeen digits tell any two doubles apart. -/
def shortest (b : Binary) : Decimal :=
  let e := leadingExponent b.toRat
  let found := (List.range 17).findSome? fun (places : Nat) => onGrid? b (e - places)
  strip 17 (found.getD (nearerUp b.toRat (floorAt (e - 16) b.toRat)))

/-- The nearest decimal with `places` digits after the first, and the even one at an exact tie. -/
def rounded (places : Nat) (x : Rat) : Decimal :=
  let below := floorAt (leadingExponent x - places) x
  let down := x - below.toRat
  let up := below.next.toRat - x
  if down < up ∨ (down = up ∧ below.digits % 2 = 0) then below else below.next

end Decimal

end BasisLU
