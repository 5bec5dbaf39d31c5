/-!
# Binary fractions

A double is zero, infinite, not a number, or `±m · 2 ^ q` with a whole `m`. `Binary.ofFloat` reads
these off its bits. `Binary.Rounds` is the interval of the rationals that round to such a
value: half a step on each side, except that below a power of two the steps are half as wide. An
end of the interval goes to the even neighbour.
-/

namespace BasisLU.Decimal

/-- A positive value `mantissa · 2 ^ exponent`, and whether the step below it is half as wide. -/
structure Binary where
  mantissa : Nat
  exponent : Int
  narrowBelow : Bool
  deriving DecidableEq, Repr

namespace Binary

/-- What a bit pattern stands for. -/
inductive Datum where
  | nan
  | infinite (negative : Bool)
  | zero (negative : Bool)
  | finite (negative : Bool) (value : Binary)
  deriving DecidableEq, Repr

/-- A double in its parts: one bit of sign, eleven of exponent, fifty-two of fraction. -/
def ofFloat (x : Float) : Datum :=
  let bits := x.toBits
  let negative := bits >>> 63 == 1
  let biased := (bits >>> 52 &&& 0x7ff).toNat
  let fraction := (bits &&& 0xfffffffffffff).toNat
  if biased = 2047 then
    if fraction = 0 then .infinite negative else .nan
  else if biased = 0 then
    if fraction = 0 then .zero negative else .finite negative ⟨fraction, -1074, false⟩
  else .finite negative ⟨0x10000000000000 + fraction, biased - 1075, fraction = 0 && 1 < biased⟩

/-- The value as a rational. -/
def toRat (b : Binary) : Rat := b.mantissa * 2 ^ b.exponent

/-- The least rational that may round to the value. -/
def low (b : Binary) : Rat :=
  (4 * b.mantissa - if b.narrowBelow then 1 else 2) * 2 ^ (b.exponent - 2)

/-- The greatest rational that may round to the value. -/
def high (b : Binary) : Rat :=
  (4 * b.mantissa + 2) * 2 ^ (b.exponent - 2)

/-- The rationals that round to the value. -/
def Rounds (b : Binary) (x : Rat) : Prop :=
  if b.mantissa % 2 = 0 then b.low ≤ x ∧ x ≤ b.high else b.low < x ∧ x < b.high

instance (b : Binary) (x : Rat) : Decidable (b.Rounds x) := by
  unfold Rounds; infer_instance

end Binary

end BasisLU.Decimal
