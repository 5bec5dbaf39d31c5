/-!
# Scalars

The numbers a basis is factored over: the four operations, an order and a magnitude. Nothing here
assumes a law, so that binary floating point (`Float`, `Float32`) and exact rationals (`Rat`) run
through the same definitions; a statement that needs a field says so.

`Scalar.same` is equality as the order sees it, and `Scalar.isZero` the test for zero: under IEEE
rules both zeros are zero and a NaN equals nothing.
-/

namespace BasisLU

/-- Numbers with the operations of elimination, and what the parameters need to know of them. -/
class Scalar (α : Type) extends Zero α, One α, Neg α, Sub α, Mul α, Div α, LT α, LE α where
  /-- The strict order can be decided. -/
  decLT (a b : α) : Decidable (a < b)
  /-- The order can be decided. -/
  decLE (a b : α) : Decidable (a ≤ b)
  /-- The absolute value. -/
  magnitude : α → α
  /-- One tenth, as near as the scalars have it. -/
  tenth : α
  /-- The zero tolerance of the default parameters. -/
  defaultTolerance : α
  /-- Bytes that one stored value takes. -/
  bytes : Nat
  /-- The value shown in diagnostics. -/
  toFloat : α → Float

namespace Scalar

variable {α : Type} [Scalar α]

instance (a b : α) : Decidable (a < b) := decLT a b

instance (a b : α) : Decidable (a ≤ b) := decLE a b

/-- Equality as the order sees it. -/
def same (a b : α) : Bool := a ≤ b && b ≤ a

/-- The test for zero. -/
def isZero (a : α) : Bool := same a 0

end Scalar

/-- Double precision. -/
instance : Scalar Float where
  zero := 0
  one := 1
  decLT _ _ := inferInstance
  decLE _ _ := inferInstance
  magnitude := Float.abs
  tenth := 0.1
  defaultTolerance := 1e-13
  bytes := 8
  toFloat a := a

/-- Single precision. -/
instance : Scalar Float32 where
  zero := 0
  one := 1
  decLT _ _ := inferInstance
  decLE _ _ := inferInstance
  magnitude := Float32.abs
  tenth := 0.1
  defaultTolerance := 1e-6
  bytes := 4
  toFloat := Float32.toFloat

/-- Exact arithmetic. -/
instance : Scalar Rat where
  zero := 0
  one := 1
  decLT _ _ := inferInstance
  decLE _ _ := inferInstance
  magnitude a := if a < 0 then -a else a
  tenth := 1 / 10
  defaultTolerance := 1 / 10000000000000
  bytes := 8
  toFloat a := Float.ofInt a.num / Float.ofNat a.den

end BasisLU
