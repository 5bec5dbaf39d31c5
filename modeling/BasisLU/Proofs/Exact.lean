import Mathlib.Algebra.Field.Rat
import Mathlib.Algebra.Order.Field.Basic
import Mathlib.Algebra.Order.Ring.Rat
import Mathlib.Tactic.NormNum
import BasisLU.Config

/-!
# Exact scalars

Scalars that are an ordered field: every operation is exact, the magnitude is the absolute value
(`magnitude_eq_abs`), and a number is zero to the code if it is zero (`isZero_iff`). The rationals
are such scalars.
-/

namespace BasisLU

/-- Scalars that are an ordered field, with the constants of the parameters at their exact
values. -/
class ExactScalar (α : Type) extends Field α, LinearOrder α, IsStrictOrderedRing α, Scalar α where
  magnitude_eq_abs (a : α) : Scalar.magnitude a = |a|
  tenth_eq : (Scalar.tenth : α) = 1 / 10
  defaultTolerance_eq : (Scalar.defaultTolerance : α) = 1 / 10 ^ 13

instance : ExactScalar Rat where
  __ := (inferInstance : Field Rat)
  __ := (inferInstance : LinearOrder Rat)
  __ := (inferInstance : IsStrictOrderedRing Rat)
  __ := (inferInstance : Scalar Rat)
  magnitude_eq_abs a := by
    show (if a < 0 then -a else a) = |a|
    split
    · exact (abs_of_neg ‹_›).symm
    · exact (abs_of_nonneg (not_lt.1 ‹_›)).symm
  tenth_eq := rfl
  defaultTolerance_eq := rfl

namespace Scalar

variable {α : Type} [ExactScalar α]

@[simp] theorem magnitude_eq_abs (a : α) : magnitude a = |a| := ExactScalar.magnitude_eq_abs a

theorem same_iff {a b : α} : same a b = true ↔ a = b := by
  rw [same, Bool.and_eq_true, decide_eq_true_iff, decide_eq_true_iff, le_antisymm_iff]

theorem isZero_iff {a : α} : isZero a = true ↔ a = 0 := same_iff

end Scalar

namespace Config

variable {α : Type} [ExactScalar α]

/-- A slack diagonal is `1` or `-1`. -/
theorem isSlack_iff {a : α} : IsSlack a ↔ a = 1 ∨ a = -1 := by
  rw [IsSlack, Scalar.same_iff, Scalar.magnitude_eq_abs, abs_eq zero_le_one]

/-- A zero tolerance is less than a slack diagonal. -/
theorem IsZeroTolerance.lt_one {a : α} (h : IsZeroTolerance a) : a < 1 :=
  calc a < Scalar.tenth := h.2
    _ = 1 / 10 := ExactScalar.tenth_eq
    _ < 1 := by norm_num

end Config

end BasisLU
