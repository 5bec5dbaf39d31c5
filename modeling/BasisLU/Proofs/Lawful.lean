import BasisLU.Proofs.Exact
import BasisLU.Config

/-!
# Lawful scalars

What the code takes for granted of its scalars: zero passes the test for zero (`LawfulZero`), and
the constants of the parameters lie in their ranges. Nothing is said of what an operation returns,
so both floating-point formats are lawful, as exact scalars are. Then the default parameters pass
their own check (`check_initial`), and every slack that can be chosen is one (`isSlack_slackSign`).
-/

namespace BasisLU

/-- Scalars whose zero passes the test for zero. -/
class LawfulZero (α : Type) [Scalar α] : Prop where
  isZero_zero : Scalar.isZero (0 : α) = true

/-- Scalars with a zero and constants as the code needs them. -/
class LawfulScalar (α : Type) [Scalar α] : Prop extends LawfulZero α where
  isSlack_one : Config.IsSlack (1 : α)
  isSlack_neg_one : Config.IsSlack (-1 : α)
  isZeroTolerance_default : Config.IsZeroTolerance (Scalar.defaultTolerance : α)
  isPivotTolerance_tenth : Config.IsPivotTolerance (Scalar.tenth : α)

instance : LawfulScalar Float where
  isZero_zero := by decide +kernel
  isSlack_one := by decide +kernel
  isSlack_neg_one := by decide +kernel
  isZeroTolerance_default := by decide +kernel
  isPivotTolerance_tenth := by decide +kernel

instance : LawfulScalar Float32 where
  isZero_zero := by decide +kernel
  isSlack_one := by decide +kernel
  isSlack_neg_one := by decide +kernel
  isZeroTolerance_default := by decide +kernel
  isPivotTolerance_tenth := by decide +kernel

instance {α : Type} [ExactScalar α] : LawfulScalar α where
  isZero_zero := Scalar.isZero_iff.2 rfl
  isSlack_one := Config.isSlack_iff.2 (.inl rfl)
  isSlack_neg_one := Config.isSlack_iff.2 (.inr rfl)
  isZeroTolerance_default := by
    have hdefault : (Scalar.defaultTolerance : α) = 1 / 10 ^ 13 := ExactScalar.defaultTolerance_eq
    have htenth : (Scalar.tenth : α) = 1 / 10 := ExactScalar.tenth_eq
    rw [Config.IsZeroTolerance, hdefault, htenth]
    norm_num
  isPivotTolerance_tenth := by
    have htenth : (Scalar.tenth : α) = 1 / 10 := ExactScalar.tenth_eq
    rw [Config.IsPivotTolerance, htenth]
    norm_num

namespace Config

variable {α : Type} [Scalar α] [LawfulScalar α]

theorem isSlack_slackSign (value : α) : IsSlack (slackSign value) := by
  unfold slackSign
  split
  · exact LawfulScalar.isSlack_one
  · exact LawfulScalar.isSlack_neg_one

theorem check_initial : (initial : Config α).check = .ok () :=
  check_eq_ok_iff.2 ⟨LawfulScalar.isZeroTolerance_default, LawfulScalar.isPivotTolerance_tenth,
    LawfulScalar.isSlack_neg_one⟩

end Config

end BasisLU
