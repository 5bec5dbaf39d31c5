import BasisLU.Refusal
import BasisLU.Scalar

/-!
# Parameters

The tunable parameters of a factorization, their defaults and their admissible ranges. A value that
compares with nothing is in no range.
-/

namespace BasisLU

/-- The parameters of a factorization. -/
structure Config (α : Type) where
  /-- Entries at or below this magnitude never become pivots and are dropped from solutions. -/
  zeroTolerance : α
  /-- The least pivot, relative to its column, that the caller asks for; kept for the caller. -/
  pivotTolerance : α
  /-- The diagonal of a slack column, `1` or `-1`. -/
  slack : α
  /-- Updates that fit before the basis has to be factored again. -/
  chainCapacity : Nat
  /-- Updates between two progress reports; `0` for none. -/
  reportInterval : Nat

namespace Config

variable {α : Type} [Scalar α]

/-- The default parameters. -/
def initial : Config α where
  zeroTolerance := Scalar.defaultTolerance
  pivotTolerance := Scalar.tenth
  slack := -1
  chainCapacity := 200
  reportInterval := 0

instance : Inhabited (Config α) := ⟨initial⟩

/-- `1` for a value of at least zero, `-1` for any other. -/
def slackSign (value : α) : α := if 0 ≤ value then 1 else -1

/-- The parameters with the slack diagonal that `value` selects. -/
def withSlack (c : Config α) (value : α) : Config α := { c with slack := slackSign value }

/-- A zero tolerance lies strictly between zero and one tenth. -/
abbrev IsZeroTolerance (value : α) : Prop := 0 < value ∧ value < Scalar.tenth

/-- A pivot tolerance is above zero and at most one. -/
abbrev IsPivotTolerance (value : α) : Prop := 0 < value ∧ value ≤ 1

/-- A slack diagonal has magnitude one. -/
abbrev IsSlack (value : α) : Prop := Scalar.same (Scalar.magnitude value) 1 = true

/-- Refuses a value that is not in the range of the parameter `name`. -/
def require (name : String) (inRange : Prop) [Decidable inRange] (value : α) :
    Except Refusal Unit :=
  if inRange then .ok () else .error (.parameterOutOfRange name (Scalar.toFloat value))

/-- Refuses what is no zero tolerance. -/
def requireZeroTolerance (value : α) : Except Refusal Unit :=
  require "zero tolerance" (IsZeroTolerance value) value

/-- Refuses what is no pivot tolerance. -/
def requirePivotTolerance (value : α) : Except Refusal Unit :=
  require "pivot tolerance" (IsPivotTolerance value) value

/-- Refuses what is no slack diagonal. -/
def requireSlack (value : α) : Except Refusal Unit :=
  require "slack value" (IsSlack value) value

/-- Refuses the first parameter out of its range, in the order of the fields. -/
def check (c : Config α) : Except Refusal Unit := do
  requireZeroTolerance c.zeroTolerance
  requirePivotTolerance c.pivotTolerance
  requireSlack c.slack

theorem require_eq_ok_iff {name : String} {inRange : Prop} [Decidable inRange] {value : α}
    {u : Unit} : require name inRange value = .ok u ↔ inRange := by
  unfold require
  split <;> simp [*]

/-- Parameters pass the check exactly if each is in its range. -/
theorem check_eq_ok_iff {c : Config α} :
    c.check = .ok () ↔
      IsZeroTolerance c.zeroTolerance ∧ IsPivotTolerance c.pivotTolerance ∧ IsSlack c.slack := by
  simp only [check, bind_eq_ok_iff, requireZeroTolerance, requirePivotTolerance, requireSlack,
    require_eq_ok_iff, exists_and_left, exists_const]

/-- Equality of parameters, with values compared as numbers. -/
def same (c d : Config α) : Bool :=
  Scalar.same c.zeroTolerance d.zeroTolerance && Scalar.same c.pivotTolerance d.pivotTolerance &&
    Scalar.same c.slack d.slack && c.chainCapacity == d.chainCapacity &&
    c.reportInterval == d.reportInterval

end Config

end BasisLU
