import BasisLU.Capacity
import BasisLU.Config

/-!
# Parameters from a document

Parameters are read from a record with one field for each, or from a list of their values in the
order of the fields. Unknown fields are passed over, and the report interval alone may be left out.
Nothing is checked beyond the kind of each value: `Config.check` does that.
-/

namespace BasisLU

/-- A document: text, numbers, lists and records. Whole numbers are kept apart from others. -/
inductive Document where
  | null
  | bool (value : Bool)
  | whole (value : Int)
  | real (value : Float)
  | text (value : String)
  | list (items : List Document)
  | record (fields : List (String × Document))
  deriving Inhabited

/-- Scalars that a document can hold. -/
class FromNumber (α : Type) where
  /-- The nearest scalar to a whole number. -/
  ofWhole : Int → α
  /-- The nearest scalar to a double. -/
  ofReal : Float → α

instance : FromNumber Float := ⟨Float.ofInt, id⟩

instance : FromNumber Float32 := ⟨Float32.ofInt, Float.toFloat32⟩

namespace Document

/-- A number as a scalar. -/
def scalar? {α : Type} [FromNumber α] : Document → Option α
  | whole n => some (FromNumber.ofWhole n)
  | real x => some (FromNumber.ofReal x)
  | _ => none

/-- A whole number that is a size. -/
def count? : Document → Option Nat
  | whole n => if 0 ≤ n ∧ n < wordSize then some n.toNat else none
  | _ => none

end Document

namespace Config

variable {α : Type} [FromNumber α]

/-- Parameters from the values of their fields. -/
def ofValues? (zero pivot slack pivots interval : Document) : Option (Config α) := do
  return {
    zeroTolerance := ← zero.scalar?
    pivotTolerance := ← pivot.scalar?
    slack := ← slack.scalar?
    chainCapacity := ← pivots.count?
    reportInterval := ← interval.count? }

/-- Parameters from a document; of two fields of one name the later counts. -/
def ofDocument? : Document → Option (Config α)
  | .record fields => do
    let field (name : String) := List.lookup name fields.reverse
    ofValues? (← field "zero_tolerance") (← field "pivot_tolerance") (← field "slack_value")
      (← field "maximum_pivots") ((field "log_interval").getD (.whole 0))
  | .list [zero, pivot, slack, pivots] => ofValues? zero pivot slack pivots (.whole 0)
  | .list [zero, pivot, slack, pivots, interval] => ofValues? zero pivot slack pivots interval
  | _ => none

end Config

end BasisLU
