import BasisLU.Decimal.Scientific
import BasisLU.Fault

/-!
# Refusals

A call is refused for what the numbers or the sizes turned out to be; the caller decides what to do
next. Each refusal has a text, an integer code, and an answer to whether factoring again helps.
-/

namespace BasisLU

/-- Why a call was refused. -/
inductive Refusal where
  | singular (good columns : Nat)
  | weakPivot (magnitude tolerance : Float)
  | chainFull (capacity : Nat)
  | tooLarge (rows capacity : Nat)
  | notSquare (rows columns : Nat)
  | lengthMismatch (expected got : Nat)
  | noSuchColumn (column columns : Nat)
  | malformed (column : Nat) (reason : String)
  | parameterOutOfRange (name : String) (value : Float)

namespace Refusal

/-- The refusal in words; values in shortest scientific notation. -/
def message : Refusal → String
  | singular good columns => s!"Basis is singular: {good} of {columns} columns could be pivoted"
  | weakPivot magnitude tolerance =>
    "Replacement pivot " ++ Decimal.scientific magnitude ++
      " is not above the zero tolerance " ++ Decimal.scientific tolerance
  | chainFull capacity => s!"No room for another update: {capacity} pivots already appended"
  | tooLarge rows capacity =>
    s!"Storage for {rows} rows and {capacity} update columns cannot be allocated"
  | notSquare rows columns => s!"Basis must be square: {rows} rows, {columns} columns"
  | lengthMismatch expected got => s!"Dimensions mismatch: expected {expected}, got {got}"
  | noSuchColumn column columns =>
    s!"Column {column} is out of range for a basis of {columns} columns"
  | malformed column reason => s!"Staged column {column} is malformed: {reason}"
  | parameterOutOfRange name value => "Invalid " ++ name ++ ": " ++ Decimal.scientific value

/-- `-1` for a singular basis, `2` for a pivot that is too small, `3` for a lack of room, `-2` for
input that makes no sense. -/
def code : Refusal → Int
  | singular .. => -1
  | weakPivot .. => 2
  | chainFull .. | tooLarge .. => 3
  | notSquare .. | lengthMismatch .. | noSuchColumn .. | malformed ..
  | parameterOutOfRange .. => -2

/-- Whether factoring the basis from scratch makes room for the call. -/
def curedByFactoring : Refusal → Bool
  | chainFull .. => true
  | _ => false

end Refusal

/-- Why a call has no result. -/
inductive Failure where
  | refused (reason : Refusal)
  | fault (cause : Fault)

instance : MonadLift (Except Fault) (Except Failure) := ⟨Except.mapError .fault⟩

instance : MonadLift (Except Refusal) (Except Failure) := ⟨Except.mapError .refused⟩

end BasisLU
