import BasisLU.Factorization.Solve

/-!
# Replacing a column

A column of the basis is replaced by appending an update: the solution for the column that comes in,
in the order of positions, with the reciprocal of the pivot at the position it replaces. The factors
and the older updates stay as they are.
-/

namespace BasisLU.Factorization

variable {α : Type} [Scalar α]

/-- The update for replacing the column in `slot` by one whose solution has the given entries and
the given pivot in that slot. -/
def newUpdate (f : Factorization α) (entries : List (Nat × α)) (slot : Nat) (pivot : α) :
    Except Fault (Update α f.rows) := do
  let placed ← f.locateRows entries
  let position ← f.position slot
  return ⟨position, scatter (placed ++ [(position, 1 / pivot)]) (Vector.replicate f.rows 0)⟩

/-- The chain with one more update. -/
def append (f : Factorization α) (update : Update α f.rows) : Except Fault (Factorization α) := do
  f.requireLayout
  let block ← Block.setColumn (f.columns + f.updates) update.column f.block
  if f.replaced.size ≤ f.updates then throw .outOfRange
  return { f with
    block := block
    replaced := f.replaced.setIfInBounds f.updates update.pivot
    updates := f.updates + 1 }

/-- The basis with the column in `slot` replaced. `entering` is the solution for the column that
comes in and `pivot` its entry in the slot. Refused if the chain is full, or if the pivot is at or
below the zero tolerance. -/
def replace (f : Factorization α) (entering : IndexedVector α) (slot : Nat) (pivot : α) :
    Except Failure (Factorization α) := do
  f.requireValid .replaceBeforeFactor
  if f.config.chainCapacity ≤ f.updates then
    throw (.refused (.chainFull f.config.chainCapacity))
  if Scalar.magnitude pivot ≤ f.config.zeroTolerance then
    throw (.refused (.weakPivot (Scalar.toFloat (Scalar.magnitude pivot))
      (Scalar.toFloat f.config.zeroTolerance)))
  let update ← f.newUpdate (← entering.entries) slot pivot
  f.append update

end BasisLU.Factorization
