import BasisLU.Factorization.Basic

/-!
# Sizing and parameters

Room is made for a basis of some rows (`resize`) or for a longer chain of updates
(`setChainCapacity`). Buffers only grow. A call that cannot have its room, or a parameter out of its
range, is refused and changes nothing.
-/

namespace BasisLU.Factorization

variable {α : Type} [Scalar α]

/-- The stored values that a basis of `rows` rows with `capacity` updates takes. -/
def spaceFor (α : Type) [Scalar α] (rows capacity : Nat) : Except Refusal Nat :=
  match Capacity.allocatable? (Scalar.bytes α) ⟨rows, capacity⟩ with
  | some space => .ok space
  | none => .error (.tooLarge rows capacity)

/-- Every buffer grown to the present rows and capacity, and the block to `space` values. -/
def grow (f : Factorization α) (space : Nat) : Factorization α :=
  let mostRows := max f.mostRows f.rows
  { f with
    block := Block.growTo space 0 f.block
    mostRows := mostRows
    scratch := Block.growTo mostRows 0 f.scratch
    order := f.order.growTo mostRows
    replaced := Block.growTo f.config.chainCapacity 0 f.replaced }

/-- The basis declared to have `rows` rows and `columns` columns, and the block laid out for them.
Factors of a basis of other dimensions are given up. -/
def reshape (f : Factorization α) (rows columns : Nat) : Factorization α :=
  let kept := if rows = f.rows ∧ columns = f.columns then f
    else { f with status := .unfactored, goodColumns := 0, updates := 0 }
  { kept with rows := rows, columns := columns, stride := rows }

/-- Room for a basis of `rows` rows and as many columns. -/
def resize (f : Factorization α) (rows columns : Nat) : Except Refusal (Factorization α) := do
  if rows ≠ columns then throw (.notSquare rows columns)
  let space ← spaceFor α rows f.config.chainCapacity
  return (f.reshape rows columns).grow space

/-- Room for `capacity` updates, or for those there are if they are more. -/
def setChainCapacity (f : Factorization α) (capacity : Nat) : Except Refusal (Factorization α) := do
  let capacity := max capacity f.updates
  let space ← spaceFor α f.rows capacity
  return grow { f with config := { f.config with chainCapacity := capacity } } space

/-- Another zero tolerance. -/
def setZeroTolerance (f : Factorization α) (value : α) : Except Refusal (Factorization α) := do
  Config.requireZeroTolerance value
  return { f with config := { f.config with zeroTolerance := value } }

/-- Another pivot tolerance. -/
def setPivotTolerance (f : Factorization α) (value : α) : Except Refusal (Factorization α) := do
  Config.requirePivotTolerance value
  return { f with config := { f.config with pivotTolerance := value } }

/-- The slack diagonal that `value` selects. -/
def setSlack (f : Factorization α) (value : α) : Factorization α :=
  { f with config := f.config.withSlack value }

end BasisLU.Factorization
