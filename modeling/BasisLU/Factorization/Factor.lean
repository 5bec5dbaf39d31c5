import BasisLU.Factorization.Basic

/-!
# Factoring

`factor` eliminates the loaded basis in place and starts an empty chain of updates. A basis that
turns out singular is kept as far as it was eliminated: `repairSequence` names the slacks that
complete it. `assignVariables` carries the variables of the columns over to the rows they were
pivoted on.
-/

namespace BasisLU.Factorization

variable {α : Type} [Scalar α]

/-- The factorization with the result of an elimination. -/
def install (f : Factorization α) (e : Elimination α f.rows) : Except Fault (Factorization α) := do
  let block ← Block.setSquare e.columns f.block
  let order ← f.order.assign e.rowAt
  return { f with
    block := block
    order := order
    status := if e.good = f.rows then .valid else .singular
    goodColumns := e.good
    updates := 0 }

/-- Why the factors cannot be used, if elimination stopped early. -/
def singularity? (f : Factorization α) : Option Refusal :=
  if f.status = .singular then some (.singular f.goodColumns f.rows) else none

/-- The loaded basis eliminated, and the refusal if it is singular. -/
def factor (f : Factorization α) : Except Fault (Factorization α × Option Refusal) := do
  let columns ← f.square
  let factored ← f.install (eliminate f.config.zeroTolerance columns)
  return (factored, factored.singularity?)

/-- The rows that did not get one of the pivots, in increasing order. -/
def freeRows (rows : Nat) (pivoted : List Nat) : List Nat :=
  (List.range rows).filter fun row => !pivoted.contains row

/-- The sequence of basic variables with the columns that have no pivot replaced by the slacks of
the rows that have none. The slack of row `r` is variable `r + columns`. -/
def repairSequence (f : Factorization α) (sequence : Array Nat) (columns : Nat) :
    Except Fault (Array Nat) := do
  if f.rows ≤ f.goodColumns then throw .repairOfRegular
  let pivoted ← (List.range f.goodColumns).mapM fun p => do
    let row ← Fault.below f.rows (← Fault.read f.order.rowAt p)
    return row.val
  if sequence.size < f.rows then throw .outOfRange
  let slacks := ((freeRows f.rows pivoted).take (f.rows - f.goodColumns)).map (· + columns)
  if slacks.any (wordSize ≤ ·) then throw .outOfRange
  return sequence.mapIdx fun place basic =>
    if f.goodColumns ≤ place ∧ place < f.rows then
      slacks.getD (place - f.goodColumns) basic
    else basic

/-- The variables of the pivot positions written to the rows that stand there. -/
def assignVariables (f : Factorization α) (sequence pivotVariable : Array Nat) :
    Except Fault (Array Nat) := do
  let pairs ← (List.range f.rows).mapM fun p => do
    return (← Fault.read f.order.rowAt p, ← Fault.read sequence p)
  return (scatter (← locate pivotVariable.size pairs) pivotVariable.toVector).toArray

end BasisLU.Factorization
