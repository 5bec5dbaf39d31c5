import BasisLU.Factorization.Factor
import BasisLU.Factorization.Loading
import BasisLU.Factorization.Solve

/-!
# Systems of equations

One square system solved from scratch, with the default parameters. The solution of a factorization
is indexed by slot; slot `r` belongs to column `positions[r]` of the matrix.
-/

namespace BasisLU

variable {α : Type} [Scalar α]

/-- The solution of `a x = b`; entries at or below the zero tolerance are zero. -/
def solveSystem {rows columns : Nat} (a : Fin rows → Fin columns → α) (b : Array α) :
    Except Failure (Array α) := do
  if b.size ≠ rows then throw (.refused (.lengthMismatch rows b.size))
  let loaded ← (Factorization.initial : Factorization α).load a
  let (factored, refusal) ← loaded.factor
  if let some reason := refusal then throw (.refused reason)
  let (solved, factored) ← factored.ftran (IndexedVector.ofArray b 0)
  let placed ← factored.locateRows (← solved.entries)
  return (scatter placed (Vector.replicate factored.rows 0)).toArray

end BasisLU
