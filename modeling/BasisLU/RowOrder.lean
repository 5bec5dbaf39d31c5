import BasisLU.Block
import BasisLU.Scatter

/-!
# Row orders

Where each row of the basis stands after the exchanges of elimination, and which row stands at each
position. The arrays are as long as the largest basis so far; past the rows of the present basis
they keep what an earlier one left there.
-/

namespace BasisLU

/-- The position of each row, and the row at each position. -/
structure RowOrder where
  positionOf : Array Nat
  rowAt : Array Nat
  deriving DecidableEq, Repr, Inhabited

namespace RowOrder

/-- No rows. -/
def empty : RowOrder := ⟨#[], #[]⟩

/-- Room for `rows` rows; new places hold zero. -/
def growTo (rows : Nat) (order : RowOrder) : RowOrder :=
  ⟨Block.growTo rows 0 order.positionOf, Block.growTo rows 0 order.rowAt⟩

/-- The order of the first `n` rows that elimination found. -/
def assign {n : Nat} (rowAt : Vector (Fin n) n) (order : RowOrder) : Except Fault RowOrder :=
  if h : n ≤ order.rowAt.size ∧ n ≤ order.positionOf.size then
    .ok {
      rowAt := order.rowAt.mapIdx fun p row => if h : p < n then rowAt[p] else row
      positionOf := (scatter ((List.finRange n).map fun p => ((rowAt.get p).castLE h.2, p.val))
        order.positionOf.toVector).toArray }
  else .error .outOfRange

/-- The position of a row, which has to be one of the first `n`. -/
def position (n row : Nat) (order : RowOrder) : Except Fault (Fin n) := do
  Fault.below n (← Fault.read order.positionOf row)

end RowOrder

end BasisLU
