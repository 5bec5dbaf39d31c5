import BasisLU.Elimination

/-!
# Factors and updates

The factors of a basis as elimination leaves them, and the updates that replaced columns since, and
with them the two solves in the order of positions.

A forward solve (`Factors.solve`) goes through the lower factor, the upper factor and the updates,
oldest first; a transposed solve (`Factors.solveTransposed`) goes through the updates, newest first,
the transposed upper factor and the transposed lower factor. Each pass changes the vector one
position, or one update, at a time.
-/

namespace BasisLU

/-- A replaced column: the solution for the column that came in, with the reciprocal of the pivot at
the position it replaced. -/
structure Update (α : Type) (n : Nat) where
  pivot : Fin n
  column : Vector α n

/-- A factored basis and its updates, oldest first. -/
structure Factors (α : Type) (n : Nat) where
  columns : Square α n
  updates : List (Update α n)

variable {α : Type} [Scalar α] {n : Nat}

namespace Update

/-- The vector after the update: the entry at the pivot is scaled, and multiples of it are taken off
the others. -/
def apply (u : Update α n) (x : Vector α n) : Vector α n :=
  let value := x.get u.pivot * u.column.get u.pivot
  (Kernel.subtractMultiple (fun _ => True) value u.column x).set u.pivot value u.pivot.isLt

/-- The vector after the transposed update: only the entry at the pivot changes. -/
def applyTransposed (u : Update α n) (x : Vector α n) : Vector α n :=
  let rest := (List.finRange n).filter (· ≠ u.pivot)
  let value := Kernel.subtractInner rest (x.get u.pivot) x u.column * u.column.get u.pivot
  x.set u.pivot value u.pivot.isLt

end Update

/-- One column of the lower factor, which has ones on its diagonal. -/
def lowerStep (columns : Square α n) (x : Vector α n) (i : Fin n) : Vector α n :=
  Kernel.subtractMultiple (i < ·) (x.get i) (columns.get i) x

/-- The solution for the lower factor. -/
def solveLower (columns : Square α n) (x : Vector α n) : Vector α n :=
  (List.finRange n).foldl (lowerStep columns) x

/-- One column of the upper factor, whose diagonal is kept as reciprocals. -/
def upperStep (columns : Square α n) (i : Fin n) (x : Vector α n) : Vector α n :=
  let value := x.get i * (columns.get i).get i
  Kernel.subtractMultiple (· < i) value (columns.get i) (x.set i value i.isLt)

/-- The solution for the upper factor, from the last column to the first. -/
def solveUpper (columns : Square α n) (x : Vector α n) : Vector α n :=
  (List.finRange n).foldr (upperStep columns) x

/-- One row of the transposed upper factor. -/
def upperStepTransposed (columns : Square α n) (x : Vector α n) (i : Fin n) : Vector α n :=
  let above := (List.finRange n).filter (· < i)
  let value := Kernel.subtractInner above (x.get i) x (columns.get i) * (columns.get i).get i
  x.set i value i.isLt

/-- The solution for the transposed upper factor. -/
def solveUpperTransposed (columns : Square α n) (x : Vector α n) : Vector α n :=
  (List.finRange n).foldl (upperStepTransposed columns) x

/-- One row of the transposed lower factor. -/
def lowerStepTransposed (columns : Square α n) (i : Fin n) (x : Vector α n) : Vector α n :=
  let below := (List.finRange n).filter (i < ·)
  x.set i (Kernel.subtractInner below (x.get i) x (columns.get i)) i.isLt

/-- The solution for the transposed lower factor, from the last row to the first. -/
def solveLowerTransposed (columns : Square α n) (x : Vector α n) : Vector α n :=
  (List.finRange n).foldr (lowerStepTransposed columns) x

namespace Factors

/-- The solution for the updated basis, in the order of positions. -/
def solve (f : Factors α n) (x : Vector α n) : Vector α n :=
  f.updates.foldl (fun x u => u.apply x) (solveUpper f.columns (solveLower f.columns x))

/-- The solution for the transposed updated basis, in the order of positions. -/
def solveTransposed (f : Factors α n) (x : Vector α n) : Vector α n :=
  solveLowerTransposed f.columns
    (solveUpperTransposed f.columns (f.updates.foldr (fun u x => u.applyTransposed x) x))

end Factors

end BasisLU
