import BasisLU.Kernel

/-!
# Elimination

A square matrix, kept by columns, is eliminated from left to right with partial pivoting by
magnitude. `Elimination` is the state between two columns: the columns so far, the row that stands
at each position, and how many columns are done. A column that is done holds multipliers below the
diagonal, the reciprocal of its pivot on the diagonal, and the upper factor above it.

- `pivotRow?` finds the row to pivot on, `pivot` eliminates with it, `step?` is both;
- `eliminate` takes steps until every column is done or one has no pivot;
- `good_pivot`, `step?_of_le`: a step finishes exactly one column, and there are no more than `n`.
-/

namespace BasisLU

/-- A square matrix by columns: entry `i` of column `k` is the entry in row `i`. -/
abbrev Square (α : Type) (n : Nat) := Vector (Vector α n) n

/-- A matrix partly eliminated. -/
structure Elimination (α : Type) (n : Nat) where
  columns : Square α n
  /-- The row of the basis that stands at each position. -/
  rowAt : Vector (Fin n) n
  /-- Columns that are done. -/
  good : Nat

namespace Elimination

variable {α : Type} [Scalar α] {n : Nat}

/-- No column is done, and every row stands where it was. -/
def start (columns : Square α n) : Elimination α n := ⟨columns, Vector.ofFn id, 0⟩

/-- The entries of a column at or below the diagonal, with their rows. -/
def candidates (column : Vector α n) (i : Fin n) : List (α × Fin n) :=
  ((List.finRange n).filter (i ≤ ·)).map fun r => (column.get r, r)

/-- The row of the largest entry of column `i` at or below the diagonal, if it is above the
tolerance. -/
def pivotRow? (tolerance : α) (e : Elimination α n) (i : Fin n) : Option (Fin n) :=
  (Kernel.largest? tolerance (candidates (e.columns.get i) i)).map (·.1)

/-- Column `i` with its rows exchanged already, as it is kept: the reciprocal of the pivot on the
diagonal and the multipliers below it. -/
def lead (column : Vector α n) (i : Fin n) : Vector α n :=
  let reciprocal := 1 / column.get i
  Kernel.rescale (i < ·) reciprocal (column.set i reciprocal i.isLt)

/-- Column `i` done with row `p` as its pivot: the rows `i` and `p` are exchanged in all columns,
and the multiples of column `i` are taken off the later ones. -/
def pivot (e : Elimination α n) (i p : Fin n) : Elimination α n :=
  let exchanged := e.columns.map (·.swap i p i.isLt p.isLt)
  let done := lead (exchanged.get i) i
  { columns := Vector.ofFn fun k =>
      if k < i then exchanged.get k
      else if k = i then done
      else Kernel.subtractMultiple (i < ·) ((exchanged.get k).get i) done (exchanged.get k)
    rowAt := e.rowAt.swap i p i.isLt p.isLt
    good := e.good + 1 }

/-- The next column done, if there is one and it has a pivot. -/
def step? (tolerance : α) (e : Elimination α n) : Option (Elimination α n) :=
  if h : e.good < n then
    let i : Fin n := ⟨e.good, h⟩
    (e.pivotRow? tolerance i).map (e.pivot i)
  else none

/-- At most `fuel` steps. -/
def run (tolerance : α) : Nat → Elimination α n → Elimination α n
  | 0, e => e
  | fuel + 1, e =>
    match e.step? tolerance with
    | some e => run tolerance fuel e
    | none => e

@[simp] theorem good_pivot (e : Elimination α n) (i p : Fin n) :
    (e.pivot i p).good = e.good + 1 := rfl

theorem step?_of_le {tolerance : α} {e : Elimination α n} (h : n ≤ e.good) :
    e.step? tolerance = none := dif_neg (Nat.not_lt.2 h)

end Elimination

/-- The matrix eliminated as far as its pivots are above the tolerance. -/
def eliminate {α : Type} [Scalar α] {n : Nat} (tolerance : α) (columns : Square α n) :
    Elimination α n :=
  (Elimination.start columns).run tolerance n

end BasisLU
