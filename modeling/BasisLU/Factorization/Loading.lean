import BasisLU.Factorization.Sizing

/-!
# Loading a basis

Columns of the square part are written one at a time, densely or as the slack of a row, or a whole
matrix at once. Loading does not look at the status: what the columns held before is overwritten.
-/

namespace BasisLU.Factorization

variable {α : Type} [Scalar α]

/-- Refuses a column that the basis does not have. -/
def checkColumn (f : Factorization α) (column : Nat) : Except Refusal Unit :=
  if column < f.columns then .ok () else .error (.noSuchColumn column f.columns)

/-- Refuses a row that the basis does not have, and says how many rows it would take. That many have
to be a machine word. -/
def checkRow (f : Factorization α) (row : Nat) : Except Failure Unit :=
  if row < f.rows then .ok ()
  else if row + 1 < wordSize then .error (.refused (.lengthMismatch f.rows (row + 1)))
  else .error (.fault .outOfRange)

/-- The factorization with a column of the block replaced. -/
def setColumn (f : Factorization α) (k : Nat) (values : Vector α f.rows) :
    Except Fault (Factorization α) := do
  f.requireLayout
  return { f with block := ← Block.setColumn k values f.block }

/-- A basis column with the given values, one for every row. -/
def loadColumn (f : Factorization α) (column : Nat) (values : Array α) :
    Except Failure (Factorization α) := do
  f.checkColumn column
  if h : values.size = f.rows then f.setColumn column ⟨values, h⟩
  else throw (.refused (.lengthMismatch f.rows values.size))

/-- The slack of `row` as a basis column. -/
def loadSlack (f : Factorization α) (column row : Nat) : Except Failure (Factorization α) := do
  f.checkColumn column
  f.checkRow row
  f.setColumn column
    (Vector.ofFn fun i : Fin f.rows => if i = row then f.config.slack else 0)

/-- Entries of a basis column written in turn. -/
def writeColumn (f : Factorization α) (column : Nat) (writes : List (Nat × α)) :
    Except Fault (Factorization α) := do
  if f.columns ≤ column then throw (.noSuchColumn column f.columns)
  let current ← f.column column
  f.setColumn column (scatter (← locate f.rows writes) current)

/-- Room for a matrix, and its columns as the basis. -/
def load (f : Factorization α) {rows columns : Nat} (a : Fin rows → Fin columns → α) :
    Except Failure (Factorization α) := do
  if h : rows = columns then
    let sized ← f.resize rows columns
    let square : Square α rows :=
      Vector.ofFn fun k => Vector.ofFn fun i => a i (k.cast h)
    return { sized with block := ← Block.setSquare square sized.block }
  else throw (.refused (.notSquare rows columns))

end BasisLU.Factorization
