import BasisLU.Factorization.Loading

/-!
# Staged columns

A basis in compressed form is copied to the front of the block (`stage`) and expanded in place
(`expand`), last column first: column `i` starts at or before slot `i * rows`, where its dense copy
comes to lie, so no value is overwritten before it is read.
-/

namespace BasisLU.Factorization

variable {α : Type} [Scalar α]

/-- Refuses a compressed column that could not be expanded in place, or that has a row the basis
does not have. -/
def checkStaged (rows : Nat) (starts rowIndices : Array Nat) (column : Nat) :
    Except Failure Unit := do
  let start ← Fault.read starts column
  let stop ← Fault.read starts (column + 1)
  let malformed (reason : String) := Failure.refused (.malformed column reason)
  if stop < start then throw (malformed "column starts decrease")
  if rows < stop - start then throw (malformed "more entries than rows")
  if column * rows < start then
    throw (malformed "column data would be overwritten before it is read")
  if rowIndices.size < stop then throw (.fault .outOfRange)
  if (rowIndices.extract start stop).any (rows ≤ ·) then
    throw (malformed "row index out of range")

/-- Compressed columns at the front of the block: the values of column `i` are those from place
`starts[i]` on, and `rowIndices` has the row of each. -/
def stage (f : Factorization α) (starts rowIndices : Array Nat) (values : Array α) :
    Except Failure (Factorization α) := do
  let mismatch (expected got : Nat) := Failure.refused (.lengthMismatch expected got)
  if starts.size ≠ f.columns + 1 then throw (mismatch (f.columns + 1) starts.size)
  if rowIndices.size ≠ values.size then throw (mismatch rowIndices.size values.size)
  let total ← Fault.read starts f.columns
  if total ≠ values.size then throw (mismatch total values.size)
  (List.range f.columns).forM (checkStaged f.rows starts rowIndices)
  if f.block.size < values.size then throw (.fault .outOfRange)
  return { f with
    block := f.block.mapIdx fun slot x => if h : slot < values.size then values[slot] else x
    staged := ⟨starts, rowIndices⟩ }

/-- The rows and values of a compressed column, in the order they were staged. -/
def stagedEntries (n : Nat) (staged : Staged) (block : Array α) (start stop : Nat) :
    Except Fault (List (Fin n × α)) :=
  (List.range' start (stop - start)).mapM fun place => do
    let row ← Fault.below n (← Fault.read staged.rows place)
    return (row, ← Fault.read block place)

/-- The block with compressed column `i` in its place; a later value of a row replaces an earlier
one. -/
def expandColumn (n : Nat) (staged : Staged) (block : Array α) (i : Nat) :
    Except Fault (Array α) := do
  let start ← Fault.read staged.starts i
  let stop ← Fault.read staged.starts (i + 1)
  if i * n < start then throw (.stagedOverlap i)
  let entries ← stagedEntries n staged block start stop
  Block.setColumn i (scatter entries (Vector.replicate n 0)) block

/-- The block with the compressed columns, of `n` rows each, in their places. -/
def expandBlock (n columns : Nat) (staged : Staged) (block : Array α) : Except Fault (Array α) :=
  (List.range columns).reverse.foldlM (expandColumn n staged) block

/-- The basis with its staged columns expanded. -/
def expand (f : Factorization α) : Except Failure (Factorization α) := do
  if f.staged.starts.size ≠ f.columns + 1 then
    throw (.refused (.lengthMismatch (f.columns + 1) f.staged.starts.size))
  f.requireLayout
  let block ← expandBlock f.rows f.columns f.staged f.block
  let scratch ← Block.setColumn 0 (Vector.replicate f.rows (0 : α)) f.scratch
  return { f with block := block, scratch := scratch, staged := ⟨#[], #[]⟩ }

end BasisLU.Factorization
