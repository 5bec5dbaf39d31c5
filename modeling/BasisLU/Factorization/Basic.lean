import BasisLU.Capacity
import BasisLU.Config
import BasisLU.Factors
import BasisLU.RowOrder
import BasisLU.Status

/-!
# Factorizations

A factorization holds a square basis of some rows, or its factors, in one block, with the updates
behind the square part. `Factorization.factors` reads the factors and updates off the block.

The buffers are those of the largest basis and the longest chain so far. Only the first `columns`
columns, the first `updates` columns after them, the first `rows` places of the row order and the
first `updates` places of `replaced` belong to the present basis.

The kernels work on columns of one length, and a basis is square. Both are checked where columns are
read or written (`requireLayout`, `square`).
-/

namespace BasisLU

/-- Columns in compressed form that wait at the front of the block to be expanded: where each column
starts, and the row of each value. -/
structure Staged where
  starts : Array Nat
  rows : Array Nat
  deriving DecidableEq, Repr, Inhabited

/-- A basis, or its factors and updates. -/
structure Factorization (α : Type) where
  config : Config α
  /-- Columns of `stride` values each: the square part, then updates, then room. -/
  block : Array α
  stride : Nat
  order : RowOrder
  /-- The position that each update replaced. -/
  replaced : Array Nat
  /-- Room for a right-hand side; zero between calls. -/
  scratch : Array α
  staged : Staged
  status : Status
  rows : Nat
  columns : Nat
  /-- The most rows there have been. -/
  mostRows : Nat
  /-- Columns that the last elimination finished. -/
  goodColumns : Nat
  /-- Updates since the last elimination. -/
  updates : Nat

namespace Factorization

variable {α : Type}

/-- No basis, with the given parameters. -/
def ofConfig (config : Config α) : Factorization α where
  config := config
  block := #[]
  stride := 0
  order := .empty
  replaced := #[]
  scratch := #[]
  staged := ⟨#[], #[]⟩
  status := .unfactored
  rows := 0
  columns := 0
  mostRows := 0
  goodColumns := 0
  updates := 0

variable [Scalar α]

/-- No basis, with the default parameters. -/
def initial : Factorization α := ofConfig Config.initial

instance : Inhabited (Factorization α) := ⟨initial⟩

/-- No basis, with parameters that have to be in range. -/
def make (config : Config α) : Except Refusal (Factorization α) := do
  config.check
  return ofConfig config

/-- Values in use: the square part and the updates. -/
def elementCount (f : Factorization α) : Nat := f.rows * (f.columns + f.updates)

/-- The position of each row of the present basis. -/
def positions (f : Factorization α) : Array Nat := f.order.positionOf.take f.rows

/-- The row at each position of the present basis. -/
def rowsInOrder (f : Factorization α) : Array Nat := f.order.rowAt.take f.rows

/-- The position that each update of the present chain replaced, oldest first. -/
def chainPositions (f : Factorization α) : Array Nat := f.replaced.take f.updates

/-- Faults unless a column of the block is as long as the basis has rows. -/
def requireLayout (f : Factorization α) : Except Fault Unit :=
  if f.stride = f.rows then .ok () else .error .multipleLengths

/-- Column `k` of the block: a column of the square part, or the update `k - columns`. -/
def column (f : Factorization α) (k : Nat) : Except Fault (Vector α f.rows) := do
  f.requireLayout
  Block.column f.rows k f.block

/-- The columns of the basis, of which there have to be as many as rows. -/
def square (f : Factorization α) : Except Fault (Square α f.rows) := do
  if f.rows ≠ f.columns then throw .notSquare
  f.requireLayout
  Block.square f.rows f.block

/-- The position of a row, which has to be one of the present basis. -/
def position (f : Factorization α) (row : Nat) : Except Fault (Fin f.rows) :=
  f.order.position f.rows row

/-- Entries at rows of the present basis, moved to the positions of the rows. -/
def locateRows (f : Factorization α) (entries : List (Nat × α)) :
    Except Fault (List (Fin f.rows × α)) :=
  entries.mapM fun (row, value) => do return (← f.position row, value)

/-- Update number `slot` of the chain. -/
def update (f : Factorization α) (slot : Nat) : Except Fault (Update α f.rows) := do
  let column ← f.column (f.columns + slot)
  let pivot ← Fault.below f.rows (← Fault.read f.replaced slot)
  return ⟨pivot, column⟩

/-- The factors and the updates, oldest first. -/
def factors (f : Factorization α) : Except Fault (Factors α f.rows) := do
  let columns ← f.square
  let updates ← (List.range f.updates).mapM f.update
  return ⟨columns, updates⟩

end Factorization

end BasisLU
