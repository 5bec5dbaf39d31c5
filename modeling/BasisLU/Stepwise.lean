import BasisLU.Operation

/-!
# Calls write by write

`Operation.perform` says what a call comes to. Here a call is the sequence of its checks and writes,
in the order they are made: when a check fails, what was written before it stays written.
`Operation.execute` carries a call out that way. Writes with no check in between are made as one.
-/

namespace BasisLU

/-- A part of a call. If it fails, the factorization is left as far as it was written. -/
abbrev Stepwise (α : Type) := EStateM Failure (Factorization α)

instance {α : Type} : MonadLift (Except Failure) (Stepwise α) :=
  ⟨fun x f => match x with
    | .ok y => .ok y f
    | .error failure => .error failure f⟩

namespace Stepwise

open Factorization (spaceFor checkStaged expandColumn)

variable {α : Type} [Scalar α]

/-- Every buffer grown to the present rows and capacity, and the block to `space` values. -/
def growBuffers (space : Nat) : Stepwise α Unit := do
  modify fun f => { f with block := Block.growTo space 0 f.block }
  let f ← get
  if f.mostRows < f.rows then
    modify fun f => { f with mostRows := f.rows, scratch := Block.growTo f.rows 0 f.scratch }
  modify fun f => { f with order := f.order.growTo f.mostRows }
  modify fun f => { f with replaced := Block.growTo f.config.chainCapacity 0 f.replaced }

/-- Room for a basis of `rows` rows and as many columns. -/
def resize (rows columns : Nat) : Stepwise α Unit := do
  if rows ≠ columns then throw (.refused (.notSquare rows columns))
  let f ← get
  let space ← spaceFor α rows f.config.chainCapacity
  if rows ≠ f.rows ∨ columns ≠ f.columns then
    modify fun f => { f with status := .unfactored, goodColumns := 0, updates := 0 }
  modify fun f => { f with rows := rows, columns := columns, stride := rows }
  growBuffers space

/-- Room for `capacity` updates, or for those there are if they are more. -/
def setChainCapacity (capacity : Nat) : Stepwise α Unit := do
  let f ← get
  let capacity := max capacity f.updates
  let space ← spaceFor α f.rows capacity
  modify fun f => { f with config := { f.config with chainCapacity := capacity } }
  growBuffers space

/-- Another zero tolerance. -/
def setZeroTolerance (value : α) : Stepwise α Unit := do
  Config.requireZeroTolerance value
  modify fun f => { f with config := { f.config with zeroTolerance := value } }

/-- Another pivot tolerance. -/
def setPivotTolerance (value : α) : Stepwise α Unit := do
  Config.requirePivotTolerance value
  modify fun f => { f with config := { f.config with pivotTolerance := value } }

/-- Column `k` of the block set to zeros. -/
def clearColumn (k : Nat) : Stepwise α Unit := do
  let f ← get
  set (← f.setColumn k (Vector.replicate f.rows 0))

/-- One value of column `k` of the block. -/
def putValue (k place : Nat) (value : α) : Stepwise α Unit := do
  let f ← get
  let place ← Fault.below f.rows place
  set (← f.setColumn k ((← f.column k).set place value place.isLt))

/-- A basis column with the given values, one for every row. -/
def loadColumn (column : Nat) (values : Array α) : Stepwise α Unit := do
  let f ← get
  f.checkColumn column
  if h : values.size = f.rows then set (← f.setColumn column ⟨values, h⟩)
  else throw (.refused (.lengthMismatch f.rows values.size))

/-- The slack of `row` as a basis column. -/
def loadSlack (column row : Nat) : Stepwise α Unit := do
  let f ← get
  f.checkColumn column
  f.checkRow row
  clearColumn column
  putValue column row f.config.slack

/-- Entries of a basis column written in turn. -/
def writeColumn (column : Nat) (writes : List (Nat × α)) : Stepwise α Unit := do
  set (← (← get).writeColumn column writes)

/-- Room for a matrix, and its columns one after another as the basis. -/
def load {rows columns : Nat} (a : Fin rows → Fin columns → α) : Stepwise α Unit := do
  resize rows columns
  (List.finRange columns).forM fun k => do
    let f ← get
    set { f with block := ← Block.setColumn k (Vector.ofFn fun i => a i k) f.block }

/-- Compressed columns at the front of the block, every one of them checked first. -/
def stage (starts rowIndices : Array Nat) (values : Array α) : Stepwise α Unit := do
  let mismatch (expected got : Nat) := Failure.refused (.lengthMismatch expected got)
  let f ← get
  if starts.size ≠ f.columns + 1 then throw (mismatch (f.columns + 1) starts.size)
  if rowIndices.size ≠ values.size then throw (mismatch rowIndices.size values.size)
  let total ← Fault.read starts f.columns
  if total ≠ values.size then throw (mismatch total values.size)
  (List.range f.columns).forM fun column => checkStaged f.rows starts rowIndices column
  if f.block.size < values.size then throw (.fault .outOfRange)
  modify fun f => { f with
    block := f.block.mapIdx fun slot x => if h : slot < values.size then values[slot] else x }
  modify fun f => { f with staged := ⟨starts, rowIndices⟩ }

/-- The staged columns expanded, last to first. The scratch buffer is taken out meanwhile. -/
def expand : Stepwise α Unit := do
  let f ← get
  if f.staged.starts.size ≠ f.columns + 1 then
    throw (.refused (.lengthMismatch (f.columns + 1) f.staged.starts.size))
  f.requireLayout
  set { f with scratch := #[] }
  (List.range f.columns).reverse.forM fun i => do
    let g ← get
    set { g with block := ← expandColumn g.rows g.staged g.block i }
  let scratch ← Block.setColumn 0 (Vector.replicate f.rows (0 : α)) f.scratch
  modify fun g => { g with scratch := scratch }
  modify fun g => { g with staged := ⟨#[], #[]⟩ }

/-- The loaded basis eliminated. A singular one is refused after the fact. -/
def factor : Stepwise α Unit := do
  let f ← get
  let columns ← f.square
  set { f with updates := 0, goodColumns := 0, status := .valid }
  let e := eliminate f.config.zeroTolerance columns
  let block ← Block.setSquare e.columns f.block
  modify fun g => { g with block := block, goodColumns := e.good }
  let order ← f.order.assign e.rowAt
  modify fun g => { g with order := order }
  if e.good ≠ f.rows then
    modify fun g => { g with status := .singular }
    throw (.refused (.singular e.good f.rows))

/-- The column in `slot` replaced: the update is written value by value, and counted last. -/
def replace (entering : IndexedVector α) (slot : Nat) (pivot : α) : Stepwise α Unit := do
  let f ← get
  f.requireValid .replaceBeforeFactor
  if f.config.chainCapacity ≤ f.updates then
    throw (.refused (.chainFull f.config.chainCapacity))
  if Scalar.magnitude pivot ≤ f.config.zeroTolerance then
    throw (.refused (.weakPivot (Scalar.toFloat (Scalar.magnitude pivot))
      (Scalar.toFloat f.config.zeroTolerance)))
  let entries ← entering.entries
  let k := f.columns + f.updates
  clearColumn k
  entries.forM fun (row, value) => do putValue k (← f.position row) value
  let position ← f.position slot
  putValue k position (1 / pivot)
  if f.replaced.size ≤ f.updates then throw (.fault .outOfRange)
  modify fun g => { g with replaced := g.replaced.setIfInBounds f.updates position }
  modify fun g => { g with updates := g.updates + 1 }

end Stepwise

namespace Operation

variable {α : Type} [Scalar α]

/-- The call carried out write by write, with the vectors that it solves. -/
def execute : Operation α → Stepwise α (List (IndexedVector α))
  | resize rows columns => do Stepwise.resize rows columns; return []
  | setChainCapacity capacity => do Stepwise.setChainCapacity capacity; return []
  | setZeroTolerance value => do Stepwise.setZeroTolerance value; return []
  | setPivotTolerance value => do Stepwise.setPivotTolerance value; return []
  | setSlack value => do modify (·.setSlack value); return []
  | load a => do Stepwise.load a; return []
  | loadColumn column values => do Stepwise.loadColumn column values; return []
  | loadSlack column row => do Stepwise.loadSlack column row; return []
  | writeColumn column writes => do Stepwise.writeColumn column writes; return []
  | stage starts rowIndices values => do Stepwise.stage starts rowIndices values; return []
  | expand => do Stepwise.expand; return []
  | factor => do Stepwise.factor; return []
  | replace entering slot pivot => do Stepwise.replace entering slot pivot; return []
  | ftran v => do
    let (v, after) ← (← get).ftran v
    set after
    return [v]
  | ftranInPlace v => do return [← (← get).ftranInPlace v]
  | ftranPair v w inPlace => do
    let (v, w, after) ← (← get).ftranPair v w inPlace
    set after
    return [v, w]
  | btran v => do
    let (v, after) ← (← get).btran v
    set after
    return [v]

end Operation

end BasisLU
