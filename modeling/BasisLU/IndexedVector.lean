import BasisLU.Capacity
import BasisLU.Scalar
import BasisLU.Scatter

/-!
# Indexed vectors

Right-hand sides and solutions: a backing array, the list of occupied indices in the order they
came, and a layout. A scattered vector keeps the value of index `i` in slot `i`, a packed one keeps
its `k`-th value in slot `k`; every other slot should be zero, which `isClean` tests.

- `entries` are the pairs of index and value in list order;
- `valueAt` looks one index up, `toDense` writes all entries into a fresh array;
- `insert`, `clear` and `setLayout` change a vector, `ofArray` and `ofPacked` make one.
-/

namespace BasisLU

/-- Where the values of an indexed vector are. -/
inductive Layout where
  /-- The value of index `i` is in slot `i`. -/
  | scattered
  /-- The `k`-th value is in slot `k`. -/
  | packed
  deriving DecidableEq, Repr, Inhabited

/-- A vector with a list of its occupied indices. -/
structure IndexedVector (α : Type) where
  /-- The backing array. -/
  elements : Array α
  /-- The occupied indices, in the order they came. -/
  indices : List Nat
  layout : Layout
  deriving Inhabited

namespace IndexedVector

variable {α : Type} [Scalar α]

/-- Slots of the backing array, and so the number of indices a scattered vector can hold. -/
def capacity (v : IndexedVector α) : Nat := v.elements.size

/-- How many entries are listed. -/
def count (v : IndexedVector α) : Nat := v.indices.length

/-- The scattered vector without entries. -/
def empty (capacity : Nat) : IndexedVector α := ⟨Array.replicate capacity 0, [], .scattered⟩

/-- The scattered vector without entries, if its arrays can be allocated. -/
def allocate (capacity : Nat) : Except Fault (IndexedVector α) :=
  if capacity ≤ allocationLimit (Scalar.bytes α) ∧ capacity ≤ allocationLimit positionBytes then
    .ok (empty capacity)
  else .error .outOfRange

/-- The scattered vector of the entries of `dense` with magnitude above the threshold. -/
def ofArray (dense : Array α) (threshold : α) : IndexedVector α where
  elements := dense.map fun x => if threshold < Scalar.magnitude x then x else 0
  indices := (dense.toList.zipIdx.filter fun e => threshold < Scalar.magnitude e.1).map (·.2)
  layout := .scattered

/-- The packed vector of the values at the indices, all of which are below `capacity`. -/
def ofPacked (capacity : Nat) (indices : List Nat) (values : List α) :
    Except Fault (IndexedVector α) := do
  if indices.length ≠ values.length then throw .listLengths
  let blank : IndexedVector α ← allocate (max capacity values.length)
  match indices.find? (fun index => capacity ≤ index) with
  | some index => throw (.indexOutOfRange index)
  | none =>
    return { blank with
      elements := (values ++ List.replicate (blank.capacity - values.length) 0).toArray
      indices := indices
      layout := .packed }

/-- Whether a slot belongs to a listed entry. -/
def occupied (v : IndexedVector α) (slot : Nat) : Bool :=
  match v.layout with
  | .packed => slot < v.count
  | .scattered => v.indices.contains slot

/-- Whether every slot that belongs to no entry is zero. -/
def isClean (v : IndexedVector α) : Bool :=
  v.elements.toList.zipIdx.all fun e => v.occupied e.2 || Scalar.isZero e.1

/-- The vector with its entries zeroed and forgotten. -/
def clear (v : IndexedVector α) : IndexedVector α :=
  { v with
    elements := v.elements.mapIdx fun slot x => if v.occupied slot then 0 else x
    indices := [] }

/-- The vector in another layout, to which only a vector without entries can change. -/
def setLayout (v : IndexedVector α) (layout : Layout) : Except Fault (IndexedVector α) :=
  if v.indices.isEmpty then .ok { v with layout := layout } else .error .layoutInUse

/-- The vector with one more entry. A packed vector puts it into the next slot; a scattered one
needs the slot of the index, which has to hold zero. -/
def insert (v : IndexedVector α) (index : Nat) (value : α) : Except Fault (IndexedVector α) := do
  let slot := match v.layout with
    | .packed => v.count
    | .scattered => index
  let current ← Fault.read v.elements slot
  if v.layout = .scattered ∧ !Scalar.isZero current then throw (.indexOccupied index)
  return { v with
    elements := v.elements.setIfInBounds slot value
    indices := v.indices ++ [index] }

/-- The vector, which has no entries, with those found by a solve: the slots are those of the
indices, or the first ones of a packed vector. -/
def fill (v : IndexedVector α) (found : List (Nat × α)) : Except Fault (IndexedVector α) := do
  let slots := match v.layout with
    | .packed => List.range found.length
    | .scattered => found.map Prod.fst
  let placed ← locate v.capacity (slots.zip (found.map Prod.snd))
  return { v with
    elements := (scatter placed v.elements.toVector).toArray
    indices := found.map Prod.fst }

/-- The value kept for an index, zero for an index that is not there. In a packed vector the first
entry with the index counts. -/
def valueAt (v : IndexedVector α) (index : Nat) : α :=
  match v.layout with
  | .packed => (v.indices.idxOf? index).elim 0 fun k => v.elements.getD k 0
  | .scattered => v.elements.getD index 0

/-- The pairs of index and value in list order. -/
def entries (v : IndexedVector α) : Except Fault (List (Nat × α)) :=
  v.indices.zipIdx.mapM fun (index, k) => do
    let value ← Fault.read v.elements (match v.layout with | .packed => k | .scattered => index)
    return (index, value)

/-- The entries written into zeros, in list order. -/
def toDense (v : IndexedVector α) (length : Nat) : Except Fault (Array α) := do
  if allocationLimit (Scalar.bytes α) < length then throw .outOfRange
  let placed ← locate length (← v.entries)
  return (scatter placed (Vector.replicate length 0)).toArray

/-- Equality of slots, lists and layouts, with values compared as numbers. -/
def same (v w : IndexedVector α) : Bool :=
  v.elements.isEqv w.elements Scalar.same && v.indices == w.indices && v.layout == w.layout

end IndexedVector

end BasisLU
