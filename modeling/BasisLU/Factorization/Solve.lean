import BasisLU.Factorization.Basic
import BasisLU.IndexedVector

/-!
# Solves

The right-hand side is gathered into the scratch buffer in the order of positions, the factors and
updates are applied there, and what is above the zero tolerance is put back into the vector.

- `ftran` solves with the basis: rows in, slots out;
- `ftranInPlace` does it in the order of positions, in the vector itself;
- `btran` solves with the transposed basis: slots in, rows out.

The scratch buffer is cleared position by position as the solution leaves it.
-/

namespace BasisLU.Factorization

variable {α : Type} [Scalar α]

/-- Faults unless there are factors to solve with. -/
def requireValid (f : Factorization α) (otherwise : Fault) : Except Fault Unit :=
  if f.status.isValid then .ok () else .error otherwise

/-- The right-hand side written into `scratch` in the order of positions, and the vector without the
entries taken. A packed vector is read through its list; of a scattered one, every row of the basis
is read, listed or not. -/
def gather (f : Factorization α) (v : IndexedVector α) (scratch : Vector α f.rows) :
    Except Fault (Vector α f.rows × IndexedVector α) := do
  match v.layout with
  | .packed =>
    let placed ← f.locateRows (← v.entries)
    return (scatter placed scratch, { v with
      elements := v.elements.mapIdx fun slot x => if slot < v.count then 0 else x
      indices := [] })
  | .scattered =>
    let taken ← (List.finRange f.rows).mapM fun (p : Fin f.rows) => do
      let row ← Fault.read f.order.rowAt p
      return (p, row, ← Fault.read v.elements row)
    return (scatter (taken.map fun (p, _, value) => (p, value)) scratch, { v with
      elements := v.elements.mapIdx fun slot x =>
        if taken.any (fun (_, row, _) => row = slot) then 0 else x
      indices := [] })

/-- The entries of a solution that are above the tolerance, each at the index its position goes
to. -/
def kept {n : Nat} (tolerance : α) (targets : List (Fin n × Nat)) (x : Vector α n) :
    List (Nat × α) :=
  targets.filterMap fun (p, index) =>
    if tolerance < Scalar.magnitude (x.get p) then some (index, x.get p) else none

/-- The scratch buffer after the positions were read. -/
def released {n : Nat} (targets : List (Fin n × Nat)) (x : Vector α n) : Vector α n :=
  scatter (targets.map fun (p, _) => (p, 0)) x

/-- A solve through the scratch buffer: gathered, solved, and put back at the targets of the
positions. Afterwards the buffer has to be zero again. -/
def solveThrough (f : Factorization α) (solve : Vector α f.rows → Vector α f.rows)
    (targets : List (Fin f.rows × Nat)) (v : IndexedVector α) :
    Except Fault (IndexedVector α × Factorization α) := do
  let (b, emptied) ← f.gather v (← Block.column f.rows 0 f.scratch)
  let x := solve b
  let solved ← emptied.fill (kept f.config.zeroTolerance targets x)
  let scratch ← Block.setColumn 0 (released targets x) f.scratch
  if !scratch.all Scalar.isZero then throw .scratchInUse
  return (solved, { f with scratch := scratch })

/-- The slots of the basis with the positions their solution is taken from. -/
def slotTargets (f : Factorization α) : Except Fault (List (Fin f.rows × Nat)) :=
  (List.range f.rows).mapM fun slot => do return (← f.position slot, slot)

/-- The positions with the rows that stand there. -/
def rowTargets (f : Factorization α) : Except Fault (List (Fin f.rows × Nat)) :=
  (List.finRange f.rows).mapM fun (p : Fin f.rows) => do return (p, ← Fault.read f.order.rowAt p)

/-- The solution for the basis: the right-hand side is indexed by row, the solution by slot. -/
def ftran (f : Factorization α) (v : IndexedVector α) :
    Except Fault (IndexedVector α × Factorization α) := do
  f.requireValid .ftranBeforeFactor
  f.solveThrough (← f.factors).solve (← f.slotTargets) v

/-- The solution for the basis, with right-hand side and solution in the order of positions. The
vector has to be scattered, and is solved where it stands. -/
def ftranInPlace (f : Factorization α) (v : IndexedVector α) : Except Fault (IndexedVector α) := do
  f.requireValid .ftranBeforeFactor
  if v.layout = .packed then throw .packedInPlace
  let x := (← f.factors).solve (← Block.column f.rows 0 v.elements)
  let large (value : α) : Bool := f.config.zeroTolerance < Scalar.magnitude value
  let elements ← Block.setColumn 0 (x.map fun value => if large value then value else 0) v.elements
  return { v with
    elements := elements
    indices := ((List.finRange f.rows).filter fun p => large (x.get p)).map Fin.val }

/-- The solution for the transposed basis: the right-hand side is indexed by slot, the solution by
row. -/
def btran (f : Factorization α) (v : IndexedVector α) :
    Except Fault (IndexedVector α × Factorization α) := do
  f.requireValid .btranBeforeFactor
  f.solveThrough (← f.factors).solveTransposed (← f.rowTargets) v

/-- Two solutions for the basis; the second vector may be in the order of positions. -/
def ftranPair (f : Factorization α) (v w : IndexedVector α) (inPlace : Bool) :
    Except Fault (IndexedVector α × IndexedVector α × Factorization α) := do
  let (v, f) ← f.ftran v
  if inPlace then return (v, ← f.ftranInPlace w, f)
  else
    let (w, f) ← f.ftran w
    return (v, w, f)

end BasisLU.Factorization
