import BasisLU.Fault
import BasisLU.Scalar

/-!
# Kernels on columns

The four loops of elimination and substitution, on columns of a fixed length.

- `subtractMultiple` subtracts a multiple of one column from another on chosen rows
  (`getElem_subtractMultiple`);
- `subtractInner` subtracts an inner product term by term, in the order of the rows listed;
- `rescale` multiplies chosen rows (`getElem_rescale`);
- `largest?` is the first entry of largest magnitude above a threshold.

Each product is formed and then subtracted, and no term is left out because it is zero, so the
results are fixed to the last bit, infinities, NaN and the sign of zero included.

The `…Array` forms take columns of unknown length and check that the lengths agree.
-/

namespace BasisLU

@[simp] theorem get_eq_getElem {β : Type} {n : Nat} (x : Vector β n) (r : Fin n) :
    x.get r = getElem x r.val r.isLt := rfl

namespace Kernel

variable {α : Type} [Scalar α] {n : Nat}

/-- `y - a * x` on the rows that satisfy `on`, and `y` elsewhere. -/
def subtractMultiple (on : Fin n → Prop) [DecidablePred on] (a : α) (x y : Vector α n) :
    Vector α n :=
  Vector.ofFn fun r => if on r then y.get r - a * x.get r else y.get r

@[simp] theorem getElem_subtractMultiple (on : Fin n → Prop) [DecidablePred on] (a : α)
    (x y : Vector α n) (i : Nat) (h : i < n) :
    (subtractMultiple on a x y)[i] = if on ⟨i, h⟩ then y[i] - a * x[i] else y[i] := by
  simp [subtractMultiple]

/-- `v - x r₁ * y r₁ - x r₂ * y r₂ - …` over the rows listed. -/
def subtractInner (rows : List (Fin n)) (v : α) (x y : Vector α n) : α :=
  rows.foldl (fun v r => v - x.get r * y.get r) v

@[simp] theorem subtractInner_nil (v : α) (x y : Vector α n) : subtractInner [] v x y = v := rfl

@[simp] theorem subtractInner_cons (r : Fin n) (rows : List (Fin n)) (v : α) (x y : Vector α n) :
    subtractInner (r :: rows) v x y = subtractInner rows (v - x.get r * y.get r) x y := rfl

/-- `x * a` on the rows that satisfy `on`, and `x` elsewhere. -/
def rescale (on : Fin n → Prop) [DecidablePred on] (a : α) (x : Vector α n) : Vector α n :=
  Vector.ofFn fun r => if on r then x.get r * a else x.get r

@[simp] theorem getElem_rescale (on : Fin n → Prop) [DecidablePred on] (a : α) (x : Vector α n)
    (i : Nat) (h : i < n) :
    (rescale on a x)[i] = if on ⟨i, h⟩ then x[i] * a else x[i] := by
  simp [rescale]

/-- The largest magnitude found so far, which starts at the threshold. -/
def bar {ι : Type} (threshold : α) (best : Option (ι × α)) : α :=
  best.elim threshold (·.2)

/-- The place and magnitude of the first entry of largest magnitude, if one is above `threshold`.
An entry that compares with nothing is never taken. -/
def largest? {ι : Type} (threshold : α) (entries : List (α × ι)) : Option (ι × α) :=
  entries.foldl (fun best e =>
    if bar threshold best < Scalar.magnitude e.1 then some (e.2, Scalar.magnitude e.1)
    else best) none

/-- `subtractMultiple` on all rows of columns of equal length. -/
def subtractMultipleArray (a : α) (x y : Array α) : Except Fault (Array α) :=
  if h : y.size = x.size then .ok (subtractMultiple (fun _ => True) a x.toVector ⟨y, h⟩).toArray
  else .error .multipleLengths

/-- `subtractInner` over all rows of columns of equal length. -/
def subtractInnerArray (v : α) (x y : Array α) : Except Fault α :=
  if h : y.size = x.size then .ok (subtractInner (List.finRange x.size) v x.toVector ⟨y, h⟩)
  else .error .innerLengths

/-- `rescale` on all rows. -/
def rescaleArray (a : α) (x : Array α) : Array α :=
  (rescale (fun _ => True) a x.toVector).toArray

/-- `largest?` with the positions of an array as places. -/
def largestInArray? (threshold : α) (x : Array α) : Option (Nat × α) :=
  largest? threshold x.toList.zipIdx

end Kernel

end BasisLU
