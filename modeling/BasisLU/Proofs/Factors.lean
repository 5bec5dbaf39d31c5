import BasisLU.Proofs.Elimination.LowerUpper
import BasisLU.Proofs.ProductForm
import BasisLU.Factors

/-!
# Solves with stored factors

Over exact scalars, a factored basis and its updates stand for the product of the lower factor, the
upper factor and one eta matrix for each update (`Factors.matrix`). Every pass of the two solves
undoes one eta matrix, or its transpose, so together they solve for that matrix
(`Factors.solves`) and for its transpose (`Factors.solves_transpose`), if no stored pivot is zero
(`Factors.Regular`).
-/

namespace BasisLU

open Finset Matrix

variable {α : Type} [ExactScalar α] {n : Nat}

/-! ## Triangular factors -/

theorem prod_eta_lower (M : Matrix (Fin n) (Fin n) α) :
    ((List.finRange n).map fun j => eta j fun r => lower M r j).prod = lower M :=
  prod_eta_eq List.mem_finRange <| (List.pairwise_lt_finRange n).imp fun {j k} hjk =>
    ⟨hjk.ne, by simp [lower, hjk.not_gt, hjk.ne']⟩

theorem prod_eta_upper (M : Matrix (Fin n) (Fin n) α) :
    ((List.finRange n).reverse.map fun j => eta j fun r => upper M r j).prod = upper M :=
  prod_eta_eq (fun k => List.mem_reverse.2 (List.mem_finRange k)) <|
    List.pairwise_reverse.2 <| (List.pairwise_lt_finRange n).imp fun {j k} hjk =>
      ⟨hjk.ne', by simp [upper, hjk.not_gt, hjk.ne']⟩

/-- A step that solves for an eta matrix: row `p` is divided by the pivot, and then multiples of it
are taken off the other rows. -/
theorem solves_eta {p : Fin n} {c : Fin n → α} {s : Vector α n → Vector α n}
    (hp : ∀ x, c p * (s x).get p = x.get p)
    (hr : ∀ x r, r ≠ p → (s x).get r + c r * (s x).get p = x.get r) : Solves (eta p c) s := by
  intro x
  ext i
  rw [eta_mulVec]
  split
  · subst i
    rw [zero_add, hp]
  · exact hr x i ‹_›

/-- A step that solves for a transposed eta matrix: only row `p` changes. -/
theorem solves_eta_transpose {p : Fin n} {c : Fin n → α} (on : Fin n → Bool) (column : Vector α n)
    (d : α) (hp : on p = false)
    (hr : ∀ r, r ≠ p → c r = if on r then column.get r else 0) (hd : c p * d = 1) :
    Solves (eta p c)ᵀ fun x =>
      x.set p (Kernel.subtractInner ((List.finRange n).filter on) (x.get p) x column * d)
        p.isLt := by
  intro x
  ext i
  rw [eta_transpose_mulVec]
  split
  · subst i
    have hsum : ∑ j, (if on j then x.get j * column.get j else 0) =
        ∑ j ∈ univ.erase p, c j * x.get j := by
      rw [← sum_erase univ (a := p) (by simp [hp])]
      refine sum_congr rfl fun j hj => ?_
      rw [hr j (ne_of_mem_erase hj)]
      split
      · exact mul_comm _ _
      · exact (zero_mul _).symm
    rw [← sum_erase_add univ _ (mem_univ p),
      sum_congr rfl fun j hj => by rw [get_set, if_neg (ne_of_mem_erase hj)],
      get_set, if_pos rfl, Kernel.subtractInner_filter, hsum, mul_comm (_ - _) d, ← mul_assoc, hd,
      one_mul, add_sub_cancel]
  · rw [get_set, if_neg ‹_›]

/-- A pivot undoes its stored reciprocal. -/
theorem one_div_mul_mul_cancel {a : α} (h : a ≠ 0) (x : α) : 1 / a * (x * a) = x := by
  field_simp

section Triangular

variable (columns : Square α n)

theorem solves_lowerStep (i : Fin n) :
    Solves (eta i fun r => lower columns.matrix r i) fun x => lowerStep columns x i := by
  refine solves_eta (fun x => ?_) fun x r hr => ?_
  · simp [lowerStep, lower]
  · rw [lowerStep, Kernel.get_subtractMultiple, Kernel.get_subtractMultiple, if_neg (lt_irrefl i),
      lower, of_apply, if_neg (Ne.symm hr)]
    split
    · exact (congrArg _ (mul_comm _ _)).trans (sub_add_cancel _ _)
    · rw [zero_mul, add_zero]

theorem solves_upperStep {i : Fin n} (hi : columns.matrix i i ≠ 0) :
    Solves (eta i fun r => upper columns.matrix r i) (upperStep columns i) := by
  refine solves_eta (fun x => ?_) fun x r hr => ?_
  · rw [upperStep, Kernel.get_subtractMultiple, if_neg (lt_irrefl i), get_set, if_pos rfl, upper,
      of_apply, if_neg (lt_irrefl i), if_pos rfl]
    exact one_div_mul_mul_cancel hi (x.get i)
  · rw [upperStep, Kernel.get_subtractMultiple, Kernel.get_subtractMultiple, if_neg (lt_irrefl i),
      get_set, get_set, if_pos rfl, if_neg hr, upper, of_apply, if_neg hr]
    split
    · exact (congrArg _ (mul_comm _ _)).trans (sub_add_cancel _ _)
    · rw [zero_mul, add_zero]

theorem solves_lowerStepTransposed (i : Fin n) :
    Solves (eta i fun r => lower columns.matrix r i)ᵀ (lowerStepTransposed columns i) := by
  have := solves_eta_transpose (p := i) (c := fun r => lower columns.matrix r i) (fun r => i < r)
    (columns.get i) 1 (by simp)
    (fun r hr => by simp [lower, Ne.symm hr, Square.matrix]) (by simp [lower])
  simp only [mul_one] at this
  exact this

theorem solves_upperStepTransposed {i : Fin n} (hi : columns.matrix i i ≠ 0) :
    Solves (eta i fun r => upper columns.matrix r i)ᵀ
      fun x => upperStepTransposed columns x i :=
  solves_eta_transpose (fun r => r < i) (columns.get i) ((columns.get i).get i) (by simp)
    (fun r hr => by simp [upper, hr, Square.matrix])
    (by rw [upper, of_apply, if_neg (lt_irrefl i), if_pos rfl]; exact one_div_mul_cancel hi)

theorem solves_lower : Solves (lower columns.matrix) (solveLower columns) := by
  rw [← prod_eta_lower]
  exact .foldl _ fun i _ => solves_lowerStep columns i

theorem solves_upper (h : ∀ i, columns.matrix i i ≠ 0) :
    Solves (upper columns.matrix) (solveUpper columns) := by
  rw [← prod_eta_upper]
  unfold solveUpper
  simp only [List.foldr_eq_foldl_reverse]
  exact .foldl _ fun i _ => solves_upperStep columns (h i)

theorem solves_lower_transpose :
    Solves (lower columns.matrix)ᵀ (solveLowerTransposed columns) := by
  rw [← prod_eta_lower, transpose_list_prod, List.map_map, ← List.map_reverse]
  unfold solveLowerTransposed
  simp only [List.foldr_eq_foldl_reverse]
  exact .foldl _ fun i _ => solves_lowerStepTransposed columns i

theorem solves_upper_transpose (h : ∀ i, columns.matrix i i ≠ 0) :
    Solves (upper columns.matrix)ᵀ (solveUpperTransposed columns) := by
  rw [← prod_eta_upper, transpose_list_prod, List.map_map, ← List.map_reverse, List.reverse_reverse]
  exact .foldl _ fun i _ => solves_upperStepTransposed columns (h i)

end Triangular

/-! ## Updates -/

namespace Update

/-- The eta matrix of an update, which has the pivot itself where the update has its reciprocal. -/
def matrix (u : Update α n) : Matrix (Fin n) (Fin n) α :=
  eta u.pivot (Function.update u.column.get u.pivot (1 / u.column.get u.pivot))

theorem solves {u : Update α n} (h : u.column.get u.pivot ≠ 0) : Solves u.matrix u.apply := by
  refine solves_eta (fun x => ?_) fun x r hr => ?_
  · rw [apply, get_set, if_pos rfl, Function.update_self]
    exact one_div_mul_mul_cancel h (x.get u.pivot)
  · rw [apply, get_set, get_set, if_pos rfl, if_neg hr, Function.update_of_ne hr,
      Kernel.get_subtractMultiple, if_pos trivial]
    exact (congrArg _ (mul_comm _ _)).trans (sub_add_cancel _ _)

theorem solves_transpose {u : Update α n} (h : u.column.get u.pivot ≠ 0) :
    Solves u.matrixᵀ u.applyTransposed :=
  solves_eta_transpose (fun r => r ≠ u.pivot) u.column (u.column.get u.pivot) (by simp)
    (fun r hr => by simp [hr]) (by rw [Function.update_self]; exact one_div_mul_cancel h)

end Update

namespace Factors

/-- The matrix that the factors and updates stand for, in the order of positions. -/
def matrix (f : Factors α n) : Matrix (Fin n) (Fin n) α :=
  lower f.columns.matrix * upper f.columns.matrix * (f.updates.map Update.matrix).prod

/-- No stored pivot is zero. -/
structure Regular (f : Factors α n) : Prop where
  diagonal : ∀ i, f.columns.matrix i i ≠ 0
  updates : ∀ u ∈ f.updates, u.column.get u.pivot ≠ 0

theorem solves {f : Factors α n} (h : f.Regular) : Solves f.matrix f.solve :=
  ((solves_lower f.columns).mul (solves_upper f.columns h.diagonal)).mul
    (.foldl _ fun u hu => u.solves (h.updates u hu))

theorem solves_transpose {f : Factors α n} (h : f.Regular) :
    Solves f.matrixᵀ f.solveTransposed := by
  have hupdates : Solves ((f.updates.map Update.matrix).prod)ᵀ
      fun x => f.updates.foldr (fun u x => u.applyTransposed x) x := by
    rw [transpose_list_prod, List.map_map, ← List.map_reverse]
    simp only [List.foldr_eq_foldl_reverse]
    exact .foldl _ fun u hu => Update.solves_transpose (h.updates u (List.mem_reverse.1 hu))
  rw [matrix, transpose_mul, transpose_mul]
  exact hupdates.mul
    ((solves_upper_transpose f.columns h.diagonal).mul (solves_lower_transpose f.columns))

end Factors

end BasisLU
