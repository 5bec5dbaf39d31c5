import Mathlib.LinearAlgebra.Matrix.NonsingularInverse
import Mathlib.LinearAlgebra.Matrix.RowCol
import BasisLU.Proofs.Kernel

/-!
# Matrices in product form

An eta matrix is the identity with one column replaced (`eta`). Multiplying by one replaces a column
of a matrix (`mul_eta`), a triangular matrix is the product of the eta matrices of its columns
(`prod_eta_eq`), and a vector passed through solves for the factors one by one
solves for the product (`Solves.mul`, `Solves.foldl`).
-/

namespace BasisLU

open Finset Matrix

variable {α : Type} [ExactScalar α] {n : Nat}

/-- The identity with column `p` replaced by `c`. -/
def eta (p : Fin n) (c : Fin n → α) : Matrix (Fin n) (Fin n) α :=
  (1 : Matrix (Fin n) (Fin n) α).updateCol p c

theorem mul_eta (B : Matrix (Fin n) (Fin n) α) (p : Fin n) (c : Fin n → α) :
    B * eta p c = B.updateCol p (B *ᵥ c) := by
  rw [eta, mul_updateCol, Matrix.mul_one]

theorem eta_mulVec (p : Fin n) (c x : Fin n → α) (i : Fin n) :
    (eta p c *ᵥ x) i = (if i = p then 0 else x i) + c i * x p := by
  simp only [eta, mulVec, dotProduct, updateCol_apply, one_apply]
  rw [← sum_erase_add univ _ (mem_univ p), if_pos rfl,
    sum_congr rfl fun j hj => by rw [if_neg (ne_of_mem_erase hj)]]
  congr 1
  by_cases hi : i = p
  · simp [hi]
  · simp [hi, sum_ite_eq]

theorem eta_transpose_mulVec (p : Fin n) (c x : Fin n → α) (i : Fin n) :
    ((eta p c)ᵀ *ᵥ x) i = if i = p then ∑ j, c j * x j else x i := by
  rw [eta, ← updateRow_transpose, transpose_one, updateRow_mulVec, one_mulVec,
    Function.update_apply]
  rfl

/-- A vector without an entry at `p` passes through. -/
theorem eta_mulVec_of_eq_zero {p : Fin n} {x : Fin n → α} (h : x p = 0) (c : Fin n → α) :
    eta p c *ᵥ x = x := by
  ext i
  rw [eta_mulVec, h, mul_zero, add_zero]
  split
  · rw [‹i = p›, h]
  · rfl

theorem eta_mulVec_single (p : Fin n) (c : Fin n → α) : eta p c *ᵥ Pi.single p 1 = c := by
  rw [mulVec_single_one]
  ext i
  simp [eta]

/-- A product of eta matrices of different columns, where each column vanishes in the rows of the
earlier ones, is made of these columns. -/
theorem prod_eta_mulVec_single (c : Fin n → Fin n → α) (k : Fin n) :
    ∀ l : List (Fin n), l.Pairwise (fun j k => j ≠ k ∧ c k j = 0) →
      (l.map fun j => eta j (c j)).prod *ᵥ Pi.single k 1 = if k ∈ l then c k else Pi.single k 1
  | [], _ => by rw [List.map_nil, List.prod_nil, one_mulVec, if_neg List.not_mem_nil]
  | j :: l, h => by
    obtain ⟨hj, hl⟩ := List.pairwise_cons.1 h
    rw [List.map_cons, List.prod_cons, ← mulVec_mulVec, prod_eta_mulVec_single c k l hl]
    by_cases hk : k ∈ l
    · rw [if_pos hk, if_pos (List.mem_cons_of_mem _ hk), eta_mulVec_of_eq_zero (hj k hk).2]
    · rw [if_neg hk]
      by_cases hjk : k = j
      · subst hjk
        rw [if_pos List.mem_cons_self, eta_mulVec_single]
      · rw [if_neg (List.not_mem_cons_of_ne_of_not_mem hjk hk),
          eta_mulVec_of_eq_zero (Pi.single_eq_of_ne (Ne.symm hjk) 1)]

/-- A product of eta matrices of all columns, in an order in which each column vanishes in the rows
of the earlier ones. -/
theorem prod_eta_eq {c : Fin n → Fin n → α} {l : List (Fin n)} (hall : ∀ k, k ∈ l)
    (h : l.Pairwise (fun j k => j ≠ k ∧ c k j = 0)) :
    (l.map fun j => eta j (c j)).prod = Matrix.of fun i k => c k i := by
  refine ext_of_mulVec_single fun k => ?_
  rw [prod_eta_mulVec_single c k l h, if_pos (hall k), mulVec_single_one]
  rfl

/-! ## Solves -/

/-- `solve` finds a solution of `M x = b` for every `b`. -/
def Solves (M : Matrix (Fin n) (Fin n) α) (solve : Vector α n → Vector α n) : Prop :=
  ∀ b, M *ᵥ (solve b).get = b.get

theorem Solves.mul {M N : Matrix (Fin n) (Fin n) α} {s t : Vector α n → Vector α n}
    (hs : Solves M s) (ht : Solves N t) : Solves (M * N) fun b => t (s b) := fun b => by
  rw [← mulVec_mulVec, ht, hs]

/-- A pass over a list solves for the product of the matrices that its steps solve for. -/
theorem Solves.foldl {ι : Type} {M : ι → Matrix (Fin n) (Fin n) α}
    {step : Vector α n → ι → Vector α n} :
    ∀ l : List ι, (∀ j ∈ l, Solves (M j) fun x => step x j) →
      Solves (l.map M).prod fun x => l.foldl step x
  | [], _ => fun b => by simp
  | j :: l, h => by
    rw [List.map_cons, List.prod_cons]
    exact (h j List.mem_cons_self).mul (.foldl l fun k hk => h k (List.mem_cons_of_mem _ hk))

/-- A matrix that can be solved for every right-hand side is invertible. -/
theorem Solves.isUnit {M : Matrix (Fin n) (Fin n) α} {s : Vector α n → Vector α n}
    (h : Solves M s) : IsUnit M :=
  mulVec_surjective_iff_isUnit.1 fun b => ⟨(s (Vector.ofFn b)).get, by
    rw [h]
    ext i
    simp⟩

end BasisLU
