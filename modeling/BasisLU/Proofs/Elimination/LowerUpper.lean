import Mathlib.Algebra.BigOperators.Fin
import Mathlib.LinearAlgebra.Matrix.Notation
import Mathlib.Tactic.FieldSimp
import Mathlib.Tactic.Ring
import BasisLU.Proofs.Elimination.Steps

/-!
# The factors that elimination computes

Over exact scalars, what is stored of a matrix partly eliminated: the lower factor below the
diagonal of the columns that are done, the upper factor on and above it, and in the columns and rows
that are left what remains to be eliminated (`Factored`). An exchange of two rows that are left and
the clearing of a column keep this (`Factored.exchange`, `Factored.clear`), so it holds where
elimination ends (`factored_eliminate`), and there no entry that is left of the next column is above
the tolerance (`abs_le_of_eliminate`).
-/

namespace BasisLU

open Finset

variable {α : Type} [ExactScalar α] {n : Nat}

/-- The lower factor stored in `M`, with ones on its diagonal. -/
def lower (M : Matrix (Fin n) (Fin n) α) : Matrix (Fin n) (Fin n) α :=
  Matrix.of fun i j => if j < i then M i j else if j = i then 1 else 0

/-- The upper factor stored in `M`, whose diagonal is stored as reciprocals. -/
def upper (M : Matrix (Fin n) (Fin n) α) : Matrix (Fin n) (Fin n) α :=
  Matrix.of fun j k => if j < k then M j k else if j = k then 1 / M k k else 0

/-- What is left to eliminate in `M` once the first `good` columns are done. -/
def remainder (good : Nat) (M : Matrix (Fin n) (Fin n) α) : Matrix (Fin n) (Fin n) α :=
  Matrix.of fun i k => if good ≤ i ∧ good ≤ k then M i k else 0

/-- A term of the product of the factors, by the entries stored. -/
theorem lower_mul_upper (M : Matrix (Fin n) (Fin n) α) (i j k : Fin n) :
    lower M i j * upper M j k = if j ≤ min i k then
      (if j = i then 1 else M i j) * (if j = k then 1 / M k k else M j k) else 0 := by
  simp only [lower, upper, Matrix.of_apply, le_min_iff]
  rcases lt_trichotomy j i with hi | rfl | hi
  · rcases lt_trichotomy j k with hk | rfl | hk
    · simp [hi, hk, hi.le, hk.le, hi.ne, hk.ne]
    · simp [hi, hi.le, hi.ne]
    · simp [hk.not_gt, hk.not_ge, hk.ne']
  · rcases lt_trichotomy j k with hk | rfl | hk
    · simp [hk, hk.le, hk.ne]
    · simp
    · simp [hk.not_gt, hk.not_ge, hk.ne']
  · simp [hi.not_gt, hi.not_ge, hi.ne']

namespace Elimination

/-- The state of an elimination of `A`: every entry of `A` is that of the product of the factors so
far and of what is left, in the row that stands there now. -/
structure Factored (A : Square α n) (e : Elimination α n) : Prop where
  pivot_ne_zero : ∀ k : Fin n, k < e.good → e.columns.matrix k k ≠ 0
  entry_eq : ∀ i k, A.matrix (e.rowAt.get i) k =
    (∑ j with j.val < e.good, lower e.columns.matrix i j * upper e.columns.matrix j k) +
      remainder e.good e.columns.matrix i k

theorem factored_start (A : Square α n) : Factored A (start A) where
  pivot_ne_zero k hk := absurd hk (Nat.not_lt_zero _)
  entry_eq i k := by simp [start, remainder]

/-- A transposition of positions that are left does not touch those that are done. -/
theorem swap_apply_of_lt {good : Nat} {i p j : Fin n} (hi : good ≤ i) (hp : good ≤ p)
    (hj : j < good) : Equiv.swap i p j = j :=
  Equiv.swap_apply_of_ne_of_ne (by omega) (by omega)

theorem le_swap_apply_iff {good : Nat} {i p r : Fin n} (hi : good ≤ i) (hp : good ≤ p) :
    good ≤ (Equiv.swap i p r).val ↔ good ≤ r.val := by
  rw [Equiv.swap_apply_def]
  split
  · subst r; exact iff_of_true hp hi
  · split
    · subst r; exact iff_of_true hi hp
    · rfl

theorem Factored.exchange {A : Square α n} {e : Elimination α n} (h : Factored A e) {i p : Fin n}
    (hi : e.good ≤ i) (hp : e.good ≤ p) : Factored A (e.exchange i p) where
  pivot_ne_zero k hk := by
    rw [matrix_exchange, swap_apply_of_lt hi hp hk]
    exact h.pivot_ne_zero k hk
  entry_eq r k := by
    rw [rowAt_exchange, h.entry_eq]
    have hle := le_swap_apply_iff hi hp (r := r)
    congr 1
    · refine sum_congr rfl fun j hj => ?_
      have hj : j < e.good := (mem_filter.1 hj).2
      have hlower : lower (e.exchange i p).columns.matrix r j =
          lower e.columns.matrix (Equiv.swap i p r) j := by
        -- A row that is left takes its multipliers along, all of which are in columns before it.
        rcases Nat.lt_or_ge r e.good with hr | hr
        · simp only [lower, Matrix.of_apply, matrix_exchange, swap_apply_of_lt hi hp hr]
        · have hjr : j < r := by omega
          have hjr' : j < Equiv.swap i p r := by have := hle.2 hr; omega
          simp only [lower, Matrix.of_apply, matrix_exchange, if_pos hjr, if_pos hjr']
      have hupper : upper (e.exchange i p).columns.matrix j k = upper e.columns.matrix j k := by
        simp only [upper, Matrix.of_apply, matrix_exchange, swap_apply_of_lt hi hp hj]
        split
        · rfl
        · split
          · subst k; rw [swap_apply_of_lt hi hp hj]
          · rfl
      rw [hlower, hupper]
    · simp only [remainder, Matrix.of_apply, matrix_exchange, hle]
      rfl

theorem sum_filter_lt_succ (f : Fin n → α) (i : Fin n) :
    ∑ j with j.val < i.val + 1, f j = (∑ j with j.val < i.val, f j) + f i := by
  have hinsert : (univ.filter fun j : Fin n => j.val < i.val + 1) =
      insert i (univ.filter fun j : Fin n => j.val < i.val) := by
    ext j
    simp only [mem_filter, mem_univ, true_and, mem_insert, Fin.ext_iff]
    omega
  rw [hinsert, sum_insert (by simp), add_comm]

/-- Clearing column `i` takes over what is left in that column and row into the factors. -/
theorem remainder_clear {e : Elimination α n} {i : Fin n} (hc : e.columns.matrix i i ≠ 0)
    (r k : Fin n) : remainder i.val e.columns.matrix r k =
      lower (e.clear i).columns.matrix r i * upper (e.clear i).columns.matrix i k +
        remainder (i.val + 1) (e.clear i).columns.matrix r k := by
  simp only [remainder, lower, upper, Matrix.of_apply, Fin.val_fin_le, Nat.succ_le_iff,
    Fin.val_fin_lt]
  -- Above row `i` nothing is left. Row `i` goes to the upper factor as it is, and below it column
  -- `i` goes to the lower factor and the later columns give up the product.
  rcases lt_trichotomy r i with hr | rfl | hr
  · simp [hr.not_gt, hr.not_ge, hr.ne']
  · rcases lt_trichotomy k r with hk | rfl | hk
    · simp [hk.not_gt, hk.not_ge, hk.ne']
    · simp [matrix_clear_self]
    · simp [hk, hk.le, matrix_clear_of_gt e hk]
  · rcases lt_trichotomy k i with hk | rfl | hk
    · simp [hk.not_gt, hk.not_ge, hk.ne']
    · simp [matrix_clear_self, hr, hr.le, hr.not_gt, hr.ne', hc]
    · simp only [matrix_clear_of_gt e hk, hr, hk, hr.le, hk.le, and_self, if_true, lt_irrefl,
        if_false]
      ring

theorem Factored.clear {A : Square α n} {e : Elimination α n} (h : Factored A e) {i : Fin n}
    (hi : i.val = e.good) (hc : e.columns.matrix i i ≠ 0) : Factored A (e.clear i) where
  pivot_ne_zero k hk := by
    rcases Fin.lt_or_eq_of_le (show k ≤ i by change k < e.good + 1 at hk; omega) with hlt | rfl
    · rw [matrix_clear_of_lt e hlt]
      exact h.pivot_ne_zero k (by omega)
    · rw [matrix_clear_self, if_neg (lt_irrefl k), if_pos rfl]
      exact one_div_ne_zero hc
  entry_eq r k := by
    have hgood : (e.clear i).good = i.val + 1 := by rw [hi]; rfl
    have hsame : ∑ j with j.val < i.val, lower (e.clear i).columns.matrix r j *
          upper (e.clear i).columns.matrix j k =
        ∑ j with j.val < i.val, lower e.columns.matrix r j * upper e.columns.matrix j k := by
      refine sum_congr rfl fun j hj => ?_
      have hj : j < i := (mem_filter.1 hj).2
      have hupper : upper (e.clear i).columns.matrix j k = upper e.columns.matrix j k := by
        rcases lt_trichotomy k i with hk | rfl | hk
        · simp only [upper, Matrix.of_apply, matrix_clear_of_lt e hk]
        · simp only [upper, Matrix.of_apply, matrix_clear_self, if_pos hj]
        · have hji : ¬ i < j := by omega
          have hjk : j < k := by omega
          simp only [upper, Matrix.of_apply, matrix_clear_of_gt e hk, if_neg hji, if_pos hjk]
      rw [hupper]
      simp only [lower, Matrix.of_apply, matrix_clear_of_lt e hj]
    rw [hgood, sum_filter_lt_succ, hsame, add_assoc, ← remainder_clear hc, hi]
    exact h.entry_eq r k

/-! ## Where elimination ends -/

variable {tolerance : α} {e e' : Elimination α n}

/-- The row found is that of a largest entry at or below the diagonal, and above the tolerance. -/
theorem abs_le_of_pivotRow? {i p : Fin n} (h : e.pivotRow? tolerance i = some p) :
    i ≤ p ∧ tolerance < |e.columns.matrix p i| ∧
      ∀ r, i ≤ r → |e.columns.matrix r i| ≤ |e.columns.matrix p i| := by
  simpa only [Scalar.magnitude_eq_abs, not_lt] using not_lt_of_pivotRow? h

theorem pivotRow?_eq_none_iff {i : Fin n} : e.pivotRow? tolerance i = none ↔
    ∀ r, i ≤ r → |e.columns.matrix r i| ≤ tolerance := by
  simp only [pivotRow?_eq_none_iff_forall, Scalar.magnitude_eq_abs, not_lt]

theorem Factored.of_steps {A : Square α n} (htol : 0 ≤ tolerance) (h : Steps tolerance e e')
    (he : Factored A e) : Factored A e' := by
  induction h with
  | refl => exact he
  | tail _ hs ih =>
    obtain ⟨hlt, p, hp, rfl⟩ := step?_eq_some_iff.1 hs
    obtain ⟨hi, hlarge, -⟩ := abs_le_of_pivotRow? hp
    refine (ih.exchange le_rfl hi).clear rfl ?_
    rw [matrix_exchange, Equiv.swap_apply_left]
    exact abs_pos.1 (htol.trans_lt hlarge)

theorem factored_eliminate (htol : 0 ≤ tolerance) (A : Square α n) :
    Factored A (eliminate tolerance A) :=
  .of_steps htol (steps_eliminate tolerance A) (factored_start A)

/-- If elimination stops early, no entry left of the next column is above the tolerance. -/
theorem abs_le_of_eliminate (A : Square α n) {i : Fin n}
    (hi : i.val = (eliminate tolerance A).good) {r : Fin n} (hr : i ≤ r) :
    |(eliminate tolerance A).columns.matrix r i| ≤ tolerance := by
  have hstop := step?_eliminate tolerance A
  rw [step?, dif_pos (hi ▸ i.isLt), Option.map_eq_none_iff] at hstop
  have hfin : (⟨(eliminate tolerance A).good, hi ▸ i.isLt⟩ : Fin n) = i := Fin.ext hi.symm
  rw [hfin] at hstop
  exact pivotRow?_eq_none_iff.1 hstop r hr

/-- Every entry of the matrix, by the entries stored. -/
theorem Factored.entry_eq_sum {A : Square α n} (h : Factored A e) (i k : Fin n) :
    A.matrix (e.rowAt.get i) k =
      (∑ j with j.val < e.good ∧ j ≤ min i k, (if j = i then 1 else e.columns.matrix i j) *
        (if j = k then 1 / e.columns.matrix k k else e.columns.matrix j k)) +
      if e.good ≤ k ∧ e.good ≤ i then e.columns.matrix i k else 0 := by
  rw [h.entry_eq, sum_filter, sum_filter]
  congr 1
  · refine sum_congr rfl fun j _ => ?_
    rw [lower_mul_upper, ite_and]
  · simp only [remainder, Matrix.of_apply, and_comm]

/-- Elimination of every column factors the matrix with its rows in the order found. -/
theorem Factored.submatrix_eq {A : Square α n} (h : Factored A e) (hgood : e.good = n) :
    A.matrix.submatrix e.rowAt.get id = lower e.columns.matrix * upper e.columns.matrix := by
  ext i k
  rw [Matrix.submatrix_apply, id_eq, h.entry_eq, Matrix.mul_apply, hgood]
  simp [remainder]

end Elimination

end BasisLU
