import BasisLU.Proofs.Elimination.LowerUpper

/-!
# Bounds on what elimination stores

A pivot is a largest entry of what is left of its column, and above the tolerance. So over exact
scalars the multipliers are at most one in magnitude, and the diagonal has the reciprocals of
numbers above the tolerance (`Bounded`). A later exchange moves the multipliers of two rows within
their columns, where both stay below the diagonal (`Bounded.exchange`), and clearing a column
touches no column that is done (`Bounded.clear`). The bounds therefore hold where elimination ends,
early or not (`bounded_eliminate`).
-/

namespace BasisLU.Elimination

variable {α : Type} [ExactScalar α] {n : Nat} {tolerance : α} {e e' : Elimination α n}

/-- In the columns that are done no multiplier is above one, and the diagonal is the reciprocal of a
pivot above the tolerance. -/
structure Bounded (tolerance : α) (e : Elimination α n) : Prop where
  multiplier_le : ∀ k r : Fin n, k < e.good → k < r → |e.columns.matrix r k| ≤ 1
  pivot : ∀ k : Fin n, k < e.good →
    ∃ pivot, tolerance < |pivot| ∧ e.columns.matrix k k = 1 / pivot

theorem bounded_start (tolerance : α) (A : Square α n) : Bounded tolerance (start A) where
  multiplier_le _ _ hk := absurd hk (Nat.not_lt_zero _)
  pivot _ hk := absurd hk (Nat.not_lt_zero _)

theorem Bounded.exchange (h : Bounded tolerance e) {i p : Fin n} (hi : e.good ≤ i)
    (hp : e.good ≤ p) : Bounded tolerance (e.exchange i p) where
  multiplier_le k r hk hr := by
    change k.val < e.good at hk
    rw [matrix_exchange]
    refine h.multiplier_le k _ hk ?_
    rcases Nat.lt_or_ge r e.good with hdone | hleft
    · rwa [swap_apply_of_lt hi hp hdone]
    · have := (le_swap_apply_iff hi hp).2 hleft
      omega
  pivot k hk := by
    rw [matrix_exchange, swap_apply_of_lt hi hp hk]
    exact h.pivot k hk

/-- The column that is cleared has its largest entry on the diagonal. -/
theorem Bounded.clear (h : Bounded tolerance e) {i : Fin n} (hi : i.val = e.good)
    (hlarge : tolerance < |e.columns.matrix i i|)
    (hmax : ∀ r, i ≤ r → |e.columns.matrix r i| ≤ |e.columns.matrix i i|) :
    Bounded tolerance (e.clear i) where
  multiplier_le k r hk hr := by
    rcases Fin.lt_or_eq_of_le (show k ≤ i by change k < e.good + 1 at hk; omega) with hlt | rfl
    · rw [matrix_clear_of_lt e hlt]
      exact h.multiplier_le k r (by omega) hr
    · rw [matrix_clear_self, if_neg hr.not_gt, if_neg hr.ne', abs_mul, abs_one_div,
        mul_one_div]
      exact div_le_one_of_le₀ (hmax r hr.le) (abs_nonneg _)
  pivot k hk := by
    rcases Fin.lt_or_eq_of_le (show k ≤ i by change k < e.good + 1 at hk; omega) with hlt | rfl
    · rw [matrix_clear_of_lt e hlt]
      exact h.pivot k (by omega)
    · rw [matrix_clear_self, if_neg (lt_irrefl k), if_pos rfl]
      exact ⟨_, hlarge, rfl⟩

theorem Bounded.step (h : Bounded tolerance e) (hs : e.step? tolerance = some e') :
    Bounded tolerance e' := by
  obtain ⟨hlt, p, hp, rfl⟩ := step?_eq_some_iff.1 hs
  obtain ⟨i, hi⟩ : ∃ i : Fin n, i = ⟨e.good, hlt⟩ := ⟨_, rfl⟩
  have hgood : i.val = e.good := congrArg Fin.val hi
  rw [← hi] at hp ⊢
  obtain ⟨hip, hlarge, hmax⟩ := abs_le_of_pivotRow? hp
  -- The exchange brings the pivot to the diagonal, and keeps what is left below it.
  refine (h.exchange hgood.ge (hgood.symm.trans_le hip)).clear hgood ?_ fun r hr => ?_
  · rwa [matrix_exchange, Equiv.swap_apply_left]
  · rw [matrix_exchange, matrix_exchange, Equiv.swap_apply_left]
    have hle := (le_swap_apply_iff (le_refl i.val) hip).2 hr
    exact hmax _ hle

theorem Bounded.of_steps (h : Bounded tolerance e) (hs : Steps tolerance e e') :
    Bounded tolerance e' := by
  induction hs with
  | refl => exact h
  | tail _ hs ih => exact ih.step hs

theorem bounded_eliminate (tolerance : α) (A : Square α n) :
    Bounded tolerance (eliminate tolerance A) :=
  (bounded_start tolerance A).of_steps (steps_eliminate tolerance A)

/-- A pivot above a positive tolerance has a reciprocal, which is below that of the tolerance. -/
theorem Bounded.diagonal (h : Bounded tolerance e) (htol : 0 < tolerance) {k : Fin n}
    (hk : k < e.good) : e.columns.matrix k k ≠ 0 ∧ |e.columns.matrix k k| < 1 / tolerance ∧
      tolerance < |1 / e.columns.matrix k k| := by
  obtain ⟨pivot, hlarge, hdiagonal⟩ := h.pivot k hk
  have hpivot : pivot ≠ 0 := abs_pos.1 (htol.trans hlarge)
  rw [hdiagonal, one_div_one_div, abs_one_div]
  exact ⟨one_div_ne_zero hpivot, one_div_lt_one_div_of_lt htol hlarge, hlarge⟩

end BasisLU.Elimination
