import BasisLU.Proofs.Elimination.LowerUpper

/-!
# Elimination of a repaired matrix

Elimination chooses its pivots from left to right, so matrices with the same first columns go
through the same steps on them (`SameBelow.of_steps`). A column with one entry besides zeros keeps
it, and nothing else, as long as other rows are pivoted (`Single.of_steps`), so a good one is
pivoted on its own row unless that row was taken before (`exists_rowAt_of_single`).

If the columns from the first without a pivot on are replaced by slacks of the rows that have no
pivot, elimination goes through, and every slack is pivoted on its own row (`eliminate_repaired`).
-/

namespace BasisLU.Elimination

open Relation (ReflTransGen)

section Same

variable {α : Type} [Scalar α] {n : Nat} {tolerance : α} {e e' x x' : Elimination α n}

/-- The states are equal except for the columns from `m` on. -/
structure SameBelow (m : Nat) (e x : Elimination α n) : Prop where
  good : x.good = e.good
  rowAt : x.rowAt = e.rowAt
  column : ∀ k : Fin n, k < m → x.columns.get k = e.columns.get k

theorem SameBelow.step {m : Nat} (h : SameBelow m e x) (hm : e.good < m)
    (hs : e.step? tolerance = some e') : ∃ x', x.step? tolerance = some x' ∧ SameBelow m e' x' := by
  obtain ⟨hlt, p, hp, rfl⟩ := step?_eq_some_iff.1 hs
  have hgood := h.good
  refine ⟨x.pivot ⟨e.good, hlt⟩ p, step?_eq_some_iff.2 ⟨hgood ▸ hlt, p, ?_, ?_⟩, ?_, ?_, ?_⟩
  · simp only [hgood]
    rw [pivotRow?] at hp ⊢
    rw [h.column _ hm, hp]
  · simp only [hgood]
  · simp [hgood]
  · simp [pivot, h.rowAt]
  · intro k hk
    have hlead := h.column ⟨e.good, hlt⟩ hm
    have hcolumn := h.column k hk
    simp only [get_eq_getElem] at hlead hcolumn
    simp [pivot, hlead, hcolumn]

theorem SameBelow.of_steps {m : Nat} (h : SameBelow m e x) (hs : Steps tolerance e e')
    (hm : e'.good ≤ m) : ∃ x', Steps tolerance x x' ∧ SameBelow m e' x' := by
  induction hs with
  | refl => exact ⟨x, .refl, h⟩
  | tail _ hs ih =>
    have hgood := good_of_step hs
    obtain ⟨y, hy, hsame⟩ := ih (by omega)
    obtain ⟨x', hx', hsame'⟩ := hsame.step (by omega) hs
    exact ⟨x', hy.tail hx', hsame'⟩

/-- A run passes through a step on each column that it finishes. -/
theorem exists_step_of_steps (hs : Steps tolerance e e') {m : Nat} (hm : e.good ≤ m)
    (hm' : m < e'.good) : ∃ y z, Steps tolerance e y ∧ y.good = m ∧
      y.step? tolerance = some z ∧ Steps tolerance z e' := by
  induction hs using ReflTransGen.head_induction_on with
  | refl => omega
  | @head x y hxy hye ih =>
    have hgood := good_of_step hxy
    rcases Nat.eq_or_lt_of_le hm with rfl | hlt
    · exact ⟨x, y, .refl, rfl, hxy, hye⟩
    · obtain ⟨z, z', hz, hzm, hzz', hz'⟩ := ih (by omega)
      exact ⟨z, z', .head hxy hz, hzm, hzz', hz'⟩

end Same

section Single

variable {α : Type} [ExactScalar α] {n : Nat} {tolerance : α} {e e' : Elimination α n}

/-- Column `k` holds `c` in row `row`, wherever that stands, and zeros besides. -/
def Single (e : Elimination α n) (k row : Fin n) (c : α) : Prop :=
  ∀ i, e.columns.matrix i k = if e.rowAt.get i = row then c else 0

theorem single_start {A : Square α n} {k row : Fin n} {c : α}
    (h : ∀ i, A.matrix i k = if i = row then c else 0) : Single (start A) k row c := fun i => by
  rw [show (start A).rowAt.get i = i by simp [start]]
  exact h i

theorem Single.step {k row : Fin n} {c : α} (h : Single e k row c)
    (hs : e.step? tolerance = some e') (hk : e'.good ≤ k)
    (hrow : ∀ i : Fin n, i = e.good → e'.rowAt.get i ≠ row) : Single e' k row c := by
  obtain ⟨hlt, p, hp, rfl⟩ := step?_eq_some_iff.1 hs
  have hrow := hrow ⟨e.good, hlt⟩ rfl
  have hexchange : Single (e.exchange ⟨e.good, hlt⟩ p) k row c := fun i => by
    rw [matrix_exchange, rowAt_exchange]
    exact h _
  have hpivot : (e.exchange ⟨e.good, hlt⟩ p).columns.matrix ⟨e.good, hlt⟩ k = 0 := by
    rw [hexchange]
    exact if_neg hrow
  intro i
  rw [pivot_eq, matrix_clear_of_gt _ hk, hpivot, zero_mul, sub_zero, ite_self]
  exact hexchange i

theorem Single.of_steps {k row : Fin n} {c : α} (h : Single e k row c)
    (hs : Steps tolerance e e') (hk : e'.good ≤ k)
    (hrow : ∀ i : Fin n, e.good ≤ i → i < e'.good → e'.rowAt.get i ≠ row) : Single e' k row c := by
  induction hs with
  | refl => exact h
  | @tail y z hsteps hs ih =>
    have hgood := good_of_step hs
    have hmono := (good_of_steps hsteps).1
    refine (ih (by omega) fun i hi hlt => ?_).step hs hk fun i hi => hrow i (by omega) (by omega)
    rw [← rowAt_of_steps (.single hs) hlt]
    exact hrow i hi (by omega)

/-- The column is pivoted on its row. -/
theorem Single.rowAt_of_step {i row : Fin n} {c : α} (htol : 0 ≤ tolerance)
    (h : Single e i row c) (hi : i = e.good) (hs : e.step? tolerance = some e') :
    e'.rowAt.get i = row := by
  obtain ⟨hlt, p, hp, rfl⟩ := step?_eq_some_iff.1 hs
  obtain rfl : i = ⟨e.good, hlt⟩ := Fin.ext hi
  have hlarge := (abs_le_of_pivotRow? hp).2.1
  rw [h] at hlarge
  have hrow : (e.exchange ⟨e.good, hlt⟩ p).rowAt.get ⟨e.good, hlt⟩ = e.rowAt.get p := by
    rw [rowAt_exchange, Equiv.swap_apply_left]
  refine hrow.trans ?_
  by_contra hne
  rw [if_neg hne, abs_zero] at hlarge
  exact absurd hlarge (not_lt.2 htol)

/-- A good column with one nonzero row is pivoted on that row, or the row was taken before. -/
theorem exists_rowAt_of_single (htol : 0 ≤ tolerance) {A : Square α n} {k : Fin n} (row : Fin n)
    (hk : k < (eliminate tolerance A).good) (hA : ∀ i, i ≠ row → A.matrix i k = 0) :
    ∃ j, j ≤ k ∧ (eliminate tolerance A).rowAt.get j = row := by
  by_contra hnone
  push Not at hnone
  obtain ⟨y, z, hy, hyk, hyz, hz⟩ :=
    exists_step_of_steps (steps_eliminate tolerance A) (Nat.zero_le k) hk
  have hgood := (good_of_step hyz).2
  -- No position has `row` before column `k` is pivoted, so until then the column keeps its entry.
  have hstart : Single (start A) k row (A.matrix row k) := single_start fun i => by
    split
    · rw [‹i = row›]
    · exact hA i ‹_›
  have hsingle : Single y k row (A.matrix row k) := by
    refine hstart.of_steps hy hyk.le fun i _ hi => ?_
    rw [← rowAt_of_steps (.head hyz hz) hi]
    exact hnone i (by omega)
  refine hnone k le_rfl ?_
  rw [rowAt_of_steps hz (show k.val < z.good by omega)]
  exact hsingle.rowAt_of_step htol hyk.symm hyz

/-- Slacks of different rows that have no pivot yet are all pivoted on their own rows. -/
theorem steps_of_singles (htol : 0 ≤ tolerance) {c : α} (hc : tolerance < |c|)
    {ρ : Fin n → Fin n} (hρ : Function.Injective ρ) :
    ∀ (m : Nat) (e : Elimination α n), n = e.good + m → Function.Injective e.rowAt.get →
      (∀ p : Fin n, p < e.good → e.rowAt.get p = ρ p) →
      (∀ k : Fin n, e.good ≤ k → Single e k (ρ k) c) →
      ∃ e', Steps tolerance e e' ∧ e'.good = n ∧ ∀ p, e'.rowAt.get p = ρ p
  | 0, e, hm, _, hdone, _ => ⟨e, .refl, by omega, fun p => hdone p (by omega)⟩
  | m + 1, e, hm, hinj, hdone, hleft => by
    obtain ⟨i, hi⟩ : ∃ i : Fin n, i.val = e.good := ⟨⟨e.good, by omega⟩, rfl⟩
    have hsingle := hleft i hi.ge
    -- The row of the next slack stands at a position that is left.
    obtain ⟨q, hq⟩ := (Finite.injective_iff_surjective.1 hinj) (ρ i)
    have hiq : i ≤ q := by
      by_contra hqi
      have := hρ ((hdone q (by omega)).symm.trans hq)
      omega
    obtain ⟨p, hp⟩ : ∃ p, e.pivotRow? tolerance i = some p := by
      refine Option.ne_none_iff_exists'.1 fun hnone => ?_
      have hsmall := pivotRow?_eq_none_iff.1 hnone q hiq
      rw [hsingle, if_pos hq] at hsmall
      exact absurd hc (not_lt.2 hsmall)
    obtain ⟨e', hs⟩ : ∃ e', e.step? tolerance = some e' :=
      ⟨_, step?_eq_some_iff.2 ⟨hi ▸ i.isLt, p, by simpa only [← hi] using hp, rfl⟩⟩
    have hgood := (good_of_step hs).2
    have hrow := hsingle.rowAt_of_step htol hi hs
    have hdone' (r : Fin n) (hr : r < e'.good) : e'.rowAt.get r = ρ r := by
      rcases Nat.lt_or_ge r e.good with hlt | hge
      · rw [rowAt_of_steps (.single hs) hlt, hdone r hlt]
      · rwa [show r = i from Fin.ext (by omega)]
    have hleft' (k : Fin n) (hk : e'.good ≤ k) : Single e' k (ρ k) c := by
      refine (hleft k (by omega)).step hs hk fun j hj hjk => ?_
      have : j = k := hρ ((hdone' j (by omega)).symm.trans hjk)
      omega
    obtain ⟨e'', hsteps, hend, hrows⟩ := steps_of_singles htol hc hρ m e' (by omega)
      (rowAt_injective (.single hs) hinj) hdone' hleft'
    exact ⟨e'', .head hs hsteps, hend, hrows⟩

/-- If a matrix is changed from the first column without a pivot on, where column `k` becomes the
slack of row `ρ k`, so that each row is that of one pivot or one slack, all columns are eliminated,
with the rows in the order `ρ`. -/
theorem eliminate_repaired (htol : 0 ≤ tolerance) {c : α} (hc : tolerance < |c|)
    {A A' : Square α n} {ρ : Fin n → Fin n} (hρ : Function.Injective ρ)
    (hkept : ∀ k : Fin n, k < (eliminate tolerance A).good →
      A'.get k = A.get k ∧ (eliminate tolerance A).rowAt.get k = ρ k)
    (hslack : ∀ k : Fin n, (eliminate tolerance A).good ≤ k →
      ∀ i, A'.matrix i k = if i = ρ k then c else 0) :
    (eliminate tolerance A').good = n ∧ ∀ p, (eliminate tolerance A').rowAt.get p = ρ p := by
  have hsame : SameBelow (eliminate tolerance A).good (start A) (start A') :=
    ⟨rfl, rfl, fun k hk => (hkept k hk).1⟩
  -- The good columns go through as before, and none of their rows is that of a slack.
  obtain ⟨e, he, hsame⟩ := hsame.of_steps (steps_eliminate tolerance A) le_rfl
  have hdone (p : Fin n) (hp : p < e.good) : e.rowAt.get p = ρ p := by
    rw [hsame.rowAt]
    exact (hkept p (hsame.good ▸ hp)).2
  have hleft (k : Fin n) (hk : e.good ≤ k) : Single e k (ρ k) c := by
    refine (single_start (hslack k (hsame.good ▸ hk))).of_steps he hk fun i _ hi hik => ?_
    have : i = k := hρ ((hdone i hi).symm.trans hik)
    omega
  have hinj : Function.Injective e.rowAt.get := by
    rw [hsame.rowAt]
    exact rowAt_eliminate_injective tolerance A
  have hle := (good_of_steps he).2 (Nat.zero_le n)
  obtain ⟨e', hsteps, hgood, hrows⟩ := steps_of_singles htol hc hρ (n - e.good) e (by omega) hinj
    hdone hleft
  rw [eliminate_eq_of_steps (he.trans hsteps) (step?_of_le hgood.ge)]
  exact ⟨hgood, hrows⟩

end Single

end BasisLU.Elimination
