import BasisLU.Proofs.Elimination.Repair

/-!
# Elimination looks only to the left

What elimination does to a column is decided by that column and those left of it. Two matrices with
the same first `m` columns go through the same states up to there, apart from the other columns. If
that is where elimination ends, it ends alike (`sameBelow_eliminate`).

Otherwise the two go separate ways from column `m` on, and exchange their rows differently. The rows
of the first `m` positions stay from then on, and an exchange of others carries the entries left of
column `m` along (`Carries.of_steps`). So these entries belong to the same rows at the end of both,
wherever those have come to stand (`carries_eliminate`). Nothing is asked of the scalars.
-/

namespace BasisLU.Elimination

variable {α : Type} [Scalar α] {n m : Nat} {tolerance : α} {e e' x : Elimination α n}

omit [Scalar α] in
theorem SameBelow.symm (h : SameBelow m e x) : SameBelow m x e :=
  ⟨h.good.symm, h.rowAt.symm, fun k hk => (h.column k hk).symm⟩

/-- Neither has a step left, if the next column is one that they share. -/
theorem SameBelow.step?_eq_none (h : SameBelow m e x) (hm : e.good < m)
    (hstop : e.step? tolerance = none) : x.step? tolerance = none := by
  refine Option.eq_none_iff_forall_ne_some.2 fun y hy => ?_
  obtain ⟨z, hz, -⟩ := h.symm.step (h.good ▸ hm) hy
  exact nomatch hz.symm.trans hstop

/-- Elimination goes on from every state that it leads to. -/
theorem steps_eliminate_of_steps {A : Square α n} (h : Steps tolerance (start A) e) :
    Steps tolerance e (eliminate tolerance A) := by
  rw [eliminate_eq_of_steps (h.trans (steps_run n e)) (step?_run n e (Nat.le_add_left _ _))]
  exact steps_run n e

/-- A run passes through a state with `m` columns done, for every `m` between those at its ends. -/
theorem exists_steps_of_le (h : Steps tolerance e e') (hm : e.good ≤ m) (hm' : m ≤ e'.good) :
    ∃ y, Steps tolerance e y ∧ y.good = m ∧ Steps tolerance y e' := by
  rcases Nat.lt_or_eq_of_le hm' with hlt | rfl
  · obtain ⟨y, z, hy, hgood, hyz, hz⟩ := exists_step_of_steps h hm hlt
    exact ⟨y, hy, hgood, .head hyz hz⟩
  · exact ⟨e', h, rfl, .refl⟩

/-- A row has the same entries left of column `m` in both states, each at the position where it has
the row. -/
def Carries (m : Nat) (e x : Elimination α n) : Prop :=
  ∀ r s : Fin n, x.rowAt.get r = e.rowAt.get s →
    ∀ k : Fin n, k < m → x.columns.matrix r k = e.columns.matrix s k

/-- A step behind column `m` carries the entries left of it along with the rows it exchanges. -/
theorem Carries.step (h : Carries m x e) (hm : m ≤ e.good) (hs : e.step? tolerance = some e') :
    Carries m x e' := by
  obtain ⟨hlt, p, -, rfl⟩ := step?_eq_some_iff.1 hs
  obtain ⟨i, hi⟩ : ∃ i : Fin n, i = ⟨e.good, hlt⟩ := ⟨_, rfl⟩
  have hgood : i.val = e.good := congrArg Fin.val hi
  rw [← hi]
  intro r s hrow k hk
  rw [pivot_eq, matrix_clear_of_lt _ (show k < i by omega), matrix_exchange]
  exact h _ s ((rowAt_exchange e i p r).symm.trans hrow) k hk

theorem Carries.of_steps (hinj : Function.Injective e.rowAt.get) (hm : m ≤ e.good)
    (hs : Steps tolerance e e') : Carries m e e' := by
  induction hs with
  | refl =>
    intro r s hrow k _
    rw [hinj hrow]
  | tail hsteps hs ih => exact ih.step (hm.trans (good_of_steps hsteps).1) hs

variable {A A' : Square α n}

/-- If elimination has no pivot in one of the first `m` columns, it ends in the same way with any
others behind these. -/
theorem sameBelow_eliminate (hsame : ∀ k : Fin n, k < m → A'.get k = A.get k)
    (hm : (eliminate tolerance A).good < m) :
    SameBelow m (eliminate tolerance A) (eliminate tolerance A') := by
  have hstart : SameBelow m (start A) (start A') := ⟨rfl, rfl, hsame⟩
  obtain ⟨x, hx, h⟩ := hstart.of_steps (steps_eliminate tolerance A) hm.le
  rwa [eliminate_eq_of_steps hx (h.step?_eq_none hm (step?_eliminate tolerance A))]

/-- If elimination finishes the first `m` columns, it does so with any others behind these. It
pivots on the same rows there, and every row ends with the same entries in them. -/
theorem carries_eliminate (hsame : ∀ k : Fin n, k < m → A'.get k = A.get k)
    (hm : m ≤ (eliminate tolerance A).good) :
    m ≤ (eliminate tolerance A').good ∧
      (∀ p : Fin n, p < m →
        (eliminate tolerance A').rowAt.get p = (eliminate tolerance A).rowAt.get p) ∧
      Carries m (eliminate tolerance A) (eliminate tolerance A') := by
  have hstart : SameBelow m (start A) (start A') := ⟨rfl, rfl, hsame⟩
  -- The last state that the two have in common, and the two ways on from it.
  obtain ⟨y, hy, rfl, hrest⟩ := exists_steps_of_le (steps_eliminate tolerance A) (Nat.zero_le m) hm
  obtain ⟨y', hy', h⟩ := hstart.of_steps hy le_rfl
  have hrest' := steps_eliminate_of_steps hy'
  have hinj : Function.Injective y.rowAt.get :=
    rowAt_injective hy fun r s hrs => by simpa [start, Fin.ext_iff] using hrs
  refine ⟨h.good ▸ (good_of_steps hrest').1, fun p hp => ?_, fun r s hrow k hk => ?_⟩
  · rw [rowAt_of_steps hrest hp, rowAt_of_steps hrest' (h.good.symm ▸ hp), h.rowAt]
  · obtain ⟨q, hq⟩ := Finite.injective_iff_surjective.1 hinj
      ((eliminate tolerance A).rowAt.get s)
    have hentry := Carries.of_steps hinj le_rfl hrest s q hq.symm k hk
    have hentry' := Carries.of_steps (m := y.good) (h.rowAt ▸ hinj) h.good.ge hrest' r q
      (by rw [hrow, ← hq, h.rowAt]) k hk
    rw [hentry, hentry', Square.matrix, Square.matrix, Matrix.of_apply, Matrix.of_apply,
      h.column k hk]

end BasisLU.Elimination
