import BasisLU.Proofs.Elimination.Steps

/-!
# Elimination of a matrix with its rows in order

Elimination moves rows and changes entries, but what becomes of an entry does not depend on where
its row stands. So a matrix with its rows already in the order that elimination finds is eliminated
without an exchange, and to the same entries (`eliminate_presorted`).

The two eliminations are followed step by step. They differ by a permutation of the positions that
are not done (`Presorted`): the second has every row where it ends, the first has it where the
exchanges so far have put it. Clearing a column commutes with such a permutation
(`Presorted.clear`), and the row on which the first pivots comes next in the second, with no larger
entry below it (`Presorted.step`). Of magnitudes only a strict order is needed.
-/

namespace BasisLU.Elimination

open Relation (ReflTransGen)

variable {α : Type} {n : Nat} {e e' x : Elimination α n} {ρ : Fin n → Fin n}
  {τ : Equiv.Perm (Fin n)}

/-- A permutation that fixes the positions before `m` keeps the others among themselves. -/
theorem le_apply_iff {m : Nat} (hτ : ∀ r : Fin n, r < m → τ r = r) (r : Fin n) :
    m ≤ (τ r).val ↔ m ≤ r.val := by
  constructor
  · intro h
    by_contra hr
    rw [hτ r (by omega)] at h
    omega
  · intro h
    by_contra hr
    have hfixed : τ r = r := τ.injective (hτ (τ r) (by omega))
    rw [hfixed] at hr
    omega

theorem exchange_self (e : Elimination α n) (i : Fin n) : e.exchange i i = e := by
  have hcolumns (column : Vector α n) : column.swap i i i.isLt i.isLt = column := by
    ext r hr
    exact (get_swap column i i ⟨r, hr⟩).trans (by rw [Equiv.swap_self]; rfl)
  have hrows : e.rowAt.swap i i i.isLt i.isLt = e.rowAt := by
    ext r hr
    exact congrArg Fin.val ((get_swap e.rowAt i i ⟨r, hr⟩).trans (by rw [Equiv.swap_self]; rfl))
  obtain ⟨columns, rowAt, good⟩ := e
  simp only [exchange, hcolumns, Vector.map_id_fun', hrows, id]

/-- Position `r` of `x` has its own row, which is `ρ r` of those that `e` exchanges. In `e` the row
stands at position `τ r`, which is `r` itself once the position is done. -/
structure Presorted (ρ : Fin n → Fin n) (τ : Equiv.Perm (Fin n)) (e x : Elimination α n) :
    Prop where
  good : x.good = e.good
  rowAt : ∀ r, x.rowAt.get r = r
  row_eq : ∀ r, e.rowAt.get (τ r) = ρ r
  fixed : ∀ r : Fin n, r < e.good → τ r = r
  entry_eq : ∀ r k, x.columns.matrix r k = e.columns.matrix (τ r) k

/-- A position that is not done may be exchanged in `e` alone. -/
theorem Presorted.exchange (h : Presorted ρ τ e x) {i p : Fin n} (hi : e.good ≤ i)
    (hp : e.good ≤ p) : Presorted ρ (τ.trans (Equiv.swap i p)) (e.exchange i p) x where
  good := h.good
  rowAt := h.rowAt
  row_eq r := by
    rw [rowAt_exchange, Equiv.trans_apply, Equiv.swap_apply_self]
    exact h.row_eq r
  fixed r hr := by
    have hr : r.val < e.good := hr
    rw [Equiv.trans_apply, h.fixed r hr]
    exact Equiv.swap_apply_of_ne_of_ne (by omega) (by omega)
  entry_eq r k := by
    rw [matrix_exchange, Equiv.trans_apply, Equiv.swap_apply_self]
    exact h.entry_eq r k

variable [Scalar α] {tolerance : α}

/-- A column is cleared alike, wherever the rows below it stand. -/
theorem Presorted.clear (h : Presorted ρ τ e x) {i : Fin n} (hi : i.val = e.good)
    (hτ : τ i = i) : Presorted ρ τ (e.clear i) (x.clear i) := by
  have hfixed (r : Fin n) (hr : r.val < e.good + 1) : τ r = r := by
    obtain hr | rfl : r < i ∨ r = i := by omega
    · exact h.fixed r (by omega)
    · exact hτ
  have hlt (r : Fin n) : τ r < i ↔ r < i := by
    have := le_apply_iff h.fixed r
    omega
  have hgt (r : Fin n) : i < τ r ↔ i < r := by
    have := le_apply_iff hfixed r
    omega
  have heq (r : Fin n) : τ r = i ↔ r = i := by
    rw [← τ.injective.eq_iff (a := r), hτ]
  have hcleared (r : Fin n) : (x.clear i).columns.matrix r i =
      (e.clear i).columns.matrix (τ r) i := by
    simp only [matrix_clear_self, h.entry_eq, hτ, hlt, heq]
  refine ⟨congrArg (· + 1) h.good, h.rowAt, h.row_eq, fun r hr => hfixed r hr, fun r k => ?_⟩
  rcases lt_trichotomy k i with hk | rfl | hk
  · rw [matrix_clear_of_lt x hk, matrix_clear_of_lt e hk, h.entry_eq]
  · exact hcleared r
  · simp only [matrix_clear_of_gt _ hk, hcleared, h.entry_eq, hτ, hgt]

/-- A step that pivots on the row that comes next in `x` is a step of `x` without an exchange. -/
theorem Presorted.step [IsStrictOrder α (· < ·)] (h : Presorted ρ τ e x)
    (hs : e.step? tolerance = some e') (hnext : ∀ i : Fin n, i.val = e.good → e'.rowAt.get i = ρ i)
    (hinj : Function.Injective e.rowAt.get) :
    ∃ x' τ', x.step? tolerance = some x' ∧ Presorted ρ τ' e' x' := by
  obtain ⟨hlt, p, hp, rfl⟩ := step?_eq_some_iff.1 hs
  obtain ⟨i, hi⟩ : ∃ i : Fin n, i = ⟨e.good, hlt⟩ := ⟨_, rfl⟩
  rw [← hi] at hp hnext ⊢
  have hgood : i.val = e.good := congrArg Fin.val hi
  obtain ⟨hip, hlarge, hmax⟩ := not_lt_of_pivotRow? hp
  have hτ : τ i = p := by
    refine hinj ((h.row_eq i).trans ((hnext i hgood).symm.trans ?_))
    rw [pivot_eq]
    exact (rowAt_exchange e i p i).trans (congrArg _ (Equiv.swap_apply_left i p))
  have hrow : x.pivotRow? tolerance i = some i := by
    have hi : x.columns.matrix i i = e.columns.matrix p i := by rw [h.entry_eq, hτ]
    refine pivotRow?_eq_self (hi ▸ hlarge) fun r hr => ?_
    rw [hi, h.entry_eq]
    refine hmax _ ?_
    have := le_apply_iff h.fixed r
    omega
  refine ⟨x.pivot i i, τ.trans (Equiv.swap i p), step?_eq_some_iff.2 ⟨h.good ▸ hlt, i, ?_, ?_⟩, ?_⟩
  · simpa only [h.good, ← hi] using hrow
  · simp only [h.good, ← hi]
  · rw [pivot_eq, pivot_eq, exchange_self]
    refine (h.exchange hgood.ge (by omega)).clear hgood ?_
    rw [Equiv.trans_apply, hτ, Equiv.swap_apply_right]

/-- A run that ends with the rows in the order `ρ`, followed in `x`. -/
theorem Presorted.of_steps [IsStrictOrder α (· < ·)] (hs : Steps tolerance e e')
    (hinj : Function.Injective e.rowAt.get) (hρ : ∀ r, e'.rowAt.get r = ρ r) :
    ∀ {x : Elimination α n} {τ : Equiv.Perm (Fin n)}, Presorted ρ τ e x →
      ∃ x' τ', Steps tolerance x x' ∧ Presorted ρ τ' e' x' := by
  induction hs using ReflTransGen.head_induction_on with
  | refl => exact fun h => ⟨_, _, .refl, h⟩
  | @head y z hstep hrest ih =>
    intro x τ h
    have hgood := (good_of_step hstep).2
    -- The position that is done next keeps its row from then on.
    have hnext (i : Fin n) (hi : i.val = y.good) : z.rowAt.get i = ρ i :=
      (rowAt_of_steps hrest (by omega)).symm.trans (hρ i)
    obtain ⟨w, τ', hw, hsorted⟩ := h.step hstep hnext hinj
    obtain ⟨x', τ', hx', hsorted⟩ := ih (rowAt_injective (.single hstep) hinj) hsorted
    exact ⟨x', τ', .head hw hx', hsorted⟩

/-- Neither has a pivot left, or both have one. -/
theorem Presorted.step?_eq_none (h : Presorted ρ τ e x) (hstop : e.step? tolerance = none) :
    x.step? tolerance = none := by
  rcases Nat.lt_or_ge e.good n with hlt | hle
  · rw [step?, dif_pos hlt, Option.map_eq_none_iff, pivotRow?_eq_none_iff_forall] at hstop
    simp only [step?, h.good, hlt, dif_pos, Option.map_eq_none_iff]
    refine pivotRow?_eq_none_iff_forall.2 fun r hr => ?_
    rw [h.entry_eq]
    exact hstop _ ((le_apply_iff h.fixed r).2 hr)
  · exact step?_of_le (h.good ▸ hle)

/-- A matrix with its rows in the order that elimination finds is eliminated without an exchange,
as far and to the same columns. -/
theorem eliminate_presorted [IsStrictOrder α (· < ·)] (tolerance : α) {A B : Square α n}
    (hB : ∀ i k, B.matrix i k = A.matrix ((eliminate tolerance A).rowAt.get i) k) :
    eliminate tolerance B = { eliminate tolerance A with rowAt := Vector.ofFn id } := by
  obtain ⟨e, he⟩ : ∃ e, eliminate tolerance A = e := ⟨_, rfl⟩
  have hs := steps_eliminate tolerance A
  have hstop := step?_eliminate tolerance A
  have hinj := rowAt_eliminate_injective tolerance A
  rw [he] at hB hs hstop hinj ⊢
  have hid (r : Fin n) : (Vector.ofFn (id : Fin n → Fin n)).get r = r := by simp
  obtain ⟨σ, hσ⟩ : ∃ σ : Equiv.Perm (Fin n), ∀ r, σ r = e.rowAt.get r :=
    ⟨Equiv.ofBijective _ (Finite.injective_iff_bijective.1 hinj), fun _ => rfl⟩
  have hstart : Presorted e.rowAt.get σ (start A) (start B) := {
    good := rfl
    rowAt := hid
    row_eq := fun r => (hid (σ r)).trans (hσ r)
    fixed := fun r hr => absurd hr (Nat.not_lt_zero _)
    entry_eq := fun r k => (hB r k).trans (by rw [hσ]; rfl) }
  obtain ⟨x, τ, hx, h⟩ := Presorted.of_steps hs (fun r s hrs => by simpa [hid, start] using hrs)
    (fun _ => rfl) hstart
  rw [eliminate_eq_of_steps hx (h.step?_eq_none hstop)]
  -- At the end every row stands where it ends, so the entries are the same at every position.
  have hτ (r : Fin n) : τ r = r := hinj (h.row_eq r)
  have hcolumns : x.columns = e.columns := by
    ext k hk r hr
    have := h.entry_eq ⟨r, hr⟩ ⟨k, hk⟩
    rw [hτ] at this
    simpa [Square.matrix] using this
  have hrows : x.rowAt = Vector.ofFn id := by
    ext r hr
    have := h.rowAt ⟨r, hr⟩
    simpa using congrArg Fin.val this
  obtain ⟨columns, rowAt, good⟩ := x
  cases hcolumns
  cases hrows
  cases h.good
  rfl

end BasisLU.Elimination
