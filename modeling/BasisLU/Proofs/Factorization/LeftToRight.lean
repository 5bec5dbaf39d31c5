import Mathlib.Data.Fin.VecNotation
import BasisLU.Proofs.Elimination.LeftToRight
import BasisLU.Proofs.Factorization.History

/-!
# Bases with the same first columns

Factoring looks only to the left: how it gets through the first columns of a basis, and what it
stores of them, is not a matter of the columns behind (`exists_factor_of_sameColumns`). Two bases
with the same first `m` columns are singular at the same one of these, and then are left in the same
order and with the same columns there. If neither is, they may be ordered differently from position
`m` on, and the multipliers of the first `m` columns are the same row by row (`SameLeft`). The
scalars may be any, so nothing depends on how their operations round.
-/

namespace BasisLU.Factorization

variable {α : Type} {n : Nat}

/-- Row `r` stands at position `σ r`, and column `k` is stored as `C k`. -/
structure HoldsColumns (g : Factorization α) (σ : Equiv.Perm (Fin n)) (C : Fin n → Vector α n) :
    Prop where
  position_eq : ∀ r : Fin n, g.positions[r.val]? = some (σ r).val
  row_eq : ∀ p : Fin n, g.rowsInOrder[p.val]? = some (σ.symm p).val
  column_eq : ∀ k : Fin n, Block.column n k g.block = .ok (C k)

/-- The first `m` positions have the same rows, with the same entries in the first `m` columns. Any
other row has the same multipliers in these columns, at whatever position it stands. -/
structure SameLeft (m : Nat) (σ σ' : Equiv.Perm (Fin n)) (C C' : Fin n → Vector α n) : Prop where
  row_eq : ∀ p : Fin n, p < m → σ'.symm p = σ.symm p
  entry_eq : ∀ p k : Fin n, p < m → k < m → (C' k).get p = (C k).get p
  multiplier_eq : ∀ r k : Fin n, (∀ p : Fin n, p < m → σ.symm p ≠ r) → k < m →
    k < σ r ∧ k < σ' r ∧ (C' k).get (σ' r) = (C k).get (σ r)

variable {σ σ' : Equiv.Perm (Fin n)}

/-- A row that has none of the first `m` positions stands at a later one. -/
theorem le_apply_of_forall_ne {m : Nat} {r : Fin n} (h : ∀ p : Fin n, p < m → σ.symm p ≠ r) :
    m ≤ σ r := by
  by_contra hlt
  exact h (σ r) (by omega) (σ.symm_apply_apply r)

/-- Where entries are carried along with their rows, those of the first columns are the same. -/
theorem SameLeft.of_carries {m : Nat} {e e' : Elimination α n}
    (hσ : ∀ p, e.rowAt.get p = σ.symm p) (hσ' : ∀ p, e'.rowAt.get p = σ'.symm p)
    (hrows : ∀ p : Fin n, p < m → e'.rowAt.get p = e.rowAt.get p)
    (h : Elimination.Carries m e e') : SameLeft m σ σ' e.columns.get e'.columns.get := by
  have hrow (p : Fin n) (hp : p < m) : σ'.symm p = σ.symm p := by
    rw [← hσ, ← hσ', hrows p hp]
  refine ⟨hrow, fun p k hp hk => h p p (hrows p hp) k hk, fun r k hr hk => ?_⟩
  have hle := le_apply_of_forall_ne hr
  have hle' := le_apply_of_forall_ne (σ := σ') (m := m) (r := r) fun p hp => hrow p hp ▸ hr p hp
  refine ⟨by omega, by omega, h _ _ ?_ k hk⟩
  rw [hσ, hσ', σ.symm_apply_apply, σ'.symm_apply_apply]

variable [Scalar α] {f f' g : Factorization α}

theorem Eliminated.holdsColumns {config : Config α} {e : Elimination α n}
    (h : g.Eliminated config σ e) : g.HoldsColumns σ e.columns.get where
  position_eq := getElem?_positions h.stored.rows_eq h.stored.orders
  row_eq := getElem?_rowsInOrder h.stored.rows_eq h.stored.orders
  column_eq := fun k => Block.column_of_square h.stored.columns k.isLt

/-- Two matrices with the same first `m` columns, factored with the same zero tolerance. If factoring
stops before column `m` in one of them, it stops there in the other, with the rows in the same order
and the same first columns. Otherwise it gets past these in both, and leaves the same of them. -/
theorem exists_factor_of_sameColumns {config config' : Config α}
    (hreach : Reaches (ofConfig config) f) (hreach' : Reaches (ofConfig config') f')
    (htol : f'.config.zeroTolerance = f.config.zeroTolerance)
    (hrows : f.rows = n) (hrows' : f'.rows = n) {A A' : Fin n → Fin n → α}
    (hA : ∀ k : Fin n, Block.column n k f.block = .ok (Vector.ofFn fun i => A i k))
    (hA' : ∀ k : Fin n, Block.column n k f'.block = .ok (Vector.ofFn fun i => A' i k))
    {m : Nat} (hm : m ≤ n) (hsame : ∀ i k : Fin n, k < m → A' i k = A i k) :
    ∃ (g g' : Factorization α) (refusal refusal' : Option Refusal) (σ σ' : Equiv.Perm (Fin n))
      (C C' : Fin n → Vector α n),
      f.factor = .ok (g, refusal) ∧ f'.factor = .ok (g', refusal') ∧
      g.HoldsColumns σ C ∧ g'.HoldsColumns σ' C' ∧
      (g.goodColumns < m →
        refusal = some (.singular g.goodColumns n) ∧ refusal' = refusal ∧
        g'.goodColumns = g.goodColumns ∧ σ' = σ ∧ ∀ k : Fin n, k < m → C' k = C k) ∧
      (m ≤ g.goodColumns → m ≤ g'.goodColumns ∧ SameLeft m σ σ' C C') := by
  have hf := sound_of_reaches hreach
  have hf' := sound_of_reaches hreach'
  obtain ⟨columns, hsquare⟩ := Block.square_of_le (hrows ▸ hf.square_le)
  obtain ⟨columns', hsquare'⟩ := Block.square_of_le (hrows' ▸ hf'.square_le)
  have hcolumns (k : Fin n) (hk : k < m) : columns'.get k = columns.get k :=
    calc columns'.get k = Vector.ofFn fun i => A' i k :=
          Except.ok.inj ((Block.column_of_square hsquare' k.isLt).symm.trans (hA' k))
      _ = Vector.ofFn fun i => A i k := by simp only [hsame _ k hk]
      _ = columns.get k :=
          Except.ok.inj ((hA k).symm.trans (Block.column_of_square hsquare k.isLt))
  obtain ⟨σ, hσ⟩ := exists_perm_eliminate f.config.zeroTolerance columns
  obtain ⟨σ', hσ'⟩ := exists_perm_eliminate f.config.zeroTolerance columns'
  obtain ⟨g, hg, helim⟩ := hf.exists_factor_of_square hrows hsquare rfl hσ
  obtain ⟨g', hg', helim'⟩ := hf'.exists_factor_of_square hrows' hsquare' rfl (htol ▸ hσ')
  rw [htol] at helim'
  refine ⟨g, g', _, _, σ, σ', _, _, hg, hg', helim.holdsColumns, helim'.holdsColumns,
    fun hgood => ?_, fun hgood => ?_⟩
  · have hleft := Elimination.sameBelow_eliminate hcolumns (helim.goodColumns_eq ▸ hgood)
    have hgoods : g'.goodColumns = g.goodColumns := by
      rw [helim.goodColumns_eq, helim'.goodColumns_eq, hleft.good]
    have hrefusal : g.singularity? = some (.singular g.goodColumns n) := by
      rw [helim.singularity?_eq, ← helim.goodColumns_eq, if_neg (by omega)]
    have hrefusal' : g'.singularity? = g.singularity? := by
      rw [helim.singularity?_eq, helim'.singularity?_eq, hleft.good]
    refine ⟨hrefusal, hrefusal', hgoods, ?_, hleft.column⟩
    refine Equiv.symm_bijective.injective (Equiv.ext fun p => ?_)
    rw [← hσ, ← hσ', hleft.rowAt]
  · obtain ⟨hgood', hrow, hcarries⟩ :=
      Elimination.carries_eliminate hcolumns (helim.goodColumns_eq ▸ hgood)
    exact ⟨helim'.goodColumns_eq ▸ hgood', SameLeft.of_carries hσ hσ' hrow hcarries⟩

/-- Two matrices with the same first column. The second of the other rows is the one to pivot on next
in `leaning`, and the first of them in `swaying`, whose last entry is not a number. -/
def leaning : Fin 3 → Fin 3 → Float := ![![1, 0, 5], ![3, 3, 1], ![-2, 4, 0]]

def swaying : Fin 3 → Fin 3 → Float := ![![1, 7, 5], ![3, 3, 1], ![-2, -2, 0 / 0]]

theorem exists_factor_of_sameColumns_leaning : ∃ (h f f' g g' : Factorization Float)
    (σ σ' : Equiv.Perm (Fin 3)) (C C' : Fin 3 → Vector Float 3),
    initial.run [.setChainCapacity 1] = .ok h ∧ h.load leaning = .ok f ∧ h.load swaying = .ok f' ∧
      f.factor = .ok (g, none) ∧ f'.factor = .ok (g', some (.singular 2 3)) ∧
      g.rowsInOrder = #[1, 2, 0] ∧ g'.rowsInOrder = #[1, 0, 2] ∧
      g.HoldsColumns σ C ∧ g'.HoldsColumns σ' C' ∧ SameLeft 1 σ σ' C C' := by
  have hrun : Except.isOk (do
      let h ← initial.run [.setChainCapacity 1]
      let f ← h.load leaning
      let f' ← h.load swaying
      let (g, refusal) ← f.factor
      let (g', refusal') ← f'.factor
      if g.rowsInOrder ≠ #[1, 2, 0] then throw (.fault .outOfRange)
      if g'.rowsInOrder ≠ #[1, 0, 2] then throw (.fault .outOfRange)
      if ¬ 1 ≤ g.goodColumns then throw (.fault .outOfRange)
      match refusal, refusal' with
      | none, some (.singular 2 3) => return ()
      | _, _ => throw (.fault .outOfRange) : Except Failure Unit) = true := by
    decide +kernel
  obtain ⟨_, hrun⟩ := exists_eq_ok_of_isOk hrun
  simp only [bind_eq_ok_iff, liftFault_eq_ok_iff, guard_eq_ok_iff, not_not] at hrun
  obtain ⟨h, hh, f, hf, f', hf', ⟨g, refusal⟩, hg, ⟨g', refusal'⟩, hg', horder, horder', hgood,
    hrun⟩ := hrun
  split at hrun
  · rename_i hrefusal hrefusal'
    subst hrefusal hrefusal'
    have hreach : Reaches (ofConfig Config.initial) h := reaches_of_run hh
    obtain ⟨hrows, hconfig, -⟩ := square_of_load hf
    obtain ⟨hrows', hconfig', -⟩ := square_of_load hf'
    obtain ⟨_, _, _, _, σ, σ', C, C', hg₁, hg₁', hholds, hholds', -, hpassed⟩ :=
      exists_factor_of_sameColumns (hreach.trans (reaches_of_load hf))
        (hreach.trans (reaches_of_load hf')) (by rw [hconfig, hconfig']) hrows hrows'
        (column_of_load hf) (column_of_load hf') (m := 1) (by decide) (by decide +kernel)
    cases hg₁.symm.trans hg
    cases hg₁'.symm.trans hg'
    exact ⟨h, f, f', g, g', σ, σ', C, C', hh, hf, hf', hg, hg', horder, horder', hholds, hholds',
      (hpassed hgood).2⟩
  · cases hrun

end BasisLU.Factorization
