import Mathlib.Data.Fin.VecNotation
import BasisLU.Proofs.Elimination.Presorted
import BasisLU.Proofs.Factorization.History
import BasisLU.Proofs.Ordered

/-!
# Factoring a basis with its rows in order

Factoring orders the rows of a basis by its pivots. The same matrix with its rows in that order from
the start is factored without an exchange, and is stored as the same columns, also where the basis
is singular and the rest of it is left partly eliminated (`exists_factor_of_presorted`). It makes no
difference how the operations of the scalars round; comparing magnitudes has to be a strict order,
as it is for floating-point numbers, where no comparison holds of a NaN.
-/

namespace BasisLU.Factorization

variable {α : Type} [Scalar α] {n : Nat} {f f' g g' : Factorization α}

/-- The second factorization holds the columns that the first one does, with as many of them done,
and no row has been moved in it. -/
structure FactoredInOrder (n : Nat) (g g' : Factorization α) : Prop where
  status_eq : g'.status = g.status
  goodColumns_eq : g'.goodColumns = g.goodColumns
  row_eq : ∀ i : Fin n, g'.rowsInOrder[i.val]? = some i.val
  column_eq : ∀ k : Fin n, ∃ column : Vector α n,
    Block.column n k g.block = .ok column ∧ Block.column n k g'.block = .ok column

/-- Factoring a matrix `A` puts its rows in an order `p`. Factoring the matrix with the rows in this
order, with the same zero tolerance, comes to the same without moving a row. -/
theorem exists_factor_of_presorted [IsStrictOrder α (· < ·)] {config : Config α}
    (hreach : Reaches (ofConfig config) f) (hrows : f.rows = n) {A : Fin n → Fin n → α}
    (hA : ∀ k : Fin n, Block.column n k f.block = .ok (Vector.ofFn fun i => A i k)) :
    ∃ (g : Factorization α) (refusal : Option Refusal) (p : Equiv.Perm (Fin n)),
      f.factor = .ok (g, refusal) ∧ (∀ i : Fin n, g.rowsInOrder[i.val]? = some (p i).val) ∧
      ∀ {config' : Config α} {f' : Factorization α}, Reaches (ofConfig config') f' →
        f'.config.zeroTolerance = f.config.zeroTolerance → f'.rows = n →
        (∀ k : Fin n, Block.column n k f'.block = .ok (Vector.ofFn fun i => A (p i) k)) →
        ∃ g', f'.factor = .ok (g', refusal) ∧ g.FactoredInOrder n g' := by
  have hf := sound_of_reaches hreach
  obtain ⟨columns, hsquare⟩ := Block.square_of_le (hrows ▸ hf.square_le)
  have hmatrix := matrix_eq_of_columns hsquare hA
  obtain ⟨σ, hσ⟩ := exists_perm_eliminate f.config.zeroTolerance columns
  obtain ⟨g, hg, helim⟩ := hf.exists_factor_of_square hrows hsquare rfl hσ
  refine ⟨g, g.singularity?, σ.symm, hg,
    getElem?_rowsInOrder helim.stored.rows_eq helim.stored.orders, ?_⟩
  intro config' f' hreach' htol hrows' hA'
  have hf' := sound_of_reaches hreach'
  obtain ⟨columns', hsquare'⟩ := Block.square_of_le (hrows' ▸ hf'.square_le)
  have hmatrix' := matrix_eq_of_columns hsquare' hA'
  have hpresorted := Elimination.eliminate_presorted f.config.zeroTolerance (A := columns)
    (B := columns') fun i k => by rw [hmatrix', hmatrix, hσ]
  have hrefl (p : Fin n) :
      (eliminate f'.config.zeroTolerance columns').rowAt.get p = (Equiv.refl (Fin n)).symm p := by
    rw [htol, hpresorted]
    simp
  obtain ⟨g', hg', helim'⟩ := hf'.exists_factor_of_square hrows' hsquare' rfl hrefl
  rw [htol, hpresorted] at helim'
  have hrefusal : g'.singularity? = g.singularity? := by
    rw [singularity?, singularity?, helim'.status_eq, helim.status_eq, helim'.goodColumns_eq,
      helim.goodColumns_eq, helim'.stored.rows_eq, helim.stored.rows_eq]
  exact ⟨g', hrefusal ▸ hg', {
    status_eq := helim'.status_eq.trans helim.status_eq.symm
    goodColumns_eq := helim'.goodColumns_eq.trans helim.goodColumns_eq.symm
    row_eq := getElem?_rowsInOrder helim'.stored.rows_eq helim'.stored.orders
    column_eq := fun k => ⟨_, Block.column_of_square helim.stored.columns k.isLt,
      Block.column_of_square helim'.stored.columns k.isLt⟩ }⟩

/-- A matrix with two largest entries in its first column. Its last column is left with values that
are not numbers. -/
def tied : Fin 3 → Fin 3 → Float := ![![1, 3, 0 / 0], ![-4, 1, 1 / 0], ![4, 5, 7]]

theorem exists_factor_of_presorted_tied : ∃ h f g f' g' : Factorization Float,
    initial.run [.setChainCapacity 1] = .ok h ∧ h.load tied = .ok f ∧
      f.factor = .ok (g, some (.singular 2 3)) ∧ g.rowsInOrder = #[1, 2, 0] ∧
      h.load (fun i => tied (![1, 2, 0] i)) = .ok f' ∧
      f'.factor = .ok (g', some (.singular 2 3)) ∧ g.FactoredInOrder 3 g' := by
  have hrun : Except.isOk (do
      let h ← initial.run [.setChainCapacity 1]
      let f ← h.load tied
      let (g, refusal) ← f.factor
      let _ ← h.load fun i : Fin 3 => tied (![1, 2, 0] i)
      if g.rowsInOrder ≠ #[1, 2, 0] then throw (.fault .outOfRange)
      match refusal with
      | some (.singular 2 3) => return ()
      | _ => throw (.fault .outOfRange) : Except Failure Unit) = true := by
    decide +kernel
  obtain ⟨_, hrun⟩ := exists_eq_ok_of_isOk hrun
  simp only [bind_eq_ok_iff, liftFault_eq_ok_iff, guard_eq_ok_iff, not_not] at hrun
  obtain ⟨h, hh, f, hf, ⟨g, refusal⟩, hg, f', hf', horder, hrun⟩ := hrun
  split at hrun
  · rename_i hrefusal
    subst hrefusal
    have hreach : Reaches (ofConfig Config.initial) h := reaches_of_run hh
    obtain ⟨hrows, hconfig, -⟩ := square_of_load hf
    obtain ⟨hrows', hconfig', -⟩ := square_of_load hf'
    obtain ⟨_, _, p, hg₁, hp, hall⟩ := exists_factor_of_presorted
      (hreach.trans (reaches_of_load hf)) hrows (column_of_load hf)
    cases hg₁.symm.trans hg
    rw [horder] at hp
    have hp : ![1, 2, 0] = p := by
      funext i
      fin_cases i
      · exact Fin.ext (Option.some.inj (hp 0))
      · exact Fin.ext (Option.some.inj (hp 1))
      · exact Fin.ext (Option.some.inj (hp 2))
    obtain ⟨g', hg', hinOrder⟩ := hall (hreach.trans (reaches_of_load hf'))
      (by rw [hconfig, hconfig']) hrows' (hp ▸ column_of_load hf')
    exact ⟨h, f, g, f', g', hh, hf, hg, horder, hf', hg', hinOrder⟩
  · cases hrun

end BasisLU.Factorization
