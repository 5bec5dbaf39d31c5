import BasisLU.Proofs.Factorization.Reachable
import BasisLU.Proofs.Factorization.Stored

/-!
# What factoring computes

Over exact scalars, the columns that factoring leaves hold the lower and the upper factor of the
matrix with its rows in the order found, as far as there were pivots, and behind them what is left
of the matrix (`HoldsFactors`). Factoring never faults; it succeeds if there was a pivot for every
column, and otherwise no entry left of the next column is above the tolerance
(`exists_factor_holdsFactors`).
-/

namespace BasisLU.Factorization

open Finset

variable {α : Type} [ExactScalar α] {n : Nat}

/-- Row `p i` of `A` stands at position `i`, column `k` is stored as `C k`, and the first
`goodColumns` of the stored columns hold the factors: multipliers below the diagonal, the reciprocal
of the pivot on it, and the upper factor above. -/
structure HoldsFactors (f : Factorization α) (A : Matrix (Fin n) (Fin n) α)
    (p : Equiv.Perm (Fin n)) (C : Fin n → Vector α n) : Prop where
  rows_eq : f.rows = n
  good_le : f.goodColumns ≤ n
  row_eq : ∀ i : Fin n, f.rowsInOrder[i.val]? = some (p i).val
  column_eq : ∀ k : Fin n, Block.column n k f.block = .ok (C k)
  pivot_ne_zero : ∀ k : Fin n, k < f.goodColumns → (C k).get k ≠ 0
  entry_eq : ∀ i k : Fin n, A (p i) k =
    (∑ j : Fin n with j.val < f.goodColumns ∧ j ≤ min i k,
      (if j = i then 1 else (C j).get i) * (if j = k then 1 / (C k).get k else (C k).get j)) +
    if f.goodColumns ≤ k ∧ f.goodColumns ≤ i then (C k).get i else 0

/-- Factoring the loaded matrix `A` succeeds if all its columns could be eliminated, and otherwise
reports how many could; what is left of the next column then is too small to pivot on. -/
theorem exists_factor_holdsFactors {config : Config α} {f : Factorization α}
    (hreach : Reaches (ofConfig config) f) (htol : 0 < f.config.zeroTolerance) (hrows : f.rows = n)
    {A : Matrix (Fin n) (Fin n) α}
    (hA : ∀ k : Fin n, Block.column n k f.block = .ok (Vector.ofFn fun i => A i k)) :
    ∃ (g : Factorization α) (refusal : Option Refusal) (p : Equiv.Perm (Fin n))
      (C : Fin n → Vector α n),
      f.factor = .ok (g, refusal) ∧ g.HoldsFactors A p C ∧
      (refusal = none ∧ g.status = .valid ↔ g.goodColumns = n) ∧
      (g.goodColumns ≠ n → refusal = some (.singular g.goodColumns n) ∧ g.status = .singular ∧
        ∀ k i : Fin n, k = g.goodColumns → k ≤ i → |(C k).get i| ≤ f.config.zeroTolerance) := by
  subst hrows
  have hf := sound_of_reaches hreach
  obtain ⟨columns, hsquare⟩ := Block.square_of_le hf.square_le
  have hmatrix := matrix_eq_of_columns hsquare hA
  obtain ⟨g, hg⟩ := hf.exists_install (eliminate f.config.zeroTolerance columns)
  obtain ⟨σ, hσ⟩ := exists_perm_eliminate f.config.zeroTolerance columns
  have hstored := Stores.of_install hσ hg
  have hfactored := Elimination.factored_eliminate htol.le columns
  have hle := Elimination.good_eliminate_le f.config.zeroTolerance columns
  have hsmall (k i : Fin f.rows) (hk : k.val = (eliminate f.config.zeroTolerance columns).good)
      (hi : k ≤ i) := Elimination.abs_le_of_eliminate columns hk hi
  obtain ⟨hgood, hstatus, hsingularity⟩ := status_of_install hg
  rw [← hgood] at hle hsmall hstatus hsingularity
  refine ⟨g, g.singularity?, σ.symm,
    fun k => (eliminate f.config.zeroTolerance columns).columns.get k, ?_, ?_, ?_, fun hne => ?_⟩
  · exact hf.factor_eq_ok_iff.2 ⟨columns, hsquare, hg, rfl⟩
  · exact {
      rows_eq := hstored.rows_eq
      good_le := hle
      row_eq := getElem?_rowsInOrder hstored.rows_eq hstored.orders
      column_eq := fun k => Block.column_of_square hstored.columns k.isLt
      pivot_ne_zero := fun k hk => hfactored.pivot_ne_zero k (hgood ▸ hk)
      entry_eq := fun i k => by
        rw [← hmatrix, ← hσ, hgood]
        exact hfactored.entry_eq_sum i k }
  · rw [hsingularity, hstatus]
    split
    · exact iff_of_true ⟨rfl, rfl⟩ ‹_›
    · exact iff_of_false (fun h => nomatch h.1) ‹_›
  · rw [if_neg hne] at hsingularity hstatus
    exact ⟨hsingularity, hstatus, fun k i hk hi => hsmall k i hk hi⟩

/-- A basis of a slack, a column, a combination of both, and one more column. -/
def deficient : Fin 4 → Fin 4 → Rat :=
  ![![0, 1, 2, 1], ![0, 2, 4, 0], ![-1, 0, 5, 0], ![0, 3, 6, 2]]

theorem exists_factor_deficient : ∃ f g : Factorization Rat,
    (ofConfig smallConfig).load deficient = .ok f ∧ f.factor = .ok (g, some (.singular 2 4)) := by
  have hrun : Except.isOk (do
      let f ← (ofConfig smallConfig).load deficient
      let (_, refusal) ← f.factor
      match refusal with
      | some (.singular 2 4) => return ()
      | _ => throw (.fault .outOfRange) : Except Failure Unit) = true := by
    decide +kernel
  obtain ⟨_, hrun⟩ := exists_eq_ok_of_isOk hrun
  simp only [bind_eq_ok_iff, liftFault_eq_ok_iff] at hrun
  obtain ⟨f, hf, ⟨g, refusal⟩, hg, hrun⟩ := hrun
  split at hrun
  · rename_i hrefusal
    exact ⟨f, g, hf, hrefusal ▸ hg⟩
  · cases hrun

theorem exists_factor_holdsFactors_deficient : ∃ (f g : Factorization Rat)
    (p : Equiv.Perm (Fin 4)) (C : Fin 4 → Vector Rat 4),
    f.factor = .ok (g, some (.singular 2 4)) ∧ g.HoldsFactors (Matrix.of deficient) p C ∧
      g.goodColumns = 2 ∧ ∀ i : Fin 4, 2 ≤ i → |(C 2).get i| ≤ 1 / 10 ^ 13 := by
  obtain ⟨f, g, hf, hg⟩ := exists_factor_deficient
  obtain ⟨hrows, hconfig, -⟩ := square_of_load hf
  obtain ⟨g', refusal, p, C, hg', hholds, hvalid, hsingular⟩ :=
    exists_factor_holdsFactors (A := Matrix.of deficient) (reaches_of_load hf)
      (by rw [hconfig]; decide +kernel) hrows (column_of_load hf)
  obtain ⟨rfl, rfl⟩ := Prod.mk.inj (Except.ok.inj (hg'.symm.trans hg))
  obtain ⟨hrefusal, -, hsmall⟩ := hsingular fun hall => nomatch (hvalid.2 hall).1
  have hgood : 2 = g'.goodColumns := (Refusal.singular.inj (Option.some.inj hrefusal)).1
  refine ⟨f, g', p, C, hg, hholds, hgood.symm, fun i hi => ?_⟩
  have := hsmall 2 i hgood hi
  rwa [hconfig] at this

end BasisLU.Factorization
