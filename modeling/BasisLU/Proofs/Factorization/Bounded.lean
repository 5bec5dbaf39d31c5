import BasisLU.Proofs.Elimination.Bounded
import BasisLU.Proofs.Factorization.Reachable

/-!
# Bounds on the columns stored

Factoring leaves columns that hold what elimination computed, so the bounds of partial pivoting hold
for them as they are stored in the end, with all exchanges of rows made, whether or not every column
got a pivot (`exists_factor_bounded`).
-/

namespace BasisLU.Factorization

variable {α : Type} [ExactScalar α] {n : Nat}

/-- Whatever basis was loaded, factoring it succeeds or finds it singular. In the columns it
finished, no entry below the diagonal is above one in magnitude, and the diagonal is the reciprocal
of a number above the zero tolerance. -/
theorem exists_factor_bounded {config : Config α} {f : Factorization α}
    (hreach : Reaches (ofConfig config) f) (htol : 0 < f.config.zeroTolerance)
    (hrows : f.rows = n) :
    ∃ (g : Factorization α) (refusal : Option Refusal) (C : Fin n → Vector α n),
      f.factor = .ok (g, refusal) ∧ g.rows = n ∧
      (refusal = none ∧ g.goodColumns = n ∨
        refusal = some (.singular g.goodColumns n) ∧ g.goodColumns < n) ∧
      (∀ k : Fin n, Block.column n k g.block = .ok (C k)) ∧
      ∀ k : Fin n, k < g.goodColumns →
        (∀ r : Fin n, k < r → |(C k).get r| ≤ 1) ∧
        (C k).get k ≠ 0 ∧ |(C k).get k| < 1 / f.config.zeroTolerance ∧
        f.config.zeroTolerance < |1 / (C k).get k| := by
  subst hrows
  have hf := sound_of_reaches hreach
  obtain ⟨columns, hsquare⟩ := Block.square_of_le hf.square_le
  obtain ⟨e, he⟩ : ∃ e, eliminate f.config.zeroTolerance columns = e := ⟨_, rfl⟩
  have hbounded : Elimination.Bounded f.config.zeroTolerance e :=
    he ▸ Elimination.bounded_eliminate f.config.zeroTolerance columns
  have hle : e.good ≤ f.rows := he ▸ Elimination.good_eliminate_le f.config.zeroTolerance columns
  obtain ⟨g, hg⟩ := hf.exists_install e
  obtain ⟨hgood, -, hsingularity⟩ := status_of_install hg
  rw [← hgood] at hle hsingularity
  refine ⟨g, g.singularity?, e.columns.get,
    hf.factor_eq_ok_iff.2 ⟨columns, hsquare, by rw [he, hg], rfl⟩, ?_, ?_, ?_, fun k hk => ?_⟩
  · obtain ⟨block, order, -, -, rfl⟩ := install_eq_ok_iff.1 hg
    rfl
  · rw [hsingularity]
    split
    · exact .inl ⟨rfl, ‹_›⟩
    · exact .inr ⟨rfl, by omega⟩
  · obtain ⟨block, order, hblock, -, rfl⟩ := install_eq_ok_iff.1 hg
    exact fun k => Block.column_setSquare hblock k.isLt
  · rw [hgood] at hk
    exact ⟨fun r => hbounded.multiplier_le k r hk, hbounded.diagonal htol hk⟩

/-- A basis whose last column is the sum of the others. The rows are exchanged for the first column,
and again for the second. -/
def crossing : Fin 3 → Fin 3 → Rat := ![![2, 1, 3], ![4, 2, 6], ![3, 5, 8]]

/-- The second exchange moved the multipliers `1 / 2` and `3 / 4` of the first column. -/
theorem exists_factor_bounded_crossing : ∃ (f g : Factorization Rat) (C : Fin 3 → Vector Rat 3),
    (ofConfig smallConfig).load crossing = .ok f ∧ f.factor = .ok (g, some (.singular 2 3)) ∧
    C 0 = #v[1 / 4, 3 / 4, 1 / 2] ∧
    (∀ k : Fin 3, Block.column 3 k g.block = .ok (C k)) ∧
    (∀ r : Fin 3, 0 < r → |(C 0).get r| ≤ 1) ∧ |(C 1).get 2| ≤ 1 ∧
    (C 1).get 1 ≠ 0 ∧ |(C 1).get 1| < 10 ^ 13 := by
  have hrun : Except.isOk (do
      let f ← (ofConfig smallConfig).load crossing
      let (g, _) ← f.factor
      let first ← Block.column 3 0 g.block
      if g.goodColumns ≠ 2 ∨ first ≠ #v[1 / 4, 3 / 4, 1 / 2] then throw (.fault .outOfRange)
      return () : Except Failure Unit) = true := by
    decide +kernel
  obtain ⟨_, hrun⟩ := exists_eq_ok_of_isOk hrun
  simp only [bind_eq_ok_iff, liftFault_eq_ok_iff, guard_eq_ok_iff, not_or, not_not] at hrun
  obtain ⟨f, hf, ⟨g, _⟩, hg, first, hfirst, ⟨hgood, rfl⟩, -⟩ := hrun
  obtain ⟨hrows, hconfig, -⟩ := square_of_load hf
  have htol : f.config.zeroTolerance = 1 / 10 ^ 13 := by
    rw [hconfig]
    rfl
  obtain ⟨g', refusal, C, hg', -, hrefusal, hcolumns, hbounds⟩ :=
    exists_factor_bounded (reaches_of_load hf) (by rw [htol]; norm_num) hrows
  obtain ⟨rfl, rfl⟩ := Prod.mk.inj (Except.ok.inj (hg'.symm.trans hg))
  rw [show g'.goodColumns = 2 from hgood] at hrefusal hbounds
  rw [htol, one_div_one_div] at hbounds
  obtain ⟨-, hall⟩ | ⟨rfl, -⟩ := hrefusal
  · cases hall
  · obtain ⟨hsecond, hne, hdiagonal, -⟩ := hbounds 1 (by decide)
    exact ⟨f, g', C, hf, hg, Except.ok.inj ((hcolumns 0).symm.trans hfirst), hcolumns,
      (hbounds 0 (by decide)).1, hsecond 2 (by decide), hne, hdiagonal⟩

end BasisLU.Factorization
