import Mathlib.Data.Fin.VecNotation
import BasisLU.Proofs.Factorization.Clean
import BasisLU.Proofs.Factorization.History
import BasisLU.Proofs.Factorization.Safety
import BasisLU.Proofs.Chain
import BasisLU.System

/-!
# Systems solved from scratch

What comes of a system `a z = b` over exact scalars (`solveSystem_spec`). Sizes that do not fit and
matrices that there is no room for are refused. Otherwise the result is the solution, the only one
there is, without its entries at or below the zero tolerance (`Answers`), or the matrix is found
singular, as every matrix without an inverse is.

The solve answers by slots, and slot `r` belongs to the column at the position of row `r`. So the
solution read at the row of a position is the solution for the column in that position
(`scatter_locateRows`).
-/

namespace BasisLU

open Matrix

namespace IndexedVector

theorem lt_of_mem_ofArray {α : Type} [Scalar α] {dense : Array α} {threshold : α} {i : Nat}
    (hi : i ∈ (ofArray dense threshold).indices) : i < dense.size := by
  obtain ⟨⟨x, i⟩, he, rfl⟩ := List.mem_map.1 hi
  have hx := List.mk_mem_zipIdx_iff_getElem?.1 (List.mem_filter.1 he).1
  simpa using (List.getElem?_eq_some_iff.1 hx).1

variable {α : Type} [ExactScalar α]

theorem proper_ofArray (dense : Array α) (threshold : α) :
    (ofArray dense threshold).Proper dense.size :=
  ⟨isClean_ofArray dense threshold, nodup_ofArray dense threshold, fun _ => lt_of_mem_ofArray⟩

/-- Without a threshold an array keeps its values. -/
theorem valueAt_ofArray (dense : Array α) (i : Nat) :
    (ofArray dense 0).valueAt i = dense.getD i 0 := by
  simp only [valueAt, ofArray, Array.getD_eq_getD_getElem?, Array.getElem?_map,
    Scalar.magnitude_eq_abs, abs_pos]
  cases dense[i]? with
  | none => rfl
  | some x => by_cases hx : x = 0 <;> simp [hx]

end IndexedVector

namespace Factorization

variable {α : Type} [ExactScalar α] {n : Nat} {f g : Factorization α} {σ : Equiv.Perm (Fin n)}

/-- The values of a vector of rows, put at the positions of the rows. -/
theorem scatter_locateRows (hrows : f.rows = n) (hσ : f.order.Orders σ) {w : IndexedVector α}
    (hw : w.Tidy n) (hslots : w.HasSlots) :
    ∃ entries placed, w.entries = .ok entries ∧ f.locateRows entries = .ok placed ∧
      (scatter placed (Vector.replicate f.rows 0)).toArray =
        Array.ofFn fun p : Fin n => w.valueAt (σ.symm p) := by
  subst hrows
  obtain ⟨rows, hindices⟩ := IndexedVector.exists_rows hw.lt
  have hentries := (IndexedVector.entries_eq_ok_iff hw.nodup).2 ⟨hslots, rfl⟩
  rw [hindices, List.map_map] at hentries
  refine ⟨_, _, hentries, locateRows_map hσ rows w.valueAt, ?_⟩
  rw [scatter_rows σ hw hindices]
  rfl

end Factorization

section Systems

open Factorization (initial)

variable {α : Type} [ExactScalar α]

/-- There is room for a matrix of so many rows with the default parameters. -/
def HasRoom (α : Type) [Scalar α] (rows : Nat) : Prop :=
  ∃ space, Capacity.allocatable? (Scalar.bytes α)
    ⟨rows, (Config.initial : Config α).chainCapacity⟩ = some space

theorem spaceFor_of_not_hasRoom {α : Type} [Scalar α] {rows : Nat} (h : ¬ HasRoom α rows) :
    Factorization.spaceFor α rows (Config.initial : Config α).chainCapacity =
      .error (.tooLarge rows (Config.initial : Config α).chainCapacity) := by
  rw [HasRoom, not_exists, ← Option.eq_none_iff_forall_ne_some] at h
  rw [Factorization.spaceFor, h]

/-- Every equation of the system `a z = b` holds. -/
def Satisfies {rows columns : Nat} (a : Fin rows → Fin columns → α) (b : Array α)
    (z : Fin columns → α) : Prop :=
  ∀ i : Fin rows, b[i.val]? = some ((Matrix.of a *ᵥ z) i)

/-- The system `a z = b` has exactly one solution, and `x` is this without its entries at or below
the default zero tolerance. -/
def Answers {rows columns : Nat} (a : Fin rows → Fin columns → α) (b x : Array α) : Prop :=
  ∃ z, Satisfies a b z ∧ (∀ y, Satisfies a b y → y = z) ∧ x.size = columns ∧
    ∀ j : Fin columns,
      x[j.val]? = some (if (Config.initial : Config α).zeroTolerance < |z j| then z j else 0)

variable {n : Nat} {a : Fin n → Fin n → α} {b : Array α} {f g : Factorization α}

theorem satisfies_iff (hb : b.size = n) {z : Fin n → α} :
    Satisfies a b z ↔ Matrix.of a *ᵥ z = fun i : Fin n => b.getD i 0 := by
  rw [funext_iff]
  refine forall_congr' fun i => ?_
  have hi : i.val < b.size := hb ▸ i.isLt
  simp [hi, eq_comm]

/-- How many columns of the matrix get a pivot with the default parameters. -/
def pivotedColumns (a : Fin n → Fin n → α) : Nat :=
  (eliminate (Config.initial : Config α).zeroTolerance
    (Vector.ofFn fun k => Vector.ofFn fun i => a i k)).good

/-- A matrix that there is room for is loaded and factored, or found singular. -/
theorem exists_factor_of_spaceFor {space : Nat}
    (hspace : Factorization.spaceFor α n (Config.initial : Config α).chainCapacity = .ok space)
    (a : Fin n → Fin n → α) :
    ∃ f g, initial.load a = .ok f ∧ f.factor = .ok (g, if pivotedColumns a = n then none
      else some (.singular (pivotedColumns a) n)) := by
  have hsound := Factorization.sound_ofConfig (Config.initial : Config α)
  obtain ⟨f, hload⟩ := hsound.exists_load hspace a
  obtain ⟨hrows, hconfig, hsquare⟩ := Factorization.square_of_load hload
  obtain ⟨σ, hσ⟩ := Factorization.exists_perm_eliminate (Config.initial : Config α).zeroTolerance
    (Vector.ofFn fun k => Vector.ofFn fun i => a i k)
  obtain ⟨g, hfactor, helim⟩ :=
    (hsound.load hload).exists_factor_of_square hrows hsquare hconfig hσ
  exact ⟨f, g, hload, helim.singularity?_eq ▸ hfactor⟩

theorem solveSystem_of_singular (hb : b.size = n) {space : Nat}
    (hspace : Factorization.spaceFor α n (Config.initial : Config α).chainCapacity = .ok space)
    (hgood : pivotedColumns a ≠ n) :
    solveSystem a b = .error (.refused (.singular (pivotedColumns a) n)) := by
  obtain ⟨f, g, hload, hfactor⟩ := exists_factor_of_spaceFor hspace a
  rw [if_neg hgood] at hfactor
  rw [solveSystem, if_neg (not_not.2 hb), hload, ok_bind, hfactor]
  rfl

/-- A basis with its columns in another order is singular if the basis is. -/
theorem isUnit_det_of_submatrix {B : Matrix (Fin n) (Fin n) α} {σ : Equiv.Perm (Fin n)}
    (h : IsUnit (B.submatrix id σ).det) : IsUnit B.det := by
  rw [det_permute'] at h
  exact isUnit_of_mul_isUnit_right h

/-- What the solve leaves at a slot is the solution for the column at the position of the slot's
row. -/
theorem exists_answers (hb : b.size = n) {space : Nat}
    (hspace : Factorization.spaceFor α n (Config.initial : Config α).chainCapacity = .ok space)
    (hgood : pivotedColumns a = n) :
    (∃ x, solveSystem a b = .ok x ∧ Answers a b x) ∧ (Matrix.of a).det ≠ 0 := by
  obtain ⟨f, g, hload, hfactor⟩ := exists_factor_of_spaceFor hspace a
  rw [if_pos hgood] at hfactor
  have htol : 0 ≤ (Config.initial : Config α).zeroTolerance :=
    (Config.check_eq_ok_iff.1 Config.check_initial).1.1.le
  obtain ⟨hrows, hconfig, -⟩ := Factorization.square_of_load hload
  have hsound := (Factorization.sound_ofConfig (Config.initial : Config α)).load hload
  obtain ⟨σ, hgrows, hσ, hrep⟩ := hsound.represents_of_columns (A := Matrix.of a)
    (by rw [hconfig]; exact htol) hrows (Factorization.column_of_load hload) hfactor
  have hunit := isUnit_det_of_submatrix hrep.isUnit_det
  have hinj := mulVec_injective_iff_isUnit.2 ((isUnit_iff_isUnit_det (Matrix.of a)).2 hunit)
  have hv : (IndexedVector.ofArray b 0).Proper n := hb ▸ IndexedVector.proper_ofArray b 0
  obtain ⟨w, x, hw, -, hx, hcompact⟩ := hrep.ftran hv
    (by simp [IndexedVector.capacity, IndexedVector.ofArray, hb])
  obtain ⟨_, _, _, -, -, hthrough⟩ := hrep.sound.exists_covers_of_ftran hw
  obtain ⟨entries, placed, hentries, hplaced, hresult⟩ := Factorization.scatter_locateRows hgrows hσ
    hcompact.proper.tidy (IndexedVector.hasSlots_of_solveThrough hthrough)
  have hsolves : Matrix.of a *ᵥ (x ∘ σ.symm) = fun i : Fin n => b.getD i 0 := by
    rw [submatrix_mulVec_equiv] at hx
    refine hx.trans (funext fun i => ?_)
    exact IndexedVector.valueAt_ofArray b i
  refine ⟨⟨Array.ofFn fun p : Fin n => w.valueAt (σ.symm p), ?_, x ∘ σ.symm,
    (satisfies_iff hb).2 hsolves, fun y hy => ?_, by simp, fun j => ?_⟩, hunit.ne_zero⟩
  · rw [solveSystem, if_neg (not_not.2 hb), hload, ok_bind, hfactor, liftFault_ok, ok_bind]
    simp only [hw, hentries, hplaced, hresult, liftFault_ok, ok_bind]
    rfl
  · exact hinj (((satisfies_iff hb).1 hy).trans hsolves.symm)
  · rw [Array.getElem?_ofFn, dif_pos j.isLt, hcompact.valueAt_eq, hconfig]
    rfl

/-- A system is refused if the sizes do not fit, if the matrix is not square, or if there is no room
for it. Otherwise its only solution is returned, up to what is at or below the zero tolerance, or
the matrix is found singular; this happens whenever it is. -/
theorem solveSystem_spec {rows columns : Nat} (a : Fin rows → Fin columns → α) (b : Array α) :
    (b.size ≠ rows → solveSystem a b = .error (.refused (.lengthMismatch rows b.size))) ∧
    (b.size = rows → rows ≠ columns →
      solveSystem a b = .error (.refused (.notSquare rows columns))) ∧
    ∀ hn : rows = columns, b.size = rows →
      (¬ HasRoom α rows → solveSystem a b =
        .error (.refused (.tooLarge rows (Config.initial : Config α).chainCapacity))) ∧
      (HasRoom α rows →
        ((∃ x, solveSystem a b = .ok x ∧ Answers a b x) ∨
          ∃ good, good < rows ∧ solveSystem a b = .error (.refused (.singular good rows))) ∧
        ((Matrix.of fun i k : Fin rows => a i (k.cast hn)).det = 0 →
          ∃ good, good < rows ∧ solveSystem a b = .error (.refused (.singular good rows)))) := by
  refine ⟨fun hb => if_pos hb, fun hb hn => ?_, fun hn hb => ⟨fun hroom => ?_, fun hroom => ?_⟩⟩
  · rw [solveSystem, if_neg (not_not.2 hb), Factorization.load, dif_neg hn]
    rfl
  · subst hn
    rw [solveSystem, if_neg (not_not.2 hb),
      Factorization.load_of_spaceFor_eq_error (f := initial) (spaceFor_of_not_hasRoom hroom)]
    rfl
  · subst hn
    simp only [Fin.cast_eq_self]
    obtain ⟨space, hspace⟩ := hroom
    have hspace := Factorization.spaceFor_eq_ok_iff.2 hspace
    by_cases hgood : pivotedColumns a = rows
    · obtain ⟨hsolved, hdet⟩ := exists_answers hb hspace hgood
      exact ⟨.inl hsolved, fun hzero => absurd hzero hdet⟩
    · have hlt : pivotedColumns a < rows :=
        Nat.lt_of_le_of_ne (Elimination.good_eliminate_le _ _) hgood
      have hsingular := solveSystem_of_singular hb hspace hgood
      exact ⟨.inr ⟨_, hlt, hsingular⟩, fun _ => ⟨_, hlt, hsingular⟩⟩

open Factorization (sample)

/-- The second entry is so small that it is dropped. -/
def sampleSolution : Fin 3 → Rat := ![2, -1 / 10 ^ 14, 3]

def sampleSum : Array Rat := #[3 - 2 / 10 ^ 14, 5 - 1 / 10 ^ 14, 19 - 3 / 10 ^ 14]

theorem satisfies_sampleSum : Satisfies sample sampleSum sampleSolution := by
  unfold Satisfies
  decide +kernel

theorem solveSystem_spec_sample :
    solveSystem sample #[1, 2] = .error (.refused (.lengthMismatch 3 2)) ∧
    solveSystem (fun (_ : Fin 1) (_ : Fin 2) => (1 : Rat)) #[1] =
      .error (.refused (.notSquare 1 2)) ∧
    solveSystem sample sampleSum = .ok #[2, 0, 3] ∧
    ∃ good, good < 2 ∧ solveSystem (fun (_ _ : Fin 2) => (1 : Rat)) #[1, 1] =
      .error (.refused (.singular good 2)) := by
  refine ⟨(solveSystem_spec sample #[1, 2]).1 (by decide),
    (solveSystem_spec _ #[1]).2.1 rfl (by decide), ?_, ?_⟩
  · have hroom : HasRoom Rat 3 := ⟨609, by decide +kernel⟩
    obtain ⟨⟨x, hx, z, -, hunique, hsize, hentries⟩ | ⟨good, -, hsingular⟩, -⟩ :=
      ((solveSystem_spec sample sampleSum).2.2 rfl rfl).2 hroom
    · have hsolution : ∀ j : Fin 3, some (if (Config.initial : Config Rat).zeroTolerance <
          |sampleSolution j| then sampleSolution j else 0) = #[2, 0, 3][j.val]? := by
        decide +kernel
      rw [hx]
      refine congrArg _ (Array.ext_getElem? fun j => ?_)
      obtain hj | hj := Nat.lt_or_ge j 3
      · rw [hentries ⟨j, hj⟩, ← hunique _ satisfies_sampleSum]
        exact hsolution ⟨j, hj⟩
      · rw [Array.getElem?_eq_none (hsize.trans_le hj), Array.getElem?_eq_none hj]
    · obtain ⟨space, hspace⟩ := hroom
      obtain ⟨⟨x, hx, -⟩, -⟩ := exists_answers (a := sample) (b := sampleSum) rfl
        (Factorization.spaceFor_eq_ok_iff.2 hspace) (by decide +kernel)
      exact nomatch hsingular.symm.trans hx
  · exact (((solveSystem_spec (fun (_ _ : Fin 2) => (1 : Rat)) #[1, 1]).2.2 rfl rfl).2
      ⟨404, by decide +kernel⟩).2 (by simp [det_fin_two])

end Systems

end BasisLU
