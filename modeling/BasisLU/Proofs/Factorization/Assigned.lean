import Mathlib.Data.Fin.VecNotation
import BasisLU.Proofs.Factorization.Reachable

/-!
# Variables carried over to the rows

After factoring, the column at position `p` was pivoted on the row that stands there. Carrying the
variables of the columns over writes through the order of the positions (`assignVariables_eq_ok`).
The order is a permutation, also when elimination stopped early or the basis shrank, so what it
comes to can be told by the positions of the rows: every row gets the variable of the column at its
position, the variables are only put in another order, and nothing is written past the rows
(`Relabels`, `exists_relabels_of_reaches`). It is the same position that a solve takes the value of
the slot from.
-/

namespace BasisLU.Factorization

section Assign

variable {α : Type} {f : Factorization α} {n : Nat} {basic : Fin n → Nat}
  {sequence pivotVariable : Array Nat}

/-- The variables of the columns are carried over to the rows that the columns were pivoted on. -/
theorem assignVariables_eq_ok (hn : f.rows = n) {σ : Equiv.Perm (Fin n)} (hσ : f.order.Orders σ)
    (hsequence : ∀ p : Fin n, sequence[p.val]? = some (basic p))
    (hsize : n ≤ pivotVariable.size) :
    ∃ assigned, f.assignVariables sequence pivotVariable = .ok assigned ∧
      assigned.size = pivotVariable.size ∧
      (∀ r : Fin n, assigned[r.val]? = some (basic (σ r))) ∧
      ∀ r, n ≤ r → assigned[r]? = pivotVariable[r]? := by
  subst hn
  have hpairs : (List.range f.rows).mapM (fun p => do
      return (← Fault.read f.order.rowAt p, ← Fault.read sequence p)) =
      .ok ((List.finRange f.rows).map fun p => ((σ.symm p).val, basic p)) := by
    rw [← List.map_coe_finRange_eq_range, List.mapM_map]
    refine mapM_eq_ok fun p _ => ?_
    simp only [Function.comp_apply, bind_eq_ok_iff, pure_eq_ok_iff]
    exact ⟨_, hσ.read_rowAt p, _, Fault.read_eq_ok_iff.2 (hsequence p), rfl⟩
  have hlocate : locate pivotVariable.size
      ((List.finRange f.rows).map fun p => ((σ.symm p).val, basic p)) =
      .ok ((List.finRange f.rows).map fun p => ((σ.symm p).castLE hsize, basic p)) :=
    locate_eq_ok_iff.2 (by simp)
  have hnodup : (((List.finRange f.rows).map fun p =>
      ((σ.symm p).castLE hsize, basic p)).map Prod.fst).Nodup := by
    rw [List.map_map]
    exact (List.nodup_finRange _).map ((Fin.castLE_injective hsize).comp σ.symm.injective)
  simp only [assignVariables, hpairs, bind_eq_ok_iff, pure_eq_ok_iff]
  refine ⟨_, ⟨_, rfl, _, hlocate, rfl⟩, Vector.size_toArray _, fun r => ?_, fun r hr => ?_⟩
  · have hmem := scatter_of_mem (List.mem_map_of_mem (List.mem_finRange (σ r))) hnodup
      pivotVariable.toVector
    have hr : r.val < pivotVariable.size := r.isLt.trans_le hsize
    simp only [σ.symm_apply_apply] at hmem
    rw [← hmem]
    simp [hr]
  · by_cases hlt : r < pivotVariable.size
    · have hne : ∀ e ∈ (List.finRange f.rows).map fun p =>
          ((σ.symm p).castLE hsize, basic p), e.1.val ≠ r := fun e he => by
        obtain ⟨p, -, rfl⟩ := List.mem_map.1 he
        exact ((σ.symm p).isLt.trans_le hr).ne
      simpa [hlt] using scatter_of_forall_ne hlt hne pivotVariable.toVector
    · simp [hlt]

end Assign

variable {α : Type} [Scalar α] {f : Factorization α}

/-- What carrying the variables in `sequence` over to the rows makes of `pivotVariable`. -/
structure Relabels (f : Factorization α) (sequence pivotVariable assigned : Array Nat) : Prop where
  size_eq : assigned.size = pivotVariable.size
  /-- A row gets the variable of the column at its position. -/
  getElem?_eq : ∀ r < f.rows, ∃ p < f.rows, f.positions[r]? = some p ∧
    ∃ basic, sequence[p]? = some basic ∧ assigned[r]? = some basic
  /-- A solve takes the value of a slot from the position of the column that the variable of the
  slot belongs to. -/
  target_eq : ∃ targets, f.slotTargets = .ok targets ∧ targets.map Prod.snd = List.range f.rows ∧
    ∀ target ∈ targets, assigned[target.2]? = sequence[target.1.val]?
  perm : (assigned.toList.take f.rows).Perm (sequence.toList.take f.rows)
  rest_eq : ∀ r, f.rows ≤ r → assigned[r]? = pivotVariable[r]?

theorem take_toList_eq {xs : Array Nat} {n : Nat} {g : Fin n → Nat} (hn : n ≤ xs.size)
    (h : ∀ i : Fin n, xs[i.val]? = some (g i)) : xs.toList.take n = List.ofFn g := by
  refine List.ext_getElem (by simpa using hn) fun i hi hi' => ?_
  have hin : i < n := by simpa using hi'
  have hvalue := h ⟨i, hin⟩
  rw [Array.getElem?_eq_getElem (hin.trans_le hn), Option.some.injEq] at hvalue
  rw [List.getElem_take, Array.getElem_toList, List.getElem_ofFn, hvalue]

/-- After any calls that leave the factors of a basis, or of a part of it, the variables of the
columns can be carried over to the rows. -/
theorem exists_relabels_of_reaches {config : Config α} (hreach : Reaches (ofConfig config) f)
    (hstatus : f.status = .valid ∨ f.status = .singular) {sequence pivotVariable : Array Nat}
    (hsequence : f.rows ≤ sequence.size) (hsize : f.rows ≤ pivotVariable.size) :
    ∃ assigned, f.assignVariables sequence pivotVariable = .ok assigned ∧
      f.Relabels sequence pivotVariable assigned := by
  have h := sound_of_reaches hreach
  obtain ⟨σ, hσ⟩ := h.orders (by rcases hstatus with hs | hs <;> simp [hs])
  have hbasic (p : Fin f.rows) : sequence[p.val]? = some (sequence.getD p 0) := by
    simp [p.isLt.trans_le hsequence]
  obtain ⟨assigned, hassigned, hassignedSize, hrow, hrest⟩ :=
    assignVariables_eq_ok rfl hσ hbasic hsize
  refine ⟨assigned, hassigned, hassignedSize, fun r hr => ?_, ?_, ?_, hrest⟩
  · exact ⟨σ ⟨r, hr⟩, (σ ⟨r, hr⟩).isLt, getElem?_positions rfl hσ ⟨r, hr⟩, _, hbasic _,
      hrow ⟨r, hr⟩⟩
  · refine ⟨_, slotTargets_eq_ok hσ, ?_, fun target htarget => ?_⟩
    · rw [List.map_map]
      exact List.map_coe_finRange_eq_range
    · obtain ⟨r, -, rfl⟩ := List.mem_map.1 htarget
      exact (hrow r).trans (hbasic (σ r)).symm
  · rw [take_toList_eq (hassignedSize.symm ▸ hsize) hrow, take_toList_eq hsequence hbasic]
    exact Equiv.Perm.ofFn_comp_perm σ fun p : Fin f.rows => sequence.getD p.val 0

/-- A basis of four rows given up for a singular one of three, with two exchanges of rows. -/
def stoppedEarly : List (Operation Float) :=
  [.setChainCapacity 1, .resize 4 4, .load ![![0, 1, 1], ![0, 0, 0], ![1, 0, 1]], .factor]

theorem exists_relabels_of_reaches_stoppedEarly : ∃ f : Factorization Float,
    initial.run stoppedEarly = .ok f ∧ f.status = .singular ∧ f.positions = #[1, 2, 0] ∧
      f.assignVariables #[10, 20, 30, 40] #[0, 0, 0, 7, 8] = .ok #[20, 30, 10, 7, 8] ∧
      f.Relabels #[10, 20, 30, 40] #[0, 0, 0, 7, 8] #[20, 30, 10, 7, 8] := by
  have hrun : Except.isOk (do
      let f ← initial.run stoppedEarly
      if ¬ (f.status = .singular ∧ f.rows = 3 ∧ f.positions = #[1, 2, 0] ∧
        f.assignVariables #[10, 20, 30, 40] #[0, 0, 0, 7, 8] = .ok #[20, 30, 10, 7, 8]) then
        throw .outOfRange
      return f : Except Fault (Factorization Float)) = true := by
    decide +kernel
  obtain ⟨_, hrun⟩ := exists_eq_ok_of_isOk hrun
  simp only [bind_eq_ok_iff, guard_eq_ok_iff, not_not] at hrun
  obtain ⟨f, hf, ⟨hsingular, hrows, hpositions, hassigned⟩, -⟩ := hrun
  have hreach : Reaches (ofConfig Config.initial) f := reaches_of_run hf
  have hsequence : f.rows ≤ #[10, 20, 30, 40].size := by simp [hrows]
  have hsize : f.rows ≤ #[0, 0, 0, 7, 8].size := by simp [hrows]
  obtain ⟨assigned, hassigned', hrelabels⟩ :=
    exists_relabels_of_reaches hreach (.inr hsingular) hsequence hsize
  cases hassigned.symm.trans hassigned'
  exact ⟨f, hf, hsingular, hpositions, hassigned, hrelabels⟩

end BasisLU.Factorization
