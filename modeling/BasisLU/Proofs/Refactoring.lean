import BasisLU.Proofs.Chain
import BasisLU.Proofs.Factorization.Assigned
import BasisLU.Proofs.Factorization.Invariant
import BasisLU.Proofs.Factorization.Repair

/-!
# Refactoring an updated basis

After a chain of replacements, the columns of the basis can be loaded again and factored afresh
(`exists_reload`). The new factors have a row order of their own, so the solution comes out in other
slots: row `r` now stands for the column that was pivoted there. The variables of the columns,
carried over to the rows (`assignVariables_eq_ok`), say which: the new solution at a slot is the old
one at the slot that its variable had (`ftran_of_refactored`).
-/

namespace BasisLU.Factorization

open Matrix

variable {α : Type} [ExactScalar α] {n : Nat} {start f g h k : Factorization α}
  {a : Fin n → Fin n → α} {B : Matrix (Fin n) (Fin n) α}

/-- Every column loaded, in any order. -/
theorem Sound.exists_reload (hf : f.Sound) (hn : f.rows = n) (B : Matrix (Fin n) (Fin n) α)
    {order : List (Fin n)} (horder : ∀ r, r ∈ order) :
    ∃ g, order.foldlM (fun f r => f.loadColumn r (Array.ofFn fun i => B i r)) f = .ok g ∧
      g.Sound ∧ g.rows = n ∧ g.config = f.config ∧
      ∀ r : Fin n, Block.column n r g.block = .ok (Vector.ofFn fun i => B i r) := by
  have hreload : reloadColumn B n [] =
      fun (f : Factorization α) (r : Fin n) => f.loadColumn r (Array.ofFn fun i => B i r) :=
    funext₂ fun _ (r : Fin n) => if_pos r.isLt
  rw [← hreload]
  have hnil : ∀ r ∈ ([] : List Nat), r < n := nofun
  obtain ⟨g, hg, hgs, hgn, hgc, hcolumns⟩ := foldlM_reloadColumn_eq_ok hnil order hf hn
  refine ⟨g, hg, hgs, hgn, hgc, fun r => (hcolumns r (.inl (horder r))).trans ?_⟩
  simp [reloaded]

/-- The solution for the columns in another order is the solution in that order. -/
theorem Represents.solution_comp {tolerance : α} {σ : Equiv.Perm (Fin n)}
    (h : f.Represents tolerance (B.submatrix id σ)) {x y : Fin n → α}
    (hxy : B.submatrix id σ *ᵥ y = B *ᵥ x) : y = x ∘ σ := by
  refine h.mulVec_injective (hxy.trans ?_)
  beta_reduce
  rw [submatrix_mulVec_equiv, Function.comp_assoc, σ.self_comp_symm]
  rfl

/-- The columns of an updated basis, loaded into the same factorization and factored afresh, give
the same solution for every variable: at the slot that the variable was assigned to, it is what the
updates give at the slot that the variable had. -/
theorem ftran_of_refactored (hnew : start.New) (hreach : Reaches start g) (hrows : g.rows = n)
    (hcolumns : ∀ k : Fin n, Block.column n k g.block = .ok (Vector.ofFn fun i => a i k))
    (hfactor : g.factor = .ok (h, none)) (hchain : Chain h (h.slotBasis a) k B)
    {order : List (Fin n)} (horder : ∀ r, r ∈ order) :
    ∃ l, order.foldlM (fun f r => f.loadColumn r (Array.ofFn fun i => B i r)) k = .ok l ∧
      ∀ m, l.factor = .ok (m, none) →
      ∀ (basic : Fin n → Nat) (sequence pivotVariable : Array Nat),
        Function.Injective basic → (∀ r : Fin n, sequence[r.val]? = some (basic r)) →
        n ≤ pivotVariable.size →
      ∃ assigned, m.assignVariables sequence pivotVariable = .ok assigned ∧
        (∀ r : Fin n, ∃ s, assigned[r.val]? = some (basic s)) ∧
        ∀ u v : IndexedVector α, u.Proper n → n ≤ u.capacity → v.Proper n → n ≤ v.capacity →
          u.values n = v.values n →
        ∃ w x, k.ftran u = .ok (w, k) ∧ m.ftran v = .ok (x, m) ∧
          ∀ r s : Fin n, assigned[r.val]? = some (basic s) →
            x.valueAt r = w.valueAt s ∧ (r.val ∈ x.indices ↔ s.val ∈ w.indices) := by
  have hg := invariant_of_reaches hnew hreach
  have htol := (Config.check_eq_ok_iff.1 hg.check).1.1.le
  have hk := (hg.represents_slotBasis htol hrows hcolumns hfactor).of_chain htol hchain
  obtain ⟨_, _, hstored, -, -⟩ := hk.stored
  obtain ⟨l, hl, hls, hln, hlc, hlcolumns⟩ := hk.sound.exists_reload hstored.rows_eq B horder
  refine ⟨l, hl, fun m hm basic sequence pivotVariable hinjective hsequence hsize => ?_⟩
  have hltol : l.config.zeroTolerance = g.config.zeroTolerance := by rw [hlc, hk.tolerance_eq]
  obtain ⟨σ, hmn, hσ, hrep⟩ := hls.represents_of_columns (hltol ▸ htol) hln hlcolumns hm
  obtain ⟨assigned, hassigned, -, hassign, -⟩ := assignVariables_eq_ok hmn hσ hsequence hsize
  refine ⟨assigned, hassigned, fun r => ⟨σ r, hassign r⟩, fun u v hu hucap hv hvcap huv => ?_⟩
  obtain ⟨w, x, hw, -, hx, hwx⟩ := hk.ftran hu hucap
  obtain ⟨w', x', hw', -, hx', hwx'⟩ := hrep.ftran hv hvcap
  -- Both solve for the same right-hand side, the second for the columns in the order of `σ`.
  have hxx' := hrep.solution_comp (hx'.trans (huv.symm.trans hx.symm))
  refine ⟨w, w', hw, hw', fun r s hrs => ?_⟩
  obtain rfl : s = σ r := hinjective (Option.some.inj (hrs.symm.trans (hassign r)))
  rw [hwx'.valueAt_eq, hwx.valueAt_eq, hwx'.mem_indices, hwx.mem_indices, hxx', hltol,
    Function.comp_apply]
  exact ⟨rfl, .rfl⟩

/-- The sample with its columns in slot order. -/
def sampleSlots : Matrix (Fin 3) (Fin 3) Rat := Matrix.of ![![1, 0, 2], ![-1, 4, 1], ![5, 2, 3]]

/-- The sample after one replacement. -/
def sampleUpdated : Matrix (Fin 3) (Fin 3) Rat :=
  sampleSlots.updateCol 1 (sampleSlots *ᵥ Function.update (packedSample.values 3) 1 (7 / 3))

theorem ftran_of_refactored_sample : ∃ (k m : Factorization Rat) (assigned : Array Nat)
    (w x : IndexedVector Rat), k.updates = 1 ∧ m.updates = 0 ∧
      m.assignVariables #[10, 20, 30] #[0, 0, 0, 7] = .ok assigned ∧
      k.ftran packedSample = .ok (w, k) ∧ m.ftran packedSample = .ok (x, m) ∧
      ∀ r s : Fin 3, assigned[r.val]? = some (![10, 20, 30] s) → x.valueAt r = w.valueAt s := by
  have hrun : Except.isOk (do
      let g ← (ofConfig smallConfig).load sample
      let (h, refusal) ← g.factor
      if refusal.isSome ∨ h.positions ≠ #[2, 0, 1] then throw (.fault .outOfRange)
      let k ← h.replace packedSample 1 (7 / 3)
      let l ← [2, 0, 1].foldlM (fun f (r : Fin 3) =>
        f.loadColumn r (Array.ofFn fun i => sampleUpdated i r)) k
      let (m, refusal) ← l.factor
      if refusal.isSome ∨ k.updates ≠ 1 ∨ m.updates ≠ 0 then throw (.fault .outOfRange)
      return m : Except Failure (Factorization Rat)) = true := by
    decide +kernel
  obtain ⟨m, hrun⟩ := exists_eq_ok_of_isOk hrun
  simp only [bind_eq_ok_iff, liftFault_eq_ok_iff, guard_eq_ok_iff, pure_eq_ok_iff, not_or, not_not]
    at hrun
  obtain ⟨g, hg, ⟨h, refusal⟩, hh, ⟨hnone, hpositions⟩, k, hk, l, hl, ⟨m', refusal'⟩, hm,
    ⟨hnone', hupdates, hupdates'⟩, rfl⟩ := hrun
  obtain rfl : refusal = none := by simpa using hnone
  obtain rfl : refusal' = none := by simpa using hnone'
  have hslots : h.slotBasis sample = sampleSlots := by
    ext i r
    rw [slotBasis, of_apply, hpositions]
    fin_cases r <;> fin_cases i <;> rfl
  have hchain : Chain h (h.slotBasis sample) k sampleUpdated := by
    rw [hslots]
    exact .replaced (r := 1) .factored packedSample_proper hk
  have hnew : (ofConfig smallConfig).New :=
    New.of_check (Config.check_eq_ok_iff.2 (by decide +kernel))
  have horder : ∀ r : Fin 3, r ∈ [2, 0, 1] := by decide
  obtain ⟨l', hl', hrefactored⟩ := ftran_of_refactored hnew (reaches_of_load hg)
    (square_of_load hg).1 (column_of_load hg) hh hchain horder
  cases hl.symm.trans hl'
  obtain ⟨assigned, hassigned, -, hsolve⟩ := hrefactored m' hm ![10, 20, 30] #[10, 20, 30]
    #[0, 0, 0, 7] (by decide) (by decide) (by decide)
  obtain ⟨w, x, hw, hx, hsame⟩ := hsolve packedSample packedSample packedSample_proper (by decide)
    packedSample_proper (by decide) rfl
  exact ⟨k, m', assigned, w, x, hupdates, hupdates', hassigned, hw, hx,
    fun r s hrs => (hsame r s hrs).1⟩

end BasisLU.Factorization
