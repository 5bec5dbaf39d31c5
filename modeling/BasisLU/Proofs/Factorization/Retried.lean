import Mathlib.Data.Fin.VecNotation
import BasisLU.Proofs.Factorization.Safety

/-!
# Replacements tried again

A replacement is refused because the chain is full or because the pivot is too small, and for no
other reason (`replace_eq_refused_iff`). Factoring empties the chain and keeps the parameters, so a
pivot that is too small stays so, and a chain that was full has room again, unless there is none for
even one update (`replace_of_refactored`).
-/

namespace BasisLU.Factorization

variable {α : Type} [Scalar α] {f g : Factorization α} {v : IndexedVector α} {slot : Nat}
  {pivot : α} {reason : Refusal}

/-- A full chain is reported before the pivot is looked at. -/
theorem replace_eq_refused_iff (hvalid : f.status = .valid) :
    f.replace v slot pivot = .error (.refused reason) ↔
      (f.config.chainCapacity ≤ f.updates ∧ reason = .chainFull f.config.chainCapacity) ∨
      (f.updates < f.config.chainCapacity ∧ Scalar.magnitude pivot ≤ f.config.zeroTolerance ∧
        reason = .weakPivot (Scalar.toFloat (Scalar.magnitude pivot))
          (Scalar.toFloat f.config.zeroTolerance)) := by
  simp only [replace, bind_eq_error_iff, guard_eq_error_iff, liftFault_ne_refused,
    liftFault_eq_ok_iff, requireValid_eq_ok_iff, hvalid, false_or, or_false, and_false,
    exists_false, true_and, exists_const, Failure.refused.injEq, Nat.not_le,
    eq_comm (b := reason)]

/-- A basis of as many rows was loaded, with the same parameters, and factored to `g`. -/
def Refactored (f g : Factorization α) : Prop :=
  ∃ loaded, Reaches f loaded ∧ loaded.rows = f.rows ∧ loaded.config = f.config ∧
    loaded.factor = .ok (g, none)

/-- Factors of a whole basis have no updates yet. -/
theorem LaidOut.valid_of_factor (h : f.LaidOut) (hg : f.factor = .ok (g, none)) :
    g.status = .valid ∧ g.updates = 0 ∧ g.rows = f.rows ∧ g.config = f.config := by
  obtain ⟨columns, -, hinstall, hnone⟩ := h.factor_eq_ok_iff.1 hg
  obtain ⟨-, hstatus, hsingularity⟩ := status_of_install hinstall
  obtain ⟨block, order, -, -, rfl⟩ := install_eq_ok_iff.1 hinstall
  rw [hnone] at hsingularity
  split at hsingularity
  · exact ⟨hstatus.trans (if_pos ‹_›), rfl, rfl, rfl⟩
  · cases hsingularity

/-- A replacement refused for a full chain is not refused for one after the basis was factored
again, if the chain has room for an update at all; then it succeeds, unless the pivot is too small.
If it was refused for a pivot that is too small, it is so again. -/
theorem replace_of_refactored [LawfulScalar α] {start : Factorization α} (hnew : start.New)
    (hreach : Reaches start f) (hvalid : f.status = .valid)
    (hrefused : f.replace v slot pivot = .error (.refused reason)) (hg : f.Refactored g) :
    (reason.curedByFactoring = true →
      ((∃ again, g.replace v slot pivot = .error (.refused again) ∧ again.curedByFactoring = true) ↔
        f.config.chainCapacity = 0) ∧
      (0 < f.config.chainCapacity → ¬ Scalar.magnitude pivot ≤ f.config.zeroTolerance →
        v.Made → (∀ i ∈ v.indices, i < f.rows) → slot < f.rows →
        ∃ h, g.replace v slot pivot = .ok h)) ∧
    (reason.curedByFactoring = false →
      g.replace v slot pivot = .error (.refused reason)) := by
  obtain ⟨loaded, hloaded, hrows, hconfig, hfactor⟩ := hg
  have hsound := (invariant_of_reaches hnew (hreach.trans hloaded)).toSound
  obtain ⟨hgvalid, hupdates, hgrows, hgconfig⟩ := hsound.valid_of_factor hfactor
  have hgsound := hsound.factor hfactor
  rw [hconfig] at hgconfig
  rw [hrows] at hgrows
  refine ⟨fun _ => ⟨⟨fun hagain => ?_, fun hzero => ?_⟩, fun hpos hpivot hmade hlt hslot => ?_⟩,
    fun hcured => ?_⟩
  · obtain ⟨again, hagain, hcured⟩ := hagain
    rcases (replace_eq_refused_iff hgvalid).1 hagain with ⟨hfull, -⟩ | ⟨-, -, rfl⟩
    · rw [hgconfig] at hfull
      omega
    · cases hcured
  · refine ⟨.chainFull f.config.chainCapacity, (replace_eq_refused_iff hgvalid).2 (.inl ?_), rfl⟩
    rw [hgconfig]
    exact ⟨by omega, rfl⟩
  · refine hgsound.exists_replace hgvalid hmade (hgrows ▸ hlt) (hgrows ▸ hslot) ?_ ?_
    · rw [hgconfig]
      omega
    · rwa [hgconfig]
  · rcases (replace_eq_refused_iff hvalid).1 hrefused with ⟨-, rfl⟩ | ⟨hroom, hweak, rfl⟩
    · cases hcured
    · refine (replace_eq_refused_iff hgvalid).2 (.inr ?_)
      rw [hgconfig]
      exact ⟨by omega, hweak, rfl⟩

/-- A basis with all the updates there is room for. -/
def fullChain : List (Operation Float) :=
  [.setChainCapacity 1, .load ![![0.2, 1], ![1, 0.3]], .factor,
    .replace ⟨#[0.5], [0], .packed⟩ 0 0.5]

/-- A solution with one entry. -/
def single : IndexedVector Float := ⟨#[3], [0], .packed⟩

theorem made_single : single.Made := by
  have hpacked : IndexedVector.ofPacked 1 [0] [3] = .ok single := rfl
  exact .ofPacked hpacked

theorem replace_of_refactored_fullChain : ∃ f loaded g h : Factorization Float,
    initial.run fullChain = .ok f ∧
      f.replace single 1 0.7 = .error (.refused (.chainFull f.config.chainCapacity)) ∧
      f.load ![![1, 2], ![3, 4]] = .ok loaded ∧ loaded.factor = .ok (g, none) ∧
      g.replace single 1 0.7 = .ok h := by
  have hrun : Except.isOk (do
      let f ← liftM (initial.run fullChain)
      let loaded ← f.load ![![1, 2], ![3, 4]]
      let (g, refusal) ← liftM loaded.factor
      if ¬ (f.status = .valid ∧ f.rows = 2 ∧ f.updates = 1 ∧ f.config.chainCapacity = 1 ∧
        ¬ Scalar.magnitude 0.7 ≤ f.config.zeroTolerance ∧ refusal.isNone = true) then
        throw (.fault .outOfRange)
      return g : Except Failure (Factorization Float)) = true := by
    decide +kernel
  obtain ⟨_, hrun⟩ := exists_eq_ok_of_isOk hrun
  simp only [bind_eq_ok_iff, guard_eq_ok_iff, liftFault_eq_ok_iff, not_not,
    Option.isNone_iff_eq_none] at hrun
  obtain ⟨f, hf, loaded, hloaded, ⟨g, refusal⟩, hg,
    ⟨hvalid, hrows, hupdates, hcapacity, hpivot, rfl⟩, -⟩ := hrun
  have hrefused : f.replace single 1 0.7 =
      .error (.refused (.chainFull f.config.chainCapacity)) :=
    (replace_eq_refused_iff hvalid).2 (.inl ⟨by omega, rfl⟩)
  obtain ⟨hsame, hconfig, -⟩ := square_of_load hloaded
  obtain ⟨hcured, -⟩ := replace_of_refactored .initial (reaches_of_run hf) hvalid hrefused
    ⟨loaded, reaches_of_load hloaded, hsame.trans hrows.symm, hconfig, hg⟩
  obtain ⟨h, hh⟩ := (hcured rfl).2 (by omega) hpivot made_single (by simp [single, hrows])
    (by omega)
  exact ⟨f, loaded, g, h, hf, hrefused, hloaded, hg, hh⟩

/-- If there is no room for any update, factoring the same basis again does not make any. -/
theorem exists_chainFull_of_refactored : ∃ f loaded g : Factorization Float,
    initial.run [.setChainCapacity 0, .load ![![1]], .factor] = .ok f ∧ f.status = .valid ∧
      f.replace single 0 1 = .error (.refused (.chainFull 0)) ∧
      f.load ![![1]] = .ok loaded ∧ loaded.rows = f.rows ∧ loaded.config = f.config ∧
      loaded.factor = .ok (g, none) ∧ g.replace single 0 1 = .error (.refused (.chainFull 0)) ∧
      (Refusal.chainFull 0).curedByFactoring = true := by
  have hrun : Except.isOk (do
      let f ← liftM (initial.run [.setChainCapacity 0, .load ![![1]], .factor])
      let loaded ← f.load ![![1]]
      let (g, refusal) ← liftM loaded.factor
      if ¬ (f.status = .valid ∧ f.rows = 1 ∧ f.config.chainCapacity = 0 ∧ g.status = .valid ∧
        g.config.chainCapacity = 0 ∧ refusal.isNone = true) then throw (.fault .outOfRange)
      return g : Except Failure (Factorization Float)) = true := by
    decide +kernel
  obtain ⟨_, hrun⟩ := exists_eq_ok_of_isOk hrun
  simp only [bind_eq_ok_iff, guard_eq_ok_iff, liftFault_eq_ok_iff, not_not,
    Option.isNone_iff_eq_none] at hrun
  obtain ⟨f, hf, loaded, hloaded, ⟨g, refusal⟩, hg,
    ⟨hvalid, hrows, hcapacity, hvalid', hcapacity', rfl⟩, -⟩ := hrun
  obtain ⟨hsame, hconfig, -⟩ := square_of_load hloaded
  refine ⟨f, loaded, g, hf, hvalid, ?_, hloaded, hsame.trans hrows.symm, hconfig, hg, ?_, rfl⟩
  · exact (replace_eq_refused_iff hvalid).2 (.inl ⟨by omega, by rw [hcapacity]⟩)
  · exact (replace_eq_refused_iff hvalid').2 (.inl ⟨by omega, by rw [hcapacity']⟩)

end BasisLU.Factorization
