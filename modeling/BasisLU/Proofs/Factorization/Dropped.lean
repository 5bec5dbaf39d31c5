import BasisLU.Proofs.Factorization.Output

/-!
# What a solve drops

A solve lists what it computed above the zero tolerance, so what it drops is at or below the
tolerance or compares with nothing (`listed_iff_of_solveBy`). An infinite value is listed, and a
value that is no number is left out like a small one (`exists_dropped_of_nan`).
-/

namespace BasisLU.Factorization

variable {α : Type} [Scalar α] {f : Factorization α} {v : IndexedVector α}

/-- Of all that is computed, exactly what is above the zero tolerance is listed, with its value. An
index is not listed if its value is at or below the tolerance, or has a magnitude that is no
number. -/
theorem listed_iff_of_solveBy [LawfulScalar α] [OrderedScalar α] {start : Factorization α}
    (hnew : start.New) (hreach : Reaches start f) (hvalid : f.status = .valid) (hv : f.Accepts v)
    (mode : Mode) (hl : mode = .inPlace → v.layout = .scattered) :
    ∃ w pairs entries, f.solveBy mode v = .ok w ∧ f.computed mode v = .ok pairs ∧
      w.entries = .ok entries ∧ (pairs.map Prod.fst).Perm (List.range f.rows) ∧
      entries.Sublist pairs ∧ ∀ e ∈ pairs,
        (e ∈ entries ↔ f.config.zeroTolerance < Scalar.magnitude e.2) ∧
        (e.1 ∉ w.indices ↔ Scalar.magnitude e.2 ≤ f.config.zeroTolerance ∨
          ¬ Scalar.IsNumber (Scalar.magnitude e.2)) := by
  have hf := invariant_of_reaches hnew hreach
  have htol := (Scalar.isNumber_of_lt (Config.check_eq_ok_iff.1 hf.check).1.1).2
  obtain ⟨σ, hσ⟩ := hf.exists_orders hvalid
  obtain ⟨w, pairs, hw, hpairs, hindices, hfilled⟩ :=
    hf.exists_filled_of_solveBy hvalid hσ hv mode hl
  have hperm := mode.indices_perm σ
  rw [← hindices] at hperm
  have hnodup := hperm.nodup_iff.2 List.nodup_range
  refine ⟨w, pairs, _, hw, hpairs, hfilled.entries_eq, hperm, List.filter_sublist, fun e he => ?_⟩
  have hmem : e ∈ pairs.filter (fun e => f.config.zeroTolerance < Scalar.magnitude e.2) ↔
      f.config.zeroTolerance < Scalar.magnitude e.2 := by
    rw [List.mem_filter, decide_eq_true_iff, and_iff_right he]
  refine ⟨hmem, ?_⟩
  have hlisted : e.1 ∈ w.indices ↔ f.config.zeroTolerance < Scalar.magnitude e.2 := by
    rw [hfilled.indices_eq, ← hmem, List.mem_map]
    constructor
    · rintro ⟨e', he', hfst⟩
      rwa [← List.inj_on_of_nodup_map hnodup (List.mem_filter.1 he').1 he hfst]
    · exact fun he => ⟨e, he, rfl⟩
  rw [hlisted]
  exact Scalar.not_lt_iff htol

/-- A right-hand side whose solution for the transposed basis is infinite in one row, and no number
in the others. -/
def overflowing : IndexedVector Float := ⟨#[1, 1 / 0, 3, 0], [2, 1, 0], .packed⟩

theorem listed_iff_of_solveBy_overflowing :
    ∃ (f : Factorization Float) (w : IndexedVector Float) (pairs entries : List (Nat × Float)),
      initial.run exchanged = .ok f ∧ f.solveBy .transposed overflowing = .ok w ∧
      f.computed .transposed overflowing = .ok pairs ∧ w.entries = .ok entries ∧
      w.indices = [1] ∧ (pairs.map Prod.fst).Perm (List.range f.rows) ∧ ∀ e ∈ pairs,
        (e ∈ entries ↔ f.config.zeroTolerance < Scalar.magnitude e.2) ∧
        (e.1 ≠ 1 ↔ Scalar.magnitude e.2 ≤ f.config.zeroTolerance ∨
          ¬ Scalar.IsNumber (Scalar.magnitude e.2)) := by
  have hrun : Except.isOk (do
      let f ← initial.run exchanged
      if ¬ (f.status = .valid ∧ f.rows = 3) then throw .outOfRange
      let w ← f.solveBy .transposed overflowing
      if w.indices ≠ [1] then throw .outOfRange
      return f : Except Fault (Factorization Float)) = true := by
    decide +kernel
  obtain ⟨_, hrun⟩ := exists_eq_ok_of_isOk hrun
  simp only [bind_eq_ok_iff, guard_eq_ok_iff, pure_eq_ok_iff, not_not] at hrun
  obtain ⟨f, hf, ⟨hvalid, hrows⟩, w, hw, hindices, rfl⟩ := hrun
  have hpacked : IndexedVector.ofPacked 4 [2, 1, 0] [1, 1 / 0, 3] = .ok overflowing := rfl
  have haccepts : f.Accepts overflowing := ⟨.ofPacked hpacked,
    by simp [hrows, overflowing, IndexedVector.capacity], by simp [hrows, overflowing]⟩
  obtain ⟨w', pairs, entries, hw', hpairs, hentries, hperm, -, hlisted⟩ :=
    listed_iff_of_solveBy .initial (reaches_of_run hf) hvalid haccepts .transposed (by simp)
  cases hw.symm.trans hw'
  simp only [hindices, List.mem_singleton] at hlisted
  exact ⟨f, w, pairs, entries, hf, hw, hpairs, hentries, hindices, hperm, hlisted⟩

/-- A basis of one row. -/
def unit : List (Operation Float) := [.setChainCapacity 1, .load ![![1]], .factor]

/-- A right-hand side that is no number. -/
def indefinite : IndexedVector Float := ⟨#[0 / 0], [0], .scattered⟩

theorem made_indefinite : indefinite.Made := by
  have hallocate : IndexedVector.allocate 1 = .ok (.empty 1 : IndexedVector Float) := rfl
  have hinsert : (IndexedVector.empty 1).insert 0 (0 / 0) = .ok indefinite := rfl
  exact .insert (.allocate hallocate) hinsert

/-- A value computed that is not at or below the tolerance can be dropped all the same: a NaN, in
every way to solve. -/
theorem exists_dropped_of_nan : ∃ f : Factorization Float,
    initial.run unit = .ok f ∧ f.status = .valid ∧ f.Accepts indefinite ∧
      ∀ mode, ∃ w pairs, f.solveBy mode indefinite = .ok w ∧ w.indices = [] ∧
        f.computed mode indefinite = .ok pairs ∧ pairs.map Prod.fst = [0] ∧
        ∀ e ∈ pairs, ¬ Scalar.magnitude e.2 ≤ f.config.zeroTolerance := by
  have hrun (mode : Mode) : Except.isOk (do
      let f ← initial.run unit
      if ¬ (f.status = .valid ∧ f.rows = 1) then throw .outOfRange
      let w ← f.solveBy mode indefinite
      if w.indices ≠ [] then throw .outOfRange
      let pairs ← f.computed mode indefinite
      if ¬ (pairs.map Prod.fst = [0] ∧
          ∀ e ∈ pairs, ¬ Scalar.magnitude e.2 ≤ f.config.zeroTolerance) then throw .outOfRange
      return f : Except Fault (Factorization Float)) = true := by
    cases mode <;> decide +kernel
  have hsteps (mode : Mode) := exists_eq_ok_of_isOk (hrun mode)
  simp only [bind_eq_ok_iff, guard_eq_ok_iff, pure_eq_ok_iff, not_not] at hsteps
  obtain ⟨_, f, hf, ⟨hvalid, hrows⟩, -⟩ := hsteps .forward
  refine ⟨f, hf, hvalid, ⟨made_indefinite, by simp [hrows, indefinite, IndexedVector.capacity],
    by simp [hrows, indefinite]⟩, fun mode => ?_⟩
  obtain ⟨_, f', hf', -, w, hw, hindices, pairs, hpairs, ⟨hfst, hnan⟩, -⟩ := hsteps mode
  cases hf.symm.trans hf'
  exact ⟨w, pairs, hw, hindices, hpairs, hfst, hnan⟩

end BasisLU.Factorization
