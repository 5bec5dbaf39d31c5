import Mathlib.Data.Fin.VecNotation
import BasisLU.Proofs.Factorization.Reachable
import BasisLU.Proofs.Factorization.Staged
import BasisLU.Proofs.Lawful

/-!
# The invariant of every run

A factorization starts without a basis, with parameters in their ranges (`New`). Every call from
there on keeps it sound, its parameters in their ranges, and what is staged expandable (`Invariant`,
`invariant_of_reaches`). Most calls touch neither the parameters nor what is staged (`Keeps`).

`Consistent` says what that comes to for the parts of a factorization that can be seen: its sizes,
the row order as far as the basis goes, the positions replaced, and the counters
(`consistent_of_reaches`).
-/

namespace BasisLU.Factorization

variable {α : Type} [Scalar α] {f g : Factorization α}

/-- A factorization that nothing was done with. -/
inductive New : Factorization α → Prop where
  | initial : New initial
  | make {config : Config α} {f : Factorization α} : make config = .ok f → New f

theorem New.of_check {config : Config α} (h : config.check = .ok ()) : (ofConfig config).New := by
  have hmake : Factorization.make config = .ok (ofConfig config) := by
    rw [Factorization.make, h]
    rfl
  exact .make hmake

theorem New.exists_config [LawfulScalar α] (h : f.New) :
    ∃ config : Config α, config.check = .ok () ∧ f = ofConfig config := by
  cases h with
  | initial => exact ⟨Config.initial, Config.check_initial, rfl⟩
  | @make config _ h =>
    simp only [Factorization.make, bind_eq_ok_iff, pure_eq_ok_iff] at h
    obtain ⟨_, hcheck, rfl⟩ := h
    exact ⟨config, hcheck, rfl⟩

/-! ## What a call keeps -/

/-- Sound, with parameters in their ranges, and with staged columns that can be expanded. -/
structure Invariant (f : Factorization α) : Prop extends Sound f where
  check : f.config.check = .ok ()
  expandable : f.staged.Expandable f.block.size

/-- The parameters and what is staged are the same, and no room was given up. -/
structure Keeps (f g : Factorization α) : Prop where
  config_eq : g.config = f.config
  staged_eq : g.staged = f.staged
  size_le : f.block.size ≤ g.block.size

omit [Scalar α] in
theorem keeps_reshape (f : Factorization α) (rows columns : Nat) :
    f.Keeps (f.reshape rows columns) := by
  unfold reshape
  split <;> exact ⟨rfl, rfl, le_rfl⟩

theorem keeps_grow (f : Factorization α) (space : Nat) : f.Keeps (f.grow space) :=
  ⟨rfl, rfl, by simp [grow]⟩

omit [Scalar α] in
theorem keeps_withBlock {block : Array α} (hb : block.size = f.block.size) :
    f.Keeps { f with block := block } := ⟨rfl, rfl, hb.ge⟩

omit [Scalar α] in
theorem Keeps.trans {h : Factorization α} (hfg : f.Keeps g) (hgh : g.Keeps h) : f.Keeps h :=
  ⟨hgh.config_eq.trans hfg.config_eq, hgh.staged_eq.trans hfg.staged_eq,
    hfg.size_le.trans hgh.size_le⟩

theorem keeps_of_resize {rows columns : Nat} (hg : f.resize rows columns = .ok g) : f.Keeps g := by
  obtain ⟨-, space, -, rfl⟩ := resize_eq_ok_iff.1 hg
  exact (keeps_reshape f rows columns).trans (keeps_grow _ space)

theorem keeps_of_load {rows columns : Nat} {a : Fin rows → Fin columns → α}
    (hg : f.load a = .ok g) : f.Keeps g := by
  obtain ⟨_, sized, block, hsized, hb, rfl⟩ := load_eq_ok_iff.1 hg
  exact (keeps_of_resize hsized).trans (keeps_withBlock (Block.size_setSquare hb))

omit [Scalar α] in
theorem LaidOut.keeps_of_loadColumn (h : f.LaidOut) {k : Nat} {values : Array α}
    (hg : f.loadColumn k values = .ok g) : f.Keeps g := by
  obtain ⟨-, _, block, hb, rfl⟩ := h.loadColumn_eq_ok_iff.1 hg
  exact keeps_withBlock (Block.size_setColumn hb)

theorem LaidOut.keeps_of_loadSlack (h : f.LaidOut) {k row : Nat}
    (hg : f.loadSlack k row = .ok g) : f.Keeps g := by
  obtain ⟨-, -, block, hb, rfl⟩ := h.loadSlack_eq_ok_iff.1 hg
  exact keeps_withBlock (Block.size_setColumn hb)

omit [Scalar α] in
theorem LaidOut.keeps_of_writeColumn (h : f.LaidOut) {k : Nat} {writes : List (Nat × α)}
    (hg : f.writeColumn k writes = .ok g) : f.Keeps g := by
  obtain ⟨-, _, -, _, -, block, hb, rfl⟩ := h.writeColumn_eq_ok_iff.1 hg
  exact keeps_withBlock (Block.size_setColumn hb)

theorem LaidOut.keeps_of_factor (h : f.LaidOut) {refusal : Option Refusal}
    (hg : f.factor = .ok (g, refusal)) : f.Keeps g := by
  obtain ⟨columns, -, hi, -⟩ := h.factor_eq_ok_iff.1 hg
  obtain ⟨block, order, hb, -, rfl⟩ := install_eq_ok_iff.1 hi
  exact ⟨rfl, rfl, (Block.size_setSquare hb).ge⟩

theorem LaidOut.keeps_of_replace (h : f.LaidOut) {d : IndexedVector α} {slot : Nat} {pivot : α}
    (hg : f.replace d slot pivot = .ok g) : f.Keeps g := by
  obtain ⟨-, -, -, _, update, -, -, happend⟩ := replace_eq_ok_iff.1 hg
  obtain ⟨block, hb, -, rfl⟩ := h.append_eq_ok_iff.1 happend
  exact ⟨rfl, rfl, (Block.size_setColumn hb).ge⟩

theorem Invariant.of_keeps (h : f.Invariant) (hg : g.Sound) (hk : f.Keeps g) : g.Invariant where
  toSound := hg
  check := hk.config_eq ▸ h.check
  expandable := hk.staged_eq ▸ h.expandable.mono hk.size_le

/-! ## Runs -/

theorem Invariant.setChainCapacity (h : f.Invariant) {capacity : Nat}
    (hg : f.setChainCapacity capacity = .ok g) : g.Invariant := by
  have hsound := h.toSound.setChainCapacity hg
  obtain ⟨space, -, rfl⟩ := setChainCapacity_eq_ok_iff.1 hg
  exact ⟨hsound, Config.check_eq_ok_iff.2 (Config.check_eq_ok_iff.1 h.check),
    h.expandable.mono (keeps_grow _ space).size_le⟩

theorem Invariant.setZeroTolerance (h : f.Invariant) {value : α}
    (hg : f.setZeroTolerance value = .ok g) : g.Invariant := by
  have hsound := h.toSound.setZeroTolerance hg
  obtain ⟨-, hpivot, hslack⟩ := Config.check_eq_ok_iff.1 h.check
  obtain ⟨hvalue, rfl⟩ := setZeroTolerance_eq_ok_iff.1 hg
  exact ⟨hsound, Config.check_eq_ok_iff.2 ⟨hvalue, hpivot, hslack⟩, h.expandable⟩

theorem Invariant.setPivotTolerance (h : f.Invariant) {value : α}
    (hg : f.setPivotTolerance value = .ok g) : g.Invariant := by
  have hsound := h.toSound.setPivotTolerance hg
  obtain ⟨hzero, -, hslack⟩ := Config.check_eq_ok_iff.1 h.check
  obtain ⟨hvalue, rfl⟩ := setPivotTolerance_eq_ok_iff.1 hg
  exact ⟨hsound, Config.check_eq_ok_iff.2 ⟨hzero, hvalue, hslack⟩, h.expandable⟩

theorem Invariant.setSlack [LawfulScalar α] (h : f.Invariant) (value : α) :
    (f.setSlack value).Invariant := by
  obtain ⟨hzero, hpivot, -⟩ := Config.check_eq_ok_iff.1 h.check
  exact ⟨h.toSound.setSlack value,
    Config.check_eq_ok_iff.2 ⟨hzero, hpivot, Config.isSlack_slackSign value⟩, h.expandable⟩

theorem Invariant.stage (h : f.Invariant) {starts rows : Array Nat} {values : Array α}
    (hg : f.stage starts rows values = .ok g) : g.Invariant := by
  have hexpandable := expandable_of_stage h.toLaidOut hg
  have hsound := h.toSound.stage hg
  obtain ⟨-, -, -, -, -, rfl⟩ := stage_eq_ok_iff.1 hg
  exact ⟨hsound, h.check, hexpandable⟩

theorem Invariant.expand (h : f.Invariant) (hg : f.expand = .ok g) : g.Invariant := by
  have hsound := h.toSound.expand hg
  obtain ⟨-, block, -, rfl⟩ := h.expand_eq_ok_iff.1 hg
  exact ⟨hsound, h.check, expandable_empty _⟩

theorem Invariant.perform [LawfulScalar α] (h : f.Invariant) {operation : Operation α}
    {reply : Reply α} (hr : operation.perform f = .ok reply) : reply.factorization.Invariant := by
  have hsound := h.toSound.perform hr
  cases operation with
  | resize rows columns =>
    refine of_settle h (fun hg => ?_) hr
    have hg := liftRefusal_eq_ok_iff.1 hg
    exact h.of_keeps (h.toSound.resize hg) (keeps_of_resize hg)
  | setChainCapacity capacity =>
    exact of_settle h (fun hg => h.setChainCapacity (liftRefusal_eq_ok_iff.1 hg)) hr
  | setZeroTolerance value =>
    exact of_settle h (fun hg => h.setZeroTolerance (liftRefusal_eq_ok_iff.1 hg)) hr
  | setPivotTolerance value =>
    exact of_settle h (fun hg => h.setPivotTolerance (liftRefusal_eq_ok_iff.1 hg)) hr
  | setSlack value =>
    cases hr
    exact h.setSlack value
  | load a => exact of_settle h (fun hg => h.of_keeps (h.toSound.load hg) (keeps_of_load hg)) hr
  | loadColumn column values =>
    exact of_settle h
      (fun hg => h.of_keeps (h.toSound.loadColumn hg) (h.keeps_of_loadColumn hg)) hr
  | loadSlack column row =>
    exact of_settle h (fun hg => h.of_keeps (h.toSound.loadSlack hg) (h.keeps_of_loadSlack hg)) hr
  | writeColumn column writes =>
    refine of_settle h (fun hg => ?_) hr
    have hg := liftFault_eq_ok_iff.1 hg
    exact h.of_keeps (h.toSound.writeColumn hg) (h.keeps_of_writeColumn hg)
  | stage starts rowIndices values => exact of_settle h h.stage hr
  | expand => exact of_settle h h.expand hr
  | factor =>
    simp only [Operation.perform, bind_eq_ok_iff, pure_eq_ok_iff] at hr
    obtain ⟨⟨g, refusal⟩, hg, rfl⟩ := hr
    exact h.of_keeps hsound (h.keeps_of_factor hg)
  | replace entering slot pivot =>
    simp only [Operation.perform, bind_eq_ok_iff, pure_eq_ok_iff] at hr
    obtain ⟨settled, hs, rfl⟩ := hr
    have hsettled : settled.factorization.Invariant :=
      of_settle h (fun hg => h.of_keeps (h.toSound.replace hg) (h.keeps_of_replace hg)) hs
    exact hsettled
  | ftran v => rwa [h.perform_eq_of_isSolve (.ftran v) trivial hr]
  | ftranInPlace v => rwa [h.perform_eq_of_isSolve (.ftranInPlace v) trivial hr]
  | ftranPair v w inPlace => rwa [h.perform_eq_of_isSolve (.ftranPair v w inPlace) trivial hr]
  | btran v => rwa [h.perform_eq_of_isSolve (.btran v) trivial hr]

theorem invariant_of_reaches [LawfulScalar α] {start : Factorization α} (hnew : start.New)
    (h : Reaches start f) : f.Invariant := by
  induction h with
  | refl =>
    obtain ⟨config, hcheck, rfl⟩ := hnew.exists_config
    exact ⟨sound_ofConfig config, hcheck, expandable_empty _⟩
  | tail _ hs ih =>
    obtain ⟨operation, reply, hr, rfl⟩ := hs
    exact ih.perform hr

/-! ## What can be seen of it -/

/-- The sizes, the row order, the positions replaced and the counters fit each other and the status,
and the parameters are in their ranges. -/
structure Consistent (f : Factorization α) : Prop where
  rows_eq_columns : f.rows = f.columns
  columns_le : f.columns ≤ f.mostRows
  size_scratch : f.scratch.size = f.mostRows
  scratch_eq_zero : ∀ x ∈ f.scratch, x = 0
  size_positionOf : f.order.positionOf.size = f.mostRows
  size_rowAt : f.order.rowAt.size = f.mostRows
  updates_le : f.updates ≤ f.config.chainCapacity
  room : f.rows * (f.rows + max f.config.chainCapacity ((f.rows + 1) / 2)) ≤ f.block.size
  replaced_room : 0 < f.rows → f.config.chainCapacity ≤ f.replaced.size
  size_chainPositions : f.chainPositions.size = f.updates
  chainPositions_lt : ∀ p ∈ f.chainPositions, p < f.rows
  order : f.status = .valid ∨ f.status = .singular →
    f.positions.size = f.rows ∧ f.rowsInOrder.size = f.rows ∧
    (∀ r < f.rows, ∃ p < f.rows, f.positions[r]? = some p ∧ f.rowsInOrder[p]? = some r) ∧
    ∀ p < f.rows, ∃ r < f.rows, f.rowsInOrder[p]? = some r ∧ f.positions[r]? = some p
  valid : f.status = .valid → f.goodColumns = f.columns
  singular : f.status = .singular → f.goodColumns < f.columns
  unfactored : f.status = .unfactored → f.goodColumns = 0 ∧ f.updates = 0
  check : f.config.check = .ok ()

theorem Sound.size_positions (h : f.Sound) : f.positions.size = f.rows := by
  have := h.rows_le
  rw [positions, Array.take, Array.size_extract, h.size_positionOf]
  omega

/-- The positions replaced are those of the updates, oldest first. -/
theorem Coherent.getElem?_chainPositions (h : f.Coherent) {slot : Nat} (hslot : slot < f.updates) :
    ∃ p : Fin f.rows, f.chainPositions[slot]? = some p.val := by
  obtain ⟨p, hp⟩ := h.replaced_lt slot hslot
  exact ⟨p, by rw [chainPositions, getElem?_take, if_pos hslot, hp]⟩

theorem Coherent.size_chainPositions (h : f.Coherent) : f.chainPositions.size = f.updates := by
  have hle : f.chainPositions.size ≤ f.updates := by
    rw [chainPositions, Array.take, Array.size_extract]
    omega
  refine le_antisymm hle (Nat.le_of_not_lt fun hlt => ?_)
  obtain ⟨p, hp⟩ := h.getElem?_chainPositions hlt
  exact absurd (Array.getElem?_eq_some_iff.1 hp).1 (Nat.lt_irrefl _)

theorem Invariant.consistent (h : f.Invariant) : f.Consistent where
  rows_eq_columns := h.columns_eq.symm
  columns_le := h.columns_eq ▸ h.rows_le
  size_scratch := by rw [h.scratch, Array.size_replicate]
  scratch_eq_zero x hx := by
    rw [h.scratch] at hx
    exact (Array.mem_replicate.1 hx).2
  size_positionOf := h.size_positionOf
  size_rowAt := h.size_rowAt
  updates_le := h.updates_le
  room := h.room
  replaced_room := h.replaced_room
  size_chainPositions := h.size_chainPositions
  chainPositions_lt p hp := by
    obtain ⟨slot, hslot⟩ := Array.mem_iff_getElem?.1 hp
    have hlt : slot < f.updates :=
      h.size_chainPositions ▸ (Array.getElem?_eq_some_iff.1 hslot).1
    obtain ⟨q, hq⟩ := h.getElem?_chainPositions hlt
    cases hslot.symm.trans hq
    exact q.isLt
  order hs := by
    obtain ⟨σ, hσ⟩ := h.orders (by rcases hs with hs | hs <;> simp [hs])
    refine ⟨h.size_positions, h.size_rowsInOrder, fun r hr => ?_, fun p hp => ?_⟩
    · refine ⟨σ ⟨r, hr⟩, (σ ⟨r, hr⟩).isLt, getElem?_positions rfl hσ ⟨r, hr⟩, ?_⟩
      rw [getElem?_rowsInOrder rfl hσ, σ.symm_apply_apply]
    · refine ⟨σ.symm ⟨p, hp⟩, (σ.symm ⟨p, hp⟩).isLt, getElem?_rowsInOrder rfl hσ ⟨p, hp⟩, ?_⟩
      rw [getElem?_positions rfl hσ, σ.apply_symm_apply]
  valid hs := (h.valid hs).trans h.columns_eq.symm
  singular hs := (h.singular hs).trans_eq h.columns_eq.symm
  unfactored := h.unfactored
  check := h.check

/-- After any calls the parts of a factorization fit each other. -/
theorem consistent_of_reaches [LawfulScalar α] {start : Factorization α} (hnew : start.New)
    (hreach : Reaches start f) : f.Consistent := (invariant_of_reaches hnew hreach).consistent

/-- A basis of three rows that is given up, with an update, for a singular one of two rows. -/
def shrinking : List (Operation Float) :=
  [.setChainCapacity 2, .load ![![0, 2, 1], ![4, 1, -1], ![2, 3, 5]], .factor,
    .replace ⟨#[3, 0.5, 0], [2, 0], .packed⟩ 1 2, .resize 2 2, .loadColumn 0 #[0 / 0, 1],
    .loadColumn 1 #[1, 1 / 0], .factor]

theorem consistent_of_reaches_shrunk : ∃ f : Factorization Float, initial.run shrinking = .ok f ∧
    f.status = .singular ∧ f.goodColumns = 1 ∧ f.rows = 2 ∧ f.mostRows = 3 ∧ f.Consistent := by
  have hrun : Except.isOk (do
      let f ← initial.run shrinking
      if f.status ≠ .singular ∨ f.goodColumns ≠ 1 ∨ f.rows ≠ 2 ∨ f.mostRows ≠ 3 then
        throw .outOfRange
      return f : Except Fault (Factorization Float)) = true := by
    decide +kernel
  obtain ⟨f, hrun⟩ := exists_eq_ok_of_isOk hrun
  simp only [bind_eq_ok_iff, guard_eq_ok_iff, pure_eq_ok_iff, not_or, not_not] at hrun
  obtain ⟨_, hf, ⟨hstatus, hgood, hrows, hmost⟩, rfl⟩ := hrun
  exact ⟨_, hf, hstatus, hgood, hrows, hmost, consistent_of_reaches .initial (reaches_of_run hf)⟩

end BasisLU.Factorization
