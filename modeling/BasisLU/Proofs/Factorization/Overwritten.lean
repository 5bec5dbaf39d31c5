import Mathlib.Data.Fin.VecNotation
import BasisLU.Proofs.Factorization.Invariant

/-!
# What the status tells of the columns

Loading does not look at the status. The status is valid exactly if the last factoring succeeded and
the basis has kept its rows since, whatever was written to its columns meanwhile. A column is what
this factoring left as long as no call has written to it (`status_eq_valid_iff_of_run`).

A call other than factoring is refused, or `Spares` all but a few things
(`Sound.refused_or_spares`). From that follows what a run of such calls `Retains` if the factors
outlast it (`Sound.retains_of_outlasts`).
-/

namespace BasisLU

variable {α : Type}

namespace Operation

/-- Whether the call loads, stages or expands something into column `k` of a basis of `n` rows. -/
def Writes (n k : Nat) : Operation α → Prop
  | .load _ | .expand => True
  | .loadColumn column _ | .loadSlack column _ | .writeColumn column _ => column = k
  | .stage _ _ values => k * n < values.size
  | _ => False

/-- Whether the call may change what is staged. -/
def Restages : Operation α → Prop
  | .stage _ _ _ | .expand => True
  | _ => False

/-- The rows that a basis of `n` rows has after the call. -/
def rowsAfter (n : Nat) : Operation α → Nat
  | .resize rows _ => rows
  | @load _ rows _ _ => rows
  | _ => n

end Operation

/-- A column of two blocks that hold the same in its slots. -/
theorem Block.column_congr {n k : Nat} {block block' : Array α} (h : k * n + n ≤ block.size)
    (hsize : block.size ≤ block'.size)
    (hslots : ∀ i < n, block'[k * n + i]? = block[k * n + i]?) :
    column n k block' = column n k block := by
  obtain ⟨values, hvalues⟩ := column_of_le h
  rw [hvalues]
  exact column_eq_ok (h.trans hsize) fun i hi =>
    (hslots i hi).trans (getElem?_of_column hvalues hi)

namespace Factorization

variable [Scalar α] {f g : Factorization α} {operation : Operation α}

/-! ## One call -/

/-- What a call other than factoring leaves as it was, unless it is refused: the status of a basis
that keeps its rows, what is staged, and the columns that it does not write to. -/
structure Spares (operation : Operation α) (f g : Factorization α) : Prop where
  rows_eq : g.rows = operation.rowsAfter f.rows
  status_eq : g.status = if g.rows = f.rows then f.status else .unfactored
  staged_eq : ¬ operation.Restages → g.staged = f.staged
  column_eq : g.rows = f.rows → ∀ k < f.rows, ¬ operation.Writes f.rows k →
    Block.column f.rows k g.block = Block.column f.rows k f.block

omit [Scalar α] in
/-- Nothing changes but the parameters. -/
theorem spares_withConfig (hrows : operation.rowsAfter f.rows = f.rows) (config : Config α) :
    Spares operation f { f with config := config } :=
  ⟨hrows.symm, (if_pos rfl).symm, fun _ => rfl, fun _ _ _ _ => rfl⟩

omit [Scalar α] in
/-- Nothing changes but one column, which the call writes if it is a column of the basis. -/
theorem spares_withBlock (operation : Operation α) (hrows : operation.rowsAfter f.rows = f.rows)
    {k : Nat} (hk : k < f.rows → operation.Writes f.rows k) {values : Vector α f.rows}
    {block : Array α} (hb : Block.setColumn k values f.block = .ok block) :
    Spares operation f { f with block := block } where
  rows_eq := hrows.symm
  status_eq := (if_pos rfl).symm
  staged_eq _ := rfl
  column_eq _ _ hj hwrites :=
    Block.column_setColumn_of_ne hb fun hjk => hwrites (hjk ▸ hk (hjk ▸ hj))

theorem Sound.column_grow (h : f.Sound) {k : Nat} (hk : k < f.rows + f.config.chainCapacity)
    (space : Nat) : Block.column f.rows k (f.grow space).block = Block.column f.rows k f.block :=
  have hcolumn := h.column_le hk
  Block.column_congr hcolumn (keeps_grow f space).size_le fun _ hi =>
    Block.getElem?_growTo (Block.slot_lt hcolumn hi) _ _

/-- Factors of a basis of other rows are given up, and nothing else. -/
theorem Sound.spares_of_resize (h : f.Sound) {rows columns : Nat}
    (hg : f.resize rows columns = .ok g) : Spares (.resize rows columns) f g := by
  have hstaged := (keeps_of_resize hg).staged_eq
  have hcolumns := h.columns_eq
  obtain ⟨rfl, space, -, rfl⟩ := resize_eq_ok_iff.1 hg
  refine ⟨rows_reshape f rows rows, ?_, fun _ => hstaged, fun _ k hk _ => ?_⟩
  · show (f.reshape rows rows).status = if (f.reshape rows rows).rows = f.rows then _ else _
    rw [rows_reshape, reshape]
    by_cases hrows : rows = f.rows
    · rw [if_pos hrows, if_pos ⟨hrows, hrows.trans hcolumns.symm⟩]
    · rw [if_neg hrows, if_neg fun hsame => hrows hsame.1]
  · rw [grow, block_reshape]
    exact h.column_grow (by omega) space

theorem Sound.spares_of_setChainCapacity (h : f.Sound) {capacity : Nat}
    (hg : f.setChainCapacity capacity = .ok g) : Spares (.setChainCapacity capacity) f g := by
  obtain ⟨space, -, rfl⟩ := setChainCapacity_eq_ok_iff.1 hg
  exact ⟨rfl, (if_pos rfl).symm, fun _ => rfl, fun _ k hk _ => h.column_grow (by omega) space⟩

theorem Sound.spares_of_load (h : f.Sound) {rows columns : Nat} {a : Fin rows → Fin columns → α}
    (hg : f.load a = .ok g) : Spares (.load a) f g := by
  have hstaged := (keeps_of_load hg).staged_eq
  obtain ⟨_, sized, block, hsized, -, rfl⟩ := load_eq_ok_iff.1 hg
  have hspares := h.spares_of_resize hsized
  exact ⟨hspares.rows_eq, hspares.status_eq, fun _ => hstaged,
    fun _ _ _ hwrites => absurd trivial hwrites⟩

omit [Scalar α] in
theorem LaidOut.spares_of_writeColumn (h : f.LaidOut) {k : Nat} {writes : List (Nat × α)}
    (hg : f.writeColumn k writes = .ok g) : Spares (.writeColumn k writes) f g := by
  obtain ⟨-, _, -, _, -, block, hb, rfl⟩ := h.writeColumn_eq_ok_iff.1 hg
  exact spares_withBlock (.writeColumn k writes) rfl (fun _ => rfl) hb

/-- Staged values reach the columns that start before the last of them. -/
theorem Sound.spares_of_stage (h : f.Sound) {starts rows : Array Nat} {values : Array α}
    (hg : f.stage starts rows values = .ok g) : Spares (.stage starts rows values) f g := by
  obtain ⟨-, -, -, -, -, rfl⟩ := stage_eq_ok_iff.1 hg
  refine ⟨rfl, (if_pos rfl).symm, fun hstages => absurd trivial hstages, fun _ k hk hwrites => ?_⟩
  have hsize : values.size ≤ k * f.rows := Nat.le_of_not_lt hwrites
  refine Block.column_congr (h.column_le (by omega)) Array.size_mapIdx.ge fun i _ => ?_
  rw [Array.getElem?_mapIdx, Option.map_congr fun x _ => dif_neg (by omega), Option.map_id']

theorem Sound.spares_of_expand (h : f.Sound) (hg : f.expand = .ok g) : Spares .expand f g := by
  obtain ⟨-, block, -, rfl⟩ := h.expand_eq_ok_iff.1 hg
  exact ⟨rfl, (if_pos rfl).symm, fun hstages => absurd trivial hstages,
    fun _ _ _ hwrites => absurd trivial hwrites⟩

/-- An update is written after the columns of the basis. -/
theorem LaidOut.spares_of_replace (h : f.LaidOut) {d : IndexedVector α} {slot : Nat} {pivot : α}
    (hg : f.replace d slot pivot = .ok g) : Spares (.replace d slot pivot) f g := by
  obtain ⟨-, -, -, _, update, -, -, happend⟩ := replace_eq_ok_iff.1 hg
  obtain ⟨block, hb, -, rfl⟩ := h.append_eq_ok_iff.1 happend
  exact ⟨rfl, (if_pos rfl).symm, fun _ => rfl, fun _ k hk _ =>
    Block.column_setColumn_of_ne hb (show k ≠ f.rows + f.updates by omega)⟩

/-- A solve changes nothing. -/
theorem Sound.refused_or_spares_of_isSolve (h : f.Sound) (operation : Operation α)
    (ho : operation.IsSolve) (hrows : operation.rowsAfter f.rows = f.rows) {reply : Reply α}
    (hr : operation.perform f = .ok reply) :
    (reply.refusal ≠ none ∧ reply.factorization = f) ∨
      (reply.refusal = none ∧ Spares operation f reply.factorization) := by
  rw [h.perform_eq_of_isSolve operation ho hr]
  by_cases hrefusal : reply.refusal = none
  · exact .inr ⟨hrefusal, spares_withConfig hrows f.config⟩
  · exact .inl ⟨hrefusal, rfl⟩

/-- A call other than factoring is refused with nothing changed, or spares what it should. -/
theorem Sound.refused_or_spares (h : f.Sound) (hne : operation ≠ .factor) {reply : Reply α}
    (hr : operation.perform f = .ok reply) :
    (reply.refusal ≠ none ∧ reply.factorization = f) ∨
      (reply.refusal = none ∧ Spares operation f reply.factorization) := by
  cases operation with
  | resize rows columns =>
    exact refused_or_of_settle (fun hg => h.spares_of_resize (liftRefusal_eq_ok_iff.1 hg)) hr
  | setChainCapacity capacity =>
    exact refused_or_of_settle
      (fun hg => h.spares_of_setChainCapacity (liftRefusal_eq_ok_iff.1 hg)) hr
  | setZeroTolerance value =>
    refine refused_or_of_settle (fun hg => ?_) hr
    obtain ⟨-, rfl⟩ := setZeroTolerance_eq_ok_iff.1 (liftRefusal_eq_ok_iff.1 hg)
    exact spares_withConfig rfl _
  | setPivotTolerance value =>
    refine refused_or_of_settle (fun hg => ?_) hr
    obtain ⟨-, rfl⟩ := setPivotTolerance_eq_ok_iff.1 (liftRefusal_eq_ok_iff.1 hg)
    exact spares_withConfig rfl _
  | setSlack value =>
    cases hr
    exact .inr ⟨rfl, spares_withConfig rfl _⟩
  | load a => exact refused_or_of_settle h.spares_of_load hr
  | loadColumn column values =>
    refine refused_or_of_settle (fun hg => ?_) hr
    obtain ⟨-, _, block, hb, rfl⟩ := h.loadColumn_eq_ok_iff.1 hg
    exact spares_withBlock (.loadColumn column values) rfl (fun _ => rfl) hb
  | loadSlack column row =>
    refine refused_or_of_settle (fun hg => ?_) hr
    obtain ⟨-, -, block, hb, rfl⟩ := h.loadSlack_eq_ok_iff.1 hg
    exact spares_withBlock (.loadSlack column row) rfl (fun _ => rfl) hb
  | writeColumn column writes =>
    exact refused_or_of_settle (fun hg => h.spares_of_writeColumn (liftFault_eq_ok_iff.1 hg)) hr
  | stage starts rowIndices values => exact refused_or_of_settle h.spares_of_stage hr
  | expand => exact refused_or_of_settle h.spares_of_expand hr
  | factor => exact absurd rfl hne
  | replace entering slot pivot =>
    simp only [Operation.perform, bind_eq_ok_iff, pure_eq_ok_iff] at hr
    obtain ⟨settled, hs, rfl⟩ := hr
    have hsettled := refused_or_of_settle h.spares_of_replace hs
    exact hsettled
  | ftran v => exact h.refused_or_spares_of_isSolve (.ftran v) trivial rfl hr
  | ftranInPlace v => exact h.refused_or_spares_of_isSolve (.ftranInPlace v) trivial rfl hr
  | ftranPair v w inPlace =>
    exact h.refused_or_spares_of_isSolve (.ftranPair v w inPlace) trivial rfl hr
  | btran v => exact h.refused_or_spares_of_isSolve (.btran v) trivial rfl hr

/-- A call that changes the rows leaves no factors, and no other call than factoring makes any. -/
theorem Sound.valid_perform_iff (h : f.Sound) (hne : operation ≠ .factor) {reply : Reply α}
    (hr : operation.perform f = .ok reply) : reply.factorization.status = .valid ↔
      reply.factorization.rows = f.rows ∧ f.status = .valid := by
  rcases h.refused_or_spares hne hr with ⟨-, hsame⟩ | ⟨-, hspares⟩
  · rw [hsame, eq_self, true_and]
  · rw [hspares.status_eq]
    split <;> simp [*]

/-! ## Runs -/

theorem run_cons_eq_ok_iff {operations : List (Operation α)} :
    f.run (operation :: operations) = .ok g ↔
      ∃ reply, operation.perform f = .ok reply ∧ reply.factorization.run operations = .ok g := by
  simp only [run, List.foldlM_cons, bind_eq_ok_iff, pure_eq_ok_iff]
  constructor
  · intro h
    obtain ⟨_, ⟨reply, hr, rfl⟩, h⟩ := h
    exact ⟨reply, hr, h⟩
  · intro h
    obtain ⟨reply, hr, h⟩ := h
    exact ⟨_, ⟨reply, hr, rfl⟩, h⟩

theorem run_append_eq_ok_iff {first second : List (Operation α)} :
    f.run (first ++ second) = .ok g ↔ ∃ h, f.run first = .ok h ∧ h.run second = .ok g := by
  simp only [run, List.foldlM_append, bind_eq_ok_iff]

/-- None of the calls is a factoring, none faults, and the basis has the same rows after each. -/
def Outlasts : Factorization α → List (Operation α) → Prop
  | _, [] => True
  | f, operation :: operations => operation ≠ .factor ∧ ∃ reply, operation.perform f = .ok reply ∧
    reply.factorization.rows = f.rows ∧ reply.factorization.Outlasts operations

/-- One of the calls writes to column `k`, and is not refused. -/
def Overwrites (k : Nat) : Factorization α → List (Operation α) → Prop
  | _, [] => False
  | f, operation :: operations => ∃ reply, operation.perform f = .ok reply ∧
    (reply.refusal = none ∧ operation.Writes f.rows k ∨
      reply.factorization.Overwrites k operations)

/-- The same rows and status, and the same columns but for those overwritten. -/
structure Retains (overwritten : Nat → Prop) (f g : Factorization α) : Prop where
  rows_eq : g.rows = f.rows
  status_eq : g.status = f.status
  column_eq : ∀ k < f.rows, ¬ overwritten k →
    Block.column f.rows k g.block = Block.column f.rows k f.block

theorem Sound.retains_of_perform (h : f.Sound) (hne : operation ≠ .factor) {reply : Reply α}
    (hr : operation.perform f = .ok reply) (hrows : reply.factorization.rows = f.rows) :
    Retains (fun k => reply.refusal = none ∧ operation.Writes f.rows k) f reply.factorization := by
  rcases h.refused_or_spares hne hr with ⟨-, hsame⟩ | ⟨hrefusal, hspares⟩
  · rw [hsame]
    exact ⟨rfl, rfl, fun _ _ _ => rfl⟩
  · exact ⟨hrows, hspares.status_eq.trans (if_pos hrows), fun k hk hwrites =>
      hspares.column_eq hrows k hk fun hw => hwrites ⟨hrefusal, hw⟩⟩

theorem Sound.retains_of_outlasts :
    ∀ {operations : List (Operation α)} {f : Factorization α}, f.Sound → f.Outlasts operations →
      f.run operations = .ok g → Retains (f.Overwrites · operations) f g
  | [], f, _, _, hrun => by
    cases hrun
    exact ⟨rfl, rfl, fun _ _ _ => rfl⟩
  | operation :: operations, f, h, houtlasts, hrun => by
    obtain ⟨hne, reply, hr, hrows, hrest⟩ := houtlasts
    obtain ⟨reply', hr', hrun⟩ := run_cons_eq_ok_iff.1 hrun
    cases hr.symm.trans hr'
    have hcall := h.retains_of_perform hne hr hrows
    have hcalls := retains_of_outlasts (h.perform hr) hrest hrun
    refine ⟨hcalls.rows_eq.trans hrows, hcalls.status_eq.trans hcall.status_eq,
      fun k hk hwrites => ?_⟩
    have hlater := hcalls.column_eq k (hrows ▸ hk) fun hw => hwrites ⟨reply, hr, .inr hw⟩
    rw [hrows] at hlater
    exact hlater.trans (hcall.column_eq k hk fun hw => hwrites ⟨reply, hr, .inl hw⟩)

/-- The calls up to a factoring that succeeded, with the factors in `g`, and those after it. -/
structure LastFactored (start : Factorization α) (before after : List (Operation α))
    (g : Factorization α) : Prop where
  run_eq : start.run (before ++ [.factor]) = .ok g
  status_eq : g.status = .valid
  outlasts : g.Outlasts after

/-- Factors at the end of a run were there from the start, or some factoring left them. -/
theorem Sound.outlasts_or_lastFactored :
    ∀ {operations : List (Operation α)} {f : Factorization α}, f.Sound →
      f.run operations = .ok g → g.status = .valid →
      (f.status = .valid ∧ f.Outlasts operations) ∨
        ∃ before after h, operations = before ++ .factor :: after ∧ f.LastFactored before after h
  | [], f, _, hrun, hvalid => by
    cases hrun
    exact .inl ⟨hvalid, trivial⟩
  | operation :: operations, f, h, hrun, hvalid => by
    obtain ⟨reply, hr, hrun⟩ := run_cons_eq_ok_iff.1 hrun
    rcases outlasts_or_lastFactored (h.perform hr) hrun hvalid with
      ⟨hstatus, hrest⟩ | ⟨before, after, k, rfl, hlast⟩
    · by_cases hne : operation = .factor
      · subst hne
        refine .inr ⟨[], operations, reply.factorization, rfl, ?_, hstatus, hrest⟩
        exact run_cons_eq_ok_iff.2 ⟨reply, hr, rfl⟩
      · obtain ⟨hrows, hstatus⟩ := (h.valid_perform_iff hne hr).1 hstatus
        exact .inl ⟨hstatus, hne, reply, hr, hrows, hrest⟩
    · exact .inr ⟨operation :: before, after, k, rfl,
        run_cons_eq_ok_iff.2 ⟨reply, hr, hlast.run_eq⟩, hlast.status_eq, hlast.outlasts⟩

/-- After any calls the status is valid exactly if the last factoring succeeded and the basis has
kept its rows since. The columns are those that this factoring left, but for those written to since
then: a call that writes to them and keeps the rows leaves the status valid. -/
theorem status_eq_valid_iff_of_run [LawfulScalar α] {start : Factorization α} (hnew : start.New)
    {operations : List (Operation α)} (hrun : start.run operations = .ok f) :
    (f.status = .valid ↔ ∃ before after g, operations = before ++ .factor :: after ∧
      start.LastFactored before after g) ∧
    (∀ before after g, operations = before ++ .factor :: after →
      start.LastFactored before after g → f.rows = g.rows ∧ ∀ k < f.columns,
        ¬ g.Overwrites k after → Block.column f.rows k f.block = Block.column f.rows k g.block) ∧
    ∀ (operation : Operation α) (reply : Reply α), operation ≠ .factor → f.status = .valid →
      operation.perform f = .ok reply →
      (reply.factorization.status = .valid ↔ reply.factorization.rows = f.rows) := by
  have hstart := (invariant_of_reaches hnew .refl).toSound
  have hf := (invariant_of_reaches hnew (reaches_of_run hrun)).toSound
  have hretains (before after : List (Operation α)) (g : Factorization α)
      (hsplit : operations = before ++ .factor :: after)
      (hlast : start.LastFactored before after g) : Retains (g.Overwrites · after) g f := by
    rw [hsplit, ← List.singleton_append, ← List.append_assoc, run_append_eq_ok_iff] at hrun
    obtain ⟨g', hg', hrest⟩ := hrun
    cases hlast.run_eq.symm.trans hg'
    exact (invariant_of_reaches hnew (reaches_of_run hg')).retains_of_outlasts hlast.outlasts hrest
  refine ⟨⟨fun hvalid => ?_, fun hlast => ?_⟩, fun before after g hsplit hlast => ?_,
    fun operation reply hne hvalid hr => by rw [hf.valid_perform_iff hne hr, and_iff_left hvalid]⟩
  · refine (hstart.outlasts_or_lastFactored hrun hvalid).resolve_left fun hall => ?_
    obtain ⟨config, -, rfl⟩ := hnew.exists_config
    exact nomatch hall.1
  · obtain ⟨before, after, g, hsplit, hlast⟩ := hlast
    exact (hretains before after g hsplit hlast).status_eq.trans hlast.status_eq
  · have hkept := hretains before after g hsplit hlast
    refine ⟨hkept.rows_eq, fun k hk hwrites => ?_⟩
    rw [hkept.rows_eq]
    exact hkept.column_eq k (by rw [← hkept.rows_eq, ← hf.columns_eq]; exact hk) hwrites

/-- A basis of two columns, factored. -/
def twoColumns : List (Operation Float) :=
  [.setChainCapacity 1, .load ![![1, 0], ![0, 1]], .factor]

theorem status_eq_valid_iff_of_run_updated : ∃ f g : Factorization Float,
    initial.run twoColumns = .ok g ∧
      g.run [.replace ⟨#[1, 2], [0, 1], .packed⟩ 0 1, .loadColumn 1 #[3, 5]] = .ok f ∧
      f.status = .valid ∧ Block.column f.rows 0 f.block = Block.column f.rows 0 g.block := by
  have hrun : Except.isOk (do
      let g ← initial.run twoColumns
      let updated ← (Operation.replace ⟨#[1, 2], [0, 1], .packed⟩ 0 1).perform g
      let loaded ← (Operation.loadColumn 1 #[3, 5]).perform updated.factorization
      if ¬ (g.status = .valid ∧ updated.factorization.rows = g.rows ∧
        loaded.factorization.rows = updated.factorization.rows ∧ 0 < g.rows) then throw .outOfRange
      return (updated, loaded) : Except Fault (Reply Float × Reply Float)) = true := by
    decide +kernel
  obtain ⟨_, hrun⟩ := exists_eq_ok_of_isOk hrun
  simp only [bind_eq_ok_iff, guard_eq_ok_iff, pure_eq_ok_iff, not_not] at hrun
  obtain ⟨g, hg, updated, hupdated, loaded, hloaded, ⟨hvalid, hrows, hrows', hpos⟩, -⟩ := hrun
  have hrest : g.run [.replace ⟨#[1, 2], [0, 1], .packed⟩ 0 1, .loadColumn 1 #[3, 5]] =
      .ok loaded.factorization :=
    run_cons_eq_ok_iff.2 ⟨_, hupdated, run_cons_eq_ok_iff.2 ⟨_, hloaded, rfl⟩⟩
  have hlast : initial.LastFactored [.setChainCapacity 1, .load ![![1, 0], ![0, 1]]]
      [.replace ⟨#[1, 2], [0, 1], .packed⟩ 0 1, .loadColumn 1 #[3, 5]] g :=
    ⟨hg, hvalid, nofun, _, hupdated, hrows, nofun, _, hloaded, hrows', trivial⟩
  have hwrites : ¬ g.Overwrites 0
      [.replace ⟨#[1, 2], [0, 1], .packed⟩ 0 1, .loadColumn 1 #[3, 5]] := by
    intro h
    obtain ⟨_, -, ⟨-, h⟩ | ⟨_, -, ⟨-, h⟩ | h⟩⟩ := h
    · exact h
    · exact absurd h (show (1 : Nat) ≠ 0 by decide)
    · exact h
  have hall := run_append_eq_ok_iff.2 ⟨g, hg, hrest⟩
  have hsquare := (invariant_of_reaches .initial (reaches_of_run hall)).columns_eq
  obtain ⟨hiff, hcolumns, -⟩ := status_eq_valid_iff_of_run .initial hall
  obtain ⟨-, hcolumn⟩ := hcolumns _ _ g rfl hlast
  exact ⟨_, g, hg, hrest, hiff.2 ⟨_, _, g, rfl, hlast⟩, hcolumn 0 (by omega) hwrites⟩

/-- Another matrix loaded over the factors leaves the status valid, and is solved for as if it were
factors. -/
theorem exists_valid_of_overwritten : ∃ (f g h : Factorization Float) (v : IndexedVector Float),
    initial.run twoColumns = .ok f ∧ f.status = .valid ∧ f.columns = 2 ∧
      f.load ![![2, 0], ![0, 4]] = .ok g ∧ g.status = .valid ∧
      Block.column 2 0 f.block = .ok #v[1, 0] ∧ Block.column 2 0 g.block = .ok #v[2, 0] ∧
      g.ftran ⟨#[1, 0], [0], .packed⟩ = .ok (v, h) := by
  have hrun : Except.isOk (do
      let f ← liftM (initial.run twoColumns)
      let g ← f.load ![![2, 0], ![0, 4]]
      let (v, h) ← liftM (g.ftran ⟨#[1, 0], [0], .packed⟩)
      if ¬ (f.status = .valid ∧ f.columns = 2 ∧ g.status = .valid ∧
        Block.column 2 0 f.block = .ok #v[1, 0] ∧ Block.column 2 0 g.block = .ok #v[2, 0]) then
        throw (.fault .outOfRange)
      return (g, v, h) : Except Failure
        (Factorization Float × IndexedVector Float × Factorization Float)) = true := by
    decide +kernel
  obtain ⟨_, hrun⟩ := exists_eq_ok_of_isOk hrun
  simp only [bind_eq_ok_iff, guard_eq_ok_iff, liftFault_eq_ok_iff, not_not] at hrun
  obtain ⟨f, hf, g, hg, ⟨v, h⟩, hv, ⟨hvalid, hcolumns, hvalid', hfirst, hfirst'⟩, -⟩ := hrun
  exact ⟨f, g, h, v, hf, hvalid, hcolumns, hg, hvalid', hfirst, hfirst', hv⟩

end Factorization

end BasisLU
