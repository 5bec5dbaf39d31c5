import BasisLU.Proofs.Ordered
import BasisLU.Proofs.Factorization.Atomic
import BasisLU.Proofs.Factorization.Expanded
import BasisLU.Proofs.Factorization.Retried

/-!
# How updates get into the chain

A replacement is let through if the chain has room and the pivot is not at or below the zero
tolerance. As the scalars are ordered, that is a pivot above the tolerance, or one whose magnitude
is no number (`Admits`, `Invariant.exists_replace_iff`). It changes one column of the block, one
position and the count (`AppendsTo`).

Any other call gives the chain up or leaves it as it is (`ChainStep`, `Sound.chainStep`). So every
update of the chain is what some replacement of the run appended, with a pivot that was admitted
(`appended_of_run`).
-/

namespace BasisLU.Factorization

variable {α : Type} [Scalar α] {f g : Factorization α} {v : IndexedVector α} {row : Nat} {pivot : α}

/-! ## Pivots -/

/-- The magnitude of the pivot is above the zero tolerance, or no number. -/
def Admits (f : Factorization α) (pivot : α) : Prop :=
  f.config.zeroTolerance < Scalar.magnitude pivot ∨ ¬ Scalar.IsNumber (Scalar.magnitude pivot)

theorem Invariant.admits_iff [OrderedScalar α] (h : f.Invariant) :
    f.Admits pivot ↔ ¬ Scalar.magnitude pivot ≤ f.config.zeroTolerance := by
  obtain ⟨⟨hpos, -⟩, -⟩ := Config.check_eq_ok_iff.1 h.check
  exact (Scalar.not_le_iff (Scalar.isNumber_of_lt hpos).2).symm

theorem Invariant.exists_replace_iff [LawfulScalar α] [OrderedScalar α] (h : f.Invariant)
    (hvalid : f.status = .valid) (hv : v.Made) (hlt : ∀ i ∈ v.indices, i < f.rows)
    (hrow : row < f.rows) : (∃ g, f.replace v row pivot = .ok g) ↔
      f.updates < f.config.chainCapacity ∧ f.Admits pivot := by
  rw [h.admits_iff]
  constructor
  · rintro ⟨g, hg⟩
    obtain ⟨-, hroom, hpivot, -⟩ := replace_eq_ok_iff.1 hg
    exact ⟨hroom, hpivot⟩
  · rintro ⟨hroom, hpivot⟩
    exact h.exists_replace hvalid hv hlt hrow hroom hpivot

/-- A replacement that is not let through is refused, for the chain or for the pivot. -/
theorem Invariant.exists_refusal [LawfulScalar α] [OrderedScalar α] (h : f.Invariant)
    (hvalid : f.status = .valid) (hv : v.Made) (hlt : ∀ i ∈ v.indices, i < f.rows)
    (hrow : row < f.rows) (hnot : ¬ ∃ g, f.replace v row pivot = .ok g) :
    ∃ reason, (reason = .chainFull f.config.chainCapacity ∨
        reason = .weakPivot (Scalar.toFloat (Scalar.magnitude pivot))
          (Scalar.toFloat f.config.zeroTolerance)) ∧
      f.replace v row pivot = .error (.refused reason) := by
  rw [h.exists_replace_iff hvalid hv hlt hrow, h.admits_iff, not_and, not_not] at hnot
  by_cases hroom : f.updates < f.config.chainCapacity
  · exact ⟨_, .inr rfl, (replace_eq_refused_iff hvalid).2 (.inr ⟨hroom, hnot hroom, rfl⟩)⟩
  · exact ⟨_, .inl rfl, (replace_eq_refused_iff hvalid).2 (.inl ⟨Nat.le_of_not_lt hroom, rfl⟩)⟩

/-- A refused replacement has changed nothing, carried out write by write. -/
theorem Sound.execute_replace (h : f.Sound) {reason : Refusal}
    (hrefused : f.replace v row pivot = .error (.refused reason)) :
    (Operation.replace v row pivot).execute f = .error (.refused reason) f := by
  have hr : (Operation.replace v row pivot).perform f = .ok ⟨f, some reason, none, [], []⟩ := by
    rw [Operation.perform, hrefused]
    rfl
  exact Operation.execute_of_refused h hr rfl

/-! ## One replacement -/

/-- `g` has one more update than `f`, at position `p`, and is the same otherwise. -/
structure AppendsTo (f : Factorization α) (p : Nat) (g : Factorization α) : Prop where
  eq : g = { f with
    block := g.block
    replaced := f.replaced.setIfInBounds f.updates p
    updates := f.updates + 1 }
  size_eq : g.block.size = f.block.size
  block_eq : ∀ place, ¬((f.rows + f.updates) * f.rows ≤ place ∧
    place < (f.rows + f.updates) * f.rows + f.rows) → g.block[place]? = f.block[place]?

theorem LaidOut.appendsTo_of_replace (h : f.LaidOut) (hg : f.replace v row pivot = .ok g) :
    ∃ p, f.position row = .ok p ∧ f.AppendsTo p g := by
  obtain ⟨-, -, -, entries, update, -, hupdate, happend⟩ := replace_eq_ok_iff.1 hg
  simp only [newUpdate, bind_eq_ok_iff, pure_eq_ok_iff] at hupdate
  obtain ⟨placed, -, p, hp, rfl⟩ := hupdate
  obtain ⟨block, hblock, -, rfl⟩ := h.append_eq_ok_iff.1 happend
  exact ⟨p, hp, rfl, Block.size_setColumn hblock,
    fun _ hplace => Block.getElem?_setColumn_of_not hblock hplace⟩

/-- Update `slot` is the same. -/
structure SameUpdate (slot : Nat) (f g : Factorization α) : Prop where
  rows_eq : g.rows = f.rows
  replaced_eq : g.replaced[slot]? = f.replaced[slot]?
  column_eq : Block.column f.rows (f.rows + slot) g.block =
    Block.column f.rows (f.rows + slot) f.block

omit [Scalar α] in
theorem SameUpdate.trans {slot : Nat} {h : Factorization α} (hfg : SameUpdate slot f g)
    (hgh : SameUpdate slot g h) : SameUpdate slot f h where
  rows_eq := hgh.rows_eq.trans hfg.rows_eq
  replaced_eq := hgh.replaced_eq.trans hfg.replaced_eq
  column_eq := by
    have hcolumn := hgh.column_eq
    rw [hfg.rows_eq] at hcolumn
    exact hcolumn.trans hfg.column_eq

/-- The older updates stay when one is appended. -/
theorem LaidOut.sameUpdate_of_replace (h : f.LaidOut) (hg : f.replace v row pivot = .ok g)
    {slot : Nat} (hslot : slot < f.updates) : SameUpdate slot f g := by
  obtain ⟨-, -, -, _, update, -, -, happend⟩ := replace_eq_ok_iff.1 hg
  obtain ⟨block, hblock, -, rfl⟩ := h.append_eq_ok_iff.1 happend
  refine ⟨rfl, Array.getElem?_setIfInBounds_ne (by omega), ?_⟩
  exact Block.column_setColumn_of_ne hblock (by omega)

/-! ## One call -/

/-- The same rows and count of updates, and the same positions and values behind the square. -/
structure KeepsTail (f g : Factorization α) : Prop where
  rows_eq : g.rows = f.rows
  updates_eq : g.updates = f.updates
  replaced_size_le : f.replaced.size ≤ g.replaced.size
  replaced_eq : ∀ slot < f.replaced.size, g.replaced[slot]? = f.replaced[slot]?
  size_le : f.block.size ≤ g.block.size
  block_eq : ∀ place, f.rows * f.rows ≤ place → place < f.block.size →
    g.block[place]? = f.block[place]?

omit [Scalar α] in
theorem KeepsTail.trans {h : Factorization α} (hfg : f.KeepsTail g) (hgh : g.KeepsTail h) :
    f.KeepsTail h where
  rows_eq := hgh.rows_eq.trans hfg.rows_eq
  updates_eq := hgh.updates_eq.trans hfg.updates_eq
  replaced_size_le := hfg.replaced_size_le.trans hgh.replaced_size_le
  replaced_eq slot hslot := (hgh.replaced_eq slot (hslot.trans_le hfg.replaced_size_le)).trans
    (hfg.replaced_eq slot hslot)
  size_le := hfg.size_le.trans hgh.size_le
  block_eq place hle hlt :=
    (hgh.block_eq place (hfg.rows_eq ▸ hle) (hlt.trans_le hfg.size_le)).trans
      (hfg.block_eq place hle hlt)

/-- An update lies behind the square. -/
theorem Sound.sameUpdate_of_keepsTail (h : f.Sound) (hk : f.KeepsTail g) {slot : Nat}
    (hslot : slot < f.updates) : SameUpdate slot f g := by
  obtain ⟨_, hp⟩ := h.replaced_lt slot hslot
  have hle := h.updates_le
  have hcolumn := h.column_le (show f.rows + slot < f.rows + f.config.chainCapacity by omega)
  refine ⟨hk.rows_eq, hk.replaced_eq slot (Array.getElem?_eq_some_iff.1 hp).1,
    Block.column_congr hcolumn hk.size_le fun i hi => hk.block_eq _ ?_ (Block.slot_lt hcolumn hi)⟩
  exact (Nat.mul_le_mul_right f.rows (by omega)).trans (Nat.le_add_right _ i)

omit [Scalar α] in
theorem keepsTail_withConfig (config : Config α) : f.KeepsTail { f with config := config } :=
  ⟨rfl, rfl, le_rfl, fun _ _ => rfl, le_rfl, fun _ _ _ => rfl⟩

omit [Scalar α] in
/-- Nothing is written behind the square. -/
theorem keepsTail_withBlock {block scratch : Array α} {staged : Staged}
    (hsize : block.size = f.block.size)
    (hafter : ∀ place, f.rows * f.rows ≤ place → block[place]? = f.block[place]?) :
    f.KeepsTail { f with block := block, scratch := scratch, staged := staged } :=
  ⟨rfl, rfl, le_rfl, fun _ _ => rfl, hsize.ge, fun place hle _ => hafter place hle⟩

omit [Scalar α] in
theorem keepsTail_withColumn {k : Nat} (hk : k < f.rows) {values : Vector α f.rows}
    {block : Array α} (hb : Block.setColumn k values f.block = .ok block) :
    f.KeepsTail { f with block := block } :=
  keepsTail_withBlock (Block.size_setColumn hb) fun _ => Block.getElem?_setColumn_of_lt hb hk

theorem keepsTail_grow (space : Nat) : f.KeepsTail (f.grow space) where
  rows_eq := rfl
  updates_eq := rfl
  replaced_size_le := by simp [grow]
  replaced_eq _ hslot := Block.getElem?_growTo hslot _ _
  size_le := (keeps_grow f space).size_le
  block_eq _ _ hlt := Block.getElem?_growTo hlt _ _

/-- What a call does to the chain: it gives it up, keeps it, or appends to it. -/
inductive ChainStep (f g : Factorization α) : Operation α → Prop where
  | dropped {operation : Operation α} : g.updates = 0 → ChainStep f g operation
  | kept {operation : Operation α} : f.KeepsTail g → ChainStep f g operation
  | appended {v : IndexedVector α} {row : Nat} {pivot : α} : f.replace v row pivot = .ok g →
    ChainStep f g (.replace v row pivot)

omit [Scalar α] in
theorem LaidOut.reshape_self (h : f.LaidOut) : f.reshape f.rows f.rows = f := by
  rw [reshape, if_pos ⟨rfl, h.columns_eq.symm⟩]
  obtain ⟨hcolumns, hstride⟩ := h
  cases f
  cases hcolumns
  cases hstride
  rfl

/-- The chain is given up for other rows. -/
theorem LaidOut.keepsTail_of_resize (h : f.LaidOut) {rows columns : Nat}
    (hg : f.resize rows columns = .ok g) : g.updates = 0 ∨ f.KeepsTail g := by
  obtain ⟨rfl, space, -, rfl⟩ := resize_eq_ok_iff.1 hg
  by_cases hrows : rows = f.rows
  · rw [hrows, h.reshape_self]
    exact .inr (keepsTail_grow space)
  · refine .inl ?_
    rw [grow, reshape, if_neg fun hsame => hrows hsame.1]

theorem LaidOut.keepsTail_of_load (h : f.LaidOut) {rows columns : Nat}
    {a : Fin rows → Fin columns → α} (hg : f.load a = .ok g) : g.updates = 0 ∨ f.KeepsTail g := by
  obtain ⟨_, sized, block, hsized, hb, rfl⟩ := load_eq_ok_iff.1 hg
  obtain rfl := rows_of_resize hsized
  refine (h.keepsTail_of_resize hsized).imp id fun hk => hk.trans ?_
  exact keepsTail_withBlock (Block.size_setSquare hb) fun _ => Block.getElem?_setSquare_of_le hb

/-- Columns are expanded into the square. -/
theorem getElem?_foldlM_expandColumn {n place : Nat} {staged : Staged} (hplace : n * n ≤ place) :
    ∀ {l : List Nat} {block block' : Array α}, (∀ i ∈ l, i < n) →
      l.foldlM (expandColumn n staged) block = .ok block' → block'[place]? = block[place]?
  | [], _, _, _, h => by cases h; rfl
  | i :: l, block, _, hl, h => by
    rw [List.foldlM_cons, bind_eq_ok_iff] at h
    obtain ⟨next, hi, hrest⟩ := h
    rw [getElem?_foldlM_expandColumn hplace (fun j hj => hl j (List.mem_cons_of_mem _ hj)) hrest]
    simp only [expandColumn, bind_eq_ok_iff, guard_eq_ok_iff] at hi
    obtain ⟨_, -, _, -, -, _, -, hset⟩ := hi
    exact Block.getElem?_setColumn_of_lt hset (hl i List.mem_cons_self) hplace

theorem Sound.keepsTail_of_expand (h : f.Sound) (hg : f.expand = .ok g) : f.KeepsTail g := by
  obtain ⟨-, block, hblock, rfl⟩ := h.expand_eq_ok_iff.1 hg
  refine keepsTail_withBlock (size_foldlM_expandColumn _ hblock) fun place hplace =>
    getElem?_foldlM_expandColumn hplace (fun i hi => ?_) hblock
  exact h.columns_eq ▸ List.mem_range.1 (List.mem_reverse.1 hi)

/-- Without rows there are no updates. -/
theorem Sound.chainStep_of_stage (h : f.Sound) {starts rows : Array Nat} {values : Array α}
    (hg : f.stage starts rows values = .ok g) :
    ChainStep f g (.stage starts rows values) := by
  rcases Nat.eq_zero_or_pos f.rows with hzero | hpos
  · have hnone : f.updates = 0 := Nat.eq_zero_of_not_pos fun hupdates => by
      obtain ⟨p, -⟩ := h.replaced_lt 0 hupdates
      exact absurd p.isLt (by omega)
    obtain ⟨-, -, -, -, -, rfl⟩ := stage_eq_ok_iff.1 hg
    exact .dropped hnone
  · have hafter (place : Nat) (hplace : f.rows * f.rows ≤ place) :
        g.block[place]? = f.block[place]? := h.getElem?_of_stage hpos hg hplace
    obtain ⟨-, -, -, -, -, rfl⟩ := stage_eq_ok_iff.1 hg
    exact .kept (keepsTail_withBlock Array.size_mapIdx hafter)

/-- A refused call keeps the chain. -/
theorem chainStep_of_settle {operation : Operation α} {events : Factorization α → List Event}
    {result : Except Failure (Factorization α)} {reply : Reply α}
    (hr : ∀ {g}, result = .ok g → ChainStep f g operation)
    (hs : Operation.settle f events result = .ok reply) :
    ChainStep f reply.factorization operation :=
  of_settle (p := (ChainStep f · operation)) (.kept (keepsTail_withConfig f.config)) hr hs

/-- A call gives the chain up, keeps it, or appends to it. -/
theorem Sound.chainStep (h : f.Sound) {operation : Operation α} {reply : Reply α}
    (hr : operation.perform f = .ok reply) : ChainStep f reply.factorization operation := by
  have hsame : f.KeepsTail f := keepsTail_withConfig f.config
  cases operation with
  | resize rows columns =>
    refine chainStep_of_settle (fun hg => ?_) hr
    exact (h.keepsTail_of_resize (liftRefusal_eq_ok_iff.1 hg)).elim .dropped .kept
  | setChainCapacity capacity =>
    refine chainStep_of_settle (fun hg => ?_) hr
    obtain ⟨space, -, rfl⟩ := setChainCapacity_eq_ok_iff.1 (liftRefusal_eq_ok_iff.1 hg)
    exact .kept ((keepsTail_withConfig _).trans (keepsTail_grow space))
  | setZeroTolerance value =>
    refine chainStep_of_settle (fun hg => ?_) hr
    obtain ⟨-, rfl⟩ := setZeroTolerance_eq_ok_iff.1 (liftRefusal_eq_ok_iff.1 hg)
    exact .kept (keepsTail_withConfig _)
  | setPivotTolerance value =>
    refine chainStep_of_settle (fun hg => ?_) hr
    obtain ⟨-, rfl⟩ := setPivotTolerance_eq_ok_iff.1 (liftRefusal_eq_ok_iff.1 hg)
    exact .kept (keepsTail_withConfig _)
  | setSlack value =>
    cases hr
    exact .kept (keepsTail_withConfig _)
  | load a =>
    exact chainStep_of_settle (fun hg => (h.keepsTail_of_load hg).elim .dropped .kept) hr
  | loadColumn column values =>
    refine chainStep_of_settle (fun hg => ?_) hr
    obtain ⟨hk, _, block, hb, rfl⟩ := h.loadColumn_eq_ok_iff.1 hg
    exact .kept (keepsTail_withColumn hk hb)
  | loadSlack column row =>
    refine chainStep_of_settle (fun hg => ?_) hr
    obtain ⟨hk, -, block, hb, rfl⟩ := h.loadSlack_eq_ok_iff.1 hg
    exact .kept (keepsTail_withColumn hk hb)
  | writeColumn column writes =>
    refine chainStep_of_settle (fun hg => ?_) hr
    obtain ⟨hk, _, -, _, -, block, hb, rfl⟩ :=
      h.writeColumn_eq_ok_iff.1 (liftFault_eq_ok_iff.1 hg)
    exact .kept (keepsTail_withColumn hk hb)
  | stage starts rowIndices values => exact chainStep_of_settle h.chainStep_of_stage hr
  | expand => exact chainStep_of_settle (fun hg => .kept (h.keepsTail_of_expand hg)) hr
  | factor =>
    simp only [Operation.perform, bind_eq_ok_iff, pure_eq_ok_iff] at hr
    obtain ⟨⟨g, refusal⟩, hg, rfl⟩ := hr
    obtain ⟨_, -, hinstall, -⟩ := h.factor_eq_ok_iff.1 hg
    obtain ⟨_, _, -, -, rfl⟩ := install_eq_ok_iff.1 hinstall
    exact .dropped rfl
  | replace entering slot pivot =>
    simp only [Operation.perform, bind_eq_ok_iff, pure_eq_ok_iff] at hr
    obtain ⟨settled, hs, rfl⟩ := hr
    have hsettled : ChainStep f settled.factorization (.replace entering slot pivot) :=
      chainStep_of_settle .appended hs
    exact hsettled
  | ftran v => exact .kept (h.perform_eq_of_isSolve (.ftran v) trivial hr ▸ hsame)
  | ftranInPlace v => exact .kept (h.perform_eq_of_isSolve (.ftranInPlace v) trivial hr ▸ hsame)
  | ftranPair v w inPlace =>
    exact .kept (h.perform_eq_of_isSolve (.ftranPair v w inPlace) trivial hr ▸ hsame)
  | btran v => exact .kept (h.perform_eq_of_isSolve (.btran v) trivial hr ▸ hsame)

/-! ## Runs -/

/-- One of the calls appended update `slot` with a pivot that was admitted then, and the update is
still the same. -/
def Appended (start : Factorization α) (operations : List (Operation α)) (slot : Nat)
    (f : Factorization α) : Prop :=
  ∃ before v row pivot after h g, operations = before ++ .replace v row pivot :: after ∧
    start.run before = .ok h ∧ h.updates = slot ∧ h.replace v row pivot = .ok g ∧
    h.Admits pivot ∧ SameUpdate slot g f

theorem Appended.snoc {start : Factorization α} {operations : List (Operation α)} {slot : Nat}
    (h : Appended start operations slot f) (hs : SameUpdate slot f g) (operation : Operation α) :
    Appended start (operations ++ [operation]) slot g := by
  obtain ⟨before, v, row, pivot, after, s, t, rfl, hbefore, hslot, hreplace, hpivot, hsame⟩ := h
  exact ⟨before, v, row, pivot, after ++ [operation], s, t, by simp, hbefore, hslot, hreplace,
    hpivot, hsame.trans hs⟩

/-- The last call appended the update. -/
theorem appended_last {start : Factorization α} {operations : List (Operation α)}
    (hrun : start.run operations = .ok f) (hg : f.replace v row pivot = .ok g)
    (hpivot : f.Admits pivot) : Appended start (operations ++ [.replace v row pivot]) f.updates g :=
  ⟨operations, v, row, pivot, [], f, g, rfl, hrun, rfl, hg, hpivot, ⟨rfl, rfl, rfl⟩⟩

/-- Every update of the chain was appended by one of the calls. -/
theorem appended_of_run [LawfulScalar α] [OrderedScalar α] {start : Factorization α}
    (hnew : start.New) {operations : List (Operation α)} (hrun : start.run operations = .ok f) :
    ∀ slot < f.updates, Appended start operations slot f := by
  -- The last call gives the chain up, keeps it, or appends the last update of it.
  induction operations using List.reverseRecOn generalizing f with
  | nil =>
    obtain ⟨config, -, rfl⟩ := hnew.exists_config
    cases hrun
    exact fun slot hslot => absurd hslot (Nat.not_lt_zero slot)
  | append_singleton operations operation ih =>
    obtain ⟨before, hbefore, hlast⟩ := run_append_eq_ok_iff.1 hrun
    obtain ⟨reply, hr, hend⟩ := run_cons_eq_ok_iff.1 hlast
    cases hend
    have hinvariant := invariant_of_reaches hnew (reaches_of_run hbefore)
    intro slot hslot
    cases hinvariant.chainStep hr with
    | dropped hnone => omega
    | kept hkeeps =>
      rw [hkeeps.updates_eq] at hslot
      exact (ih hbefore slot hslot).snoc (hinvariant.sameUpdate_of_keepsTail hkeeps hslot) _
    | appended hreplace =>
      obtain ⟨-, -, hpivot, -⟩ := replace_eq_ok_iff.1 hreplace
      obtain ⟨p, -, happends⟩ := hinvariant.appendsTo_of_replace hreplace
      have hcount : reply.factorization.updates = before.updates + 1 := by rw [happends.eq]
      rcases Nat.lt_succ_iff_lt_or_eq.1 (hcount ▸ hslot) with hslot | rfl
      · exact (ih hbefore slot hslot).snoc (hinvariant.sameUpdate_of_replace hreplace hslot) _
      · exact appended_last hbefore hreplace (hinvariant.admits_iff.2 hpivot)

/-- After any calls that leave valid factors, a replacement is let through exactly if there is room
in the chain and the pivot is admitted. It adds one update and changes nothing else; one that is not
let through is refused and changes nothing. Every update of the chain was appended with a pivot that
was admitted by the tolerance at the time. -/
theorem replaces_iff_of_run [LawfulScalar α] [OrderedScalar α] {start : Factorization α}
    (hnew : start.New) {operations : List (Operation α)} (hrun : start.run operations = .ok f) :
    (f.status = .valid → ∀ (v : IndexedVector α) (row : Nat) (pivot : α), v.Made →
      (∀ i ∈ v.indices, i < f.rows) → row < f.rows →
      ((∃ g, f.replace v row pivot = .ok g) ↔
        f.updates < f.config.chainCapacity ∧ f.Admits pivot) ∧
      ((¬ ∃ g, f.replace v row pivot = .ok g) → ∃ reason,
        (reason = .chainFull f.config.chainCapacity ∨
          reason = .weakPivot (Scalar.toFloat (Scalar.magnitude pivot))
            (Scalar.toFloat f.config.zeroTolerance)) ∧
        f.replace v row pivot = .error (.refused reason) ∧
        (Operation.replace v row pivot).execute f = .error (.refused reason) f) ∧
      ∀ g, f.replace v row pivot = .ok g → ∃ p, f.position row = .ok p ∧ f.AppendsTo p g) ∧
    ∀ slot < f.updates, Appended start operations slot f := by
  have h := invariant_of_reaches hnew (reaches_of_run hrun)
  refine ⟨fun hvalid v row pivot hv hlt hrow => ?_, appended_of_run hnew hrun⟩
  refine ⟨h.exists_replace_iff hvalid hv hlt hrow, fun hnot => ?_,
    fun g hg => h.appendsTo_of_replace hg⟩
  obtain ⟨reason, hreason, hrefused⟩ := h.exists_refusal hvalid hv hlt hrow hnot
  exact ⟨reason, hreason, hrefused, h.execute_replace hrefused⟩

/-- A basis of one row, with an update and room for another. -/
def updatedOnce : List (Operation Float) :=
  [.setChainCapacity 2, .load ![![1]], .factor, .replace single 0 2]

theorem not_isNumber_magnitude_nan : ¬ Scalar.IsNumber (Scalar.magnitude (0 / 0 : Float)) := by
  rw [Scalar.isNumber_iff_isNaN]
  decide +kernel

theorem replaces_iff_of_run_updated : ∃ f g : Factorization Float,
    initial.run updatedOnce = .ok f ∧ Appended initial updatedOnce 0 f ∧
      f.replace single 0 (0 / 0) = .ok g ∧ (∃ p, f.AppendsTo p g) ∧
      ∃ reason, (Operation.replace single 0 0).execute f = .error (.refused reason) f := by
  have hrun : Except.isOk (do
      let f ← initial.run updatedOnce
      if ¬ (f.status = .valid ∧ f.rows = 1 ∧ f.updates = 1 ∧ f.config.chainCapacity = 2 ∧
        Scalar.magnitude 0 ≤ f.config.zeroTolerance) then throw .outOfRange
      return f : Except Fault (Factorization Float)) = true := by
    decide +kernel
  obtain ⟨_, hrun⟩ := exists_eq_ok_of_isOk hrun
  simp only [bind_eq_ok_iff, guard_eq_ok_iff, not_not] at hrun
  obtain ⟨f, hf, ⟨hvalid, hrows, hupdates, hcapacity, hzero⟩, -⟩ := hrun
  obtain ⟨hreplaces, happended⟩ := replaces_iff_of_run .initial hf
  have hlisted : ∀ i ∈ single.indices, i < f.rows := by simp [single, hrows]
  obtain ⟨haccepted, -, happends⟩ :=
    hreplaces hvalid single 0 (0 / 0) made_single hlisted (by omega)
  obtain ⟨-, hrefused, -⟩ := hreplaces hvalid single 0 0 made_single hlisted (by omega)
  obtain ⟨g, hg⟩ := haccepted.2 ⟨by omega, .inr not_isNumber_magnitude_nan⟩
  obtain ⟨p, -, hp⟩ := happends g hg
  obtain ⟨reason, -, -, hreason⟩ := hrefused fun hok =>
    (replace_eq_ok_iff.1 hok.choose_spec).2.2.1 hzero
  exact ⟨f, g, hf, happended 0 (by omega), hg, ⟨p, hp⟩, reason, hreason⟩

/-- A pivot that is no number is not above the zero tolerance, and is let through. -/
theorem exists_replace_eq_ok_of_nan : ∃ f g : Factorization Float,
    initial.run [.setChainCapacity 1, .load ![![1]], .factor] = .ok f ∧ f.status = .valid ∧
      f.rows = 1 ∧ ¬ f.config.zeroTolerance < Scalar.magnitude (0 / 0) ∧
      f.replace single 0 (0 / 0) = .ok g ∧ g.updates = 1 := by
  have hrun : Except.isOk (do
      let f ← liftM (initial.run [.setChainCapacity 1, .load ![![1]], .factor])
      let g ← f.replace single 0 (0 / 0)
      if ¬ (f.status = .valid ∧ f.rows = 1 ∧
        ¬ f.config.zeroTolerance < Scalar.magnitude (0 / 0) ∧ g.updates = 1) then
        throw (.fault .outOfRange)
      return g : Except Failure (Factorization Float)) = true := by
    decide +kernel
  obtain ⟨_, hrun⟩ := exists_eq_ok_of_isOk hrun
  simp only [bind_eq_ok_iff, guard_eq_ok_iff, liftFault_eq_ok_iff, not_not] at hrun
  obtain ⟨f, hf, g, hg, ⟨hvalid, hrows, hpivot, hupdates⟩, -⟩ := hrun
  exact ⟨f, g, hf, hvalid, hrows, hpivot, hg, hupdates⟩

end BasisLU.Factorization
