import BasisLU.Proofs.Factorization.Invariant
import BasisLU.Stepwise

/-!
# Refused calls change nothing

A call is refused before its first write, except that factoring looks at a basis by eliminating it.
So a call carried out write by write (`Operation.execute`) leaves a factorization as it was if it is
refused, and ends as `Operation.perform` says in any case (`execute_of_reaches`).

Call by call, the writes `Realizes` what is said of the call. The relation is that between the
factorization half written and the result so far, and it is kept check by check (`realizes_check`,
`realizes_read`, `realizes_guard`) and write by write (`Realizes.bind`, `realizes_forM`). Only a
check before the first write may refuse.
-/

namespace BasisLU

variable {α : Type} {f g : Factorization α}

/-- A part of a call, begun with the factorization `f`, does what is said of it: it leaves a
factorization that `R` relates to the result, or it fails as it should, and a refusal has changed
nothing. -/
inductive Realizes {γ : Type} (f : Factorization α) (R : Factorization α → γ → Prop) :
    EStateM.Result Failure (Factorization α) Unit → Except Failure γ → Prop where
  | ok {g : Factorization α} {y : γ} : R g y → Realizes f R (.ok () g) (.ok y)
  | refused (reason : Refusal) :
    Realizes f R (.error (.refused reason) f) (.error (.refused reason))
  | fault (cause : Fault) (g : Factorization α) :
    Realizes f R (.error (.fault cause) g) (.error (.fault cause))

section Realizes

variable {β γ δ : Type} {R : Factorization α → γ → Prop}

/-- A check that comes before any write may refuse. -/
theorem realizes_check {x : Except Failure β} {next : β → Stepwise α Unit}
    {next' : β → Except Failure γ} (h : ∀ y, x = .ok y → Realizes f R (next y f) (next' y)) :
    Realizes f R (((liftM x : Stepwise α β) >>= next) f) (x >>= next') := by
  cases x with
  | ok y => exact h y rfl
  | error failure =>
    cases failure with
    | refused reason => exact .refused reason
    | fault cause => exact .fault cause f

/-- A check after a write can only fault. -/
theorem realizes_read {x : Except Fault β} {next : β → Stepwise α Unit}
    {next' : β → Except Failure γ} (h : ∀ y, x = .ok y → Realizes f R (next y g) (next' y)) :
    Realizes f R (((liftM x : Stepwise α β) >>= next) g)
      ((liftM x : Except Failure β) >>= next') := by
  cases x with
  | ok y => exact h y rfl
  | error cause => exact .fault cause g

theorem realizes_guard {c : Prop} [Decidable c] {failure : Failure} {next : Stepwise α Unit}
    {next' : Except Failure γ} (h : ¬c → Realizes f R (next f) next') :
    Realizes f R ((if c then (throw failure : Stepwise α PUnit) >>= fun _ => next else next) f)
      (if c then (throw failure : Except Failure PUnit) >>= fun _ => next' else next') := by
  by_cases hc : c
  · rw [if_pos hc, if_pos hc]
    cases failure with
    | refused reason => exact .refused reason
    | fault cause => exact .fault cause f
  · rw [if_neg hc, if_neg hc]
    exact h hc

theorem Realizes.bind {R' : Factorization α → δ → Prop} {r : Stepwise α Unit}
    {x : Except Failure γ} (h : Realizes f R (r g) x) {next : Unit → Stepwise α Unit}
    {next' : γ → Except Failure δ}
    (hnext : ∀ s y, x = .ok y → R s y → Realizes f R' (next () s) (next' y)) :
    Realizes f R' ((r >>= next) g) (x >>= next') := by
  show Realizes f R' (EStateM.bind r next g) _
  unfold EStateM.bind
  generalize r g = result at h
  cases h with
  | ok hs => exact hnext _ _ rfl hs
  | refused reason => exact .refused reason
  | fault cause s => exact .fault cause s

theorem Realizes.map {r : EStateM.Result Failure (Factorization α) Unit} {x : Except Failure γ}
    (h : Realizes f R r x) {result : γ → Factorization α}
    (hresult : ∀ s y, R s y → s = result y) :
    Realizes f Eq r (x >>= fun y => pure (result y)) := by
  cases h with
  | ok hs => exact .ok (hresult _ _ hs)
  | refused reason => exact .refused reason
  | fault cause s => exact .fault cause s

omit f in
theorem liftFault_bind (x : Except Fault β) (next : β → Except Fault γ) :
    (liftM (x >>= next) : Except Failure γ) = liftM x >>= fun y => liftM (next y) := by
  cases x <;> rfl

/-- A pass of writes does what is said of it if each write does. -/
theorem realizes_forM {body : β → Stepwise α Unit} {step : γ → β → Except Fault γ} :
    ∀ {l : List β}, (∀ x ∈ l, ∀ s y, R s y →
        Realizes f R (body x s) (liftM (step y x))) →
      ∀ {s y}, R s y → Realizes f R (l.forM body s) (liftM (l.foldlM step y))
  | [], _, _, _, hs => .ok hs
  | x :: l, h, s, y, hs => by
    rw [List.foldlM_cons, liftFault_bind]
    exact Realizes.bind (h x List.mem_cons_self s y hs) fun s' y' _ hs' =>
      realizes_forM (fun z hz => h z (List.mem_cons_of_mem _ hz)) hs'

omit f in
/-- A pass of checks is a check. -/
theorem forM_liftM (check : β → Except Failure Unit) :
    ∀ l : List β, (l.forM fun x => (liftM (check x) : Stepwise α Unit)) = liftM (l.forM check)
  | [] => rfl
  | x :: l => by
    funext s
    show ((liftM (check x) : Stepwise α Unit) >>= fun _ => l.forM fun x => liftM (check x)) s = _
    rw [forM_liftM check l]
    show _ = (liftM (check x >>= fun _ => l.forM check) : Stepwise α Unit) s
    cases check x <;> rfl

theorem realizes_set {x : Except Fault (Factorization α)} :
    Realizes f Eq (((liftM x : Stepwise α (Factorization α)) >>= set) g)
      (liftM x : Except Failure (Factorization α)) := by
  cases x with
  | ok h => exact .ok rfl
  | error cause => exact .fault cause g

end Realizes

theorem realizes_setBlock (base : Factorization α) (x : Except Fault (Array α))
    (s : Factorization α) :
    Realizes f (fun s block => s = { base with block := block })
      (((liftM x : Stepwise α (Array α)) >>= fun block => set { base with block := block }) s)
      (liftM x) := by
  cases x with
  | ok block => exact .ok rfl
  | error cause => exact .fault cause s

namespace Stepwise

/-! ## Running -/

section Running

variable {β : Type} {next : Unit → Stepwise α β}

theorem get_bind {next : Factorization α → Stepwise α β} : (get >>= next) f = next f f := rfl

theorem modify_bind {write : Factorization α → Factorization α} :
    (modify write >>= next) f = next () (write f) := rfl

theorem bind_of_eq_ok {call : Stepwise α Unit} (h : call f = .ok () g) :
    (call >>= next) f = next () g := by
  show EStateM.bind call next f = _
  rw [EStateM.bind, h]

theorem read_bind {γ : Type} (y : γ) (next : γ → Stepwise α β) :
    ((liftM (.ok y : Except Fault γ) : Stepwise α γ) >>= next) f = next y f := rfl

theorem set_bind : (set g >>= next) f = next () g := rfl

end Running

variable [Scalar α]

/-! ## Sizing and parameters -/

omit [Scalar α] in
/-- What is computed is checked for room, or for its range, before the first write. -/
theorem realizes_result {β : Type} {x : Except Refusal β} {next : β → Stepwise α Unit}
    {result : β → Factorization α} (h : ∀ y, x = .ok y → next y f = .ok () (result y)) :
    Realizes f Eq (((liftM x : Stepwise α β) >>= next) f)
      (liftM (x >>= fun y => pure (result y) : Except Refusal (Factorization α))) := by
  cases x with
  | ok y =>
    have hy := h y rfl
    show Realizes f Eq (next y f) (.ok (result y))
    rw [hy]
    exact .ok rfl
  | error reason => exact .refused reason

theorem growBuffers_eq (h : f.scratch.size = f.mostRows) (space : Nat) :
    growBuffers space f = .ok () (f.grow space) := by
  rw [growBuffers, modify_bind, get_bind, Factorization.grow]
  by_cases hrows : f.mostRows < f.rows
  · rw [if_pos hrows, modify_bind, Nat.max_eq_right hrows.le]
    rfl
  · have hle := Nat.le_of_not_lt hrows
    rw [if_neg hrows, Nat.max_eq_left hle, Block.growTo_of_le h.ge]
    rfl

theorem realizes_setZeroTolerance (value : α) :
    Realizes f Eq (setZeroTolerance value f) (liftM (f.setZeroTolerance value)) :=
  realizes_result fun _ _ => rfl

theorem realizes_setPivotTolerance (value : α) :
    Realizes f Eq (setPivotTolerance value f) (liftM (f.setPivotTolerance value)) :=
  realizes_result fun _ _ => rfl

theorem realizes_setChainCapacity (h : f.Coherent) (capacity : Nat) :
    Realizes f Eq (setChainCapacity capacity f) (liftM (f.setChainCapacity capacity)) :=
  realizes_result fun space _ => growBuffers_eq (by simp [h.scratch]) space

theorem realizes_resize (h : f.Coherent) (rows columns : Nat) :
    Realizes f Eq (resize rows columns f) (liftM (f.resize rows columns)) := by
  rw [resize, Factorization.resize]
  by_cases hsquare : rows = columns
  · rw [if_neg (not_not.2 hsquare), if_neg (not_not.2 hsquare)]
    refine realizes_result fun space _ => ?_
    rw [Factorization.reshape]
    by_cases hsame : rows = f.rows ∧ columns = f.columns
    · rw [if_pos hsame, if_neg (by tauto)]
      exact growBuffers_eq (by simp [h.scratch]) space
    · rw [if_neg hsame, if_pos (by tauto), modify_bind]
      exact growBuffers_eq (by simp [h.scratch]) space
  · rw [if_pos hsquare, if_pos hsquare]
    exact .refused _

/-! ## Loading and staging -/

omit [Scalar α] in
theorem realizes_loadColumn (column : Nat) (values : Array α) :
    Realizes f Eq (loadColumn column values f) (f.loadColumn column values) := by
  rw [loadColumn, get_bind]
  refine realizes_check (x := liftM (f.checkColumn column)) fun _ _ => ?_
  by_cases hsize : values.size = f.rows
  · rw [dif_pos hsize, dif_pos hsize]
    exact realizes_set
  · rw [dif_neg hsize, dif_neg hsize]
    exact .refused _

/-- A column cleared is a column of zeros. -/
theorem clearColumn_eq {k : Nat} (hg : f.setColumn k (Vector.replicate f.rows 0) = .ok g) :
    clearColumn k f = .ok () g := by
  rw [clearColumn, get_bind, hg]
  rfl

omit [Scalar α] in
/-- A value put into a column is one value more of it. -/
theorem exists_putValue (h : f.LaidOut) {k : Nat} {values : Vector α f.rows}
    (hg : f.setColumn k values = .ok g) (place : Fin f.rows) (value : α) :
    ∃ g', putValue k place value g = .ok () g' ∧
      f.setColumn k (values.set place value place.isLt) = .ok g' := by
  obtain ⟨block, hblock, rfl⟩ := h.setColumn_eq_ok_iff.1 hg
  obtain ⟨block', hblock'⟩ : ∃ block',
      Block.setColumn k (values.set place value place.isLt) f.block = .ok block' :=
    Block.setColumn_of_le (Block.le_of_setColumn hblock)
  refine ⟨{ f with block := block' }, ?_, h.setColumn_eq_ok_iff.2 ⟨block', hblock', rfl⟩⟩
  have hlaid : Factorization.LaidOut { f with block := block } := ⟨h.columns_eq, h.stride_eq⟩
  have hcolumn : { f with block := block }.column k = .ok values :=
    (hlaid.column_eq k).trans (Block.column_setColumn hblock)
  have hset : { f with block := block }.setColumn k (values.set place value place.isLt) =
      .ok { f with block := block' } :=
    hlaid.setColumn_eq_ok_iff.2 ⟨block', (Block.setColumn_setColumn hblock).trans hblock', rfl⟩
  rw [putValue, get_bind, Fault.below_of_lt place.isLt, read_bind, hcolumn, read_bind, hset]
  rfl

theorem realizes_loadSlack (h : f.Sound) (column row : Nat) :
    Realizes f Eq (loadSlack column row f) (f.loadSlack column row) := by
  rw [loadSlack, get_bind]
  refine realizes_check (x := liftM (f.checkColumn column)) fun _ hcolumn => ?_
  refine realizes_check (x := f.checkRow row) fun _ hrow => ?_
  have hrow := Factorization.checkRow_eq_ok_iff.1 hrow
  have hcolumn : column < f.rows := by
    rw [liftRefusal_eq_ok_iff, Factorization.checkColumn, ite_error_eq_ok_iff, h.columns_eq]
      at hcolumn
    exact hcolumn.1
  obtain ⟨block, hblock⟩ := h.exists_setColumn hcolumn (Vector.replicate f.rows (0 : α))
  have hclear : f.setColumn column (Vector.replicate f.rows 0) = .ok { f with block := block } :=
    h.setColumn_eq_ok_iff.2 ⟨block, hblock, rfl⟩
  obtain ⟨g, hput, hg⟩ :=
    exists_putValue h.toLaidOut hclear ⟨row, hrow⟩ f.config.slack
  have hslack : (Vector.replicate f.rows (0 : α)).set row f.config.slack hrow =
      Vector.ofFn fun i : Fin f.rows => if i = row then f.config.slack else 0 := by
    ext i hi
    simp [Vector.getElem_set, eq_comm]
  rw [bind_of_eq_ok (clearColumn_eq hclear), hput, ← hslack, hg]
  exact .ok rfl

theorem realizes_load (h : f.Sound) {rows columns : Nat} (a : Fin rows → Fin columns → α) :
    Realizes f Eq (load a f) (f.load a) := by
  by_cases hsquare : rows = columns
  · subst hsquare
    rw [load, Factorization.load, dif_pos rfl]
    refine (realizes_resize h.toCoherent rows rows).bind fun sized _ hsized hs => ?_
    obtain rfl := hs
    have hsized := liftRefusal_eq_ok_iff.1 hsized
    have hroom := (h.resize hsized).square_le
    rw [Factorization.rows_of_resize hsized] at hroom
    dsimp only [Fin.cast_eq_self]
    rw [← Block.foldlM_setColumn_eq hroom]
    refine Realizes.map (R := fun s block => s = { sized with block := block })
      (realizes_forM (fun k _ s block hs => ?_) rfl) fun s block hs => hs
    subst hs
    rw [get_bind]
    simpa using realizes_setBlock sized _ _
  · rw [load, resize, if_pos hsquare, Factorization.load, dif_neg hsquare]
    exact .refused _

omit [Scalar α] in
theorem realizes_writeColumn (column : Nat) (writes : List (Nat × α)) :
    Realizes f Eq (writeColumn column writes f) (liftM (f.writeColumn column writes)) :=
  realizes_set

omit [Scalar α] in
theorem realizes_stage (starts rowIndices : Array Nat) (values : Array α) :
    Realizes f Eq (stage starts rowIndices values f) (f.stage starts rowIndices values) := by
  rw [stage, get_bind]
  refine realizes_guard fun _ => realizes_guard fun _ => realizes_read fun total _ =>
    realizes_guard fun _ => ?_
  rw [forM_liftM]
  exact realizes_check fun _ _ => realizes_guard fun _ => .ok rfl

theorem realizes_expand : Realizes f Eq (expand f) f.expand := by
  rw [expand, get_bind]
  refine realizes_guard fun _ => realizes_read fun _ _ => ?_
  rw [set_bind]
  refine Realizes.bind (R := fun s block => s = { f with scratch := #[], block := block })
    (realizes_forM (fun i _ s block hs => ?_) rfl) fun s block _ hs => ?_
  · subst hs
    rw [get_bind]
    exact realizes_setBlock { f with scratch := #[] } _ _
  · subst hs
    exact realizes_read fun scratch _ => .ok rfl

/-! ## Factoring and replacing -/

omit [Scalar α] in
/-- Rows located and then written are located and written one after another. -/
theorem locateRows_bind {γ : Type} (next : Vector α f.rows → Except Fault γ) :
    ∀ (entries : List (Nat × α)) (x : Vector α f.rows),
      (f.locateRows entries >>= fun placed => next (scatter placed x)) =
        entries.foldlM (fun x e => do
          let p ← f.position e.1
          return x.set p e.2 p.isLt) x >>= next
  | [], x => rfl
  | e :: entries, x => by
    have ih (p : Fin f.rows) := locateRows_bind next entries (x.set p e.2 p.isLt)
    simp only [Factorization.locateRows] at ih
    simp only [Factorization.locateRows, List.mapM_cons, List.foldlM_cons, bind_assoc, pure_bind,
      scatter_cons, ih]

theorem newUpdate_eq_foldlM (entries : List (Nat × α)) (slot : Nat) (pivot : α) :
    f.newUpdate entries slot pivot = (do
      let x ← entries.foldlM (fun x e => do
        let p ← f.position e.1
        return x.set p e.2 p.isLt) (Vector.replicate f.rows 0)
      let position ← f.position slot
      return ⟨position, x.set position (1 / pivot) position.isLt⟩) := by
  rw [Factorization.newUpdate]
  simp only [scatter_append, scatter_cons, scatter_nil]
  exact locateRows_bind (fun x => do
    let position ← f.position slot
    return (⟨position, x.set position (1 / pivot) position.isLt⟩ : Update α f.rows)) entries _

theorem realizes_replace (h : f.Sound) (entering : IndexedVector α) (slot : Nat) (pivot : α) :
    Realizes f Eq (replace entering slot pivot f) (f.replace entering slot pivot) := by
  rw [replace, get_bind]
  refine realizes_read (x := f.requireValid .replaceBeforeFactor) fun _ _ =>
    realizes_guard fun hroom => realizes_guard fun _ => realizes_read fun entries _ => ?_
  have hroom : f.columns + f.updates < f.rows + f.config.chainCapacity := by
    have := h.columns_eq
    omega
  obtain ⟨block, hblock⟩ : ∃ block, Block.setColumn (f.columns + f.updates)
      (Vector.replicate f.rows (0 : α)) f.block = .ok block :=
    Block.setColumn_of_le (h.column_le hroom)
  have hclear := h.setColumn_eq_ok_iff.2 ⟨block, hblock, rfl⟩
  rw [newUpdate_eq_foldlM]
  simp only [liftFault_bind, bind_assoc]
  rw [bind_of_eq_ok (clearColumn_eq hclear)]
  refine Realizes.bind (R := fun s x => f.setColumn (f.columns + f.updates) x = .ok s)
    (realizes_forM (fun e _ s x hs => ?_) hclear) fun s x _ hs => ?_
  · obtain ⟨row, value⟩ := e
    rw [liftFault_bind]
    refine realizes_read fun p _ => ?_
    obtain ⟨s', hput, hs'⟩ := exists_putValue h.toLaidOut hs p value
    rw [hput]
    exact .ok hs'
  · refine realizes_read fun position _ => ?_
    obtain ⟨s', hput, hs'⟩ := exists_putValue h.toLaidOut hs position (1 / pivot)
    obtain ⟨block', hblock', rfl⟩ := h.setColumn_eq_ok_iff.1 hs'
    show Realizes f Eq _
      (liftM (f.append ⟨position, x.set position (1 / pivot) position.isLt⟩))
    rw [bind_of_eq_ok hput, Factorization.append, h.requireLayout_eq, ok_bind, hblock', ok_bind]
    by_cases hsize : f.replaced.size ≤ f.updates
    · rw [if_pos hsize, if_pos hsize]
      exact .fault _ _
    · rw [if_neg hsize, if_neg hsize]
      exact .ok rfl

/-- A singular basis is refused with the factorization that is kept of it. -/
theorem exists_factor (h : f.Sound) : ∃ g refusal, f.factor = .ok (g, refusal) ∧
    factor f = match refusal with
      | none => .ok () g
      | some reason => .error (.refused reason) g := by
  obtain ⟨columns, hsquare⟩ := Block.square_of_le h.square_le
  obtain ⟨g, hg⟩ := h.exists_install (eliminate f.config.zeroTolerance columns)
  have hfactor := h.factor_eq_ok_iff.2 ⟨columns, hsquare, hg, rfl⟩
  obtain ⟨-, -, hsingularity⟩ := Factorization.status_of_install hg
  refine ⟨g, g.singularity?, hfactor, ?_⟩
  obtain ⟨block, order, hblock, horder, rfl⟩ := Factorization.install_eq_ok_iff.1 hg
  rw [hsingularity, factor, get_bind, h.square_eq, hsquare, read_bind, set_bind, hblock, read_bind,
    modify_bind, horder, read_bind, modify_bind]
  by_cases hgood : (eliminate f.config.zeroTolerance columns).good = f.rows
  · rw [if_pos hgood, if_pos hgood, if_neg (not_not.2 hgood)]
    rfl
  · rw [if_neg hgood, if_neg hgood, if_pos hgood]
    rfl

end Stepwise

/-! ## Calls -/

namespace Operation

/-- A call carried out write by write ends as its reply says, with the factorization of the
reply. -/
inductive Agrees : EStateM.Result Failure (Factorization α) (List (IndexedVector α)) →
    Except Fault (Reply α) → Prop where
  | done {r : Reply α} : r.refusal = none → Agrees (.ok r.vectors r.factorization) (.ok r)
  | refused {r : Reply α} {reason : Refusal} : r.refusal = some reason →
    Agrees (.error (.refused reason) r.factorization) (.ok r)
  | fault (cause : Fault) (g : Factorization α) : Agrees (.error (.fault cause) g) (.error cause)

/-- The call ends as its reply says, and if it is refused it has changed nothing. -/
structure Atomic (f : Factorization α)
    (r : EStateM.Result Failure (Factorization α) (List (IndexedVector α)))
    (reply : Except Fault (Reply α)) : Prop where
  agrees : Agrees r reply
  eq_of_refused : ∀ reason g, r = .error (.refused reason) g → g = f

theorem atomic_settle {call : Stepwise α Unit} {result : Except Failure (Factorization α)}
    (h : Realizes f Eq (call f) result) (events : Factorization α → List Event) :
    Atomic f ((do call; return [] : Stepwise α (List (IndexedVector α))) f)
      (settle f events result) := by
  show Atomic f (EStateM.bind call _ f) _
  unfold EStateM.bind
  generalize call f = r at h
  cases h with
  | ok hs =>
    subst hs
    exact ⟨.done (r := ⟨_, none, none, [], _⟩) rfl, nofun⟩
  | refused reason =>
    refine ⟨.refused (r := ⟨_, some reason, none, [], []⟩) rfl, fun _ _ hr => ?_⟩
    cases hr
    rfl
  | fault cause g => exact ⟨.fault cause g, nofun⟩

theorem Atomic.withCode {r : EStateM.Result Failure (Factorization α) (List (IndexedVector α))}
    {reply : Except Fault (Reply α)} (h : Atomic f r reply) (code : Reply α → Option Int) :
    Atomic f r (reply >>= fun reply => pure { reply with code := code reply }) := by
  obtain ⟨hagrees, hrefused⟩ := h
  refine ⟨?_, hrefused⟩
  cases hagrees with
  | @done reply hnone => exact .done (r := { reply with code := code reply }) hnone
  | @refused reply _ hsome => exact .refused (r := { reply with code := code reply }) hsome
  | fault cause g => exact .fault cause g

/-- A solve has nothing to refuse. -/
theorem atomic_solve {β : Type} (x : Except Fault β) {after : β → Factorization α}
    {vectors : β → List (IndexedVector α)} {next : β → Stepwise α (List (IndexedVector α))}
    (hnext : ∀ r, next r f = .ok (vectors r) (after r)) :
    Atomic f (((liftM x : Stepwise α β) >>= next) f)
      (x >>= fun r => pure (solved (after r) (vectors r))) := by
  cases x with
  | ok r =>
    show Atomic f (next r f) _
    rw [hnext]
    exact ⟨.done (r := solved (after r) (vectors r)) rfl, nofun⟩
  | error cause => exact ⟨.fault cause f, nofun⟩

variable [Scalar α]

/-- Only factoring can be refused with something changed. -/
theorem atomic_perform (h : f.Sound) (operation : Operation α) (hne : operation ≠ .factor) :
    Atomic f (operation.execute f) (operation.perform f) := by
  cases operation with
  | resize rows columns =>
    exact atomic_settle (Stepwise.realizes_resize h.toCoherent rows columns) _
  | setChainCapacity capacity =>
    exact atomic_settle (Stepwise.realizes_setChainCapacity h.toCoherent capacity) _
  | setZeroTolerance value => exact atomic_settle (Stepwise.realizes_setZeroTolerance value) _
  | setPivotTolerance value => exact atomic_settle (Stepwise.realizes_setPivotTolerance value) _
  | setSlack value => exact ⟨.done (r := ⟨_, none, none, [], []⟩) rfl, nofun⟩
  | load a => exact atomic_settle (Stepwise.realizes_load h a) _
  | loadColumn column values => exact atomic_settle (Stepwise.realizes_loadColumn column values) _
  | loadSlack column row => exact atomic_settle (Stepwise.realizes_loadSlack h column row) _
  | writeColumn column writes =>
    exact atomic_settle (Stepwise.realizes_writeColumn column writes) _
  | stage starts rowIndices values =>
    exact atomic_settle (Stepwise.realizes_stage starts rowIndices values) _
  | expand => exact atomic_settle Stepwise.realizes_expand _
  | factor => exact absurd rfl hne
  | replace entering slot pivot =>
    exact (atomic_settle (Stepwise.realizes_replace h entering slot pivot) _).withCode _
  | ftran v => exact atomic_solve (f.ftran v) fun _ => rfl
  | ftranInPlace v => exact atomic_solve (f.ftranInPlace v) fun _ => rfl
  | ftranPair v w inPlace => exact atomic_solve (f.ftranPair v w inPlace) fun _ => rfl
  | btran v => exact atomic_solve (f.btran v) fun _ => rfl

theorem exists_execute_factor (h : f.Sound) : ∃ g refusal, f.factor = .ok (g, refusal) ∧
    (factor : Operation α).execute f = match refusal with
      | none => .ok [] g
      | some reason => .error (.refused reason) g := by
  obtain ⟨g, refusal, hfactor, hstep⟩ := Stepwise.exists_factor h
  refine ⟨g, refusal, hfactor, ?_⟩
  show EStateM.bind Stepwise.factor _ f = _
  rw [EStateM.bind, hstep]
  cases refusal <;> rfl

/-- Factoring ends as its reply says too. -/
theorem agrees_factor (h : f.Sound) :
    Agrees ((factor : Operation α).execute f) ((factor : Operation α).perform f) := by
  obtain ⟨g, refusal, hfactor, hexecute⟩ := exists_execute_factor h
  rw [perform, hfactor, ok_bind, hexecute]
  cases refusal with
  | none => exact .done (r := ⟨g, none, none, [], _⟩) rfl
  | some reason => exact .refused (r := ⟨g, some reason, none, [], _⟩) rfl

theorem agrees_perform (h : f.Sound) (operation : Operation α) :
    Agrees (operation.execute f) (operation.perform f) := by
  by_cases hfactor : operation = .factor
  · rw [hfactor]
    exact agrees_factor h
  · exact (atomic_perform h operation hfactor).agrees

theorem execute_of_refused (h : f.Sound) {operation : Operation α} {reply : Reply α}
    (hr : operation.perform f = .ok reply) {reason : Refusal}
    (hreason : reply.refusal = some reason) :
    operation.execute f = .error (.refused reason) reply.factorization := by
  have hagrees := agrees_perform h operation
  rw [hr] at hagrees
  generalize operation.execute f = r at hagrees
  cases hagrees with
  | done hnone => exact nomatch hreason.symm.trans hnone
  | refused hsome =>
    cases hreason.symm.trans hsome
    rfl

end Operation

namespace Factorization

variable [Scalar α]

/-- What is kept of a singular basis has no updates, and its row order is a permutation and its
inverse. -/
theorem Sound.singular_of_factor (h : f.Sound) {reason : Refusal}
    (hg : f.factor = .ok (g, some reason)) :
    g.status = .singular ∧ g.rows = f.rows ∧ g.updates = 0 ∧
      ∃ σ : Equiv.Perm (Fin g.rows), g.order.Orders σ := by
  have hsound := h.factor hg
  obtain ⟨columns, -, hinstall, hreason⟩ := h.factor_eq_ok_iff.1 hg
  have hstatus : g.status = .singular := by
    by_contra hne
    rw [singularity?, if_neg hne] at hreason
    cases hreason
  have horders := hsound.orders (by simp [hstatus])
  obtain ⟨block, order, -, -, rfl⟩ := install_eq_ok_iff.1 hinstall
  exact ⟨hstatus, rfl, rfl, horders⟩

/-- After any calls, the next one carried out write by write ends as its reply says. If it is
refused, the factorization is what it was, or it is what was eliminated of a singular basis: there
is no update then, and the row order is a permutation and its inverse. -/
theorem execute_of_reaches [LawfulScalar α] {start : Factorization α} (hnew : start.New)
    (hreach : Reaches start f) (operation : Operation α) :
    Operation.Agrees (operation.execute f) (operation.perform f) ∧
    ∀ reason g, operation.execute f = .error (.refused reason) g →
      g = f ∨ operation = .factor ∧ g.status = .singular ∧ g.rows = f.rows ∧ g.updates = 0 ∧
        ∃ σ : Equiv.Perm (Fin g.rows), g.order.Orders σ := by
  have h := invariant_of_reaches hnew hreach
  refine ⟨Operation.agrees_perform h.toSound operation, fun reason g hg => ?_⟩
  by_cases hfactor : operation = .factor
  · subst hfactor
    obtain ⟨g', refusal, hg', hexecute⟩ := Operation.exists_execute_factor h.toSound
    rw [hexecute] at hg
    cases refusal with
    | none => cases hg
    | some reason' =>
      cases hg
      exact .inr ⟨rfl, h.toSound.singular_of_factor hg'⟩
  · exact .inl ((Operation.atomic_perform h.toSound operation hfactor).eq_of_refused reason g hg)

/-- Columns of two rows, the second of which names a row that there is not. -/
def misplaced : Operation Float := .stage #[0, 1, 2] #[0, 5] #[1, 2]

theorem execute_of_reaches_misplaced : ∃ (f : Factorization Float) (reason : Refusal),
    initial.run shrinking = .ok f ∧ misplaced.execute f = .error (.refused reason) f := by
  have hrun : Except.isOk (do
      let f ← initial.run shrinking
      let reply ← misplaced.perform f
      if reply.refusal.isNone then throw .outOfRange
      return f : Except Fault (Factorization Float)) = true := by
    decide +kernel
  obtain ⟨f, hrun⟩ := exists_eq_ok_of_isOk hrun
  simp only [bind_eq_ok_iff, guard_eq_ok_iff, pure_eq_ok_iff] at hrun
  obtain ⟨f, hf, reply, hreply, hrefused, -⟩ := hrun
  obtain ⟨hagrees, hatomic⟩ := execute_of_reaches .initial (reaches_of_run hf) misplaced
  rw [hreply] at hagrees
  generalize hexecute : misplaced.execute f = r at hagrees hatomic
  cases hagrees with
  | done hnone => simp [hnone] at hrefused
  | @refused _ reason hsome =>
    rcases hatomic reason _ rfl with hsame | ⟨hfactor, -⟩
    · exact ⟨f, reason, hf, hsame ▸ hexecute⟩
    · cases hfactor

end Factorization

end BasisLU
