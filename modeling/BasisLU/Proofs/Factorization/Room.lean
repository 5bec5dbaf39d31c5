import BasisLU.Proofs.Capacity
import BasisLU.Proofs.Factorization.Invariant

/-!
# Room for a basis

A call that makes room is refused for the size exactly if the space cannot be allocated
(`resize_eq_tooLarge_iff`, `setChainCapacity_eq_tooLarge_iff`), and otherwise has its room
(`MakesRoom`, `refused_or_makesRoom`). No other call changes a size (`Sound.sameRoom_of_perform`).
So the block grows to spaces that were granted only (`Grew`, `Sound.grew_of_perform`), and is never
longer than an array can be (`size_le_of_reaches`). Every column of a basis and of a full chain lies
in it, and so the place of a column is a machine word (`room_exact`).
-/

namespace BasisLU

variable {α : Type}

/-- A call, with the factorization it is made on. -/
structure Call (α : Type) where
  before : Factorization α
  operation : Operation α

/-- The rows, and the capacity of the chain, that the call asks room for. -/
def Call.room? (call : Call α) : Option Capacity :=
  match call.operation with
  | .resize rows _ => some ⟨rows, call.before.config.chainCapacity⟩
  | @Operation.load _ rows _ _ => some ⟨rows, call.before.config.chainCapacity⟩
  | .setChainCapacity capacity => some ⟨call.before.rows, max capacity call.before.updates⟩
  | _ => none

namespace Factorization

variable [Scalar α] {f g : Factorization α} {operation : Operation α} {reply : Reply α}

/-! ## Calls that make room -/

theorem spaceFor_eq_error_iff {rows capacity : Nat} :
    spaceFor α rows capacity = .error (.tooLarge rows capacity) ↔
      Capacity.allocatable? (Scalar.bytes α) ⟨rows, capacity⟩ = none := by
  unfold spaceFor
  split <;> simp [*]

theorem resize_eq_tooLarge_iff {rows : Nat} :
    f.resize rows rows = .error (.tooLarge rows f.config.chainCapacity) ↔
      Capacity.allocatable? (Scalar.bytes α) ⟨rows, f.config.chainCapacity⟩ = none := by
  simp only [resize, bind_eq_error_iff, guard_eq_error_iff, spaceFor_eq_error_iff, pure_ne_error,
    ne_eq, not_true_eq_false, false_and, false_or, and_false, exists_false, or_false,
    not_false_eq_true, true_and]

theorem setChainCapacity_eq_tooLarge_iff {capacity : Nat} :
    f.setChainCapacity capacity = .error (.tooLarge f.rows (max capacity f.updates)) ↔
      Capacity.allocatable? (Scalar.bytes α) ⟨f.rows, max capacity f.updates⟩ = none := by
  simp only [setChainCapacity, bind_eq_error_iff, spaceFor_eq_error_iff, pure_ne_error, and_false,
    exists_false, or_false]

/-- Room that can be allocated is made. -/
theorem exists_resize_iff {rows : Nat} : (∃ g, f.resize rows rows = .ok g) ↔
    ∃ space, Capacity.allocatable? (Scalar.bytes α) ⟨rows, f.config.chainCapacity⟩ =
      some space := by
  simp only [resize_eq_ok_iff, spaceFor_eq_ok_iff, true_and]
  constructor
  · rintro ⟨_, space, hspace, -⟩
    exact ⟨space, hspace⟩
  · rintro ⟨space, hspace⟩
    exact ⟨_, space, hspace, rfl⟩

theorem exists_setChainCapacity_iff {capacity : Nat} :
    (∃ g, f.setChainCapacity capacity = .ok g) ↔
      ∃ space, Capacity.allocatable? (Scalar.bytes α) ⟨f.rows, max capacity f.updates⟩ =
        some space := by
  simp only [setChainCapacity_eq_ok_iff, spaceFor_eq_ok_iff]
  constructor
  · rintro ⟨_, space, hspace, -⟩
    exact ⟨space, hspace⟩
  · rintro ⟨space, hspace⟩
    exact ⟨_, space, hspace, rfl⟩

/-! ## Sizes after a call -/

/-- The length of the block, the most rows, and the rows and the capacity in force are the same. -/
structure SameRoom (f g : Factorization α) : Prop where
  size_eq : g.block.size = f.block.size
  mostRows_eq : g.mostRows = f.mostRows
  rows_eq : g.rows = f.rows
  capacity_eq : g.config.chainCapacity = f.config.chainCapacity

/-- The rows and the capacity are now in force, and there is room for them. -/
structure MakesRoom (c : Capacity) (f g : Factorization α) : Prop where
  granted : spaceFor α c.rows c.updates = .ok c.space
  size_eq : g.block.size = max f.block.size c.space
  mostRows_eq : g.mostRows = max f.mostRows c.rows
  rows_eq : g.rows = c.rows
  capacity_eq : g.config.chainCapacity = c.updates

theorem makesRoom_of_resize {rows columns : Nat} (hg : f.resize rows columns = .ok g) :
    MakesRoom ⟨rows, f.config.chainCapacity⟩ f g := by
  obtain ⟨rfl, space, hspace, rfl⟩ := resize_eq_ok_iff.1 hg
  obtain rfl : space = Capacity.space ⟨rows, f.config.chainCapacity⟩ := eq_of_spaceFor hspace
  exact ⟨hspace, by simp [grow, block_reshape], by simp [grow, mostRows_reshape],
    rows_reshape f rows rows, congrArg Config.chainCapacity (config_reshape f rows rows)⟩

theorem makesRoom_of_setChainCapacity {capacity : Nat} (hg : f.setChainCapacity capacity = .ok g) :
    MakesRoom ⟨f.rows, max capacity f.updates⟩ f g := by
  obtain ⟨space, hspace, rfl⟩ := setChainCapacity_eq_ok_iff.1 hg
  obtain rfl : space = Capacity.space ⟨f.rows, max capacity f.updates⟩ := eq_of_spaceFor hspace
  exact ⟨hspace, by simp [grow], rfl, rfl, rfl⟩

theorem makesRoom_of_load {rows columns : Nat} {a : Fin rows → Fin columns → α}
    (hg : f.load a = .ok g) : MakesRoom ⟨rows, f.config.chainCapacity⟩ f g := by
  obtain ⟨_, sized, block, hsized, hb, rfl⟩ := load_eq_ok_iff.1 hg
  have hroom := makesRoom_of_resize hsized
  exact ⟨hroom.granted, (Block.size_setSquare hb).trans hroom.size_eq, hroom.mostRows_eq,
    hroom.rows_eq, hroom.capacity_eq⟩

omit [Scalar α] in
theorem sameRoom_refl (f : Factorization α) : f.SameRoom f := ⟨rfl, rfl, rfl, rfl⟩

/-- No call but those that ask for room changes a size. -/
theorem Sound.sameRoom_of_perform (h : f.Sound) (hroom : Call.room? ⟨f, operation⟩ = none)
    (hr : operation.perform f = .ok reply) : f.SameRoom reply.factorization := by
  have hsame := sameRoom_refl f
  cases operation with
  | resize rows columns => cases hroom
  | setChainCapacity capacity => cases hroom
  | load a => cases hroom
  | setZeroTolerance value =>
    refine of_settle hsame (fun hg => ?_) hr
    obtain ⟨-, rfl⟩ := setZeroTolerance_eq_ok_iff.1 (liftRefusal_eq_ok_iff.1 hg)
    exact ⟨rfl, rfl, rfl, rfl⟩
  | setPivotTolerance value =>
    refine of_settle hsame (fun hg => ?_) hr
    obtain ⟨-, rfl⟩ := setPivotTolerance_eq_ok_iff.1 (liftRefusal_eq_ok_iff.1 hg)
    exact ⟨rfl, rfl, rfl, rfl⟩
  | setSlack value =>
    cases hr
    exact ⟨rfl, rfl, rfl, rfl⟩
  | loadColumn column values =>
    refine of_settle hsame (fun hg => ?_) hr
    obtain ⟨-, _, block, hb, rfl⟩ := h.loadColumn_eq_ok_iff.1 hg
    exact ⟨Block.size_setColumn hb, rfl, rfl, rfl⟩
  | loadSlack column row =>
    refine of_settle hsame (fun hg => ?_) hr
    obtain ⟨-, -, block, hb, rfl⟩ := h.loadSlack_eq_ok_iff.1 hg
    exact ⟨Block.size_setColumn hb, rfl, rfl, rfl⟩
  | writeColumn column writes =>
    refine of_settle hsame (fun hg => ?_) hr
    obtain ⟨-, _, -, _, -, block, hb, rfl⟩ :=
      h.writeColumn_eq_ok_iff.1 (liftFault_eq_ok_iff.1 hg)
    exact ⟨Block.size_setColumn hb, rfl, rfl, rfl⟩
  | stage starts rowIndices values =>
    refine of_settle hsame (fun hg => ?_) hr
    obtain ⟨-, -, -, -, -, rfl⟩ := stage_eq_ok_iff.1 hg
    exact ⟨Array.size_mapIdx, rfl, rfl, rfl⟩
  | expand =>
    refine of_settle hsame (fun hg => ?_) hr
    obtain ⟨-, block, hb, rfl⟩ := h.expand_eq_ok_iff.1 hg
    exact ⟨size_foldlM_expandColumn _ hb, rfl, rfl, rfl⟩
  | factor =>
    simp only [Operation.perform, bind_eq_ok_iff, pure_eq_ok_iff] at hr
    obtain ⟨⟨g, refusal⟩, hg, rfl⟩ := hr
    obtain ⟨_, -, hinstall, -⟩ := h.factor_eq_ok_iff.1 hg
    obtain ⟨block, _, hb, -, rfl⟩ := install_eq_ok_iff.1 hinstall
    exact ⟨Block.size_setSquare hb, rfl, rfl, rfl⟩
  | replace entering slot pivot =>
    simp only [Operation.perform, bind_eq_ok_iff, pure_eq_ok_iff] at hr
    obtain ⟨settled, hs, rfl⟩ := hr
    have hsettled : f.SameRoom settled.factorization := by
      refine of_settle hsame (fun hg => ?_) hs
      obtain ⟨-, -, -, _, update, -, -, happend⟩ := replace_eq_ok_iff.1 hg
      obtain ⟨block, hb, -, rfl⟩ := h.append_eq_ok_iff.1 happend
      exact ⟨Block.size_setColumn hb, rfl, rfl, rfl⟩
    exact hsettled
  | ftran v => rwa [h.perform_eq_of_isSolve (.ftran v) trivial hr]
  | ftranInPlace v => rwa [h.perform_eq_of_isSolve (.ftranInPlace v) trivial hr]
  | ftranPair v w inPlace => rwa [h.perform_eq_of_isSolve (.ftranPair v w inPlace) trivial hr]
  | btran v => rwa [h.perform_eq_of_isSolve (.btran v) trivial hr]

/-- A call that asks for room gets it, or is refused and changes nothing. -/
theorem refused_or_makesRoom {c : Capacity} (hroom : Call.room? ⟨f, operation⟩ = some c)
    (hr : operation.perform f = .ok reply) :
    (reply.refusal ≠ none ∧ reply.factorization = f) ∨
      (reply.refusal = none ∧ MakesRoom c f reply.factorization) := by
  cases operation with
  | resize rows columns =>
    cases hroom
    exact refused_or_of_settle (fun hg => makesRoom_of_resize (liftRefusal_eq_ok_iff.1 hg)) hr
  | setChainCapacity capacity =>
    cases hroom
    exact refused_or_of_settle
      (fun hg => makesRoom_of_setChainCapacity (liftRefusal_eq_ok_iff.1 hg)) hr
  | load a =>
    cases hroom
    exact refused_or_of_settle makesRoom_of_load hr
  | _ => cases hroom

/-! ## The length of the block -/

/-- The block kept its length, or was grown to the space of the rows and the capacity there are. -/
def Grew (f g : Factorization α) : Prop :=
  g.block.size = f.block.size ∨ ∃ space, spaceFor α g.rows g.config.chainCapacity = .ok space ∧
    g.block.size = max f.block.size space

theorem Sound.grew_of_perform (h : f.Sound) (hr : operation.perform f = .ok reply) :
    f.Grew reply.factorization := by
  cases hroom : Call.room? ⟨f, operation⟩ with
  | none => exact .inl (h.sameRoom_of_perform hroom hr).size_eq
  | some c =>
    rcases refused_or_makesRoom hroom hr with ⟨-, hsame⟩ | ⟨-, hmade⟩
    · exact .inl (congrArg (·.block.size) hsame)
    · refine .inr ⟨c.space, ?_, hmade.size_eq⟩
      rw [hmade.rows_eq, hmade.capacity_eq]
      exact hmade.granted

/-- The block is never longer than an array can be. -/
theorem size_le_of_reaches {config : Config α} (hreach : Reaches (ofConfig config) f) :
    f.block.size ≤ allocationLimit (Scalar.bytes α) := by
  induction hreach with
  | refl => exact Nat.zero_le _
  | tail hreach hs ih =>
    obtain ⟨operation, reply, hr, rfl⟩ := hs
    rcases (sound_of_reaches hreach).grew_of_perform hr with hsame | ⟨space, hspace, hmax⟩
    · rwa [hsame]
    · have hfits := (Capacity.allocatable?_eq_some_iff.1 (spaceFor_eq_ok_iff.1 hspace)).2.1
      rw [hmax]
      exact max_le ih (Capacity.le_allocationLimit_iff.2 hfits)

/-- The space that is computed and granted is that of unbounded numbers (a scalar of no bytes counts
as one of one). Room is refused for its size exactly if it cannot be allocated. And after any calls,
all columns of the basis and of a full chain lie in the block, at places that are machine words. -/
theorem room_exact :
    (∀ c : Capacity, c.rows < wordSize → c.updates < wordSize → ∀ s,
      (c.values? = some s ↔ s = c.space ∧ c.space < wordSize) ∧
      ∀ bytes, c.allocatable? bytes = some s ↔
        s = c.space ∧ s * max bytes 1 ≤ allocationBytes ∧
          positionBytes * c.updates ≤ allocationBytes) ∧
    (∀ (f : Factorization α) (rows : Nat),
      (f.resize rows rows = .error (.tooLarge rows f.config.chainCapacity) ↔
        Capacity.allocatable? (Scalar.bytes α) ⟨rows, f.config.chainCapacity⟩ = none) ∧
      ((∃ g, f.resize rows rows = .ok g) ↔ ∃ space,
        Capacity.allocatable? (Scalar.bytes α) ⟨rows, f.config.chainCapacity⟩ = some space)) ∧
    (∀ (f : Factorization α) (capacity : Nat),
      (f.setChainCapacity capacity = .error (.tooLarge f.rows (max capacity f.updates)) ↔
        Capacity.allocatable? (Scalar.bytes α) ⟨f.rows, max capacity f.updates⟩ = none) ∧
      ((∃ g, f.setChainCapacity capacity = .ok g) ↔ ∃ space,
        Capacity.allocatable? (Scalar.bytes α) ⟨f.rows, max capacity f.updates⟩ = some space)) ∧
    ∀ (config : Config α) (f : Factorization α), Reaches (ofConfig config) f → 0 < f.rows →
      ∀ k < f.columns + f.config.chainCapacity,
        k * f.rows + f.rows < wordSize ∧ k * f.rows + f.rows ≤ f.block.size := by
  refine ⟨fun c _ hupdates s => ⟨Capacity.values?_eq_some_iff hupdates,
    fun bytes => Capacity.allocatable?_eq_some_iff⟩,
    fun f rows => ⟨resize_eq_tooLarge_iff, exists_resize_iff⟩,
    fun f capacity => ⟨setChainCapacity_eq_tooLarge_iff, exists_setChainCapacity_iff⟩,
    fun config f hreach _ k hk => ?_⟩
  have h := sound_of_reaches hreach
  have hcolumn := h.column_le (h.columns_eq ▸ hk)
  refine ⟨?_, hcolumn⟩
  calc k * f.rows + f.rows ≤ f.block.size := hcolumn
    _ ≤ allocationLimit (Scalar.bytes α) := size_le_of_reaches hreach
    _ ≤ allocationBytes := Nat.div_le_self _ _
    _ < wordSize := by decide

/-- A basis of two rows with an update, and room for another. -/
def roomForTwo : List (Operation Float) :=
  [.setChainCapacity 2, .load ![![0, 2], ![1, 0.5]], .factor,
    .replace ⟨#[3, 0.5], [1, 0], .packed⟩ 0 0.5]

/-- The greatest capacity takes no space without rows, and too much with one. -/
theorem room_exact_roomForTwo : ∃ f : Factorization Float,
    initial.run roomForTwo = .ok f ∧ f.updates = 1 ∧
      (Capacity.mk 0 (wordSize - 1)).values? = some 0 ∧
      (Capacity.mk 1 (wordSize - 1)).values? = none ∧
      (∃ reason, f.setChainCapacity (wordSize - 1) = .error reason) ∧
      (∃ g, f.resize 3 3 = .ok g) ∧ 3 * f.rows + f.rows ≤ f.block.size := by
  have hrun : Except.isOk (do
      let f ← initial.run roomForTwo
      if ¬ (f.rows = 2 ∧ f.columns = 2 ∧ f.updates = 1 ∧ f.config.chainCapacity = 2) then
        throw .outOfRange
      return f : Except Fault (Factorization Float)) = true := by
    decide +kernel
  obtain ⟨_, hrun⟩ := exists_eq_ok_of_isOk hrun
  simp only [bind_eq_ok_iff, guard_eq_ok_iff, not_not] at hrun
  obtain ⟨f, hf, ⟨hrows, hcolumns, hupdates, hcapacity⟩, -⟩ := hrun
  have hreach : Reaches (ofConfig Config.initial) f := reaches_of_run hf
  obtain ⟨hspace, hresize, hset, hplaces⟩ := room_exact (α := Float)
  refine ⟨f, hf, hupdates, ?_, ?_, ?_, ?_, ?_⟩
  · exact (hspace ⟨0, wordSize - 1⟩ (by decide) (by decide) 0).1.2 (by decide)
  · refine Option.eq_none_iff_forall_ne_some.2 fun s hs => ?_
    exact absurd ((hspace ⟨1, wordSize - 1⟩ (by decide) (by decide) s).1.1 hs).2 (by decide)
  · refine ⟨_, (hset f (wordSize - 1)).1.2 ?_⟩
    rw [hrows, hupdates]
    decide
  · refine (hresize f 3).2.2 ⟨15, ?_⟩
    rw [hcapacity]
    decide
  · exact (hplaces Config.initial f hreach (by omega) 3 (by omega)).2

end Factorization

end BasisLU
