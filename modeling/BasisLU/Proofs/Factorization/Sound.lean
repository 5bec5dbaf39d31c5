import BasisLU.Proofs.Capacity
import BasisLU.Proofs.Elimination.Steps
import BasisLU.Proofs.RowOrder
import BasisLU.Factorization.Factor
import BasisLU.Factorization.Replace
import BasisLU.Factorization.Staging

/-!
# Sound factorizations

What the fields of a factorization have to do with each other between two calls, for any scalars.
`LaidOut` is what the kernels check: the basis is square, and the block is laid out for its rows.
`Coherent` is about what the buffers hold: the scratch buffer is zero, an update replaced one of the
rows, and factors come with a row order that is a permutation. `Sound` adds that there is room for
the basis and a full chain. A factorization without a basis is sound (`sound_ofConfig`), and each
call keeps it so; a call that sizes the buffers makes a coherent one sound (`Coherent.grow`).
-/

namespace BasisLU.Factorization

variable {α : Type} [Scalar α]

/-- A square basis, with the columns of the block as long as it has rows. -/
structure LaidOut (f : Factorization α) : Prop where
  columns_eq : f.columns = f.rows
  stride_eq : f.stride = f.rows

/-- What the buffers hold fits the status, the rows and the chain. -/
structure Coherent (f : Factorization α) : Prop extends LaidOut f where
  scratch : f.scratch = Array.replicate f.mostRows 0
  size_positionOf : f.order.positionOf.size = f.mostRows
  size_rowAt : f.order.rowAt.size = f.mostRows
  updates_le : f.updates ≤ f.config.chainCapacity
  replaced_lt : ∀ slot < f.updates, ∃ p : Fin f.rows, f.replaced[slot]? = some p.val
  orders : f.status ≠ .unfactored → ∃ σ : Equiv.Perm (Fin f.rows), f.order.Orders σ
  valid : f.status = .valid → f.goodColumns = f.rows
  singular : f.status = .singular → f.goodColumns < f.rows
  unfactored : f.status = .unfactored → f.goodColumns = 0 ∧ f.updates = 0

/-- There is room for the basis and a full chain as well. -/
structure Sound (f : Factorization α) : Prop extends Coherent f where
  rows_le : f.rows ≤ f.mostRows
  room : f.rows * (f.rows + max f.config.chainCapacity ((f.rows + 1) / 2)) ≤ f.block.size
  replaced_room : 0 < f.rows → f.config.chainCapacity ≤ f.replaced.size

theorem sound_ofConfig (config : Config α) : (ofConfig config).Sound where
  columns_eq := rfl
  stride_eq := rfl
  scratch := rfl
  size_positionOf := rfl
  size_rowAt := rfl
  updates_le := Nat.zero_le _
  replaced_lt _ h := absurd h (Nat.not_lt_zero _)
  orders h := absurd rfl h
  valid h := nomatch h
  singular h := nomatch h
  unfactored _ := ⟨rfl, rfl⟩
  rows_le := Nat.le_refl 0
  room := by simp [ofConfig]
  replaced_room h := absurd h (Nat.lt_irrefl 0)

variable {f g : Factorization α}

omit [Scalar α] in
theorem LaidOut.requireLayout_eq (h : f.LaidOut) : f.requireLayout = .ok () := if_pos h.stride_eq

omit [Scalar α] in
/-- Reading a column of a factorization laid out is reading it off the block. -/
theorem LaidOut.column_eq (h : f.LaidOut) (k : Nat) :
    f.column k = Block.column f.rows k f.block := by
  rw [column, h.requireLayout_eq]
  rfl

omit [Scalar α] in
theorem LaidOut.square_eq (h : f.LaidOut) : f.square = Block.square f.rows f.block := by
  rw [square, if_neg (not_not.2 h.columns_eq.symm), h.requireLayout_eq]
  rfl

omit [Scalar α] in
theorem LaidOut.setColumn_eq_ok_iff (h : f.LaidOut) {k : Nat} {values : Vector α f.rows} :
    f.setColumn k values = .ok g ↔
      ∃ block, Block.setColumn k values f.block = .ok block ∧ { f with block := block } = g := by
  simp only [setColumn, h.requireLayout_eq, bind_eq_ok_iff, pure_eq_ok_iff, true_and, exists_const]

theorem Sound.square_le (h : f.Sound) : f.rows * f.rows ≤ f.block.size :=
  (Nat.mul_le_mul_left _ (Nat.le_add_right _ _)).trans h.room

/-- The columns of the square and of a full chain are in the block. -/
theorem Sound.column_le (h : f.Sound) {k : Nat} (hk : k < f.rows + f.config.chainCapacity) :
    k * f.rows + f.rows ≤ f.block.size :=
  calc k * f.rows + f.rows = f.rows * (k + 1) := by rw [Nat.mul_comm, Nat.mul_succ]
    _ ≤ f.rows * (f.rows + max f.config.chainCapacity ((f.rows + 1) / 2)) :=
      Nat.mul_le_mul_left _ (by omega)
    _ ≤ f.block.size := h.room

theorem Sound.exists_orders (h : f.Sound) (hv : f.status = .valid) :
    ∃ σ : Equiv.Perm (Fin f.rows), f.order.Orders σ := h.orders (by simp [hv])

theorem getElem?_take {β : Type} (xs : Array β) (n i : Nat) :
    (xs.take n)[i]? = if i < n then xs[i]? else none := by
  rw [Array.take, Array.getElem?_extract, Nat.zero_add, Nat.sub_zero]
  by_cases hi : i < n
  · rw [if_pos hi]
    split
    · rfl
    · exact (Array.getElem?_eq_none (by omega)).symm
  · rw [if_neg hi, if_neg (by omega)]

omit [Scalar α] in
theorem getElem?_positions {n : Nat} (hrows : f.rows = n) {σ : Equiv.Perm (Fin n)}
    (hσ : f.order.Orders σ) (r : Fin n) : f.positions[r.val]? = some (σ r).val := by
  rw [positions, hrows, getElem?_take, if_pos r.isLt, hσ.positionOf r]

omit [Scalar α] in
theorem getElem?_rowsInOrder {n : Nat} (hrows : f.rows = n) {σ : Equiv.Perm (Fin n)}
    (hσ : f.order.Orders σ) (p : Fin n) : f.rowsInOrder[p.val]? = some (σ.symm p).val := by
  rw [rowsInOrder, hrows, getElem?_take, if_pos p.isLt, hσ.rowAt p]

theorem Sound.size_rowsInOrder (h : f.Sound) : f.rowsInOrder.size = f.rows := by
  have := h.rows_le
  rw [rowsInOrder, Array.take, Array.size_extract, h.size_rowAt]
  omega

theorem Sound.toList_rowsInOrder (h : f.Sound) {n : Nat} (hrows : f.rows = n)
    {σ : Equiv.Perm (Fin n)} (hσ : f.order.Orders σ) :
    f.rowsInOrder.toList = List.ofFn fun p => (σ.symm p).val := by
  subst hrows
  refine List.ext_getElem (by simpa using h.size_rowsInOrder) fun p hp _ => ?_
  have := getElem?_rowsInOrder rfl hσ ⟨p, h.size_rowsInOrder ▸ hp⟩
  rw [List.getElem_ofFn, Array.getElem_toList]
  exact (Array.getElem?_eq_some_iff.1 this).2

/-! ## Sizing and parameters -/

/-- The factors of a basis of the same rows stay, and those of another are given up. -/
theorem Coherent.reshape (h : f.Coherent) (rows : Nat) : (f.reshape rows rows).Coherent := by
  unfold Factorization.reshape
  split
  · obtain ⟨rfl, -⟩ := ‹rows = f.rows ∧ rows = f.columns›
    exact { h with columns_eq := rfl, stride_eq := rfl }
  · exact {
      columns_eq := rfl
      stride_eq := rfl
      scratch := h.scratch
      size_positionOf := h.size_positionOf
      size_rowAt := h.size_rowAt
      updates_le := Nat.zero_le _
      replaced_lt := fun _ hslot => absurd hslot (Nat.not_lt_zero _)
      orders := fun hs => absurd rfl hs
      valid := nofun
      singular := nofun
      unfactored := fun _ => ⟨rfl, rfl⟩ }

theorem spaceFor_eq_ok_iff {rows capacity space : Nat} : spaceFor α rows capacity = .ok space ↔
    Capacity.allocatable? (Scalar.bytes α) ⟨rows, capacity⟩ = some space := by
  unfold spaceFor
  split <;> simp [*]

/-- The space granted is that of the rows and of the columns of a full chain. -/
theorem eq_of_spaceFor {rows capacity space : Nat} (h : spaceFor α rows capacity = .ok space) :
    space = rows * (rows + max capacity ((rows + 1) / 2)) :=
  (Capacity.allocatable?_eq_some_iff.1 (spaceFor_eq_ok_iff.1 h)).1

theorem Coherent.grow (h : f.Coherent) {space : Nat}
    (hs : spaceFor α f.rows f.config.chainCapacity = .ok space) : (f.grow space).Sound where
  columns_eq := h.columns_eq
  stride_eq := h.stride_eq
  scratch := by
    simp only [Factorization.grow, Block.growTo, h.scratch, Array.size_replicate,
      Array.replicate_append_replicate]
    congr 1
    omega
  size_positionOf := by
    simp only [Factorization.grow, RowOrder.growTo, Block.size_growTo, h.size_positionOf]
    omega
  size_rowAt := by
    simp only [Factorization.grow, RowOrder.growTo, Block.size_growTo, h.size_rowAt]
    omega
  updates_le := h.updates_le
  replaced_lt slot hslot := by
    obtain ⟨p, hp⟩ := h.replaced_lt slot hslot
    exact ⟨p, (Block.getElem?_growTo (Array.getElem?_eq_some_iff.1 hp).1 _ _).trans hp⟩
  orders hstatus := by
    obtain ⟨σ, hσ⟩ := h.orders hstatus
    exact ⟨σ, hσ.growTo _⟩
  valid := h.valid
  singular := h.singular
  unfactored := h.unfactored
  rows_le := Nat.le_max_right _ _
  room := by
    simp only [Factorization.grow, Block.size_growTo, eq_of_spaceFor hs]
    omega
  replaced_room _ := by
    simp only [Factorization.grow, Block.size_growTo]
    omega

theorem resize_eq_ok_iff {rows columns : Nat} : f.resize rows columns = .ok g ↔
    rows = columns ∧ ∃ space, spaceFor α rows f.config.chainCapacity = .ok space ∧
      (f.reshape rows columns).grow space = g := by
  simp only [resize, guard_eq_ok_iff, bind_eq_ok_iff, pure_eq_ok_iff, ne_eq, not_not]

omit [Scalar α] in
@[simp] theorem config_reshape (f : Factorization α) (rows columns : Nat) :
    (f.reshape rows columns).config = f.config := by
  unfold reshape; split <;> rfl

omit [Scalar α] in
@[simp] theorem rows_reshape (f : Factorization α) (rows columns : Nat) :
    (f.reshape rows columns).rows = rows := by
  unfold reshape; split <;> rfl

omit [Scalar α] in
theorem block_reshape (f : Factorization α) (rows columns : Nat) :
    (f.reshape rows columns).block = f.block := by
  unfold reshape; split <;> rfl

omit [Scalar α] in
theorem mostRows_reshape (f : Factorization α) (rows columns : Nat) :
    (f.reshape rows columns).mostRows = f.mostRows := by
  unfold reshape; split <;> rfl

theorem rows_of_resize {rows columns : Nat} (hg : f.resize rows columns = .ok g) :
    g.rows = rows := by
  obtain ⟨-, space, -, rfl⟩ := resize_eq_ok_iff.1 hg
  exact rows_reshape f rows columns

theorem Sound.resize (h : f.Sound) {rows columns : Nat} (hg : f.resize rows columns = .ok g) :
    g.Sound := by
  obtain ⟨rfl, space, hspace, rfl⟩ := resize_eq_ok_iff.1 hg
  exact (h.reshape rows).grow (by rwa [rows_reshape, config_reshape])

theorem setChainCapacity_eq_ok_iff {capacity : Nat} : f.setChainCapacity capacity = .ok g ↔
    ∃ space, spaceFor α f.rows (max capacity f.updates) = .ok space ∧
      { f with config := { f.config with chainCapacity := max capacity f.updates } }.grow space =
        g := by
  simp only [setChainCapacity, bind_eq_ok_iff, pure_eq_ok_iff]

theorem setZeroTolerance_eq_ok_iff {value : α} : f.setZeroTolerance value = .ok g ↔
    Config.IsZeroTolerance value ∧
      { f with config := { f.config with zeroTolerance := value } } = g := by
  simp only [setZeroTolerance, Config.requireZeroTolerance, bind_eq_ok_iff,
    Config.require_eq_ok_iff, pure_eq_ok_iff, exists_const]

theorem setPivotTolerance_eq_ok_iff {value : α} : f.setPivotTolerance value = .ok g ↔
    Config.IsPivotTolerance value ∧
      { f with config := { f.config with pivotTolerance := value } } = g := by
  simp only [setPivotTolerance, Config.requirePivotTolerance, bind_eq_ok_iff,
    Config.require_eq_ok_iff, pure_eq_ok_iff, exists_const]

theorem Sound.setChainCapacity (h : f.Sound) {capacity : Nat}
    (hg : f.setChainCapacity capacity = .ok g) : g.Sound := by
  obtain ⟨space, hspace, rfl⟩ := setChainCapacity_eq_ok_iff.1 hg
  have hcoherent : Coherent
      { f with config := { f.config with chainCapacity := max capacity f.updates } } :=
    { h.toCoherent with updates_le := Nat.le_max_right _ _ }
  exact hcoherent.grow hspace

/-- Only the capacity matters of the parameters. -/
theorem Sound.withConfig (h : f.Sound) {config : Config α}
    (hc : config.chainCapacity = f.config.chainCapacity) : { f with config := config }.Sound :=
  { h with
    updates_le := hc ▸ h.updates_le
    room := by simpa only [hc] using h.room
    replaced_room := by simpa only [hc] using h.replaced_room }

theorem Sound.setZeroTolerance (h : f.Sound) {value : α} (hg : f.setZeroTolerance value = .ok g) :
    g.Sound := by
  obtain ⟨-, rfl⟩ := setZeroTolerance_eq_ok_iff.1 hg
  exact h.withConfig rfl

theorem Sound.setPivotTolerance (h : f.Sound) {value : α}
    (hg : f.setPivotTolerance value = .ok g) : g.Sound := by
  obtain ⟨-, rfl⟩ := setPivotTolerance_eq_ok_iff.1 hg
  exact h.withConfig rfl

theorem Sound.setSlack (h : f.Sound) (value : α) : (f.setSlack value).Sound := h.withConfig rfl

/-! ## Loading and staging -/

/-- Values of the block are free. -/
theorem Sound.withBlock (h : f.Sound) {block : Array α} (hb : block.size = f.block.size)
    (staged : Staged) : { f with block := block, staged := staged }.Sound :=
  { h with room := hb ▸ h.room }

omit [Scalar α] in
theorem LaidOut.loadColumn_eq_ok_iff (h : f.LaidOut) {k : Nat} {values : Array α} :
    f.loadColumn k values = .ok g ↔ k < f.rows ∧ ∃ (h : values.size = f.rows) (block : Array α),
      Block.setColumn k ⟨values, h⟩ f.block = .ok block ∧ { f with block := block } = g := by
  simp only [loadColumn, checkColumn, bind_eq_ok_iff, liftFault_eq_ok_iff, liftRefusal_eq_ok_iff,
    dite_throw_eq_ok_iff, ite_error_eq_ok_iff, h.setColumn_eq_ok_iff, h.columns_eq, and_true,
    exists_const]

omit [Scalar α] in
theorem checkRow_eq_ok_iff {row : Nat} {u : Unit} : f.checkRow row = .ok u ↔ row < f.rows := by
  unfold checkRow
  split
  · simp [*]
  · split <;> simp [*]

theorem LaidOut.loadSlack_eq_ok_iff (h : f.LaidOut) {k row : Nat} : f.loadSlack k row = .ok g ↔
    k < f.rows ∧ row < f.rows ∧ ∃ block : Array α,
      Block.setColumn k (Vector.ofFn fun i : Fin f.rows => if i = row then f.config.slack else 0)
        f.block = .ok block ∧ { f with block := block } = g := by
  simp only [loadSlack, checkColumn, checkRow_eq_ok_iff, bind_eq_ok_iff, liftFault_eq_ok_iff,
    liftRefusal_eq_ok_iff, ite_error_eq_ok_iff, h.setColumn_eq_ok_iff, h.columns_eq, and_true,
    exists_const]

omit [Scalar α] in
theorem LaidOut.writeColumn_eq_ok_iff (h : f.LaidOut) {k : Nat} {writes : List (Nat × α)} :
    f.writeColumn k writes = .ok g ↔ k < f.rows ∧ ∃ current, f.column k = .ok current ∧
      ∃ placed, locate f.rows writes = .ok placed ∧ ∃ block : Array α,
        Block.setColumn k (scatter placed current) f.block = .ok block ∧
          { f with block := block } = g := by
  have hcolumns : f.columns ≤ k ↔ f.rows ≤ k := by rw [h.columns_eq]
  simp only [writeColumn, guard_eq_ok_iff, bind_eq_ok_iff, h.setColumn_eq_ok_iff, hcolumns,
    Nat.not_le]

theorem load_eq_ok_iff {rows columns : Nat} {a : Fin rows → Fin columns → α} :
    f.load a = .ok g ↔ ∃ (h : rows = columns) (sized : Factorization α) (block : Array α),
      f.resize rows columns = .ok sized ∧
      Block.setSquare (Vector.ofFn fun k => Vector.ofFn fun i => a i (k.cast h)) sized.block =
        .ok block ∧ { sized with block := block } = g := by
  simp only [load, dite_throw_eq_ok_iff, bind_eq_ok_iff, liftFault_eq_ok_iff,
    liftRefusal_eq_ok_iff, pure_eq_ok_iff, exists_and_left]

/-- A matrix loaded is the square at the front of the block. -/
theorem square_of_load {n : Nat} {a : Fin n → Fin n → α} (hg : f.load a = .ok g) :
    g.rows = n ∧ g.config = f.config ∧
      Block.square n g.block = .ok (Vector.ofFn fun k => Vector.ofFn fun i => a i k) := by
  obtain ⟨_, sized, block, hsized, hblock, rfl⟩ := load_eq_ok_iff.1 hg
  obtain ⟨-, space, -, rfl⟩ := resize_eq_ok_iff.1 hsized
  exact ⟨rows_reshape f n n, config_reshape f n n, Block.square_setSquare hblock⟩

theorem column_of_load {n : Nat} {a : Fin n → Fin n → α} (hg : f.load a = .ok g) (k : Fin n) :
    Block.column n k g.block = .ok (Vector.ofFn fun i => a i k) := by
  rw [Block.column_of_square (square_of_load hg).2.2 k.isLt]
  simp

theorem Sound.exists_setColumn (h : f.Sound) {k : Nat} (hk : k < f.rows)
    (values : Vector α f.rows) : ∃ block, Block.setColumn k values f.block = .ok block :=
  Block.setColumn_of_le (h.column_le (by omega))

theorem Sound.loadColumn (h : f.Sound) {k : Nat} {values : Array α}
    (hg : f.loadColumn k values = .ok g) : g.Sound := by
  obtain ⟨-, _, block, hb, rfl⟩ := h.loadColumn_eq_ok_iff.1 hg
  exact h.withBlock (Block.size_setColumn hb) f.staged

theorem Sound.loadSlack (h : f.Sound) {k row : Nat} (hg : f.loadSlack k row = .ok g) :
    g.Sound := by
  obtain ⟨-, -, block, hb, rfl⟩ := h.loadSlack_eq_ok_iff.1 hg
  exact h.withBlock (Block.size_setColumn hb) f.staged

theorem Sound.load (h : f.Sound) {rows columns : Nat} {a : Fin rows → Fin columns → α}
    (hg : f.load a = .ok g) : g.Sound := by
  obtain ⟨_, sized, block, hsized, hb, rfl⟩ := load_eq_ok_iff.1 hg
  exact (h.resize hsized).withBlock (Block.size_setSquare hb) sized.staged

theorem Sound.writeColumn (h : f.Sound) {k : Nat} {writes : List (Nat × α)}
    (hg : f.writeColumn k writes = .ok g) : g.Sound := by
  obtain ⟨-, _, -, _, -, block, hb, rfl⟩ := h.writeColumn_eq_ok_iff.1 hg
  exact h.withBlock (Block.size_setColumn hb) f.staged

theorem Sound.stage (h : f.Sound) {starts rows : Array Nat} {values : Array α}
    (hg : f.stage starts rows values = .ok g) : g.Sound := by
  simp only [Factorization.stage, guard_eq_ok_iff, bind_eq_ok_iff, liftFault_eq_ok_iff,
    pure_eq_ok_iff] at hg
  obtain ⟨-, -, -, -, -, -, -, -, rfl⟩ := hg
  exact h.withBlock Array.size_mapIdx _

theorem size_expandColumn {n i : Nat} {staged : Staged} {block block' : Array α}
    (h : expandColumn n staged block i = .ok block') : block'.size = block.size := by
  simp only [expandColumn, bind_eq_ok_iff, guard_eq_ok_iff] at h
  obtain ⟨_, -, _, -, -, _, -, hb⟩ := h
  exact Block.size_setColumn hb

theorem size_foldlM_expandColumn {n : Nat} {staged : Staged} :
    ∀ (l : List Nat) {block block' : Array α},
      l.foldlM (expandColumn n staged) block = .ok block' → block'.size = block.size
  | [], _, _, h => by cases h; rfl
  | i :: l, _, _, h => by
    rw [List.foldlM_cons, bind_eq_ok_iff] at h
    obtain ⟨block, hi, hl⟩ := h
    rw [size_foldlM_expandColumn l hl, size_expandColumn hi]

omit [Scalar α] in
/-- Zeros written to a buffer of zeros. -/
theorem setColumn_replicate {n size : Nat} {a : α} {buffer : Array α}
    (h : Block.setColumn 0 (Vector.replicate n a) (Array.replicate size a) = .ok buffer) :
    buffer = Array.replicate size a := by
  have hsize := Block.size_setColumn h
  have hn := Block.le_of_setColumn h
  rw [Block.setColumn, if_pos hn] at h
  cases h
  ext i hi hi'
  · simp
  · simp

theorem Sound.setColumn_scratch (h : f.Sound) :
    Block.setColumn 0 (Vector.replicate f.rows (0 : α)) f.scratch = .ok f.scratch := by
  obtain ⟨scratch, hscratch⟩ : ∃ scratch,
      Block.setColumn 0 (Vector.replicate f.rows (0 : α)) f.scratch = .ok scratch :=
    Block.setColumn_of_le (by simpa [h.scratch] using h.rows_le)
  have hzeros := hscratch
  rw [h.scratch] at hzeros
  rw [hscratch, setColumn_replicate hzeros, ← h.scratch]

/-- Expanding changes the block, and takes what was staged. -/
theorem Sound.expand_eq_ok_iff (h : f.Sound) : f.expand = .ok g ↔
    f.staged.starts.size = f.columns + 1 ∧ ∃ block,
      expandBlock f.rows f.columns f.staged f.block = .ok block ∧
        { f with block := block, staged := ⟨#[], #[]⟩ } = g := by
  simp only [Factorization.expand, guard_eq_ok_iff, bind_eq_ok_iff, liftFault_eq_ok_iff,
    pure_eq_ok_iff, h.requireLayout_eq, h.setColumn_scratch, Except.ok.injEq, exists_eq_left',
    ne_eq, not_not, exists_const, true_and]

theorem Sound.expand (h : f.Sound) (hg : f.expand = .ok g) : g.Sound := by
  obtain ⟨-, block, hblock, rfl⟩ := h.expand_eq_ok_iff.1 hg
  exact h.withBlock (size_foldlM_expandColumn _ hblock) ⟨#[], #[]⟩

/-! ## Factoring and replacing -/

omit [Scalar α] in
theorem install_eq_ok_iff {e : Elimination α f.rows} : f.install e = .ok g ↔
    ∃ block order, Block.setSquare e.columns f.block = .ok block ∧
      f.order.assign e.rowAt = .ok order ∧
      { f with
        block := block
        order := order
        status := if e.good = f.rows then .valid else .singular
        goodColumns := e.good
        updates := 0 } = g := by
  simp only [install, bind_eq_ok_iff, pure_eq_ok_iff, exists_and_left]

omit [Scalar α] in
/-- An elimination of every column makes a valid factorization, any other a singular one. -/
theorem status_of_install {e : Elimination α f.rows} (hg : f.install e = .ok g) :
    g.goodColumns = e.good ∧ (g.status = if e.good = f.rows then .valid else .singular) ∧
      g.singularity? = if e.good = f.rows then none else some (.singular e.good f.rows) := by
  obtain ⟨block, order, -, -, rfl⟩ := install_eq_ok_iff.1 hg
  refine ⟨rfl, rfl, ?_⟩
  simp only [singularity?]
  split <;> simp

theorem LaidOut.factor_eq_ok_iff (h : f.LaidOut) {refusal : Option Refusal} :
    f.factor = .ok (g, refusal) ↔
    ∃ columns, Block.square f.rows f.block = .ok columns ∧
      f.install (eliminate f.config.zeroTolerance columns) = .ok g ∧ g.singularity? = refusal := by
  simp only [factor, h.square_eq, bind_eq_ok_iff, pure_eq_ok_iff, Prod.mk.injEq]
  refine exists_congr fun columns => and_congr_right fun _ => ?_
  constructor
  · intro h
    obtain ⟨_, hi, rfl, hr⟩ := h
    exact ⟨hi, hr⟩
  · intro h
    obtain ⟨hi, hr⟩ := h
    exact ⟨g, hi, rfl, hr⟩

/-- The rows that elimination puts at the positions, as a permutation. -/
theorem exists_perm_eliminate {n : Nat} (tolerance : α) (A : Square α n) :
    ∃ σ : Equiv.Perm (Fin n), ∀ p, (eliminate tolerance A).rowAt.get p = σ.symm p :=
  ⟨(Equiv.ofBijective _ (Finite.injective_iff_bijective.1
    (Elimination.rowAt_eliminate_injective tolerance A))).symm, fun _ => rfl⟩

theorem Sound.install (h : f.Sound) (columns : Square α f.rows)
    (hg : f.install (eliminate f.config.zeroTolerance columns) = .ok g) : g.Sound := by
  obtain ⟨block, order, hblock, horder, rfl⟩ := install_eq_ok_iff.1 hg
  obtain ⟨σ, hσ⟩ := exists_perm_eliminate f.config.zeroTolerance columns
  have hgood := Elimination.good_eliminate_le f.config.zeroTolerance columns
  have hsize := RowOrder.size_assign horder
  refine { h.withBlock (Block.size_setSquare hblock) f.staged with
    size_positionOf := hsize.2.trans h.size_positionOf
    size_rowAt := hsize.1.trans h.size_rowAt
    updates_le := Nat.zero_le _
    replaced_lt := fun _ hslot => absurd hslot (Nat.not_lt_zero _)
    orders := fun _ => ⟨σ, RowOrder.orders_assign hσ horder⟩
    valid := fun hs => ?_
    singular := fun hs => ?_
    unfactored := fun hs => ?_ }
  · dsimp only at hs ⊢
    split at hs
    · assumption
    · cases hs
  · dsimp only at hs ⊢
    split at hs
    · cases hs
    · omega
  · dsimp only at hs
    split at hs <;> cases hs

theorem Sound.factor (h : f.Sound) {refusal : Option Refusal} (hg : f.factor = .ok (g, refusal)) :
    g.Sound := by
  obtain ⟨columns, -, hi, -⟩ := h.factor_eq_ok_iff.1 hg
  exact h.install columns hi

theorem Sound.exists_install (h : f.Sound) (e : Elimination α f.rows) :
    ∃ g, f.install e = .ok g := by
  obtain ⟨block, hblock⟩ : ∃ block, Block.setSquare e.columns f.block = .ok block :=
    Block.setSquare_of_le h.square_le
  obtain ⟨order, horder⟩ := RowOrder.assign_of_le e.rowAt (h.size_rowAt ▸ h.rows_le)
    (h.size_positionOf ▸ h.rows_le)
  exact ⟨_, install_eq_ok_iff.2 ⟨block, order, hblock, horder, rfl⟩⟩

omit [Scalar α] in
theorem LaidOut.append_eq_ok_iff (h : f.LaidOut) {update : Update α f.rows} :
    f.append update = .ok g ↔
    ∃ block, Block.setColumn (f.rows + f.updates) update.column f.block = .ok block ∧
      f.updates < f.replaced.size ∧
      { f with
        block := block
        replaced := f.replaced.setIfInBounds f.updates update.pivot
        updates := f.updates + 1 } = g := by
  simp only [append, h.requireLayout_eq, h.columns_eq, bind_eq_ok_iff, guard_eq_ok_iff,
    pure_eq_ok_iff, Nat.not_le, true_and, exists_const]

theorem replace_eq_ok_iff {d : IndexedVector α} {slot : Nat} {pivot : α} :
    f.replace d slot pivot = .ok g ↔
      f.status = .valid ∧ f.updates < f.config.chainCapacity ∧
      ¬ Scalar.magnitude pivot ≤ f.config.zeroTolerance ∧
      ∃ entries update, d.entries = .ok entries ∧ f.newUpdate entries slot pivot = .ok update ∧
        f.append update = .ok g := by
  simp only [replace, requireValid, bind_eq_ok_iff, liftFault_eq_ok_iff, guard_eq_ok_iff,
    ite_error_eq_ok_iff, Status.isValid_iff, and_true, exists_const, Nat.not_le, exists_and_left]

theorem Sound.append (h : f.Sound) (hvalid : f.status = .valid)
    (hroom : f.updates < f.config.chainCapacity) {update : Update α f.rows}
    (hg : f.append update = .ok g) : g.Sound := by
  obtain ⟨block, hblock, hreplaced, rfl⟩ := h.append_eq_ok_iff.1 hg
  refine { h.withBlock (Block.size_setColumn hblock) f.staged with
    updates_le := hroom
    replaced_lt := fun slot hslot => ?_
    unfactored := fun hs => nomatch hvalid.symm.trans hs
    replaced_room := by simpa using h.replaced_room }
  rw [Array.getElem?_setIfInBounds, if_pos hreplaced]
  split
  · exact ⟨update.pivot, rfl⟩
  · exact h.replaced_lt slot (by change slot < f.updates + 1 at hslot; omega)

theorem Sound.replace (h : f.Sound) {d : IndexedVector α} {slot : Nat} {pivot : α}
    (hg : f.replace d slot pivot = .ok g) : g.Sound := by
  obtain ⟨hvalid, hroom, -, _, update, -, -, happend⟩ := replace_eq_ok_iff.1 hg
  exact h.append hvalid hroom happend

end BasisLU.Factorization
