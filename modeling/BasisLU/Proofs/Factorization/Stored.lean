import BasisLU.Proofs.Factorization.Solving
import BasisLU.Proofs.Factors

/-!
# The basis that a factorization stands for

`Stores` says which factors and updates the block holds, and in which row order; the solves run on
them (`Stores.factors_eq_ok`). Over exact scalars, a valid factorization `Represents` the matrix in
slot order whose rows and columns, put in the order of positions, are the product of the factors
stored. Factoring and replacing a column give a representation of the matrix they should
(`Sound.represents_of_factor`, `Represents.replace`), and the solves solve for the matrix
represented (`Represents.ftran`, `Represents.btran`).
-/

namespace BasisLU.Factorization

/-- The block holds the factors and updates of `F`, for rows in the order `σ`. -/
structure Stores {α : Type} {n : Nat} (f : Factorization α) (σ : Equiv.Perm (Fin n))
    (F : Factors α n) : Prop where
  rows_eq : f.rows = n
  orders : f.order.Orders σ
  columns : Block.square n f.block = .ok F.columns
  length_eq : F.updates.length = f.updates
  update_eq : ∀ slot u, F.updates[slot]? = some u →
    Block.column n (n + slot) f.block = .ok u.column ∧ f.replaced[slot]? = some u.pivot.val

/-- A square whose columns are those of a matrix. -/
theorem matrix_eq_of_columns {α : Type} {n : Nat} {block : Array α} {columns : Square α n}
    {A : Matrix (Fin n) (Fin n) α} (hsquare : Block.square n block = .ok columns)
    (hA : ∀ k : Fin n, Block.column n k block = .ok (Vector.ofFn fun i => A i k)) :
    columns.matrix = A := by
  ext i k
  have hcolumn : columns.get k = Vector.ofFn fun i => A i k :=
    Except.ok.inj ((Block.column_of_square hsquare k.isLt).symm.trans (hA k))
  rw [Square.matrix, Matrix.of_apply, hcolumn]
  simp

section Stores

variable {α : Type} {f g : Factorization α} {σ : Equiv.Perm (Fin f.rows)} {F : Factors α f.rows}

theorem Stores.factors_eq_ok (h : f.Stores σ F) (hf : f.LaidOut) : f.factors = .ok F := by
  have hupdates : (List.range f.updates).mapM f.update = .ok F.updates := by
    rw [mapM_eq_ok_iff, List.forall₂_iff_get]
    refine ⟨by rw [List.length_range, h.length_eq], fun slot _ hslot => ?_⟩
    obtain ⟨hcolumn, hpivot⟩ := h.update_eq slot _ (List.getElem?_eq_getElem hslot)
    simp only [List.get_eq_getElem, List.getElem_range, update, hf.column_eq, hf.columns_eq,
      bind_eq_ok_iff, pure_eq_ok_iff]
    exact ⟨_, hcolumn, _, Fault.read_eq_ok_iff.2 hpivot, _, Fault.below_of_lt (Fin.isLt _), rfl⟩
  simp only [factors, hf.square_eq, bind_eq_ok_iff, pure_eq_ok_iff]
  exact ⟨_, h.columns, _, hupdates, rfl⟩

/-- Appending an update stores it after the others. -/
theorem Stores.append (h : f.Stores σ F) (hf : f.LaidOut) {u : Update α f.rows}
    (hg : f.append u = .ok g) : g.Stores σ ⟨F.columns, F.updates ++ [u]⟩ := by
  obtain ⟨block, hblock, hroom, rfl⟩ := hf.append_eq_ok_iff.1 hg
  refine {
    rows_eq := rfl
    orders := h.orders
    columns := Block.square_setColumn_of_le hblock (Nat.le_add_right _ _) h.columns
    length_eq := by simp [h.length_eq]
    update_eq := fun slot u' hu' => ?_ }
  have hlen := h.length_eq
  rcases Nat.lt_trichotomy slot f.updates with hslot | rfl | hslot
  · rw [List.getElem?_append_left (show slot < F.updates.length by omega)] at hu'
    obtain ⟨hcolumn, hpivot⟩ := h.update_eq slot u' hu'
    refine ⟨?_, ?_⟩
    · rw [Block.column_setColumn_of_ne hblock (show f.rows + slot ≠ f.rows + f.updates by omega),
        hcolumn]
    · simp only
      rw [Array.getElem?_setIfInBounds_ne (show f.updates ≠ slot by omega), hpivot]
  · rw [← hlen, List.getElem?_concat_length] at hu'
    cases hu'
    refine ⟨Block.column_setColumn hblock, ?_⟩
    simp only
    rw [Array.getElem?_setIfInBounds_self_of_lt (by omega)]
  · rw [List.getElem?_eq_none (by simp; omega)] at hu'
    cases hu'

/-- Factoring stores what elimination leaves. -/
theorem Stores.of_install {e : Elimination α f.rows} (hσ : ∀ p, e.rowAt.get p = σ.symm p)
    (hg : f.install e = .ok g) : g.Stores σ ⟨e.columns, []⟩ := by
  obtain ⟨block, order, hblock, horder, rfl⟩ := install_eq_ok_iff.1 hg
  exact {
    rows_eq := rfl
    orders := RowOrder.orders_assign hσ horder
    columns := Block.square_setSquare hblock
    length_eq := rfl
    update_eq := nofun }

end Stores

section Reading

variable {α : Type} [Scalar α] {f : Factorization α}

/-- The factors and updates of a sound factorization can be read, whatever they are. -/
theorem Sound.exists_factors (h : f.Sound) : ∃ F, f.factors = .ok F := by
  obtain ⟨columns, hsquare⟩ := Block.square_of_le h.square_le
  obtain ⟨updates, hupdates⟩ : ∃ updates, (List.range f.updates).mapM f.update = .ok updates := by
    refine exists_mapM_eq_ok fun slot hslot => ?_
    have hslot := List.mem_range.1 hslot
    obtain ⟨p, hp⟩ := h.replaced_lt slot hslot
    have hroom := h.updates_le
    obtain ⟨column, hcolumn⟩ :=
      Block.column_of_le (h.column_le (show f.rows + slot < _ by omega))
    simp only [update, h.column_eq, h.columns_eq, bind_eq_ok_iff, pure_eq_ok_iff]
    exact ⟨_, column, hcolumn, _, Fault.read_eq_ok_iff.2 hp, p, Fault.below_of_lt p.isLt, rfl⟩
  simp only [factors, h.square_eq, bind_eq_ok_iff, pure_eq_ok_iff]
  exact ⟨_, columns, hsquare, updates, hupdates, rfl⟩

/-- The update for a tidy vector: its values in the order of positions, and the reciprocal of the
pivot at the position of the slot. -/
theorem newUpdate_eq {σ : Equiv.Perm (Fin f.rows)} (hσ : f.order.Orders σ)
    {d : IndexedVector α} (hd : d.Tidy f.rows) {entries : List (Nat × α)}
    (hentries : d.entries = .ok entries) (slot : Nat) (pivot : α) :
    f.newUpdate entries slot pivot = (do
      let p ← f.position slot
      return ⟨p, (Vector.ofFn fun q => d.valueAt (σ.symm q)).set p (1 / pivot) p.isLt⟩) := by
  obtain ⟨rows, hrows⟩ := IndexedVector.exists_rows hd.lt
  obtain ⟨-, rfl⟩ := (IndexedVector.entries_eq_ok_iff hd.nodup).1 hentries
  have hplaced := locateRows_map hσ rows d.valueAt
  rw [newUpdate, hrows, List.map_map,
    show f.locateRows (rows.map ((fun i => (i, d.valueAt i)) ∘ Fin.val)) =
      .ok (rows.map fun r => (σ r, d.valueAt r)) from hplaced]
  refine congrArg (f.position slot >>= ·) (funext fun p => ?_)
  rw [scatter_append, scatter_rows σ hd hrows]
  rfl

end Reading

open Matrix

variable {α : Type} [ExactScalar α]

/-- The matrix, in slot order, that a valid factorization stands for. -/
structure Represents {n : Nat} (f : Factorization α) (tolerance : α)
    (B : Matrix (Fin n) (Fin n) α) : Prop where
  sound : f.Sound
  valid : f.status = .valid
  tolerance_eq : f.config.zeroTolerance = tolerance
  stored : ∃ (σ : Equiv.Perm (Fin n)) (F : Factors α n),
    f.Stores σ F ∧ F.Regular ∧ B.submatrix σ.symm σ.symm = F.matrix

section Represents

variable {f g : Factorization α}

/-- A factored matrix is represented with its columns in the order of the rows they were pivoted
on. -/
theorem Sound.represents_of_factor (h : f.Sound) (htol : 0 ≤ f.config.zeroTolerance)
    {columns : Square α f.rows} (hcolumns : Block.square f.rows f.block = .ok columns)
    (hg : f.factor = .ok (g, none)) :
    ∃ σ : Equiv.Perm (Fin f.rows), g.order.Orders σ ∧
      g.Represents f.config.zeroTolerance (columns.matrix.submatrix id σ) := by
  obtain ⟨columns', hcolumns', hi, hnone⟩ := h.factor_eq_ok_iff.1 hg
  cases hcolumns.symm.trans hcolumns'
  obtain ⟨σ, hσ⟩ := exists_perm_eliminate f.config.zeroTolerance columns
  have hstored := Stores.of_install hσ hi
  obtain ⟨-, hstatus, hsingularity⟩ := status_of_install hi
  have hfactored := Elimination.factored_eliminate htol columns
  have hgood : (eliminate f.config.zeroTolerance columns).good = f.rows := by
    by_contra hne
    rw [hsingularity, if_neg hne] at hnone
    cases hnone
  rw [if_pos hgood] at hstatus
  refine ⟨σ, hstored.orders, h.factor hg, hstatus, ?_, σ, _, hstored, ⟨fun i => ?_, nofun⟩, ?_⟩
  · obtain ⟨block, order, -, -, rfl⟩ := install_eq_ok_iff.1 hi
    rfl
  · exact hfactored.pivot_ne_zero i (by omega)
  · have hrows : (eliminate f.config.zeroTolerance columns).rowAt.get = σ.symm := funext hσ
    have := hfactored.submatrix_eq hgood
    rw [hrows] at this
    rw [Factors.matrix, List.map_nil, List.prod_nil, Matrix.mul_one, ← this, submatrix_submatrix]
    congr 1
    exact funext fun p => σ.apply_symm_apply p

/-- The columns of the block factored are represented in the order of the rows they were pivoted
on. -/
theorem Sound.represents_of_columns {n : Nat} (h : f.Sound) (htol : 0 ≤ f.config.zeroTolerance)
    (hn : f.rows = n) {A : Matrix (Fin n) (Fin n) α}
    (hA : ∀ k : Fin n, Block.column n k f.block = .ok (Vector.ofFn fun i => A i k))
    (hg : f.factor = .ok (g, none)) :
    ∃ σ : Equiv.Perm (Fin n), g.rows = n ∧ g.order.Orders σ ∧
      g.Represents f.config.zeroTolerance (A.submatrix id σ) := by
  subst hn
  obtain ⟨columns, hsquare⟩ := Block.square_of_le h.square_le
  obtain ⟨σ, hσ, hrep⟩ := h.represents_of_factor htol hsquare hg
  obtain ⟨_, _, hstored, -, -⟩ := hrep.stored
  exact ⟨σ, hstored.rows_eq, hσ, matrix_eq_of_columns hsquare hA ▸ hrep⟩

variable {σ : Equiv.Perm (Fin f.rows)}

/-- The update for a proper vector: its values in the order of positions, and the reciprocal of the
pivot in its place. -/
theorem newUpdate_eq_ok (hσ : f.order.Orders σ) {d : IndexedVector α} (hd : d.Proper f.rows)
    {entries : List (Nat × α)} (hentries : d.entries = .ok entries) (r : Fin f.rows) (pivot : α) :
    f.newUpdate entries r pivot = .ok ⟨σ r,
      (Vector.ofFn fun p => d.values f.rows (σ.symm p)).set (σ r) (1 / pivot)⟩ := by
  rw [newUpdate_eq hσ hd.tidy hentries, show f.position r = .ok (σ r) from hσ.position r]
  rfl

/-- The eta matrix of that update has the values of the vector, and the pivot in its place. -/
theorem matrix_update {n : Nat} (σ : Equiv.Perm (Fin n)) (d : Fin n → α) (r : Fin n) (pivot : α) :
    Update.matrix ⟨σ r, (Vector.ofFn fun p => d (σ.symm p)).set (σ r) (1 / pivot)⟩ =
      eta (σ r) (Function.update d r pivot ∘ σ.symm) := by
  rw [Update.matrix]
  congr 1
  ext q
  simp only [Function.update_apply, Function.comp_apply, σ.symm_apply_eq, get_set]
  split
  · simp
  · simp

/-- Replacing a column replaces that column of the matrix represented. -/
theorem Represents.replace {n : Nat} {tolerance : α} (htol : 0 ≤ tolerance)
    {B : Matrix (Fin n) (Fin n) α} (h : f.Represents tolerance B) {d : IndexedVector α}
    (hd : d.Proper n) (r : Fin n) {pivot : α} (hg : f.replace d r pivot = .ok g) :
    g.Represents tolerance
      (B.updateCol r (B *ᵥ Function.update (d.values n) r pivot)) := by
  obtain ⟨σ, F, hstored, hregular, hmatrix⟩ := h.stored
  obtain rfl := hstored.rows_eq
  obtain ⟨-, -, hpivot, entries, update, hentries, hupdate, happend⟩ := replace_eq_ok_iff.1 hg
  rw [newUpdate_eq_ok hstored.orders hd hentries] at hupdate
  cases hupdate
  have hpivot : pivot ≠ 0 := by
    rintro rfl
    rw [Scalar.magnitude_eq_abs, abs_zero, h.tolerance_eq] at hpivot
    exact hpivot htol
  have hpos : g.status = .valid ∧ g.config = f.config := by
    obtain ⟨block, -, -, rfl⟩ := h.sound.append_eq_ok_iff.1 happend
    exact ⟨h.valid, rfl⟩
  refine ⟨h.sound.replace hg, hpos.1, hpos.2 ▸ h.tolerance_eq, σ, _,
    hstored.append h.sound.toLaidOut happend, ⟨hregular.diagonal, fun u hu => ?_⟩, ?_⟩
  · rcases List.mem_append.1 hu with hu | hu
    · exact hregular.updates u hu
    · rw [List.mem_singleton.1 hu]
      simp [hpivot]
  · -- The update is the last factor, and multiplying by an eta matrix replaces a column.
    simp only [Factors.matrix, List.map_append, List.map_singleton, List.prod_append,
      List.prod_singleton, ← mul_assoc]
    rw [matrix_update σ (d.values _), mul_eta, ← Factors.matrix, ← hmatrix,
      submatrix_updateCol_equiv, Equiv.symm_symm, submatrix_mulVec_equiv]
    congr 1
    ext q
    simp only [Function.comp_def, Equiv.symm_symm, Equiv.symm_apply_apply]

/-- A solution in the order of positions is one in the order of slots and rows. -/
theorem mulVec_comp_of_submatrix {n : Nat} {B M : Matrix (Fin n) (Fin n) α}
    {σ : Equiv.Perm (Fin n)} (h : B.submatrix σ.symm σ.symm = M) {x b : Fin n → α}
    (hx : M *ᵥ x = b ∘ σ.symm) : B *ᵥ (x ∘ σ) = b := by
  rw [← h, submatrix_mulVec_equiv, Equiv.symm_symm] at hx
  exact σ.symm.surjective.injective_comp_right hx

variable {n : Nat} {tolerance : α} {B : Matrix (Fin n) (Fin n) α}

theorem Represents.isUnit_det (h : f.Represents tolerance B) : IsUnit B.det := by
  obtain ⟨σ, F, -, hregular, hmatrix⟩ := h.stored
  have hunit := (F.solves hregular).isUnit
  rwa [← hmatrix, isUnit_iff_isUnit_det, det_submatrix_equiv_self] at hunit

theorem Represents.mulVec_injective (h : f.Represents tolerance B) :
    Function.Injective (B *ᵥ ·) :=
  mulVec_injective_iff_isUnit.2 ((isUnit_iff_isUnit_det B).2 h.isUnit_det)

theorem Represents.transpose_mulVec_injective (h : f.Represents tolerance B) :
    Function.Injective (Bᵀ *ᵥ ·) :=
  mulVec_injective_iff_isUnit.2 ((isUnit_iff_isUnit_det Bᵀ).2 (B.det_transpose ▸ h.isUnit_det))

/-- The forward solve solves for the matrix represented. -/
theorem Represents.ftran (h : f.Represents tolerance B) {v : IndexedVector α} (hv : v.Proper n)
    (hcap : n ≤ v.capacity) :
    ∃ w x, f.ftran v = .ok (w, f) ∧ w.layout = v.layout ∧ B *ᵥ x = v.values n ∧
      w.Compacts tolerance x := by
  obtain ⟨σ, F, hstored, hregular, hmatrix⟩ := h.stored
  obtain rfl := hstored.rows_eq
  obtain ⟨w, hw, hlayout, hcompact⟩ := h.sound.solveThrough_eq_ok hstored.orders
    (covers_slots σ) hv hcap F.solve
  have hx := F.solves hregular (Vector.ofFn fun p => v.valueAt (σ.symm p))
  refine ⟨w, _, ?_, hlayout, mulVec_comp_of_submatrix hmatrix (hx.trans ?_),
    h.tolerance_eq ▸ hcompact⟩
  · rw [ftran_eq h.valid (hstored.factors_eq_ok h.sound.toLaidOut) hstored.orders, hw]
  · ext p
    simp [IndexedVector.values]

/-- The transposed solve solves for the transpose of the matrix represented. -/
theorem Represents.btran (h : f.Represents tolerance B) {v : IndexedVector α} (hv : v.Proper n)
    (hcap : n ≤ v.capacity) :
    ∃ w y, f.btran v = .ok (w, f) ∧ w.layout = v.layout ∧ Bᵀ *ᵥ y = v.values n ∧
      w.Compacts tolerance y := by
  obtain ⟨σ, F, hstored, hregular, hmatrix⟩ := h.stored
  obtain rfl := hstored.rows_eq
  obtain ⟨w, hw, hlayout, hcompact⟩ := h.sound.solveThrough_eq_ok hstored.orders
    (covers_positions σ) hv hcap F.solveTransposed
  have hx := F.solves_transpose hregular (Vector.ofFn fun p => v.valueAt (σ.symm p))
  have htranspose : Bᵀ.submatrix σ.symm σ.symm = F.matrixᵀ := by
    rw [← transpose_submatrix, hmatrix]
  refine ⟨w, _, ?_, hlayout, mulVec_comp_of_submatrix htranspose (hx.trans ?_),
    h.tolerance_eq ▸ hcompact⟩
  · rw [btran_eq h.valid (hstored.factors_eq_ok h.sound.toLaidOut) hstored.orders, hw]
  · ext p
    simp [IndexedVector.values]

end Represents

end BasisLU.Factorization
