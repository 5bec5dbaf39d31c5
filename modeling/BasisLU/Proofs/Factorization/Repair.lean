import BasisLU.Proofs.Elimination.Repair
import BasisLU.Proofs.Factorization.Factoring

/-!
# Repair of a singular basis

The rows that took a pivot and the free rows are all rows, each once (`freeRows_perm`). After a
singular basis is repaired, its good columns are loaded again and the slacks of the free rows after
them (`reloadColumn`); then the basis can be factored, the good columns keep their rows, and every
slack is pivoted on its own row (`repair_of_singular`).
-/

namespace BasisLU.Factorization

section Rows

variable {n : Nat} {pivoted : List Nat}

theorem mem_freeRows {r : Nat} : r ∈ freeRows n pivoted ↔ r < n ∧ r ∉ pivoted := by
  simp [freeRows]

theorem freeRows_pairwise (n : Nat) (pivoted : List Nat) : (freeRows n pivoted).Pairwise (· < ·) :=
  List.pairwise_lt_range.filter _

theorem freeRows_perm (hn : pivoted.Nodup) (hlt : ∀ r ∈ pivoted, r < n) :
    (pivoted ++ freeRows n pivoted).Perm (List.range n) := by
  have hnodup : (pivoted ++ freeRows n pivoted).Nodup :=
    List.nodup_append'.2 ⟨hn, (freeRows_pairwise n pivoted).imp Nat.ne_of_lt,
      fun r hr hfree => (mem_freeRows.1 hfree).2 hr⟩
  refine (List.perm_ext_iff_of_nodup hnodup List.nodup_range).2 fun r => ?_
  rw [List.mem_append, mem_freeRows, List.mem_range]
  constructor
  · intro h
    rcases h with hr | hr
    · exact hlt r hr
    · exact hr.1
  · intro hr
    exact (em (r ∈ pivoted)).imp_right fun hp => ⟨hr, hp⟩

/-- A list of the numbers below `n`, each once, read as a function. -/
theorem exists_injective_of_perm {l : List Nat} (h : l.Perm (List.range n)) :
    ∃ ρ : Fin n → Fin n, Function.Injective ρ ∧ ∀ k : Fin n, l[k.val]? = some (ρ k).val := by
  have hlen : l.length = n := h.length_eq.trans List.length_range
  have hmem : ∀ k : Fin n, l[k.val] < n := fun k =>
    List.mem_range.1 (h.mem_iff.1 (List.getElem_mem _))
  have hnodup : l.Nodup := h.nodup_iff.2 List.nodup_range
  refine ⟨fun k => ⟨l[k.val], hmem k⟩, fun j k hjk => ?_, fun k => by simp⟩
  exact Fin.ext (hnodup.getElem_inj_iff.1 (Fin.ext_iff.1 hjk))

/-- The rows of the first pivots and the free rows after them, as a function. -/
theorem exists_repairOrder (σ : Equiv.Perm (Fin n)) {good : Nat} (hgood : good ≤ n)
    {rows : List Nat}
    (hpivoted : pivoted = (List.ofFn fun p => (σ.symm p).val).take good)
    (hrows : rows = freeRows n pivoted) :
    rows.length = n - good ∧ ∃ ρ : Fin n → Fin n, Function.Injective ρ ∧
      (∀ k : Fin n, k < good → σ.symm k = ρ k) ∧
      (∀ k : Fin n, good ≤ k → rows.getD (k - good) 0 = (ρ k).val) ∧
      (List.ofFn fun k => (ρ k).val) = pivoted ++ rows := by
  have hlength : pivoted.length = good := by simp [hpivoted, hgood]
  have hnodup : pivoted.Nodup := by
    rw [hpivoted]
    exact (List.nodup_ofFn.2 (Fin.val_injective.comp σ.symm.injective)).sublist
      (List.take_sublist _ _)
  have hlt : ∀ r ∈ pivoted, r < n := fun r hr => by
    rw [hpivoted] at hr
    obtain ⟨p, rfl⟩ := (List.mem_ofFn' _ _).1 (List.mem_of_mem_take hr)
    exact (σ.symm p).isLt
  have hperm := freeRows_perm hnodup hlt
  rw [← hrows] at hperm
  have hlen : pivoted.length + rows.length = n := by
    rw [← List.length_append, hperm.length_eq, List.length_range]
  obtain ⟨ρ, hρ, hget⟩ := exists_injective_of_perm hperm
  refine ⟨by omega, ρ, hρ, fun k hk => ?_, fun k hk => ?_, ?_⟩
  · have := hget k
    rw [List.getElem?_append_left (show k.val < pivoted.length by omega), hpivoted,
      List.getElem?_take_of_lt hk] at this
    exact Fin.ext (by simpa using this)
  · have := hget k
    rw [List.getElem?_append_right (show pivoted.length ≤ k by omega), hlength] at this
    rw [List.getD_eq_getElem?_getD, this]
    rfl
  · refine List.ext_getElem (by simp; omega) fun k hk _ => ?_
    rw [List.length_ofFn] at hk
    rw [List.getElem_ofFn]
    exact (List.getElem?_eq_some_iff.1 (hget ⟨k, hk⟩)).2.symm

end Rows

section Sequence

variable {α : Type} [Scalar α] {f : Factorization α}

/-- The rows at the positions that elimination finished. -/
theorem Sound.mapM_pivoted (h : f.Sound) {σ : Equiv.Perm (Fin f.rows)} (hσ : f.order.Orders σ)
    (hgood : f.goodColumns ≤ f.rows) :
    (List.range f.goodColumns).mapM (fun p => do
      let row ← Fault.below f.rows (← Fault.read f.order.rowAt p)
      return row.val) = .ok (f.rowsInOrder.toList.take f.goodColumns) := by
  rw [h.toList_rowsInOrder rfl hσ, mapM_eq_ok_iff, List.forall₂_iff_get]
  refine ⟨by simp; omega, fun p hp _ => ?_⟩
  have hlt : p < f.rows := by
    rw [List.length_range] at hp
    omega
  simp only [List.get_eq_getElem, List.getElem_range, List.getElem_take, List.getElem_ofFn,
    bind_eq_ok_iff, pure_eq_ok_iff]
  exact ⟨_, hσ.read_rowAt ⟨p, hlt⟩, _, Fault.below_of_lt (Fin.isLt _), rfl⟩

/-- The sequence keeps its entries but for the places of the columns without a pivot, which get the
slacks of the free rows. -/
theorem Sound.repairSequence_eq_ok (h : f.Sound) (hs : f.status = .singular) {n good : Nat}
    (hn : f.rows = n) (hg : f.goodColumns = good) {rows : List Nat}
    (hrows : rows = freeRows n (f.rowsInOrder.toList.take good))
    (hlen : rows.length = n - good) {sequence : Array Nat} {columns : Nat}
    (hsize : n ≤ sequence.size) (hword : n + columns < wordSize) :
    ∃ repaired, f.repairSequence sequence columns = .ok repaired ∧ repaired.toList =
      sequence.toList.take good ++ rows.map (· + columns) ++ sequence.toList.drop n := by
  subst hn hg
  obtain ⟨σ, hσ⟩ := h.orders (by simp [hs])
  have hgood := h.singular hs
  have htake : (freeRows f.rows (f.rowsInOrder.toList.take f.goodColumns)).take
      (f.rows - f.goodColumns) = rows := by
    rw [← hrows, ← hlen, List.take_length]
  have hlt : ∀ r ∈ rows, r < f.rows := fun r hr => (mem_freeRows.1 (hrows ▸ hr)).1
  simp only [repairSequence, guard_eq_ok_iff, bind_eq_ok_iff, pure_eq_ok_iff]
  refine ⟨_, ⟨by omega, _, h.mapM_pivoted hσ hgood.le, by omega, ?_, rfl⟩, ?_⟩
  · rw [htake, List.any_map, List.any_eq_true]
    intro hlarge
    obtain ⟨r, hr, hword'⟩ := hlarge
    have := hlt r hr
    simp at hword'
    omega
  · rw [htake]
    refine List.ext_getElem? fun place => ?_
    have hmin : min f.goodColumns sequence.size = f.goodColumns := by omega
    simp only [Array.toList_mapIdx, List.getElem?_mapIdx, Array.getElem?_toList,
      List.append_assoc, List.getElem?_append, List.length_take, Array.length_toList, hmin,
      List.length_map, hlen, List.getElem?_take, List.getElem?_map, List.getElem?_drop]
    rcases Nat.lt_or_ge place f.goodColumns with hplace | hplace
    · simp [hplace, Nat.not_le.2 hplace]
    · rcases Nat.lt_or_ge place f.rows with hplace' | hplace'
      · have hfree : place - f.goodColumns < rows.length := by omega
        have hin : place < sequence.size := by omega
        simp [hplace, hplace', Nat.not_lt.2 hplace, hin, hfree]
      · have hback : f.rows + (place - f.goodColumns - (f.rows - f.goodColumns)) = place := by omega
        have hafter : ¬ place - f.goodColumns < f.rows - f.goodColumns := by omega
        simp [Nat.not_lt.2 hplace, Nat.not_lt.2 hplace', hafter, hback]

end Sequence

section Reload

variable {α : Type} [Scalar α] {n : Nat}

/-- Column `k` loaded after a repair: a good column with its old values, and one after them with the
slack of the free row in its place. -/
def reloadColumn (A : Matrix (Fin n) (Fin n) α) (good : Nat) (rows : List Nat)
    (f : Factorization α) (k : Fin n) : Except Failure (Factorization α) :=
  if k < good then f.loadColumn k (Array.ofFn fun i => A i k)
  else f.loadSlack k (rows.getD (k - good) 0)

/-- What is in column `k` then. -/
def reloaded (A : Matrix (Fin n) (Fin n) α) (good : Nat) (rows : List Nat) (slack : α)
    (k : Fin n) : Vector α n :=
  Vector.ofFn fun i =>
    if k < good then A i k else if i.val = rows.getD (k - good) 0 then slack else 0

variable {A : Matrix (Fin n) (Fin n) α} {good : Nat} {rows : List Nat}

theorem reloadColumn_eq_ok {f : Factorization α} (hf : f.Sound) (hn : f.rows = n)
    (hrows : ∀ r ∈ rows, r < n) (k : Fin n) :
    ∃ g, reloadColumn A good rows f k = .ok g ∧ g.Sound ∧ g.rows = n ∧ g.config = f.config ∧
      Block.column n k g.block = .ok (reloaded A good rows f.config.slack k) ∧
      ∀ j : Nat, j ≠ k → Block.column n j g.block = Block.column n j f.block := by
  subst hn
  obtain ⟨block, hblock⟩ :=
    hf.exists_setColumn k.isLt (reloaded A good rows f.config.slack k)
  refine ⟨{ f with block := block }, ?_, hf.withBlock (Block.size_setColumn hblock) f.staged, rfl,
    rfl, Block.column_setColumn hblock, fun j hj => Block.column_setColumn_of_ne hblock hj⟩
  unfold reloadColumn
  split
  · refine hf.loadColumn_eq_ok_iff.2 ⟨k.isLt, by simp, block, ?_, rfl⟩
    rw [← hblock]
    congr 1
    ext i hi
    simp [reloaded, *]
  · refine hf.loadSlack_eq_ok_iff.2 ⟨k.isLt, ?_, block, ?_, rfl⟩
    · rw [List.getD_eq_getElem?_getD]
      cases hr : rows[k - good]? with
      | none => exact k.pos
      | some r => exact hrows r (List.mem_of_getElem? hr)
    · rw [← hblock]
      congr 1
      ext i hi
      simp [reloaded, *]

/-- The columns loaded in any order, some of them perhaps more than once. -/
theorem foldlM_reloadColumn_eq_ok (hrows : ∀ r ∈ rows, r < n) :
    ∀ (order : List (Fin n)) {f : Factorization α}, f.Sound → f.rows = n →
      ∃ g, order.foldlM (reloadColumn A good rows) f = .ok g ∧ g.Sound ∧ g.rows = n ∧
        g.config = f.config ∧ ∀ k : Fin n,
          k ∈ order ∨ Block.column n k f.block = .ok (reloaded A good rows f.config.slack k) →
          Block.column n k g.block = .ok (reloaded A good rows f.config.slack k)
  | [], f, hf, hn => ⟨f, rfl, hf, hn, rfl, fun k hk => hk.resolve_left List.not_mem_nil⟩
  | j :: order, f, hf, hn => by
    obtain ⟨g, hg, hgs, hgn, hgc, hself, hne⟩ := reloadColumn_eq_ok hf hn hrows j
    obtain ⟨h, hh, hhs, hhn, hhc, hcolumns⟩ := foldlM_reloadColumn_eq_ok hrows order hgs hgn
    rw [hgc] at hhc hcolumns
    refine ⟨h, ?_, hhs, hhn, hhc, fun k hk => hcolumns k ?_⟩
    · rw [List.foldlM_cons, bind_eq_ok_iff]
      exact ⟨g, hg, hh⟩
    · by_cases hkj : k = j
      · exact .inr (hkj ▸ hself)
      · refine hk.imp (fun hk => (List.mem_cons.1 hk).resolve_left hkj) fun hk => ?_
        rwa [hne k fun h => hkj (Fin.ext h)]

end Reload

section Exact

variable {α : Type} [ExactScalar α] {n : Nat}

/-- Factoring once the good columns are loaded again and slacks of the free rows after them. -/
theorem factor_reloaded {f : Factorization α} (hf : f.Sound) (hn : f.rows = n)
    {columns : Square α n} {e : Elimination α n} (he : eliminate f.config.zeroTolerance columns = e)
    (hpos : 0 ≤ f.config.zeroTolerance) (hlt : f.config.zeroTolerance < |f.config.slack|)
    {rows : List Nat} {ρ : Fin n → Fin n} (hρ : Function.Injective ρ)
    (hdone : ∀ k : Fin n, k < e.good → e.rowAt.get k = ρ k)
    (hfree : ∀ k : Fin n, e.good ≤ k → rows.getD (k - e.good) 0 = (ρ k).val)
    (hcolumns : ∀ k : Fin n, Block.column n k f.block =
      .ok (reloaded columns.matrix e.good rows f.config.slack k)) :
    ∃ g, f.factor = .ok (g, none) ∧ g.goodColumns = n ∧
      g.rowsInOrder.toList = List.ofFn fun p => (ρ p).val := by
  subst hn he
  obtain ⟨columns', hsquare⟩ := Block.square_of_le hf.square_le
  have hcolumn (k : Fin f.rows) := Except.ok.inj
    ((Block.column_of_square hsquare k.isLt).symm.trans (hcolumns k))
  have hkept (k : Fin f.rows) (hk : k < (eliminate f.config.zeroTolerance columns).good) :
      columns'.get k = columns.get k := by
    refine (hcolumn k).trans ?_
    ext i hi
    simp [reloaded, hk, Square.matrix]
  have hslack (k : Fin f.rows) (hk : (eliminate f.config.zeroTolerance columns).good ≤ k)
      (i : Fin f.rows) : columns'.matrix i k = if i = ρ k then f.config.slack else 0 := by
    refine (congrArg (·.get i) (hcolumn k)).trans ?_
    have := hfree k hk
    simp only [reloaded, get_eq_getElem, Vector.getElem_ofFn, if_neg (Nat.not_lt.2 hk), this,
      Fin.ext_iff]
  obtain ⟨hall, hrows⟩ := Elimination.eliminate_repaired hpos hlt hρ
    (fun k hk => ⟨hkept k hk, hdone k hk⟩) hslack
  obtain ⟨g, hg⟩ := hf.exists_install (eliminate f.config.zeroTolerance columns')
  obtain ⟨hgood, -, hsingularity⟩ := status_of_install hg
  rw [if_pos hall] at hsingularity
  obtain ⟨σ, hσ⟩ := exists_perm_eliminate f.config.zeroTolerance columns'
  have hstored := Stores.of_install hσ hg
  have hfactor : f.factor = .ok (g, none) :=
    hf.factor_eq_ok_iff.2 ⟨columns', hsquare, hg, hsingularity⟩
  refine ⟨g, hfactor, hgood.trans hall, ?_⟩
  rw [(hf.factor hfactor).toList_rowsInOrder hstored.rows_eq hstored.orders]
  exact congrArg List.ofFn (funext fun p => by rw [← hσ, hrows])

/-- A basis found singular can be repaired. The free rows take the places without a pivot in the
sequence. With the good columns loaded again and the slacks of the free rows after them, in any
order, factoring succeeds; the good columns keep their rows, and each slack is pivoted on its own.
The row of a slack that is a good column is not free. -/
theorem repair_of_singular {config : Config α} {f g : Factorization α} {good : Nat}
    (hreach : Reaches (ofConfig config) f) (hcheck : f.config.check = .ok ()) (hn : f.rows = n)
    {A : Matrix (Fin n) (Fin n) α}
    (hA : ∀ k : Fin n, Block.column n k f.block = .ok (Vector.ofFn fun i => A i k))
    (hfactor : f.factor = .ok (g, some (.singular good n))) :
    ∃ rows : List Nat,
      rows.Pairwise (· < ·) ∧ rows.length = n - good ∧
      (∀ r, r ∈ rows ↔ r < n ∧ r ∉ g.rowsInOrder.toList.take good) ∧
      (∀ (sequence : Array Nat) (m : Nat), n ≤ sequence.size → n + m < wordSize →
        ∃ repaired, g.repairSequence sequence m = .ok repaired ∧ repaired.toList =
          sequence.toList.take good ++ rows.map (· + m) ++ sequence.toList.drop n) ∧
      (∀ order : List (Fin n), (∀ k, k ∈ order) → ∃ h i,
        order.foldlM (reloadColumn A good rows) g = .ok h ∧ h.factor = .ok (i, none) ∧
        i.goodColumns = n ∧ i.rowsInOrder.toList = g.rowsInOrder.toList.take good ++ rows) ∧
      ∀ k r : Fin n, k < good → (∀ i, A i k = if i = r then f.config.slack else 0) →
        r.val ∉ rows := by
  subst hn
  have hf := sound_of_reaches hreach
  have hg := hf.factor hfactor
  obtain ⟨htol, -, hslack⟩ := Config.check_eq_ok_iff.1 hcheck
  obtain ⟨columns, hsquare, hinstall, hsingular⟩ := hf.factor_eq_ok_iff.1 hfactor
  obtain ⟨σ, hσ⟩ := exists_perm_eliminate f.config.zeroTolerance columns
  have hle := Elimination.good_eliminate_le f.config.zeroTolerance columns
  have hsingle := fun k row =>
    Elimination.exists_rowAt_of_single htol.1.le (A := columns) (k := k) row
  obtain ⟨e, he⟩ : ∃ e, eliminate f.config.zeroTolerance columns = e := ⟨_, rfl⟩
  rw [he] at hinstall hσ hle
  simp only [he] at hsingle
  have hstored := Stores.of_install hσ hinstall
  obtain ⟨hgood, hstatus, hsingularity⟩ := status_of_install hinstall
  have hne : e.good ≠ f.rows := fun h => by
    rw [hsingularity, if_pos h] at hsingular
    cases hsingular
  rw [if_neg hne] at hstatus hsingularity
  obtain rfl : e.good = good := by
    cases hsingularity.symm.trans hsingular
    rfl
  have hrows := hg.toList_rowsInOrder hstored.rows_eq hstored.orders
  -- The rows of the pivots with the free rows after them are the order of the repaired basis.
  obtain ⟨rows, hfree⟩ : ∃ rows, rows = freeRows f.rows (g.rowsInOrder.toList.take e.good) :=
    ⟨_, rfl⟩
  obtain ⟨hlen, ρ, hρ, hdone, hleft, hlist⟩ := exists_repairOrder σ hle (congrArg _ hrows) hfree
  have hmem (r : Nat) : r ∈ rows ↔ r < f.rows ∧ r ∉ g.rowsInOrder.toList.take e.good :=
    hfree ▸ mem_freeRows
  have hmatrix := matrix_eq_of_columns hsquare hA
  refine ⟨rows, hfree ▸ freeRows_pairwise _ _, hlen, hmem, fun sequence m hsize hword => ?_,
    fun order horder => ?_, fun k r hk hcolumn hr => ?_⟩
  · exact hg.repairSequence_eq_ok hstatus hstored.rows_eq hgood hfree hlen hsize hword
  · obtain ⟨h, hh, hhs, hhn, hhc, hcolumns⟩ := foldlM_reloadColumn_eq_ok (A := A)
      (fun r hr => ((hmem r).1 hr).1) order hg hstored.rows_eq
    have hconfig : h.config = f.config := by
      obtain ⟨block, order, -, -, rfl⟩ := install_eq_ok_iff.1 hinstall
      exact hhc
    have hlarge : f.config.zeroTolerance < |f.config.slack| := by
      rcases Config.isSlack_iff.1 hslack with hs | hs <;> simpa [hs] using htol.lt_one
    rw [← hconfig] at he htol hlarge
    obtain ⟨i, hi, hall, hlast⟩ := factor_reloaded hhs hhn he htol.1.le hlarge hρ
      (fun k hk => (hσ k).trans (hdone k hk)) hleft
      fun k => (hcolumns k (.inl (horder k))).trans (by rw [hmatrix, hhc])
    exact ⟨h, i, hh, hi, hall, hlast.trans hlist⟩
  · -- A good slack was pivoted on its own row, if no column before it was.
    obtain ⟨j, hjk, hj⟩ := hsingle k r hk fun i hi => by rw [hmatrix, hcolumn, if_neg hi]
    refine ((hmem r).1 hr).2 (List.mem_of_getElem? (i := j) ?_)
    have hjr : σ.symm j = r := (hσ j).symm.trans hj
    rw [hrows, List.getElem?_take_of_lt (show j.val < e.good by omega)]
    simp [hjr]

end Exact

theorem repair_of_singular_deficient : ∃ (f g h i : Factorization Rat) (rows : List Nat)
    (repaired : Array Nat), f.factor = .ok (g, some (.singular 2 4)) ∧ rows.length = 2 ∧
      g.repairSequence #[7, 8, 9, 10, 11] 20 = .ok repaired ∧
      repaired.toList = [7, 8] ++ rows.map (· + 20) ++ [11] ∧
      [3, 0, 2, 1].foldlM (reloadColumn (Matrix.of deficient) 2 rows) g = .ok h ∧
      h.factor = .ok (i, none) ∧ 2 ∉ rows := by
  obtain ⟨f, g, hf, hg⟩ := exists_factor_deficient
  obtain ⟨hn, hconfig, -⟩ := square_of_load hf
  have hcheck : f.config.check = .ok () := by
    rw [hconfig]
    exact Config.check_eq_ok_iff.2 (by decide +kernel)
  obtain ⟨rows, -, hlen, -, hsequence, hreload, hslack⟩ := repair_of_singular
    (A := Matrix.of deficient) (reaches_of_load hf) hcheck hn (column_of_load hf) hg
  obtain ⟨repaired, hrepaired, hlist⟩ := hsequence #[7, 8, 9, 10, 11] 20 (by decide) (by decide)
  obtain ⟨h, i, hh, hi, -, -⟩ := hreload [3, 0, 2, 1] (by decide)
  refine ⟨f, g, h, i, rows, repaired, hg, hlen, hrepaired, hlist, hh, hi, ?_⟩
  refine hslack 0 2 (by decide) fun r => ?_
  rw [hconfig]
  revert r
  decide +kernel

end BasisLU.Factorization
