import BasisLU.Proofs.Factorization.Atomic

/-!
# Which columns can be staged

`WellFormed` is what compressed columns should be. Staging takes them column by column, and looks at
the rows of a column before it has seen the starts of the columns after it. The columns that have
passed are `InOrder`, and name rows of the basis (`forall_checkStaged_iff`). Being in order, they
start no later than their dense copies (`InOrder.start_le`).

A column that is in order may still end past the rows, if the starts decrease behind it
(`Overruns`, `Overruns.exists_lt`). Staging faults there. Otherwise what is well-formed is staged
and the rest refused, except for a basis without rows: it has no column whose rows would be looked
at (`stages_iff_of_reaches`).
-/

namespace BasisLU.Factorization

/-! ## Compressed columns -/

variable {n k : Nat} {starts rows : Array Nat}

/-- The first `k` columns begin where the one before ends, and have at most `n` entries each. -/
structure InOrder (n : Nat) (starts : Array Nat) (k : Nat) : Prop where
  first : 0 < k → starts[0]? = some 0
  le : ∀ i < k, starts.getD i 0 ≤ starts.getD (i + 1) 0
  short : ∀ i < k, starts.getD (i + 1) 0 - starts.getD i 0 ≤ n

/-- Column `i` is as long as it may be, and ends past the rows. So far nothing was wrong. -/
structure Overruns (n : Nat) (starts rows : Array Nat) (i : Nat) : Prop where
  inOrder : InOrder n starts (i + 1)
  start_le : starts.getD i 0 ≤ rows.size
  row_lt : ∀ place < starts.getD i 0, ∀ row, rows[place]? = some row → row < n
  lt_stop : rows.size < starts.getD (i + 1) 0

/-- A start for every column and for the end, and a row for every value. -/
structure SizesAgree (n : Nat) (starts rows : Array Nat) (count : Nat) : Prop where
  size_starts : starts.size = n + 1
  size_rows : rows.size = count
  last : starts[n]? = some count

/-- The columns of a basis of `n` rows in compressed form, of `count` values in all. -/
structure WellFormed (n : Nat) (starts rows : Array Nat) (count : Nat) : Prop
    extends SizesAgree n starts rows count, InOrder n starts n where
  row_lt : ∀ row ∈ rows, row < n

theorem getElem?_eq_some_getD {i : Nat} (hi : i < starts.size) :
    starts[i]? = some (starts.getD i 0) := by
  simp [Array.getD, hi]

theorem SizesAgree.getD_last {count : Nat} (h : SizesAgree n starts rows count) :
    starts.getD n 0 = count := by
  have hsize := h.size_starts
  exact Option.some.inj ((getElem?_eq_some_getD (by omega)).symm.trans h.last)

theorem InOrder.mono (h : InOrder n starts k) {j : Nat} (hj : j ≤ k) : InOrder n starts j where
  first hpos := h.first (hpos.trans_le hj)
  le i hi := h.le i (hi.trans_le hj)
  short i hi := h.short i (hi.trans_le hj)

/-- Columns of at most `n` entries leave room for the dense copies of those before. -/
theorem InOrder.start_le (h : InOrder n starts k) (hpos : 0 < k) :
    ∀ i ≤ k, starts.getD i 0 ≤ i * n
  | 0, _ => by simp [h.first hpos]
  | i + 1, hi => by
    have hstart := h.start_le hpos i (by omega)
    have hshort := h.short i hi
    rw [Nat.succ_mul]
    omega

theorem getD_le_getD {i j : Nat} (hij : i ≤ j)
    (hle : ∀ m, i ≤ m → m < j → starts.getD m 0 ≤ starts.getD (m + 1) 0) :
    starts.getD i 0 ≤ starts.getD j 0 := by
  induction j, hij using Nat.le_induction with
  | base => exact le_rfl
  | succ j hij ih =>
    exact (ih fun m hm hlt => hle m hm (by omega)).trans (hle j hij j.lt_succ_self)

/-- The starts decrease behind a column that ends past the rows. -/
theorem Overruns.exists_lt {i count : Nat} (h : Overruns n starts rows i)
    (hs : SizesAgree n starts rows count) (hi : i < n) :
    ∃ j, i < j ∧ j < n ∧ starts.getD (j + 1) 0 < starts.getD j 0 := by
  by_contra hnot
  have hend : starts.getD (i + 1) 0 ≤ starts.getD n 0 := getD_le_getD hi fun j hij hj =>
    Nat.le_of_not_lt fun hlt => hnot ⟨j, hij, hj, hlt⟩
  have hlast := hs.getD_last
  have hsize := hs.size_rows
  have hstop := h.lt_stop
  omega

/-! ## The checks of one column -/

theorem forall_mem_extract_iff {start stop : Nat} (hstop : stop ≤ rows.size) {p : Nat → Prop} :
    (∀ row ∈ rows.extract start stop, p row) ↔
      ∀ place, start ≤ place → place < stop → ∀ row, rows[place]? = some row → p row := by
  constructor
  · intro h place hstart hlt row hrow
    obtain ⟨_, rfl⟩ := Array.getElem?_eq_some_iff.1 hrow
    refine h _ (Array.mem_extract_iff_getElem.2 ⟨place - start, by omega, ?_⟩)
    simp only [Nat.add_sub_cancel' hstart]
  · intro h row hrow
    obtain ⟨place, hlt, rfl⟩ := Array.mem_extract_iff_getElem.1 hrow
    exact h (start + place) (by omega) (by omega) _ (Array.getElem?_eq_getElem _)

/-- Column `i` starts no later than its dense copy, and has at most `n` entries. -/
def Orderly (n : Nat) (starts : Array Nat) (i : Nat) : Prop :=
  starts.getD i 0 ≤ starts.getD (i + 1) 0 ∧ starts.getD (i + 1) 0 - starts.getD i 0 ≤ n ∧
    starts.getD i 0 ≤ i * n

theorem checkStaged_eq_ok_iff_orderly {i : Nat} (hi : i + 1 < starts.size) :
    checkStaged n starts rows i = .ok () ↔ Orderly n starts i ∧
      starts.getD (i + 1) 0 ≤ rows.size ∧ ∀ place, starts.getD i 0 ≤ place →
        place < starts.getD (i + 1) 0 → ∀ row, rows[place]? = some row → row < n := by
  rw [checkStaged_eq_ok_iff, getElem?_eq_some_getD (i := i) (by omega), getElem?_eq_some_getD hi,
    Orderly]
  simp only [Option.some.injEq, exists_and_left, exists_eq_left']
  constructor
  · rintro ⟨hle, hshort, hput, hsize, hrows⟩
    exact ⟨⟨hle, hshort, hput⟩, hsize, (forall_mem_extract_iff hsize).1 hrows⟩
  · rintro ⟨⟨hle, hshort, hput⟩, hsize, hrows⟩
    exact ⟨hle, hshort, hput, hsize, (forall_mem_extract_iff hsize).2 hrows⟩

theorem checkStaged_eq_fault_iff {i : Nat} (hi : i + 1 < starts.size) {cause : Fault} :
    checkStaged n starts rows i = .error (.fault cause) ↔ Orderly n starts i ∧
      rows.size < starts.getD (i + 1) 0 ∧ cause = .outOfRange := by
  have hstart := Fault.read_eq_ok_iff.2 (getElem?_eq_some_getD (Nat.lt_of_succ_lt hi))
  have hstop := Fault.read_eq_ok_iff.2 (getElem?_eq_some_getD hi)
  rw [checkStaged, hstart, hstop]
  simp only [liftFault_ok, ok_bind, guard_eq_error_iff, reduceCtorEq, and_false, false_or,
    Nat.not_lt, Orderly, and_assoc, Failure.fault.injEq, eq_comm (a := Fault.outOfRange)]
  refine and_congr_right fun _ => and_congr_right fun _ => and_congr_right fun _ => ?_
  exact or_iff_left fun h => guard_ne_fault h.2

/-! ## The checks of all columns -/

theorem inOrder_iff (hk : k < starts.size) :
    InOrder n starts k ↔ ∀ i < k, Orderly n starts i := by
  constructor
  · intro h i hi
    exact ⟨h.le i hi, h.short i hi, h.start_le (by omega) i hi.le⟩
  · intro h
    refine ⟨fun hpos => ?_, fun i hi => (h i hi).1, fun i hi => (h i hi).2.1⟩
    have hzero := (h 0 hpos).2.2
    rw [Nat.zero_mul, Nat.le_zero] at hzero
    rw [getElem?_eq_some_getD (by omega), hzero]

/-- The first columns pass if they are in order and end within the rows, which are rows of the
basis up to there. -/
theorem forall_checkStaged_iff (hk : k < starts.size) (hzero : starts[0]? = some 0) :
    (∀ i < k, checkStaged n starts rows i = .ok ()) ↔ InOrder n starts k ∧
      starts.getD k 0 ≤ rows.size ∧
      ∀ place < starts.getD k 0, ∀ row, rows[place]? = some row → row < n := by
  induction k with
  | zero =>
    have hstart : starts.getD 0 0 = 0 :=
      Option.some.inj ((getElem?_eq_some_getD hk).symm.trans hzero)
    rw [inOrder_iff hk, hstart]
    exact iff_of_true nofun ⟨nofun, Nat.zero_le _, nofun⟩
  | succ k ih =>
    rw [Nat.forall_lt_succ_right, ih (by omega), checkStaged_eq_ok_iff_orderly hk, inOrder_iff hk,
      inOrder_iff (by omega), Nat.forall_lt_succ_right]
    constructor
    · rintro ⟨⟨horder, -, hrows⟩, hcolumn, hstop, hlast⟩
      refine ⟨⟨horder, hcolumn⟩, hstop, fun place hplace => ?_⟩
      rcases Nat.lt_or_ge place (starts.getD k 0) with h | h
      · exact hrows place h
      · exact hlast place h hplace
    · rintro ⟨⟨horder, hcolumn⟩, hstop, hrows⟩
      exact ⟨⟨horder, hcolumn.1.trans hstop, fun place h => hrows place (h.trans_le hcolumn.1)⟩,
        hcolumn, hstop, fun place _ => hrows place⟩

theorem overruns_iff {i : Nat} (hi : i + 1 < starts.size) {cause : Fault} :
    ((∀ j < i, checkStaged n starts rows j = .ok ()) ∧
      checkStaged n starts rows i = .error (.fault cause)) ↔
      Overruns n starts rows i ∧ cause = .outOfRange := by
  rw [checkStaged_eq_fault_iff hi]
  constructor
  · rintro ⟨hbefore, hcolumn, hlt, hcause⟩
    have hbefore' (j : Nat) (hj : j < i) : Orderly n starts j :=
      ((checkStaged_eq_ok_iff_orderly (by omega)).1 (hbefore j hj)).1
    have horder : InOrder n starts (i + 1) :=
      (inOrder_iff hi).2 (Nat.forall_lt_succ_right.2 ⟨hbefore', hcolumn⟩)
    obtain ⟨-, hsize, hrows⟩ :=
      (forall_checkStaged_iff (by omega) (horder.first i.succ_pos)).1 hbefore
    exact ⟨⟨horder, hsize, hrows, hlt⟩, hcause⟩
  · rintro ⟨h, hcause⟩
    refine ⟨?_, (inOrder_iff hi).1 h.inOrder i i.lt_succ_self, h.lt_stop, hcause⟩
    exact (forall_checkStaged_iff (by omega) (h.inOrder.first i.succ_pos)).2
      ⟨h.inOrder.mono i.le_succ, h.start_le, h.row_lt⟩

/-- For a basis with rows, every row belongs to a column. -/
theorem wellFormed_iff {count : Nat} (hn : 0 < n) : WellFormed n starts rows count ↔
    SizesAgree n starts rows count ∧ ∀ i < n, checkStaged n starts rows i = .ok () := by
  constructor
  · intro h
    have hsize := h.size_starts
    have hstop : starts.getD n 0 ≤ rows.size := by rw [h.getD_last, h.size_rows]
    refine ⟨h.toSizesAgree, (forall_checkStaged_iff (by omega) (h.first hn)).2
      ⟨h.toInOrder, hstop, fun place _ row hrow => ?_⟩⟩
    exact h.row_lt row (Array.mem_of_getElem? hrow)
  · rintro ⟨hs, hchecks⟩
    have hsize := hs.size_starts
    have hstop : starts.getD n 0 = rows.size := by rw [hs.getD_last, hs.size_rows]
    have horder : InOrder n starts n := (inOrder_iff (by omega)).2 fun i hi =>
      ((checkStaged_eq_ok_iff_orderly (by omega)).1 (hchecks i hi)).1
    obtain ⟨-, -, hrows⟩ := (forall_checkStaged_iff (by omega) (horder.first hn)).1 hchecks
    refine { hs, horder with row_lt := fun row hrow => ?_ }
    obtain ⟨place, hplace⟩ := Array.mem_iff_getElem?.1 hrow
    have hlt := (Array.getElem?_eq_some_iff.1 hplace).1
    exact hrows place (hstop ▸ hlt) row hplace

/-! ## Staging -/

variable {α : Type} {f : Factorization α} {values : Array α}

theorem LaidOut.exists_stage_iff (h : f.LaidOut) : (∃ g, f.stage starts rows values = .ok g) ↔
    SizesAgree f.rows starts rows values.size ∧
      (∀ i < f.rows, checkStaged f.rows starts rows i = .ok ()) ∧
      values.size ≤ f.block.size := by
  simp only [stage_eq_ok_iff, h.columns_eq, exists_and_left, exists_eq', and_true]
  constructor
  · rintro ⟨hstarts, hrows, hlast, hrest⟩
    exact ⟨⟨hstarts, hrows, hlast⟩, hrest⟩
  · rintro ⟨⟨hstarts, hrows, hlast⟩, hrest⟩
    exact ⟨hstarts, hrows, hlast, hrest⟩

/-- The columns are checked one after the other up to the one that overruns. -/
theorem forM_checkStaged_eq_fault_iff (hsize : starts.size = n + 1) {cause : Fault} :
    (List.range n).forM (checkStaged n starts rows) = .error (.fault cause) ↔
      (∃ i < n, Overruns n starts rows i) ∧ cause = .outOfRange := by
  rw [forM_range_eq_error_iff]
  constructor
  · rintro ⟨i, hi, h⟩
    obtain ⟨h, hcause⟩ := (overruns_iff (by omega)).1 h
    exact ⟨⟨i, hi, h⟩, hcause⟩
  · rintro ⟨⟨i, hi, h⟩, hcause⟩
    exact ⟨i, hi, (overruns_iff (by omega)).2 ⟨h, hcause⟩⟩

theorem LaidOut.stage_eq_fault_iff (h : f.LaidOut) {cause : Fault} :
    f.stage starts rows values = .error (.fault cause) ↔
      SizesAgree f.rows starts rows values.size ∧ cause = .outOfRange ∧
        ((∃ i < f.rows, Overruns f.rows starts rows i) ∨
          (∀ i < f.rows, checkStaged f.rows starts rows i = .ok ()) ∧
            f.block.size < values.size) := by
  simp only [stage, guard_eq_error_iff, bind_eq_error_iff, liftFault_eq_fault_iff,
    liftFault_eq_ok_iff, Fault.read_eq_error_iff, Fault.read_eq_ok_iff, reduceCtorEq, and_false,
    false_or, ne_eq, not_not, pure_ne_error, or_false, Failure.fault.injEq, h.columns_eq]
  constructor
  · rintro ⟨hstarts, hrows, ⟨hle, -⟩ | ⟨_, hlast, rfl, h⟩⟩
    · omega
    · refine ⟨⟨hstarts, hrows, hlast⟩, ?_⟩
      rw [forM_checkStaged_eq_fault_iff hstarts] at h
      rcases h with ⟨hover, hcause⟩ | ⟨_, hchecks, hshort, hcause⟩
      · exact ⟨hcause, .inl hover⟩
      · exact ⟨hcause.symm, .inr ⟨fun i hi => forM_eq_ok_iff.1 hchecks i (List.mem_range.2 hi),
          hshort⟩⟩
  · rintro ⟨⟨hstarts, hrows, hlast⟩, hcause, h⟩
    refine ⟨hstarts, hrows, .inr ⟨_, hlast, rfl, ?_⟩⟩
    rw [forM_checkStaged_eq_fault_iff hstarts]
    rcases h with hover | ⟨hchecks, hshort⟩
    · exact .inl ⟨hover, hcause⟩
    · exact .inr ⟨(), forM_eq_ok_iff.2 fun i hi => hchecks i (List.mem_range.1 hi), hshort,
        hcause.symm⟩

theorem exists_malformed_of_checkStaged {i : Nat} {reason : Refusal}
    (h : checkStaged n starts rows i = .error (.refused reason)) :
    ∃ text, reason = .malformed i text := by
  simp only [checkStaged, bind_eq_error_iff, guard_eq_error_iff, liftFault_ne_refused, false_or,
    Failure.refused.injEq, reduceCtorEq, and_false] at h
  obtain ⟨start, -, stop, -, ⟨-, h⟩ | ⟨-, ⟨-, h⟩ | ⟨-, ⟨-, h⟩ | ⟨-, -, h⟩⟩⟩⟩ := h
  · exact ⟨_, h.symm⟩
  · exact ⟨_, h.symm⟩
  · exact ⟨_, h.symm⟩
  · split at h <;> cases h
    exact ⟨_, rfl⟩

/-- A refusal is about the sizes, or about a column. -/
theorem of_stage_eq_refused {reason : Refusal}
    (h : f.stage starts rows values = .error (.refused reason)) :
    (∃ expected got, reason = .lengthMismatch expected got) ∨
      ∃ column text, reason = .malformed column text := by
  simp only [stage, guard_eq_error_iff, bind_eq_error_iff, liftFault_ne_refused, reduceCtorEq,
    and_false, false_or, pure_ne_error, or_false, exists_false, Failure.refused.injEq,
    forM_range_eq_error_iff] at h
  rcases h with ⟨-, h⟩ | ⟨-, ⟨-, h⟩ | ⟨-, _, -, ⟨-, h⟩ | ⟨-, column, -, -, h⟩⟩⟩
  · exact .inl ⟨_, _, h.symm⟩
  · exact .inl ⟨_, _, h.symm⟩
  · exact .inl ⟨_, _, h.symm⟩
  · obtain ⟨text, htext⟩ := exists_malformed_of_checkStaged h
    exact .inr ⟨column, text, htext⟩

variable [Scalar α]

/-- A refused call has changed nothing, carried out write by write. -/
theorem Sound.execute_stage (h : f.Sound) {reason : Refusal}
    (hrefused : f.stage starts rows values = .error (.refused reason)) :
    (Operation.stage starts rows values).execute f = .error (.refused reason) f := by
  have hr : (Operation.stage starts rows values).perform f =
      .ok ⟨f, some reason, none, [], []⟩ := by
    rw [Operation.perform, hrefused]
    rfl
  exact Operation.execute_of_refused h hr rfl

/-- The values of well-formed columns fit in the square at the front of the block. -/
theorem Sound.size_values_le (h : f.Sound) (hn : 0 < f.rows)
    (hs : WellFormed f.rows starts rows values.size) : values.size ≤ f.block.size :=
  calc values.size = starts.getD f.rows 0 := hs.getD_last.symm
    _ ≤ f.rows * f.rows := hs.start_le hn f.rows le_rfl
    _ ≤ f.block.size := h.square_le

/-- After any calls, columns for a basis with rows are staged exactly if they are well-formed, and
columns for a basis without rows if the values fit in the block. Staging faults where a column
overruns, or where values for a basis without rows do not fit; with starts that never decrease it
does not. In any other case it is refused, for the sizes or for a column, and changes nothing. -/
theorem stages_iff_of_reaches [LawfulScalar α] {start : Factorization α} (hnew : start.New)
    (hreach : Reaches start f) (starts rows : Array Nat) (values : Array α) :
    (0 < f.rows → ((∃ g, f.stage starts rows values = .ok g) ↔
      WellFormed f.rows starts rows values.size)) ∧
    (f.rows = 0 → ((∃ g, f.stage starts rows values = .ok g) ↔
      SizesAgree 0 starts rows values.size ∧ values.size ≤ f.block.size)) ∧
    (∀ cause, f.stage starts rows values = .error (.fault cause) ↔
      SizesAgree f.rows starts rows values.size ∧ cause = .outOfRange ∧
        ((∃ i < f.rows, Overruns f.rows starts rows i) ∨
          f.rows = 0 ∧ f.block.size < values.size)) ∧
    (0 < f.rows → (∀ i < f.rows, starts.getD i 0 ≤ starts.getD (i + 1) 0) →
      ∀ cause, f.stage starts rows values ≠ .error (.fault cause)) ∧
    ∀ reason, f.stage starts rows values = .error (.refused reason) →
      ((∃ expected got, reason = .lengthMismatch expected got) ∨
        ∃ column text, reason = .malformed column text) ∧
      (Operation.stage starts rows values).execute f = .error (.refused reason) f := by
  have h := (invariant_of_reaches hnew hreach).toSound
  have hfault (cause : Fault) : f.stage starts rows values = .error (.fault cause) ↔
      SizesAgree f.rows starts rows values.size ∧ cause = .outOfRange ∧
        ((∃ i < f.rows, Overruns f.rows starts rows i) ∨
          f.rows = 0 ∧ f.block.size < values.size) := by
    rw [h.stage_eq_fault_iff]
    refine and_congr_right fun hs => and_congr_right fun _ => or_congr_right ?_
    constructor
    · rintro ⟨hchecks, hshort⟩
      refine ⟨Nat.eq_zero_of_not_pos fun hn => ?_, hshort⟩
      exact absurd (h.size_values_le hn ((wellFormed_iff hn).2 ⟨hs, hchecks⟩)) (Nat.not_le.2 hshort)
    · rintro ⟨hn, hshort⟩
      exact ⟨by rw [hn]; nofun, hshort⟩
  refine ⟨fun hn => ?_, fun hn => ?_, hfault, fun hn hle cause hcause => ?_, fun reason hrefused =>
    ⟨of_stage_eq_refused hrefused, h.execute_stage hrefused⟩⟩
  · rw [h.exists_stage_iff, wellFormed_iff hn]
    refine ⟨fun ⟨hs, hchecks, _⟩ => ⟨hs, hchecks⟩, fun ⟨hs, hchecks⟩ => ⟨hs, hchecks, ?_⟩⟩
    exact h.size_values_le hn ((wellFormed_iff hn).2 ⟨hs, hchecks⟩)
  · rw [h.exists_stage_iff, hn]
    exact and_congr_right fun _ => and_iff_right nofun
  · obtain ⟨hs, -, ⟨i, hi, hover⟩ | ⟨hzero, -⟩⟩ := (hfault cause).1 hcause
    · obtain ⟨j, -, hj, hlt⟩ := hover.exists_lt hs hi
      exact absurd (hle j hj) (Nat.not_le.2 hlt)
    · omega

/-- Room for a basis of two rows. -/
def roomy : List (Operation Float) := [.setChainCapacity 1, .resize 2 2]

theorem stages_iff_of_reaches_roomy : ∃ f g : Factorization Float, initial.run roomy = .ok f ∧
    f.stage #[0, 2, 3] #[1, 0, 1] #[1, 2, 3] = .ok g ∧
    f.stage #[0, 2, 1] #[0] #[1] = .error (.fault .outOfRange) := by
  have hrun : Except.isOk (do
      let f ← initial.run roomy
      if f.rows ≠ 2 then throw .outOfRange
      return f : Except Fault (Factorization Float)) = true := by
    decide +kernel
  obtain ⟨f, hrun⟩ := exists_eq_ok_of_isOk hrun
  simp only [bind_eq_ok_iff, guard_eq_ok_iff, pure_eq_ok_iff, not_not] at hrun
  obtain ⟨_, hf, hrows, rfl⟩ := hrun
  have hreach := reaches_of_run hf
  obtain ⟨hstages, -⟩ := stages_iff_of_reaches .initial hreach #[0, 2, 3] #[1, 0, 1] #[1, 2, 3]
  obtain ⟨-, -, hfault, -⟩ := stages_iff_of_reaches .initial hreach #[0, 2, 1] #[0] #[1]
  rw [hrows] at hstages hfault
  obtain ⟨g, hg⟩ := (hstages (by decide)).2 ⟨⟨rfl, rfl, rfl⟩, ⟨fun _ => rfl, by decide, by decide⟩,
    by decide⟩
  refine ⟨_, g, hf, hg, (hfault _).2 ⟨⟨rfl, rfl, rfl⟩, rfl, .inl ⟨0, by decide, ?_⟩⟩⟩
  exact ⟨⟨fun _ => rfl, by decide, by decide⟩, by decide, nofun, by decide⟩

/-- Starts that decrease may be faulted for, and not refused. -/
theorem exists_fault_of_decreasing : ∃ f : Factorization Float, initial.run roomy = .ok f ∧
    f.rows = 2 ∧ ¬ WellFormed f.rows #[0, 2, 1] #[0] 1 ∧
      f.stage #[0, 2, 1] #[0] #[1] = .error (.fault .outOfRange) := by
  have hrun : Except.isOk (do
      let f ← initial.run roomy
      if f.rows ≠ 2 then throw .outOfRange
      return f : Except Fault (Factorization Float)) = true := by
    decide +kernel
  obtain ⟨f, hrun⟩ := exists_eq_ok_of_isOk hrun
  simp only [bind_eq_ok_iff, guard_eq_ok_iff, pure_eq_ok_iff, not_not] at hrun
  obtain ⟨_, hf, hrows, rfl⟩ := hrun
  have hlaid := (invariant_of_reaches .initial (reaches_of_run hf)).toLaidOut
  refine ⟨_, hf, hrows, fun h => ?_, hlaid.stage_eq_fault_iff.2 ?_⟩
  · have hle := h.le 1 (by omega)
    exact absurd hle (by decide)
  · rw [hrows]
    exact ⟨⟨rfl, rfl, rfl⟩, rfl, .inl ⟨0, by decide,
      ⟨fun _ => rfl, by decide, by decide⟩, by decide, nofun, by decide⟩⟩

end BasisLU.Factorization
