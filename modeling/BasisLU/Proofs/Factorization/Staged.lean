import BasisLU.Proofs.Factorization.Sound

/-!
# Staged columns that can be expanded

Staging lets only columns through that can be expanded in place (`checkStaged_eq_ok_iff`): a column
starts no later than the slot its dense copy goes to, ends in the block, and names rows of the basis
(`Staged.Fits`). The columns stay `Staged.Expandable` while the block grows or its values change,
and they are so for the rows they were staged for, whatever basis is held in between. For another
number of rows they are not expanded, but refused. So expanding never faults
(`Sound.exists_expand`).
-/

namespace BasisLU

/-- Compressed column `i` of `n` rows can be expanded in a block of `size` slots. -/
def Staged.Fits (staged : Staged) (n size i : Nat) : Prop :=
  ∃ start stop, staged.starts[i]? = some start ∧ staged.starts[i + 1]? = some stop ∧
    start ≤ i * n ∧ stop ≤ size ∧
    ∀ place, start ≤ place → place < stop → ∃ r : Fin n, staged.rows[place]? = some r.val

/-- All columns can be expanded, for the rows that they were staged for. -/
def Staged.Expandable (staged : Staged) (size : Nat) : Prop :=
  ∀ n, staged.starts.size = n + 1 → ∀ i < n, staged.Fits n size i

theorem Staged.Expandable.mono {staged : Staged} {size size' : Nat} (h : staged.Expandable size)
    (hle : size ≤ size') : staged.Expandable size' := fun n hn i hi => by
  obtain ⟨start, stop, hstart, hstop, hput, hsize, hrows⟩ := h n hn i hi
  exact ⟨start, stop, hstart, hstop, hput, hsize.trans hle, hrows⟩

theorem expandable_empty (size : Nat) : (⟨#[], #[]⟩ : Staged).Expandable size := fun n hn => by
  simp at hn

namespace Factorization

variable {α : Type}

/-! ## Staging -/

theorem checkStaged_eq_ok_iff {n i : Nat} {starts rows : Array Nat} :
    checkStaged n starts rows i = .ok () ↔ ∃ start stop, starts[i]? = some start ∧
      starts[i + 1]? = some stop ∧ start ≤ stop ∧ stop - start ≤ n ∧ start ≤ i * n ∧
      stop ≤ rows.size ∧ ∀ row ∈ rows.extract start stop, row < n := by
  simp only [checkStaged, bind_eq_ok_iff, liftFault_eq_ok_iff, Fault.read_eq_ok_iff,
    guard_eq_ok_iff, Nat.not_lt, exists_and_left]
  refine exists_congr fun start => and_congr_right fun _ => exists_congr fun stop =>
    and_congr_right fun _ => and_congr_right fun _ => and_congr_right fun _ =>
    and_congr_right fun _ => and_congr_right fun _ => ?_
  split
  · rename_i hany
    refine iff_of_false nofun fun h => ?_
    obtain ⟨row, hrow, hle⟩ := Array.any_eq_true'.1 hany
    exact absurd (h row hrow) (Nat.not_lt.2 (of_decide_eq_true hle))
  · rename_i hany
    refine iff_of_true rfl fun row hrow => Nat.lt_of_not_le fun hle => hany ?_
    exact Array.any_eq_true'.2 ⟨row, hrow, decide_eq_true hle⟩

variable {f g : Factorization α}

theorem stage_eq_ok_iff {starts rows : Array Nat} {values : Array α} :
    f.stage starts rows values = .ok g ↔ starts.size = f.columns + 1 ∧ rows.size = values.size ∧
      starts[f.columns]? = some values.size ∧
      (∀ i < f.columns, checkStaged f.rows starts rows i = .ok ()) ∧
      values.size ≤ f.block.size ∧
      { f with
        block := f.block.mapIdx fun slot x => if h : slot < values.size then values[slot] else x
        staged := ⟨starts, rows⟩ } = g := by
  simp only [stage, guard_eq_ok_iff, bind_eq_ok_iff, liftFault_eq_ok_iff, Fault.read_eq_ok_iff,
    pure_eq_ok_iff, ne_eq, not_not, Nat.not_lt]
  constructor
  · intro h
    obtain ⟨hstarts, hrows, _, htotal, rfl, _, hcheck, hsize, rfl⟩ := h
    exact ⟨hstarts, hrows, htotal, fun i hi => forM_eq_ok_iff.1 hcheck i (List.mem_range.2 hi),
      hsize, rfl⟩
  · intro h
    obtain ⟨hstarts, hrows, htotal, hcheck, hsize, rfl⟩ := h
    exact ⟨hstarts, hrows, _, htotal, rfl, (),
      forM_eq_ok_iff.2 fun i hi => hcheck i (List.mem_range.1 hi), hsize, rfl⟩

/-- What was staged can be expanded. -/
theorem expandable_of_stage (hf : f.LaidOut) {starts rows : Array Nat} {values : Array α}
    (hg : f.stage starts rows values = .ok g) : g.staged.Expandable g.block.size := by
  obtain ⟨hstarts, hrows, -, hcheck, hsize, rfl⟩ := stage_eq_ok_iff.1 hg
  intro n hn i hi
  obtain rfl : f.rows = n := by
    have := hf.columns_eq
    simp only at hn
    omega
  obtain ⟨start, stop, hstart, hstop, -, -, hput, hle, hall⟩ :=
    checkStaged_eq_ok_iff.1 (hcheck i (by have := hf.columns_eq; omega))
  refine ⟨start, stop, hstart, hstop, hput, ?_, fun place hplace hlt => ?_⟩
  · rw [Array.size_mapIdx]
    omega
  · have hin : place < rows.size := by omega
    have hmem : rows[place] ∈ rows.extract start stop :=
      Array.mem_extract_iff_getElem.2 ⟨place - start, by omega, by simp [hplace]⟩
    exact ⟨⟨rows[place], hall _ hmem⟩, Array.getElem?_eq_getElem hin⟩

/-! ## Expanding -/

variable [Scalar α]

theorem exists_expandColumn {n i : Nat} {staged : Staged} {block : Array α}
    (h : staged.Fits n block.size i) (hi : i * n + n ≤ block.size) :
    ∃ block', expandColumn n staged block i = .ok block' := by
  obtain ⟨start, stop, hstart, hstop, hput, hsize, hrows⟩ := h
  obtain ⟨entries, hentries⟩ :
      ∃ entries, stagedEntries n staged block start stop = .ok entries := by
    refine exists_mapM_eq_ok fun place hplace => ?_
    obtain ⟨hle, hlt⟩ := List.mem_range'_1.1 hplace
    obtain ⟨r, hr⟩ := hrows place hle (by omega)
    simp only [bind_eq_ok_iff, pure_eq_ok_iff]
    exact ⟨_, _, Fault.read_eq_ok_iff.2 hr, r, Fault.below_of_lt r.isLt, _,
      Fault.read_of_lt (show place < block.size by omega), rfl⟩
  obtain ⟨block', hblock'⟩ : ∃ block',
      Block.setColumn i (scatter entries (Vector.replicate n 0)) block = .ok block' :=
    Block.setColumn_of_le hi
  simp only [expandColumn, bind_eq_ok_iff, guard_eq_ok_iff]
  exact ⟨block', start, Fault.read_eq_ok_iff.2 hstart, stop, Fault.read_eq_ok_iff.2 hstop,
    Nat.not_lt.2 hput, entries, hentries, hblock'⟩

theorem Sound.exists_expand (h : f.Sound) (he : f.staged.Expandable f.block.size)
    (hsize : f.staged.starts.size = f.columns + 1) : ∃ g, f.expand = .ok g := by
  have hcolumns := h.columns_eq
  obtain ⟨block, hblock, -⟩ : ∃ block, expandBlock f.rows f.columns f.staged f.block = .ok block ∧
      block.size = f.block.size := by
    refine exists_foldlM_eq_ok rfl fun i hi block hblock => ?_
    have hi := List.mem_range.1 (List.mem_reverse.1 hi)
    have hfits : f.staged.Fits f.rows block.size i := hblock ▸ he f.rows (by omega) i (by omega)
    obtain ⟨block', hblock'⟩ := exists_expandColumn hfits (hblock ▸ h.column_le (by omega))
    exact ⟨block', hblock', (size_expandColumn hblock').trans hblock⟩
  exact ⟨_, h.expand_eq_ok_iff.2 ⟨hsize, block, hblock, rfl⟩⟩

end Factorization

end BasisLU
