import BasisLU.Proofs.Factorization.InPlace
import BasisLU.Proofs.Ordered

/-!
# The form of a solution

A vector is solved in one of three ways (`Mode`). Each computes a value for every index of the basis
(`computed`), and fills those above the zero tolerance into the vector (`Filled`), in their order
and without change (`Sound.exists_filled_of_solveBy`).

So what a solve leaves has one form, whatever the operations of the scalars return (`SolvedForm`).
The indices are distinct and in order: rows of the transposed basis as they were pivoted, others by
size. Every value listed is above the tolerance, so it is a number and not zero. And if the vector
was clean, no other slot holds anything (`exists_solvedForm`).
-/

namespace BasisLU

variable {α : Type} [Scalar α]

namespace IndexedVector

variable {v w : IndexedVector α} {found : List (Nat × α)}

/-- The slot of entry number `k`, which has index `i`. -/
def slot (v : IndexedVector α) (k i : Nat) : Nat :=
  match v.layout with
  | .packed => k
  | .scattered => i

/-- `w` has the layout and the capacity of `v`, lists the indices found, and holds the values in
their slots. -/
structure Filled (v w : IndexedVector α) (found : List (Nat × α)) : Prop where
  layout_eq : w.layout = v.layout
  capacity_eq : w.capacity = v.capacity
  indices_eq : w.indices = found.map Prod.fst
  getElem?_slot : ∀ k e, found[k]? = some e → w.elements[w.slot k e.1]? = some e.2

omit [Scalar α] in
theorem Filled.entries_eq (h : v.Filled w found) : w.entries = .ok found := by
  rw [entries, mapM_eq_ok_iff, List.forall₂_iff_get]
  refine ⟨by simp [h.indices_eq], fun k hk hk' => ?_⟩
  have hslot := h.getElem?_slot k _ (List.getElem?_eq_getElem hk')
  simp only [List.get_eq_getElem, List.getElem_zipIdx, h.indices_eq, List.getElem_map,
    Nat.zero_add, bind_eq_ok_iff, pure_eq_ok_iff, Fault.read_eq_ok_iff]
  exact ⟨_, hslot, rfl⟩

omit [Scalar α] in
theorem Filled.getElem?_packed (h : v.Filled w found) (hl : w.layout = .packed) {k : Nat}
    {e : Nat × α} (he : found[k]? = some e) : w.elements[k]? = some e.2 := by
  have hslot := h.getElem?_slot k e he
  rwa [slot, hl] at hslot

omit [Scalar α] in
theorem Filled.getElem?_scattered (h : v.Filled w found) (hl : w.layout = .scattered)
    {e : Nat × α} (he : e ∈ found) : w.elements[e.1]? = some e.2 := by
  obtain ⟨k, hk⟩ := List.mem_iff_getElem?.1 he
  have hslot := h.getElem?_slot k e hk
  rwa [slot, hl] at hslot

omit [Scalar α] in
theorem filled_of_fill (h : v.fill found = .ok w) (hnodup : (found.map Prod.fst).Nodup) :
    v.Filled w found := by
  obtain ⟨hlayout, hindices, -⟩ := getElem?_of_fill h
  refine ⟨hlayout, ?_, hindices, fun k e he => ?_⟩
  · simp only [fill, bind_eq_ok_iff, pure_eq_ok_iff] at h
    obtain ⟨placed, -, rfl⟩ := h
    simp [capacity]
  · rw [slot, hlayout]
    cases hl : v.layout with
    | scattered => exact getElem?_of_mem_fill h hl hnodup (List.mem_of_getElem? he)
    | packed =>
      simp only [fill, hl, bind_eq_ok_iff, pure_eq_ok_iff] at h
      obtain ⟨placed, hplaced, rfl⟩ := h
      have hmem : (k, e.2) ∈ (List.range found.length).zip (found.map Prod.snd) := by
        obtain ⟨hlt, rfl⟩ := List.getElem?_eq_some_iff.1 he
        exact List.mem_iff_getElem?.2 ⟨k, by simp [hlt]⟩
      refine getElem?_scatter_of_locate hplaced ?_ hmem _
      rw [List.map_fst_zip (by simp)]
      exact List.nodup_range

end IndexedVector

namespace Factorization

variable {f g : Factorization α} {v w : IndexedVector α} {σ : Equiv.Perm (Fin f.rows)}

/-- The ways to solve a vector by a basis. -/
inductive Mode where
  /-- For the basis, from rows to slots. -/
  | forward
  /-- For the basis, where the vector stands. -/
  | inPlace
  /-- For the transposed basis, from slots to rows. -/
  | transposed

/-- The vector after it is solved. -/
def solveBy (f : Factorization α) (mode : Mode) (v : IndexedVector α) :
    Except Fault (IndexedVector α) :=
  match mode with
  | .forward => return (← f.ftran v).1
  | .inPlace => f.ftranInPlace v
  | .transposed => return (← f.btran v).1

/-- What the factors and updates make of a vector: the indices of the solution with their values, in
the order in which they are put back. -/
def computed (f : Factorization α) (mode : Mode) (v : IndexedVector α) :
    Except Fault (List (Nat × α)) :=
  match mode with
  | .forward => do
    let (b, _) ← f.gather v (← Block.column f.rows 0 f.scratch)
    let x := (← f.factors).solve b
    return (← f.slotTargets).map fun t => (t.2, x.get t.1)
  | .inPlace => do
    let x := (← f.factors).solve (← Block.column f.rows 0 v.elements)
    return (List.finRange f.rows).map fun p => (p.val, x.get p)
  | .transposed => do
    let (b, _) ← f.gather v (← Block.column f.rows 0 f.scratch)
    let x := (← f.factors).solveTransposed b
    return (← f.rowTargets).map fun t => (t.2, x.get t.1)

/-- The indices of a solution in the order in which they are put back. -/
def Mode.indices {n : Nat} (mode : Mode) (σ : Equiv.Perm (Fin n)) : List Nat :=
  match mode with
  | .forward | .inPlace => (List.finRange n).map Fin.val
  | .transposed => (List.finRange n).map fun p => (σ.symm p).val

theorem kept_eq_filter {n : Nat} (tolerance : α) (targets : List (Fin n × Nat)) (x : Vector α n) :
    kept tolerance targets x = (targets.map fun t => (t.2, x.get t.1)).filter
      fun e => tolerance < Scalar.magnitude e.2 := by
  rw [kept_eq, List.filter_map]
  rfl

/-- Gathering takes values and the list of a vector, and leaves its shape. -/
theorem shape_of_gather {scratch b : Vector α f.rows} {emptied : IndexedVector α}
    (h : f.gather v scratch = .ok (b, emptied)) :
    emptied.layout = v.layout ∧ emptied.capacity = v.capacity := by
  cases hl : v.layout with
  | packed =>
    simp only [gather, hl, bind_eq_ok_iff, pure_eq_ok_iff, Prod.mk.injEq] at h
    obtain ⟨_, -, _, -, -, rfl⟩ := h
    exact ⟨rfl, by simp [IndexedVector.capacity]⟩
  | scattered =>
    simp only [gather, hl, bind_eq_ok_iff, pure_eq_ok_iff, Prod.mk.injEq] at h
    obtain ⟨_, -, -, rfl⟩ := h
    exact ⟨rfl, by simp [IndexedVector.capacity]⟩

/-- A solve through the scratch buffer fills what is kept of the solution into the vector. -/
theorem Sound.exists_filled_of_solveThrough [LawfulZero α] (h : f.Sound) (hσ : f.order.Orders σ)
    {targets : List (Fin f.rows × Nat)} (ht : Covers σ targets) (hv : f.Accepts v)
    (solve : Vector α f.rows → Vector α f.rows) :
    ∃ b emptied w, f.gather v (Vector.replicate f.rows 0) = .ok (b, emptied) ∧
      f.solveThrough solve targets v = .ok (w, f) ∧
      v.Filled w ((targets.map fun t => (t.2, (solve b).get t.1)).filter
        fun e => f.config.zeroTolerance < Scalar.magnitude e.2) := by
  obtain ⟨w, hw⟩ := h.exists_solveThrough hσ ht hv solve
  obtain ⟨-, b, emptied, hgather, hfill⟩ := (h.solveThrough_eq_ok_iff ht).1 hw
  have hfilled := IndexedVector.filled_of_fill hfill (kept_nodup ht _ _)
  rw [kept_eq_filter] at hfilled
  obtain ⟨hlayout, hcapacity⟩ := shape_of_gather hgather
  exact ⟨b, emptied, w, hgather, hw, hfilled.layout_eq.trans hlayout,
    hfilled.capacity_eq.trans hcapacity, hfilled.indices_eq, hfilled.getElem?_slot⟩

/-- A solve where the vector stands leaves what is kept of the solution in it. -/
theorem exists_filled_of_ftranInPlace (hvalid : f.status = .valid) {F : Factors α f.rows}
    (hF : f.factors = .ok F) (hl : v.layout = .scattered) {b : Vector α f.rows}
    (hb : Block.column f.rows 0 v.elements = .ok b) :
    ∃ w, f.ftranInPlace v = .ok w ∧
      v.Filled w (((List.finRange f.rows).map fun p => (p.val, (F.solve b).get p)).filter
        fun e => f.config.zeroTolerance < Scalar.magnitude e.2) := by
  obtain ⟨w, hw, hsifts⟩ := exists_sifts_of_ftranInPlace hvalid hF hl hb
  refine ⟨w, hw, ?_⟩
  simp only [ftranInPlace, bind_eq_ok_iff, guard_eq_ok_iff, pure_eq_ok_iff] at hw
  obtain ⟨-, -, -, _, -, _, -, elements, helements, rfl⟩ := hw
  refine ⟨rfl, Block.size_setColumn helements, hsifts.indices_eq.trans ?_, fun k e he => ?_⟩
  · rw [List.filter_map, List.map_map]
    rfl
  · obtain ⟨hmem, hlarge⟩ := List.mem_filter.1 (List.mem_of_getElem? he)
    obtain ⟨p, -, rfl⟩ := List.mem_map.1 hmem
    have hvalue := hsifts.getElem?_eq p
    rw [if_pos (of_decide_eq_true hlarge)] at hvalue
    rwa [IndexedVector.slot, hl]

/-- Every way to solve a vector succeeds. What it computes has every index once, and is filled into
the vector as far as it is above the tolerance. -/
theorem Sound.exists_filled_of_solveBy [LawfulZero α] (h : f.Sound) (hvalid : f.status = .valid)
    (hσ : f.order.Orders σ) (hv : f.Accepts v) (mode : Mode)
    (hl : mode = .inPlace → v.layout = .scattered) :
    ∃ w pairs, f.solveBy mode v = .ok w ∧ f.computed mode v = .ok pairs ∧
      pairs.map Prod.fst = mode.indices σ ∧
      v.Filled w (pairs.filter fun e => f.config.zeroTolerance < Scalar.magnitude e.2) := by
  obtain ⟨F, hF⟩ := h.exists_factors
  cases mode with
  | forward =>
    obtain ⟨b, emptied, w, hgather, hw, hfilled⟩ :=
      h.exists_filled_of_solveThrough hσ (covers_slots σ) hv F.solve
    refine ⟨w, _, ?_, ?_, ?_, hfilled⟩
    · rw [solveBy, ftran_eq hvalid hF hσ, hw]
      rfl
    · simp only [computed, h.column_scratch, hgather, hF, slotTargets_eq_ok hσ, ok_bind]
      rfl
    · simp [Mode.indices, List.map_map, Function.comp_def]
  | inPlace =>
    obtain ⟨b, hb⟩ : ∃ b, Block.column f.rows 0 v.elements = .ok b :=
      Block.column_of_le (by rw [Nat.zero_mul, Nat.zero_add]; exact hv.rows_le)
    obtain ⟨w, hw, hfilled⟩ := exists_filled_of_ftranInPlace hvalid hF (hl rfl) hb
    refine ⟨w, _, hw, ?_, ?_, hfilled⟩
    · rw [computed, hF, ok_bind, hb]
      rfl
    · simp [Mode.indices, List.map_map, Function.comp_def]
  | transposed =>
    obtain ⟨b, emptied, w, hgather, hw, hfilled⟩ :=
      h.exists_filled_of_solveThrough hσ (covers_positions σ) hv F.solveTransposed
    refine ⟨w, _, ?_, ?_, ?_, hfilled⟩
    · rw [solveBy, btran_eq hvalid hF hσ, hw]
      rfl
    · simp only [computed, h.column_scratch, hgather, hF, rowTargets_eq_ok hσ, ok_bind]
      rfl
    · simp [Mode.indices, List.map_map, Function.comp_def]

/-! ## The order of a solution -/

omit [Scalar α] in
theorem Mode.indices_perm {n : Nat} (mode : Mode) (σ : Equiv.Perm (Fin n)) :
    (mode.indices σ).Perm (List.range n) := by
  rw [← List.map_coe_finRange_eq_range]
  cases mode with
  | forward => exact .refl _
  | inPlace => exact .refl _
  | transposed =>
    rw [indices, show ((List.finRange n).map fun p => (σ.symm p).val) =
      ((List.finRange n).map σ.symm).map Fin.val by rw [List.map_map]; rfl]
    exact (Equiv.Perm.map_finRange_perm σ.symm).map Fin.val

/-- Whether an index comes before another one in a solution: the lesser one does, or for the
transposed basis the row at the lesser position. -/
def Before (f : Factorization α) (mode : Mode) (i j : Nat) : Prop :=
  match mode with
  | .forward | .inPlace => i < j
  | .transposed => ∃ p q, f.positions[i]? = some p ∧ f.positions[j]? = some q ∧ p < q

omit [Scalar α] in
theorem pairwise_before (hσ : f.order.Orders σ) (mode : Mode) :
    (mode.indices σ).Pairwise (f.Before mode) := by
  cases mode with
  | forward => exact List.pairwise_map.2 (List.pairwise_lt_finRange _)
  | inPlace => exact List.pairwise_map.2 (List.pairwise_lt_finRange _)
  | transposed =>
    refine List.pairwise_map.2 ((List.pairwise_lt_finRange _).imp fun {p q} hpq => ?_)
    have hposition (p : Fin f.rows) : f.positions[(σ.symm p).val]? = some p.val := by
      rw [getElem?_positions rfl hσ, σ.apply_symm_apply]
    exact ⟨p, q, hposition p, hposition q, hpq⟩

/-- What a solve leaves in a vector that was `v`: distinct indices of the basis in order, with
values above the zero tolerance in their slots, and zero in every other slot. -/
structure SolvedForm (f : Factorization α) (mode : Mode) (v w : IndexedVector α)
    (entries : List (Nat × α)) : Prop where
  layout_eq : w.layout = v.layout
  capacity_eq : w.capacity = v.capacity
  entries_eq : w.entries = .ok entries
  indices_eq : w.indices = entries.map Prod.fst
  nodup : w.indices.Nodup
  lt : ∀ i ∈ w.indices, i < f.rows
  ordered : w.indices.Pairwise (f.Before mode)
  large : ∀ e ∈ entries, f.config.zeroTolerance < Scalar.magnitude e.2
  isNumber : ∀ e ∈ entries, Scalar.IsNumber e.2
  isZero : ∀ e ∈ entries, Scalar.isZero e.2 = false
  packed : w.layout = .packed →
    ∀ (k : Nat) (e : Nat × α), entries[k]? = some e → w.elements[k]? = some e.2
  scattered : w.layout = .scattered → ∀ e : Nat × α, e ∈ entries → w.elements[e.1]? = some e.2
  zero : ∀ slot x, w.elements[slot]? = some x → w.occupied slot = false → Scalar.isZero x = true

/-- A solve is one of the calls that solve a vector. -/
theorem solved_of_solveBy {mode : Mode} (h : f.solveBy mode v = .ok w) : f.Solved v w := by
  cases mode with
  | forward =>
    simp only [solveBy, bind_eq_ok_iff, pure_eq_ok_iff] at h
    obtain ⟨⟨_, g⟩, h, rfl⟩ := h
    exact .ftran h
  | inPlace => exact .ftranInPlace h
  | transposed =>
    simp only [solveBy, bind_eq_ok_iff, pure_eq_ok_iff] at h
    obtain ⟨⟨_, g⟩, h, rfl⟩ := h
    exact .btran h

/-- Every way to solve a clean vector by a valid factorization succeeds and leaves that form. The
scalars need only be compared as numbers are. -/
theorem exists_solvedForm [LawfulScalar α] [OrderedScalar α] [LawfulMagnitude α]
    {start : Factorization α} (hnew : start.New) (hreach : Reaches start f)
    (hvalid : f.status = .valid) (hv : f.Accepts v) (hclean : v.isClean = true) (mode : Mode)
    (hl : mode = .inPlace → v.layout = .scattered) :
    ∃ w entries, f.solveBy mode v = .ok w ∧ f.SolvedForm mode v w entries := by
  have hf := invariant_of_reaches hnew hreach
  have htol := (Config.check_eq_ok_iff.1 hf.check).1.1
  obtain ⟨σ, hσ⟩ := hf.exists_orders hvalid
  obtain ⟨w, pairs, hw, -, hindices, hfilled⟩ := hf.exists_filled_of_solveBy hvalid hσ hv mode hl
  have hlarge : ∀ e ∈ pairs.filter fun e => f.config.zeroTolerance < Scalar.magnitude e.2,
      f.config.zeroTolerance < Scalar.magnitude e.2 := fun e he => by
    simpa using (List.mem_filter.1 he).2
  obtain ⟨entries, hentries⟩ : ∃ entries, (pairs.filter fun e =>
      f.config.zeroTolerance < Scalar.magnitude e.2) = entries := ⟨_, rfl⟩
  rw [hentries] at hfilled hlarge
  have hsublist : w.indices.Sublist (mode.indices σ) := by
    rw [hfilled.indices_eq, ← hindices, ← hentries]
    exact List.filter_sublist.map Prod.fst
  have hclear : v.ClearFrom f.rows := fun _ i hi hle => absurd (hv.lt i hi) (Nat.not_lt.2 hle)
  have hwclean := (hf.isClean_iff_of_solved hclean hv.rows_le (solved_of_solveBy hw)).2 hclear
  refine ⟨w, entries, hw, {
    layout_eq := hfilled.layout_eq
    capacity_eq := hfilled.capacity_eq
    entries_eq := hfilled.entries_eq
    indices_eq := hfilled.indices_eq
    nodup := ((mode.indices_perm σ).nodup_iff.2 List.nodup_range).sublist hsublist
    lt := fun i hi => List.mem_range.1 ((mode.indices_perm σ).mem_iff.1 (hsublist.subset hi))
    ordered := (pairwise_before hσ mode).sublist hsublist
    large := hlarge
    isNumber := fun e he => Scalar.isNumber_of_lt_magnitude (hlarge e he)
    isZero := fun e he => Scalar.isZero_of_lt_magnitude htol (hlarge e he)
    packed := fun hl _ _ he => hfilled.getElem?_packed hl he
    scattered := fun hl _ he => hfilled.getElem?_scattered hl he
    zero := fun slot x hx ho =>
      (IndexedVector.isClean_iff_getElem?.1 hwclean slot x hx).resolve_left (by simp [ho]) }⟩

/-- A right-hand side with one entry. -/
def lone : IndexedVector Float := ⟨#[1, 0, 0, 0], [2], .packed⟩

theorem exists_solvedForm_exchanged :
    ∃ (f : Factorization Float) (w : IndexedVector Float) (entries : List (Nat × Float)),
      initial.run exchanged = .ok f ∧ f.positions = #[1, 2, 0] ∧
      f.solveBy .transposed lone = .ok w ∧ w.indices = [2, 0, 1] ∧
      f.SolvedForm .transposed lone w entries := by
  have hrun : Except.isOk (do
      let f ← initial.run exchanged
      if ¬ (f.status = .valid ∧ f.rows = 3 ∧ f.positions = #[1, 2, 0]) then throw .outOfRange
      let w ← f.solveBy .transposed lone
      if w.indices ≠ [2, 0, 1] then throw .outOfRange
      return f : Except Fault (Factorization Float)) = true := by
    decide +kernel
  obtain ⟨_, hrun⟩ := exists_eq_ok_of_isOk hrun
  simp only [bind_eq_ok_iff, guard_eq_ok_iff, pure_eq_ok_iff, not_not] at hrun
  obtain ⟨f, hf, ⟨hvalid, hrows, hpositions⟩, w, hw, hindices, rfl⟩ := hrun
  have hpacked : IndexedVector.ofPacked 4 [2] [1] = .ok lone := rfl
  have haccepts : f.Accepts lone :=
    ⟨.ofPacked hpacked, by simp [hrows, lone, IndexedVector.capacity], by simp [hrows, lone]⟩
  obtain ⟨w', entries, hw', hform⟩ := exists_solvedForm .initial (reaches_of_run hf) hvalid haccepts
    (by decide +kernel) .transposed (by simp)
  cases hw.symm.trans hw'
  exact ⟨f, w, entries, hf, hpositions, hw, hindices, hform⟩

end Factorization

end BasisLU
