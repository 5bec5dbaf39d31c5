import Mathlib.Data.Fin.VecNotation
import BasisLU.Proofs.Factorization.Stored
import BasisLU.Proofs.Factorization.Invariant

/-!
# Rows outside the basis

The row order is as long as that of the largest basis there was. A row outside the present basis is
out of range if its place in the order is, or if a position outside the basis stands there: every
replacement and every solve of a packed vector that names it is a fault (`Rejects`). But a position
of the basis may stand there, left over from a larger basis (`Standing`). Then the row is taken for
the row that has this position (`Mistakes`). `rejects_or_mistakes` says that it is always one of the
two.
-/

namespace BasisLU

/-- An index, with `new` in the place of `old`. -/
def redirect (old new i : Nat) : Nat := if i = old then new else i

namespace IndexedVector

variable {α : Type} {v w : IndexedVector α} {old new : Nat}

/-- The vector that lists `new` in the place of `old`. -/
def rename (v : IndexedVector α) (old new : Nat) : IndexedVector α :=
  { v with indices := v.indices.map (redirect old new) }

/-- The entries of `w` are those of `v`, with `new` in the place of `old`. -/
def Renames (old new : Nat) (v w : IndexedVector α) : Prop :=
  w.entries = List.map (Prod.map (redirect old new) id) <$> v.entries

/-- Reading entries can only fail for want of a slot. -/
theorem eq_of_entries_eq_error {cause : Fault} (h : v.entries = .error cause) :
    cause = .outOfRange := by
  refine eq_of_mapM_eq_error (fun e _ cause' he => ?_) cause h
  simp only [bind_eq_error_iff, Fault.read_eq_error_iff, pure_ne_error, and_false, exists_false,
    or_false] at he
  exact he.2

/-- A packed vector is read by places in the list, whatever it lists there. -/
theorem renames_rename (hl : v.layout = .packed) (old new : Nat) :
    Renames old new v (v.rename old new) := by
  obtain ⟨elements, indices, layout⟩ := v
  cases hl
  rw [Renames, entries, entries, map_mapM, rename, List.zipIdx_map, List.mapM_map]
  refine mapM_congr fun e _ => ?_
  simp only [Function.comp_apply, Prod.map, id]
  cases Fault.read elements e.2 <;> rfl

end IndexedVector

namespace Factorization

variable {α : Type} {f : Factorization α} {v w : IndexedVector α} {row r slot : Nat} {pivot : α}

/-- A position of the basis stands at the place of the row in the row order. -/
def Standing (f : Factorization α) (row : Nat) : Prop :=
  ∃ p < f.rows, f.order.positionOf[row]? = some p

variable [Scalar α]

/-- Calls that name the row are out of range. -/
structure Rejects (f : Factorization α) (row : Nat) : Prop where
  slot (v : IndexedVector α) (pivot : α) : f.updates < f.config.chainCapacity →
    ¬ Scalar.magnitude pivot ≤ f.config.zeroTolerance →
    f.replace v row pivot = .error (.fault .outOfRange)
  listed (v : IndexedVector α) (slot : Nat) (pivot : α) : row ∈ v.indices →
    f.updates < f.config.chainCapacity → ¬ Scalar.magnitude pivot ≤ f.config.zeroTolerance →
    f.replace v slot pivot = .error (.fault .outOfRange)
  ftran (v : IndexedVector α) : v.layout = .packed → row ∈ v.indices →
    f.ftran v = .error .outOfRange
  btran (v : IndexedVector α) : v.layout = .packed → row ∈ v.indices →
    f.btran v = .error .outOfRange
  first (v w : IndexedVector α) (inPlace : Bool) : v.layout = .packed → row ∈ v.indices →
    f.ftranPair v w inPlace = .error .outOfRange
  second (v w v' : IndexedVector α) (inPlace : Bool) : w.layout = .packed → row ∈ w.indices →
    f.ftran v = .ok (v', f) →
    f.ftranPair v w inPlace = .error (if inPlace then .packedInPlace else .outOfRange)

/-- Calls that name the row do what they do for row `r`. -/
structure Mistakes (f : Factorization α) (row r : Nat) : Prop where
  slot (v : IndexedVector α) (pivot : α) : f.replace v row pivot = f.replace v r pivot
  listed (v w : IndexedVector α) (slot : Nat) (pivot : α) : IndexedVector.Renames row r v w →
    f.replace v slot pivot = f.replace w slot pivot
  ftran (v : IndexedVector α) : v.layout = .packed → f.ftran v = f.ftran (v.rename row r)
  btran (v : IndexedVector α) : v.layout = .packed → f.btran v = f.btran (v.rename row r)
  first (v w : IndexedVector α) (inPlace : Bool) : v.layout = .packed →
    f.ftranPair v w inPlace = f.ftranPair (v.rename row r) w inPlace
  second (v w : IndexedVector α) (inPlace : Bool) : w.layout = .packed →
    f.ftranPair v w inPlace = f.ftranPair v (w.rename row r) inPlace

/-! ## Positions -/

omit [Scalar α] in
theorem position_eq_ok_iff {p : Fin f.rows} :
    f.position row = .ok p ↔ f.order.positionOf[row]? = some p.val := by
  simp only [position, RowOrder.position, bind_eq_ok_iff, Fault.read_eq_ok_iff,
    Fault.below_eq_ok_iff, exists_eq_right]

omit [Scalar α] in
theorem eq_of_position_eq_error {cause : Fault} (h : f.position row = .error cause) :
    cause = .outOfRange := by
  simp only [position, RowOrder.position, bind_eq_error_iff, Fault.read_eq_error_iff,
    Fault.below_eq_error_iff] at h
  rcases h with ⟨-, h⟩ | ⟨_, -, -, h⟩ <;> exact h

omit [Scalar α] in
theorem position_of_not_standing (h : ¬ f.Standing row) : f.position row = .error .outOfRange := by
  cases hp : f.position row with
  | error cause => rw [eq_of_position_eq_error hp]
  | ok p => exact absurd ⟨p.val, p.isLt, position_eq_ok_iff.1 hp⟩ h

/-- Past the rows of the largest basis there is no place in the row order. -/
theorem Sound.not_standing (h : f.Sound) (hrow : f.mostRows ≤ row) : ¬ f.Standing row := by
  intro hs
  obtain ⟨p, -, hp⟩ := hs
  have hlt := (Array.getElem?_eq_some_iff.1 hp).1
  rw [h.size_positionOf] at hlt
  omega

/-! ## Rows that are rejected -/

omit [Scalar α] in
theorem eq_of_locateRows_eq_error {entries : List (Nat × α)} {cause : Fault}
    (h : f.locateRows entries = .error cause) : cause = .outOfRange := by
  refine eq_of_mapM_eq_error (fun e _ cause' he => ?_) cause h
  simp only [bind_eq_error_iff, pure_ne_error, and_false, exists_false, or_false] at he
  exact eq_of_position_eq_error he

omit [Scalar α] in
theorem locateRows_of_not_standing {entries : List (Nat × α)} (h : ¬ f.Standing row)
    (hrow : row ∈ entries.map Prod.fst) : f.locateRows entries = .error .outOfRange := by
  obtain ⟨⟨row, value⟩, he, rfl⟩ := List.mem_map.1 hrow
  cases hl : f.locateRows entries with
  | error cause => rw [eq_of_locateRows_eq_error hl]
  | ok placed =>
    obtain ⟨_, hplaced⟩ := exists_eq_ok_of_mapM hl _ he
    simp only [position_of_not_standing h] at hplaced
    cases hplaced

theorem newUpdate_of_not_standing {entries : List (Nat × α)} (h : ¬ f.Standing row)
    (hrow : row ∈ entries.map Prod.fst ∨ slot = row) :
    f.newUpdate entries slot pivot = .error .outOfRange := by
  rw [newUpdate]
  rcases hrow with hrow | rfl
  · rw [locateRows_of_not_standing h hrow]
    rfl
  · cases hl : f.locateRows entries with
    | error cause =>
      rw [eq_of_locateRows_eq_error hl]
      rfl
    | ok placed =>
      rw [ok_bind, position_of_not_standing h]
      rfl

theorem replace_of_not_standing (hvalid : f.status = .valid) (h : ¬ f.Standing row)
    (hrow : row ∈ v.indices ∨ slot = row) (hroom : f.updates < f.config.chainCapacity)
    (hpivot : ¬ Scalar.magnitude pivot ≤ f.config.zeroTolerance) :
    f.replace v slot pivot = .error (.fault .outOfRange) := by
  rw [replace, requireValid_eq_ok_iff (u := ()) |>.2 hvalid, if_neg (Nat.not_le.2 hroom),
    if_neg hpivot]
  cases hv : v.entries with
  | error cause =>
    rw [IndexedVector.eq_of_entries_eq_error hv]
    rfl
  | ok entries =>
    rw [← IndexedVector.fst_of_entries hv] at hrow
    have hupdate : f.newUpdate entries slot pivot = .error .outOfRange :=
      newUpdate_of_not_standing h hrow
    simp only [liftFault_ok, ok_bind, hupdate]
    rfl

theorem gather_of_not_standing (h : ¬ f.Standing row) (hl : v.layout = .packed)
    (hrow : row ∈ v.indices) (scratch : Vector α f.rows) :
    f.gather v scratch = .error .outOfRange := by
  rw [gather, hl]
  cases hv : v.entries with
  | error cause =>
    rw [IndexedVector.eq_of_entries_eq_error hv]
    rfl
  | ok entries =>
    rw [← IndexedVector.fst_of_entries hv] at hrow
    simp only [ok_bind, locateRows_of_not_standing h hrow]
    rfl

theorem Sound.solveThrough_of_not_standing (hf : f.Sound) (h : ¬ f.Standing row)
    (hl : v.layout = .packed) (hrow : row ∈ v.indices)
    (solve : Vector α f.rows → Vector α f.rows) (targets : List (Fin f.rows × Nat)) :
    f.solveThrough solve targets v = .error .outOfRange := by
  rw [solveThrough, hf.column_scratch, ok_bind, gather_of_not_standing h hl hrow]
  rfl

/-- A packed vector is not solved where it stands. -/
theorem ftranInPlace_of_packed (hl : v.layout = .packed) : f.ftranInPlace v =
    (f.requireValid .ftranBeforeFactor >>= fun _ => .error .packedInPlace) := by
  rw [ftranInPlace, if_pos hl]
  rfl

theorem Sound.rejects (hf : f.Sound) (hvalid : f.status = .valid) (h : ¬ f.Standing row) :
    f.Rejects row := by
  obtain ⟨F, hF⟩ := hf.exists_factors
  obtain ⟨σ, hσ⟩ := hf.exists_orders hvalid
  have hftran (v : IndexedVector α) (hl : v.layout = .packed) (hrow : row ∈ v.indices) :
      f.ftran v = .error .outOfRange := by
    rw [ftran_eq hvalid hF hσ, hf.solveThrough_of_not_standing h hl hrow]
  refine {
    slot := fun v pivot => replace_of_not_standing hvalid h (.inr rfl)
    listed := fun v slot pivot hrow => replace_of_not_standing hvalid h (.inl hrow)
    ftran := hftran
    btran := fun v hl hrow => ?_
    first := fun v w inPlace hl hrow => ?_
    second := fun v w v' inPlace hl hrow hv' => ?_ }
  · rw [btran_eq hvalid hF hσ, hf.solveThrough_of_not_standing h hl hrow]
  · rw [ftranPair, hftran v hl hrow]
    rfl
  · rw [ftranPair, hv', ok_bind]
    cases inPlace with
    | true =>
      simp only [ftranInPlace_of_packed hl, requireValid_eq_ok_iff (u := ()) |>.2 hvalid]
      rfl
    | false =>
      simp only [hftran w hl hrow]
      rfl

/-! ## Rows that are taken for others -/

omit [Scalar α] in
theorem locateRows_rename (h : f.position row = f.position r) (entries : List (Nat × α)) :
    f.locateRows (entries.map (Prod.map (redirect row r) id)) = f.locateRows entries := by
  rw [locateRows, List.mapM_map]
  refine mapM_congr fun e _ => ?_
  have hposition : f.position (redirect row r e.1) = f.position e.1 := by
    rw [redirect]
    split
    · rw [‹e.1 = row›, h]
    · rfl
  simp only [Function.comp_apply, Prod.map, hposition]
  rfl

theorem replace_of_renames (h : f.position row = f.position r)
    (hw : IndexedVector.Renames row r v w) : f.replace v slot pivot = f.replace w slot pivot := by
  have hupdate (entries : List (Nat × α)) :
      f.newUpdate (entries.map (Prod.map (redirect row r) id)) slot pivot =
        f.newUpdate entries slot pivot := by
    rw [newUpdate, locateRows_rename h, newUpdate]
  rw [replace, replace, hw]
  cases v.entries with
  | error cause => rfl
  | ok entries =>
    simp only [Functor.map, Except.map, liftFault_ok, ok_bind, hupdate]

theorem gather_rename (h : f.position row = f.position r) (hl : v.layout = .packed)
    (scratch : Vector α f.rows) : f.gather (v.rename row r) scratch = f.gather v scratch := by
  have hl' : (v.rename row r).layout = .packed := hl
  have hcount : (v.rename row r).count = v.count := List.length_map _
  rw [gather, gather, hl, hl', IndexedVector.renames_rename hl row r, hcount]
  cases v.entries with
  | error cause => rfl
  | ok entries =>
    simp only [Functor.map, Except.map, ok_bind, locateRows_rename h]
    rfl

theorem solveThrough_rename (h : f.position row = f.position r) (hl : v.layout = .packed)
    (solve : Vector α f.rows → Vector α f.rows) (targets : List (Fin f.rows × Nat)) :
    f.solveThrough solve targets (v.rename row r) = f.solveThrough solve targets v := by
  simp only [solveThrough, gather_rename h hl]

theorem ftran_rename (h : f.position row = f.position r) (hl : v.layout = .packed) :
    f.ftran v = f.ftran (v.rename row r) := by
  simp only [ftran, solveThrough_rename h hl]

theorem Sound.mistakes_of_position_eq (hf : f.Sound) (h : f.position row = f.position r) :
    f.Mistakes row r where
  slot v pivot := by simp only [Factorization.replace, newUpdate, h]
  listed v w slot pivot := replace_of_renames h
  ftran v := ftran_rename h
  btran v hl := by simp only [btran, solveThrough_rename h hl]
  first v w inPlace hl := by simp only [ftranPair, ftran_rename h hl]
  second v w inPlace hl := by
    rw [ftranPair, ftranPair]
    refine bind_congr_of_eq_ok fun r hr => ?_
    obtain ⟨v', f'⟩ := r
    obtain rfl := hf.eq_of_ftran hr
    have hl' : (w.rename row r).layout = .packed := hl
    simp only [ftran_rename h hl, ftranInPlace_of_packed hl, ftranInPlace_of_packed hl']

/-- The row that a row outside the basis is taken for is the one that has its position. -/
theorem Sound.exists_mistakes (hf : f.Sound) (hvalid : f.status = .valid) (h : f.Standing row) :
    ∃ r < f.rows, f.Mistakes row r := by
  obtain ⟨σ, hσ⟩ := hf.exists_orders hvalid
  obtain ⟨p, hlt, hp⟩ := h
  have hrow : f.position row = .ok ⟨p, hlt⟩ := position_eq_ok_iff.2 hp
  have hr : f.position (σ.symm ⟨p, hlt⟩) = .ok ⟨p, hlt⟩ := by
    rw [position, hσ.position, σ.apply_symm_apply]
  exact ⟨σ.symm ⟨p, hlt⟩, Fin.isLt _, hf.mistakes_of_position_eq (hrow.trans hr.symm)⟩

/-- After any calls that leave valid factors, a row is either rejected or taken for a row of the
basis. It is rejected if there never was a basis with so many rows. -/
theorem rejects_or_mistakes [LawfulScalar α] {start : Factorization α} (hnew : start.New)
    (hreach : Reaches start f) (hvalid : f.status = .valid) (row : Nat) :
    (f.mostRows ≤ row → ¬ f.Standing row) ∧ (¬ f.Standing row → f.Rejects row) ∧
      (f.Standing row → ∃ r < f.rows, f.Mistakes row r) := by
  have hf := (invariant_of_reaches hnew hreach).toSound
  exact ⟨hf.not_standing, hf.rejects hvalid, hf.exists_mistakes hvalid⟩

/-- The identity of two rows, where there was room for three. -/
def shrunk : List (Operation Float) :=
  [.setChainCapacity 1, .resize 3 3, .load ![![1, 0], ![0, 1]], .factor]

theorem rejects_or_mistakes_shrunk : ∃ f : Factorization Float, initial.run shrunk = .ok f ∧
    f.status = .valid ∧ f.rows = 2 ∧ (∃ r < f.rows, f.Mistakes 2 r) ∧ f.Rejects 3 := by
  have hrun : Except.isOk (do
      let f ← initial.run shrunk
      if ¬ (f.status = .valid ∧ f.rows = 2 ∧ f.mostRows = 3 ∧ f.order.positionOf[2]? = some 0) then
        throw .outOfRange
      return f : Except Fault (Factorization Float)) = true := by
    decide +kernel
  obtain ⟨f, hrun⟩ := exists_eq_ok_of_isOk hrun
  simp only [bind_eq_ok_iff, guard_eq_ok_iff, pure_eq_ok_iff, not_not] at hrun
  obtain ⟨_, hf, ⟨hvalid, hrows, hmost, hp⟩, rfl⟩ := hrun
  have hreach := reaches_of_run hf
  obtain ⟨-, -, hmistakes⟩ := rejects_or_mistakes .initial hreach hvalid 2
  obtain ⟨hnot, hrejects, -⟩ := rejects_or_mistakes .initial hreach hvalid 3
  exact ⟨_, hf, hvalid, hrows, hmistakes ⟨0, by omega, hp⟩, hrejects (hnot hmost.le)⟩

/-- A row outside the basis may have its column replaced, and may be solved for. -/
theorem exists_replace_eq_ok_of_outside : ∃ (f g h : Factorization Float)
    (w : IndexedVector Float), initial.run shrunk = .ok f ∧ f.status = .valid ∧ f.rows ≤ 2 ∧
      f.replace (.empty 2) 2 2 = .ok g ∧ f.ftran ⟨#[1, 0], [2], .packed⟩ = .ok (w, h) := by
  have hrun : Except.isOk (do
      let f ← liftM (initial.run shrunk)
      let g ← f.replace (.empty 2) 2 2
      let (w, h) ← liftM (f.ftran ⟨#[1, 0], [2], .packed⟩)
      if ¬ (f.status = .valid ∧ f.rows ≤ 2) then throw (.fault .outOfRange)
      return (g, w, h) : Except Failure
        (Factorization Float × IndexedVector Float × Factorization Float)) = true := by
    decide +kernel
  obtain ⟨_, hrun⟩ := exists_eq_ok_of_isOk hrun
  simp only [bind_eq_ok_iff, guard_eq_ok_iff, liftFault_eq_ok_iff, not_not] at hrun
  obtain ⟨f, hf, g, hg, ⟨w, h⟩, hw, ⟨hvalid, hrows⟩, -⟩ := hrun
  exact ⟨f, g, h, w, hf, hvalid, hrows, hg, hw⟩

end Factorization

end BasisLU
