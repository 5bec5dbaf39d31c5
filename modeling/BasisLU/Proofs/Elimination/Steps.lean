import Mathlib.Data.Fintype.EquivFin
import Mathlib.LinearAlgebra.Matrix.Defs
import Mathlib.Logic.Relation
import BasisLU.Proofs.Kernel
import BasisLU.Elimination

/-!
# Steps of elimination

Elimination as a sequence of steps (`Steps`), for any scalars. `eliminate` leads to the only state
without a further step (`steps_eliminate`, `step?_eliminate`, `eliminate_eq_of_steps`).

A step exchanges two rows and then clears one column (`pivot_eq`), and both are described entry by
entry: an exchange reads every column through a transposition (`matrix_exchange`), and clearing
column `i` changes that column and what is below row `i` in the later ones (`matrix_clear_of_lt`,
`matrix_clear_self`, `matrix_clear_of_gt`). If magnitudes are ordered strictly, the row to pivot on
is one with no larger entry below the diagonal (`not_lt_of_pivotRow?`), and it is that of the
diagonal if there can be a choice (`pivotRow?_eq_self`). A position that is done keeps its row
(`rowAt_of_steps`), and no row is ever at two positions (`rowAt_injective`).
-/

namespace BasisLU

/-- The columns of a square as a matrix. -/
def Square.matrix {α : Type} {n : Nat} (columns : Square α n) : Matrix (Fin n) (Fin n) α :=
  Matrix.of fun i k => (columns.get k).get i

namespace Elimination

open Relation (ReflTransGen)

variable {α : Type} {n : Nat}

/-! ## Entries of a step -/

theorem get_swap {β : Type} (x : Vector β n) (i p r : Fin n) :
    (x.swap i p i.isLt p.isLt).get r = x.get (Equiv.swap i p r) := by
  simp only [get_eq_getElem, Vector.getElem_swap, Equiv.swap_apply_def, Fin.ext_iff]
  split
  · rfl
  · split <;> rfl

/-- The rows at positions `i` and `p` exchanged. -/
def exchange (e : Elimination α n) (i p : Fin n) : Elimination α n :=
  { e with
    columns := e.columns.map (·.swap i p i.isLt p.isLt)
    rowAt := e.rowAt.swap i p i.isLt p.isLt }

theorem matrix_exchange (e : Elimination α n) (i p r k : Fin n) :
    (e.exchange i p).columns.matrix r k = e.columns.matrix (Equiv.swap i p r) k := by
  have := get_swap (e.columns.get k) i p r
  simpa [exchange, Square.matrix] using this

theorem rowAt_exchange (e : Elimination α n) (i p r : Fin n) :
    (e.exchange i p).rowAt.get r = e.rowAt.get (Equiv.swap i p r) := get_swap _ _ _ _

variable [Scalar α]

/-- Column `i` done, with its pivot on the diagonal already. -/
def clear (e : Elimination α n) (i : Fin n) : Elimination α n where
  columns := Vector.ofFn fun k =>
    if k < i then e.columns.get k
    else if k = i then lead (e.columns.get i) i
    else Kernel.subtractMultiple (i < ·) ((e.columns.get k).get i) (lead (e.columns.get i) i)
      (e.columns.get k)
  rowAt := e.rowAt
  good := e.good + 1

theorem pivot_eq (e : Elimination α n) (i p : Fin n) : e.pivot i p = (e.exchange i p).clear i := rfl

theorem get_lead (column : Vector α n) (i r : Fin n) :
    (lead column i).get r =
      if r < i then column.get r
      else if r = i then 1 / column.get i
      else column.get r * (1 / column.get i) := by
  simp only [lead, get_eq_getElem, Kernel.getElem_rescale, Vector.getElem_set, Fin.eta]
  rcases lt_trichotomy r i with h | rfl | h
  · rw [if_neg (show ¬ i < r by omega), if_neg (show ¬ i.val = r by omega), if_pos h]
  · rw [if_neg (show ¬ r < r by omega), if_pos rfl, if_neg (show ¬ r < r by omega), if_pos rfl]
  · rw [if_pos h, if_neg (show ¬ i.val = r by omega), if_neg (show ¬ r < i by omega),
      if_neg (show ¬ r = i by omega)]

theorem matrix_clear_of_lt (e : Elimination α n) {i k : Fin n} (h : k < i) (r : Fin n) :
    (e.clear i).columns.matrix r k = e.columns.matrix r k := by
  simp [clear, Square.matrix, h]

theorem matrix_clear_self (e : Elimination α n) (i r : Fin n) :
    (e.clear i).columns.matrix r i =
      if r < i then e.columns.matrix r i
      else if r = i then 1 / e.columns.matrix i i
      else e.columns.matrix r i * (1 / e.columns.matrix i i) := by
  have := get_lead (e.columns.get i) i r
  simpa [clear, Square.matrix] using this

theorem matrix_clear_of_gt (e : Elimination α n) {i k : Fin n} (h : i < k) (r : Fin n) :
    (e.clear i).columns.matrix r k =
      if i < r then
        e.columns.matrix r k - e.columns.matrix i k * (e.clear i).columns.matrix r i
      else e.columns.matrix r k := by
  have hlt : ¬ k < i := by omega
  have hne : k ≠ i := by omega
  simp [clear, Square.matrix, hlt, hne]

/-! ## The search for a pivot -/

omit [Scalar α] in
theorem mem_candidates {column : Vector α n} {i r : Fin n} {a : α} :
    (a, r) ∈ candidates column i ↔ i ≤ r ∧ column.get r = a := by
  simp [candidates, eq_comm]

/-- What the search found stands at or below the diagonal. -/
theorem exists_of_pivotRow? {tolerance : α} {e : Elimination α n} {i p : Fin n}
    (h : e.pivotRow? tolerance i = some p) : i ≤ p ∧
      Kernel.largest? tolerance (candidates (e.columns.get i) i) =
        some (p, Scalar.magnitude (e.columns.matrix p i)) := by
  obtain ⟨⟨q, m⟩, hl, rfl⟩ := Option.map_eq_some_iff.1 h
  obtain ⟨a, ha, rfl⟩ := Kernel.exists_of_largest? hl
  obtain ⟨hi, rfl⟩ := mem_candidates.1 ha
  exact ⟨hi, hl⟩

/-- The row found has an entry above the tolerance, and no entry from there on is above that. -/
theorem not_lt_of_pivotRow? [IsStrictOrder α (· < ·)] {tolerance : α} {e : Elimination α n}
    {i p : Fin n} (h : e.pivotRow? tolerance i = some p) :
    i ≤ p ∧ tolerance < Scalar.magnitude (e.columns.matrix p i) ∧ ∀ r, i ≤ r →
      ¬ Scalar.magnitude (e.columns.matrix p i) < Scalar.magnitude (e.columns.matrix r i) := by
  obtain ⟨hi, hl⟩ := exists_of_pivotRow? h
  obtain ⟨hlt, hmax⟩ := Kernel.not_lt_of_largest? hl
  exact ⟨hi, hlt, fun r hr => hmax _ (mem_candidates.2 ⟨hr, rfl⟩)⟩

theorem pivotRow?_eq_none_iff_forall {tolerance : α} {e : Elimination α n} {i : Fin n} :
    e.pivotRow? tolerance i = none ↔
      ∀ r, i ≤ r → ¬ tolerance < Scalar.magnitude (e.columns.matrix r i) := by
  rw [pivotRow?, Option.map_eq_none_iff, Kernel.largest?_eq_none_iff]
  simp only [Prod.forall, mem_candidates]
  exact ⟨fun h r hr => h _ r ⟨hr, rfl⟩, fun h _ r hr => hr.2 ▸ h r hr.1⟩

/-- The entry on the diagonal comes first, so its row is found if no entry below is above it. -/
theorem pivotRow?_eq_self {tolerance : α} {e : Elimination α n} {i : Fin n}
    (hlt : tolerance < Scalar.magnitude (e.columns.matrix i i))
    (hmax : ∀ r, i ≤ r →
      ¬ Scalar.magnitude (e.columns.matrix i i) < Scalar.magnitude (e.columns.matrix r i)) :
    e.pivotRow? tolerance i = some i := by
  have hrows : (List.finRange n).filter (i ≤ ·) = i :: (List.finRange n).filter (i < ·) := by
    have hbelow : (i :: (List.finRange n).filter (i < ·)).Pairwise (· < ·) :=
      List.pairwise_cons.2 ⟨fun r hr => of_decide_eq_true (List.mem_filter.1 hr).2,
        (List.pairwise_lt_finRange n).filter _⟩
    refine ((List.pairwise_lt_finRange n).filter _).eq_of_mem_iff hbelow fun r => ?_
    rw [List.mem_cons, List.mem_filter, List.mem_filter, decide_eq_true_iff, decide_eq_true_iff,
      le_iff_eq_or_lt, eq_comm]
    simp
  rw [pivotRow?, candidates, hrows, List.map_cons, Kernel.largest?_cons hlt]
  · rfl
  · intro entry hentry
    obtain ⟨r, hr, rfl⟩ := List.mem_map.1 hentry
    exact hmax r (le_of_lt (of_decide_eq_true (List.mem_filter.1 hr).2))

/-! ## Runs -/

/-- Steps taken one after another. -/
def Steps (tolerance : α) : Elimination α n → Elimination α n → Prop :=
  ReflTransGen fun e e' => e.step? tolerance = some e'

variable {tolerance : α} {e e' e'' : Elimination α n}

theorem step?_eq_some_iff : e.step? tolerance = some e' ↔
    ∃ (h : e.good < n) (p : Fin n), e.pivotRow? tolerance ⟨e.good, h⟩ = some p ∧
      e' = e.pivot ⟨e.good, h⟩ p := by
  unfold step?
  split
  · simp [*, eq_comm]
  · simp [*]

/-- A step finishes one column. -/
theorem good_of_step (h : e.step? tolerance = some e') : e.good < n ∧ e'.good = e.good + 1 := by
  obtain ⟨hlt, p, -, rfl⟩ := step?_eq_some_iff.1 h
  exact ⟨hlt, rfl⟩

theorem good_of_steps (h : Steps tolerance e e') :
    e.good ≤ e'.good ∧ (e.good ≤ n → e'.good ≤ n) := by
  induction h with
  | refl => exact ⟨le_rfl, id⟩
  | tail _ hs ih =>
    obtain ⟨hlt, hg⟩ := good_of_step hs
    exact ⟨by omega, fun _ => by omega⟩

theorem steps_run : ∀ (fuel : Nat) (e : Elimination α n), Steps tolerance e (e.run tolerance fuel)
  | 0, e => .refl
  | fuel + 1, e => by
    unfold run
    split
    · exact .head ‹_› (steps_run fuel _)
    · exact .refl

/-- With fuel for every column left, a run ends where no step is left. -/
theorem step?_run : ∀ (fuel : Nat) (e : Elimination α n), n ≤ e.good + fuel →
    (e.run tolerance fuel).step? tolerance = none
  | 0, e, h => step?_of_le h
  | fuel + 1, e, h => by
    unfold run
    split
    · rename_i e' hs
      exact step?_run fuel e' (by have := (good_of_step hs).2; omega)
    · assumption

theorem run_eq_of_steps (h : Steps tolerance e e') (hstop : e'.step? tolerance = none) :
    ∀ fuel, n ≤ e.good + fuel → e.run tolerance fuel = e' := by
  induction h using ReflTransGen.head_induction_on with
  | refl =>
    intro fuel _
    cases fuel with
    | zero => rfl
    | succ fuel => rw [run, hstop]
  | head hs _ ih =>
    intro fuel hf
    obtain ⟨hlt, hg⟩ := good_of_step hs
    cases fuel with
    | zero => omega
    | succ fuel =>
      rw [run, hs]
      exact ih fuel (by omega)

theorem steps_eliminate (tolerance : α) (A : Square α n) :
    Steps tolerance (start A) (eliminate tolerance A) := steps_run n _

theorem step?_eliminate (tolerance : α) (A : Square α n) :
    (eliminate tolerance A).step? tolerance = none :=
  step?_run n _ (by simp [start])

/-- Elimination ends in the state that steps lead to and that has no further step. -/
theorem eliminate_eq_of_steps {A : Square α n} (h : Steps tolerance (start A) e)
    (hstop : e.step? tolerance = none) : eliminate tolerance A = e :=
  run_eq_of_steps h hstop n (by simp [start])

theorem good_eliminate_le (tolerance : α) (A : Square α n) : (eliminate tolerance A).good ≤ n :=
  (good_of_steps (steps_eliminate tolerance A)).2 (Nat.zero_le _)

/-! ## Rows -/

/-- A step exchanges the rows at two positions that are not done. -/
theorem rowAt_of_step (h : e.step? tolerance = some e') : ∃ i p : Fin n,
    i = e.good ∧ e.good ≤ p ∧ ∀ r, e'.rowAt.get r = e.rowAt.get (Equiv.swap i p r) := by
  obtain ⟨hlt, p, hp, rfl⟩ := step?_eq_some_iff.1 h
  exact ⟨⟨e.good, hlt⟩, p, rfl, (exists_of_pivotRow? hp).1, rowAt_exchange e _ _⟩

/-- A position that is done keeps its row. -/
theorem rowAt_of_steps (h : Steps tolerance e e') {r : Fin n} (hr : r < e.good) :
    e'.rowAt.get r = e.rowAt.get r := by
  induction h with
  | refl => rfl
  | tail hs h ih =>
    obtain ⟨i, p, hi, hp, hrow⟩ := rowAt_of_step h
    have := (good_of_steps hs).1
    rw [hrow, Equiv.swap_apply_of_ne_of_ne (show r ≠ i by omega) (show r ≠ p by omega), ih]

theorem rowAt_injective (h : Steps tolerance e e') (hinj : Function.Injective e.rowAt.get) :
    Function.Injective e'.rowAt.get := by
  induction h with
  | refl => exact hinj
  | tail _ h ih =>
    obtain ⟨i, p, -, -, hrow⟩ := rowAt_of_step h
    intro r s hrs
    rw [hrow, hrow] at hrs
    exact (Equiv.swap i p).injective (ih hrs)

theorem rowAt_eliminate_injective (tolerance : α) (A : Square α n) :
    Function.Injective (eliminate tolerance A).rowAt.get :=
  rowAt_injective (steps_eliminate tolerance A) fun r s h => by
    simpa [start, Fin.ext_iff] using h

end Elimination

end BasisLU
