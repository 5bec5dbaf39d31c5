import Mathlib.Algebra.BigOperators.Fin
import Mathlib.Data.List.Induction
import BasisLU.Proofs.Exact
import BasisLU.Kernel

/-!
# What the kernels compute

`largest?` for any scalars: nothing is found exactly if no magnitude is above the threshold
(`largest?_eq_none_iff`), and what is found is an entry (`exists_of_largest?`). If magnitudes are
ordered strictly, none is above it (`not_lt_of_largest?`), and of several such entries it is the
first (`largest?_cons`). For exact scalars, `subtractInner` takes off a sum (`subtractInner_eq`).
-/

namespace BasisLU

theorem get_set {β : Type} {n : Nat} (x : Vector β n) (p r : Fin n) (v : β) :
    (x.set p v p.isLt).get r = if r = p then v else x.get r := by
  simp only [get_eq_getElem, Vector.getElem_set, Fin.ext_iff, eq_comm]

namespace Kernel

theorem get_subtractMultiple {α : Type} [Scalar α] {n : Nat} (on : Fin n → Prop) [DecidablePred on]
    (a : α) (x y : Vector α n) (r : Fin n) :
    (subtractMultiple on a x y).get r = if on r then y.get r - a * x.get r else y.get r :=
  getElem_subtractMultiple on a x y r r.isLt

section Largest

variable {α ι : Type} [Scalar α] {threshold : α}

theorem largest?_concat (entries : List (α × ι)) (e : α × ι) :
    largest? threshold (entries ++ [e]) =
      if bar threshold (largest? threshold entries) < Scalar.magnitude e.1 then
        some (e.2, Scalar.magnitude e.1)
      else largest? threshold entries := by
  rw [largest?, List.foldl_append]
  rfl

theorem largest?_eq_none_iff {entries : List (α × ι)} : largest? threshold entries = none ↔
    ∀ e ∈ entries, ¬ threshold < Scalar.magnitude e.1 := by
  -- From the end, as the last entry is compared with what was found before it.
  induction entries using List.reverseRecOn with
  | nil => simp [largest?]
  | append_singleton entries e ih =>
    rw [largest?_concat, List.forall_mem_append, List.forall_mem_singleton]
    cases hl : largest? threshold entries with
    | none =>
      rw [and_iff_right (ih.1 hl)]
      split
      · exact iff_of_false nofun (not_not_intro ‹_›)
      · exact iff_of_true rfl ‹_›
    | some found =>
      have hsome : ¬ ∀ e ∈ entries, ¬ threshold < Scalar.magnitude e.1 := fun h => by
        rw [ih.2 h] at hl
        cases hl
      rw [iff_false_right fun h => hsome h.1]
      split <;> simp

theorem exists_of_largest? {entries : List (α × ι)} {i : ι} {m : α}
    (h : largest? threshold entries = some (i, m)) :
    ∃ a, (a, i) ∈ entries ∧ Scalar.magnitude a = m := by
  induction entries using List.reverseRecOn with
  | nil => cases h
  | append_singleton entries e ih =>
    rw [largest?_concat] at h
    split at h
    · cases h
      exact ⟨e.1, by simp, rfl⟩
    · obtain ⟨a, ha, hm⟩ := ih h
      exact ⟨a, List.mem_append_left _ ha, hm⟩

/-- The magnitude found is above the threshold, and no other is above it. -/
theorem not_lt_of_largest? [IsStrictOrder α (· < ·)] {entries : List (α × ι)} {i : ι} {m : α}
    (h : largest? threshold entries = some (i, m)) :
    threshold < m ∧ ∀ e ∈ entries, ¬ m < Scalar.magnitude e.1 := by
  induction entries using List.reverseRecOn generalizing i m with
  | nil => cases h
  | append_singleton entries e ih =>
    rw [largest?_concat] at h
    rw [List.forall_mem_append, List.forall_mem_singleton]
    cases hl : largest? threshold entries with
    | none =>
      have hnone := largest?_eq_none_iff.1 hl
      rw [hl] at h
      split at h
      · rename_i hlt
        cases h
        exact ⟨hlt, fun e' he' hm => hnone e' he' (trans_of (· < ·) hlt hm), irrefl _⟩
      · cases h
    | some found =>
      obtain ⟨hlt, hle⟩ := ih hl
      rw [hl] at h
      split at h
      · rename_i hm
        cases h
        exact ⟨trans_of (· < ·) hlt hm,
          fun e' he' hm' => hle e' he' (trans_of (· < ·) hm hm'), irrefl _⟩
      · rename_i hm
        cases h
        exact ⟨hlt, hle, hm⟩

/-- An entry above the threshold stays if none that follows is above it. -/
theorem largest?_cons {entries : List (α × ι)} {e : α × ι} (hlt : threshold < Scalar.magnitude e.1)
    (hmax : ∀ e' ∈ entries, ¬ Scalar.magnitude e.1 < Scalar.magnitude e'.1) :
    largest? threshold (e :: entries) = some (e.2, Scalar.magnitude e.1) := by
  induction entries using List.reverseRecOn with
  | nil => exact if_pos hlt
  | append_singleton entries e' ih =>
    rw [List.forall_mem_append, List.forall_mem_singleton] at hmax
    rw [← List.cons_append, largest?_concat, ih hmax.1]
    exact if_neg hmax.2

end Largest

variable {α : Type} [ExactScalar α]

/-- The inner product is taken off as a whole. -/
theorem subtractInner_eq {n : Nat} (rows : List (Fin n)) (v : α) (x y : Vector α n) :
    subtractInner rows v x y = v - (rows.map fun r => x.get r * y.get r).sum := by
  induction rows generalizing v with
  | nil => simp
  | cons r rows ih => rw [subtractInner_cons, ih, List.map_cons, List.sum_cons, sub_sub]

theorem subtractInner_filter {n : Nat} (on : Fin n → Bool) (v : α) (x y : Vector α n) :
    subtractInner ((List.finRange n).filter on) v x y =
      v - ∑ r, if on r then x.get r * y.get r else 0 := by
  rw [subtractInner_eq, Fin.sum_univ_def, List.sum_map_ite]
  simp

end Kernel

end BasisLU
