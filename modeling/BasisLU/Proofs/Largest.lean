import BasisLU.Proofs.Elimination.Steps
import BasisLU.Proofs.Ordered

/-!
# The first of the largest entries

What `largest?` finds, for scalars of which only the numbers are ordered: the first entry whose
magnitude no other is above, if one is above the threshold (`largest?_eq_some_iff`). What is no
number is never found, and hides nothing that comes after it, because it is never the magnitude that
later ones are compared with (`bar_lt_of_forall`). For an array the entry is told by its position
(`FirstLargest`, `largestInArray?_eq_some_iff`), and for the search of a pivot by its row
(`pivotRow?_eq_some_iff`).
-/

namespace BasisLU

namespace Kernel

variable {α ι : Type} [Scalar α] [OrderedScalar α] {threshold m : α} {entries : List (α × ι)}

/-- No entry is above the largest found, or above the threshold if none is found. -/
theorem not_bar_lt {e : α × ι} (he : e ∈ entries) :
    ¬ bar threshold (largest? threshold entries) < Scalar.magnitude e.1 := by
  cases hl : largest? threshold entries with
  | none => exact largest?_eq_none_iff.1 hl e he
  | some found => exact (not_lt_of_largest? hl).2 e he

/-- What is found is below a number that no entry reaches. -/
theorem bar_lt_of_forall (hm : threshold < m)
    (hbefore : ∀ e ∈ entries, ¬ m ≤ Scalar.magnitude e.1) :
    bar threshold (largest? threshold entries) < m := by
  cases hl : largest? threshold entries with
  | none => exact hm
  | some found =>
    obtain ⟨a, ha, hfound⟩ := exists_of_largest? hl
    have hnot : ¬ m ≤ found.2 := hfound ▸ hbefore _ ha
    have hnumber := (Scalar.isNumber_of_lt (not_lt_of_largest? hl).1).2
    exact ((Scalar.not_le_iff hnumber).1 hnot).resolve_right
      (not_not_intro (Scalar.isNumber_of_lt hm).2)

omit [OrderedScalar α] in
/-- Entries that are not above what was found before them change nothing. -/
theorem largest?_append {after : List (α × ι)}
    (h : ∀ e ∈ after, ¬ bar threshold (largest? threshold entries) < Scalar.magnitude e.1) :
    largest? threshold (entries ++ after) = largest? threshold entries := by
  induction after using List.reverseRecOn with
  | nil => rw [List.append_nil]
  | append_singleton after e ih =>
    rw [List.forall_mem_append, List.forall_mem_singleton] at h
    rw [← List.append_assoc, largest?_concat, ih h.1]
    exact if_neg h.2

/-- What is found is the first of the entries with the largest magnitude, and above the
threshold. -/
theorem largest?_eq_some_iff {i : ι} : largest? threshold entries = some (i, m) ↔
    ∃ (k : Nat) (a : α), entries[k]? = some (a, i) ∧ Scalar.magnitude a = m ∧ threshold < m ∧
      (∀ e ∈ entries, ¬ m < Scalar.magnitude e.1) ∧
      ∀ e ∈ entries.take k, ¬ m ≤ Scalar.magnitude e.1 := by
  constructor
  · intro h
    obtain ⟨hm, hmax⟩ := not_lt_of_largest? h
    suffices ∃ (k : Nat) (a : α), entries[k]? = some (a, i) ∧ Scalar.magnitude a = m ∧
        ∀ e ∈ entries.take k, ¬ m ≤ Scalar.magnitude e.1 by
      obtain ⟨k, a, hk, ha, hbefore⟩ := this
      exact ⟨k, a, hk, ha, hm, hmax, hbefore⟩
    clear hm hmax
    induction entries using List.reverseRecOn with
    | nil => cases h
    | append_singleton entries e ih =>
      rw [largest?_concat] at h
      split at h
      · rename_i hlt
        cases h
        refine ⟨entries.length, e.1, List.getElem?_concat_length, rfl, fun e' he' hle => ?_⟩
        rw [List.take_left] at he'
        exact not_bar_lt he' (Scalar.lt_of_lt_of_le hlt hle)
      · obtain ⟨k, a, hk, ha, hbefore⟩ := ih h
        have hlt := (List.getElem?_eq_some_iff.1 hk).1
        refine ⟨k, a, ?_, ha, ?_⟩
        · rw [List.getElem?_append_left hlt, hk]
        · rwa [List.take_append_of_le_length hlt.le]
  · rintro ⟨k, a, hk, rfl, hm, hmax, hbefore⟩
    have hfront : largest? threshold (entries.take (k + 1)) = some (i, Scalar.magnitude a) := by
      rw [List.take_add_one, hk, Option.toList_some, largest?_concat]
      exact if_pos (bar_lt_of_forall hm hbefore)
    have hrest : largest? threshold (entries.take (k + 1) ++ entries.drop (k + 1)) =
        largest? threshold (entries.take (k + 1)) := by
      refine largest?_append fun e he => ?_
      rw [hfront]
      exact hmax e (List.mem_of_mem_drop he)
    rw [← List.take_append_drop (k + 1) entries, hrest, hfront]

/-! ## Arrays -/

variable {x : Array α} {i : Nat}

/-- Entry `i` has magnitude `m`, which is above the threshold and which no other is above, and none
of the entries before it reaches. -/
structure FirstLargest (threshold : α) (x : Array α) (i : Nat) (m : α) : Prop where
  entry : ∃ a, x[i]? = some a ∧ Scalar.magnitude a = m
  above : threshold < m
  not_lt : ∀ a ∈ x, ¬ m < Scalar.magnitude a
  not_le : ∀ j < i, ∀ a, x[j]? = some a → ¬ m ≤ Scalar.magnitude a

omit [Scalar α] [OrderedScalar α] in
theorem getElem?_zipIdx_eq_some_iff {k : Nat} {e : α × Nat} :
    x.toList.zipIdx[k]? = some e ↔ x[k]? = some e.1 ∧ k = e.2 := by
  simp [List.getElem?_zipIdx, Prod.ext_iff]

theorem largestInArray?_eq_some_iff :
    largestInArray? threshold x = some (i, m) ↔ FirstLargest threshold x i m := by
  rw [largestInArray?, largest?_eq_some_iff]
  constructor
  · rintro ⟨k, a, hk, ha, hm, hmax, hbefore⟩
    obtain ⟨hx, rfl⟩ := getElem?_zipIdx_eq_some_iff.1 hk
    refine ⟨⟨a, hx, ha⟩, hm, fun b hb => ?_, fun j hj b hb => ?_⟩
    · obtain ⟨j, hj⟩ := Array.mem_iff_getElem?.1 hb
      exact hmax (b, j) (List.mem_of_getElem? (getElem?_zipIdx_eq_some_iff.2 ⟨hj, rfl⟩))
    · refine hbefore (b, j) (List.mem_iff_getElem?.2 ⟨j, ?_⟩)
      rw [List.getElem?_take_of_lt hj]
      exact getElem?_zipIdx_eq_some_iff.2 ⟨hb, rfl⟩
  · rintro ⟨⟨a, hx, ha⟩, hm, hmax, hbefore⟩
    refine ⟨i, a, getElem?_zipIdx_eq_some_iff.2 ⟨hx, rfl⟩, ha, hm, fun e he => ?_, fun e he => ?_⟩
    · obtain ⟨j, hj⟩ := List.mem_iff_getElem?.1 he
      exact hmax e.1 (Array.mem_of_getElem? (getElem?_zipIdx_eq_some_iff.1 hj).1)
    · obtain ⟨j, hj⟩ := List.mem_iff_getElem?.1 he
      rw [List.getElem?_take] at hj
      split at hj
      · exact hbefore j ‹_› e.1 (getElem?_zipIdx_eq_some_iff.1 hj).1
      · cases hj

omit [OrderedScalar α] in
theorem largestInArray?_eq_none_iff :
    largestInArray? threshold x = none ↔ ∀ a ∈ x, ¬ threshold < Scalar.magnitude a := by
  rw [largestInArray?, largest?_eq_none_iff]
  constructor
  · intro h a ha
    obtain ⟨j, hj⟩ := Array.mem_iff_getElem?.1 ha
    exact h (a, j) (List.mem_of_getElem? (getElem?_zipIdx_eq_some_iff.2 ⟨hj, rfl⟩))
  · intro h e he
    obtain ⟨j, hj⟩ := List.mem_iff_getElem?.1 he
    exact h e.1 (Array.mem_of_getElem? (getElem?_zipIdx_eq_some_iff.1 hj).1)

/-- The entry found is a number. Those before it are smaller, and those after it not larger, as far
as they have magnitudes that are numbers. -/
theorem FirstLargest.isNumber [LawfulMagnitude α] (h : FirstLargest threshold x i m) :
    (∀ a, x[i]? = some a → Scalar.IsNumber a) ∧
      (∀ a ∈ x, Scalar.magnitude a ≤ m ∨ ¬ Scalar.IsNumber (Scalar.magnitude a)) ∧
      ∀ j < i, ∀ a, x[j]? = some a →
        Scalar.magnitude a < m ∨ ¬ Scalar.IsNumber (Scalar.magnitude a) := by
  have hm := (Scalar.isNumber_of_lt h.above).2
  refine ⟨fun a ha => ?_, fun a ha => (Scalar.not_lt_iff hm).1 (h.not_lt a ha), fun j hj a ha => ?_⟩
  · obtain ⟨b, hb, hmagnitude⟩ := h.entry
    cases ha.symm.trans hb
    exact LawfulMagnitude.isNumber_of_magnitude (hmagnitude ▸ hm)
  · by_cases hnumber : Scalar.IsNumber (Scalar.magnitude a)
    · exact .inl (((Scalar.not_le_iff hnumber).1 (h.not_le j hj a ha)).resolve_right
        (not_not_intro hm))
    · exact .inr hnumber

/-- Something is found exactly if an entry is above the threshold, and then it is the first of those
with the largest magnitude. An entry that is no number is not found, and does not keep a larger one
after it from being found. -/
theorem found_iff_firstLargest [LawfulMagnitude α] (threshold : α) (x : Array α) :
    ((∃ i m, largestInArray? threshold x = some (i, m)) ↔
      ∃ a ∈ x, threshold < Scalar.magnitude a) ∧
    (largestInArray? threshold x = none ↔ ∀ a ∈ x, ¬ threshold < Scalar.magnitude a) ∧
    ∀ i m, (largestInArray? threshold x = some (i, m) ↔ FirstLargest threshold x i m) ∧
      (FirstLargest threshold x i m → (∀ a, x[i]? = some a → Scalar.IsNumber a) ∧
        (∀ a ∈ x, Scalar.magnitude a ≤ m ∨ ¬ Scalar.IsNumber (Scalar.magnitude a)) ∧
        ∀ j < i, ∀ a, x[j]? = some a →
          Scalar.magnitude a < m ∨ ¬ Scalar.IsNumber (Scalar.magnitude a)) := by
  refine ⟨?_, largestInArray?_eq_none_iff, fun i m => ⟨largestInArray?_eq_some_iff, (·.isNumber)⟩⟩
  rw [← Prod.exists', ← Option.ne_none_iff_exists', Ne, largestInArray?_eq_none_iff]
  simp

/-- Numbers with a tie, both infinities, and values that are no numbers before, between and after
them. -/
def mixed : Array Float := #[0 / 0, -2, 0 / 0, -1 / 0, 1 / 0, 2, 0 / 0]

theorem found_iff_firstLargest_mixed :
    largestInArray? 1 mixed = some (3, 1 / 0) ∧ FirstLargest 1 mixed 3 (1 / 0) ∧
      (∀ j < 3, ∀ a, mixed[j]? = some a →
        Scalar.magnitude a < 1 / 0 ∨ ¬ Scalar.IsNumber (Scalar.magnitude a)) ∧
      largestInArray? (0 / 0) mixed = none := by
  obtain ⟨-, -, hfound⟩ := found_iff_firstLargest 1 mixed
  obtain ⟨-, hnone, -⟩ := found_iff_firstLargest (0 / 0) mixed
  have hmixed : largestInArray? 1 mixed = some (3, 1 / 0) := by decide +kernel
  have hfirst := (hfound 3 (1 / 0)).1.1 hmixed
  exact ⟨hmixed, hfirst, ((hfound 3 (1 / 0)).2 hfirst).2.2, hnone.2 (by decide +kernel)⟩

end Kernel

namespace Elimination

variable {α : Type} {n : Nat} {i p : Fin n}

/-- The candidates are in the order of their rows. -/
theorem mem_take_candidates {column : Vector α n} {k : Nat} {a : α}
    (hk : (candidates column i)[k]? = some (a, p)) {b : α} {r : Fin n} :
    (b, r) ∈ (candidates column i).take k ↔ i ≤ r ∧ r < p ∧ column.get r = b := by
  have hsorted : (candidates column i).Pairwise (·.2 < ·.2) :=
    List.pairwise_map.2 ((List.pairwise_lt_finRange n).filter _)
  rw [List.pairwise_iff_getElem] at hsorted
  obtain ⟨hlt, hk⟩ := List.getElem?_eq_some_iff.1 hk
  rw [List.mem_take_iff_getElem]
  constructor
  · rintro ⟨j, hj, hr⟩
    have hbefore := hsorted j k (by omega) hlt (by omega)
    rw [hr, hk] at hbefore
    obtain ⟨hi, hcolumn⟩ := mem_candidates.1 (List.mem_of_getElem hr)
    exact ⟨hi, hbefore, hcolumn⟩
  · rintro ⟨hi, hp, hcolumn⟩
    obtain ⟨j, hj, hr⟩ := List.mem_iff_getElem.1 (mem_candidates.2 ⟨hi, hcolumn⟩)
    refine ⟨j, lt_min (Nat.lt_of_not_le fun hkj => ?_) hj, hr⟩
    rcases hkj.lt_or_eq with hkj | rfl
    · have hafter := hsorted k j hlt hj hkj
      rw [hr, hk] at hafter
      exact lt_asymm hp hafter
    · cases hr.symm.trans hk
      exact lt_irrefl p hp

variable [Scalar α] [OrderedScalar α] {tolerance : α} {e : Elimination α n}

/-- The row found is the first from the diagonal on with an entry that no other there is above, and
that entry is above the tolerance. -/
theorem pivotRow?_eq_some_iff : e.pivotRow? tolerance i = some p ↔
    i ≤ p ∧ tolerance < Scalar.magnitude (e.columns.matrix p i) ∧
      (∀ r, i ≤ r →
        ¬ Scalar.magnitude (e.columns.matrix p i) < Scalar.magnitude (e.columns.matrix r i)) ∧
      ∀ r, i ≤ r → r < p →
        ¬ Scalar.magnitude (e.columns.matrix p i) ≤ Scalar.magnitude (e.columns.matrix r i) := by
  constructor
  · intro h
    obtain ⟨hi, hm, hmax⟩ := not_lt_of_pivotRow? h
    obtain ⟨k, a, hk, -, -, -, hbefore⟩ :=
      Kernel.largest?_eq_some_iff.1 (exists_of_pivotRow? h).2
    exact ⟨hi, hm, hmax, fun r hr hp =>
      hbefore ((e.columns.get i).get r, r) ((mem_take_candidates hk).2 ⟨hr, hp, rfl⟩)⟩
  · rintro ⟨hi, hm, hmax, hbefore⟩
    obtain ⟨k, hk⟩ := List.mem_iff_getElem?.1 (mem_candidates.2 ⟨hi, rfl⟩ :
      ((e.columns.get i).get p, p) ∈ candidates (e.columns.get i) i)
    refine Option.map_eq_some_iff.2 ⟨(p, Scalar.magnitude (e.columns.matrix p i)),
      Kernel.largest?_eq_some_iff.2 ⟨k, _, hk, rfl, hm, fun c hc => ?_, fun c hc => ?_⟩, rfl⟩
    · obtain ⟨hr, hc⟩ := mem_candidates.1 hc
      exact hc ▸ hmax c.2 hr
    · obtain ⟨hr, hp, hc⟩ := (mem_take_candidates hk).1 hc
      exact hc ▸ hbefore c.2 hr hp

end Elimination

end BasisLU
