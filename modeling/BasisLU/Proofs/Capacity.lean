import Mathlib.Algebra.Order.Group.Nat
import BasisLU.Capacity

/-!
# Capacities in unbounded numbers

`Capacity.space` is how many values a basis takes with its updates, whatever the size of the numbers.
The sum and the product that compute it are checked one after the other. Neither check rejects a
space that is a machine word: without rows the product is zero whatever the sum is, and with rows it
is not below the sum (`values?_eq_some_iff`). An allocation is granted exactly if the bytes of the
values, and those of a position for every update, are within the limit (`allocatable?_eq_some_iff`).
-/

namespace BasisLU.Capacity

variable {c : Capacity} {bytes s : Nat}

/-- The stored values of the rows, the columns, and the columns kept for updates. -/
def space (c : Capacity) : Nat := c.rows * (c.rows + max c.updates ((c.rows + 1) / 2))

/-- Fewer rows take no more space. -/
theorem space_mono {rows rows' updates : Nat} (h : rows ≤ rows') :
    space ⟨rows, updates⟩ ≤ space ⟨rows', updates⟩ :=
  Nat.mul_le_mul h (by dsimp only; omega)

theorem values?_eq_some_iff (hupdates : c.updates < wordSize) :
    c.values? = some s ↔ s = c.space ∧ c.space < wordSize := by
  have hvalues : c.values? = some s ↔ c.rows + c.chainColumns < wordSize ∧
      c.space = s ∧ c.space < wordSize := by
    rw [values?, Option.bind_eq_bind, Option.bind_eq_some_iff]
    simp only [checkedAdd_eq_some_iff, checkedMul_eq_some_iff, space, chainColumns]
    constructor
    · rintro ⟨columns, ⟨rfl, hadd⟩, hmul⟩
      exact ⟨hadd, by rwa [Nat.mul_comm c.rows]⟩
    · rintro ⟨hadd, hmul⟩
      exact ⟨_, ⟨rfl, hadd⟩, by rwa [Nat.mul_comm c.rows] at hmul⟩
  rw [hvalues, eq_comm (a := s)]
  refine and_iff_right_of_imp fun hspace => ?_
  rcases Nat.eq_zero_or_pos c.rows with hzero | hpos
  · rw [chainColumns, hzero]
    omega
  · exact (Nat.le_mul_of_pos_left _ hpos).trans_lt hspace.2

/-- An array fits if its bytes do. A type without bytes is taken to have one. -/
theorem le_allocationLimit_iff : s ≤ allocationLimit bytes ↔ s * max bytes 1 ≤ allocationBytes :=
  Nat.le_div_iff_mul_le (by omega)

theorem allocatable?_eq_some_iff : c.allocatable? bytes = some s ↔
    s = c.space ∧ s * max bytes 1 ≤ allocationBytes ∧
      positionBytes * c.updates ≤ allocationBytes := by
  have hpositions : c.updates ≤ allocationLimit positionBytes ↔
      positionBytes * c.updates ≤ allocationBytes := by
    rw [le_allocationLimit_iff, Nat.mul_comm]
    rfl
  have hlimit : allocationBytes < wordSize := by decide
  have hword : positionBytes * c.updates ≤ allocationBytes → c.updates < wordSize := fun h =>
    (Nat.le_mul_of_pos_left _ (by decide)).trans_lt (h.trans_lt hlimit)
  rw [allocatable?, Option.bind_eq_bind, Option.bind_eq_some_iff]
  simp only [Option.ite_none_right_eq_some, Option.some.injEq, le_allocationLimit_iff, hpositions]
  constructor
  · rintro ⟨_, hvalues, ⟨hbytes, hupdates⟩, rfl⟩
    exact ⟨((values?_eq_some_iff (hword hupdates)).1 hvalues).1, hbytes, hupdates⟩
  · rintro ⟨rfl, hbytes, hupdates⟩
    refine ⟨_, (values?_eq_some_iff (hword hupdates)).2 ⟨rfl, ?_⟩, ⟨hbytes, hupdates⟩, rfl⟩
    exact (Nat.le_mul_of_pos_right _ (by omega)).trans_lt (hbytes.trans_lt hlimit)

end BasisLU.Capacity
