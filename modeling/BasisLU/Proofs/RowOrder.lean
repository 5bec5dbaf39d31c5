import Mathlib.Data.Fintype.EquivFin
import Mathlib.Logic.Equiv.Basic
import BasisLU.Proofs.Fault
import BasisLU.Proofs.Kernel
import BasisLU.RowOrder

/-!
# Row orders as permutations

The first `n` places of a row order are a permutation and its inverse (`Orders`): positions of rows
one way, rows at positions the other. The order that elimination assigns is one (`orders_assign`),
and growing the arrays keeps it (`Orders.growTo`).
-/

namespace BasisLU.RowOrder

variable {n : Nat}

/-- The position of row `r` is `σ r`, and the row at that position is `r`. -/
structure Orders (order : RowOrder) (σ : Equiv.Perm (Fin n)) : Prop where
  positionOf : ∀ r : Fin n, order.positionOf[r.val]? = some (σ r).val
  rowAt : ∀ p : Fin n, order.rowAt[p.val]? = some (σ.symm p).val

variable {order order' : RowOrder} {σ : Equiv.Perm (Fin n)}

theorem Orders.position (h : order.Orders σ) (r : Fin n) : order.position n r = .ok (σ r) := by
  rw [RowOrder.position, Fault.read_eq_ok_iff.2 (h.positionOf r)]
  exact Fault.below_of_lt (σ r).isLt

theorem Orders.read_rowAt (h : order.Orders σ) (p : Fin n) :
    Fault.read order.rowAt p = .ok (σ.symm p).val := Fault.read_eq_ok_iff.2 (h.rowAt p)

theorem Orders.growTo (h : order.Orders σ) (rows : Nat) : (order.growTo rows).Orders σ where
  positionOf r :=
    (Block.getElem?_growTo (Array.getElem?_eq_some_iff.1 (h.positionOf r)).1 _ _).trans
      (h.positionOf r)
  rowAt p :=
    (Block.getElem?_growTo (Array.getElem?_eq_some_iff.1 (h.rowAt p)).1 _ _).trans (h.rowAt p)

theorem assign_of_le (rowAt : Vector (Fin n) n) (h₁ : n ≤ order.rowAt.size)
    (h₂ : n ≤ order.positionOf.size) : ∃ order', order.assign rowAt = .ok order' :=
  ⟨_, dif_pos ⟨h₁, h₂⟩⟩

theorem size_assign {rowAt : Vector (Fin n) n} (h : order.assign rowAt = .ok order') :
    order'.rowAt.size = order.rowAt.size ∧ order'.positionOf.size = order.positionOf.size := by
  unfold assign at h
  split at h
  · cases h
    simp
  · cases h

/-- The assigned order is the permutation that has the given rows at its positions. -/
theorem orders_assign {rowAt : Vector (Fin n) n} (hσ : ∀ p, rowAt.get p = σ.symm p)
    (h : order.assign rowAt = .ok order') : order'.Orders σ := by
  unfold assign at h
  split at h
  · rename_i hn
    cases h
    refine ⟨fun r => ?_, fun p => ?_⟩
    · have hnodup : (((List.finRange n).map fun p => ((rowAt.get p).castLE hn.2, p.val)).map
          Prod.fst).Nodup := by
        rw [List.map_map]
        refine (List.nodup_finRange n).map fun p q hpq => σ.symm.injective ?_
        rw [← hσ, ← hσ]
        exact Fin.castLE_injective hn.2 hpq
      have hmem := scatter_of_mem (List.mem_map_of_mem (List.mem_finRange (σ r))) hnodup
        order.positionOf.toVector
      have hrow : rowAt.get (σ r) = r := (hσ (σ r)).trans (σ.symm_apply_apply r)
      have hr : r.val < order.positionOf.size := r.isLt.trans_le hn.2
      simp only [hrow] at hmem
      rw [← hmem]
      simp [hr]
    · have hp : p.val < order.rowAt.size := p.isLt.trans_le hn.1
      rw [← hσ]
      simp [hp]
  · cases h

end BasisLU.RowOrder
