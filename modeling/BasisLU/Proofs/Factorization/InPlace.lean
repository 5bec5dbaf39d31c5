import BasisLU.Proofs.Factorization.Clean
import BasisLU.Proofs.Factorization.Safety

/-!
# Solves where a vector stands

A scattered vector can be solved through the scratch buffer, with its values in the order of rows,
or where it stands, with its values in the order of positions. Both come to a vector that `Sifts`
one and the same solution, each in its own order (`Sound.exists_sifts_of_ftran`,
`exists_sifts_of_ftranInPlace`). So a vector that arranges the values of another one by
position still does when both are solved (`arranges_of_solves`), whatever the operations of the
scalars return and whatever the vectors list.
-/

namespace BasisLU

variable {α : Type} [Scalar α]

namespace IndexedVector

variable {v w : IndexedVector α} {n : Nat} {tolerance : α} {x : Fin n → α}

/-- The values of `x` above the tolerance, listed in the order of their indices, and zero for the
others. -/
structure Sifts (w : IndexedVector α) (tolerance : α) (x : Fin n → α) : Prop where
  getElem?_eq : ∀ i : Fin n,
    w.elements[i.val]? = some (if tolerance < Scalar.magnitude (x i) then x i else 0)
  indices_eq : w.indices =
    ((List.finRange n).filter fun i => tolerance < Scalar.magnitude (x i)).map Fin.val

theorem Sifts.mem_indices_iff (h : w.Sifts tolerance x) (i : Fin n) :
    i.val ∈ w.indices ↔ tolerance < Scalar.magnitude (x i) := by
  rw [h.indices_eq, List.mem_map_of_injective Fin.val_injective, List.mem_filter,
    decide_eq_true_iff, and_iff_right (List.mem_finRange i)]

theorem Sifts.pairwise (h : w.Sifts tolerance x) : w.indices.Pairwise (· < ·) := by
  rw [h.indices_eq, List.pairwise_map]
  exact (List.pairwise_lt_finRange n).filter _

omit [Scalar α] in
/-- Of entries with places of their own, each is found in its place. -/
theorem getElem?_scatter_of_locate {m : Nat} {entries : List (Nat × α)}
    {placed : List (Fin m × α)} (h : locate m entries = .ok placed)
    (hnodup : (entries.map Prod.fst).Nodup) {e : Nat × α} (he : e ∈ entries) (x : Vector α m) :
    (scatter placed x).toArray[e.1]? = some e.2 := by
  rw [locate_eq_ok_iff] at h
  subst h
  obtain ⟨entry, hentry, rfl⟩ := List.mem_map.1 he
  have hplaces : (placed.map Prod.fst).Nodup := by
    apply List.Nodup.of_map Fin.val
    rwa [List.map_map] at hnodup ⊢
  have hvalue : (scatter placed x)[entry.1.val] = entry.2 := scatter_of_mem hentry hplaces x
  simp [← hvalue]

omit [Scalar α] in
/-- A pair with an index of its own is filled into the slot of the index. -/
theorem getElem?_of_mem_fill {found : List (Nat × α)} (h : v.fill found = .ok w)
    (hl : v.layout = .scattered) (hnodup : (found.map Prod.fst).Nodup) {e : Nat × α}
    (he : e ∈ found) : w.elements[e.1]? = some e.2 := by
  simp only [fill, hl, bind_eq_ok_iff, pure_eq_ok_iff] at h
  obtain ⟨placed, hplaced, rfl⟩ := h
  rw [← List.zip_of_prod rfl rfl] at hplaced
  exact getElem?_scatter_of_locate hplaced hnodup he _

end IndexedVector

namespace Factorization

variable {f : Factorization α} {v w v' w' : IndexedVector α} {σ : Equiv.Perm (Fin f.rows)}

/-- The value that `v` has for each row is the one that `w` has for the position of the row. -/
def Arranges (f : Factorization α) (v w : IndexedVector α) : Prop :=
  ∀ row < f.rows, ∃ p x, f.positions[row]? = some p ∧ v.elements[row]? = some x ∧
    w.elements[p]? = some x

/-- The vector `v` lists a row if `w` lists the position of the row. -/
def ListsAlike (f : Factorization α) (v w : IndexedVector α) : Prop :=
  ∀ row < f.rows, ∃ p, f.positions[row]? = some p ∧ (row ∈ v.indices ↔ p ∈ w.indices)

/-- What is kept for the slots of the basis, in their order. -/
theorem kept_slots {n : Nat} (σ : Equiv.Perm (Fin n)) (tolerance : α) (x : Vector α n) :
    kept tolerance ((List.finRange n).map fun slot => (σ slot, slot.val)) x =
      ((List.finRange n).filter fun slot => tolerance < Scalar.magnitude (x.get (σ slot))).map
        fun slot => (slot.val, x.get (σ slot)) := by
  rw [kept_eq, List.filter_map, List.map_map]
  rfl

/-- The solution that is put back for the rows. -/
theorem Sound.exists_sifts_of_ftran [LawfulZero α] (h : f.Sound) (hvalid : f.status = .valid)
    (hσ : f.order.Orders σ) {F : Factors α f.rows} (hF : f.factors = .ok F)
    (hl : v.layout = .scattered) (hcap : f.rows ≤ v.capacity) :
    ∃ v', f.ftran v = .ok (v', f) ∧ v'.Sifts f.config.zeroTolerance fun r =>
      (F.solve (Vector.ofFn fun p => v.valueAt (σ.symm p))).get (σ r) := by
  have ht := covers_slots σ
  obtain ⟨x, hx⟩ : ∃ x, F.solve (Vector.ofFn fun p => v.valueAt (σ.symm p)) = x := ⟨_, rfl⟩
  have hgather := gather_of_scattered hσ hl hcap (Vector.replicate f.rows 0)
  obtain ⟨emptied, hemptied⟩ : ∃ emptied : IndexedVector α, emptied = { v with
      elements := v.elements.mapIdx fun slot x => if slot < f.rows then 0 else x
      indices := [] } := ⟨_, rfl⟩
  have hcapacity : f.rows ≤ emptied.capacity := by
    simpa [hemptied, IndexedVector.capacity] using hcap
  obtain ⟨v', hfill⟩ := IndexedVector.exists_fill (v := emptied)
    (kept_nodup ht f.config.zeroTolerance x) (kept_lt ht) hcapacity
  obtain ⟨hlayout, hindices, hkeep⟩ := IndexedVector.getElem?_of_fill hfill
  rw [kept_slots, List.map_map] at hindices
  have hscattered : emptied.layout = .scattered := hemptied ▸ hl
  rw [ftran_eq hvalid hF hσ]
  refine ⟨v', (h.solveThrough_eq_ok_iff ht).2 ⟨rfl, _, emptied, hemptied ▸ hgather, hx ▸ hfill⟩,
    fun r => ?_, hx ▸ hindices⟩
  rw [hx]
  split
  · rename_i hlarge
    refine IndexedVector.getElem?_of_mem_fill hfill hscattered (kept_nodup ht _ _)
      (e := (r.val, x.get (σ r))) ((mem_kept ht).2 ⟨σ r, hlarge, ?_⟩)
    rw [σ.symm_apply_apply]
  · rename_i hsmall
    have hnot : r.val ∉ v'.indices := by
      rw [hindices, List.mem_map]
      rintro ⟨slot, hslot, hval⟩
      obtain rfl : slot = r := Fin.ext hval
      exact hsmall (of_decide_eq_true (List.mem_filter.1 hslot).2)
    have hfree : v'.occupied r.val = false := by
      rw [IndexedVector.occupied, hlayout.trans hscattered]
      simpa using hnot
    have hr : r.val < v.elements.size := r.isLt.trans_le hcap
    rw [hkeep r.val hfree, hemptied]
    simp [hr]

/-- The solution that is left for the positions. -/
theorem exists_sifts_of_ftranInPlace (hvalid : f.status = .valid) {F : Factors α f.rows}
    (hF : f.factors = .ok F) (hl : w.layout = .scattered) {b : Vector α f.rows}
    (hb : Block.column f.rows 0 w.elements = .ok b) :
    ∃ w', f.ftranInPlace w = .ok w' ∧ w'.Sifts f.config.zeroTolerance fun p =>
      (F.solve b).get p := by
  obtain ⟨elements, helements⟩ : ∃ elements, Block.setColumn 0 ((F.solve b).map fun value =>
      if decide (f.config.zeroTolerance < Scalar.magnitude value) then value else 0) w.elements =
      .ok elements := Block.setColumn_of_le (Block.le_of_column hb)
  refine ⟨⟨elements, _, w.layout⟩, ?_, fun p => ?_, rfl⟩
  · simp only [ftranInPlace, bind_eq_ok_iff, guard_eq_ok_iff, pure_eq_ok_iff,
      requireValid_eq_ok_iff]
    exact ⟨(), hvalid, by simp [hl], F, hF, b, hb, elements, helements, rfl⟩
  · have hvalue := Block.getElem?_setColumn helements p.isLt
    simpa using hvalue

/-- A vector arranged by position starts with the values that are gathered. -/
theorem column_of_arranges (hσ : f.order.Orders σ) (hl : v.layout = .scattered)
    (hvw : f.Arranges v w) (hcap : f.rows ≤ w.capacity) :
    Block.column f.rows 0 w.elements = .ok (Vector.ofFn fun p => v.valueAt (σ.symm p)) := by
  refine Block.column_eq_ok (by simpa [IndexedVector.capacity] using hcap) fun p hp => ?_
  obtain ⟨q, x, hq, hv, hw⟩ := hvw (σ.symm ⟨p, hp⟩) (σ.symm ⟨p, hp⟩).isLt
  rw [getElem?_positions rfl hσ, σ.apply_symm_apply, Option.some.injEq] at hq
  subst hq
  rw [Nat.zero_mul, Nat.zero_add, hw, Vector.getElem_ofFn, IndexedVector.valueAt, hl,
    Array.getD_eq_getD_getElem?, hv, Option.getD_some]

/-- Two scattered vectors, one with the values of the other arranged by position, solved by a valid
factorization: the first where it stands, the other through the scratch buffer. The solution of the
first has that of the other arranged by position, to the last bit. It lists the positions of the
rows that the other lists, and both lists are in increasing order. -/
theorem arranges_of_solves [LawfulZero α] {config : Config α}
    (hreach : Reaches (ofConfig config) f) (hvalid : f.status = .valid)
    (hv : v.layout = .scattered) (hw : w.layout = .scattered) (hvcap : f.rows ≤ v.capacity)
    (hwcap : f.rows ≤ w.capacity) (hvw : f.Arranges v w) :
    ∃ v' w', f.ftran v = .ok (v', f) ∧ f.ftranInPlace w = .ok w' ∧ f.Arranges v' w' ∧
      f.ListsAlike v' w' ∧ v'.indices.Pairwise (· < ·) ∧ w'.indices.Pairwise (· < ·) := by
  have h := sound_of_reaches hreach
  obtain ⟨σ, hσ⟩ := h.exists_orders hvalid
  obtain ⟨F, hF⟩ := h.exists_factors
  obtain ⟨v', hv', hvsifts⟩ := h.exists_sifts_of_ftran hvalid hσ hF hv hvcap
  obtain ⟨w', hw', hwsifts⟩ :=
    exists_sifts_of_ftranInPlace hvalid hF hw (column_of_arranges hσ hv hvw hwcap)
  refine ⟨v', w', hv', hw', fun row hrow => ?_, fun row hrow => ?_, hvsifts.pairwise,
    hwsifts.pairwise⟩
  · exact ⟨_, _, getElem?_positions rfl hσ ⟨row, hrow⟩, hvsifts.getElem?_eq ⟨row, hrow⟩,
      hwsifts.getElem?_eq (σ ⟨row, hrow⟩)⟩
  · refine ⟨_, getElem?_positions rfl hσ ⟨row, hrow⟩, ?_⟩
    rw [hvsifts.mem_indices_iff ⟨row, hrow⟩, hwsifts.mem_indices_iff (σ ⟨row, hrow⟩)]

/-- A basis whose rows were exchanged, with an update. -/
def exchanged : List (Operation Float) :=
  [.setChainCapacity 1, .load ![![0, 2, 0.3], ![0, 0, 1], ![5, 0.1, -1]], .factor,
    .replace ⟨#[3, 0.5, 1e-14], [2, 0, 1], .packed⟩ 1 0.7]

/-- A right-hand side that lists an index past the basis, and not all of its own values. -/
def byRow : IndexedVector Float := ⟨#[0.1, -0, 1e-14, 7], [1, 3], .scattered⟩

/-- The same values by position, none of them listed. -/
def byPosition : IndexedVector Float := ⟨#[1e-14, 0.1, -0], [], .scattered⟩

theorem arranges_of_solves_exchanged :
    ∃ (f : Factorization Float) (v' w' : IndexedVector Float), initial.run exchanged = .ok f ∧
      f.updates = 1 ∧ f.positions = #[1, 2, 0] ∧ f.ftran byRow = .ok (v', f) ∧
      f.ftranInPlace byPosition = .ok w' ∧ f.Arranges v' w' ∧ f.ListsAlike v' w' := by
  have hrun : Except.isOk (do
      let f ← initial.run exchanged
      if ¬ (f.status = .valid ∧ f.rows = 3 ∧ f.updates = 1 ∧ f.positions = #[1, 2, 0]) then
        throw .outOfRange
      return f : Except Fault (Factorization Float)) = true := by
    decide +kernel
  obtain ⟨_, hrun⟩ := exists_eq_ok_of_isOk hrun
  simp only [bind_eq_ok_iff, guard_eq_ok_iff, pure_eq_ok_iff, not_not] at hrun
  obtain ⟨f, hf, ⟨hvalid, hrows, hupdates, hpositions⟩, rfl⟩ := hrun
  have hreach : Reaches (ofConfig Config.initial) f := reaches_of_run hf
  have harranges : f.Arranges byRow byPosition := by
    intro row hrow
    rw [hpositions]
    obtain rfl | rfl | rfl : row = 0 ∨ row = 1 ∨ row = 2 := by omega
    · exact ⟨1, 0.1, rfl, rfl, rfl⟩
    · exact ⟨2, -0, rfl, rfl, rfl⟩
    · exact ⟨0, 1e-14, rfl, rfl, rfl⟩
  have hvcap : f.rows ≤ byRow.capacity := hrows ▸ (by decide)
  have hwcap : f.rows ≤ byPosition.capacity := hrows ▸ (by decide)
  obtain ⟨v', w', hv', hw', hvalues, hlists, -, -⟩ :=
    arranges_of_solves hreach hvalid rfl rfl hvcap hwcap harranges
  exact ⟨f, v', w', hf, hupdates, hpositions, hv', hw', hvalues, hlists⟩

end Factorization

end BasisLU
