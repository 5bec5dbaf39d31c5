import BasisLU.Proofs.Factorization.Sound
import BasisLU.Proofs.IndexedVector

/-!
# Solves through the scratch buffer

With valid factors, both solves go through the scratch buffer (`ftran_eq`, `btran_eq`). A solve
reads every position of the buffer, so it leaves the buffer zero and the factorization as it was
(`eq_of_ftran`, `eq_of_btran`, `eq_of_ftranPair`). A tidy vector is gathered in the order of
positions (`gather_eq_ok`), and what is above the tolerance of the solution is put back
(`solveThrough_of_tidy`); over exact scalars, so is a proper one (`solveThrough_eq_ok`).
-/

namespace BasisLU.Factorization

open IndexedVector (blank)

/-! ## Targets -/

section Targets

variable {n : Nat} {σ : Equiv.Perm (Fin n)} {targets : List (Fin n × Nat)}

/-- Every position is a target once, and goes to the row that stands there. -/
structure Covers (σ : Equiv.Perm (Fin n)) (targets : List (Fin n × Nat)) : Prop where
  index_eq : ∀ e ∈ targets, e.2 = (σ.symm e.1).val
  position_mem : ∀ p, p ∈ targets.map Prod.fst
  nodup : (targets.map Prod.fst).Nodup

theorem Covers.index_nodup (h : Covers σ targets) : (targets.map Prod.snd).Nodup := by
  rw [List.map_congr_left h.index_eq,
    show (targets.map fun e => (σ.symm e.1).val) =
      (targets.map Prod.fst).map fun p => (σ.symm p).val by rw [List.map_map]; rfl]
  exact h.nodup.map (Fin.val_injective.comp σ.symm.injective)

theorem Covers.mem (h : Covers σ targets) (p : Fin n) : (p, (σ.symm p).val) ∈ targets := by
  obtain ⟨e, he, rfl⟩ := List.mem_map.1 (h.position_mem p)
  rwa [← h.index_eq e he]

theorem covers_slots (σ : Equiv.Perm (Fin n)) :
    Covers σ ((List.finRange n).map fun slot => (σ slot, slot.val)) where
  index_eq e he := by
    obtain ⟨slot, -, rfl⟩ := List.mem_map.1 he
    simp
  position_mem p := by
    rw [List.map_map]
    exact List.mem_map.2 ⟨σ.symm p, List.mem_finRange _, σ.apply_symm_apply p⟩
  nodup := by
    rw [List.map_map]
    exact (List.nodup_finRange n).map σ.injective

theorem covers_positions (σ : Equiv.Perm (Fin n)) :
    Covers σ ((List.finRange n).map fun p => (p, (σ.symm p).val)) where
  index_eq e he := by
    obtain ⟨p, -, rfl⟩ := List.mem_map.1 he
    rfl
  position_mem p := by
    rw [List.map_map]
    exact List.mem_map.2 ⟨p, List.mem_finRange _, rfl⟩
  nodup := by
    rw [List.map_map]
    exact (List.nodup_finRange n).map fun _ _ h => h

end Targets

variable {α : Type} [Scalar α] {f g : Factorization α} {σ : Equiv.Perm (Fin f.rows)}

omit [Scalar α] in
theorem slotTargets_eq_ok (hσ : f.order.Orders σ) :
    f.slotTargets = .ok ((List.finRange f.rows).map fun slot => (σ slot, slot.val)) := by
  rw [slotTargets, ← List.map_coe_finRange_eq_range, List.mapM_map]
  refine mapM_eq_ok fun slot _ => ?_
  rw [Function.comp_apply, position, hσ.position]
  rfl

omit [Scalar α] in
theorem rowTargets_eq_ok (hσ : f.order.Orders σ) :
    f.rowTargets = .ok ((List.finRange f.rows).map fun p => (p, (σ.symm p).val)) := by
  refine mapM_eq_ok fun p _ => ?_
  rw [hσ.read_rowAt]
  rfl

omit [Scalar α] in
theorem locateRows_map (hσ : f.order.Orders σ) (rows : List (Fin f.rows)) (value : Nat → α) :
    f.locateRows (rows.map fun r : Fin f.rows => (r.val, value r.val)) =
      .ok (rows.map fun r => (σ r, value r.val)) := by
  rw [locateRows, List.mapM_map]
  refine mapM_eq_ok fun r _ => ?_
  simp only [Function.comp_apply, position, hσ.position]
  rfl

omit [Scalar α] in
theorem requireValid_eq_ok_iff {otherwise : Fault} {u : Unit} :
    f.requireValid otherwise = .ok u ↔ f.status = .valid := by
  rw [requireValid, ite_error_eq_ok_iff, Status.isValid_iff, and_iff_left rfl]

theorem ftran_eq (hvalid : f.status = .valid) {F : Factors α f.rows} (hF : f.factors = .ok F)
    (hσ : f.order.Orders σ) (v : IndexedVector α) :
    f.ftran v =
      f.solveThrough F.solve ((List.finRange f.rows).map fun slot => (σ slot, slot.val)) v := by
  rw [ftran, requireValid_eq_ok_iff (u := ()) |>.2 hvalid, hF, slotTargets_eq_ok hσ]
  rfl

theorem btran_eq (hvalid : f.status = .valid) {F : Factors α f.rows} (hF : f.factors = .ok F)
    (hσ : f.order.Orders σ) (v : IndexedVector α) :
    f.btran v = f.solveThrough F.solveTransposed
      ((List.finRange f.rows).map fun p => (p, (σ.symm p).val)) v := by
  rw [btran, requireValid_eq_ok_iff (u := ()) |>.2 hvalid, hF, rowTargets_eq_ok hσ]
  rfl

/-! ## The factorization after a solve -/

/-- Reading every position leaves zeros. -/
theorem released_eq {n : Nat} {σ : Equiv.Perm (Fin n)} {targets : List (Fin n × Nat)}
    (h : Covers σ targets) (x : Vector α n) : released targets x = Vector.replicate n 0 := by
  rw [released, scatter_eq_ofFn (g := fun _ => 0)]
  · ext i hi
    simp
  · intro e he
    obtain ⟨t, -, rfl⟩ := List.mem_map.1 he
    rfl
  · intro p hp
    exact absurd rfl (hp (p, 0) (List.mem_map.2 ⟨_, h.mem p, rfl⟩))

theorem Sound.column_scratch (h : f.Sound) :
    Block.column f.rows 0 f.scratch = .ok (Vector.replicate f.rows 0) := by
  have hrows := h.rows_le
  refine Block.column_eq_ok (by simp [h.scratch, hrows]) fun i hi => ?_
  rw [h.scratch, Vector.getElem_replicate, Array.getElem?_replicate,
    if_pos (show 0 * f.rows + i < f.mostRows by omega)]

theorem Sound.eq_of_solveThrough (h : f.Sound) {solve : Vector α f.rows → Vector α f.rows}
    {targets : List (Fin f.rows × Nat)} (ht : Covers σ targets) {v w : IndexedVector α}
    (hr : f.solveThrough solve targets v = .ok (w, g)) : g = f := by
  simp only [solveThrough, bind_eq_ok_iff, guard_eq_ok_iff, pure_eq_ok_iff, Prod.mk.injEq] at hr
  obtain ⟨_, -, ⟨_, _⟩, -, _, -, scratch, hscratch, -, -, rfl⟩ := hr
  rw [released_eq ht, h.scratch] at hscratch
  rw [setColumn_replicate hscratch, ← h.scratch]

/-- A solve that succeeds went through the scratch buffer. -/
theorem Sound.exists_covers_of_ftran (h : f.Sound) {v : IndexedVector α}
    {r : IndexedVector α × Factorization α} (hr : f.ftran v = .ok r) :
    ∃ (σ : Equiv.Perm (Fin f.rows)) (solve : Vector α f.rows → Vector α f.rows)
      (targets : List (Fin f.rows × Nat)), f.order.Orders σ ∧ Covers σ targets ∧
        f.solveThrough solve targets v = .ok r := by
  simp only [ftran, bind_eq_ok_iff, requireValid_eq_ok_iff] at hr
  obtain ⟨-, hvalid, F, -, targets, htargets, hr⟩ := hr
  obtain ⟨σ, hσ⟩ := h.exists_orders hvalid
  cases (slotTargets_eq_ok hσ).symm.trans htargets
  exact ⟨σ, F.solve, _, hσ, covers_slots σ, hr⟩

theorem Sound.exists_covers_of_btran (h : f.Sound) {v : IndexedVector α}
    {r : IndexedVector α × Factorization α} (hr : f.btran v = .ok r) :
    ∃ (σ : Equiv.Perm (Fin f.rows)) (solve : Vector α f.rows → Vector α f.rows)
      (targets : List (Fin f.rows × Nat)), f.order.Orders σ ∧ Covers σ targets ∧
        f.solveThrough solve targets v = .ok r := by
  simp only [btran, bind_eq_ok_iff, requireValid_eq_ok_iff] at hr
  obtain ⟨-, hvalid, F, -, targets, htargets, hr⟩ := hr
  obtain ⟨σ, hσ⟩ := h.exists_orders hvalid
  cases (rowTargets_eq_ok hσ).symm.trans htargets
  exact ⟨σ, F.solveTransposed, _, hσ, covers_positions σ, hr⟩

theorem Sound.eq_of_ftran (h : f.Sound) {v w : IndexedVector α} (hr : f.ftran v = .ok (w, g)) :
    g = f := by
  obtain ⟨σ, solve, targets, -, ht, hr⟩ := h.exists_covers_of_ftran hr
  exact h.eq_of_solveThrough ht hr

theorem Sound.eq_of_btran (h : f.Sound) {v w : IndexedVector α} (hr : f.btran v = .ok (w, g)) :
    g = f := by
  obtain ⟨σ, solve, targets, -, ht, hr⟩ := h.exists_covers_of_btran hr
  exact h.eq_of_solveThrough ht hr

/-- Two solves in one call are the two solves. -/
theorem Sound.ftranPair_eq_ok_iff (h : f.Sound) {v w v' w' : IndexedVector α} {inPlace : Bool} :
    f.ftranPair v w inPlace = .ok (v', w', g) ↔ g = f ∧ f.ftran v = .ok (v', f) ∧
      if inPlace then f.ftranInPlace w = .ok w' else f.ftran w = .ok (w', f) := by
  simp only [ftranPair, bind_eq_ok_iff]
  constructor
  · intro hr
    obtain ⟨⟨_, f'⟩, hv, hr⟩ := hr
    obtain rfl := h.eq_of_ftran hv
    split at hr <;> simp only [bind_eq_ok_iff, pure_eq_ok_iff, Prod.mk.injEq] at hr
    · obtain ⟨_, hw, rfl, rfl, rfl⟩ := hr
      exact ⟨rfl, hv, by rwa [if_pos ‹_›]⟩
    · obtain ⟨⟨_, f''⟩, hw, rfl, rfl, rfl⟩ := hr
      obtain rfl := h.eq_of_ftran hw
      exact ⟨rfl, hv, by rwa [if_neg ‹_›]⟩
  · intro hr
    obtain ⟨rfl, hv, hw⟩ := hr
    refine ⟨_, hv, ?_⟩
    split at hw
    · rw [if_pos ‹_›, hw]
      rfl
    · rw [if_neg ‹_›, hw]
      rfl

theorem Sound.eq_of_ftranPair (h : f.Sound) {v w v' w' : IndexedVector α} {inPlace : Bool}
    (hr : f.ftranPair v w inPlace = .ok (v', w', g)) : g = f := (h.ftranPair_eq_ok_iff.1 hr).1

/-! ## The vector after a solve -/

/-- The slots that are taken may hold anything; the others are zero. -/
theorem mapIdx_eq_replicate {elements : Array α} {taken : Nat → Prop} [DecidablePred taken]
    (h : ∀ slot, ¬ taken slot → elements.getD slot 0 = 0) :
    (elements.mapIdx fun slot x => if taken slot then 0 else x) =
      Array.replicate elements.size 0 := by
  ext slot hslot hslot'
  · simp
  · rw [Array.getElem_mapIdx, Array.getElem_replicate]
    split
    · rfl
    · have := h slot ‹_›
      rwa [Array.getD_eq_getD_getElem?, Array.getElem?_eq_getElem (by simpa using hslot),
        Option.getD_some] at this

/-- The values of a tidy vector, written to the positions of their rows. -/
theorem scatter_rows {n : Nat} (σ : Equiv.Perm (Fin n)) {v : IndexedVector α} (hv : v.Tidy n)
    {rows : List (Fin n)} (hrows : v.indices = rows.map Fin.val) :
    scatter (rows.map fun r => (σ r, v.valueAt r)) (Vector.replicate n 0) =
      Vector.ofFn fun p => v.valueAt (σ.symm p) := by
  refine scatter_eq_ofFn (fun e he => ?_) fun p hp => ?_
  · obtain ⟨r, -, rfl⟩ := List.mem_map.1 he
    rw [σ.symm_apply_apply]
  · have hmem : (σ.symm p).val ∉ v.indices := fun h => by
      obtain ⟨r, hr, hrp⟩ := List.mem_map.1 (hrows ▸ h)
      exact hp _ (List.mem_map_of_mem hr) (by simp [Fin.ext hrp])
    simp [hv.valueAt_of_not_mem hmem]

/-- The rows of the basis read off a scattered vector, in the order of positions. -/
theorem mapM_scattered (hσ : f.order.Orders σ) {v : IndexedVector α} (hl : v.layout = .scattered)
    (hcap : f.rows ≤ v.capacity) :
    (List.finRange f.rows).mapM (fun p : Fin f.rows => do
        let row ← Fault.read f.order.rowAt p
        return (p, row, ← Fault.read v.elements row)) =
      .ok ((List.finRange f.rows).map fun p => (p, (σ.symm p).val, v.valueAt (σ.symm p))) := by
  refine mapM_eq_ok fun p _ => ?_
  have hrow : (σ.symm p).val < v.elements.size := (σ.symm p).isLt.trans_le hcap
  simp only [bind_eq_ok_iff, pure_eq_ok_iff]
  exact ⟨_, hσ.read_rowAt p, _, Fault.read_of_lt hrow, by simp [IndexedVector.valueAt, hl, hrow]⟩

/-- Of a scattered vector every row of the basis is taken, listed or not. -/
theorem gather_of_scattered (hσ : f.order.Orders σ) {v : IndexedVector α}
    (hl : v.layout = .scattered) (hcap : f.rows ≤ v.capacity) (scratch : Vector α f.rows) :
    f.gather v scratch = .ok (Vector.ofFn fun p => v.valueAt (σ.symm p), { v with
      elements := v.elements.mapIdx fun slot x => if slot < f.rows then 0 else x
      indices := [] }) := by
  have hany (slot : Nat) : ((List.finRange f.rows).map fun p =>
      (p, (σ.symm p).val, v.valueAt (σ.symm p))).any (fun e => e.2.1 = slot) = true ↔
      slot < f.rows := by
    rw [List.any_eq_true]
    constructor
    · intro h
      obtain ⟨e, he, hrow⟩ := h
      obtain ⟨p, -, rfl⟩ := List.mem_map.1 he
      exact of_decide_eq_true hrow ▸ (σ.symm p).isLt
    · intro h
      refine ⟨_, List.mem_map_of_mem (List.mem_finRange (σ ⟨slot, h⟩)), ?_⟩
      simp
  simp only [gather, hl, mapM_scattered hσ hl hcap, bind_eq_ok_iff, pure_eq_ok_iff, Prod.mk.injEq]
  refine ⟨_, rfl, ?_, by simp only [hany]⟩
  rw [List.map_map]
  refine scatter_eq_ofFn (fun e he => ?_) fun p hp => ?_
  · obtain ⟨p, -, rfl⟩ := List.mem_map.1 he
    rfl
  · exact absurd rfl (hp _ (List.mem_map_of_mem (List.mem_finRange p)))

/-- A tidy vector is gathered as a whole, in the order of positions. -/
theorem gather_eq_ok (hσ : f.order.Orders σ) {v : IndexedVector α} (hv : v.Tidy f.rows)
    (hcap : f.rows ≤ v.capacity) :
    f.gather v (Vector.replicate f.rows 0) =
      .ok (Vector.ofFn fun p => v.valueAt (σ.symm p), blank v.capacity v.layout) := by
  cases hl : v.layout with
  | packed =>
    obtain ⟨rows, hrows⟩ := IndexedVector.exists_rows hv.lt
    have hentries := (IndexedVector.entries_eq_ok_iff hv.nodup).2
      ⟨IndexedVector.hasSlots_of_nodup hv.nodup hv.lt hcap, rfl⟩
    rw [hrows, List.map_map] at hentries
    simp only [gather, hl, hentries, bind_eq_ok_iff, pure_eq_ok_iff, Prod.mk.injEq]
    refine ⟨_, rfl, rows.map fun r => (σ r, v.valueAt r), locateRows_map hσ rows v.valueAt, ?_, ?_⟩
    · exact scatter_rows σ hv hrows
    · rw [mapIdx_eq_replicate fun slot hslot => hv.zero slot ?_]
      · rfl
      · simpa [IndexedVector.occupied, hl] using hslot
  | scattered =>
    -- A row of the basis that is not listed holds zero.
    rw [gather_of_scattered hσ hl hcap, mapIdx_eq_replicate fun slot hslot => hv.zero slot ?_]
    · rw [hl]
      rfl
    · have hlisted : slot ∉ v.indices := fun h => hslot (hv.lt slot h)
      simpa [IndexedVector.occupied, hl] using hlisted

/-- What is kept of a solution: the targets of the positions above the tolerance. -/
theorem kept_eq {n : Nat} (tolerance : α) (x : Vector α n) :
    ∀ targets : List (Fin n × Nat), kept tolerance targets x =
      (targets.filter fun e => tolerance < Scalar.magnitude (x.get e.1)).map
        fun e => (e.2, x.get e.1)
  | [] => rfl
  | e :: targets => by
    have ih := kept_eq tolerance x targets
    rw [kept] at ih ⊢
    by_cases h : tolerance < Scalar.magnitude (x.get e.1)
    · rw [List.filter_cons_of_pos (by simpa using h), List.map_cons, ← ih,
        List.filterMap_cons_some (b := (e.2, x.get e.1)) (by simpa using h)]
    · rw [List.filter_cons_of_neg (by simpa using h), ← ih,
        List.filterMap_cons_none (by simpa using h)]

section Kept

variable {n : Nat} {σ : Equiv.Perm (Fin n)} {targets : List (Fin n × Nat)}

theorem mem_kept (ht : Covers σ targets) {tolerance : α} {x : Vector α n} {e : Nat × α} :
    e ∈ kept tolerance targets x ↔
      ∃ p, tolerance < Scalar.magnitude (x.get p) ∧ e = ((σ.symm p).val, x.get p) := by
  rw [kept_eq, List.mem_map]
  constructor
  · intro he
    obtain ⟨t, htm, rfl⟩ := he
    obtain ⟨htm, hlarge⟩ := List.mem_filter.1 htm
    exact ⟨t.1, of_decide_eq_true hlarge, by rw [ht.index_eq t htm]⟩
  · intro he
    obtain ⟨p, hp, rfl⟩ := he
    exact ⟨_, List.mem_filter.2 ⟨ht.mem p, decide_eq_true hp⟩, rfl⟩

theorem kept_nodup (ht : Covers σ targets) (tolerance : α) (x : Vector α n) :
    ((kept tolerance targets x).map Prod.fst).Nodup := by
  rw [kept_eq, List.map_map]
  exact ht.index_nodup.sublist (List.filter_sublist.map _)

theorem kept_lt (ht : Covers σ targets) {tolerance : α} {x : Vector α n} :
    ∀ e ∈ kept tolerance targets x, e.1 < n := by
  intro e he
  obtain ⟨p, -, rfl⟩ := (mem_kept ht).1 he
  exact (σ.symm p).isLt

end Kept

section Lawful

variable [LawfulZero α]

/-- A solve through the scratch buffer is gathering and putting back: the buffer is clear before and
after. -/
theorem Sound.solveThrough_eq (h : f.Sound) {targets : List (Fin f.rows × Nat)}
    (ht : Covers σ targets) (solve : Vector α f.rows → Vector α f.rows) (v : IndexedVector α) :
    f.solveThrough solve targets v = (do
      let (b, emptied) ← f.gather v (Vector.replicate f.rows 0)
      return (← emptied.fill (kept f.config.zeroTolerance targets (solve b)), f)) := by
  obtain ⟨scratch, hscratch⟩ : ∃ scratch,
      Block.setColumn 0 (Vector.replicate f.rows 0) f.scratch = .ok scratch :=
    Block.setColumn_of_le (by simpa [h.scratch] using h.rows_le)
  have hzeros : scratch = f.scratch := by
    rw [h.scratch] at hscratch ⊢
    exact setColumn_replicate hscratch
  have hall : scratch.all Scalar.isZero = true := by
    rw [hzeros, h.scratch, Array.all_eq_true]
    simp [LawfulZero.isZero_zero]
  rw [solveThrough, h.column_scratch, ok_bind]
  refine bind_congr_of_eq_ok fun r _ => bind_congr_of_eq_ok fun w _ => ?_
  rw [released_eq ht, hscratch, ok_bind, if_neg (by simp [hall]), hzeros]

theorem Sound.ftran_eq_bind (h : f.Sound) (v : IndexedVector α) : f.ftran v = (do
    f.requireValid .ftranBeforeFactor
    let F ← f.factors
    let targets ← f.slotTargets
    let (b, emptied) ← f.gather v (Vector.replicate f.rows 0)
    return (← emptied.fill (kept f.config.zeroTolerance targets (F.solve b)), f)) := by
  refine bind_congr_of_eq_ok fun _ hvalid => bind_congr_of_eq_ok fun F _ =>
    bind_congr_of_eq_ok fun targets htargets => ?_
  obtain ⟨σ, hσ⟩ := h.exists_orders (requireValid_eq_ok_iff.1 hvalid)
  cases (slotTargets_eq_ok hσ).symm.trans htargets
  exact h.solveThrough_eq (covers_slots σ) F.solve v

theorem Sound.btran_eq_bind (h : f.Sound) (v : IndexedVector α) : f.btran v = (do
    f.requireValid .btranBeforeFactor
    let F ← f.factors
    let targets ← f.rowTargets
    let (b, emptied) ← f.gather v (Vector.replicate f.rows 0)
    return (← emptied.fill (kept f.config.zeroTolerance targets (F.solveTransposed b)), f)) := by
  refine bind_congr_of_eq_ok fun _ hvalid => bind_congr_of_eq_ok fun F _ =>
    bind_congr_of_eq_ok fun targets htargets => ?_
  obtain ⟨σ, hσ⟩ := h.exists_orders (requireValid_eq_ok_iff.1 hvalid)
  cases (rowTargets_eq_ok hσ).symm.trans htargets
  exact h.solveThrough_eq (covers_positions σ) F.solveTransposed v

theorem Sound.solveThrough_eq_ok_iff (h : f.Sound) {targets : List (Fin f.rows × Nat)}
    (ht : Covers σ targets) {solve : Vector α f.rows → Vector α f.rows} {v w : IndexedVector α} :
    f.solveThrough solve targets v = .ok (w, g) ↔ g = f ∧ ∃ b emptied,
      f.gather v (Vector.replicate f.rows 0) = .ok (b, emptied) ∧
      emptied.fill (kept f.config.zeroTolerance targets (solve b)) = .ok w := by
  simp only [h.solveThrough_eq ht, bind_eq_ok_iff, pure_eq_ok_iff, Prod.mk.injEq]
  constructor
  · intro hr
    obtain ⟨⟨b, emptied⟩, hgather, w, hfill, rfl, rfl⟩ := hr
    exact ⟨rfl, b, emptied, hgather, hfill⟩
  · intro hr
    obtain ⟨rfl, b, emptied, hgather, hfill⟩ := hr
    exact ⟨_, hgather, w, hfill, rfl, rfl⟩

/-- A tidy vector is solved for its values in the order of positions, whatever its layout. -/
theorem Sound.solveThrough_of_tidy (h : f.Sound) (hσ : f.order.Orders σ)
    {targets : List (Fin f.rows × Nat)} (ht : Covers σ targets) {v : IndexedVector α}
    (hv : v.Tidy f.rows) (hcap : f.rows ≤ v.capacity)
    (solve : Vector α f.rows → Vector α f.rows) {found : List (Nat × α)}
    (hfound : found = kept f.config.zeroTolerance targets
      (solve (Vector.ofFn fun p => v.valueAt (σ.symm p)))) :
    ∃ w, f.solveThrough solve targets v = .ok (w, f) ∧ w.layout = v.layout ∧
      w.Lists found f.rows := by
  obtain ⟨w, hw, hlayout, hlists⟩ := IndexedVector.fill_blank v.layout
    (hfound ▸ kept_nodup ht _ _) (hfound ▸ kept_lt ht) hcap
  exact ⟨w, (h.solveThrough_eq_ok_iff ht).2 ⟨rfl, _, _, gather_eq_ok hσ hv hcap, hfound ▸ hw⟩,
    hlayout, hlists⟩

end Lawful

section Exact

variable {α : Type} [ExactScalar α] {f : Factorization α} {σ : Equiv.Perm (Fin f.rows)}

/-- A solve through the scratch buffer succeeds, gives back the solution without what is not above
the tolerance, and leaves the factorization as it was. -/
theorem Sound.solveThrough_eq_ok (h : f.Sound) (hσ : f.order.Orders σ)
    {targets : List (Fin f.rows × Nat)} (ht : Covers σ targets) {v : IndexedVector α}
    (hv : v.Proper f.rows) (hcap : f.rows ≤ v.capacity)
    (solve : Vector α f.rows → Vector α f.rows) :
    ∃ w, f.solveThrough solve targets v = .ok (w, f) ∧ w.layout = v.layout ∧
      w.Compacts f.config.zeroTolerance fun i =>
        (solve (Vector.ofFn fun p => v.valueAt (σ.symm p))).get (σ i) := by
  obtain ⟨w, hw, hlayout, hlists⟩ := h.solveThrough_of_tidy hσ ht hv.tidy hcap solve rfl
  obtain ⟨x, hx⟩ : ∃ x, solve (Vector.ofFn fun p => v.valueAt (σ.symm p)) = x := ⟨_, rfl⟩
  rw [hx] at hlists ⊢
  have hmem (i : Fin f.rows) :
      i.val ∈ w.indices ↔ f.config.zeroTolerance < |x.get (σ i)| := by
    rw [hlists.indices_eq, List.mem_map]
    constructor
    · intro hi
      obtain ⟨e, he, hi⟩ := hi
      obtain ⟨p, hp, rfl⟩ := (mem_kept ht).1 he
      rwa [← Fin.ext hi, σ.apply_symm_apply, ← Scalar.magnitude_eq_abs]
    · intro hi
      rw [← Scalar.magnitude_eq_abs] at hi
      exact ⟨_, (mem_kept ht).2 ⟨σ i, hi, rfl⟩, by rw [σ.symm_apply_apply]⟩
  refine ⟨w, hw, hlayout, hlists.proper, hmem, fun i => ?_⟩
  split
  · rename_i hi
    rw [← Scalar.magnitude_eq_abs] at hi
    have := hlists.valueAt_eq _ ((mem_kept ht).2 ⟨σ i, hi, rfl⟩)
    rwa [σ.symm_apply_apply] at this
  · exact hlists.valueAt_of_not_mem fun hi => absurd ((hmem i).1 hi) ‹_›

end Exact

end BasisLU.Factorization
