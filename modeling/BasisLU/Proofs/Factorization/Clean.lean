import BasisLU.Proofs.Factorization.Invariant

/-!
# What solves leave in a vector

Every call on a vector alone keeps it clean. A solve takes the entries of a packed vector, but of a
scattered one it takes the rows of the basis, listed or not, and then gives up the list
(`Rewrites`). A value listed past the rows of the basis, in a vector with room for more, is in no
list afterwards, and the vector is not clean. So vectors are clean that no basis solved while they
listed such a value (`Tended`), and a solve of one keeps it so exactly if there is none
(`isClean_iff_of_tended`).

To be clean is to hold what passes the test for zero outside the entries. The same is true of any
property that zero has, as to be zero itself (`Sound.rest_iff_of_solved`).
-/

namespace BasisLU

variable {α : Type} [Scalar α] {f g : Factorization α} {v w : IndexedVector α} {P : α → Prop}

namespace IndexedVector

/-- Nothing but zeros is listed from index `n` on, where slots belong to indices. -/
def ClearFrom (v : IndexedVector α) (n : Nat) : Prop :=
  v.layout = .scattered → ∀ i ∈ v.indices, n ≤ i → Scalar.isZero (v.valueAt i) = true

/-- What is listed from index `n` on has the property, where slots belong to indices. -/
def Beyond (P : α → Prop) (v : IndexedVector α) (n : Nat) : Prop :=
  v.layout = .scattered → ∀ i ∈ v.indices, n ≤ i → P (v.valueAt i)

/-- What a solve by a basis of `n` rows does to a scattered vector: the first `n` slots are zeros
but for the entries, and the others stay as they were. -/
structure Rewrites (n : Nat) (v w : IndexedVector α) : Prop where
  layout_eq : w.layout = .scattered
  lt : ∀ i ∈ w.indices, i < n
  zero : ∀ slot < n, ∀ x, w.elements[slot]? = some x → slot ∈ w.indices ∨ x = 0
  getElem?_eq : ∀ slot, n ≤ slot → w.elements[slot]? = v.elements[slot]?

omit [Scalar α] in
theorem occupied_of_scattered (h : v.layout = .scattered) {slot : Nat} :
    v.occupied slot = true ↔ slot ∈ v.indices := by
  simp [occupied, h]

theorem valueAt_of_getElem? (h : v.layout = .scattered) {i : Nat} {x : α}
    (hx : v.elements[i]? = some x) : v.valueAt i = x := by
  simp [valueAt, h, hx]

/-- What was listed past the rows of the basis is no longer listed, and stays. -/
theorem Rewrites.rest_iff {n : Nat} (hP : P 0) (h : v.Rewrites n w) (hl : v.layout = .scattered)
    (hv : v.Rest P) : w.Rest P ↔ v.Beyond P n := by
  constructor
  · intro hw _ i _ hi
    cases hx : v.elements[i]? with
    | none =>
      rw [valueAt, hl]
      simpa [hx] using hP
    | some x =>
      have hnot : i ∉ w.indices := fun hmem => absurd (h.lt i hmem) (by omega)
      rw [valueAt_of_getElem? hl hx]
      refine (hw i x ((h.getElem?_eq i hi).trans hx)).resolve_left fun ho => hnot ?_
      exact (occupied_of_scattered h.layout_eq).1 ho
  · intro hbeyond slot x hx
    rcases Nat.lt_or_ge slot n with hslot | hslot
    · rcases h.zero slot hslot x hx with hmem | rfl
      · exact .inl ((occupied_of_scattered h.layout_eq).2 hmem)
      · exact .inr hP
    · rw [h.getElem?_eq slot hslot] at hx
      refine .inr ((hv slot x hx).elim (fun ho => ?_) id)
      rw [← valueAt_of_getElem? hl hx]
      exact hbeyond hl slot ((occupied_of_scattered hl).1 ho) hslot

omit [Scalar α] in
/-- Filling writes to the slots of the entries only. -/
theorem getElem?_of_fill {found : List (Nat × α)} (h : v.fill found = .ok w) :
    w.layout = v.layout ∧ w.indices = found.map Prod.fst ∧
      ∀ slot, w.occupied slot = false → w.elements[slot]? = v.elements[slot]? := by
  simp only [fill, bind_eq_ok_iff, pure_eq_ok_iff] at h
  obtain ⟨placed, hplaced, rfl⟩ := h
  refine ⟨rfl, rfl, fun slot hslot => ?_⟩
  have hne (e : Fin v.capacity × α) (he : e ∈ placed) : e.1.val ≠ slot := by
    rintro rfl
    have hmem := List.mem_map_of_mem (f := fun e : Fin v.capacity × α => (e.1.val, e.2)) he
    rw [← locate_eq_ok_iff.1 hplaced] at hmem
    have hin := (List.of_mem_zip hmem).1
    cases hl : v.layout with
    | packed =>
      have hcount : e.1 < found.length := by simpa [hl] using hin
      have : found.length ≤ e.1 := by simpa [occupied, hl, count] using hslot
      omega
    | scattered =>
      have hnot : e.1.val ∉ found.map Prod.fst := by simpa [occupied, hl] using hslot
      exact hnot (by simpa [hl] using hin)
  by_cases hlt : slot < v.elements.size
  · have hkeep := scatter_of_forall_ne (show slot < v.capacity from hlt) hne v.elements.toVector
    simpa [hlt, capacity] using hkeep
  · simp [hlt, capacity]

end IndexedVector

namespace Factorization

/-- A call that solves the first vector by the basis comes to the second. -/
inductive Solved (f : Factorization α) : IndexedVector α → IndexedVector α → Prop where
  | ftran {v w : IndexedVector α} {g : Factorization α} : f.ftran v = .ok (w, g) → Solved f v w
  | ftranInPlace {v w : IndexedVector α} : f.ftranInPlace v = .ok w → Solved f v w
  | first {v x w y : IndexedVector α} {g : Factorization α} {inPlace : Bool} :
    f.ftranPair v x inPlace = .ok (w, y, g) → Solved f v w
  | second {v x w y : IndexedVector α} {g : Factorization α} {inPlace : Bool} :
    f.ftranPair x v inPlace = .ok (y, w, g) → Solved f v w
  | btran {v w : IndexedVector α} {g : Factorization α} : f.btran v = .ok (w, g) → Solved f v w

section Solves

variable [LawfulZero α] {σ : Equiv.Perm (Fin f.rows)}

omit [LawfulZero α] in
/-- Of a scattered vector every row of the basis is taken, and nothing else. -/
theorem getElem?_of_gather (hσ : f.order.Orders σ) (hl : v.layout = .scattered)
    (hcap : f.rows ≤ v.capacity) {scratch b : Vector α f.rows} {emptied : IndexedVector α}
    (h : f.gather v scratch = .ok (b, emptied)) :
    emptied.layout = .scattered ∧ (∀ slot < f.rows, ∀ x, emptied.elements[slot]? = some x → x = 0) ∧
      ∀ slot, f.rows ≤ slot → emptied.elements[slot]? = v.elements[slot]? := by
  rw [gather_of_scattered hσ hl hcap] at h
  cases h
  refine ⟨hl, fun slot hslot x hx => ?_, fun slot hslot => ?_⟩
  · rw [Array.getElem?_mapIdx, Option.map_eq_some_iff] at hx
    obtain ⟨y, -, rfl⟩ := hx
    exact if_pos hslot
  · have hkeep (x : α) : (if slot < f.rows then 0 else x) = x := if_neg (Nat.not_lt.2 hslot)
    rw [Array.getElem?_mapIdx, Option.map_congr fun x _ => hkeep x, Option.map_id']

omit [LawfulZero α] in
/-- All that a packed vector lists is taken. -/
theorem forall_of_gather (hP : P 0) (hl : v.layout = .packed) (hv : v.Rest P)
    {scratch b : Vector α f.rows} {emptied : IndexedVector α}
    (h : f.gather v scratch = .ok (b, emptied)) :
    ∀ (slot : Nat) (x : α), emptied.elements[slot]? = some x → P x := by
  simp only [gather, hl, bind_eq_ok_iff, pure_eq_ok_iff, Prod.mk.injEq] at h
  obtain ⟨_, -, _, -, -, rfl⟩ := h
  intro slot x hx
  rw [Array.getElem?_mapIdx, Option.map_eq_some_iff] at hx
  obtain ⟨y, hy, rfl⟩ := hx
  split
  · exact hP
  · rename_i hslot
    refine (hv slot y hy).resolve_left fun ho => hslot ?_
    simpa [IndexedVector.occupied, hl] using ho

/-- A solve through the scratch buffer lists rows, each at most once. -/
theorem Sound.listed_of_solveThrough (h : f.Sound) {targets : List (Fin f.rows × Nat)}
    (ht : Covers σ targets) {solve : Vector α f.rows → Vector α f.rows}
    (hw : f.solveThrough solve targets v = .ok (w, g)) :
    w.indices.Nodup ∧ ∀ i ∈ w.indices, i < f.rows := by
  obtain ⟨-, b, emptied, -, hfill⟩ := (h.solveThrough_eq_ok_iff ht).1 hw
  obtain ⟨-, hindices, -⟩ := IndexedVector.getElem?_of_fill hfill
  rw [hindices]
  exact ⟨kept_nodup ht _ _, List.forall_mem_map.2 (kept_lt ht)⟩

/-- A solve through the scratch buffer of a scattered vector. -/
theorem Sound.rewrites_of_solveThrough (h : f.Sound) (hσ : f.order.Orders σ)
    {targets : List (Fin f.rows × Nat)} (ht : Covers σ targets) (hl : v.layout = .scattered)
    (hcap : f.rows ≤ v.capacity) {solve : Vector α f.rows → Vector α f.rows}
    (hw : f.solveThrough solve targets v = .ok (w, g)) : v.Rewrites f.rows w := by
  have hlt := (h.listed_of_solveThrough ht hw).2
  obtain ⟨-, b, emptied, hgather, hfill⟩ := (h.solveThrough_eq_ok_iff ht).1 hw
  obtain ⟨hlayout, hzero, hafter⟩ := getElem?_of_gather hσ hl hcap hgather
  obtain ⟨hwlayout, -, hkeep⟩ := IndexedVector.getElem?_of_fill hfill
  have hl' := hwlayout.trans hlayout
  have hfree (slot : Nat) (hslot : slot ∉ w.indices) : w.occupied slot = false :=
    Bool.eq_false_iff.2 (mt (IndexedVector.occupied_of_scattered hl').1 hslot)
  refine ⟨hl', hlt, fun slot hslot x hx => ?_, fun slot hslot => ?_⟩
  · by_cases hmem : slot ∈ w.indices
    · exact .inl hmem
    · rw [hkeep slot (hfree slot hmem)] at hx
      exact .inr (hzero slot hslot x hx)
  · rw [hkeep slot (hfree slot fun hmem => absurd (hlt slot hmem) (Nat.not_lt.2 hslot)),
      hafter slot hslot]

omit [LawfulZero α] in
/-- Solving a scattered vector where it stands. -/
theorem rewrites_of_ftranInPlace (hw : f.ftranInPlace v = .ok w) :
    v.layout = .scattered ∧ f.rows ≤ v.capacity ∧ w.indices.Nodup ∧ v.Rewrites f.rows w := by
  simp only [ftranInPlace, bind_eq_ok_iff, guard_eq_ok_iff, pure_eq_ok_iff] at hw
  obtain ⟨-, -, hlayout, F, -, b, hb, elements, helements, rfl⟩ := hw
  have hl : v.layout = .scattered := by
    cases hl : v.layout with
    | packed => exact absurd hl hlayout
    | scattered => rfl
  have hroom := Block.le_of_column hb
  rw [Nat.zero_mul, Nat.zero_add] at hroom
  refine ⟨hl, hroom, ((List.nodup_finRange _).filter _).map Fin.val_injective, hl,
    fun i hi => ?_, fun slot hslot x hx => ?_, fun slot hslot => ?_⟩
  · obtain ⟨p, -, rfl⟩ := List.mem_map.1 hi
    exact p.isLt
  · have hvalue := Block.getElem?_setColumn helements hslot
    rw [Nat.zero_mul, Nat.zero_add, hx, Option.some.injEq, Vector.getElem_map] at hvalue
    subst hvalue
    by_cases hlarge : f.config.zeroTolerance < Scalar.magnitude (F.solve b)[slot]
    · refine .inl (List.mem_map.2 ⟨⟨slot, hslot⟩, List.mem_filter.2 ⟨List.mem_finRange _, ?_⟩, rfl⟩)
      exact decide_eq_true hlarge
    · exact .inr (if_neg (by simpa using hlarge))
  · exact Block.getElem?_setColumn_of_not helements (by omega)

/-- A solve through the scratch buffer leaves a property to the rest of the vector, unless a value
without it is listed past the rows of the basis where only rows are taken. -/
theorem Sound.rest_iff_of_solveThrough (hP : P 0) (h : f.Sound) (hσ : f.order.Orders σ)
    {targets : List (Fin f.rows × Nat)} (ht : Covers σ targets) (hv : v.Rest P)
    (hcap : v.layout = .scattered → f.rows ≤ v.capacity)
    {solve : Vector α f.rows → Vector α f.rows}
    (hw : f.solveThrough solve targets v = .ok (w, g)) : w.Rest P ↔ v.Beyond P f.rows := by
  cases hl : v.layout with
  | scattered => exact (h.rewrites_of_solveThrough hσ ht hl (hcap hl) hw).rest_iff hP hl hv
  | packed =>
    refine iff_of_true (fun slot x hx => ?_) fun hs => nomatch hl.symm.trans hs
    obtain ⟨-, b, emptied, hgather, hfill⟩ := (h.solveThrough_eq_ok_iff ht).1 hw
    obtain ⟨-, -, hkeep⟩ := IndexedVector.getElem?_of_fill hfill
    cases ho : w.occupied slot with
    | true => exact .inl rfl
    | false => exact .inr (forall_of_gather hP hl hv hgather slot x (hkeep slot ho ▸ hx))

theorem Sound.rest_iff_of_ftran (hP : P 0) (h : f.Sound) (hv : v.Rest P)
    (hcap : v.layout = .scattered → f.rows ≤ v.capacity) (hw : f.ftran v = .ok (w, g)) :
    w.Rest P ↔ v.Beyond P f.rows := by
  obtain ⟨σ, solve, targets, hσ, ht, hw⟩ := h.exists_covers_of_ftran hw
  exact h.rest_iff_of_solveThrough hP hσ ht hv hcap hw

theorem Sound.rest_iff_of_btran (hP : P 0) (h : f.Sound) (hv : v.Rest P)
    (hcap : v.layout = .scattered → f.rows ≤ v.capacity) (hw : f.btran v = .ok (w, g)) :
    w.Rest P ↔ v.Beyond P f.rows := by
  obtain ⟨σ, solve, targets, hσ, ht, hw⟩ := h.exists_covers_of_btran hw
  exact h.rest_iff_of_solveThrough hP hσ ht hv hcap hw

omit [LawfulZero α] in
theorem rest_iff_of_ftranInPlace (hP : P 0) (hv : v.Rest P) (hw : f.ftranInPlace v = .ok w) :
    w.Rest P ↔ v.Beyond P f.rows := by
  obtain ⟨hl, -, -, hrewrites⟩ := rewrites_of_ftranInPlace hw
  exact hrewrites.rest_iff hP hl hv

omit [LawfulZero α] in
/-- Two vectors solved together are solved one after the other by the same basis. -/
theorem Sound.solves_of_ftranPair (h : f.Sound) {x y : IndexedVector α} {inPlace : Bool}
    (hr : f.ftranPair v x inPlace = .ok (w, y, g)) :
    f.ftran v = .ok (w, f) ∧ (f.ftranInPlace x = .ok y ∨ f.ftran x = .ok (y, f)) := by
  obtain ⟨-, hfirst, hsecond⟩ := h.ftranPair_eq_ok_iff.1 hr
  refine ⟨hfirst, ?_⟩
  cases inPlace with
  | true => exact .inl hsecond
  | false => exact .inr hsecond

theorem Sound.rest_iff_of_solved (hP : P 0) (h : f.Sound) (hv : v.Rest P)
    (hcap : v.layout = .scattered → f.rows ≤ v.capacity) (hw : f.Solved v w) :
    w.Rest P ↔ v.Beyond P f.rows := by
  cases hw with
  | ftran hw => exact h.rest_iff_of_ftran hP hv hcap hw
  | ftranInPlace hw => exact rest_iff_of_ftranInPlace hP hv hw
  | first hw => exact h.rest_iff_of_ftran hP hv hcap (h.solves_of_ftranPair hw).1
  | second hw =>
    rcases (h.solves_of_ftranPair hw).2 with hw | hw
    · exact rest_iff_of_ftranInPlace hP hv hw
    · exact h.rest_iff_of_ftran hP hv hcap hw
  | btran hw => exact h.rest_iff_of_btran hP hv hcap hw

/-- A solve leaves a clean vector clean, unless a value is listed past the rows of the basis where
only rows are taken. -/
theorem Sound.isClean_iff_of_solved (h : f.Sound) (hv : v.isClean = true)
    (hcap : f.rows ≤ v.capacity) (hw : f.Solved v w) :
    w.isClean = true ↔ v.ClearFrom f.rows := by
  rw [IndexedVector.isClean_iff_rest] at hv ⊢
  exact h.rest_iff_of_solved LawfulZero.isZero_zero hv (fun _ => hcap) hw

end Solves

end Factorization

namespace IndexedVector

/-! ## Runs of calls on a vector -/

/-- A vector that calls made and changed, and that no basis solved while it listed a value past the
rows of the basis. -/
inductive Tended : IndexedVector α → Prop where
  | allocate {capacity : Nat} {v : IndexedVector α} : allocate capacity = .ok v → Tended v
  | ofArray (dense : Array α) (threshold : α) : Tended (ofArray dense threshold)
  | ofPacked {capacity : Nat} {indices : List Nat} {values : List α} {v : IndexedVector α} :
    ofPacked capacity indices values = .ok v → Tended v
  | insert {v w : IndexedVector α} {index : Nat} {value : α} :
    Tended v → v.insert index value = .ok w → Tended w
  | clear {v : IndexedVector α} : Tended v → Tended v.clear
  | setLayout {v w : IndexedVector α} {layout : Layout} :
    Tended v → v.setLayout layout = .ok w → Tended w
  | solved {start f : Factorization α} {v w : IndexedVector α} :
    Tended v → start.New → start.Reaches f → f.rows ≤ v.capacity → f.Solved v w →
      v.ClearFrom f.rows → Tended w

theorem rest_of_allocate (hP : P 0) {capacity : Nat} (h : allocate capacity = .ok v) :
    v.Rest P := by
  obtain ⟨-, -, hlists⟩ := lists_of_allocate (n := 0) h
  exact (rest_zero_iff.2 hlists.zero).mono fun _ hx => hx ▸ hP

theorem rest_ofArray (hP : P 0) (dense : Array α) (threshold : α) :
    (ofArray dense threshold).Rest P := by
  intro slot x hx
  rw [ofArray, Array.getElem?_map, Option.map_eq_some_iff] at hx
  obtain ⟨y, hy, rfl⟩ := hx
  by_cases hlarge : threshold < Scalar.magnitude y
  · refine .inl ((occupied_of_scattered rfl).2 (List.mem_map.2 ⟨(y, slot), ?_, rfl⟩))
    exact List.mem_filter.2 ⟨List.mk_mem_zipIdx_iff_getElem?.2 (by simpa using hy),
      decide_eq_true hlarge⟩
  · rw [if_neg hlarge]
    exact .inr hP

theorem isClean_ofArray [LawfulZero α] (dense : Array α) (threshold : α) :
    (ofArray dense threshold).isClean = true :=
  isClean_iff_rest.2 (rest_ofArray LawfulZero.isZero_zero dense threshold)

theorem nodup_ofArray (dense : Array α) (threshold : α) :
    (ofArray dense threshold).indices.Nodup := by
  refine List.Nodup.sublist (List.filter_sublist.map Prod.snd) ?_
  rw [List.zipIdx_map_snd]
  exact List.nodup_range'

theorem rest_of_ofPacked (hP : P 0) {capacity : Nat} {indices : List Nat} {values : List α}
    (h : ofPacked capacity indices values = .ok v) : v.Rest P := by
  simp only [ofPacked, guard_eq_ok_iff, bind_eq_ok_iff, not_not] at h
  obtain ⟨hlen, blank, -, h⟩ := h
  split at h
  · cases h
  · cases h
    intro slot x hx
    by_cases hslot : slot < indices.length
    · exact .inl (decide_eq_true hslot)
    · rw [List.getElem?_toArray, List.getElem?_append_right (by omega)] at hx
      obtain rfl := List.eq_of_mem_replicate (List.mem_of_getElem? hx)
      exact .inr hP

theorem Rest.insert (hv : v.Rest P) {index : Nat} {value : α}
    (h : v.insert index value = .ok w) : w.Rest P := by
  obtain ⟨_, -, -, rfl⟩ := insert_eq_ok_iff.1 h
  intro slot x hx
  by_cases hslot : v.nextSlot index = slot
  · subst hslot
    cases hl : v.layout <;> exact .inl (by simp [occupied, nextSlot, hl, count])
  · rw [Array.getElem?_setIfInBounds_ne hslot] at hx
    refine (hv slot x hx).imp_left fun ho => ?_
    cases hl : v.layout with
    | packed =>
      have hlt : slot < v.count := by simpa [occupied, hl] using ho
      simpa [occupied, hl, count] using Nat.lt_succ_of_lt hlt
    | scattered =>
      have hmem : slot ∈ v.indices := by simpa [occupied, hl] using ho
      simp [occupied, hmem]

theorem Rest.clear (hP : P 0) (hv : v.Rest P) : v.clear.Rest P := by
  intro slot x hx
  rw [IndexedVector.clear, Array.getElem?_mapIdx, Option.map_eq_some_iff] at hx
  obtain ⟨y, hy, rfl⟩ := hx
  split
  · exact .inr hP
  · exact .inr ((hv slot y hy).resolve_left ‹_›)

omit [Scalar α] in
theorem Rest.setLayout (hv : v.Rest P) {layout : Layout} (h : v.setLayout layout = .ok w) :
    w.Rest P := by
  simp only [IndexedVector.setLayout, ite_error_eq_ok_iff] at h
  obtain ⟨hempty, h⟩ := h
  cases h
  -- Without entries no slot is occupied in either layout.
  refine fun slot x hx => .inr ((hv slot x hx).resolve_left fun ho => ?_)
  obtain ⟨elements, indices, was⟩ := v
  obtain rfl : indices = [] := List.isEmpty_iff.1 hempty
  cases was <;> simp [occupied, count] at ho

theorem Tended.isClean [LawfulScalar α] (h : v.Tended) : v.isClean = true := by
  have hzero : Scalar.isZero (0 : α) = true := LawfulZero.isZero_zero
  rw [isClean_iff_rest]
  induction h with
  | allocate h => exact rest_of_allocate hzero h
  | ofArray dense threshold => exact rest_ofArray hzero dense threshold
  | ofPacked h => exact rest_of_ofPacked hzero h
  | insert _ hw ih => exact ih.insert hw
  | clear _ ih => exact ih.clear hzero
  | setLayout _ hw ih => exact ih.setLayout hw
  | solved _ hnew hreach hcap hw hclear ih =>
    exact ((Factorization.invariant_of_reaches hnew hreach).rest_iff_of_solved hzero ih
      (fun _ => hcap) hw).2 hclear

end IndexedVector

namespace Factorization

/-- A vector that was tended is clean, and after one more solve it is clean exactly if no value was
listed past the rows of the basis. -/
theorem isClean_iff_of_tended [LawfulScalar α] {start : Factorization α} (hnew : start.New)
    (hreach : start.Reaches f) (hv : v.Tended) (hcap : f.rows ≤ v.capacity) (hw : f.Solved v w) :
    v.isClean = true ∧ (w.isClean = true ↔ v.ClearFrom f.rows) :=
  ⟨hv.isClean, (invariant_of_reaches hnew hreach).isClean_iff_of_solved hv.isClean hcap hw⟩

/-- The identity of two rows. -/
def small : List (Operation Float) :=
  [.setChainCapacity 1, .load ![![1, 0], ![0, 1]], .factor]

/-- A vector with room for three rows, and a value in the one given. -/
def placed (row : Nat) : Except Fault (IndexedVector Float) := do
  (← IndexedVector.allocate 3).insert row 5

theorem tended_of_placed {row : Nat} {v : IndexedVector Float} (h : placed row = .ok v) :
    v.Tended := by
  rw [placed, bind_eq_ok_iff] at h
  obtain ⟨_, hempty, hinsert⟩ := h
  exact .insert (.allocate hempty) hinsert

theorem isClean_iff_of_tended_small : ∃ (f g : Factorization Float) (v w : IndexedVector Float),
    initial.run small = .ok f ∧ placed 1 = .ok v ∧ f.ftran v = .ok (w, g) ∧ v.ClearFrom f.rows ∧
      v.isClean = true ∧ (w.isClean = true ↔ v.ClearFrom f.rows) := by
  have hrun : Except.isOk (do
      let f ← initial.run small
      let v ← placed 1
      if ¬ (f.rows = 2 ∧ v.capacity = 3 ∧ v.indices = [1]) then throw .outOfRange
      f.ftran v : Except Fault (IndexedVector Float × Factorization Float)) = true := by
    decide +kernel
  obtain ⟨⟨w, g⟩, hrun⟩ := exists_eq_ok_of_isOk hrun
  simp only [bind_eq_ok_iff, guard_eq_ok_iff, not_not] at hrun
  obtain ⟨f, hf, v, hv, ⟨hrows, hcapacity, hindices⟩, hw⟩ := hrun
  have hclear : v.ClearFrom f.rows := by simp [IndexedVector.ClearFrom, hrows, hindices]
  exact ⟨f, g, v, w, hf, hv, hw, hclear, isClean_iff_of_tended .initial (reaches_of_run hf)
    (tended_of_placed hv) (by omega) (.ftran hw)⟩

/-- A solve need not keep a vector clean. -/
theorem exists_not_isClean_of_ftran : ∃ (f g : Factorization Float) (v w : IndexedVector Float),
    initial.run small = .ok f ∧ f.status = .valid ∧ placed 2 = .ok v ∧ v.Tended ∧
      f.rows ≤ v.capacity ∧ f.ftran v = .ok (w, g) ∧ w.isClean = false := by
  have hrun : Except.isOk (do
      let f ← initial.run small
      let v ← placed 2
      let (w, g) ← f.ftran v
      if ¬ (f.status = .valid ∧ f.rows ≤ v.capacity ∧ w.isClean = false) then throw .outOfRange
      return (w, g) : Except Fault (IndexedVector Float × Factorization Float)) = true := by
    decide +kernel
  obtain ⟨_, hrun⟩ := exists_eq_ok_of_isOk hrun
  simp only [bind_eq_ok_iff, guard_eq_ok_iff, not_not] at hrun
  obtain ⟨f, hf, v, hv, ⟨w, g⟩, hw, ⟨hvalid, hcap, hclean⟩, -⟩ := hrun
  exact ⟨f, g, v, w, hf, hvalid, hv, tended_of_placed hv, hcap, hw, hclean⟩

end Factorization

end BasisLU
