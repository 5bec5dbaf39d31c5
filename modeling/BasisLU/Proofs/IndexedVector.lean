import Mathlib.Data.List.GetD
import BasisLU.Proofs.Fault
import BasisLU.Proofs.Kernel
import BasisLU.Proofs.Lawful
import BasisLU.IndexedVector

/-!
# Proper vectors

A vector is `Proper` for `n` if it is clean and lists distinct indices below `n`. Its entries are
then the indices with the values kept for them (`entries_eq_ok_iff`), in both layouts.

To be clean, the slots outside the entries (the `Rest`) only have to pass the test for zero. In a
`Tidy` vector they hold zero itself, so that an index that is not listed has the value zero
(`Tidy.valueAt_of_not_mem`). A tidy vector is proper, and over exact scalars a proper one is tidy.

A tidy vector `Lists` some pairs if its entries are these, in their order. Filling a vector without
entries makes one (`fill_blank`), packing the pairs makes one (`exists_ofPacked`), and so does
inserting them one after another (`Lists.exists_insertAll`). The values are the same whatever the
layout and the order of the pairs (`Lists.valueAt_eq_of_perm`).
-/

namespace BasisLU.IndexedVector

/-- Clean, and with distinct indices below `n`. -/
structure Proper {α : Type} [Scalar α] (v : IndexedVector α) (n : Nat) : Prop where
  clean : v.isClean = true
  nodup : v.indices.Nodup
  lt : ∀ i ∈ v.indices, i < n

/-- The values of the indices below `n`. -/
def values {α : Type} [Scalar α] (v : IndexedVector α) (n : Nat) (i : Fin n) : α := v.valueAt i

/-- The vector of a capacity and a layout that has no entries. -/
def blank {α : Type} [Scalar α] (capacity : Nat) (layout : Layout) : IndexedVector α :=
  ⟨Array.replicate capacity 0, [], layout⟩

section Entries

variable {α : Type} [Scalar α] {v : IndexedVector α}

/-- Whether the listed indices have slots. -/
def HasSlots (v : IndexedVector α) : Prop :=
  match v.layout with
  | .packed => v.count ≤ v.capacity
  | .scattered => ∀ i ∈ v.indices, i < v.capacity

omit [Scalar α] in
/-- Indices below `n` are those of rows. -/
theorem exists_rows {n : Nat} (hlt : ∀ i ∈ v.indices, i < n) :
    ∃ rows : List (Fin n), v.indices = rows.map Fin.val :=
  ⟨v.indices.pmap Fin.mk hlt, by simp [List.map_pmap]⟩

theorem idxOf?_of_getElem? {l : List Nat} (hn : l.Nodup) {k i : Nat} (hk : l[k]? = some i) :
    l.idxOf? i = some k := by
  obtain ⟨hlt, rfl⟩ := List.getElem?_eq_some_iff.1 hk
  exact List.idxOf?_eq_some_iff.2 ⟨hlt, rfl, fun j hj h =>
    absurd (hn.getElem_inj_iff.1 h) (by omega)⟩

/-- The pairs of index and value, with every index looked up. -/
theorem entries_eq_ok_iff (hn : v.indices.Nodup) {entries : List (Nat × α)} :
    v.entries = .ok entries ↔ v.HasSlots ∧ entries = v.indices.map fun i => (i, v.valueAt i) := by
  obtain ⟨elements, indices, layout⟩ := v
  have hmap (g : Nat → Nat × α) : indices.map g = indices.zipIdx.map fun e => g e.1 := by
    conv_lhs => rw [← List.zipIdx_map_fst 0 indices, List.map_map]
    rfl
  rw [hmap, IndexedVector.entries]
  cases layout with
  | packed =>
    -- A packed value is read at its place in the list, a scattered one at its index.
    rw [mapM_eq_ok_iff_forall (p := fun e => e.2 < elements.size)]
    · refine and_congr_left fun _ => ?_
      simp only [Prod.forall, List.mk_mem_zipIdx_iff_getElem?, HasSlots, count, capacity]
      constructor
      · intro h
        by_contra hlt
        exact absurd (h _ elements.size (List.getElem?_eq_getElem (by omega))) (Nat.lt_irrefl _)
      · intro h i k hk
        have := (List.getElem?_eq_some_iff.1 hk).1
        omega
    · rintro ⟨i, k⟩ hk y
      have hi := idxOf?_of_getElem? hn (List.mk_mem_zipIdx_iff_getElem?.1 hk)
      simp only [bind_eq_ok_iff, pure_eq_ok_iff, Fault.read_eq_ok_iff, Array.getElem?_eq_some_iff,
        valueAt, hi, Option.elim_some]
      constructor
      · intro hy
        obtain ⟨_, ⟨hlt, rfl⟩, rfl⟩ := hy
        exact ⟨hlt, by simp [hlt]⟩
      · intro hy
        obtain ⟨hlt, rfl⟩ := hy
        exact ⟨_, ⟨hlt, rfl⟩, by simp [hlt]⟩
  | scattered =>
    rw [mapM_eq_ok_iff_forall (p := fun e => e.1 < elements.size)]
    · refine and_congr_left fun _ => ?_
      have hfst := List.forall_mem_map (f := Prod.fst) (l := indices.zipIdx)
        (P := fun i => i < elements.size)
      rw [List.zipIdx_map_fst] at hfst
      exact hfst.symm
    · rintro ⟨i, k⟩ - y
      simp only [bind_eq_ok_iff, pure_eq_ok_iff, Fault.read_eq_ok_iff, Array.getElem?_eq_some_iff,
        valueAt]
      constructor
      · intro hy
        obtain ⟨_, ⟨hlt, rfl⟩, rfl⟩ := hy
        exact ⟨hlt, by simp [hlt]⟩
      · intro hy
        obtain ⟨hlt, rfl⟩ := hy
        exact ⟨_, ⟨hlt, rfl⟩, by simp [hlt]⟩

omit [Scalar α] in
/-- Entries come in the order of the indices. -/
theorem fst_of_entries {entries : List (Nat × α)} (h : v.entries = .ok entries) :
    entries.map Prod.fst = v.indices := by
  have hfst : List.Forall₂ (· = ·) (entries.map Prod.fst) (v.indices.zipIdx.map Prod.fst) := by
    refine List.forall₂_map_left_iff.2 (List.forall₂_map_right_iff.2 ?_)
    refine ((mapM_eq_ok_iff.1 h).imp fun e y hy => ?_).flip
    simp only [bind_eq_ok_iff, pure_eq_ok_iff] at hy
    obtain ⟨_, -, rfl⟩ := hy
    rfl
  rwa [List.forall₂_eq_eq_eq, List.zipIdx_map_fst] at hfst

omit [Scalar α] in
/-- The entries can be read if the indices have slots. -/
theorem HasSlots.exists_entries (h : v.HasSlots) :
    ∃ entries, v.entries = .ok entries ∧ entries.map Prod.fst = v.indices := by
  obtain ⟨entries, hentries⟩ : ∃ entries, v.entries = .ok entries := by
    obtain ⟨elements, indices, layout⟩ := v
    refine exists_mapM_eq_ok fun e he => ?_
    obtain ⟨i, k⟩ := e
    have hk := List.mk_mem_zipIdx_iff_getElem?.1 he
    simp only [bind_eq_ok_iff, pure_eq_ok_iff]
    cases layout with
    | packed =>
      exact ⟨_, _, Fault.read_of_lt ((List.getElem?_eq_some_iff.1 hk).1.trans_le h), rfl⟩
    | scattered => exact ⟨_, _, Fault.read_of_lt (h i (List.mem_of_getElem? hk)), rfl⟩
  exact ⟨entries, hentries, fst_of_entries hentries⟩

/-- Clean, slot by slot. -/
theorem isClean_iff_getElem? : v.isClean = true ↔ ∀ slot x, v.elements[slot]? = some x →
    v.occupied slot = true ∨ Scalar.isZero x = true := by
  rw [isClean, List.all_eq_true]
  simp only [Prod.forall, List.mk_mem_zipIdx_iff_getElem?, Array.getElem?_toList, Bool.or_eq_true]
  exact forall_comm

/-- Every slot outside the entries holds a value with the property. -/
def Rest (P : α → Prop) (v : IndexedVector α) : Prop :=
  ∀ (slot : Nat) (x : α), v.elements[slot]? = some x → v.occupied slot = true ∨ P x

omit [Scalar α] in
theorem Rest.mono {P Q : α → Prop} (h : v.Rest P) (hPQ : ∀ x, P x → Q x) : v.Rest Q :=
  fun slot x hx => (h slot x hx).imp_right (hPQ x)

theorem isClean_iff_rest : v.isClean = true ↔ v.Rest (Scalar.isZero · = true) :=
  isClean_iff_getElem?

theorem rest_zero_iff :
    v.Rest (· = 0) ↔ ∀ slot, v.occupied slot = false → v.elements.getD slot 0 = 0 := by
  constructor
  · intro h slot hslot
    cases hx : v.elements[slot]? with
    | none => simp [hx]
    | some x =>
      rcases h slot x hx with ho | rfl
      · exact absurd ho (by simp [hslot])
      · simp [hx]
  · intro h slot x hx
    cases ho : v.occupied slot with
    | true => exact .inl rfl
    | false => exact .inr (by simpa [hx] using h slot ho)

end Entries

section Tidy

variable {α : Type} [Scalar α] {v w : IndexedVector α} {n : Nat}

/-- Zero in every slot outside the entries, and with distinct indices below `n`. -/
structure Tidy (v : IndexedVector α) (n : Nat) : Prop where
  zero : ∀ slot, v.occupied slot = false → v.elements.getD slot 0 = 0
  nodup : v.indices.Nodup
  lt : ∀ i ∈ v.indices, i < n

/-- An index that is not listed has no value. -/
theorem Tidy.valueAt_of_not_mem (h : v.Tidy n) {i : Nat} (hi : i ∉ v.indices) :
    v.valueAt i = 0 := by
  have hzero := h.zero i
  obtain ⟨elements, indices, layout⟩ := v
  cases layout with
  | packed => simp [valueAt, List.idxOf?_eq_none_iff.2 hi]
  | scattered => exact hzero (by simpa [occupied] using hi)

omit [Scalar α] in
/-- Distinct indices below `n` have slots in a vector with room for `n`. -/
theorem hasSlots_of_nodup (hnodup : v.indices.Nodup) (hlt : ∀ i ∈ v.indices, i < n)
    (hn : n ≤ v.capacity) : v.HasSlots := by
  obtain ⟨elements, indices, layout⟩ := v
  cases layout with
  | packed =>
    have hsub : indices ⊆ List.range n := fun i hi => List.mem_range.2 (hlt i hi)
    have hlen := (List.subperm_of_subset hnodup hsub).length_le
    rw [List.length_range] at hlen
    exact hlen.trans hn
  | scattered => exact fun i hi => (hlt i hi).trans_le hn

theorem getD_scatter_of_mem {m : Nat} {placed : List (Fin m × α)} {x : Vector α m}
    (hn : (placed.map Prod.fst).Nodup) {e : Fin m × α} (he : e ∈ placed) :
    (scatter placed x).toArray.getD e.1 0 = e.2 := by
  simp [← scatter_of_mem he hn x]

theorem getD_scatter_of_forall_ne {m : Nat} {placed : List (Fin m × α)} {x : Vector α m}
    {slot : Nat} (hs : ∀ e ∈ placed, e.1.val ≠ slot) (hx : ∀ i (hi : i < m), x[i] = 0) :
    (scatter placed x).toArray.getD slot 0 = 0 := by
  by_cases hslot : slot < m
  · simp [hslot, scatter_of_forall_ne hslot hs, hx]
  · simp [hslot]

/-- Values written to distinct slots of an array of zeros. -/
theorem exists_scatter_zip {zeros : Array α} (hz : ∀ i (hi : i < zeros.size), zeros[i] = 0)
    (slots : List Nat) (values : List α) (hlen : slots.length ≤ values.length)
    (hn : slots.Nodup) (hlt : ∀ s ∈ slots, s < zeros.size) :
    ∃ placed, locate zeros.size (slots.zip values) = .ok placed ∧
      (∀ e ∈ slots.zip values, (scatter placed zeros.toVector).toArray.getD e.1 0 = e.2) ∧
      ∀ s, s ∉ slots → (scatter placed zeros.toVector).toArray.getD s 0 = 0 := by
  obtain ⟨placed, hplaced⟩ :=
    exists_locate fun e (he : e ∈ slots.zip values) => hlt _ (List.of_mem_zip he).1
  have hpairs := locate_eq_ok_iff.1 hplaced
  have hslots : slots = placed.map fun e => e.1.val := by
    rw [← List.map_fst_zip hlen, hpairs, List.map_map]
    rfl
  have hnodup : (placed.map Prod.fst).Nodup := by
    refine List.Nodup.of_map Fin.val ?_
    rw [List.map_map]
    exact hslots ▸ hn
  refine ⟨placed, hplaced, fun e he => ?_, fun s hs => ?_⟩
  · rw [hpairs] at he
    obtain ⟨e', he', rfl⟩ := List.mem_map.1 he
    exact getD_scatter_of_mem hnodup he'
  · refine getD_scatter_of_forall_ne (fun e he hes => hs ?_) fun i hi => by simp [hz]
    rw [hslots]
    exact List.mem_map.2 ⟨e, he, hes⟩

omit [Scalar α] in
/-- Distinct indices below `n` are no more than `n`. -/
theorem length_le_of_nodup {found : List (Nat × α)} (hnodup : (found.map Prod.fst).Nodup)
    (hlt : ∀ e ∈ found, e.1 < n) : found.length ≤ n := by
  have hsub : found.map Prod.fst ⊆ List.range n := fun i hi => by
    obtain ⟨e, he, rfl⟩ := List.mem_map.1 hi
    exact List.mem_range.2 (hlt e he)
  simpa using (List.subperm_of_subset hnodup hsub).length_le

omit [Scalar α] in
/-- A vector with room for `n` takes any solution with distinct indices below `n`. -/
theorem exists_fill {found : List (Nat × α)} (hnodup : (found.map Prod.fst).Nodup)
    (hlt : ∀ e ∈ found, e.1 < n) (hn : n ≤ v.capacity) : ∃ w, v.fill found = .ok w := by
  have hlen := length_le_of_nodup hnodup hlt
  obtain ⟨placed, hplaced⟩ : ∃ placed, locate v.capacity
      ((match v.layout with
        | .packed => List.range found.length
        | .scattered => found.map Prod.fst).zip (found.map Prod.snd)) = .ok placed := by
    refine exists_locate fun e he => ?_
    have hslot := (List.of_mem_zip he).1
    cases hl : v.layout with
    | packed =>
      rw [hl] at hslot
      have := List.mem_range.1 hslot
      omega
    | scattered =>
      rw [hl] at hslot
      obtain ⟨e', he', hfst⟩ := List.mem_map.1 hslot
      exact hfst ▸ (hlt e' he').trans_le hn
  simp only [fill, bind_eq_ok_iff, pure_eq_ok_iff]
  exact ⟨_, placed, hplaced, rfl⟩

/-- Tidy, and with the pairs as its entries. -/
structure Lists (v : IndexedVector α) (pairs : List (Nat × α)) (n : Nat) : Prop
    extends Tidy v n where
  indices_eq : v.indices = pairs.map Prod.fst
  valueAt_eq : ∀ e ∈ pairs, v.valueAt e.1 = e.2

/-- The value of an index is that of its pair, or zero if there is none. -/
theorem Lists.valueAt_eq_of_perm {pairs pairs' : List (Nat × α)} (hv : v.Lists pairs n)
    (hw : w.Lists pairs' n) (hperm : pairs'.Perm pairs) (i : Nat) : v.valueAt i = w.valueAt i := by
  by_cases hi : i ∈ v.indices
  · obtain ⟨e, he, rfl⟩ := List.mem_map.1 (hv.indices_eq ▸ hi)
    rw [hv.valueAt_eq e he, hw.valueAt_eq e (hperm.mem_iff.2 he)]
  · have hi' : i ∉ w.indices := by
      rwa [hw.indices_eq, (hperm.map Prod.fst).mem_iff, ← hv.indices_eq]
    rw [hv.valueAt_of_not_mem hi, hw.valueAt_of_not_mem hi']

/-- A blank vector takes any solution with distinct indices that it has room for. -/
theorem fill_blank {c : Nat} {found : List (Nat × α)} (layout : Layout)
    (hnodup : (found.map Prod.fst).Nodup) (hlt : ∀ e ∈ found, e.1 < n) (hn : n ≤ c) :
    ∃ w, (blank c layout).fill found = .ok w ∧ w.layout = layout ∧ w.Lists found n := by
  have hlt' : ∀ i ∈ found.map Prod.fst, i < n := fun i hi => by
    obtain ⟨e, he, rfl⟩ := List.mem_map.1 hi
    exact hlt e he
  have hz : ∀ i (hi : i < (Array.replicate c (0 : α)).size),
      (Array.replicate c (0 : α))[i] = 0 := by
    simp
  cases layout with
  | packed =>
    have hlen := length_le_of_nodup hnodup hlt
    obtain ⟨placed, hplaced, hmem, hzero⟩ := exists_scatter_zip hz
      (List.range found.length) (found.map Prod.snd) (by simp) List.nodup_range (by simp; omega)
    refine ⟨⟨(scatter placed (Array.replicate c 0).toVector).toArray, found.map Prod.fst, .packed⟩,
      ?_, rfl, ⟨?_, hnodup, hlt'⟩, rfl, fun e he => ?_⟩
    · simp only [fill, blank, bind_eq_ok_iff, pure_eq_ok_iff]
      exact ⟨placed, hplaced, rfl⟩
    · refine fun slot hslot => hzero slot ?_
      simpa [occupied, count] using hslot
    · obtain ⟨k, hk⟩ := List.mem_iff_getElem?.1 he
      have hi := idxOf?_of_getElem? hnodup (i := e.1) (k := k) (by simp [hk])
      simp only [valueAt, hi, Option.elim_some]
      refine hmem (k, e.2) (List.mem_iff_getElem?.2 ⟨k, ?_⟩)
      obtain ⟨hlt, rfl⟩ := List.getElem?_eq_some_iff.1 hk
      simp [hlt]
  | scattered =>
    have hslots : ∀ i ∈ found.map Prod.fst, i < (Array.replicate c (0 : α)).size := fun i hi => by
      simpa using (hlt' i hi).trans_le hn
    obtain ⟨placed, hplaced, hmem, hzero⟩ := exists_scatter_zip hz
      (found.map Prod.fst) (found.map Prod.snd) (by simp) hnodup hslots
    refine ⟨⟨(scatter placed (Array.replicate c 0).toVector).toArray, found.map Prod.fst,
      .scattered⟩, ?_, rfl, ⟨?_, hnodup, hlt'⟩, rfl, fun e he => ?_⟩
    · simp only [fill, blank, bind_eq_ok_iff, pure_eq_ok_iff]
      exact ⟨placed, hplaced, rfl⟩
    · refine fun slot hslot => hzero slot ?_
      simpa [occupied] using hslot
    · refine hmem e ?_
      rwa [← List.zip_of_prod rfl rfl]

theorem allocate_eq_ok_iff {capacity : Nat} : allocate capacity = .ok v ↔
    (capacity ≤ allocationLimit (Scalar.bytes α) ∧ capacity ≤ allocationLimit positionBytes) ∧
      empty capacity = v := by
  rw [allocate, ite_error_eq_ok_iff, Except.ok.injEq]

theorem lists_of_allocate {capacity : Nat} (h : allocate capacity = .ok v) :
    v.capacity = capacity ∧ v.layout = .scattered ∧ v.Lists [] n := by
  obtain ⟨-, rfl⟩ := allocate_eq_ok_iff.1 h
  refine ⟨by simp [IndexedVector.capacity, empty], rfl, ⟨fun slot _ => ?_, .nil, nofun⟩, rfl, nofun⟩
  rw [empty, Array.getD_eq_getD_getElem?, Array.getElem?_replicate]
  split <;> rfl

/-- Pairs with distinct indices, packed. -/
theorem exists_ofPacked {capacity : Nat} {pairs : List (Nat × α)}
    (hnodup : (pairs.map Prod.fst).Nodup) (hlt : ∀ e ∈ pairs, e.1 < n) (hn : n ≤ capacity)
    {blank : IndexedVector α} (hblank : allocate capacity = .ok blank) :
    ∃ w, ofPacked capacity (pairs.map Prod.fst) (pairs.map Prod.snd) = .ok w ∧
      w.layout = .packed ∧ w.capacity = capacity ∧ w.Lists pairs n := by
  have hlen := length_le_of_nodup hnodup hlt
  have hmax : max capacity (pairs.map Prod.snd).length = capacity := by
    rw [List.length_map]
    omega
  obtain ⟨-, rfl⟩ := allocate_eq_ok_iff.1 hblank
  have hfind : (pairs.map Prod.fst).find? (fun index => capacity ≤ index) = none := by
    refine List.find?_eq_none.2 fun i hi => ?_
    obtain ⟨e, he, rfl⟩ := List.mem_map.1 hi
    have := hlt e he
    simpa using (by omega : e.1 < capacity)
  have hpacked : ofPacked capacity (pairs.map Prod.fst) (pairs.map Prod.snd) = .ok
      ⟨(pairs.map Prod.snd ++ List.replicate (capacity - (pairs.map Prod.snd).length) 0).toArray,
        pairs.map Prod.fst, .packed⟩ := by
    simp only [ofPacked, hmax, hblank, hfind, guard_eq_ok_iff, bind_eq_ok_iff]
    refine ⟨by simp, _, rfl, ?_⟩
    simp [IndexedVector.capacity, empty, pure, Except.pure]
  refine ⟨_, hpacked, rfl, ?_, ⟨fun slot hslot => ?_, hnodup, fun i hi => ?_⟩, rfl, fun e he => ?_⟩
  · simp only [IndexedVector.capacity, List.size_toArray, List.length_append, List.length_map,
      List.length_replicate]
    omega
  · have hle : pairs.length ≤ slot := by simpa [occupied, count] using hslot
    rw [Array.getD_eq_getD_getElem?, List.getElem?_toArray,
      List.getElem?_append_right (by simpa using hle), List.getElem?_getD_replicate_default_eq]
  · obtain ⟨e, he, rfl⟩ := List.mem_map.1 hi
    exact hlt e he
  · obtain ⟨k, hk⟩ := List.mem_iff_getElem?.1 he
    have hi := idxOf?_of_getElem? hnodup (i := e.1) (k := k) (by simp [hk])
    obtain ⟨hklt, rfl⟩ := List.getElem?_eq_some_iff.1 hk
    simp [valueAt, hi, List.getElem?_append_left, hklt]

/-- The slot that an entry at the index is inserted into. -/
def nextSlot (v : IndexedVector α) (index : Nat) : Nat :=
  match v.layout with
  | .packed => v.count
  | .scattered => index

theorem insert_eq_ok_iff {index : Nat} {value : α} : v.insert index value = .ok w ↔
    ∃ current, v.elements[v.nextSlot index]? = some current ∧
      (v.layout = .scattered → Scalar.isZero current = true) ∧
      { v with
        elements := v.elements.setIfInBounds (v.nextSlot index) value
        indices := v.indices ++ [index] } = w := by
  obtain ⟨elements, indices, layout⟩ := v
  cases layout <;> simp only [insert, nextSlot, bind_eq_ok_iff, guard_eq_ok_iff, pure_eq_ok_iff,
    Fault.read_eq_ok_iff, not_and, Bool.not_eq_true', Bool.not_eq_false]

/-- An entry inserted is listed last. -/
theorem Lists.exists_insert [LawfulZero α] {pairs : List (Nat × α)} (h : v.Lists pairs n)
    (hl : v.layout = .scattered) (hn : n ≤ v.capacity) {e : Nat × α} (he : e.1 < n)
    (hnew : e.1 ∉ pairs.map Prod.fst) :
    ∃ w, v.insert e.1 e.2 = .ok w ∧ w.layout = .scattered ∧ w.capacity = v.capacity ∧
      w.Lists (pairs ++ [e]) n := by
  obtain ⟨elements, indices, layout⟩ := v
  cases hl
  have hslot : e.1 < elements.size := he.trans_le hn
  have hfree : elements[e.1] = 0 := by
    have := h.valueAt_of_not_mem (h.indices_eq ▸ hnew)
    simpa [valueAt, hslot] using this
  refine ⟨⟨elements.setIfInBounds e.1 e.2, indices ++ [e.1], .scattered⟩, ?_, rfl, by
    simp [capacity], ⟨fun slot hs => ?_, ?_, fun i hi => ?_⟩, ?_, fun d hd => ?_⟩
  · exact insert_eq_ok_iff.2
      ⟨_, Array.getElem?_eq_getElem hslot, fun _ => hfree ▸ LawfulZero.isZero_zero, rfl⟩
  · have hs : slot ∉ indices ∧ slot ≠ e.1 := by simpa [occupied] using hs
    have hzero := h.zero slot (by simpa [occupied] using hs.1)
    rwa [Array.getD_eq_getD_getElem?, Array.getElem?_setIfInBounds_ne (Ne.symm hs.2),
      ← Array.getD_eq_getD_getElem?]
  · exact List.nodup_append'.2 ⟨h.nodup, List.nodup_singleton _, by
      simpa [← h.indices_eq] using hnew⟩
  · rcases List.mem_append.1 hi with hi | hi
    · exact h.lt i hi
    · exact List.mem_singleton.1 hi ▸ he
  · simp [← h.indices_eq]
  · rcases List.mem_append.1 hd with hd | hd
    · have hne : e.1 ≠ d.1 := fun hed => hnew (hed ▸ List.mem_map_of_mem hd)
      rw [← h.valueAt_eq d hd]
      simp only [valueAt, Array.getD_eq_getD_getElem?, Array.getElem?_setIfInBounds_ne hne]
    · rw [List.mem_singleton.1 hd]
      simp [valueAt, hslot]

/-- Entries inserted one after another are listed in that order. -/
theorem Lists.exists_insertAll [LawfulZero α] :
    ∀ (entries : List (Nat × α)) {pairs : List (Nat × α)} {v : IndexedVector α},
      v.Lists pairs n → v.layout = .scattered → n ≤ v.capacity → (∀ e ∈ entries, e.1 < n) →
      ((pairs ++ entries).map Prod.fst).Nodup →
      ∃ w, entries.foldlM (fun v e => v.insert e.1 e.2) v = .ok w ∧ w.layout = .scattered ∧
        w.capacity = v.capacity ∧ w.Lists (pairs ++ entries) n
  | [], pairs, v, h, hl, _, _, _ => ⟨v, rfl, hl, rfl, (List.append_nil pairs).symm ▸ h⟩
  | e :: entries, pairs, v, h, hl, hn, hlt, hnodup => by
    have hnew : e.1 ∉ pairs.map Prod.fst := by
      rw [List.map_append, List.map_cons] at hnodup
      exact fun hmem => (List.nodup_append'.1 hnodup).2.2 hmem List.mem_cons_self
    obtain ⟨w, hw, hwl, hcapacity, hlists⟩ :=
      h.exists_insert hl hn (hlt e List.mem_cons_self) hnew
    obtain ⟨x, hx, hxl, hxcapacity, hxlists⟩ := Lists.exists_insertAll entries hlists hwl
      (hcapacity ▸ hn) (fun d hd => hlt d (List.mem_cons_of_mem _ hd)) (by simpa using hnodup)
    refine ⟨x, ?_, hxl, hxcapacity.trans hcapacity, by simpa using hxlists⟩
    rw [List.foldlM_cons, bind_eq_ok_iff]
    exact ⟨w, hw, hx⟩

theorem Tidy.proper [LawfulZero α] (h : v.Tidy n) : v.Proper n where
  clean := isClean_iff_rest.2 <| (rest_zero_iff.2 h.zero).mono fun _ hx =>
    hx ▸ LawfulZero.isZero_zero
  nodup := h.nodup
  lt := h.lt

end Tidy

section Exact

variable {α : Type} [ExactScalar α] {v : IndexedVector α} {n : Nat}

theorem isClean_iff :
    v.isClean = true ↔ ∀ slot, v.occupied slot = false → v.elements.getD slot 0 = 0 := by
  simp only [isClean_iff_rest, Scalar.isZero_iff, rest_zero_iff]

theorem Proper.tidy (h : v.Proper n) : v.Tidy n := ⟨isClean_iff.1 h.clean, h.nodup, h.lt⟩

/-- The vector `x` without its entries at or below the tolerance. -/
structure Compacts (v : IndexedVector α) (tolerance : α) (x : Fin n → α) : Prop where
  proper : v.Proper n
  mem_indices : ∀ i : Fin n, i.val ∈ v.indices ↔ tolerance < |x i|
  valueAt_eq : ∀ i : Fin n, v.valueAt i = if tolerance < |x i| then x i else 0

end Exact

end BasisLU.IndexedVector
