import BasisLU.Proofs.Factorization.Clean
import BasisLU.Proofs.Factorization.Safety

/-!
# How a vector is read

A vector is read index by index (`valueAt`), copied into an array (`toDense`), gathered by a solve,
and taken over into the update of a replacement. In a packed vector, which may list an index more
than once, `valueAt` finds the first entry (`firstOf`); the others write the entries in turn, so
that the last one counts (`lastOf`). A gather of a scattered vector takes the slots of the rows,
listed or not, as `valueAt` does.

All of them read a vector alike that lists no index twice and holds nothing that it does not list.
That is any scattered vector which took no entry at an index that it listed with zero, and which no
basis solved while it listed a value past its rows (`Orderly`, `readers_of_orderly`). An index that
is listed with any other value takes no entry anyway (`not_mem_of_insert`).
-/

namespace BasisLU

variable {α : Type}

variable [Scalar α] {v w : IndexedVector α}

/-! ## Pairs of index and value -/

/-- The value of the first pair with the index, zero if there is none. -/
def firstOf (pairs : List (Nat × α)) (index : Nat) : α :=
  (pairs.find? fun e => e.1 = index).elim 0 Prod.snd

/-- The value of the last pair with the index, zero if there is none. -/
def lastOf (pairs : List (Nat × α)) (index : Nat) : α := firstOf pairs.reverse index

/-- Of pairs that have one value for an index, all have this value. -/
theorem firstOf_of_forall {pairs : List (Nat × α)} {index : Nat} {x : α}
    (h : ∀ e ∈ pairs, e.1 = index → e.2 = x) :
    firstOf pairs index = if index ∈ pairs.map Prod.fst then x else 0 := by
  cases hfind : pairs.find? fun e => e.1 = index with
  | none =>
    have hnone : index ∉ pairs.map Prod.fst := fun hmem => by
      obtain ⟨e, he, rfl⟩ := List.mem_map.1 hmem
      simpa using List.find?_eq_none.1 hfind e he
    rw [firstOf, hfind, if_neg hnone]
    rfl
  | some e =>
    have he := List.mem_of_find?_eq_some hfind
    have hindex : e.1 = index := by simpa using List.find?_some hfind
    rw [firstOf, hfind, if_pos (hindex ▸ List.mem_map_of_mem he)]
    exact h e he hindex

/-- Pairs written in turn into zeros, at places with distinct names. -/
theorem get_scatter_zero {n : Nat} {name : Fin n → Nat} (hname : name.Injective)
    (placed : List (Fin n × α)) (i : Fin n) :
    (scatter placed (Vector.replicate n 0)).get i =
      lastOf (placed.map fun e => (name e.1, e.2)) (name i) := by
  have hsame : ((fun e : Nat × α => decide (e.1 = name i)) ∘ fun e : Fin n × α =>
      (name e.1, e.2)) = fun e => decide (e.1 = i) := funext fun e => by simp [hname.eq_iff]
  rw [get_scatter, lastOf, firstOf, ← List.map_reverse, List.find?_map, hsame]
  cases placed.reverse.find? fun e => e.1 = i <;> simp [Vector.get]

namespace IndexedVector

/-! ## The entries -/

omit [Scalar α] in
theorem getElem?_of_entries {entries : List (Nat × α)} (h : v.entries = .ok entries) {k i : Nat}
    (hk : v.indices[k]? = some i) : ∃ x, entries[k]? = some (i, x) ∧
      v.elements[match v.layout with | .packed => k | .scattered => i]? = some x := by
  obtain ⟨hlen, hget⟩ := List.forall₂_iff_get.1 (mapM_eq_ok_iff.1 h)
  obtain ⟨hlt, rfl⟩ := List.getElem?_eq_some_iff.1 hk
  have hentry := hget k (by simpa using hlt) (by simpa [← hlen] using hlt)
  simp only [List.get_eq_getElem, List.getElem_zipIdx, Nat.zero_add, bind_eq_ok_iff,
    pure_eq_ok_iff, Fault.read_eq_ok_iff] at hentry
  obtain ⟨x, hx, hentry⟩ := hentry
  exact ⟨x, List.getElem?_eq_some_iff.2 ⟨_, hentry.symm⟩, hx⟩

/-- Looking an index up in a packed vector finds the first entry. -/
theorem valueAt_of_packed {entries : List (Nat × α)} (hl : v.layout = .packed)
    (h : v.entries = .ok entries) (i : Nat) : v.valueAt i = firstOf entries i := by
  have hfst := fst_of_entries h
  cases hk : v.indices.idxOf? i with
  | none =>
    have hfind : entries.find? (fun e => e.1 = i) = none := by
      refine List.find?_eq_none.2 fun e he => ?_
      have hmem : e.1 ∈ v.indices := hfst ▸ List.mem_map_of_mem he
      simpa using fun heq : e.1 = i => List.idxOf?_eq_none_iff.1 hk (heq ▸ hmem)
    simp [valueAt, hl, hk, firstOf, hfind]
  | some k =>
    obtain ⟨hlt, hindex, hfirst⟩ := List.idxOf?_eq_some_iff.1 hk
    obtain ⟨x, hx, hslot⟩ := getElem?_of_entries h (List.getElem?_eq_some_iff.2 ⟨hlt, hindex⟩)
    obtain ⟨hk', hentry⟩ := List.getElem?_eq_some_iff.1 hx
    have hfind : entries.find? (fun e => e.1 = i) = some (i, x) := by
      refine List.find?_eq_some_iff_getElem.2 ⟨by simp, k, hk', hentry, fun j hj => ?_⟩
      have hne := hfirst j hj
      simp only [← hfst, List.getElem_map] at hne
      simpa using hne
    rw [hl] at hslot
    simp [valueAt, hl, hk, firstOf, hfind, hslot]

/-! ## The readers -/

theorem toDense_eq_ok {entries : List (Nat × α)} (h : v.entries = .ok entries) {length : Nat}
    (hlimit : length ≤ allocationLimit (Scalar.bytes α)) (hlt : ∀ i ∈ v.indices, i < length) :
    v.toDense length = .ok (Array.ofFn fun i : Fin length => lastOf entries i) := by
  obtain ⟨placed, hplaced⟩ : ∃ placed, locate length entries = .ok placed :=
    exists_locate fun e he => hlt _ (fst_of_entries h ▸ List.mem_map_of_mem he)
  have hscatter : (scatter placed (Vector.replicate length (0 : α))).toArray =
      Array.ofFn fun i : Fin length => lastOf entries i := by
    refine Array.ext (by simp) fun i hi _ => ?_
    have hget := get_scatter_zero Fin.val_injective placed ⟨i, by simpa using hi⟩
    rw [← locate_eq_ok_iff.1 hplaced] at hget
    simpa [Vector.get] using hget
  rw [toDense, if_neg (Nat.not_lt.2 hlimit), h, ok_bind, hplaced, ok_bind, hscatter]
  rfl

end IndexedVector

namespace Factorization

variable {f g : Factorization α} {σ : Equiv.Perm (Fin f.rows)} {entries : List (Nat × α)}

omit [Scalar α] in
/-- Entries moved to the positions of their rows. -/
theorem map_of_locateRows (hσ : f.order.Orders σ) (hlt : ∀ i ∈ entries.map Prod.fst, i < f.rows)
    {placed : List (Fin f.rows × α)} (h : f.locateRows entries = .ok placed) :
    placed.map (fun e => ((σ.symm e.1).val, e.2)) = entries := by
  induction mapM_eq_ok_iff.1 h with
  | nil => rfl
  | @cons e p entries placed he _ ih =>
    obtain ⟨hrow, hrest⟩ := List.forall_mem_cons.1 (List.map_cons ▸ hlt)
    have hposition : f.position e.1 = .ok (σ ⟨e.1, hrow⟩) := hσ.position ⟨e.1, hrow⟩
    simp only [bind_eq_ok_iff, pure_eq_ok_iff] at he
    obtain ⟨q, hq, rfl⟩ := he
    cases hposition.symm.trans hq
    rw [List.map_cons, ih hrest (mapM_eq_ok_iff.2 ‹_›), Equiv.symm_apply_apply]

/-- The entries at the positions of their rows, written into zeros. -/
theorem scatter_of_locateRows (hσ : f.order.Orders σ)
    (hlt : ∀ i ∈ entries.map Prod.fst, i < f.rows) {placed : List (Fin f.rows × α)}
    (h : f.locateRows entries = .ok placed) :
    scatter placed (Vector.replicate f.rows 0) =
      Vector.ofFn fun p => lastOf entries (σ.symm p) := by
  ext p hp
  have hget := get_scatter_zero (Fin.val_injective.comp σ.symm.injective) placed ⟨p, hp⟩
  simp only [Function.comp_apply, map_of_locateRows hσ hlt h] at hget
  simpa [Vector.get] using hget

theorem exists_gather_of_packed (hσ : f.order.Orders σ) (hl : v.layout = .packed)
    (hlt : ∀ i ∈ v.indices, i < f.rows) (h : v.entries = .ok entries) :
    ∃ emptied, f.gather v (Vector.replicate f.rows 0) =
      .ok (Vector.ofFn fun p => lastOf entries (σ.symm p), emptied) := by
  rw [← IndexedVector.fst_of_entries h] at hlt
  obtain ⟨placed, hplaced⟩ := exists_locateRows hσ hlt
  simp only [gather, hl, h, ok_bind, hplaced, scatter_of_locateRows hσ hlt hplaced]
  exact ⟨_, rfl⟩

/-- The update of a replacement: what is written for the rows, in the order of positions, and the
reciprocal of the pivot. -/
theorem LaidOut.column_of_replace (hf : f.LaidOut) (hσ : f.order.Orders σ)
    (hlt : ∀ i ∈ v.indices, i < f.rows) (h : v.entries = .ok entries) (row : Fin f.rows)
    {pivot : α} (hg : f.replace v row pivot = .ok g) :
    Block.column f.rows (f.rows + f.updates) g.block =
      .ok ((Vector.ofFn fun p => lastOf entries (σ.symm p)).set (σ row) (1 / pivot)
        (σ row).isLt) := by
  rw [← IndexedVector.fst_of_entries h] at hlt
  obtain ⟨-, -, -, entries', update, hentries, hupdate, happend⟩ := replace_eq_ok_iff.1 hg
  cases h.symm.trans hentries
  simp only [newUpdate, bind_eq_ok_iff, pure_eq_ok_iff] at hupdate
  obtain ⟨placed, hplaced, p, hp, rfl⟩ := hupdate
  cases (hσ.position row).symm.trans hp
  obtain ⟨block, hblock, -, rfl⟩ := hf.append_eq_ok_iff.1 happend
  rw [Block.column_setColumn hblock, scatter_append, scatter_of_locateRows hσ hlt hplaced]
  rfl

end Factorization

/-- What those find who read the whole vector: copies and replacements have `copied i` for the index
`i`, and solves gather `gathered i`. -/
structure IndexedVector.ReadAs (v : IndexedVector α) (copied gathered : Nat → α) : Prop where
  toDense : ∀ length ≤ allocationLimit (Scalar.bytes α), (∀ i ∈ v.indices, i < length) →
    v.toDense length = .ok (Array.ofFn fun i : Fin length => copied i)
  gather : ∀ (f : Factorization α) (σ : Equiv.Perm (Fin f.rows)), f.order.Orders σ →
    (match v.layout with
      | .packed => ∀ i ∈ v.indices, i < f.rows
      | .scattered => f.rows ≤ v.capacity) →
    ∃ emptied, f.gather v (Vector.replicate f.rows 0) =
      .ok (Vector.ofFn fun p => gathered (σ.symm p), emptied)
  replace : ∀ (f g : Factorization α) (σ : Equiv.Perm (Fin f.rows)), f.LaidOut →
    f.order.Orders σ → (∀ i ∈ v.indices, i < f.rows) → ∀ (row : Fin f.rows) (pivot : α),
    f.replace v row pivot = .ok g → Block.column f.rows (f.rows + f.updates) g.block =
      .ok ((Vector.ofFn fun p => copied (σ.symm p)).set (σ row) (1 / pivot) (σ row).isLt)

namespace IndexedVector

open Factorization

/-- Entries are written in turn; a scattered vector is gathered slot by slot. -/
theorem readAs_of_entries {entries : List (Nat × α)} (h : v.entries = .ok entries) :
    v.ReadAs (lastOf entries)
      (match v.layout with | .packed => lastOf entries | .scattered => v.valueAt) where
  toDense length hlimit hlt := toDense_eq_ok h hlimit hlt
  gather f σ hσ hreads := by
    cases hl : v.layout with
    | packed =>
      rw [hl] at hreads
      exact exists_gather_of_packed hσ hl hreads h
    | scattered =>
      rw [hl] at hreads
      exact ⟨_, gather_of_scattered hσ hl hreads _⟩
  replace f g σ hf hσ hlt row pivot hg := hf.column_of_replace hσ hlt h row hg

/-! ## Vectors that are read alike -/

/-- The only entry of a tidy vector for an index is also the last. -/
theorem Tidy.lastOf_eq {n : Nat} (h : v.Tidy n) {entries : List (Nat × α)}
    (hentries : v.entries = .ok entries) : lastOf entries = v.valueAt := by
  obtain ⟨-, rfl⟩ := (entries_eq_ok_iff h.nodup).1 hentries
  funext i
  rw [lastOf, firstOf_of_forall (x := v.valueAt i)]
  · by_cases hi : i ∈ v.indices
    · exact if_pos (by simpa using hi)
    · rw [if_neg (by simpa using hi), h.valueAt_of_not_mem hi]
  · intro e he hindex
    obtain ⟨j, -, rfl⟩ := List.mem_map.1 (List.mem_reverse.1 he)
    exact congrArg v.valueAt hindex

/-- A tidy vector is read alike by all. -/
theorem Tidy.readAs {n : Nat} (h : v.Tidy n) {entries : List (Nat × α)}
    (hentries : v.entries = .ok entries) : v.ReadAs v.valueAt v.valueAt := by
  have hread := readAs_of_entries hentries
  rw [h.lastOf_eq hentries] at hread
  cases hl : v.layout <;> simpa only [hl] using hread

/-- Zero in every slot outside the entries, and with distinct indices where these have the slots. -/
structure Settled (v : IndexedVector α) : Prop where
  rest : v.Rest (· = 0)
  nodup : v.layout = .scattered → v.indices.Nodup

theorem Settled.exists_tidy (h : v.Settled) (hnodup : v.indices.Nodup) : ∃ n, v.Tidy n :=
  ⟨v.indices.sum + 1, rest_zero_iff.1 h.rest, hnodup,
    fun _ hi => Nat.lt_succ_of_le (List.le_sum_of_mem hi)⟩

theorem settled_of_allocate {capacity : Nat} (h : allocate capacity = .ok v) : v.Settled := by
  obtain ⟨-, -, hlists⟩ := lists_of_allocate (n := 0) h
  exact ⟨rest_of_allocate rfl h, fun _ => hlists.nodup⟩

theorem settled_ofArray (dense : Array α) (threshold : α) : (ofArray dense threshold).Settled where
  rest := rest_ofArray (P := (· = (0 : α))) rfl dense threshold
  nodup _ := nodup_ofArray dense threshold

theorem settled_of_ofPacked {capacity : Nat} {indices : List Nat} {values : List α}
    (h : ofPacked capacity indices values = .ok v) : v.Settled := by
  refine ⟨rest_of_ofPacked rfl h, fun hl => ?_⟩
  simp only [ofPacked, guard_eq_ok_iff, bind_eq_ok_iff] at h
  obtain ⟨-, blank, -, h⟩ := h
  split at h <;> cases h
  cases hl

/-- The index is listed, with a value that passes the test for zero. -/
def ListsZero (v : IndexedVector α) (index : Nat) : Prop :=
  index ∈ v.indices ∧ Scalar.isZero (v.valueAt index) = true

theorem indices_of_insert {index : Nat} {value : α} (hw : v.insert index value = .ok w) :
    w.indices = v.indices ++ [index] := by
  obtain ⟨_, -, -, rfl⟩ := insert_eq_ok_iff.1 hw
  rfl

/-- A scattered vector takes an entry only where it holds zero, so at an index that is new unless it
was listed with zero. -/
theorem not_mem_of_insert (hl : v.layout = .scattered) {index : Nat} {value : α}
    (hzero : ¬ v.ListsZero index) (hw : v.insert index value = .ok w) : index ∉ v.indices := by
  obtain ⟨current, hcurrent, hfree, -⟩ := insert_eq_ok_iff.1 hw
  have hvalue : v.valueAt index = current := by
    rw [nextSlot, hl] at hcurrent
    simp [valueAt, hl, Array.getD_eq_getD_getElem?, hcurrent]
  exact fun hmem => hzero ⟨hmem, hvalue ▸ hfree hl⟩

theorem Settled.insert (h : v.Settled) {index : Nat} {value : α}
    (hzero : v.layout = .scattered → ¬ v.ListsZero index) (hw : v.insert index value = .ok w) :
    w.Settled := by
  have hnew (hl : v.layout = .scattered) : index ∉ v.indices := not_mem_of_insert hl (hzero hl) hw
  refine ⟨h.rest.insert hw, ?_⟩
  obtain ⟨_, -, -, rfl⟩ := insert_eq_ok_iff.1 hw
  exact fun hl => List.nodup_append'.2
    ⟨h.nodup hl, List.nodup_singleton _, by simpa using hnew hl⟩

theorem Settled.clear (h : v.Settled) : v.clear.Settled := ⟨h.rest.clear rfl, fun _ => .nil⟩

theorem Settled.setLayout (h : v.Settled) {layout : Layout} (hw : v.setLayout layout = .ok w) :
    w.Settled := by
  refine ⟨h.rest.setLayout hw, fun _ => ?_⟩
  simp only [IndexedVector.setLayout, ite_error_eq_ok_iff] at hw
  obtain ⟨hempty, hw⟩ := hw
  cases hw
  rw [List.isEmpty_iff.1 hempty]
  exact .nil

/-- Nothing but zero itself is listed from index `n` on, where slots belong to indices. -/
def ZeroFrom (v : IndexedVector α) (n : Nat) : Prop :=
  v.layout = .scattered → ∀ i ∈ v.indices, n ≤ i → v.valueAt i = 0

end IndexedVector

namespace Factorization

variable {f g : Factorization α}

/-- A scattered vector is gathered only if it has a slot for each row. -/
theorem rows_le_of_gather {σ : Equiv.Perm (Fin f.rows)} (hσ : f.order.Orders σ)
    (hl : v.layout = .scattered) {scratch : Vector α f.rows} {r : Vector α f.rows × IndexedVector α}
    (h : f.gather v scratch = .ok r) : f.rows ≤ v.capacity := by
  by_contra hlt
  let row : Fin f.rows := ⟨v.capacity, Nat.lt_of_not_le hlt⟩
  simp only [gather, hl, bind_eq_ok_iff] at h
  obtain ⟨taken, htaken, -⟩ := h
  obtain ⟨_, hread⟩ := exists_eq_ok_of_mapM htaken (σ row) (List.mem_finRange _)
  simp only [hσ.read_rowAt, Equiv.symm_apply_apply, bind_eq_ok_iff, Except.ok.injEq,
    exists_eq_left', Fault.read_of_le (show v.elements.size ≤ row from le_rfl), reduceCtorEq,
    false_and, exists_false] at hread

section Solves

variable [LawfulZero α]

/-- A solve takes a scattered vector only if it has a slot for each row, and lists rows, each at
most once. -/
theorem Sound.listed_of_solved (h : f.Sound) (hw : f.Solved v w) :
    (v.layout = .scattered → f.rows ≤ v.capacity) ∧
      w.indices.Nodup ∧ ∀ i ∈ w.indices, i < f.rows := by
  have hthrough {v w : IndexedVector α} {g : Factorization α} {σ : Equiv.Perm (Fin f.rows)}
      {targets : List (Fin f.rows × Nat)} {solve : Vector α f.rows → Vector α f.rows}
      (hσ : f.order.Orders σ) (ht : Covers σ targets)
      (hw : f.solveThrough solve targets v = .ok (w, g)) :
      (v.layout = .scattered → f.rows ≤ v.capacity) ∧
        w.indices.Nodup ∧ ∀ i ∈ w.indices, i < f.rows := by
    obtain ⟨-, _, _, hgather, -⟩ := (h.solveThrough_eq_ok_iff ht).1 hw
    exact ⟨fun hl => rows_le_of_gather hσ hl hgather, h.listed_of_solveThrough ht hw⟩
  have hftran {v w : IndexedVector α} {g : Factorization α} (hw : f.ftran v = .ok (w, g)) :
      (v.layout = .scattered → f.rows ≤ v.capacity) ∧
        w.indices.Nodup ∧ ∀ i ∈ w.indices, i < f.rows := by
    obtain ⟨σ, solve, targets, hσ, ht, hw⟩ := h.exists_covers_of_ftran hw
    exact hthrough hσ ht hw
  have hinPlace {v w : IndexedVector α} (hw : f.ftranInPlace v = .ok w) :
      (v.layout = .scattered → f.rows ≤ v.capacity) ∧
        w.indices.Nodup ∧ ∀ i ∈ w.indices, i < f.rows := by
    obtain ⟨-, hcap, hnodup, hrewrites⟩ := rewrites_of_ftranInPlace hw
    exact ⟨fun _ => hcap, hnodup, hrewrites.lt⟩
  cases hw with
  | ftran hw => exact hftran hw
  | ftranInPlace hw => exact hinPlace hw
  | first hw => exact hftran (h.solves_of_ftranPair hw).1
  | second hw => exact (h.solves_of_ftranPair hw).2.elim hinPlace hftran
  | btran hw =>
    obtain ⟨σ, solve, targets, hσ, ht, hw⟩ := h.exists_covers_of_btran hw
    exact hthrough hσ ht hw

/-- A solve of a settled vector leaves a settled one, unless a value is listed past the rows of the
basis where only rows are taken. -/
theorem Sound.settled_of_solved (h : f.Sound) (hv : v.Settled) (hzero : v.ZeroFrom f.rows)
    (hw : f.Solved v w) : w.Settled := by
  obtain ⟨hcap, hnodup, -⟩ := h.listed_of_solved hw
  exact ⟨(h.rest_iff_of_solved (P := (· = (0 : α))) rfl hv.rest hcap hw).2 hzero, fun _ => hnodup⟩

end Solves

end Factorization

namespace IndexedVector

/-! ## Runs of calls on a vector -/

/-- A vector that calls made and changed, to which no entry came at an index that it listed with
zero while it was scattered, and that no basis solved while it listed a value past the rows of the
basis. -/
inductive Orderly : IndexedVector α → Prop where
  | allocate {capacity : Nat} {v : IndexedVector α} : allocate capacity = .ok v → Orderly v
  | ofArray (dense : Array α) (threshold : α) : Orderly (ofArray dense threshold)
  | ofPacked {capacity : Nat} {indices : List Nat} {values : List α} {v : IndexedVector α} :
    ofPacked capacity indices values = .ok v → Orderly v
  | insert {v w : IndexedVector α} {index : Nat} {value : α} :
    Orderly v → (v.layout = .scattered → ¬ v.ListsZero index) → v.insert index value = .ok w →
      Orderly w
  | clear {v : IndexedVector α} : Orderly v → Orderly v.clear
  | setLayout {v w : IndexedVector α} {layout : Layout} :
    Orderly v → v.setLayout layout = .ok w → Orderly w
  | solved {start f : Factorization α} {v w : IndexedVector α} :
    Orderly v → start.New → start.Reaches f → f.Solved v w → v.ZeroFrom f.rows → Orderly w

/-- Entries inserted one after another at indices that are all different. -/
theorem Orderly.insertAll : ∀ {pairs : List (Nat × α)} {v : IndexedVector α}, v.Orderly →
    (v.indices ++ pairs.map Prod.fst).Nodup →
    pairs.foldlM (fun v e => v.insert e.1 e.2) v = .ok w → w.Orderly
  | [], v, hv, _, hw => by
    cases hw
    exact hv
  | e :: pairs, v, hv, hnodup, hw => by
    rw [List.foldlM_cons, bind_eq_ok_iff] at hw
    obtain ⟨v', hv', hw⟩ := hw
    rw [List.map_cons, List.append_cons] at hnodup
    have hnew : e.1 ∉ v.indices := fun hmem =>
      (List.nodup_append'.1 (List.nodup_append'.1 hnodup).1).2.2 hmem (List.mem_singleton_self _)
    have hinserted : v'.Orderly := .insert hv (fun _ hzero => hnew hzero.1) hv'
    exact hinserted.insertAll (by rwa [indices_of_insert hv']) hw

/-- A solve is one of the calls that change a vector. -/
theorem Made.solved [LawfulZero α] {f : Factorization α} (h : v.Made) (hf : f.Sound)
    (hw : f.Solved v w) : w.Made := by
  cases hw with
  | ftran hw => exact h.ftran hw
  | ftranInPlace hw => exact h.ftranInPlace hw
  | first hw => exact h.ftran (hf.solves_of_ftranPair hw).1
  | second hw => exact (hf.solves_of_ftranPair hw).2.elim h.ftranInPlace h.ftran
  | btran hw => exact h.btran hw

theorem Orderly.made [LawfulScalar α] (h : v.Orderly) : v.Made := by
  induction h with
  | allocate h => exact .allocate h
  | ofArray dense threshold => exact .ofArray dense threshold
  | ofPacked h => exact .ofPacked h
  | insert _ _ hw ih => exact ih.insert hw
  | clear _ ih => exact ih.clear
  | setLayout _ hw ih => exact ih.setLayout hw
  | solved _ hnew hreach hw _ ih =>
    exact ih.solved (Factorization.invariant_of_reaches hnew hreach).toSound hw

theorem Orderly.settled [LawfulScalar α] (h : v.Orderly) : v.Settled := by
  induction h with
  | allocate h => exact settled_of_allocate h
  | ofArray dense threshold => exact settled_ofArray dense threshold
  | ofPacked h => exact settled_of_ofPacked h
  | insert _ hzero hw ih => exact ih.insert hzero hw
  | clear _ ih => exact ih.clear
  | setLayout _ hw ih => exact ih.setLayout hw
  | solved _ hnew hreach hw hzero ih =>
    exact (Factorization.invariant_of_reaches hnew hreach).settled_of_solved ih hzero hw

/-- A scattered vector lists no index twice. One that lists no index twice, packed or not, is read
alike by all: the value of an index is what a copy, a gather and a replacement have for it. Of a
packed vector that does, the value of an index is that of its first entry, and the others have that
of the last one. -/
theorem readers_of_orderly [LawfulScalar α] (hv : v.Orderly) :
    (v.layout = .scattered → v.indices.Nodup) ∧
    (v.indices.Nodup → v.ReadAs v.valueAt v.valueAt) ∧
    (v.layout = .packed → ∃ entries, v.entries = .ok entries ∧
      v.valueAt = firstOf entries ∧ v.ReadAs (lastOf entries) (lastOf entries)) := by
  obtain ⟨entries, hentries, -⟩ := hv.made.hasSlots.exists_entries
  refine ⟨hv.settled.nodup, fun hnodup => ?_, fun hl => ⟨entries, hentries, ?_, ?_⟩⟩
  · obtain ⟨n, htidy⟩ := hv.settled.exists_tidy hnodup
    exact htidy.readAs hentries
  · exact funext (valueAt_of_packed hl hentries)
  · have hread := readAs_of_entries hentries
    rwa [hl] at hread

end IndexedVector

namespace Factorization

open IndexedVector

/-- A basis for which the rows are exchanged in a cycle, with room for an update. -/
def cyclic : List (Operation Float) :=
  [.setChainCapacity 1, .load ![![0, 2, 1], ![4, 1, -1], ![2, 3, 5]], .factor]

/-- The last row first, and zero for one of the rows. -/
def lastFirst : List (Nat × Float) := [(2, 6), (0, 0), (1, 5)]

/-- The solved vector has the values of the rows in their new order, for whoever reads it. -/
theorem readers_of_orderly_solved : ∃ (f g h : Factorization Float) (v w : IndexedVector Float),
    initial.run cyclic = .ok f ∧ f.rowsInOrder = #[1, 2, 0] ∧ v.Orderly ∧ v.indices = [2, 0, 1] ∧
      v.toDense 3 = .ok (Array.ofFn fun i : Fin 3 => v.valueAt i) ∧ f.ftran v = .ok (w, g) ∧
      w.indices = [0, 1, 2] ∧ w.toDense 3 = .ok (Array.ofFn fun i : Fin 3 => w.valueAt i) ∧
      ∃ (σ : Equiv.Perm (Fin f.rows)) (row : Fin f.rows), f.order.Orders σ ∧ row.val = 1 ∧
        (∃ emptied, f.gather w (Vector.replicate f.rows 0) =
          .ok (Vector.ofFn fun p => w.valueAt (σ.symm p), emptied)) ∧
        f.replace w row 0.5 = .ok h ∧ Block.column f.rows (f.rows + f.updates) h.block =
          .ok ((Vector.ofFn fun p => w.valueAt (σ.symm p)).set (σ row) (1 / 0.5) (σ row).isLt) := by
  have hrun : Except.isOk (do
      let f ← liftM (initial.run cyclic)
      let empty ← liftM (IndexedVector.allocate 4)
      let v ← liftM (lastFirst.foldlM (fun v e => v.insert e.1 e.2) empty)
      let (w, g) ← liftM (f.ftran v)
      let h ← f.replace w 1 0.5
      if ¬ (f.rows = 3 ∧ f.status = .valid ∧ f.rowsInOrder = #[1, 2, 0] ∧ empty.indices = [] ∧
          v.indices = [2, 0, 1] ∧ w.layout = .scattered ∧ w.indices = [0, 1, 2] ∧
          w.capacity = 4) then
        throw (.fault .outOfRange)
      return (g, h) : Except Failure (Factorization Float × Factorization Float)) = true := by
    decide +kernel
  obtain ⟨_, hrun⟩ := exists_eq_ok_of_isOk hrun
  simp only [bind_eq_ok_iff, guard_eq_ok_iff, liftFault_eq_ok_iff, not_not] at hrun
  obtain ⟨f, hf, empty, hempty, v, hv, ⟨w, g⟩, hw, h, hh,
    ⟨hrows, hvalid, horder, hnone, hlisted, hl, hindices, hcapacity⟩, -⟩ := hrun
  dsimp only at hh hl hindices hcapacity
  have hsound : f.Sound := (invariant_of_reaches .initial (reaches_of_run hf)).toSound
  obtain ⟨σ, hσ⟩ := hsound.exists_orders hvalid
  have hordered : v.Orderly :=
    (Orderly.allocate hempty).insertAll (by simp [hnone, lastFirst]) hv
  have hpast : v.ZeroFrom f.rows := by simp [ZeroFrom, hrows, hlisted]
  obtain ⟨-, hread, -⟩ := readers_of_orderly hordered
  obtain ⟨hnodup, hreadSolved, -⟩ := readers_of_orderly
    (.solved hordered .initial (reaches_of_run hf) (.ftran hw) hpast : w.Orderly)
  have hread := hread (by simp [hlisted])
  have hreadSolved := hreadSolved (hnodup hl)
  refine ⟨f, g, h, v, w, hf, horder, hordered, hlisted,
    hread.toDense 3 (by decide) (by simp [hlisted]), hw, hindices,
    hreadSolved.toDense 3 (by decide) (by simp [hindices]), σ, ⟨1, by omega⟩, hσ, rfl, ?_, hh, ?_⟩
  · refine hreadSolved.gather f σ hσ ?_
    rw [hl]
    show f.rows ≤ w.capacity
    omega
  · exact hreadSolved.replace f h σ hsound.toLaidOut hσ (by simp [hindices, hrows]) ⟨1, by omega⟩
      0.5 hh

/-- An index listed twice in a packed vector is looked up and copied differently. -/
theorem exists_toDense_ne_valueAt : ∃ v : IndexedVector Float,
    ofPacked 2 [0, 0] [1, 2] = .ok v ∧ ¬ v.indices.Nodup ∧ v.valueAt 0 = 1 ∧
      v.toDense 2 = .ok #[2, 0] := by
  have hrun : Except.isOk (do
      let v ← ofPacked 2 [0, 0] [1, 2]
      let dense ← v.toDense 2
      if ¬ (v.indices = [0, 0] ∧ v.valueAt 0 = 1 ∧ dense = #[2, 0]) then throw .outOfRange
      return v : Except Fault (IndexedVector Float)) = true := by
    decide +kernel
  obtain ⟨_, hrun⟩ := exists_eq_ok_of_isOk hrun
  simp only [bind_eq_ok_iff, guard_eq_ok_iff, not_not] at hrun
  obtain ⟨v, hv, dense, hdense, ⟨hindices, hvalue, rfl⟩, -⟩ := hrun
  exact ⟨v, hv, by simp [hindices], hvalue, hdense⟩

end Factorization

end BasisLU
