import BasisLU.Proofs.Factorization.Invariant
import BasisLU.Proofs.Factorization.Repair

/-!
# Calls that cannot fault

On a factorization that calls led to, factoring and expanding never fault, whatever the values are.
While the factors are valid, neither do solves, on vectors that have room for the basis and list
rows of it, nor replacements by vectors that list rows of it (`Permits`). A singular basis can be
repaired in every sequence that has a place for each row (`exists_reply_of_permits`).

A vector is only ever made and changed by calls (`IndexedVector.Made`), so the indices it lists have
slots (`Made.hasSlots`). It may list an index twice, and hold values that are not numbers.
-/

namespace BasisLU

namespace IndexedVector

variable {α : Type} [Scalar α] {v w : IndexedVector α}

/-- A vector that calls made and changed. -/
inductive Made : IndexedVector α → Prop where
  | allocate {capacity : Nat} {v : IndexedVector α} : allocate capacity = .ok v → Made v
  | ofArray (dense : Array α) (threshold : α) : Made (ofArray dense threshold)
  | ofPacked {capacity : Nat} {indices : List Nat} {values : List α} {v : IndexedVector α} :
    ofPacked capacity indices values = .ok v → Made v
  | insert {v w : IndexedVector α} {index : Nat} {value : α} :
    Made v → v.insert index value = .ok w → Made w
  | clear {v : IndexedVector α} : Made v → Made v.clear
  | setLayout {v w : IndexedVector α} {layout : Layout} :
    Made v → v.setLayout layout = .ok w → Made w
  | ftran {f g : Factorization α} {v w : IndexedVector α} :
    Made v → f.ftran v = .ok (w, g) → Made w
  | ftranInPlace {f : Factorization α} {v w : IndexedVector α} :
    Made v → f.ftranInPlace v = .ok w → Made w
  | btran {f g : Factorization α} {v w : IndexedVector α} :
    Made v → f.btran v = .ok (w, g) → Made w

omit [Scalar α] in
theorem hasSlots_of_eq_nil (h : v.indices = []) : v.HasSlots := by
  obtain ⟨elements, indices, layout⟩ := v
  obtain rfl : indices = [] := h
  cases layout with
  | packed => exact Nat.zero_le _
  | scattered => exact fun _ hi => absurd hi List.not_mem_nil

theorem hasSlots_of_ofPacked {capacity : Nat} {indices : List Nat} {values : List α}
    (h : ofPacked capacity indices values = .ok v) : v.HasSlots := by
  simp only [ofPacked, guard_eq_ok_iff, bind_eq_ok_iff, not_not] at h
  obtain ⟨hlen, blank, -, h⟩ := h
  split at h
  · cases h
  · cases h
    simp [HasSlots, count, IndexedVector.capacity, hlen]

theorem HasSlots.insert (h : v.HasSlots) {index : Nat} {value : α}
    (hw : v.insert index value = .ok w) : w.HasSlots := by
  obtain ⟨current, hcurrent, -, rfl⟩ := insert_eq_ok_iff.1 hw
  have hslot := (Array.getElem?_eq_some_iff.1 hcurrent).1
  obtain ⟨elements, indices, layout⟩ := v
  cases layout with
  | packed => simpa [HasSlots, nextSlot, count, capacity, Nat.succ_le_iff] using hslot
  | scattered =>
    intro i hi
    rcases List.mem_append.1 hi with hi | hi
    · simpa [capacity] using h i hi
    · rw [List.mem_singleton.1 hi]
      simpa [nextSlot, capacity] using hslot

omit [Scalar α] in
/-- Whatever was found is filled into slots. -/
theorem hasSlots_of_fill {found : List (Nat × α)} (h : v.fill found = .ok w) : w.HasSlots := by
  simp only [fill, bind_eq_ok_iff, pure_eq_ok_iff] at h
  obtain ⟨placed, hplaced, rfl⟩ := h
  have hslots := congrArg (List.map Prod.fst) (locate_eq_ok_iff.1 hplaced)
  have hlt (i : Nat) (hi : i ∈ placed.map fun e => e.1.val) : i < v.capacity := by
    obtain ⟨e, -, rfl⟩ := List.mem_map.1 hi
    exact e.1.isLt
  rw [List.map_map] at hslots
  obtain ⟨elements, indices, layout⟩ := v
  cases layout with
  | packed =>
    -- The slots are the first ones, so it is enough that the last of them is in the array.
    rw [List.map_fst_zip (by simp)] at hslots
    have hlast : found.length - 1 ∈ List.range found.length → found.length - 1 < elements.size :=
      fun hi => hlt _ (hslots ▸ hi)
    simp only [List.mem_range] at hlast
    simp only [HasSlots, count, capacity, List.length_map, Vector.size_toArray]
    omega
  | scattered =>
    rw [List.map_fst_zip (by simp)] at hslots
    intro i hi
    simpa [capacity] using hlt i (hslots ▸ hi)

theorem hasSlots_of_solveThrough {f g : Factorization α} {solve : Vector α f.rows → Vector α f.rows}
    {targets : List (Fin f.rows × Nat)} (h : f.solveThrough solve targets v = .ok (w, g)) :
    w.HasSlots := by
  simp only [Factorization.solveThrough, bind_eq_ok_iff, guard_eq_ok_iff, pure_eq_ok_iff,
    Prod.mk.injEq] at h
  obtain ⟨_, -, _, -, _, hfill, _, -, -, rfl, -⟩ := h
  exact hasSlots_of_fill hfill

/-- What is solved in place lists positions, all of which it has slots for. -/
theorem hasSlots_of_ftranInPlace {f : Factorization α} (h : f.ftranInPlace v = .ok w) :
    w.HasSlots := by
  simp only [Factorization.ftranInPlace, bind_eq_ok_iff, guard_eq_ok_iff, pure_eq_ok_iff] at h
  obtain ⟨-, -, hlayout, F, -, x, hx, elements, helements, rfl⟩ := h
  have hle := Block.le_of_column hx
  have hsize := Block.size_setColumn helements
  obtain ⟨_, indices, layout⟩ := v
  cases layout with
  | packed => exact absurd rfl hlayout
  | scattered =>
    intro i hi
    obtain ⟨p, -, rfl⟩ := List.mem_map.1 hi
    have := p.isLt
    simp only [capacity]
    omega

/-- The indices that a vector lists have slots in it. -/
theorem Made.hasSlots (h : v.Made) : v.HasSlots := by
  induction h with
  | allocate h =>
    obtain ⟨-, rfl⟩ := allocate_eq_ok_iff.1 h
    exact hasSlots_of_eq_nil rfl
  | ofArray dense threshold =>
    intro i hi
    obtain ⟨e, he, rfl⟩ := List.mem_map.1 hi
    have := List.mem_zipIdx (List.mem_of_mem_filter he)
    simp only [IndexedVector.ofArray, capacity, Array.size_map]
    simpa using this.2.1
  | ofPacked h => exact hasSlots_of_ofPacked h
  | insert _ hw ih => exact ih.insert hw
  | clear _ _ => exact hasSlots_of_eq_nil rfl
  | setLayout _ hw _ =>
    simp only [IndexedVector.setLayout, ite_error_eq_ok_iff] at hw
    obtain ⟨hempty, hw⟩ := hw
    cases hw
    exact hasSlots_of_eq_nil (List.isEmpty_iff.1 hempty)
  | ftran _ hw _ =>
    simp only [Factorization.ftran, bind_eq_ok_iff] at hw
    obtain ⟨-, -, _, -, _, -, hw⟩ := hw
    exact hasSlots_of_solveThrough hw
  | ftranInPlace _ hw _ => exact hasSlots_of_ftranInPlace hw
  | btran _ hw _ =>
    simp only [Factorization.btran, bind_eq_ok_iff] at hw
    obtain ⟨-, -, _, -, _, -, hw⟩ := hw
    exact hasSlots_of_solveThrough hw

end IndexedVector

namespace Factorization

variable {α : Type} [Scalar α] {f g : Factorization α} {v w : IndexedVector α}

/-- A vector with room for the rows of the basis, that lists no other rows. -/
structure Accepts (f : Factorization α) (v : IndexedVector α) : Prop where
  made : v.Made
  rows_le : f.rows ≤ v.capacity
  lt : ∀ i ∈ v.indices, i < f.rows

omit [Scalar α] in
/-- The rows that a vector lists have positions. -/
theorem exists_locateRows {σ : Equiv.Perm (Fin f.rows)} (hσ : f.order.Orders σ)
    {entries : List (Nat × α)} (hlt : ∀ i ∈ entries.map Prod.fst, i < f.rows) :
    ∃ placed, f.locateRows entries = .ok placed := by
  refine exists_mapM_eq_ok fun e he => ?_
  have hrow := hσ.position ⟨e.1, hlt _ (List.mem_map_of_mem he)⟩
  simp only [bind_eq_ok_iff, pure_eq_ok_iff]
  exact ⟨_, _, hrow, rfl⟩

theorem exists_gather {σ : Equiv.Perm (Fin f.rows)} (hσ : f.order.Orders σ) (hv : f.Accepts v)
    (scratch : Vector α f.rows) :
    ∃ b emptied, f.gather v scratch = .ok (b, emptied) ∧ emptied.capacity = v.capacity := by
  cases hl : v.layout with
  | packed =>
    -- A row listed twice is written twice, so distinct rows are not needed.
    obtain ⟨entries, hentries, hfst⟩ := hv.made.hasSlots.exists_entries
    obtain ⟨placed, hplaced⟩ := exists_locateRows hσ (hfst ▸ hv.lt)
    simp only [gather, hl, bind_eq_ok_iff, pure_eq_ok_iff, Prod.mk.injEq]
    exact ⟨_, _, ⟨entries, hentries, placed, hplaced, rfl, rfl⟩,
      by simp [IndexedVector.capacity]⟩
  | scattered =>
    rw [gather_of_scattered hσ hl hv.rows_le]
    exact ⟨_, _, rfl, by simp [IndexedVector.capacity]⟩

/-! ## Solves -/

section Solves

variable [LawfulZero α]

theorem Sound.exists_solveThrough (h : f.Sound) {σ : Equiv.Perm (Fin f.rows)}
    (hσ : f.order.Orders σ) {targets : List (Fin f.rows × Nat)} (ht : Covers σ targets)
    (hv : f.Accepts v) (solve : Vector α f.rows → Vector α f.rows) :
    ∃ w, f.solveThrough solve targets v = .ok (w, f) := by
  obtain ⟨b, emptied, hgather, hcapacity⟩ := exists_gather hσ hv (Vector.replicate f.rows 0)
  obtain ⟨w, hw⟩ := IndexedVector.exists_fill (v := emptied)
    (kept_nodup ht f.config.zeroTolerance (solve b)) (kept_lt ht) (hcapacity ▸ hv.rows_le)
  exact ⟨w, (h.solveThrough_eq_ok_iff ht).2 ⟨rfl, b, emptied, hgather, hw⟩⟩

theorem Sound.exists_ftran (h : f.Sound) (hvalid : f.status = .valid) (hv : f.Accepts v) :
    ∃ w, f.ftran v = .ok (w, f) := by
  obtain ⟨σ, hσ⟩ := h.exists_orders hvalid
  obtain ⟨F, hF⟩ := h.exists_factors
  rw [ftran_eq hvalid hF hσ]
  exact h.exists_solveThrough hσ (covers_slots σ) hv F.solve

theorem Sound.exists_btran (h : f.Sound) (hvalid : f.status = .valid) (hv : f.Accepts v) :
    ∃ w, f.btran v = .ok (w, f) := by
  obtain ⟨σ, hσ⟩ := h.exists_orders hvalid
  obtain ⟨F, hF⟩ := h.exists_factors
  rw [btran_eq hvalid hF hσ]
  exact h.exists_solveThrough hσ (covers_positions σ) hv F.solveTransposed

end Solves

theorem Sound.exists_ftranInPlace (h : f.Sound) (hvalid : f.status = .valid)
    (hv : f.rows ≤ v.capacity) (hl : v.layout = .scattered) :
    ∃ w, f.ftranInPlace v = .ok w := by
  obtain ⟨F, hF⟩ := h.exists_factors
  have hroom : 0 * f.rows + f.rows ≤ v.elements.size := by rwa [Nat.zero_mul, Nat.zero_add]
  obtain ⟨x, hx⟩ := Block.column_of_le hroom
  simp only [ftranInPlace, bind_eq_ok_iff, guard_eq_ok_iff, pure_eq_ok_iff, requireValid_eq_ok_iff]
  obtain ⟨elements, helements⟩ : ∃ elements, Block.setColumn 0 ((F.solve x).map fun value =>
      if decide (f.config.zeroTolerance < Scalar.magnitude value) then value else 0) v.elements =
      .ok elements := Block.setColumn_of_le hroom
  exact ⟨_, (), hvalid, by simp [hl], F, hF, x, hx, elements, helements, rfl⟩

theorem Sound.exists_ftranPair [LawfulZero α] (h : f.Sound) (hvalid : f.status = .valid)
    (hv : f.Accepts v) (hw : f.Accepts w) {inPlace : Bool}
    (hl : inPlace = true → w.layout = .scattered) :
    ∃ v' w', f.ftranPair v w inPlace = .ok (v', w', f) := by
  obtain ⟨v', hv'⟩ := h.exists_ftran hvalid hv
  simp only [ftranPair, bind_eq_ok_iff]
  cases inPlace with
  | true =>
    obtain ⟨w', hw'⟩ := h.exists_ftranInPlace hvalid hw.rows_le (hl rfl)
    refine ⟨v', w', _, hv', ?_⟩
    simp only [if_true, bind_eq_ok_iff, pure_eq_ok_iff]
    exact ⟨w', hw', rfl⟩
  | false =>
    obtain ⟨w', hw'⟩ := h.exists_ftran hvalid hw
    refine ⟨v', w', _, hv', ?_⟩
    simp only [Bool.false_eq_true, if_false, bind_eq_ok_iff, pure_eq_ok_iff]
    exact ⟨_, hw', rfl⟩

/-! ## Replacing, expanding and repairing -/

/-- A replacement that is not refused succeeds. -/
theorem Sound.exists_replace (h : f.Sound) (hvalid : f.status = .valid) (hv : v.Made)
    (hlt : ∀ i ∈ v.indices, i < f.rows) {slot : Nat} (hslot : slot < f.rows) {pivot : α}
    (hroom : f.updates < f.config.chainCapacity)
    (hpivot : ¬ Scalar.magnitude pivot ≤ f.config.zeroTolerance) :
    ∃ g, f.replace v slot pivot = .ok g := by
  -- The vector needs no room for the basis: its entries are read off its own list.
  obtain ⟨σ, hσ⟩ := h.exists_orders hvalid
  obtain ⟨entries, hentries, hfst⟩ := hv.hasSlots.exists_entries
  obtain ⟨placed, hplaced⟩ := exists_locateRows hσ (hfst ▸ hlt)
  obtain ⟨update, hupdate⟩ : ∃ update, f.newUpdate entries slot pivot = .ok update := by
    simp only [newUpdate, bind_eq_ok_iff, pure_eq_ok_iff]
    exact ⟨_, placed, hplaced, _, hσ.position ⟨slot, hslot⟩, rfl⟩
  obtain ⟨block, hblock⟩ : ∃ block,
      Block.setColumn (f.rows + f.updates) update.column f.block = .ok block :=
    Block.setColumn_of_le (h.column_le (by omega))
  have hreplaced := h.replaced_room (by omega)
  exact ⟨_, replace_eq_ok_iff.2 ⟨hvalid, hroom, hpivot, entries, update, hentries, hupdate,
    h.append_eq_ok_iff.2 ⟨block, hblock, by omega, rfl⟩⟩⟩

theorem Sound.exists_settle_replace (h : f.Sound) (hvalid : f.status = .valid) (hv : v.Made)
    (hlt : ∀ i ∈ v.indices, i < f.rows) {slot : Nat} (hslot : slot < f.rows) (pivot : α)
    (events : Factorization α → List Event) :
    ∃ reply, Operation.settle f events (f.replace v slot pivot) = .ok reply := by
  have hrequire : f.requireValid .replaceBeforeFactor = .ok () := requireValid_eq_ok_iff.2 hvalid
  by_cases hroom : f.updates < f.config.chainCapacity
  · by_cases hpivot : Scalar.magnitude pivot ≤ f.config.zeroTolerance
    · rw [Factorization.replace, hrequire, if_neg (Nat.not_le.2 hroom), if_pos hpivot]
      exact ⟨_, rfl⟩
    · obtain ⟨g, hg⟩ := h.exists_replace hvalid hv hlt hslot hroom hpivot
      exact ⟨_, by rw [hg]; rfl⟩
  · rw [Factorization.replace, hrequire, if_pos (Nat.not_lt.1 hroom)]
    exact ⟨_, rfl⟩

theorem Invariant.exists_settle_expand (h : f.Invariant)
    (events : Factorization α → List Event) :
    ∃ reply, Operation.settle f events f.expand = .ok reply := by
  by_cases hsize : f.staged.starts.size = f.columns + 1
  · obtain ⟨g, hg⟩ := h.exists_expand h.expandable hsize
    exact ⟨_, by rw [hg]; rfl⟩
  · rw [Factorization.expand, if_pos hsize]
    exact ⟨_, rfl⟩

theorem Sound.exists_factor (h : f.Sound) : ∃ g refusal, f.factor = .ok (g, refusal) := by
  obtain ⟨columns, hsquare⟩ := Block.square_of_le h.square_le
  obtain ⟨g, hg⟩ := h.exists_install (eliminate f.config.zeroTolerance columns)
  exact ⟨g, _, h.factor_eq_ok_iff.2 ⟨columns, hsquare, hg, rfl⟩⟩

theorem Sound.exists_repairSequence (h : f.Sound) (hs : f.status = .singular)
    {sequence : Array Nat} {columns : Nat} (hsize : f.rows ≤ sequence.size)
    (hword : ∀ row < f.rows, row + columns < wordSize) :
    ∃ repaired, f.repairSequence sequence columns = .ok repaired := by
  obtain ⟨σ, hσ⟩ := h.orders (by simp [hs])
  have hgood := h.singular hs
  simp only [repairSequence, guard_eq_ok_iff, bind_eq_ok_iff, pure_eq_ok_iff]
  refine ⟨_, Nat.not_le.2 hgood, _, h.mapM_pivoted hσ hgood.le, Nat.not_lt.2 hsize, ?_, rfl⟩
  intro hlarge
  obtain ⟨slack, hslack, hle⟩ := List.any_eq_true.1 hlarge
  obtain ⟨row, hrow, rfl⟩ := List.mem_map.1 hslack
  have hrow := (mem_freeRows.1 (List.mem_of_mem_take hrow)).1
  exact absurd (hword row hrow) (Nat.not_lt.2 (of_decide_eq_true hle))

/-! ## Runs -/

/-- The calls that cannot fault. Factoring and expanding are among them whatever is held; solves and
replacements need valid factors, and vectors and slots that fit the basis. -/
def Permits (f : Factorization α) : Operation α → Prop
  | .factor | .expand => True
  | .ftran v | .btran v => f.status = .valid ∧ f.Accepts v
  | .ftranInPlace v => f.status = .valid ∧ f.Accepts v ∧ v.layout = .scattered
  | .ftranPair v w inPlace =>
    f.status = .valid ∧ f.Accepts v ∧ f.Accepts w ∧ (inPlace = true → w.layout = .scattered)
  | .replace v slot _ =>
    f.status = .valid ∧ v.Made ∧ (∀ i ∈ v.indices, i < f.rows) ∧ slot < f.rows
  | _ => False

theorem Invariant.exists_perform [LawfulScalar α] (h : f.Invariant) {operation : Operation α}
    (hp : f.Permits operation) : ∃ reply, operation.perform f = .ok reply := by
  cases operation with
  | factor =>
    obtain ⟨g, refusal, hg⟩ := h.exists_factor
    exact ⟨_, by rw [Operation.perform, hg]; rfl⟩
  | expand => exact h.exists_settle_expand _
  | ftran v =>
    obtain ⟨hvalid, hv⟩ := hp
    obtain ⟨w, hw⟩ := h.exists_ftran hvalid hv
    exact ⟨_, by rw [Operation.perform, hw]; rfl⟩
  | ftranInPlace v =>
    obtain ⟨hvalid, hv, hl⟩ := hp
    obtain ⟨w, hw⟩ := h.exists_ftranInPlace hvalid hv.rows_le hl
    exact ⟨_, by rw [Operation.perform, hw]; rfl⟩
  | ftranPair v w inPlace =>
    obtain ⟨hvalid, hv, hw, hl⟩ := hp
    obtain ⟨v', w', hpair⟩ := h.exists_ftranPair hvalid hv hw hl
    exact ⟨_, by rw [Operation.perform, hpair]; rfl⟩
  | btran v =>
    obtain ⟨hvalid, hv⟩ := hp
    obtain ⟨w, hw⟩ := h.exists_btran hvalid hv
    exact ⟨_, by rw [Operation.perform, hw]; rfl⟩
  | replace v slot pivot =>
    obtain ⟨hvalid, hv, hlt, hslot⟩ := hp
    obtain ⟨reply, hreply⟩ := h.exists_settle_replace hvalid hv hlt hslot pivot
      (Event.ofReplacement · pivot)
    exact ⟨_, by rw [Operation.perform, hreply]; rfl⟩
  | _ => exact hp.elim

/-- No call that is permitted faults after any calls, and nor does a repair of a singular basis. -/
theorem exists_reply_of_permits [LawfulScalar α] {start : Factorization α} (hnew : start.New)
    (hreach : Reaches start f) :
    (∀ operation : Operation α, f.Permits operation → ∃ reply, operation.perform f = .ok reply) ∧
    (f.status = .singular → ∀ (sequence : Array Nat) (columns : Nat), f.rows ≤ sequence.size →
      (∀ row < f.rows, row + columns < wordSize) →
      ∃ repaired, f.repairSequence sequence columns = .ok repaired) := by
  have h := invariant_of_reaches hnew hreach
  exact ⟨fun _ hp => h.exists_perform hp,
    fun hs _ _ hsize hword => h.exists_repairSequence hs hsize hword⟩

/-- A basis with an infinite entry, factored while columns of fewer rows are staged. -/
def infinite : List (Operation Float) :=
  [.setChainCapacity 1, .resize 2 2, .stage #[0, 1, 3] #[1, 0, 1] #[0 / 0, 2, 1 / 0],
    .load ![![1 / 0, 2, 1], ![4, 1, -1], ![2, 3, 5]], .factor]

/-- A vector that lists a row twice, with values that are not numbers. -/
def repeated : IndexedVector Float := ⟨#[1 / 0, 1, 0 / 0, 0], [2, 0, 2], .packed⟩

theorem made_repeated : repeated.Made := by
  have hpacked : IndexedVector.ofPacked 4 [2, 0, 2] [1 / 0, 1, 0 / 0] = .ok repeated := rfl
  exact .ofPacked hpacked

theorem exists_reply_of_permits_infinite : ∃ f g : Factorization Float,
    initial.run infinite = .ok f ∧ f.status = .valid ∧
      (∃ reply, (Operation.ftranPair repeated (.empty 3) true).perform f = .ok reply) ∧
      (∃ reply, (Operation.replace repeated 1 (1 / 0)).perform f = .ok reply) ∧
      f.run [.resize 2 2, .expand, .factor] = .ok g ∧ g.status = .singular ∧
      ∃ repaired, g.repairSequence #[4, 7] 2 = .ok repaired := by
  have hrun : Except.isOk (do
      let f ← initial.run infinite
      if f.status ≠ .valid ∨ f.rows ≠ 3 then throw .outOfRange
      let g ← f.run [.resize 2 2, .expand, .factor]
      if g.status ≠ .singular ∨ g.rows ≠ 2 then throw .outOfRange
      return g : Except Fault (Factorization Float)) = true := by
    decide +kernel
  obtain ⟨g, hrun⟩ := exists_eq_ok_of_isOk hrun
  simp only [bind_eq_ok_iff, guard_eq_ok_iff, pure_eq_ok_iff, not_or, not_not] at hrun
  obtain ⟨f, hf, ⟨hvalid, hrows⟩, _, hg, ⟨hsingular, hrows'⟩, rfl⟩ := hrun
  have hreach := reaches_of_run hf
  obtain ⟨hperform, -⟩ := exists_reply_of_permits .initial hreach
  obtain ⟨-, hrepair⟩ := exists_reply_of_permits .initial (hreach.trans (reaches_of_run hg))
  have hrepeated : f.Accepts repeated :=
    ⟨made_repeated, by simp [hrows, repeated, IndexedVector.capacity], by simp [hrows, repeated]⟩
  have hallocate : IndexedVector.allocate 3 = .ok (.empty 3 : IndexedVector Float) := rfl
  have hempty : f.Accepts (.empty 3) :=
    ⟨.allocate hallocate, by simp [hrows, IndexedVector.empty, IndexedVector.capacity],
      by simp [IndexedVector.empty]⟩
  refine ⟨f, _, hf, hvalid, hperform _ ⟨hvalid, hrepeated, hempty, fun _ => rfl⟩,
    hperform _ ⟨hvalid, made_repeated, hrepeated.lt, by omega⟩, hg, hsingular, ?_⟩
  exact hrepair hsingular _ _ (by simp [hrows']) (by rw [hrows']; decide)

end Factorization

end BasisLU
