import BasisLU.Proofs.Factorization.Invariant
import BasisLU.Proofs.Factorization.Stored

/-!
# A new basis and what came before it

Buffers only grow, so those of a factorization still hold columns, positions and updates of the
bases before. None of that shows: a factorization that held other bases, and one that is made for
the occasion with the same parameters, are the same to see (`View`) after the same matrix is loaded
and factored, and answer all calls within its rows alike (`answers_eq_of_load`).

`withBuffers` exchanges the buffers. The exchange is not seen if the new buffers hold the same
values where the basis and its updates are (`Twin`), because a call within the rows of the basis
reads nothing else, and leaves the two with such buffers again (`Twin.perform`).
-/

namespace BasisLU

variable {α : Type}

namespace Factorization

/-- What can be seen of the basis that a factorization holds. -/
structure View (α : Type) where
  config : Config α
  status : Status
  rows : Nat
  columns : Nat
  goodColumns : Nat
  updates : Nat
  positions : Array Nat
  rowsInOrder : Array Nat
  chainPositions : Array Nat
  /-- The columns of the square, and after them those of the updates. -/
  values : Array α

/-- The parameters, the counters, and the parts of the buffers in use. -/
def view (f : Factorization α) : View α where
  config := f.config
  status := f.status
  rows := f.rows
  columns := f.columns
  goodColumns := f.goodColumns
  updates := f.updates
  positions := f.positions
  rowsInOrder := f.rowsInOrder
  chainPositions := f.chainPositions
  values := f.block.take f.elementCount

/-- What is kept from one basis to the next: the arrays, which only grow, and what is staged. -/
structure Buffers (α : Type) where
  block : Array α
  order : RowOrder
  replaced : Array Nat
  scratch : Array α
  staged : Staged
  mostRows : Nat

/-- The buffers of a factorization. -/
def buffers (f : Factorization α) : Buffers α :=
  ⟨f.block, f.order, f.replaced, f.scratch, f.staged, f.mostRows⟩

/-- The factorization with other buffers. -/
abbrev withBuffers (f : Factorization α) (b : Buffers α) : Factorization α :=
  { f with
    block := b.block
    order := b.order
    replaced := b.replaced
    scratch := b.scratch
    staged := b.staged
    mostRows := b.mostRows }

end Factorization

variable [Scalar α]

/-- The calls on a factored basis that name no rows but the first `n`: solves, replacements, and
changes of the capacity. -/
def Operation.Within (n : Nat) : Operation α → Prop
  | .ftran v | .ftranInPlace v | .btran v => ∀ i ∈ v.indices, i < n
  | .ftranPair v w _ => (∀ i ∈ v.indices, i < n) ∧ ∀ i ∈ w.indices, i < n
  | .replace v slot _ => (∀ i ∈ v.indices, i < n) ∧ slot < n
  | .setChainCapacity _ => True
  | _ => False

namespace Factorization

/-- What a caller gets from a call, and what can be seen afterwards. -/
structure Answer (α : Type) where
  refusal : Option Refusal
  code : Option Int
  vectors : List (IndexedVector α)
  view : View α

/-- The answers to calls one after another. A fault is the last of them. -/
def answers (f : Factorization α) : List (Operation α) → List (Except Fault (Answer α))
  | [] => []
  | operation :: operations =>
    match operation.perform f with
    | .ok reply =>
      .ok ⟨reply.refusal, reply.code, reply.vectors, reply.factorization.view⟩ ::
        reply.factorization.answers operations
    | .error fault => [.error fault]

variable {f g : Factorization α} {b : Buffers α} {v w : IndexedVector α}

/-! ## Buffers with the same basis -/

/-- Other buffers, in which the basis and its updates are the same. -/
structure Twin (f : Factorization α) (b : Buffers α) : Prop where
  sound : f.Sound
  sound_with : (f.withBuffers b).Sound
  block_eq : ∀ slot < f.elementCount, b.block[slot]? = f.block[slot]?
  positionOf_eq : ∀ r < f.rows, b.order.positionOf[r]? = f.order.positionOf[r]?
  rowAt_eq : ∀ p < f.rows, b.order.rowAt[p]? = f.order.rowAt[p]?
  replaced_eq : ∀ slot < f.updates, b.replaced[slot]? = f.replaced[slot]?

theorem take_eq_take {β : Type} {xs ys : Array β} {n : Nat} (h : ∀ i < n, ys[i]? = xs[i]?) :
    ys.take n = xs.take n := by
  refine Array.ext_getElem? fun i => ?_
  rw [getElem?_take, getElem?_take]
  split
  · exact h i ‹_›
  · rfl

/-- The parts in use are what can be seen. -/
theorem Twin.view_eq (h : f.Twin b) : (f.withBuffers b).view = f.view := by
  have hpositions : (f.withBuffers b).positions = f.positions := take_eq_take h.positionOf_eq
  have hrows : (f.withBuffers b).rowsInOrder = f.rowsInOrder := take_eq_take h.rowAt_eq
  have hchain : (f.withBuffers b).chainPositions = f.chainPositions := take_eq_take h.replaced_eq
  have hvalues : b.block.take f.elementCount = f.block.take f.elementCount :=
    take_eq_take h.block_eq
  rw [view, hpositions, hrows, hchain,
    show (f.withBuffers b).block.take (f.withBuffers b).elementCount = _ from hvalues]
  rfl

/-! ## Reading -/

omit [Scalar α] in
/-- The columns of the square and of the updates are in the part of the block in use. -/
theorem slot_lt_elementCount {k i : Nat} (hk : k < f.columns + f.updates) (hi : i < f.rows) :
    k * f.rows + i < f.elementCount :=
  calc k * f.rows + i < (k + 1) * f.rows := by rw [Nat.succ_mul]; omega
    _ ≤ (f.columns + f.updates) * f.rows := Nat.mul_le_mul_right _ hk
    _ = f.elementCount := Nat.mul_comm _ _

theorem Twin.block_column_eq (h : f.Twin b) {k : Nat} (hk : k < f.columns + f.updates) :
    Block.column f.rows k b.block = Block.column f.rows k f.block := by
  have hroom := h.sound.updates_le
  have hcolumns := h.sound.columns_eq
  obtain ⟨column, hcolumn⟩ := Block.column_of_le (h.sound.column_le (k := k) (by omega))
  rw [hcolumn]
  refine Block.column_eq_ok (h.sound_with.column_le (k := k) ?_) fun i hi => ?_
  · show k < f.rows + f.config.chainCapacity
    omega
  · rw [h.block_eq _ (slot_lt_elementCount hk hi), Block.getElem?_of_column hcolumn hi]

theorem Twin.square_eq (h : f.Twin b) : (f.withBuffers b).square = f.square := by
  obtain ⟨columns, hcolumns⟩ := Block.square_of_le h.sound.square_le
  have hsquare : Block.square f.rows b.block = .ok columns :=
    Block.square_eq_ok_iff.2 fun k =>
      (h.block_column_eq (by have := h.sound.columns_eq; omega)).trans
        (Block.column_of_square hcolumns k.isLt)
  rw [h.sound.square_eq, hcolumns, h.sound_with.square_eq]
  exact hsquare

omit [Scalar α] in
theorem read_congr {β : Type} {xs ys : Array β} {i : Nat} (h : ys[i]? = xs[i]?) :
    Fault.read ys i = Fault.read xs i := by
  cases hx : xs[i]? with
  | none =>
    rw [Fault.read_of_le (Array.getElem?_eq_none_iff.1 hx),
      Fault.read_of_le (Array.getElem?_eq_none_iff.1 (h.trans hx))]
  | some x => rw [Fault.read_eq_ok_iff.2 hx, Fault.read_eq_ok_iff.2 (h.trans hx)]

theorem Twin.update_eq (h : f.Twin b) {slot : Nat} (hslot : slot < f.updates) :
    (f.withBuffers b).update slot = f.update slot := by
  have hcolumn : (f.withBuffers b).column (f.columns + slot) = f.column (f.columns + slot) := by
    rw [h.sound.column_eq, h.sound_with.column_eq]
    exact h.block_column_eq (by omega)
  have hpivot : Fault.read b.replaced slot = Fault.read f.replaced slot :=
    read_congr (h.replaced_eq slot hslot)
  rw [update, update, ← hcolumn, ← hpivot]

theorem Twin.factors_eq (h : f.Twin b) : (f.withBuffers b).factors = f.factors := by
  have hupdates : (List.range f.updates).mapM (f.withBuffers b).update =
      (List.range f.updates).mapM f.update :=
    mapM_congr fun slot hslot => h.update_eq (List.mem_range.1 hslot)
  rw [factors, factors, ← h.square_eq, ← hupdates]

theorem Twin.position_eq (h : f.Twin b) {row : Nat} (hrow : row < f.rows) :
    (f.withBuffers b).position row = f.position row := by
  have hread : Fault.read b.order.positionOf row = Fault.read f.order.positionOf row :=
    read_congr (h.positionOf_eq row hrow)
  rw [position, position, RowOrder.position, RowOrder.position, ← hread]

theorem Twin.locateRows_eq (h : f.Twin b) {entries : List (Nat × α)}
    (hlt : ∀ i ∈ entries.map Prod.fst, i < f.rows) :
    (f.withBuffers b).locateRows entries = f.locateRows entries := by
  refine mapM_congr fun e he => ?_
  obtain ⟨row, value⟩ := e
  dsimp only
  rw [h.position_eq (hlt row (List.mem_map_of_mem he))]

theorem Twin.slotTargets_eq (h : f.Twin b) : (f.withBuffers b).slotTargets = f.slotTargets := by
  refine mapM_congr fun slot hslot => ?_
  rw [h.position_eq (List.mem_range.1 hslot)]

theorem Twin.rowTargets_eq (h : f.Twin b) : (f.withBuffers b).rowTargets = f.rowTargets := by
  refine mapM_congr fun p _ => ?_
  rw [read_congr (h.rowAt_eq p p.isLt)]

/-- Of a vector that lists rows of the basis, only positions of such rows are looked up. -/
theorem Twin.gather_eq (h : f.Twin b) (hv : ∀ i ∈ v.indices, i < f.rows)
    (scratch : Vector α f.rows) : (f.withBuffers b).gather v scratch = f.gather v scratch := by
  cases hl : v.layout with
  | packed =>
    simp only [gather, hl]
    refine bind_congr_of_eq_ok fun entries hentries => ?_
    rw [h.locateRows_eq (IndexedVector.fst_of_entries hentries ▸ hv)]
  | scattered =>
    have htaken : (List.finRange f.rows).mapM (fun p : Fin f.rows => do
          let row ← Fault.read b.order.rowAt p
          return (p, row, ← Fault.read v.elements row)) =
        (List.finRange f.rows).mapM fun p : Fin f.rows => do
          let row ← Fault.read f.order.rowAt p
          return (p, row, ← Fault.read v.elements row) :=
      mapM_congr fun p _ => by rw [read_congr (h.rowAt_eq p p.isLt)]
    simp only [gather, hl]
    rw [← htaken]

/-! ## Solves -/

/-- The exchange of buffers is not seen by a solve, which leaves both as they were. -/
def SolvedAlike {β : Type} (f : Factorization α) (b : Buffers α)
    (r r' : β × Factorization α) : Prop :=
  r.2 = f ∧ r' = (r.1, f.withBuffers b)

section Solves

variable [LawfulZero α]

theorem Twin.ftran (h : f.Twin b) (hv : ∀ i ∈ v.indices, i < f.rows) :
    Alike (SolvedAlike f b) (f.ftran v) ((f.withBuffers b).ftran v) := by
  rw [h.sound.ftran_eq_bind, h.sound_with.ftran_eq_bind, h.factors_eq, h.slotTargets_eq,
    h.gather_eq hv]
  exact alike_bind_same fun _ _ => alike_bind_same fun _ _ => alike_bind_same fun _ _ =>
    alike_bind_same fun _ _ => alike_bind_same fun _ _ => .ok ⟨rfl, rfl⟩

theorem Twin.btran (h : f.Twin b) (hv : ∀ i ∈ v.indices, i < f.rows) :
    Alike (SolvedAlike f b) (f.btran v) ((f.withBuffers b).btran v) := by
  rw [h.sound.btran_eq_bind, h.sound_with.btran_eq_bind, h.factors_eq, h.rowTargets_eq,
    h.gather_eq hv]
  exact alike_bind_same fun _ _ => alike_bind_same fun _ _ => alike_bind_same fun _ _ =>
    alike_bind_same fun _ _ => alike_bind_same fun _ _ => .ok ⟨rfl, rfl⟩

omit [LawfulZero α] in
theorem Twin.ftranInPlace_eq (h : f.Twin b) :
    (f.withBuffers b).ftranInPlace v = f.ftranInPlace v := by
  rw [ftranInPlace, ftranInPlace, h.factors_eq]
  rfl

theorem Twin.ftranPair (h : f.Twin b) (hv : ∀ i ∈ v.indices, i < f.rows)
    (hw : ∀ i ∈ w.indices, i < f.rows) (inPlace : Bool) :
    Alike (fun r r' => r.2.2 = f ∧ r' = (r.1, r.2.1, f.withBuffers b))
      (f.ftranPair v w inPlace) ((f.withBuffers b).ftranPair v w inPlace) := by
  refine (h.ftran hv).bind fun r r' hr => ?_
  obtain ⟨v', g⟩ := r
  obtain ⟨rfl, rfl⟩ := hr
  cases inPlace with
  | true =>
    simp only [if_true, h.ftranInPlace_eq]
    exact alike_bind_same fun w' _ => .ok ⟨rfl, rfl⟩
  | false =>
    refine (h.ftran hw).bind fun s s' hs => ?_
    obtain ⟨w', g'⟩ := s
    obtain ⟨rfl, rfl⟩ := hs
    exact .ok ⟨rfl, rfl⟩

end Solves

/-! ## Calls that change the factorization -/

/-- The same but for what is left over in the buffers, with a basis of `n` rows. -/
def Mirrors (n : Nat) (f g : Factorization α) : Prop :=
  f.rows = n ∧ ∃ b, f.Twin b ∧ g = f.withBuffers b

theorem Twin.mirrors (h : f.Twin b) : f.Mirrors f.rows (f.withBuffers b) := ⟨rfl, b, h, rfl⟩

theorem Sound.elementCount_le (h : f.Sound) : f.elementCount ≤ f.block.size := by
  have hupdates := h.updates_le
  have hcolumns := h.columns_eq
  exact (Nat.mul_le_mul_left _ (by omega)).trans h.room

theorem Coherent.lt_size_replaced (h : f.Coherent) {slot : Nat} (hslot : slot < f.updates) :
    slot < f.replaced.size := by
  obtain ⟨p, hp⟩ := h.replaced_lt slot hslot
  exact (Array.getElem?_eq_some_iff.1 hp).1

theorem Twin.setChainCapacity (h : f.Twin b) (capacity : Nat) :
    Alike (Mirrors f.rows) (f.setChainCapacity capacity)
      ((f.withBuffers b).setChainCapacity capacity) := by
  refine alike_bind_same fun space hspace => ?_
  have hg : f.setChainCapacity capacity = .ok _ := bind_eq_ok_iff.2 ⟨space, hspace, rfl⟩
  have hg' : (f.withBuffers b).setChainCapacity capacity = .ok _ :=
    bind_eq_ok_iff.2 ⟨space, hspace, rfl⟩
  let config : Config α := { f.config with chainCapacity := max capacity f.updates }
  refine .ok ⟨rfl, (grow { f.withBuffers b with config := config } space).buffers, {
    sound := h.sound.setChainCapacity hg
    sound_with := h.sound_with.setChainCapacity hg'
    block_eq := fun slot hslot => ?_
    positionOf_eq := fun r hr => ?_
    rowAt_eq := fun p hp => ?_
    replaced_eq := fun slot hslot => ?_ }, rfl⟩
  · exact Block.getElem?_growTo_congr (hslot.trans_le h.sound.elementCount_le)
      (hslot.trans_le h.sound_with.elementCount_le) (h.block_eq slot hslot)
  · exact Block.getElem?_growTo_congr
      (hr.trans_le (h.sound.rows_le.trans_eq h.sound.size_positionOf.symm))
      (hr.trans_le (h.sound_with.rows_le.trans_eq h.sound_with.size_positionOf.symm))
      (h.positionOf_eq r hr)
  · exact Block.getElem?_growTo_congr
      (hp.trans_le (h.sound.rows_le.trans_eq h.sound.size_rowAt.symm))
      (hp.trans_le (h.sound_with.rows_le.trans_eq h.sound_with.size_rowAt.symm))
      (h.rowAt_eq p hp)
  · exact Block.getElem?_growTo_congr (h.sound.lt_size_replaced hslot)
      (h.sound_with.lt_size_replaced hslot) (h.replaced_eq slot hslot)

theorem Twin.newUpdate_eq (h : f.Twin b) {entries : List (Nat × α)}
    (hlt : ∀ i ∈ entries.map Prod.fst, i < f.rows) {slot : Nat} (hslot : slot < f.rows)
    (pivot : α) :
    (f.withBuffers b).newUpdate entries slot pivot = f.newUpdate entries slot pivot := by
  rw [newUpdate, newUpdate, h.locateRows_eq hlt, h.position_eq hslot]

omit [Scalar α] in
/-- Two blocks that agree up to a column, with the same values written to it. -/
theorem getElem?_setColumn_congr {n k : Nat} {values : Vector α n} {xs xs' ys ys' : Array α}
    (hx : Block.setColumn k values xs = .ok xs') (hy : Block.setColumn k values ys = .ok ys')
    {slot : Nat} (h : slot < k * n → ys[slot]? = xs[slot]?) (hslot : slot < k * n + n) :
    ys'[slot]? = xs'[slot]? := by
  by_cases hlt : slot < k * n
  · rw [Block.getElem?_setColumn_of_not hx (by omega),
      Block.getElem?_setColumn_of_not hy (by omega), h hlt]
  · obtain ⟨i, rfl⟩ := Nat.exists_eq_add_of_le (Nat.le_of_not_lt hlt)
    rw [Block.getElem?_setColumn hx (by omega), Block.getElem?_setColumn hy (by omega)]

/-- An update is appended to both. -/
theorem Twin.append (h : f.Twin b) (hvalid : f.status = .valid)
    (hroom : f.updates < f.config.chainCapacity) (u : Update α f.rows) :
    Alike (Mirrors f.rows) (f.append u) ((f.withBuffers b).append u) := by
  have hreplaced := h.sound.replaced_room u.pivot.pos
  have hreplaced' : f.config.chainCapacity ≤ b.replaced.size :=
    h.sound_with.replaced_room u.pivot.pos
  obtain ⟨block, hblock⟩ : ∃ block,
      Block.setColumn (f.rows + f.updates) u.column f.block = .ok block :=
    Block.setColumn_of_le (h.sound.column_le (by omega))
  obtain ⟨block', hblock'⟩ : ∃ block',
      Block.setColumn (f.rows + f.updates) u.column b.block = .ok block' :=
    Block.setColumn_of_le (h.sound_with.column_le (by simpa using hroom))
  have hg : f.append u = .ok _ :=
    h.sound.append_eq_ok_iff.2 ⟨block, hblock, hroom.trans_le hreplaced, rfl⟩
  have hg' : (f.withBuffers b).append u = .ok _ :=
    h.sound_with.append_eq_ok_iff.2 ⟨block', hblock', hroom.trans_le hreplaced', rfl⟩
  let buffers : Buffers α :=
    { b with block := block', replaced := b.replaced.setIfInBounds f.updates u.pivot }
  rw [hg, hg']
  refine .ok ⟨rfl, buffers, {
    sound := h.sound.append hvalid hroom hg
    sound_with := h.sound_with.append hvalid hroom hg'
    block_eq := fun slot hslot => ?_
    positionOf_eq := h.positionOf_eq
    rowAt_eq := h.rowAt_eq
    replaced_eq := fun slot hslot => ?_ }, rfl⟩
  · have hcount : f.elementCount = (f.rows + f.updates) * f.rows := by
      rw [elementCount, h.sound.columns_eq, Nat.mul_comm]
    refine getElem?_setColumn_congr hblock hblock' (fun hlt => h.block_eq slot (hcount ▸ hlt)) ?_
    have hslot : slot < f.rows * (f.columns + (f.updates + 1)) := hslot
    rwa [h.sound.columns_eq, ← Nat.add_assoc, Nat.mul_succ, Nat.mul_comm] at hslot
  · have hslot : slot < f.updates + 1 := hslot
    show (b.replaced.setIfInBounds f.updates u.pivot.val)[slot]? =
      (f.replaced.setIfInBounds f.updates u.pivot.val)[slot]?
    by_cases hlast : f.updates = slot
    · rw [← hlast, Array.getElem?_setIfInBounds_self_of_lt (hroom.trans_le hreplaced'),
        Array.getElem?_setIfInBounds_self_of_lt (hroom.trans_le hreplaced)]
    · rw [Array.getElem?_setIfInBounds_ne hlast, Array.getElem?_setIfInBounds_ne hlast,
        h.replaced_eq slot (by omega)]

/-- A replacement is refused for both, or appends the same update to both. -/
theorem Twin.replace (h : f.Twin b) (hv : ∀ i ∈ v.indices, i < f.rows) {slot : Nat}
    (hslot : slot < f.rows) (pivot : α) :
    Alike (Mirrors f.rows) (f.replace v slot pivot)
      ((f.withBuffers b).replace v slot pivot) := by
  refine alike_bind_same fun _ hvalid => ?_
  have hvalid := requireValid_eq_ok_iff.1 (liftFault_eq_ok_iff.1 hvalid)
  refine alike_guard fun hroom => alike_guard fun _ => alike_bind_same fun entries hentries => ?_
  have hfst := IndexedVector.fst_of_entries (liftFault_eq_ok_iff.1 hentries)
  rw [h.newUpdate_eq (hfst ▸ hv) hslot]
  exact alike_bind_same fun u _ => (h.append hvalid (Nat.lt_of_not_le hroom) u).liftFault

/-! ## Calls -/

/-- Replies that differ in what is left over in the buffers at most. -/
structure RepliesMirror (n : Nat) (r r' : Reply α) : Prop where
  mirrors : r.factorization.Mirrors n r'.factorization
  refusal_eq : r'.refusal = r.refusal
  code_eq : r'.code = r.code
  vectors_eq : r'.vectors = r.vectors

theorem Twin.settle (h : f.Twin b) {result result' : Except Failure (Factorization α)}
    (hr : Alike (Mirrors f.rows) result result') (events events' : Factorization α → List Event) :
    Alike (RepliesMirror f.rows) (Operation.settle f events result)
      (Operation.settle (f.withBuffers b) events' result') := by
  cases hr with
  | error failure =>
    cases failure with
    | refused reason => exact .ok ⟨h.mirrors, rfl, rfl, rfl⟩
    | fault cause => exact .error cause
  | ok hmirrors => exact .ok ⟨hmirrors, rfl, rfl, rfl⟩

theorem Twin.perform [LawfulZero α] (h : f.Twin b) {operation : Operation α}
    (ho : operation.Within f.rows) :
    Alike (RepliesMirror f.rows) (operation.perform f) (operation.perform (f.withBuffers b)) := by
  cases operation with
  | setChainCapacity capacity => exact h.settle (h.setChainCapacity capacity).liftRefusal _ _
  | replace v slot pivot =>
    obtain ⟨hv, hslot⟩ := ho
    refine (h.settle (h.replace hv hslot pivot) _ _).bind fun r r' hr => .ok ?_
    exact ⟨hr.mirrors, hr.refusal_eq, by simp [hr.refusal_eq], hr.vectors_eq⟩
  | ftran v =>
    refine (h.ftran ho).bind fun r r' hr => .ok ?_
    obtain ⟨rfl, rfl⟩ := hr
    exact ⟨h.mirrors, rfl, rfl, rfl⟩
  | ftranInPlace v =>
    rw [Operation.perform, Operation.perform, h.ftranInPlace_eq]
    exact alike_bind_same fun w _ => .ok ⟨h.mirrors, rfl, rfl, rfl⟩
  | ftranPair v w inPlace =>
    refine (h.ftranPair ho.1 ho.2 inPlace).bind fun r r' hr => .ok ?_
    obtain ⟨rfl, rfl⟩ := hr
    exact ⟨h.mirrors, rfl, rfl, rfl⟩
  | btran v =>
    refine (h.btran ho).bind fun r r' hr => .ok ?_
    obtain ⟨rfl, rfl⟩ := hr
    exact ⟨h.mirrors, rfl, rfl, rfl⟩
  | _ => exact ho.elim

theorem Mirrors.view_eq {n : Nat} (h : f.Mirrors n g) : g.view = f.view := by
  obtain ⟨-, b, htwin, rfl⟩ := h
  exact htwin.view_eq

/-- Call after call is answered alike. -/
theorem Mirrors.answers_eq [LawfulZero α] {n : Nat} :
    ∀ {operations : List (Operation α)} {f g : Factorization α}, f.Mirrors n g →
      (∀ operation ∈ operations, operation.Within n) → g.answers operations = f.answers operations
  | [], _, _, _, _ => rfl
  | operation :: operations, f, g, h, ho => by
    obtain ⟨rfl, b, htwin, rfl⟩ := h
    have hperform := htwin.perform (ho operation List.mem_cons_self)
    rw [answers, answers]
    generalize operation.perform f = x, operation.perform (f.withBuffers b) = y at hperform
    cases hperform with
    | error fault => rfl
    | ok hr =>
      have hrest := hr.mirrors.answers_eq fun o h => ho o (List.mem_cons_of_mem _ h)
      simp only [hr.refusal_eq, hr.code_eq, hr.vectors_eq, hr.mirrors.view_eq, hrest]

/-! ## Factoring -/

/-- What factoring a square of `n` rows makes of a factorization. -/
structure Eliminated {n : Nat} (f : Factorization α) (config : Config α) (σ : Equiv.Perm (Fin n))
    (e : Elimination α n) : Prop where
  sound : f.Sound
  stored : f.Stores σ ⟨e.columns, []⟩
  config_eq : f.config = config
  status_eq : f.status = if e.good = n then .valid else .singular
  goodColumns_eq : f.goodColumns = e.good

theorem Sound.exists_factor_of_square {n : Nat} (h : f.Sound) (hrows : f.rows = n)
    {columns : Square α n} (hsquare : Block.square n f.block = .ok columns) {config : Config α}
    (hconfig : f.config = config) {σ : Equiv.Perm (Fin n)}
    (hσ : ∀ p, (eliminate config.zeroTolerance columns).rowAt.get p = σ.symm p) :
    ∃ f', f.factor = .ok (f', f'.singularity?) ∧
      f'.Eliminated config σ (eliminate config.zeroTolerance columns) := by
  subst hrows hconfig
  obtain ⟨f', hinstall⟩ := h.exists_install (eliminate f.config.zeroTolerance columns)
  have hfactor : f.factor = .ok (f', f'.singularity?) :=
    h.factor_eq_ok_iff.2 ⟨columns, hsquare, hinstall, rfl⟩
  obtain ⟨hgood, hstatus, -⟩ := status_of_install hinstall
  exact ⟨f', hfactor, h.factor hfactor, Stores.of_install hσ hinstall,
    (h.keeps_of_factor hfactor).config_eq, hstatus, hgood⟩

/-- What is refused of the factors is that elimination ended early. -/
theorem Eliminated.singularity?_eq {n : Nat} {config : Config α} {σ : Equiv.Perm (Fin n)}
    {e : Elimination α n} (h : f.Eliminated config σ e) :
    f.singularity? = if e.good = n then none else some (.singular e.good n) := by
  rw [singularity?, h.status_eq, h.goodColumns_eq, h.stored.rows_eq]
  split <;> simp

/-- The same factors, whatever else the buffers hold. -/
theorem Eliminated.mirrors {n : Nat} {config : Config α} {σ : Equiv.Perm (Fin n)}
    {e : Elimination α n} (hf : f.Eliminated config σ e) (hg : g.Eliminated config σ e) :
    f.Mirrors n g := by
  have hupdates : f.updates = 0 := hf.stored.length_eq.symm
  have hrows : g.rows = f.rows := hg.stored.rows_eq.trans hf.stored.rows_eq.symm
  have hcolumns : g.columns = f.columns :=
    hg.sound.columns_eq.trans (hrows.trans hf.sound.columns_eq.symm)
  have heq : g = f.withBuffers g.buffers := by
    simp only [withBuffers, buffers, ← hrows, ← hcolumns,
      hf.config_eq.trans hg.config_eq.symm, hf.status_eq.trans hg.status_eq.symm,
      hf.goodColumns_eq.trans hg.goodColumns_eq.symm,
      show f.stride = g.stride from hf.sound.stride_eq.trans (hrows.symm.trans
        hg.sound.stride_eq.symm),
      show f.updates = g.updates from hf.stored.length_eq.symm.trans hg.stored.length_eq]
  refine ⟨hf.stored.rows_eq, g.buffers, {
    sound := hf.sound
    sound_with := heq ▸ hg.sound
    block_eq := fun slot hslot => ?_
    positionOf_eq := fun r hr => ?_
    rowAt_eq := fun p hp => ?_
    replaced_eq := fun slot hslot => absurd hslot (by omega) }, heq⟩
  · rw [elementCount, hupdates, Nat.add_zero, hf.sound.columns_eq, hf.stored.rows_eq] at hslot
    obtain ⟨k, i, rfl⟩ := Block.exists_eq_slot hslot
    rw [Block.getElem?_of_column (Block.column_of_square hf.stored.columns k.isLt) i.isLt]
    exact Block.getElem?_of_column (Block.column_of_square hg.stored.columns k.isLt) i.isLt
  · rw [hf.stored.rows_eq] at hr
    exact (hg.stored.orders.positionOf ⟨r, hr⟩).trans (hf.stored.orders.positionOf ⟨r, hr⟩).symm
  · rw [hf.stored.rows_eq] at hp
    exact (hg.stored.orders.rowAt ⟨p, hp⟩).trans (hf.stored.orders.rowAt ⟨p, hp⟩).symm

/-- Two factorizations with the same parameters that hold the same square are the same to see after
they are factored. -/
theorem exists_factor_mirrors {n : Nat} (hf : f.Sound) (hg : g.Sound) (hfrows : f.rows = n)
    (hgrows : g.rows = n) (hconfig : g.config = f.config) {columns : Square α n}
    (hfsquare : Block.square n f.block = .ok columns)
    (hgsquare : Block.square n g.block = .ok columns) :
    ∃ f' g' refusal, f.factor = .ok (f', refusal) ∧ g.factor = .ok (g', refusal) ∧
      f'.Mirrors n g' := by
  obtain ⟨σ, hσ⟩ := exists_perm_eliminate f.config.zeroTolerance columns
  obtain ⟨f', hf', helimf⟩ := hf.exists_factor_of_square hfrows hfsquare rfl hσ
  obtain ⟨g', hg', helimg⟩ := hg.exists_factor_of_square hgrows hgsquare hconfig hσ
  have hrefusal : g'.singularity? = f'.singularity? := by
    rw [singularity?, singularity?, helimg.status_eq, helimf.status_eq, helimg.goodColumns_eq,
      helimf.goodColumns_eq, helimg.stored.rows_eq, helimf.stored.rows_eq]
  exact ⟨f', g', _, hf', hrefusal ▸ hg', helimf.mirrors helimg⟩

/-! ## A new basis -/

theorem load_of_spaceFor_eq_error {n : Nat} {reason : Refusal}
    (h : spaceFor α n f.config.chainCapacity = .error reason) (a : Fin n → Fin n → α) :
    f.load a = .error (.refused reason) := by
  rw [load, dif_pos rfl, resize, if_neg (not_not.2 rfl), h]
  rfl

theorem Sound.exists_load (h : f.Sound) {n space : Nat}
    (hspace : spaceFor α n f.config.chainCapacity = .ok space) (a : Fin n → Fin n → α) :
    ∃ g, f.load a = .ok g := by
  have hsized : f.resize n n = .ok _ := resize_eq_ok_iff.2 ⟨rfl, space, hspace, rfl⟩
  have hroom := (h.resize hsized).square_le
  obtain ⟨block, hblock⟩ : ∃ block, Block.setSquare
      (Vector.ofFn fun k => Vector.ofFn fun i => a i k) ((f.reshape n n).grow space).block =
        .ok block :=
    Block.setSquare_of_le (by simpa [grow] using hroom)
  exact ⟨_, load_eq_ok_iff.2 ⟨rfl, _, block, hsized, hblock, rfl⟩⟩

/-- A basis is refused for what the parameters are, not for what is held. -/
theorem refused_or_exists_load (hf : f.Sound) (hg : g.Sound) (hconfig : g.config = f.config)
    {rows columns : Nat} (a : Fin rows → Fin columns → α) :
    (∃ reason, f.load a = .error (.refused reason) ∧ g.load a = .error (.refused reason)) ∨
      rows = columns ∧ ∃ f' g', f.load a = .ok f' ∧ g.load a = .ok g' := by
  by_cases hsquare : rows = columns
  · subst hsquare
    cases hspace : spaceFor α rows f.config.chainCapacity with
    | error reason =>
      exact .inl ⟨reason, load_of_spaceFor_eq_error hspace a,
        load_of_spaceFor_eq_error (hconfig ▸ hspace) a⟩
    | ok space =>
      obtain ⟨f', hf'⟩ := hf.exists_load hspace a
      obtain ⟨g', hg'⟩ := hg.exists_load (hconfig ▸ hspace) a
      exact .inr ⟨rfl, f', g', hf', hg'⟩
  · exact .inl ⟨.notSquare rows columns, dif_neg hsquare, dif_neg hsquare⟩

/-- Whatever a factorization held, once a new basis is loaded and factored it is the same to see as
one made for that basis with the same parameters, and all calls on the rows of the basis are
answered alike. -/
theorem answers_eq_of_load [LawfulScalar α] {start : Factorization α} (hnew : start.New)
    (hreach : Reaches start f) {rows columns : Nat} (a : Fin rows → Fin columns → α) :
    ∃ fresh, make f.config = .ok fresh ∧
      ((∃ reason, f.load a = .error (.refused reason) ∧
        fresh.load a = .error (.refused reason)) ∨
      ∃ f₁ g₁ f₂ g₂ refusal, f.load a = .ok f₁ ∧ fresh.load a = .ok g₁ ∧
        f₁.factor = .ok (f₂, refusal) ∧ g₁.factor = .ok (g₂, refusal) ∧ f₂.view = g₂.view ∧
        ∀ operations : List (Operation α), (∀ operation ∈ operations, operation.Within rows) →
          f₂.answers operations = g₂.answers operations) := by
  have hf := invariant_of_reaches hnew hreach
  have hfresh : make f.config = .ok (ofConfig f.config) := by
    rw [make, hf.check]
    rfl
  refine ⟨_, hfresh, ?_⟩
  have hg := sound_ofConfig f.config
  rcases refused_or_exists_load hf.toSound hg rfl a with hrefused | ⟨rfl, f₁, g₁, hf₁, hg₁⟩
  · exact .inl hrefused
  · obtain ⟨hfrows, hfconfig, hfsquare⟩ := square_of_load hf₁
    obtain ⟨hgrows, hgconfig, hgsquare⟩ := square_of_load hg₁
    obtain ⟨f₂, g₂, refusal, hf₂, hg₂, hmirrors⟩ := exists_factor_mirrors (hf.toSound.load hf₁)
      (hg.load hg₁) hfrows hgrows (hgconfig.trans hfconfig.symm) hfsquare hgsquare
    exact .inr ⟨f₁, g₁, f₂, g₂, refusal, hf₁, hg₁, hf₂, hg₂, hmirrors.view_eq.symm,
      fun _ ho => (hmirrors.answers_eq ho).symm⟩

/-- Calls on a basis of two rows: an update, solves in both layouts, and room for more updates. -/
def further : List (Operation Float) :=
  [.replace ⟨#[0.5, 0], [1], .packed⟩ 1 0.5, .ftran ⟨#[1, 2, 0], [0, 1], .scattered⟩,
    .setChainCapacity 4, .btran ⟨#[0.1, 0], [1], .packed⟩]

theorem answers_eq_of_load_shrunk : ∃ f f₁ f₂ fresh g₁ g₂ : Factorization Float,
    initial.run shrinking = .ok f ∧ f.mostRows = 3 ∧ make f.config = .ok fresh ∧
      f.load ![![1, 2], ![3, 1]] = .ok f₁ ∧ fresh.load ![![1, 2], ![3, 1]] = .ok g₁ ∧
      f₁.factor = .ok (f₂, none) ∧ g₁.factor = .ok (g₂, none) ∧ f₂.view = g₂.view ∧
      f₂.answers further = g₂.answers further := by
  have hrun : Except.isOk (do
      let f ← initial.run shrinking
      if f.mostRows ≠ 3 then throw .outOfRange
      let f₁ ← (f.load ![![1, 2], ![3, 1]]).mapError fun _ => .outOfRange
      let (f₂, refusal) ← f₁.factor
      if refusal.isSome then throw .outOfRange
      return f₂ : Except Fault (Factorization Float)) = true := by
    decide +kernel
  obtain ⟨_, hrun⟩ := exists_eq_ok_of_isOk hrun
  simp only [bind_eq_ok_iff, guard_eq_ok_iff, pure_eq_ok_iff, not_not] at hrun
  obtain ⟨f, hf, hmost, f₁, hf₁, ⟨f₂, refusal⟩, hf₂, hnone, -⟩ := hrun
  obtain ⟨fresh, hfresh, ⟨reason, hrefused, -⟩ | ⟨h₁, g₁, h₂, g₂, _, hh₁, hg₁, hh₂, hg₂, hview,
    hanswers⟩⟩ := answers_eq_of_load .initial (reaches_of_run hf) ![![1, 2], ![3, 1]]
  · rw [hrefused] at hf₁
    cases hf₁
  · rw [hh₁] at hf₁
    cases hf₁
    cases hh₂.symm.trans hf₂
    cases refusal with
    | some reason => exact absurd rfl hnone
    | none =>
      refine ⟨f, _, _, fresh, g₁, g₂, hf, hmost, hfresh, hh₁, hg₁, hf₂, hg₂, hview,
        hanswers _ ?_⟩
      simp [further, Operation.Within]

end Factorization

end BasisLU
