import BasisLU.Proofs.Factorization.Stored
import BasisLU.Proofs.Factorization.Reachable
import BasisLU.Proofs.Factorization.Staged

/-!
# The same basis with other room

Buffers are filled up with zeros where they are grown. Two arrays are the same but for their ends if
they are so filled up (`SamePadded`), and what is read in both, or written to both, is the same.

Two factorizations stand `Beside` each other if they differ in the capacity of the chain, and in the
ends of the buffers it takes. A call that neither faults nor is refused to only one of them leaves
them so (`Beside.perform`), and a solve does not tell them apart (`Beside.solves`).
-/

namespace BasisLU

/-! ## Arrays that are filled up -/

/-- The arrays hold the same at every place, if `fill` is what is past their ends. -/
def SamePadded {β : Type} (fill : β) (xs ys : Array β) : Prop :=
  ∀ i : Nat, ys[i]?.getD fill = xs[i]?.getD fill

section SamePadded

variable {β : Type} {fill : β} {xs ys xs' ys' : Array β}

theorem samePadded_growTo (size : Nat) : SamePadded fill xs (Block.growTo size fill xs) := by
  intro i
  rcases Nat.lt_or_ge i xs.size with hi | hi
  · rw [Block.getElem?_growTo hi]
  · rw [Block.growTo, Array.getElem?_append_right hi, Array.getElem?_eq_none hi,
      Array.getElem?_replicate]
    split <;> rfl

theorem SamePadded.growTo (h : SamePadded fill xs ys) (size size' : Nat) :
    SamePadded fill (Block.growTo size fill xs) (Block.growTo size' fill ys) := fun i =>
  (samePadded_growTo size' i).trans ((h i).trans (samePadded_growTo size i).symm)

/-- What both have a place for. -/
theorem SamePadded.getElem?_eq (h : SamePadded fill xs ys) {i : Nat} (hx : i < xs.size)
    (hy : i < ys.size) : ys[i]? = xs[i]? := by
  have hi := h i
  rw [Array.getElem?_eq_getElem hx, Array.getElem?_eq_getElem hy] at hi ⊢
  exact congrArg some hi

/-- The same is written, or nothing. -/
theorem SamePadded.write (h : SamePadded fill xs ys)
    (hw : ∀ i : Nat, ys'[i]? = xs'[i]? ∨ xs'[i]? = xs[i]? ∧ ys'[i]? = ys[i]?) :
    SamePadded fill xs' ys' := by
  intro i
  rcases hw i with heq | ⟨hx, hy⟩
  · rw [heq]
  · rw [hx, hy]
    exact h i

theorem SamePadded.setIfInBounds (h : SamePadded fill xs ys) {i : Nat} (hx : i < xs.size)
    (hy : i < ys.size) (value : β) :
    SamePadded fill (xs.setIfInBounds i value) (ys.setIfInBounds i value) := by
  refine h.write fun j => ?_
  by_cases hj : i = j
  · subst hj
    rw [Array.getElem?_setIfInBounds_self_of_lt hx, Array.getElem?_setIfInBounds_self_of_lt hy]
    exact .inl rfl
  · exact .inr ⟨Array.getElem?_setIfInBounds_ne hj, Array.getElem?_setIfInBounds_ne hj⟩

theorem SamePadded.eq_of_read (h : SamePadded fill xs ys) {i : Nat} {x y : β}
    (hx : Fault.read xs i = .ok x) (hy : Fault.read ys i = .ok y) : y = x := by
  rw [Fault.read_eq_ok_iff] at hx hy
  have hi := h.getElem?_eq (Array.getElem?_eq_some_iff.1 hx).1 (Array.getElem?_eq_some_iff.1 hy).1
  rw [hx, hy] at hi
  exact Option.some.inj hi

variable {n : Nat}

theorem SamePadded.eq_of_column (h : SamePadded fill xs ys) {k : Nat} {c d : Vector β n}
    (hc : Block.column n k xs = .ok c) (hd : Block.column n k ys = .ok d) : d = c := by
  ext i hi
  have hx := Block.slot_lt (Block.le_of_column hc) hi
  have hy := Block.slot_lt (Block.le_of_column hd) hi
  have hslot := h.getElem?_eq hx hy
  rw [Block.getElem?_of_column hc hi, Block.getElem?_of_column hd hi] at hslot
  exact Option.some.inj hslot

theorem SamePadded.eq_of_square (h : SamePadded fill xs ys) {A B : Square β n}
    (hA : Block.square n xs = .ok A) (hB : Block.square n ys = .ok B) : B = A := by
  ext1 k hk
  exact h.eq_of_column (Block.column_of_square hA hk) (Block.column_of_square hB hk)

theorem SamePadded.setColumn (h : SamePadded fill xs ys) {k : Nat} {values : Vector β n}
    (hx : Block.setColumn k values xs = .ok xs') (hy : Block.setColumn k values ys = .ok ys') :
    SamePadded fill xs' ys' := by
  refine h.write fun place => ?_
  by_cases hplace : k * n ≤ place ∧ place < k * n + n
  · obtain ⟨i, rfl⟩ := Nat.exists_eq_add_of_le hplace.1
    have hi : i < n := by omega
    rw [Block.getElem?_setColumn hx hi, Block.getElem?_setColumn hy hi]
    exact .inl rfl
  · exact .inr ⟨Block.getElem?_setColumn_of_not hx hplace,
      Block.getElem?_setColumn_of_not hy hplace⟩

theorem SamePadded.setSquare (h : SamePadded fill xs ys) {columns : Square β n}
    (hx : Block.setSquare columns xs = .ok xs') (hy : Block.setSquare columns ys = .ok ys') :
    SamePadded fill xs' ys' := by
  refine h.write fun place => ?_
  by_cases hplace : place < n * n
  · obtain ⟨k, i, rfl⟩ := Block.exists_eq_slot hplace
    rw [Block.getElem?_of_column (Block.column_setSquare hx k.isLt) i.isLt,
      Block.getElem?_of_column (Block.column_setSquare hy k.isLt) i.isLt]
    exact .inl rfl
  · have hplace := Nat.le_of_not_lt hplace
    exact .inr ⟨Block.getElem?_setSquare_of_le hx hplace,
      Block.getElem?_setSquare_of_le hy hplace⟩

/-- The same values at the front. -/
theorem SamePadded.front (h : SamePadded fill xs ys) {values : Array β}
    (hx : values.size ≤ xs.size) (hy : values.size ≤ ys.size) :
    SamePadded fill (xs.mapIdx fun place x => if h : place < values.size then values[place] else x)
      (ys.mapIdx fun place x => if h : place < values.size then values[place] else x) := by
  refine h.write fun place => ?_
  simp only [Array.getElem?_mapIdx]
  by_cases hplace : place < values.size
  · rw [Array.getElem?_eq_getElem (hplace.trans_le hx),
      Array.getElem?_eq_getElem (hplace.trans_le hy)]
    simp [hplace]
  · simp [hplace]

end SamePadded

variable {α : Type} [Scalar α]

section Expanding

open Factorization

variable {n : Nat} {staged : Staged} {xs ys xs' ys' : Array α}

theorem SamePadded.eq_of_stagedEntries (h : SamePadded 0 xs ys) {start stop : Nat}
    {entries entries' : List (Fin n × α)}
    (hx : stagedEntries n staged xs start stop = .ok entries)
    (hy : stagedEntries n staged ys start stop = .ok entries') : entries' = entries := by
  refine eq_of_mapM hx hy fun place _ e e' he he' => ?_
  simp only [bind_eq_ok_iff, pure_eq_ok_iff] at he he'
  obtain ⟨row, hrow, r, hr, x, hx, rfl⟩ := he
  obtain ⟨row', hrow', r', hr', x', hx', rfl⟩ := he'
  cases hrow.symm.trans hrow'
  cases hr.symm.trans hr'
  rw [h.eq_of_read hx hx']

theorem SamePadded.expandColumn (h : SamePadded 0 xs ys) {i : Nat}
    (hx : Factorization.expandColumn n staged xs i = .ok xs')
    (hy : Factorization.expandColumn n staged ys i = .ok ys') : SamePadded 0 xs' ys' := by
  simp only [Factorization.expandColumn, bind_eq_ok_iff, guard_eq_ok_iff] at hx hy
  obtain ⟨start, hstart, stop, hstop, -, entries, hentries, hx⟩ := hx
  obtain ⟨start', hstart', stop', hstop', -, entries', hentries', hy⟩ := hy
  cases hstart.symm.trans hstart'
  cases hstop.symm.trans hstop'
  cases h.eq_of_stagedEntries hentries hentries'
  exact h.setColumn hx hy

theorem SamePadded.expandColumns : ∀ {l : List Nat} {xs ys : Array α}, SamePadded 0 xs ys →
    l.foldlM (Factorization.expandColumn n staged) xs = .ok xs' →
      l.foldlM (Factorization.expandColumn n staged) ys = .ok ys' → SamePadded 0 xs' ys'
  | [], _, _, h, hx, hy => by
    cases hx
    cases hy
    exact h
  | i :: l, _, _, h, hx, hy => by
    rw [List.foldlM_cons, bind_eq_ok_iff] at hx hy
    obtain ⟨_, hx, hxs⟩ := hx
    obtain ⟨_, hy, hys⟩ := hy
    exact (h.expandColumn hx hy).expandColumns hxs hys

end Expanding

namespace Factorization

variable {f g : Factorization α}

/-! ## Factorizations with other room -/

/-- The same but for the capacity of the chain, and for zeros at the ends of the block and of the
positions of updates. -/
structure Beside (f g : Factorization α) : Prop where
  eq : g = { f with
    config := { f.config with chainCapacity := g.config.chainCapacity }
    block := g.block
    replaced := g.replaced }
  block : SamePadded 0 f.block g.block
  replaced : SamePadded 0 f.replaced g.replaced

/-- Other room for a factorization. -/
abbrev withRoom (f : Factorization α) (capacity : Nat) (block : Array α) (replaced : Array Nat) :
    Factorization α :=
  { f with
    config := { f.config with chainCapacity := capacity }
    block := block
    replaced := replaced }

theorem Beside.exists_room (h : f.Beside g) : ∃ capacity block replaced,
    g = f.withRoom capacity block replaced ∧ SamePadded 0 f.block block ∧
      SamePadded 0 f.replaced replaced := ⟨_, _, _, h.eq, h.block, h.replaced⟩

theorem Beside.grow (h : f.Beside g) (space space' : Nat) :
    (f.grow space).Beside (g.grow space') := by
  obtain ⟨capacity, block, replaced, rfl, hblock, hreplaced⟩ := h.exists_room
  exact ⟨rfl, hblock.growTo _ _, hreplaced.growTo _ _⟩

theorem Beside.withCapacity (h : f.Beside g) (capacity capacity' : Nat) :
    Beside { f with config := { f.config with chainCapacity := capacity } }
      { g with config := { g.config with chainCapacity := capacity' } } := by
  obtain ⟨_, block, replaced, rfl, hblock, hreplaced⟩ := h.exists_room
  exact ⟨rfl, hblock, hreplaced⟩

theorem Beside.withBlock (h : f.Beside g) {block block' : Array α}
    (hblock : SamePadded 0 block block') :
    Beside { f with block := block } { g with block := block' } := by
  obtain ⟨_, _, replaced, rfl, -, hreplaced⟩ := h.exists_room
  exact ⟨rfl, hblock, hreplaced⟩

theorem Beside.reshape (h : f.Beside g) (rows columns : Nat) :
    (f.reshape rows columns).Beside (g.reshape rows columns) := by
  obtain ⟨capacity, block, replaced, rfl, hblock, hreplaced⟩ := h.exists_room
  by_cases hsame : rows = f.rows ∧ columns = f.columns
  · rw [Factorization.reshape, Factorization.reshape, if_pos hsame, if_pos hsame]
    exact ⟨rfl, hblock, hreplaced⟩
  · rw [Factorization.reshape, Factorization.reshape, if_neg hsame, if_neg hsame]
    exact ⟨rfl, hblock, hreplaced⟩

/-! ## Calls -/

variable {f' g' : Factorization α}

theorem Beside.resize (h : f.Beside g) {rows columns : Nat}
    (hf : f.resize rows columns = .ok f') (hg : g.resize rows columns = .ok g') :
    f'.Beside g' := by
  obtain ⟨rfl, space, -, rfl⟩ := resize_eq_ok_iff.1 hf
  obtain ⟨-, space', -, rfl⟩ := resize_eq_ok_iff.1 hg
  exact (h.reshape rows rows).grow space space'

theorem Beside.load (h : f.Beside g) {rows columns : Nat} {a : Fin rows → Fin columns → α}
    (hf : f.load a = .ok f') (hg : g.load a = .ok g') : f'.Beside g' := by
  obtain ⟨rfl, sized, block, hsized, hblock, rfl⟩ := load_eq_ok_iff.1 hf
  obtain ⟨_, sized', block', hsized', hblock', rfl⟩ := load_eq_ok_iff.1 hg
  have hsame := h.resize hsized hsized'
  exact hsame.withBlock (hsame.block.setSquare hblock hblock')

theorem Beside.stage (h : f.Beside g) {starts rows : Array Nat} {values : Array α}
    (hf : f.stage starts rows values = .ok f') (hg : g.stage starts rows values = .ok g') :
    f'.Beside g' := by
  obtain ⟨_, _, _, rfl, hblock, hreplaced⟩ := h.exists_room
  obtain ⟨-, -, -, -, hx, rfl⟩ := stage_eq_ok_iff.1 hf
  obtain ⟨-, -, -, -, hy, rfl⟩ := stage_eq_ok_iff.1 hg
  exact ⟨rfl, hblock.front hx hy, hreplaced⟩

theorem Beside.expand (h : f.Beside g) (hfs : f.Sound) (hgs : g.Sound) (hf : f.expand = .ok f')
    (hg : g.expand = .ok g') : f'.Beside g' := by
  obtain ⟨_, _, _, rfl, hblock, hreplaced⟩ := h.exists_room
  obtain ⟨-, block, hx, rfl⟩ := hfs.expand_eq_ok_iff.1 hf
  obtain ⟨-, block', hy, rfl⟩ := hgs.expand_eq_ok_iff.1 hg
  exact ⟨rfl, hblock.expandColumns hx hy, hreplaced⟩

/-- The same square is eliminated. -/
theorem Beside.factor (h : f.Beside g) (hfs : f.Sound) (hgs : g.Sound)
    {refusal refusal' : Option Refusal} (hf : f.factor = .ok (f', refusal))
    (hg : g.factor = .ok (g', refusal')) : f'.Beside g' := by
  obtain ⟨_, _, _, rfl, hblock, hreplaced⟩ := h.exists_room
  obtain ⟨columns, hcolumns, hinstall, -⟩ := hfs.factor_eq_ok_iff.1 hf
  obtain ⟨columns', hcolumns', hinstall', -⟩ := hgs.factor_eq_ok_iff.1 hg
  cases hblock.eq_of_square hcolumns hcolumns'
  obtain ⟨block, order, hx, horder, rfl⟩ := install_eq_ok_iff.1 hinstall
  obtain ⟨block', order', hy, horder', rfl⟩ := install_eq_ok_iff.1 hinstall'
  cases horder.symm.trans horder'
  exact ⟨rfl, hblock.setSquare hx hy, hreplaced⟩

/-- The same update is appended. -/
theorem Beside.replace (h : f.Beside g) (hfs : f.Sound) (hgs : g.Sound) {v : IndexedVector α}
    {row : Nat} {pivot : α} (hf : f.replace v row pivot = .ok f')
    (hg : g.replace v row pivot = .ok g') : f'.Beside g' := by
  obtain ⟨_, _, _, rfl, hblock, hreplaced⟩ := h.exists_room
  obtain ⟨-, -, -, entries, update, hentries, hupdate, happend⟩ := replace_eq_ok_iff.1 hf
  obtain ⟨-, -, -, entries', update', hentries', hupdate', happend'⟩ := replace_eq_ok_iff.1 hg
  cases hentries.symm.trans hentries'
  cases hupdate.symm.trans hupdate'
  obtain ⟨block, hx, hroom, rfl⟩ := hfs.append_eq_ok_iff.1 happend
  obtain ⟨block', hy, hroom', rfl⟩ := hgs.append_eq_ok_iff.1 happend'
  exact ⟨rfl, hblock.setColumn hx hy, hreplaced.setIfInBounds hroom hroom' _⟩

/-- A call that is refused to both changes neither. -/
theorem Beside.settle (h : f.Beside g) {events events' : Factorization α → List Event}
    {result result' : Except Failure (Factorization α)} {r r' : Reply α}
    (hok : ∀ {f' g'}, result = .ok f' → result' = .ok g' → f'.Beside g')
    (hf : Operation.settle f events result = .ok r)
    (hg : Operation.settle g events' result' = .ok r')
    (hrefusal : r'.refusal.isSome = r.refusal.isSome) : r.factorization.Beside r'.factorization := by
  cases result with
  | ok a =>
    cases hf
    cases result' with
    | ok b =>
      cases hg
      exact hok rfl rfl
    | error failure =>
      cases failure <;> cases hg
      cases hrefusal
  | error failure =>
    cases failure <;> cases hf
    cases result' with
    | ok b =>
      cases hg
      cases hrefusal
    | error failure =>
      cases failure <;> cases hg
      exact h

/-- A call that neither faults nor is refused to only one of the two leaves them beside each
other. -/
theorem Beside.perform (h : f.Beside g) (hfs : f.Sound) (hgs : g.Sound)
    {operation : Operation α} {r r' : Reply α} (hf : operation.perform f = .ok r)
    (hg : operation.perform g = .ok r') (hrefusal : r'.refusal.isSome = r.refusal.isSome) :
    r.factorization.Beside r'.factorization := by
  cases operation with
  | resize rows columns =>
    exact h.settle (fun hf hg => h.resize (liftRefusal_eq_ok_iff.1 hf)
      (liftRefusal_eq_ok_iff.1 hg)) hf hg hrefusal
  | setChainCapacity capacity =>
    refine h.settle (fun hf hg => ?_) hf hg hrefusal
    obtain ⟨space, -, rfl⟩ := setChainCapacity_eq_ok_iff.1 (liftRefusal_eq_ok_iff.1 hf)
    obtain ⟨space', -, rfl⟩ := setChainCapacity_eq_ok_iff.1 (liftRefusal_eq_ok_iff.1 hg)
    exact (h.withCapacity _ _).grow space space'
  | setZeroTolerance value =>
    refine h.settle (fun hf hg => ?_) hf hg hrefusal
    obtain ⟨_, _, _, rfl, hblock, hreplaced⟩ := h.exists_room
    obtain ⟨-, rfl⟩ := setZeroTolerance_eq_ok_iff.1 (liftRefusal_eq_ok_iff.1 hf)
    obtain ⟨-, rfl⟩ := setZeroTolerance_eq_ok_iff.1 (liftRefusal_eq_ok_iff.1 hg)
    exact ⟨rfl, hblock, hreplaced⟩
  | setPivotTolerance value =>
    refine h.settle (fun hf hg => ?_) hf hg hrefusal
    obtain ⟨_, _, _, rfl, hblock, hreplaced⟩ := h.exists_room
    obtain ⟨-, rfl⟩ := setPivotTolerance_eq_ok_iff.1 (liftRefusal_eq_ok_iff.1 hf)
    obtain ⟨-, rfl⟩ := setPivotTolerance_eq_ok_iff.1 (liftRefusal_eq_ok_iff.1 hg)
    exact ⟨rfl, hblock, hreplaced⟩
  | setSlack value =>
    cases hf
    cases hg
    obtain ⟨_, _, _, rfl, hblock, hreplaced⟩ := h.exists_room
    exact ⟨rfl, hblock, hreplaced⟩
  | load a => exact h.settle h.load hf hg hrefusal
  | loadColumn column values =>
    refine h.settle (fun hf hg => ?_) hf hg hrefusal
    obtain ⟨_, _, _, rfl, hblock, hreplaced⟩ := h.exists_room
    obtain ⟨-, _, block, hx, rfl⟩ := hfs.loadColumn_eq_ok_iff.1 hf
    obtain ⟨-, _, block', hy, rfl⟩ := hgs.loadColumn_eq_ok_iff.1 hg
    exact ⟨rfl, hblock.setColumn hx hy, hreplaced⟩
  | loadSlack column row =>
    refine h.settle (fun hf hg => ?_) hf hg hrefusal
    obtain ⟨_, _, _, rfl, hblock, hreplaced⟩ := h.exists_room
    obtain ⟨-, -, block, hx, rfl⟩ := hfs.loadSlack_eq_ok_iff.1 hf
    obtain ⟨-, -, block', hy, rfl⟩ := hgs.loadSlack_eq_ok_iff.1 hg
    exact ⟨rfl, hblock.setColumn hx hy, hreplaced⟩
  | writeColumn column writes =>
    refine h.settle (fun hf hg => ?_) hf hg hrefusal
    obtain ⟨_, _, _, rfl, hblock, hreplaced⟩ := h.exists_room
    obtain ⟨-, current, hcurrent, placed, hplaced, block, hx, rfl⟩ :=
      hfs.writeColumn_eq_ok_iff.1 (liftFault_eq_ok_iff.1 hf)
    obtain ⟨-, current', hcurrent', placed', hplaced', block', hy, rfl⟩ :=
      hgs.writeColumn_eq_ok_iff.1 (liftFault_eq_ok_iff.1 hg)
    rw [hfs.column_eq] at hcurrent
    rw [hgs.column_eq] at hcurrent'
    cases hblock.eq_of_column hcurrent hcurrent'
    cases hplaced.symm.trans hplaced'
    exact ⟨rfl, hblock.setColumn hx hy, hreplaced⟩
  | stage starts rowIndices values => exact h.settle h.stage hf hg hrefusal
  | expand => exact h.settle (h.expand hfs hgs) hf hg hrefusal
  | factor =>
    simp only [Operation.perform, bind_eq_ok_iff, pure_eq_ok_iff] at hf hg
    obtain ⟨⟨f', refusal⟩, hf, rfl⟩ := hf
    obtain ⟨⟨g', refusal'⟩, hg, rfl⟩ := hg
    exact h.factor hfs hgs hf hg
  | replace entering slot pivot =>
    simp only [Operation.perform, bind_eq_ok_iff, pure_eq_ok_iff] at hf hg
    obtain ⟨settled, hf, rfl⟩ := hf
    obtain ⟨settled', hg, rfl⟩ := hg
    have hsettled : settled.factorization.Beside settled'.factorization :=
      h.settle (h.replace hfs hgs) hf hg hrefusal
    exact hsettled
  | ftran v =>
    rwa [hfs.perform_eq_of_isSolve (.ftran v) trivial hf,
      hgs.perform_eq_of_isSolve (.ftran v) trivial hg]
  | ftranInPlace v =>
    rwa [hfs.perform_eq_of_isSolve (.ftranInPlace v) trivial hf,
      hgs.perform_eq_of_isSolve (.ftranInPlace v) trivial hg]
  | ftranPair v w inPlace =>
    rwa [hfs.perform_eq_of_isSolve (.ftranPair v w inPlace) trivial hf,
      hgs.perform_eq_of_isSolve (.ftranPair v w inPlace) trivial hg]
  | btran v =>
    rwa [hfs.perform_eq_of_isSolve (.btran v) trivial hf,
      hgs.perform_eq_of_isSolve (.btran v) trivial hg]

/-! ## Solves -/

/-- The same factors and updates are read. -/
theorem factors_withRoom {capacity : Nat} {block : Array α} {replaced : Array Nat}
    (hblock : SamePadded 0 f.block block) (hreplaced : SamePadded 0 f.replaced replaced)
    (hfs : f.Sound) (hgs : (f.withRoom capacity block replaced).Sound) :
    (f.withRoom capacity block replaced).factors = f.factors := by
  obtain ⟨F, hF⟩ := hfs.exists_factors
  obtain ⟨G, hG⟩ := hgs.exists_factors
  rw [hF, hG]
  simp only [factors, hfs.square_eq, hgs.square_eq, bind_eq_ok_iff, pure_eq_ok_iff] at hF hG
  obtain ⟨columns, hcolumns, updates, hupdates, rfl⟩ := hF
  obtain ⟨columns', hcolumns', updates', hupdates', rfl⟩ := hG
  cases hblock.eq_of_square hcolumns hcolumns'
  suffices updates' = updates by rw [this]
  refine eq_of_mapM hupdates hupdates' fun slot _ u u' hu hu' => ?_
  simp only [update, hfs.column_eq, hgs.column_eq, bind_eq_ok_iff, pure_eq_ok_iff] at hu hu'
  obtain ⟨column, hcolumn, place, hplace, p, hp, rfl⟩ := hu
  obtain ⟨column', hcolumn', place', hplace', p', hp', rfl⟩ := hu'
  cases hblock.eq_of_column hcolumn hcolumn'
  cases hreplaced.eq_of_read hplace hplace'
  cases hp.symm.trans hp'
  rfl

section Solves

variable [LawfulZero α]

theorem Beside.ftran (h : f.Beside g) (hfs : f.Sound) (hgs : g.Sound) (v : IndexedVector α) :
    Alike (fun r r' => r'.1 = r.1 ∧ r.2 = f ∧ r'.2 = g) (f.ftran v) (g.ftran v) := by
  obtain ⟨_, _, _, rfl, hblock, hreplaced⟩ := h.exists_room
  rw [hfs.ftran_eq_bind, hgs.ftran_eq_bind, factors_withRoom hblock hreplaced hfs hgs]
  exact alike_bind_same fun _ _ => alike_bind_same fun _ _ => alike_bind_same fun _ _ =>
    alike_bind_same fun _ _ => alike_bind_same fun _ _ => .ok ⟨rfl, rfl, rfl⟩

theorem Beside.btran (h : f.Beside g) (hfs : f.Sound) (hgs : g.Sound) (v : IndexedVector α) :
    Alike (fun r r' => r'.1 = r.1) (f.btran v) (g.btran v) := by
  obtain ⟨_, _, _, rfl, hblock, hreplaced⟩ := h.exists_room
  rw [hfs.btran_eq_bind, hgs.btran_eq_bind, factors_withRoom hblock hreplaced hfs hgs]
  exact alike_bind_same fun _ _ => alike_bind_same fun _ _ => alike_bind_same fun _ _ =>
    alike_bind_same fun _ _ => alike_bind_same fun _ _ => .ok rfl

omit [LawfulZero α] in
theorem Beside.ftranInPlace_eq (h : f.Beside g) (hfs : f.Sound) (hgs : g.Sound)
    (v : IndexedVector α) : g.ftranInPlace v = f.ftranInPlace v := by
  obtain ⟨_, _, _, rfl, hblock, hreplaced⟩ := h.exists_room
  rw [ftranInPlace, ftranInPlace, factors_withRoom hblock hreplaced hfs hgs]
  rfl

/-- A solve fails in the same way, or gives the same vectors. -/
theorem Beside.solves (h : f.Beside g) (hfs : f.Sound) (hgs : g.Sound) {operation : Operation α}
    (ho : operation.IsSolve) :
    Alike (fun r r' => r'.vectors = r.vectors) (operation.perform f) (operation.perform g) := by
  cases operation with
  | ftran v =>
    exact (h.ftran hfs hgs v).bind fun r r' hr => .ok (congrArg (fun w => [w]) hr.1)
  | ftranInPlace v =>
    rw [Operation.perform, Operation.perform, h.ftranInPlace_eq hfs hgs]
    exact alike_bind_same fun w _ => .ok rfl
  | ftranPair v w inPlace =>
    have hpair : Alike (fun r r' => r'.1 = r.1 ∧ r'.2.1 = r.2.1) (f.ftranPair v w inPlace)
        (g.ftranPair v w inPlace) := by
      refine (h.ftran hfs hgs v).bind fun r r' hr => ?_
      obtain ⟨v', f'⟩ := r
      obtain ⟨v'', g'⟩ := r'
      obtain ⟨rfl, rfl, rfl⟩ := hr
      cases inPlace with
      | true =>
        simp only [if_true, h.ftranInPlace_eq hfs hgs]
        exact alike_bind_same fun w' _ => .ok ⟨rfl, rfl⟩
      | false => exact (h.ftran hfs hgs w).bind fun s s' hs => .ok ⟨rfl, hs.1⟩
    exact hpair.bind fun r r' hr => .ok (congrArg₂ (fun v w => [v, w]) hr.1 hr.2)
  | btran v => exact (h.btran hfs hgs v).bind fun r r' hr => .ok (congrArg (fun w => [w]) hr)
  | _ => exact ho.elim

/-! ## Runs -/

/-- The calls lead from `f` to `f'` and from `g` to `g'`: none faults, and none is refused to only
one of the two. -/
inductive BothRun : Factorization α → Factorization α → List (Operation α) → Factorization α →
    Factorization α → Prop where
  | nil (f g : Factorization α) : BothRun f g [] f g
  | cons {f g f' g' : Factorization α} {operation : Operation α} {operations : List (Operation α)}
      {r r' : Reply α} : operation.perform f = .ok r → operation.perform g = .ok r' →
      r'.refusal.isSome = r.refusal.isSome →
      BothRun r.factorization r'.factorization operations f' g' →
      BothRun f g (operation :: operations) f' g'

/-- After the same calls a solve does not tell the two apart. -/
theorem Beside.solves_of_bothRun {operations : List (Operation α)}
    (hrun : BothRun f g operations f' g') (h : f.Beside g) (hfs : f.Sound) (hgs : g.Sound)
    {operation : Operation α} (ho : operation.IsSolve) :
    Alike (fun r r' => r'.vectors = r.vectors) (operation.perform f') (operation.perform g') := by
  induction hrun with
  | nil f g => exact h.solves hfs hgs ho
  | cons hr hr' hrefusal _ ih =>
    exact ih (h.perform hfs hgs hr hr' hrefusal) (hfs.perform hr) (hgs.perform hr')

end Solves

end Factorization

end BasisLU
