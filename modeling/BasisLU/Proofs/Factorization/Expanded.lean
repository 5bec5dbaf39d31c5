import Mathlib.Data.Fin.VecNotation
import BasisLU.Proofs.Factorization.Overwritten

/-!
# What staged columns expand to

A compressed column stands for the dense column that has, in each row, the value at the last place
of that row (`Staged.dense`). Expanding writes the last column first. What the columns before it
read lies below the slots that it writes, since each of them starts early enough, so every column
comes out dense (`column_of_foldlM_expandColumn`).

Calls that leave the basis alone may come between staging and expanding: they change nothing in the
square part of the block, and nothing that is staged (`Sound.carries_of_harmless`). Then expanding
does what loading the dense columns does (`expand_of_stage`).
-/

namespace BasisLU

open Relation (ReflTransGen)

variable {α : Type}

/-- The first members of two lists that pass a test correspond to each other, if their members do
and the tests agree. -/
theorem find?_of_forall₂ {β γ : Type} {R : β → γ → Prop} {p : β → Bool} {q : γ → Bool}
    (hpq : ∀ x y, R x y → p x = q y) {l : List β} {l' : List γ} (h : List.Forall₂ R l l') :
    (l.find? p = none ∧ l'.find? q = none) ∨
      ∃ x y, l.find? p = some x ∧ l'.find? q = some y ∧ R x y := by
  induction h with
  | nil => exact .inl ⟨rfl, rfl⟩
  | @cons x y l l' hxy _ ih =>
    have hsame := hpq x y hxy
    cases hq : q y with
    | true =>
      rw [hq] at hsame
      exact .inr ⟨x, y, List.find?_cons_of_pos hsame, List.find?_cons_of_pos hq, hxy⟩
    | false =>
      rw [hq] at hsame
      rwa [List.find?_cons_of_neg (by simp [hsame]), List.find?_cons_of_neg (by simp [hq])]

/-- Blocks are the same if their first columns are, and what is after these. -/
theorem Block.eq_of_columns {n : Nat} {block block' : Array α} {columns : Fin n → Vector α n}
    (h : ∀ k : Fin n, column n k block = .ok (columns k))
    (h' : ∀ k : Fin n, column n k block' = .ok (columns k))
    (hafter : ∀ slot, n * n ≤ slot → block'[slot]? = block[slot]?) : block' = block := by
  refine Array.ext_getElem? fun slot => ?_
  by_cases hslot : slot < n * n
  · obtain ⟨k, i, rfl⟩ := exists_eq_slot hslot
    rw [getElem?_of_column (h k) i.isLt, getElem?_of_column (h' k) i.isLt]
  · exact hafter slot (Nat.le_of_not_lt hslot)

namespace Operation

/-- Whether the call leaves a basis of `n` rows alone: a solve, a replacement, another parameter, or
room that the basis has already. -/
def LeavesBasis (n : Nat) : Operation α → Prop
  | .resize rows columns => rows = n ∧ columns = n
  | .setChainCapacity _ | .setZeroTolerance _ | .setPivotTolerance _ | .setSlack _ => True
  | .replace _ _ _ | .ftran _ | .ftranInPlace _ | .ftranPair _ _ _ | .btran _ => True
  | _ => False

/-- Whether the call stages columns. -/
def Stages : Operation α → Prop
  | .stage _ _ _ => True
  | _ => False

theorem LeavesBasis.not_restages {n : Nat} {operation : Operation α}
    (h : operation.LeavesBasis n) : ¬ operation.Restages := by
  cases operation <;> first | exact h.elim | exact id

theorem LeavesBasis.not_writes {n : Nat} {operation : Operation α} (h : operation.LeavesBasis n)
    (k : Nat) : ¬ operation.Writes n k := by
  cases operation <;> first | exact h.elim | exact id

theorem LeavesBasis.rowsAfter_eq {n : Nat} {operation : Operation α}
    (h : operation.LeavesBasis n) : operation.rowsAfter n = n := by
  cases operation <;> first | exact h.elim | exact h.1 | rfl

end Operation

namespace Staged

/-- The places of compressed column `i`. -/
def places (staged : Staged) (i : Nat) : List Nat :=
  let start := staged.starts.getD i 0
  List.range' start (staged.starts.getD (i + 1) 0 - start)

/-- The dense column that compressed column `i` stands for: the value at the last place of each row,
and zero in a row without a place. -/
def dense [Scalar α] (n : Nat) (staged : Staged) (values : Array α) (i : Nat) : Vector α n :=
  Vector.ofFn fun r => ((staged.places i).reverse.find? fun place =>
    staged.rows[place]? = some r.val).elim 0 fun place => values.getD place 0

theorem mem_places {staged : Staged} {i place : Nat} : place ∈ staged.places i ↔
    staged.starts.getD i 0 ≤ place ∧ place < staged.starts.getD (i + 1) 0 := by
  rw [places, List.mem_range'_1]
  omega

section Dense

variable [Scalar α] {n : Nat} {staged : Staged} {values : Array α}

/-- The dense column depends only on the values at the places of the compressed one. -/
theorem dense_congr {i : Nat} {values' : Array α}
    (h : ∀ place ∈ staged.places i, values'[place]? = values[place]?) :
    staged.dense n values' i = staged.dense n values i := by
  ext r hr
  rw [dense, dense, Vector.getElem_ofFn, Vector.getElem_ofFn]
  cases hplace : (staged.places i).reverse.find? fun place => staged.rows[place]? = some r with
  | none => rfl
  | some place =>
    have hmem := List.mem_reverse.1 (List.mem_of_find?_eq_some hplace)
    simp [Array.getD_eq_getD_getElem?, h place hmem]

/-- The entries at the places of a compressed column, written over zeros, are the dense column. -/
theorem scatter_eq_dense {i : Nat} {entries : List (Fin n × α)}
    (h : List.Forall₂ (fun place (e : Fin n × α) =>
      staged.rows[place]? = some e.1.val ∧ values[place]? = some e.2) (staged.places i) entries) :
    scatter entries (Vector.replicate n 0) = staged.dense n values i := by
  ext r hr
  have hfind := find?_of_forall₂ (p := fun place => staged.rows[place]? = some r)
    (q := fun e : Fin n × α => e.1 = ⟨r, hr⟩) (fun place e he => by simp [he.1, Fin.ext_iff])
    (List.rel_reverse h)
  rw [← get_eq_getElem _ ⟨r, hr⟩, get_scatter, dense, Vector.getElem_ofFn]
  rcases hfind with ⟨hplace, hentry⟩ | ⟨place, e, hplace, hentry, -, hvalue⟩
  · rw [hplace, hentry]
    exact Vector.getElem_replicate hr
  · simp [hplace, hentry, Array.getD_eq_getD_getElem?, hvalue]

end Dense

end Staged

namespace Factorization

variable [Scalar α] {f g h : Factorization α} {n : Nat} {staged : Staged} {values : Array α}

/-! ## Expanding in place -/

/-- The entries of a column are written over zeros, as long as the block still holds the values at
its places. -/
theorem setColumn_of_expandColumn {i : Nat} {block block' : Array α}
    (hread : ∀ place ∈ staged.places i, block[place]? = values[place]?)
    (h : expandColumn n staged block i = .ok block') :
    Block.setColumn i (staged.dense n values i) block = .ok block' := by
  simp only [expandColumn, bind_eq_ok_iff, guard_eq_ok_iff, Fault.read_eq_ok_iff] at h
  obtain ⟨start, hstart, stop, hstop, -, entries, hentries, hblock⟩ := h
  have hplaces : List.range' start (stop - start) = staged.places i := by
    simp [Staged.places, Array.getD_eq_getD_getElem?, hstart, hstop]
  have hrelated : List.Forall₂ (fun place (e : Fin n × α) =>
      staged.rows[place]? = some e.1.val ∧ block[place]? = some e.2) (staged.places i) entries := by
    rw [← hplaces]
    refine (mapM_eq_ok_iff.1 hentries).imp fun place e he => ?_
    simp only [bind_eq_ok_iff, pure_eq_ok_iff, Fault.read_eq_ok_iff, Fault.below_eq_ok_iff] at he
    obtain ⟨_, hrow, _, rfl, _, hvalue, rfl⟩ := he
    exact ⟨hrow, hvalue⟩
  rwa [← Staged.dense_congr hread, ← Staged.scatter_eq_dense hrelated]

/-- The first `m` columns expanded, from the last to the first: each comes out dense, and nothing
after them changes. -/
theorem column_of_foldlM_expandColumn :
    ∀ {m : Nat} {block block' : Array α}, (∀ i < m, staged.starts.getD i 0 ≤ i * n) →
      (∀ i < m, ∀ place ∈ staged.places i, block[place]? = values[place]?) →
      (List.range m).reverse.foldlM (expandColumn n staged) block = .ok block' →
      (∀ i < m, Block.column n i block' = .ok (staged.dense n values i)) ∧
        ∀ slot, m * n ≤ slot → block'[slot]? = block[slot]?
  | 0, _, _, _, _, h => by
    cases h
    exact ⟨nofun, fun _ _ => rfl⟩
  | m + 1, block, block', hstarts, hread, h => by
    rw [List.range_succ, List.reverse_append, List.reverse_singleton, List.singleton_append,
      List.foldlM_cons, bind_eq_ok_iff] at h
    obtain ⟨block₁, hlast, h⟩ := h
    have hset := setColumn_of_expandColumn (hread m (Nat.lt_succ_self m)) hlast
    -- A column before the last ends where the next one starts, so below what was just written.
    have hbelow (i : Nat) (hi : i < m) (place : Nat) (hplace : place ∈ staged.places i) :
        place < m * n :=
      calc place < staged.starts.getD (i + 1) 0 := (Staged.mem_places.1 hplace).2
        _ ≤ (i + 1) * n := hstarts (i + 1) (by omega)
        _ ≤ m * n := Nat.mul_le_mul_right n hi
    obtain ⟨hcolumns, hafter⟩ := column_of_foldlM_expandColumn
      (fun i hi => hstarts i (by omega)) (fun i hi place hplace => by
        rw [Block.getElem?_setColumn_of_not hset (by have := hbelow i hi place hplace; omega)]
        exact hread i (by omega) place hplace) h
    have hsucc : (m + 1) * n = m * n + n := Nat.succ_mul m n
    refine ⟨fun i hi => ?_, fun slot hslot => ?_⟩
    · rcases Nat.lt_succ_iff_lt_or_eq.1 hi with hi | rfl
      · exact hcolumns i hi
      · rw [← Block.column_setColumn hset]
        refine Block.column_congr (Block.size_setColumn hset ▸ Block.le_of_setColumn hset)
          (size_foldlM_expandColumn _ h).ge fun r _ => hafter _ (by omega)
    · rw [hafter slot (by omega), Block.getElem?_setColumn_of_not hset (by omega)]

/-! ## Between staging and expanding -/

/-- A call that does not fault and that `p` allows, with its reply. -/
def StepWhere (p : Operation α → Reply α → Prop) (f g : Factorization α) : Prop :=
  ∃ operation reply, operation.perform f = .ok reply ∧ p operation reply ∧ reply.factorization = g

/-- A call that leaves a basis of `n` rows alone, or any other than factoring that is refused. -/
def Harmless (n : Nat) (operation : Operation α) (reply : Reply α) : Prop :=
  operation.LeavesBasis n ∨ operation ≠ .factor ∧ reply.refusal ≠ none

theorem reaches_of_stepWhere {p : Operation α → Reply α → Prop}
    (h : ReflTransGen (StepWhere p) f g) : Reaches f g :=
  ReflTransGen.mono (fun _ _ ⟨operation, reply, hr, _, hg⟩ => ⟨operation, reply, hr, hg⟩) _ _ h

/-- Calls one after another that `p` allows whatever they answer. -/
theorem stepWhere_of_run {p : Operation α → Reply α → Prop} :
    ∀ {operations : List (Operation α)} {f : Factorization α},
      (∀ operation ∈ operations, ∀ reply, p operation reply) → f.run operations = .ok g →
      ReflTransGen (StepWhere p) f g
  | [], f, _, h => by
    cases h
    exact .refl
  | operation :: operations, f, hp, h => by
    obtain ⟨hfirst, hrest⟩ := List.forall_mem_cons.1 hp
    obtain ⟨reply, hr, h⟩ := run_cons_eq_ok_iff.1 h
    exact .head ⟨operation, reply, hr, hfirst reply, rfl⟩ (stepWhere_of_run hrest h)

/-- Columns are staged that can be expanded, and the block has their values at its front. -/
structure Carries (f : Factorization α) (staged : Staged) (values : Array α) : Prop where
  staged_eq : f.staged = staged
  size_eq : staged.starts.size = f.rows + 1
  starts_le : ∀ i ≤ f.rows, staged.starts.getD i 0 ≤ i * f.rows
  read : ∀ i < f.rows, ∀ place ∈ staged.places i, f.block[place]? = values[place]?

omit [Scalar α] in
/-- What is staged lies in the square part of the block. -/
theorem Carries.place_lt (h : f.Carries staged values) {i place : Nat} (hi : i < f.rows)
    (hplace : place ∈ staged.places i) : place < f.rows * f.rows :=
  calc place < staged.starts.getD (i + 1) 0 := (Staged.mem_places.1 hplace).2
    _ ≤ (i + 1) * f.rows := h.starts_le (i + 1) hi
    _ ≤ f.rows * f.rows := Nat.mul_le_mul_right f.rows hi

omit [Scalar α] in
theorem LaidOut.carries_of_stage (hf : f.LaidOut) (hpos : 0 < f.rows) {starts rows : Array Nat}
    (hg : f.stage starts rows values = .ok g) : g.Carries ⟨starts, rows⟩ values := by
  obtain ⟨hstarts, hsize, htotal, hcheck, hroom, rfl⟩ := stage_eq_ok_iff.1 hg
  rw [hf.columns_eq] at hstarts htotal hcheck
  have hgetD {i x : Nat} (hx : starts[i]? = some x) : starts.getD i 0 = x := by
    rw [Array.getD_eq_getD_getElem?, hx, Option.getD_some]
  have hlast : starts.getD f.rows 0 ≤ f.rows * f.rows := by
    obtain ⟨start, stop, -, hstop, hle, hlen, hput, -, -⟩ :=
      checkStaged_eq_ok_iff.1 (hcheck (f.rows - 1) (by omega))
    rw [Nat.sub_add_cancel hpos] at hstop
    have hprev := Nat.sub_one_mul f.rows f.rows
    have hsq := Nat.le_mul_of_pos_left f.rows hpos
    rw [hgetD hstop]
    omega
  refine ⟨rfl, hstarts, fun i hi => ?_, fun i hi place hplace => ?_⟩
  · rcases Nat.lt_or_eq_of_le hi with hi | rfl
    · obtain ⟨start, stop, hstart, -, -, -, hput, -, -⟩ := checkStaged_eq_ok_iff.1 (hcheck i hi)
      exact (hgetD hstart).trans_le hput
    · exact hlast
  · obtain ⟨start, stop, -, hstop, -, -, -, hle, -⟩ := checkStaged_eq_ok_iff.1 (hcheck i hi)
    have hlt := (Staged.mem_places.1 hplace).2
    rw [hgetD hstop] at hlt
    have hin : place < values.size := by omega
    simp [show place < f.block.size by omega, hin]

omit [Scalar α] in
/-- Staging stays in the square part of the block. -/
theorem LaidOut.getElem?_of_stage (hf : f.LaidOut) (hpos : 0 < f.rows) {starts rows : Array Nat}
    (hg : f.stage starts rows values = .ok g) {slot : Nat} (hslot : f.rows * f.rows ≤ slot) :
    g.block[slot]? = f.block[slot]? := by
  have hle := (hf.carries_of_stage hpos hg).starts_le
  obtain ⟨-, -, htotal, -, -, rfl⟩ := stage_eq_ok_iff.1 hg
  have hsize : values.size ≤ f.rows * f.rows := by
    simpa [Array.getD_eq_getD_getElem?, hf.columns_eq ▸ htotal] using hle f.rows le_rfl
  rw [Array.getElem?_mapIdx, Option.map_congr fun x _ => dif_neg (by omega), Option.map_id']

/-- The rows, what is staged and the square part of the block are the same. -/
structure KeepsSquare (f g : Factorization α) : Prop where
  rows_eq : g.rows = f.rows
  staged_eq : g.staged = f.staged
  getElem?_eq : ∀ slot < f.rows * f.rows, g.block[slot]? = f.block[slot]?

omit [Scalar α] in
theorem Carries.of_keepsSquare (h : f.Carries staged values) (hk : f.KeepsSquare g) :
    g.Carries staged values where
  staged_eq := hk.staged_eq.trans h.staged_eq
  size_eq := by rw [hk.rows_eq, h.size_eq]
  starts_le := by simpa only [hk.rows_eq] using h.starts_le
  read i hi place hplace := by
    rw [hk.rows_eq] at hi
    rw [hk.getElem?_eq place (h.place_lt hi hplace), h.read i hi place hplace]

theorem Sound.keepsSquare_of_perform (h : f.Sound) {operation : Operation α} {reply : Reply α}
    (hr : operation.perform f = .ok reply) (hp : Harmless f.rows operation reply) :
    f.KeepsSquare reply.factorization := by
  have hne : operation ≠ .factor := by
    rintro rfl
    exact hp.elim id fun hl => hl.1 rfl
  rcases h.refused_or_spares hne hr with ⟨-, hsame⟩ | ⟨hrefusal, hspares⟩
  · rw [hsame]
    exact ⟨rfl, rfl, fun _ _ => rfl⟩
  · have hleaves := hp.resolve_right fun hl => hl.2 hrefusal
    have hrows := hspares.rows_eq.trans hleaves.rowsAfter_eq
    refine ⟨hrows, hspares.staged_eq hleaves.not_restages, fun slot hslot => ?_⟩
    obtain ⟨k, i, rfl⟩ := Block.exists_eq_slot hslot
    obtain ⟨c, hc⟩ := Block.column_of_le (h.column_le (show k.val < _ by omega))
    have hc' := (hspares.column_eq hrows k k.isLt (hleaves.not_writes k)).trans hc
    rw [Block.getElem?_of_column hc i.isLt, Block.getElem?_of_column hc' i.isLt]

theorem Sound.carries_of_harmless (h : f.Sound) (hc : f.Carries staged values)
    (hsteps : ReflTransGen (StepWhere (Harmless f.rows)) f g) :
    g.Sound ∧ g.rows = f.rows ∧ g.Carries staged values := by
  induction hsteps with
  | refl => exact ⟨h, rfl, hc⟩
  | tail _ hstep ih =>
    obtain ⟨hs, hrows, hc⟩ := ih
    obtain ⟨operation, reply, hr, hp, rfl⟩ := hstep
    have hk := hs.keepsSquare_of_perform hr (hrows.symm ▸ hp)
    exact ⟨hs.perform hr, hk.rows_eq.trans hrows, hc.of_keepsSquare hk⟩

/-! ## Expanding and loading -/

theorem Carries.exists_expand (hc : f.Carries staged values) (h : f.Sound)
    (he : f.staged.Expandable f.block.size) :
    ∃ block, f.expand = .ok { f with block := block, staged := ⟨#[], #[]⟩ } ∧
      (∀ i < f.rows, Block.column f.rows i block = .ok (staged.dense f.rows values i)) ∧
      ∀ slot, f.rows * f.rows ≤ slot → block[slot]? = f.block[slot]? := by
  obtain ⟨g, hg⟩ := h.exists_expand he (by rw [hc.staged_eq, hc.size_eq, h.columns_eq])
  obtain ⟨-, block, hblock, rfl⟩ := h.expand_eq_ok_iff.1 hg
  rw [expandBlock, hc.staged_eq, h.columns_eq] at hblock
  exact ⟨block, hg,
    column_of_foldlM_expandColumn (fun i hi => hc.starts_le i hi.le) hc.read hblock⟩

omit [Scalar α] in
theorem LaidOut.loadColumn_of_setColumn (h : f.LaidOut) (hn : f.rows = n) {k : Fin n}
    {column : Vector α n} {block : Array α} (hb : Block.setColumn k column f.block = .ok block) :
    f.loadColumn k column.toArray = .ok { f with block := block } := by
  subst hn
  exact h.loadColumn_eq_ok_iff.2 ⟨k.isLt, Vector.size_toArray _, block, hb, rfl⟩

omit [Scalar α] in
/-- Columns loaded one after another are columns written to the block. -/
theorem foldlM_loadColumn_eq_ok {columns : Fin n → Vector α n} :
    ∀ (order : List (Fin n)) {f : Factorization α} {block : Array α}, f.LaidOut → f.rows = n →
      order.foldlM (fun block (k : Fin n) => Block.setColumn k (columns k) block) f.block =
        .ok block →
      order.foldlM (fun f (k : Fin n) => f.loadColumn k (columns k).toArray) f =
        .ok { f with block := block }
  | [], f, block, _, _, h => by
    cases h
    rfl
  | k :: order, f, block, hf, hn, h => by
    rw [List.foldlM_cons, bind_eq_ok_iff] at h ⊢
    obtain ⟨block₁, hk, hrest⟩ := h
    have hf' : LaidOut { f with block := block₁ } := ⟨hf.columns_eq, hf.stride_eq⟩
    exact ⟨_, hf.loadColumn_of_setColumn hn hk, foldlM_loadColumn_eq_ok order hf' hn hrest⟩

/-- All columns loaded, in any order, are the square of the block. -/
theorem Sound.foldlM_loadColumn (h : f.Sound) (hn : f.rows = n) {columns : Fin n → Vector α n}
    {order : List (Fin n)} (horder : ∀ k, k ∈ order) {block : Array α}
    (hcolumns : ∀ k : Fin n, Block.column n k block = .ok (columns k))
    (hafter : ∀ slot, n * n ≤ slot → block[slot]? = f.block[slot]?) :
    order.foldlM (fun f (k : Fin n) => f.loadColumn k (columns k).toArray) f =
      .ok { f with block := block } := by
  obtain ⟨block', hblock', -, hafter', hmem, -⟩ :=
    Block.exists_foldlM_setColumn (Vector.ofFn columns) order (hn ▸ h.square_le)
  simp only [get_eq_getElem, Vector.getElem_ofFn] at hblock' hmem
  have hsame : block' = block := Block.eq_of_columns hcolumns (fun k => hmem k (horder k))
    fun slot hslot => (hafter' slot hslot).trans (hafter slot hslot).symm
  rw [foldlM_loadColumn_eq_ok order h.toLaidOut hn hblock', hsame]

/-- Factoring does not look at what is staged. -/
theorem LaidOut.factor_withStaged (h : f.LaidOut) {refusal : Option Refusal}
    (hg : f.factor = .ok (g, refusal)) (staged : Staged) :
    ({ f with staged := staged } : Factorization α).factor =
      .ok ({ g with staged := staged }, refusal) := by
  obtain ⟨columns, hsquare, hinstall, rfl⟩ := h.factor_eq_ok_iff.1 hg
  obtain ⟨block, order, hblock, horder, rfl⟩ := install_eq_ok_iff.1 hinstall
  have h' : LaidOut { f with staged := staged } := ⟨h.columns_eq, h.stride_eq⟩
  exact h'.factor_eq_ok_iff.2
    ⟨columns, hsquare, install_eq_ok_iff.2 ⟨block, order, hblock, horder, rfl⟩, rfl⟩

/-- Without anything staged there is nothing to expand. -/
theorem expand_of_unstaged (hf : f.staged = ⟨#[], #[]⟩) :
    f.expand = .error (.refused (.lengthMismatch (f.columns + 1) 0)) := by
  rw [Factorization.expand, hf]
  exact if_pos (by simp)

theorem Sound.unstaged_of_perform (h : f.Sound) (hf : f.staged = ⟨#[], #[]⟩)
    {operation : Operation α} {reply : Reply α} (hr : operation.perform f = .ok reply)
    (hp : operation.Stages → reply.refusal ≠ none) :
    reply.factorization.staged = ⟨#[], #[]⟩ := by
  by_cases hfactor : operation = .factor
  · subst hfactor
    simp only [Operation.perform, bind_eq_ok_iff, pure_eq_ok_iff] at hr
    obtain ⟨⟨g, refusal⟩, hg, rfl⟩ := hr
    exact (h.keeps_of_factor hg).staged_eq.trans hf
  rcases h.refused_or_spares hfactor hr with ⟨-, hsame⟩ | ⟨hrefusal, hspares⟩
  · rw [hsame, hf]
  · have hstages : ¬ operation.Stages := fun hs => hp hs hrefusal
    refine (hspares.staged_eq fun hrestages => ?_).trans hf
    cases operation with
    | stage starts rowIndices values => exact hstages trivial
    | expand =>
      rw [Operation.perform, expand_of_unstaged hf] at hr
      cases hr
      cases hrefusal
    | _ => exact hrestages

theorem Sound.unstaged_of_steps (h : f.Sound) (hf : f.staged = ⟨#[], #[]⟩)
    (hsteps : ReflTransGen
      (StepWhere fun operation reply => operation.Stages → reply.refusal ≠ none) f g) :
    g.Sound ∧ g.staged = ⟨#[], #[]⟩ := by
  induction hsteps with
  | refl => exact ⟨h, hf⟩
  | tail _ hstep ih =>
    obtain ⟨operation, reply, hr, hp, rfl⟩ := hstep
    exact ⟨ih.1.perform hr, ih.1.unstaged_of_perform ih.2 hr hp⟩

/-- Staged columns are expanded to the dense columns they stand for, if only calls that leave the
basis alone, or are refused, come in between. The updates stay as they are, the scratch buffer is
zero, and nothing is left to expand until columns are staged again. Factoring comes to the same as
after loading the dense columns. -/
theorem expand_of_stage [LawfulScalar α] {start m : Factorization α} (hnew : start.New)
    (hreach : Reaches start f) (hpos : 0 < f.rows) {starts rows : Array Nat}
    (hg : f.stage starts rows values = .ok g)
    (hsteps : ReflTransGen (StepWhere (Harmless f.rows)) g m) :
    ∃ h, m.expand = .ok h ∧
      (∀ i < f.rows,
        Block.column f.rows i h.block = .ok (Staged.dense f.rows ⟨starts, rows⟩ values i)) ∧
      (∀ slot, f.rows * f.rows ≤ slot →
        g.block[slot]? = f.block[slot]? ∧ h.block[slot]? = m.block[slot]?) ∧
      h.scratch = Array.replicate h.mostRows 0 ∧
      (∀ k, ReflTransGen
          (StepWhere fun operation reply => operation.Stages → reply.refusal ≠ none) h k →
        k.expand = .error (.refused (.lengthMismatch (k.columns + 1) 0))) ∧
      ∀ order : List (Fin f.rows), (∀ i, i ∈ order) → ∃ loaded k refusal,
        order.foldlM (fun loading (i : Fin f.rows) =>
          loading.loadColumn i (Staged.dense f.rows ⟨starts, rows⟩ values i).toArray) m =
            .ok loaded ∧
        h.factor = .ok (k, refusal) ∧
        loaded.factor = .ok ({ k with staged := m.staged }, refusal) := by
  have hf := (invariant_of_reaches hnew hreach).toSound
  have hstage : Reaches f g := .single
    ⟨.stage starts rows values, _, by rw [Operation.perform, hg]; rfl, rfl⟩
  have hm := invariant_of_reaches hnew ((hreach.trans hstage).trans (reaches_of_stepWhere hsteps))
  have hcarries := hf.carries_of_stage hpos hg
  have hrows : g.rows = f.rows := by
    obtain ⟨-, -, -, -, -, rfl⟩ := stage_eq_ok_iff.1 hg
    rfl
  rw [← hrows] at hsteps
  obtain ⟨-, hmrows, hmcarries⟩ := (hf.stage hg).carries_of_harmless hcarries hsteps
  obtain ⟨block, hexpand, hcolumns, hkept⟩ := hmcarries.exists_expand hm.toSound hm.expandable
  have hh := hm.toSound.expand hexpand
  have hmrows := hmrows.trans hrows
  rw [hmrows] at hcolumns hkept
  refine ⟨_, hexpand, hcolumns,
    fun slot hslot => ⟨hf.getElem?_of_stage hpos hg hslot, hkept slot hslot⟩, hh.scratch,
    fun k hk => ?_, fun order horder => ?_⟩
  · exact expand_of_unstaged (hh.unstaged_of_steps rfl hk).2
  · have hloaded := hm.toSound.foldlM_loadColumn hmrows horder (fun k => hcolumns k k.isLt) hkept
    obtain ⟨columns, hsquare⟩ := Block.square_of_le hh.square_le
    obtain ⟨k, hk⟩ := hh.exists_install (eliminate m.config.zeroTolerance columns)
    have hfactor := hh.factor_eq_ok_iff.2 ⟨columns, hsquare, hk, rfl⟩
    exact ⟨_, k, _, hloaded, hfactor, hh.factor_withStaged hfactor m.staged⟩

/-- A basis of three columns, factored. -/
def threeColumns : List (Operation Float) :=
  [.setChainCapacity 1, .load ![![0, 2, 1], ![4, 1, -1], ![2, 3, 5]], .factor]

/-- An update, another tolerance, a solve, and room for one more update. -/
def meanwhile : List (Operation Float) :=
  [.replace ⟨#[3, 0.5, 0], [2, 0], .packed⟩ 1 2, .setZeroTolerance 0.001,
    .ftran ⟨#[1, 2, 3], [0, 1, 2], .scattered⟩, .resize 3 3, .setChainCapacity 2]

/-- Full columns, one of which has a row twice, with an empty one between them. -/
theorem expand_of_stage_meanwhile : ∃ (f g m h : Factorization Float) (reply : Reply Float),
    initial.run threeColumns = .ok f ∧
      f.stage #[0, 3, 3, 6] #[2, 0, 2, 1, 0, 2] #[9, 4, 7, 1, 0.5, 0 / 0] = .ok g ∧
      g.run meanwhile = .ok m ∧ (Operation.loadSlack 3 0).perform m = .ok reply ∧
      reply.factorization.expand = .ok h ∧ Block.column 3 0 h.block = .ok #v[4, 0, 7] ∧
      Block.column 3 1 h.block = .ok #v[0, 0, 0] ∧
      Block.column 3 2 h.block = .ok #v[0.5, 1, 0 / 0] ∧
      h.expand = .error (.refused (.lengthMismatch (h.columns + 1) 0)) := by
  have hrun : Except.isOk (do
      let f ← liftM (initial.run threeColumns)
      let g ← f.stage #[0, 3, 3, 6] #[2, 0, 2, 1, 0, 2] #[9, 4, 7, 1, 0.5, 0 / 0]
      let m ← liftM (g.run meanwhile)
      let reply ← liftM ((Operation.loadSlack 3 0).perform m)
      if ¬ (f.rows = 3 ∧ reply.refusal.isNone = false) then throw (.fault .outOfRange)
      return (m, reply) : Except Failure (Factorization Float × Reply Float)) = true := by
    decide +kernel
  obtain ⟨_, hrun⟩ := exists_eq_ok_of_isOk hrun
  simp only [bind_eq_ok_iff, guard_eq_ok_iff, liftFault_eq_ok_iff, not_not] at hrun
  obtain ⟨f, hf, g, hg, m, hm, reply, hreply, ⟨hrows, hrefused⟩, -⟩ := hrun
  have hmeanwhile : ∀ operation ∈ meanwhile, ∀ reply, Harmless f.rows operation reply := by
    simp [meanwhile, Harmless, Operation.LeavesBasis, hrows]
  have hrefused : Harmless f.rows (.loadSlack 3 0) reply :=
    .inr ⟨nofun, fun hnone => by simp [hnone] at hrefused⟩
  obtain ⟨h, hh, hcolumns, -, -, hagain, -⟩ := expand_of_stage .initial (reaches_of_run hf)
    (by omega) hg ((stepWhere_of_run hmeanwhile hm).tail ⟨_, reply, hreply, hrefused, rfl⟩)
  rw [hrows] at hcolumns
  exact ⟨f, g, m, h, reply, hf, hg, hm, hreply, hh,
    (hcolumns 0 (by decide)).trans (by decide +kernel),
    (hcolumns 1 (by decide)).trans (by decide +kernel),
    (hcolumns 2 (by decide)).trans (by decide +kernel), hagain h .refl⟩

end Factorization

end BasisLU
