import BasisLU.Proofs.Factorization.Expanded
import BasisLU.Proofs.Factorization.Room

/-!
# Buffers only grow

What the accepted calls asked for tells how long the block is and the most rows there have been
(`accepted`, `Sound.sizes_of_run`). Where room is made, zeros come after what the block held
(`Extends`), whatever the rows of the basis are meanwhile. So a basis that is made smaller, and as
large as it was again, has its columns back as long as no call wrote to the block
(`Sound.extends_of_quiet`, `LaidOut.column_of_extends`). Both are granted
(`Sound.exists_restored`).
-/

namespace BasisLU

open Relation (ReflTransGen)

variable {α : Type}

/-- The rows that the call gives the basis. -/
def Call.rows? (call : Call α) : Option Nat :=
  match call.operation with
  | .resize rows _ => some rows
  | @Operation.load _ rows _ _ => some rows
  | _ => none

theorem Call.rows?_of_room?_eq_none {call : Call α} (h : call.room? = none) :
    call.rows? = none := by
  obtain ⟨f, operation⟩ := call
  cases operation <;> first | rfl | cases h

/-- The rows that room is asked for are those that the call gives the basis, or those it has. -/
theorem Call.rows?_of_room?_eq_some {call : Call α} {c : Capacity} (h : call.room? = some c) :
    call.rows? = some c.rows ∨ call.rows? = none ∧ c.rows = call.before.rows := by
  obtain ⟨f, operation⟩ := call
  cases operation with
  | resize rows columns => cases h; exact .inl rfl
  | load a => cases h; exact .inl rfl
  | setChainCapacity capacity => cases h; exact .inr ⟨rfl, rfl⟩
  | _ => cases h

/-- The spaces that the calls ask for. -/
def spaces (calls : List (Call α)) : List Nat :=
  calls.filterMap fun call => call.room?.map Capacity.space

/-- The rows that the calls give the basis. -/
def rowCounts (calls : List (Call α)) : List Nat := calls.filterMap Call.rows?

/-- Whether the call may write values to the block. -/
def Operation.WritesBlock : Operation α → Prop
  | .load _ | .loadColumn _ _ | .loadSlack _ _ | .writeColumn _ _ | .stage _ _ _ | .expand | .factor
  | .replace _ _ _ => True
  | _ => False

/-- The largest of the sizes; zero if there are none. -/
def largest (sizes : List Nat) : Nat := sizes.foldr max 0

@[simp] theorem largest_nil : largest [] = 0 := rfl

@[simp] theorem largest_singleton (size : Nat) : largest [size] = size := Nat.max_zero size

theorem largest_append (sizes sizes' : List Nat) :
    largest (sizes ++ sizes') = max (largest sizes) (largest sizes') := by
  induction sizes with
  | nil => exact (Nat.zero_max _).symm
  | cons size sizes ih =>
    show max size (largest (sizes ++ sizes')) = max (max size (largest sizes)) (largest sizes')
    rw [ih, max_assoc]

/-- The second array is the first with zeros after it. -/
def Extends [Zero α] (xs ys : Array α) : Prop := ∃ count, ys = xs ++ Array.replicate count 0

section Extends

variable [Zero α] {xs ys zs : Array α}

theorem extends_refl (xs : Array α) : Extends xs xs := ⟨0, by simp⟩

theorem Extends.trans (hxy : Extends xs ys) (hyz : Extends ys zs) : Extends xs zs := by
  obtain ⟨count, rfl⟩ := hxy
  obtain ⟨count', rfl⟩ := hyz
  exact ⟨count + count', by rw [Array.append_assoc, Array.replicate_append_replicate]⟩

theorem extends_growTo (size : Nat) (xs : Array α) : Extends xs (Block.growTo size 0 xs) :=
  ⟨size - xs.size, rfl⟩

/-- A column of the first is a column of the second. -/
theorem Extends.column_eq_ok (h : Extends xs ys) {n k : Nat} {c : Vector α n}
    (hc : Block.column n k xs = .ok c) : Block.column n k ys = .ok c := by
  obtain ⟨count, rfl⟩ := h
  have hle := Block.le_of_column hc
  rw [← hc]
  refine Block.column_congr hle (by simp) fun i hi => ?_
  rw [Array.getElem?_append_left (Block.slot_lt hle hi)]

end Extends

namespace Factorization

variable [Scalar α] {config : Config α} {f g : Factorization α} {operation : Operation α}
  {reply : Reply α}

/-- A space is granted if one of the same capacity for more rows is. -/
theorem spaceFor_mono {rows rows' capacity space : Nat} (h : rows ≤ rows')
    (hs : spaceFor α rows' capacity = .ok space) :
    spaceFor α rows capacity = .ok (Capacity.space ⟨rows, capacity⟩) := by
  rw [spaceFor_eq_ok_iff, Capacity.allocatable?_eq_some_iff] at hs ⊢
  obtain ⟨rfl, hbytes, hupdates⟩ := hs
  exact ⟨rfl, (Nat.mul_le_mul_right _ (Capacity.space_mono h)).trans hbytes, hupdates⟩

/-! ## Sizes -/

/-- The call, unless it is refused. -/
def acceptedCall (f : Factorization α) (operation : Operation α) (reply : Reply α) :
    List (Call α) :=
  if reply.refusal.isNone then [⟨f, operation⟩] else []

/-- The calls that are not refused, of calls one after another, up to one that faults. -/
def accepted : Factorization α → List (Operation α) → List (Call α)
  | _, [] => []
  | f, operation :: operations =>
    match operation.perform f with
    | .ok reply => acceptedCall f operation reply ++ reply.factorization.accepted operations
    | .error _ => []

theorem Sound.sizes_of_perform (h : f.Sound) (hr : operation.perform f = .ok reply) :
    reply.factorization.block.size =
        max f.block.size (largest (spaces (acceptedCall f operation reply))) ∧
      reply.factorization.mostRows =
        max f.mostRows (largest (rowCounts (acceptedCall f operation reply))) := by
  cases hroom : Call.room? ⟨f, operation⟩ with
  | none =>
    have hsame := h.sameRoom_of_perform hroom hr
    have hrows := Call.rows?_of_room?_eq_none hroom
    have hspaces : spaces (acceptedCall f operation reply) = [] := by
      unfold acceptedCall
      split <;> simp [spaces, hroom]
    have hcounts : rowCounts (acceptedCall f operation reply) = [] := by
      unfold acceptedCall
      split <;> simp [rowCounts, hrows]
    simp [hspaces, hcounts, hsame.size_eq, hsame.mostRows_eq]
  | some c =>
    rcases refused_or_makesRoom hroom hr with ⟨hrefusal, hsame⟩ | ⟨hrefusal, hmade⟩
    · have hcall : acceptedCall f operation reply = [] :=
        if_neg fun hnone => hrefusal (Option.isNone_iff_eq_none.1 hnone)
      simp [hcall, spaces, rowCounts, hsame]
    · have hcall : acceptedCall f operation reply = [⟨f, operation⟩] :=
        if_pos (Option.isNone_iff_eq_none.2 hrefusal)
      rw [hcall, hmade.size_eq, hmade.mostRows_eq]
      refine ⟨by simp [spaces, hroom], ?_⟩
      rcases Call.rows?_of_room?_eq_some hroom with hrows | ⟨hrows, hkept⟩
      · simp [rowCounts, hrows]
      · have hle : c.rows ≤ f.mostRows := hkept ▸ h.rows_le
        simp [rowCounts, hrows, hle]

/-- The block is as long as the largest space asked for, and the most rows are the most given, by
the calls that were not refused. -/
theorem Sound.sizes_of_run : ∀ {operations : List (Operation α)} {f : Factorization α}, f.Sound →
    f.run operations = .ok g →
      g.block.size = max f.block.size (largest (spaces (f.accepted operations))) ∧
        g.mostRows = max f.mostRows (largest (rowCounts (f.accepted operations)))
  | [], f, _, hrun => by
    cases hrun
    exact ⟨(Nat.max_zero _).symm, (Nat.max_zero _).symm⟩
  | operation :: operations, f, h, hrun => by
    obtain ⟨reply, hr, hrun⟩ := run_cons_eq_ok_iff.1 hrun
    obtain ⟨hsize, hrows⟩ := h.sizes_of_perform hr
    obtain ⟨hsizes, hmost⟩ := (h.perform hr).sizes_of_run hrun
    have haccepted : f.accepted (operation :: operations) =
        acceptedCall f operation reply ++ reply.factorization.accepted operations := by
      rw [accepted, hr]
    rw [haccepted, spaces, rowCounts, List.filterMap_append, List.filterMap_append, largest_append,
      largest_append, ← max_assoc, ← max_assoc, ← spaces, ← rowCounts, ← hsize, ← hrows]
    exact ⟨hsizes, hmost⟩

/-! ## Contents -/

theorem extends_of_resize {rows columns : Nat} (hg : f.resize rows columns = .ok g) :
    Extends f.block g.block := by
  obtain ⟨-, space, -, rfl⟩ := resize_eq_ok_iff.1 hg
  show Extends f.block (Block.growTo space 0 (f.reshape rows columns).block)
  rw [block_reshape]
  exact extends_growTo space f.block

theorem extends_of_setChainCapacity {capacity : Nat} (hg : f.setChainCapacity capacity = .ok g) :
    Extends f.block g.block := by
  obtain ⟨space, -, rfl⟩ := setChainCapacity_eq_ok_iff.1 hg
  exact extends_growTo space f.block

/-- A call that does not write to the block, or any other than factoring that is refused. -/
def Quiet (operation : Operation α) (reply : Reply α) : Prop :=
  ¬ operation.WritesBlock ∨ operation ≠ .factor ∧ reply.refusal ≠ none

theorem Sound.extends_of_perform (h : f.Sound) (hr : operation.perform f = .ok reply)
    (hquiet : Quiet operation reply) : Extends f.block reply.factorization.block := by
  have hsame := extends_refl f.block
  rcases hquiet with hquiet | ⟨hne, hrefusal⟩
  · cases operation with
    | resize rows columns =>
      exact of_settle hsame (fun hg => extends_of_resize (liftRefusal_eq_ok_iff.1 hg)) hr
    | setChainCapacity capacity =>
      exact of_settle hsame (fun hg => extends_of_setChainCapacity (liftRefusal_eq_ok_iff.1 hg)) hr
    | setZeroTolerance value =>
      refine of_settle (p := fun g => Extends f.block g.block) hsame (fun hg => ?_) hr
      obtain ⟨-, rfl⟩ := setZeroTolerance_eq_ok_iff.1 (liftRefusal_eq_ok_iff.1 hg)
      exact hsame
    | setPivotTolerance value =>
      refine of_settle (p := fun g => Extends f.block g.block) hsame (fun hg => ?_) hr
      obtain ⟨-, rfl⟩ := setPivotTolerance_eq_ok_iff.1 (liftRefusal_eq_ok_iff.1 hg)
      exact hsame
    | setSlack value =>
      cases hr
      exact hsame
    | ftran v => rwa [h.perform_eq_of_isSolve (.ftran v) trivial hr]
    | ftranInPlace v => rwa [h.perform_eq_of_isSolve (.ftranInPlace v) trivial hr]
    | ftranPair v w inPlace => rwa [h.perform_eq_of_isSolve (.ftranPair v w inPlace) trivial hr]
    | btran v => rwa [h.perform_eq_of_isSolve (.btran v) trivial hr]
    | _ => exact absurd trivial hquiet
  · rcases h.refused_or_spares hne hr with ⟨-, hkept⟩ | ⟨hnone, -⟩
    · rwa [hkept]
    · exact absurd hnone hrefusal

/-- As long as nothing is written, zeros come after what the block held, and nothing else. -/
theorem Sound.extends_of_quiet (h : f.Sound) (hsteps : ReflTransGen (StepWhere Quiet) f g) :
    g.Sound ∧ Extends f.block g.block := by
  induction hsteps with
  | refl => exact ⟨h, extends_refl _⟩
  | tail _ hstep ih =>
    obtain ⟨operation, reply, hr, hquiet, rfl⟩ := hstep
    exact ⟨ih.1.perform hr, ih.2.trans (ih.1.extends_of_perform hr hquiet)⟩

/-- As many rows as before, and the columns are those there were. -/
theorem LaidOut.column_of_extends (h : f.LaidOut) (hg : g.LaidOut) (hext : Extends f.block g.block)
    (hrows : g.rows = f.rows) {k : Nat} {c : Vector α f.rows} (hc : f.column k = .ok c) :
    g.column k = .ok (c.cast hrows.symm) := by
  rw [h.column_eq] at hc
  rw [hg.column_eq]
  have hcolumn := hext.column_eq_ok hc
  generalize f.rows = n at hrows c hcolumn
  subst hrows
  exact hcolumn

/-! ## Smaller, and as large as before -/

/-- A basis with rows has the space granted that its rows and its chain take. -/
theorem granted_of_reaches (hreach : Reaches (ofConfig config) f) (hpos : 0 < f.rows) :
    ∃ space, spaceFor α f.rows f.config.chainCapacity = .ok space := by
  induction hreach with
  | refl => exact absurd hpos (Nat.lt_irrefl 0)
  | tail hreach hs ih =>
    obtain ⟨operation, reply, hr, rfl⟩ := hs
    cases hroom : Call.room? ⟨_, operation⟩ with
    | none =>
      have hsame := (sound_of_reaches hreach).sameRoom_of_perform hroom hr
      rw [hsame.rows_eq] at hpos ⊢
      rw [hsame.capacity_eq]
      exact ih hpos
    | some c =>
      rcases refused_or_makesRoom hroom hr with ⟨-, hsame⟩ | ⟨-, hmade⟩
      · rw [hsame] at hpos ⊢
        exact ih hpos
      · rw [hmade.rows_eq, hmade.capacity_eq]
        exact ⟨_, hmade.granted⟩

/-- A block with room for a basis stays as it is when the basis is given its rows. -/
theorem exists_resize_of_le {rows space : Nat}
    (hs : spaceFor α rows f.config.chainCapacity = .ok space) (hle : space ≤ f.block.size) :
    ∃ g, f.resize rows rows = .ok g ∧ g.rows = rows ∧ g.config = f.config ∧ g.block = f.block := by
  refine ⟨_, resize_eq_ok_iff.2 ⟨rfl, space, hs, rfl⟩, rows_reshape f rows rows,
    config_reshape f rows rows, ?_⟩
  show Block.growTo space 0 (f.reshape rows rows).block = f.block
  rw [block_reshape, Block.growTo_of_le hle]

/-- A basis can be made smaller and as large as it was, and has its block back. -/
theorem Sound.exists_restored (h : f.Sound) {rows space : Nat}
    (hs : spaceFor α f.rows f.config.chainCapacity = .ok space) (hle : rows ≤ f.rows) :
    ∃ g k, f.resize rows rows = .ok g ∧ g.resize f.rows f.rows = .ok k ∧ g.rows = rows ∧
      k.rows = f.rows ∧ k.block = f.block := by
  have hroom : space ≤ f.block.size := eq_of_spaceFor hs ▸ h.room
  obtain ⟨g, hg, hgrows, hgconfig, hgblock⟩ := exists_resize_of_le (spaceFor_mono hle hs)
    ((Capacity.space_mono hle).trans h.room)
  obtain ⟨k, hk, hkrows, -, hkblock⟩ := exists_resize_of_le (f := g) (hgconfig ▸ hs)
    (hgblock ▸ hroom)
  exact ⟨g, k, hg, hk, hgrows, hkrows, hkblock.trans hgblock⟩

/-- After any calls, the block is as long as the largest space that an accepted call asked for, and
the most rows are the most that one gave the basis. Giving the basis other rows, or the chain
another capacity, puts zeros after what the block held and changes nothing in it. So do any calls
that write nothing, and once the rows are what they were, so are the columns. A basis can always be
made smaller and as large again. -/
theorem buffers_grow_of_run {operations : List (Operation α)}
    (hrun : (ofConfig config).run operations = .ok f) :
    f.block.size = largest (spaces ((ofConfig config).accepted operations)) ∧
    f.mostRows = largest (rowCounts ((ofConfig config).accepted operations)) ∧
    (∀ rows columns g, f.resize rows columns = .ok g → Extends f.block g.block) ∧
    (∀ capacity g, f.setChainCapacity capacity = .ok g → Extends f.block g.block) ∧
    (∀ g, ReflTransGen (StepWhere Quiet) f g → Extends f.block g.block ∧
      ∀ hrows : g.rows = f.rows, ∀ k c, f.column k = .ok c →
        g.column k = .ok (c.cast hrows.symm)) ∧
    (0 < f.rows → ∀ rows ≤ f.rows, ∃ g k, f.resize rows rows = .ok g ∧
      g.resize f.rows f.rows = .ok k ∧ g.rows = rows ∧ k.rows = f.rows ∧ k.block = f.block) := by
  have hreach : Reaches (ofConfig config) f := reaches_of_run hrun
  have h := sound_of_reaches hreach
  obtain ⟨hsize, hmost⟩ := (sound_ofConfig config).sizes_of_run hrun
  refine ⟨by simpa [ofConfig] using hsize, by simpa [ofConfig] using hmost,
    fun rows columns g => extends_of_resize, fun capacity g => extends_of_setChainCapacity,
    fun g hsteps => ?_, fun hpos rows hle => ?_⟩
  · obtain ⟨hg, hext⟩ := h.extends_of_quiet hsteps
    exact ⟨hext, fun hrows k c hc => h.column_of_extends hg.toLaidOut hext hrows hc⟩
  · obtain ⟨space, hs⟩ := granted_of_reaches hreach hpos
    exact h.exists_restored hs hle

/-- A basis of three columns, the first of them loaded, where there have been four, with a call that
is refused. -/
def fourThenThree : List (Operation Float) :=
  [.setChainCapacity 1, .resize 4 4, .setChainCapacity 3, .resize 3 3, .resize 9 5,
    .loadColumn 0 #[1, 0.5, 3]]

/-- Two columns, a longer chain, another tolerance, and three columns again. -/
def twoThenThree : List (Operation Float) :=
  [.resize 2 2, .setChainCapacity 40, .setZeroTolerance 0.001, .resize 3 3]

/-- The block is first that of four columns with room for three updates, and then that of three
columns with room for forty, where the first of the columns still is. -/
theorem buffers_grow_of_run_fourThenThree : ∃ f g : Factorization Float,
    initial.run fourThenThree = .ok f ∧ f.run twoThenThree = .ok g ∧ f.block.size = 28 ∧
      f.mostRows = 4 ∧ g.block.size = 129 ∧ g.mostRows = 4 ∧
      (∀ m, f.setChainCapacity 40 = .ok m → Extends f.block m.block) ∧
      (∀ m, f.resize 5 5 = .ok m → Extends f.block m.block) ∧ Extends f.block g.block ∧
      (g.column 0).map Vector.toArray = .ok #[1, 0.5, 3] ∧
      ∃ m k, f.resize 1 1 = .ok m ∧ m.resize 3 3 = .ok k ∧ k.block = f.block := by
  have hrun : Except.isOk (do
      let f ← initial.run fourThenThree
      let g ← f.run twoThenThree
      let c ← f.column 0
      if ¬ (f.rows = 3 ∧ g.rows = 3 ∧ c.toArray = #[1, 0.5, 3]) then throw .outOfRange
      return () : Except Fault Unit) = true := by
    decide +kernel
  obtain ⟨_, hrun⟩ := exists_eq_ok_of_isOk hrun
  simp only [bind_eq_ok_iff, guard_eq_ok_iff, not_not] at hrun
  obtain ⟨f, hf, g, hg, c, hc, ⟨hrows, hgrows, hvalues⟩, -⟩ := hrun
  have hquiet : ∀ operation ∈ twoThenThree, ∀ reply, Quiet operation reply := by
    simp [twoThenThree, Quiet, Operation.WritesBlock]
  obtain ⟨hsize, hmost, hresize, hset, hsteps, hback⟩ := buffers_grow_of_run hf
  obtain ⟨hgsize, hgmost, -⟩ := buffers_grow_of_run (run_append_eq_ok_iff.2 ⟨f, hf, hg⟩)
  obtain ⟨hext, hcolumns⟩ := hsteps g (stepWhere_of_run hquiet hg)
  obtain ⟨m, k, hm, hk, -, -, hblock⟩ := hback (by omega) 1 (by omega)
  refine ⟨f, g, hf, hg, hsize.trans (by decide +kernel), hmost.trans (by decide +kernel),
    hgsize.trans (by decide +kernel), hgmost.trans (by decide +kernel), hset 40, hresize 5 5, hext,
    ?_, m, k, hm, hrows ▸ hk, hblock⟩
  rw [hcolumns (hgrows.trans hrows.symm) 0 c hc, ← hvalues]
  rfl

end Factorization

end BasisLU
