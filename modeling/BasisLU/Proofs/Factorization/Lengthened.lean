import BasisLU.Proofs.Factorization.Appended
import BasisLU.Proofs.Factorization.Beside
import BasisLU.Proofs.Factorization.History

/-!
# Chains and their capacity

Another capacity, or room for the rows there are, leaves what is seen of the basis, and is noticed by
no solve then or later (`Undisturbed`). A chain takes as many replacements as its capacity has room
for: those in excess are refused, and no update is changed by a later one (`Lengthened`,
`Invariant.exists_run_of_ordinary`).
-/

namespace BasisLU.Factorization

variable {α : Type} [Scalar α] {f g : Factorization α}

/-! ## Making room -/

/-- The basis is seen to be the same, and no solve tells the two apart, however many calls later. -/
structure Undisturbed (f g : Factorization α) : Prop where
  view_eq : g.view = { f.view with config := g.config }
  order_eq : g.order = f.order
  solves : ∀ operations f' g', BothRun f g operations f' g' → ∀ solve : Operation α, solve.IsSolve →
    Alike (fun r r' => r'.vectors = r.vectors) (solve.perform f') (solve.perform g')

/-- The parts in use are the same. -/
theorem Beside.view_eq (h : f.Beside g) (hfs : f.Sound) (hgs : g.Sound) :
    g.view = { f.view with config := g.config } := by
  obtain ⟨capacity, block, replaced, rfl, hblock, hreplaced⟩ := h.exists_room
  have hchain : (f.withRoom capacity block replaced).chainPositions = f.chainPositions :=
    take_eq_take fun slot hslot => hreplaced.getElem?_eq (hfs.lt_size_replaced hslot)
      (hgs.lt_size_replaced hslot)
  have hvalues : block.take f.elementCount = f.block.take f.elementCount :=
    take_eq_take fun place hplace => hblock.getElem?_eq (hplace.trans_le hfs.elementCount_le)
      (hplace.trans_le hgs.elementCount_le)
  rw [view, hchain, show (f.withRoom capacity block replaced).block.take
    (f.withRoom capacity block replaced).elementCount = _ from hvalues]
  rfl

theorem Beside.undisturbed [LawfulZero α] (h : f.Beside g) (hfs : f.Sound) (hgs : g.Sound) :
    f.Undisturbed g where
  view_eq := h.view_eq hfs hgs
  order_eq := by rw [h.eq]
  solves _ _ _ hrun _ hsolve := h.solves_of_bothRun hrun hfs hgs hsolve

/-- The buffers that go with the rows are long enough as they are. -/
theorem Sound.beside_grow (h : f.Sound) (capacity space : Nat) :
    f.Beside (grow { f with config := { f.config with chainCapacity := capacity } } space) := by
  have hmost : max f.mostRows f.rows = f.mostRows := max_eq_left h.rows_le
  have hscratch : Block.growTo f.mostRows 0 f.scratch = f.scratch :=
    Block.growTo_of_le (by simp [h.scratch]) 0
  have horder : f.order.growTo f.mostRows = f.order := by
    rw [RowOrder.growTo, Block.growTo_of_le h.size_positionOf.ge,
      Block.growTo_of_le h.size_rowAt.ge]
  refine ⟨?_, samePadded_growTo space, samePadded_growTo capacity⟩
  simp only [grow, hmost, hscratch, horder]

theorem Sound.undisturbed_of_setChainCapacity [LawfulZero α] (h : f.Sound) {capacity : Nat}
    (hg : f.setChainCapacity capacity = .ok g) :
    g.config = { f.config with chainCapacity := max capacity f.updates } ∧ f.Undisturbed g := by
  have hgs := h.setChainCapacity hg
  obtain ⟨space, -, rfl⟩ := setChainCapacity_eq_ok_iff.1 hg
  exact ⟨rfl, (h.beside_grow _ space).undisturbed h hgs⟩

theorem Sound.undisturbed_of_resize [LawfulZero α] (h : f.Sound)
    (hg : f.resize f.rows f.columns = .ok g) : g.config = f.config ∧ f.Undisturbed g := by
  have hgs := h.resize hg
  obtain ⟨hsquare, space, -, rfl⟩ := resize_eq_ok_iff.1 hg
  rw [← hsquare, h.reshape_self] at hgs ⊢
  exact ⟨rfl, (h.beside_grow f.config.chainCapacity space).undisturbed h hgs⟩

/-- A call that makes room succeeds, or is refused and has changed nothing, carried out write by
write. -/
theorem Sound.exists_or_execute (h : f.Sound) {operation : Operation α}
    {events : Factorization α → List Event} {result : Except Refusal (Factorization α)}
    (hperform : operation.perform f = Operation.settle f events (liftM result)) :
    (∃ g, result = .ok g) ∨
      ∃ reason, result = .error reason ∧ operation.execute f = .error (.refused reason) f := by
  cases result with
  | ok g => exact .inl ⟨g, rfl⟩
  | error reason => exact .inr ⟨reason, rfl, Operation.execute_of_refused h hperform rfl⟩

/-! ## Filling the chain -/

/-- A replacement at rows that the basis has, by a pivot above the zero tolerance. -/
def Ordinary (f : Factorization α) : Operation α → Prop
  | .replace v row pivot => v.Made ∧ (∀ i ∈ v.indices, i < f.rows) ∧ row < f.rows ∧
      f.config.zeroTolerance < Scalar.magnitude pivot
  | _ => False

/-- `g` has as many updates more than `f` as there is room for, `count` at most. Those of `f` are as
they were. -/
structure Lengthened (f : Factorization α) (count : Nat) (g : Factorization α) : Prop where
  status_eq : g.status = f.status
  rows_eq : g.rows = f.rows
  config_eq : g.config = f.config
  updates_eq : g.updates = min (f.updates + count) f.config.chainCapacity
  sameUpdate : ∀ slot < f.updates, SameUpdate slot f g

theorem Lengthened.ordinary {count : Nat} (h : f.Lengthened count g) {call : Operation α}
    (hcall : f.Ordinary call) : g.Ordinary call := by
  cases call with
  | replace v row pivot =>
    rw [Ordinary, h.rows_eq, h.config_eq]
    exact hcall
  | _ => exact hcall.elim

omit [Scalar α] in
theorem lengthened_refl {count : Nat}
    (hcount : f.updates = min (f.updates + count) f.config.chainCapacity) : f.Lengthened count f :=
  ⟨rfl, rfl, rfl, hcount, fun _ _ => ⟨rfl, rfl, rfl⟩⟩

theorem Lengthened.trans {h : Factorization α} {count count' : Nat} (hfg : f.Lengthened count g)
    (hgh : g.Lengthened count' h) (hf : f.Sound) : f.Lengthened (count + count') h where
  status_eq := hgh.status_eq.trans hfg.status_eq
  rows_eq := hgh.rows_eq.trans hfg.rows_eq
  config_eq := hgh.config_eq.trans hfg.config_eq
  updates_eq := by
    rw [hgh.updates_eq, hfg.updates_eq, hfg.config_eq]
    omega
  sameUpdate slot hslot := by
    have hle := hf.updates_le
    have hslot' : slot < g.updates := by
      rw [hfg.updates_eq]
      omega
    exact (hfg.sameUpdate slot hslot).trans (hgh.sameUpdate slot hslot')

/-- While there is room a replacement is appended, and then it is refused. -/
theorem Invariant.perform_of_ordinary [LawfulScalar α] [OrderedScalar α] (h : f.Invariant)
    (hvalid : f.status = .valid) {call : Operation α} (hcall : f.Ordinary call) :
    ∃ reply, call.perform f = .ok reply ∧ f.Lengthened 1 reply.factorization ∧
      (f.updates < f.config.chainCapacity →
        reply.refusal = none ∧ ∃ p, f.AppendsTo p reply.factorization) ∧
      (f.config.chainCapacity ≤ f.updates →
        call.execute f = .error (.refused (.chainFull f.config.chainCapacity)) f) := by
  cases call with
  | replace v row pivot =>
    obtain ⟨hv, hlt, hrow, hpivot⟩ := hcall
    rcases Nat.lt_or_ge f.updates f.config.chainCapacity with hroom | hfull
    · obtain ⟨g, hg⟩ := (h.exists_replace_iff hvalid hv hlt hrow).2 ⟨hroom, .inl hpivot⟩
      obtain ⟨p, -, happends⟩ := h.appendsTo_of_replace hg
      have hlengthened : f.Lengthened 1 g := by
        refine ⟨?_, ?_, ?_, ?_, fun slot hslot => h.sameUpdate_of_replace hg hslot⟩ <;>
          rw [happends.eq]
        exact (min_eq_left hroom).symm
      rw [Operation.perform, hg]
      exact ⟨_, rfl, hlengthened, fun _ => ⟨rfl, p, happends⟩, fun hfull => by omega⟩
    · have hrefused : f.replace v row pivot =
          .error (.refused (.chainFull f.config.chainCapacity)) :=
        (replace_eq_refused_iff hvalid).2 (.inl ⟨hfull, rfl⟩)
      have hexecute := h.execute_replace hrefused
      have hle := h.updates_le
      rw [Operation.perform, hrefused]
      exact ⟨_, rfl, lengthened_refl (show f.updates = _ by omega), fun hroom => by omega,
        fun _ => hexecute⟩
  | _ => exact hcall.elim

/-- Replacements one after another fill the chain. -/
theorem Invariant.exists_run_of_ordinary [LawfulScalar α] [OrderedScalar α] :
    ∀ {calls : List (Operation α)} {f : Factorization α}, f.Invariant → f.status = .valid →
      (∀ call ∈ calls, f.Ordinary call) →
      ∃ g, f.run calls = .ok g ∧ g.Invariant ∧ f.Lengthened calls.length g
  | [], f, h, _, _ => ⟨f, rfl, h, lengthened_refl (min_eq_left h.updates_le).symm⟩
  | call :: calls, f, h, hvalid, hcalls => by
    obtain ⟨reply, hr, hone, -⟩ := h.perform_of_ordinary hvalid (hcalls call List.mem_cons_self)
    obtain ⟨g, hg, hinvariant, hrest⟩ := exists_run_of_ordinary (h.perform hr)
      (hone.status_eq.trans hvalid) fun c hc => hone.ordinary (hcalls c (List.mem_cons_of_mem _ hc))
    refine ⟨g, run_cons_eq_ok_iff.2 ⟨reply, hr, hg⟩, hinvariant, ?_⟩
    rw [List.length_cons, Nat.add_comm]
    exact hone.trans hrest h.toSound

/-- After any calls, another capacity, or room for the rows there are, is granted without disturbing
the factors, or refused without a change; a capacity that is granted is the one asked for, or that
of the updates there are. With valid factors, exactly as many replacements as there is room for are
appended, whatever they are, without a fault or a change of older updates; any later one is refused
and changes nothing. -/
theorem chain_of_reaches [LawfulScalar α] [OrderedScalar α] {start : Factorization α}
    (hnew : start.New) (hreach : Reaches start f) :
    (∀ capacity,
      (∃ g, f.setChainCapacity capacity = .ok g ∧
        g.config = { f.config with chainCapacity := max capacity f.updates } ∧ f.Undisturbed g) ∨
      ∃ reason, f.setChainCapacity capacity = .error reason ∧
        (Operation.setChainCapacity capacity).execute f = .error (.refused reason) f) ∧
    ((∃ g, f.resize f.rows f.columns = .ok g ∧ g.config = f.config ∧ f.Undisturbed g) ∨
      ∃ reason, f.resize f.rows f.columns = .error reason ∧
        (Operation.resize f.rows f.columns).execute f = .error (.refused reason) f) ∧
    (f.status = .valid → ∀ calls : List (Operation α), (∀ call ∈ calls, f.Ordinary call) →
      ∃ g, f.run calls = .ok g ∧ f.Lengthened calls.length g ∧
        ∀ call, f.Ordinary call → ∃ reply, call.perform g = .ok reply ∧
          (∀ slot < g.updates, SameUpdate slot g reply.factorization) ∧
          (calls.length < f.config.chainCapacity - f.updates →
            reply.refusal = none ∧ ∃ p, g.AppendsTo p reply.factorization) ∧
          (f.config.chainCapacity - f.updates ≤ calls.length →
            call.execute g = .error (.refused (.chainFull f.config.chainCapacity)) g)) := by
  have h := invariant_of_reaches hnew hreach
  refine ⟨fun capacity => ?_, ?_, fun hvalid calls hcalls => ?_⟩
  · have hperform : (Operation.setChainCapacity capacity).perform f =
        Operation.settle f (Event.ofSizing f) (liftM (f.setChainCapacity capacity)) := rfl
    refine (h.exists_or_execute hperform).imp_left fun hset => ?_
    obtain ⟨g, hg⟩ := hset
    exact ⟨g, hg, h.undisturbed_of_setChainCapacity hg⟩
  · have hperform : (Operation.resize f.rows f.columns).perform f =
        Operation.settle f (Event.ofSizing f) (liftM (f.resize f.rows f.columns)) := rfl
    refine (h.exists_or_execute hperform).imp_left fun hresize => ?_
    obtain ⟨g, hg⟩ := hresize
    exact ⟨g, hg, h.undisturbed_of_resize hg⟩
  · obtain ⟨g, hg, hinvariant, hlengthened⟩ := h.exists_run_of_ordinary hvalid hcalls
    refine ⟨g, hg, hlengthened, fun call hcall => ?_⟩
    obtain ⟨reply, hr, hone, happended, hrefused⟩ := hinvariant.perform_of_ordinary
      (hlengthened.status_eq.trans hvalid) (hlengthened.ordinary hcall)
    have hupdates := hlengthened.updates_eq
    have hle := h.updates_le
    rw [hlengthened.config_eq] at happended hrefused
    exact ⟨reply, hr, hone.sameUpdate, fun hroom => happended (by omega),
      fun hfull => hrefused (by omega)⟩

/-- The chain may lose the room it has left, and otherwise takes one more update. -/
theorem chain_of_reaches_updatedOnce : ∃ f g h : Factorization Float,
    initial.run updatedOnce = .ok f ∧ f.setChainCapacity 0 = .ok g ∧ g.config.chainCapacity = 1 ∧
      f.Undisturbed g ∧ f.run [.replace single 0 2] = .ok h ∧ h.updates = 2 ∧
      (Operation.replace single 0 2).execute h = .error (.refused (.chainFull 2)) h := by
  have hrun : Except.isOk (do
      let f ← initial.run updatedOnce
      if ¬ (f.status = .valid ∧ f.rows = 1 ∧ f.updates = 1 ∧ f.config.chainCapacity = 2 ∧
        f.config.zeroTolerance < Scalar.magnitude 2) then throw .outOfRange
      if !(f.setChainCapacity 0).isOk then throw .outOfRange
      return f : Except Fault (Factorization Float)) = true := by
    decide +kernel
  obtain ⟨_, hrun⟩ := exists_eq_ok_of_isOk hrun
  simp only [bind_eq_ok_iff, guard_eq_ok_iff, not_not] at hrun
  obtain ⟨f, hf, ⟨hvalid, hrows, hupdates, hcapacity, hpivot⟩, hset, -⟩ := hrun
  obtain ⟨hcapacities, -, hchain⟩ := chain_of_reaches .initial (reaches_of_run hf)
  have hordinary : f.Ordinary (.replace single 0 2) :=
    ⟨made_single, by simp [single, hrows], by omega, hpivot⟩
  rcases hcapacities 0 with ⟨g, hg, hconfig, hundisturbed⟩ | ⟨reason, hrefused, -⟩
  · obtain ⟨h, hh, hlengthened, hnext⟩ := hchain hvalid [.replace single 0 2] (by simp [hordinary])
    obtain ⟨-, -, -, -, hfull⟩ := hnext _ hordinary
    have hcount : h.updates = min (f.updates + 1) f.config.chainCapacity := hlengthened.updates_eq
    refine ⟨f, g, h, hf, hg, by simp [hconfig, hupdates], hundisturbed, hh, by omega, ?_⟩
    rw [← hcapacity]
    exact hfull (by rw [hupdates, hcapacity]; rfl)
  · simp [hrefused, Except.isOk, Except.toBool] at hset

end BasisLU.Factorization
