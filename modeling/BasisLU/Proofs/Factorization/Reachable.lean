import BasisLU.Proofs.Factorization.Solving
import BasisLU.Operation

/-!
# Runs

A factorization changes by calls only (`Step`), and every call keeps it sound (`Sound.perform`), so
every factorization that calls lead to from one without a basis is sound (`sound_of_reaches`). A
solve changes nothing (`Sound.perform_eq_of_isSolve`). What calls lead to can be computed, call by
call (`run`, `reaches_of_run`).
-/

namespace BasisLU

open Relation (ReflTransGen)

variable {α : Type} [Scalar α]

/-- Whether the call is one of the solves. -/
def Operation.IsSolve : Operation α → Prop
  | .ftran _ | .ftranInPlace _ | .ftranPair _ _ _ | .btran _ => True
  | _ => False

namespace Factorization

/-- A call that does not fault leads from one factorization to the other. -/
def Step (f g : Factorization α) : Prop :=
  ∃ (operation : Operation α) (reply : Reply α),
    operation.perform f = .ok reply ∧ reply.factorization = g

/-- Calls one after another. -/
def Reaches : Factorization α → Factorization α → Prop := ReflTransGen Step

variable {f g : Factorization α}

/-- Calls one after another, as long as none faults. -/
def run (f : Factorization α) (operations : List (Operation α)) : Except Fault (Factorization α) :=
  operations.foldlM (fun f operation => return (← operation.perform f).factorization) f

theorem reaches_of_run : ∀ {operations : List (Operation α)} {f : Factorization α},
    f.run operations = .ok g → Reaches f g
  | [], f, h => by
    cases h
    exact .refl
  | operation :: operations, f, h => by
    simp only [run, List.foldlM_cons, bind_eq_ok_iff, pure_eq_ok_iff] at h
    obtain ⟨_, ⟨reply, hr, rfl⟩, h⟩ := h
    exact .head ⟨operation, reply, hr, rfl⟩ (reaches_of_run h)

omit [Scalar α] in
/-- A call that is settled leaves a refused factorization, or that of its result. -/
theorem of_settle {p : Factorization α → Prop} (h : p f) {events : Factorization α → List Event}
    {result : Except Failure (Factorization α)} {reply : Reply α}
    (hr : ∀ {g}, result = .ok g → p g)
    (hs : Operation.settle f events result = .ok reply) : p reply.factorization := by
  cases result with
  | ok g => cases hs; exact hr rfl
  | error failure =>
    cases failure with
    | refused reason => cases hs; exact h
    | fault cause => cases hs

omit [Scalar α] in
/-- A call that is settled is refused with nothing changed, or comes to its result. -/
theorem refused_or_of_settle {p : Factorization α → Prop}
    {events : Factorization α → List Event} {result : Except Failure (Factorization α)}
    {reply : Reply α} (hr : ∀ {g}, result = .ok g → p g)
    (hs : Operation.settle f events result = .ok reply) :
    (reply.refusal ≠ none ∧ reply.factorization = f) ∨
      (reply.refusal = none ∧ p reply.factorization) := by
  cases result with
  | ok g => cases hs; exact .inr ⟨rfl, hr rfl⟩
  | error failure =>
    cases failure with
    | refused reason => cases hs; exact .inl ⟨nofun, rfl⟩
    | fault cause => cases hs

theorem Sound.perform_eq_of_isSolve (h : f.Sound) (operation : Operation α)
    (ho : operation.IsSolve) {reply : Reply α} (hr : operation.perform f = .ok reply) :
    reply.factorization = f := by
  cases operation with
  | ftran v =>
    simp only [Operation.perform, bind_eq_ok_iff, pure_eq_ok_iff] at hr
    obtain ⟨⟨_, g⟩, hg, rfl⟩ := hr
    exact h.eq_of_ftran hg
  | ftranInPlace v =>
    simp only [Operation.perform, bind_eq_ok_iff, pure_eq_ok_iff] at hr
    obtain ⟨_, -, rfl⟩ := hr
    rfl
  | ftranPair v w inPlace =>
    simp only [Operation.perform, bind_eq_ok_iff, pure_eq_ok_iff] at hr
    obtain ⟨⟨_, _, g⟩, hg, rfl⟩ := hr
    exact h.eq_of_ftranPair hg
  | btran v =>
    simp only [Operation.perform, bind_eq_ok_iff, pure_eq_ok_iff] at hr
    obtain ⟨⟨_, g⟩, hg, rfl⟩ := hr
    exact h.eq_of_btran hg
  | _ => exact ho.elim

theorem Sound.perform (h : f.Sound) {operation : Operation α} {reply : Reply α}
    (hr : operation.perform f = .ok reply) : reply.factorization.Sound := by
  cases operation with
  | resize rows columns => exact of_settle h (fun hg => h.resize (liftRefusal_eq_ok_iff.1 hg)) hr
  | setChainCapacity capacity =>
    exact of_settle h (fun hg => h.setChainCapacity (liftRefusal_eq_ok_iff.1 hg)) hr
  | setZeroTolerance value =>
    exact of_settle h (fun hg => h.setZeroTolerance (liftRefusal_eq_ok_iff.1 hg)) hr
  | setPivotTolerance value =>
    exact of_settle h (fun hg => h.setPivotTolerance (liftRefusal_eq_ok_iff.1 hg)) hr
  | setSlack value =>
    cases hr
    exact h.setSlack value
  | load a => exact of_settle h h.load hr
  | loadColumn column values => exact of_settle h h.loadColumn hr
  | loadSlack column row => exact of_settle h h.loadSlack hr
  | writeColumn column writes =>
    exact of_settle h (fun hg => h.writeColumn (liftFault_eq_ok_iff.1 hg)) hr
  | stage starts rowIndices values => exact of_settle h h.stage hr
  | expand => exact of_settle h h.expand hr
  | factor =>
    simp only [Operation.perform, bind_eq_ok_iff, pure_eq_ok_iff] at hr
    obtain ⟨⟨g, refusal⟩, hg, rfl⟩ := hr
    exact h.factor hg
  | replace entering slot pivot =>
    simp only [Operation.perform, bind_eq_ok_iff, pure_eq_ok_iff] at hr
    obtain ⟨settled, hs, rfl⟩ := hr
    have hsettled : settled.factorization.Sound := of_settle h h.replace hs
    exact hsettled
  | ftran v =>
    rwa [h.perform_eq_of_isSolve (.ftran v) trivial hr]
  | ftranInPlace v =>
    rwa [h.perform_eq_of_isSolve (.ftranInPlace v) trivial hr]
  | ftranPair v w inPlace =>
    rwa [h.perform_eq_of_isSolve (.ftranPair v w inPlace) trivial hr]
  | btran v =>
    rwa [h.perform_eq_of_isSolve (.btran v) trivial hr]

theorem sound_of_reaches {config : Config α} (h : Reaches (ofConfig config) f) : f.Sound := by
  induction h with
  | refl => exact sound_ofConfig config
  | tail _ hs ih =>
    obtain ⟨operation, reply, hr, rfl⟩ := hs
    exact ih.perform hr

theorem reaches_of_load {n : Nat} {a : Fin n → Fin n → α} (h : f.load a = .ok g) : Reaches f g := by
  refine .single ⟨.load a, ⟨g, none, none, [], Event.ofSizing f g⟩, ?_, rfl⟩
  rw [Operation.perform, h]
  rfl

/-- Parameters with room for two updates. -/
def smallConfig : Config Rat := { Config.initial with chainCapacity := 2 }

end Factorization

end BasisLU
