import BasisLU.Event
import BasisLU.Factorization.Factor
import BasisLU.Factorization.Replace
import BasisLU.Factorization.Staging

/-!
# Operations

Every call that may change a factorization, as data, and what it comes to: `Operation.perform`
answers with the factorization after the call, the refusal if there is one, the vectors that a solve
gave back, and what was reported. A fault leaves no answer.

A refused call leaves the factorization as it was, except that factoring a singular basis keeps what
was eliminated.
-/

namespace BasisLU

/-- A call on a factorization. -/
inductive Operation (α : Type) where
  | resize (rows columns : Nat)
  | setChainCapacity (capacity : Nat)
  | setZeroTolerance (value : α)
  | setPivotTolerance (value : α)
  | setSlack (value : α)
  | load {rows columns : Nat} (a : Fin rows → Fin columns → α)
  | loadColumn (column : Nat) (values : Array α)
  | loadSlack (column row : Nat)
  | writeColumn (column : Nat) (writes : List (Nat × α))
  | stage (starts rowIndices : Array Nat) (values : Array α)
  | expand
  | factor
  | replace (entering : IndexedVector α) (slot : Nat) (pivot : α)
  | ftran (v : IndexedVector α)
  | ftranInPlace (v : IndexedVector α)
  | ftranPair (v w : IndexedVector α) (inPlace : Bool)
  | btran (v : IndexedVector α)

/-- What a call comes to. -/
structure Reply (α : Type) where
  factorization : Factorization α
  /-- Why the call was refused, if it was. -/
  refusal : Option Refusal
  /-- The code of a replacement or a solve that was not refused. -/
  code : Option Int
  /-- The vectors of a solve, solved. -/
  vectors : List (IndexedVector α)
  events : List Event

namespace Operation

variable {α : Type} [Scalar α]

/-- The reply to a call that solves nothing: a refusal leaves the factorization `before` it. -/
def settle (before : Factorization α) (events : Factorization α → List Event)
    (result : Except Failure (Factorization α)) : Except Fault (Reply α) :=
  match result with
  | .ok after => .ok ⟨after, none, none, [], events after⟩
  | .error (.refused reason) => .ok ⟨before, some reason, none, [], []⟩
  | .error (.fault cause) => .error cause

/-- The reply to a solve. -/
def solved (after : Factorization α) (vectors : List (IndexedVector α)) : Reply α :=
  ⟨after, none, some Completion.complete.code, vectors, []⟩

/-- The call carried out. -/
def perform (f : Factorization α) : Operation α → Except Fault (Reply α)
  | resize rows columns => settle f (Event.ofSizing f) (liftM (f.resize rows columns))
  | setChainCapacity capacity => settle f (Event.ofSizing f) (liftM (f.setChainCapacity capacity))
  | setZeroTolerance value => settle f (fun _ => []) (liftM (f.setZeroTolerance value))
  | setPivotTolerance value => settle f (fun _ => []) (liftM (f.setPivotTolerance value))
  | setSlack value => settle f (fun _ => []) (.ok (f.setSlack value))
  | load a => settle f (Event.ofSizing f) (f.load a)
  | loadColumn column values => settle f (fun _ => []) (f.loadColumn column values)
  | loadSlack column row => settle f (fun _ => []) (f.loadSlack column row)
  | writeColumn column writes => settle f (fun _ => []) (liftM (f.writeColumn column writes))
  | stage starts rowIndices values => settle f (fun _ => []) (f.stage starts rowIndices values)
  | expand => settle f (fun _ => []) f.expand
  | factor => do
    let (after, refusal) ← f.factor
    return ⟨after, refusal, none, [], Event.ofFactoring after⟩
  | replace entering slot pivot => do
    let reply ← settle f (Event.ofReplacement · pivot) (f.replace entering slot pivot)
    let code := if reply.refusal.isNone then some Acceptance.accepted.code else none
    return { reply with code := code }
  | ftran v => do
    let (v, after) ← f.ftran v
    return solved after [v]
  | ftranInPlace v => do return solved f [← f.ftranInPlace v]
  | ftranPair v w inPlace => do
    let (v, w, after) ← f.ftranPair v w inPlace
    return solved after [v, w]
  | btran v => do
    let (v, after) ← f.btran v
    return solved after [v]

end Operation

end BasisLU
