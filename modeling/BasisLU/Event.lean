import BasisLU.Factorization.Basic

/-!
# Events

What a call reports while it runs: storage that grew, a basis factored or found singular, slacks put
in, and now and then how far the chain of updates has come. An event is told from the factorizations
before and after the call.
-/

namespace BasisLU

/-- How much an event matters. -/
inductive Level where
  | debug
  | info
  | warn
  deriving DecidableEq, Repr

/-- The name of a level. -/
def Level.name : Level → String
  | debug => "DEBUG"
  | info => "INFO"
  | warn => "WARN"

/-- Something that a call reports. -/
inductive Event where
  | grown (values rows slots : Nat)
  | factored (rows : Nat)
  | stoppedAt (good columns : Nat)
  | slacksPutIn (count : Nat)
  | progress (updates capacity : Nat) (pivot : Float)

namespace Event

/-- How much the event matters. -/
def level : Event → Level
  | stoppedAt .. => .warn
  | progress .. => .info
  | grown .. | factored .. | slacksPutIn .. => .debug

/-- The event in words. -/
def text : Event → String
  | grown values rows slots =>
    s!"Dense factor storage grown to {values} values ({rows} rows, {slots} update slots)"
  | factored rows => s!"Dense factor: {rows} x {rows} basis factored"
  | stoppedAt good columns =>
    s!"Dense factor: basis singular after {good} of {columns} columns"
  | slacksPutIn count => s!"Dense factor: {count} slacks put in basis"
  | progress updates capacity pivot =>
    s!"Dense factor: {updates} of {capacity} updates used, last pivot " ++
      Decimal.scientificRounded pivot

variable {α : Type} [Scalar α]

/-- Storage grew if the block became longer. -/
def ofSizing (before after : Factorization α) : List Event :=
  if before.block.size < after.block.size then
    [grown after.block.size after.rows after.config.chainCapacity]
  else []

/-- How an elimination ended. -/
def ofFactoring (after : Factorization α) : List Event :=
  if after.status = .singular then [stoppedAt after.goodColumns after.rows]
  else [factored after.rows]

/-- A repair tells how many slacks it puts in. -/
def ofRepair (before : Factorization α) : List Event :=
  [slacksPutIn (before.rows - before.goodColumns)]

/-- The chain is reported each time its length is a multiple of the interval. -/
def ofReplacement (after : Factorization α) (pivot : α) : List Event :=
  if 0 < after.config.reportInterval ∧ after.updates % after.config.reportInterval = 0 then
    [progress after.updates after.config.chainCapacity (Scalar.toFloat pivot)]
  else []

end Event

end BasisLU
