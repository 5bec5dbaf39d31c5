/-!
# Statuses

What a factorization holds, and how a replacement or a solve ended, each with the integer that
status handling is keyed on.
-/

namespace BasisLU

/-- What a factorization holds. -/
inductive Status where
  /-- Nothing has been factored since the basis was last resized. -/
  | unfactored
  /-- Elimination stopped at a column without an acceptable pivot. -/
  | singular
  /-- Factors of the whole basis. -/
  | valid
  deriving DecidableEq, Repr, Inhabited

namespace Status

/-- Nought for factors that can be used. -/
def code : Status → Int
  | valid => 0
  | unfactored | singular => -1

/-- Whether solves and updates may be asked for. -/
def isValid : Status → Bool
  | valid => true
  | unfactored | singular => false

theorem isValid_iff {s : Status} : s.isValid = true ↔ s = valid := by cases s <;> simp [isValid]

end Status

/-- How a replacement that was not refused ended. -/
inductive Acceptance where
  | accepted
  /-- Accepted, but of doubtful accuracy; a dense update never is. -/
  | doubtful
  deriving DecidableEq, Repr

/-- Nought for a replacement without doubts. -/
def Acceptance.code : Acceptance → Int
  | accepted => 0
  | doubtful => 1

/-- How a solve ended. -/
inductive Completion where
  | complete
  /-- The part of the updates was put off; a dense solve never does that. -/
  | deferred
  deriving DecidableEq, Repr

/-- Nought for a finished solve. -/
def Completion.code : Completion → Int
  | complete => 0
  | deferred => 1

end BasisLU
