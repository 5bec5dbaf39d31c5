/-!
# Faults

A call that breaks a precondition ends in a fault: a bug of the caller, unlike a refusal, which
reports what the numbers or the sizes turned out to be. `Fault.message` is the text of the
preconditions that are stated in words.
-/

namespace BasisLU

/-- A broken precondition. -/
inductive Fault where
  /-- A position outside an array, or a sum beyond the machine word. -/
  | outOfRange
  | notSquare
  | multipleLengths
  | innerLengths
  | ftranBeforeFactor
  | btranBeforeFactor
  | replaceBeforeFactor
  | packedInPlace
  | repairOfRegular
  | stagedOverlap (column : Nat)
  | scratchInUse
  | noSuchColumn (column columns : Nat)
  | listLengths
  | indexOutOfRange (index : Nat)
  | indexOccupied (index : Nat)
  | layoutInUse
  deriving DecidableEq, Repr

/-- The precondition in words; `none` where only a position is wrong. -/
def Fault.message : Fault → Option String
  | outOfRange => none
  | notSquare => some "dense factorization needs a square basis"
  | multipleLengths => some "Slice lengths must match for sub_scaled"
  | innerLengths => some "Slice lengths must match for sub_dot"
  | ftranBeforeFactor => some "FTRAN needs a valid factorization"
  | btranBeforeFactor => some "BTRAN needs a valid factorization"
  | replaceBeforeFactor => some "replace_column needs a valid factorization"
  | packedInPlace => some "no_permute needs an unpacked region"
  | repairOfRegular => some "make_non_singular on a non-singular basis"
  | stagedOverlap column => some s!"staged column {column} overlaps its target"
  | scratchInUse => some "work buffer must be zero after a solve"
  | noSuchColumn column columns =>
    some s!"column {column} out of range for {columns} columns"
  | listLengths => some "indices and values must have the same length"
  | indexOutOfRange index => some s!"index {index} out of range"
  | indexOccupied index => some s!"index {index} is already occupied"
  | layoutInUse => some "packed mode can only change on an empty region"

/-- A sequence of two steps succeeds exactly if both do. -/
theorem bind_eq_ok_iff {ε β γ : Type} {x : Except ε β} {next : β → Except ε γ} {c : γ} :
    (x >>= next) = .ok c ↔ ∃ b, x = .ok b ∧ next b = .ok c := by
  cases x <;> simp [bind, Except.bind]

variable {β : Type}

/-- The entry at a position of an array, which has to exist. -/
def Fault.read (xs : Array β) (i : Nat) : Except Fault β :=
  if h : i < xs.size then .ok xs[i] else .error .outOfRange

theorem Fault.read_of_lt {xs : Array β} {i : Nat} (h : i < xs.size) :
    Fault.read xs i = .ok xs[i] := dif_pos h

theorem Fault.read_of_le {xs : Array β} {i : Nat} (h : xs.size ≤ i) :
    Fault.read xs i = .error .outOfRange := dif_neg (Nat.not_lt.2 h)

/-- A position below `n`. -/
def Fault.below (n i : Nat) : Except Fault (Fin n) :=
  if h : i < n then .ok ⟨i, h⟩ else .error .outOfRange

theorem Fault.below_of_lt {n i : Nat} (h : i < n) : Fault.below n i = .ok ⟨i, h⟩ := dif_pos h

end BasisLU
