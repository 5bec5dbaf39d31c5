/-!
# Capacity

How much room a basis needs: a square part of `rows` columns and, after it, room for updates.
Sizes are machine words, so a sum or product that leaves the word is no size at all
(`checkedAdd_eq_some_iff`, `checkedMul_eq_some_iff`), and neither is one that no allocation can
hold.
-/

namespace BasisLU

/-- Sizes are below this. -/
def wordSize : Nat := UInt64.size

/-- No array holds more bytes than this: the greatest signed word. -/
def allocationBytes : Nat := UInt64.size / 2 - 1

/-- Bytes of a stored position. -/
def positionBytes : Nat := 8

/-- The sum, if it is a machine word. -/
def checkedAdd (a b : Nat) : Option Nat := if a + b < wordSize then some (a + b) else none

/-- The product, if it is a machine word. -/
def checkedMul (a b : Nat) : Option Nat := if a * b < wordSize then some (a * b) else none

theorem checkedAdd_eq_some_iff {a b s : Nat} :
    checkedAdd a b = some s ↔ a + b = s ∧ a + b < wordSize := by
  unfold checkedAdd; split <;> simp <;> omega

theorem checkedMul_eq_some_iff {a b s : Nat} :
    checkedMul a b = some s ↔ a * b = s ∧ a * b < wordSize := by
  unfold checkedMul; split <;> simp <;> omega

/-- The longest array of entries of `bytes` bytes. -/
def allocationLimit (bytes : Nat) : Nat := allocationBytes / max bytes 1

/-- A basis of `rows` rows, with room for `updates` updates before it is factored again. -/
structure Capacity where
  rows : Nat
  updates : Nat
  deriving DecidableEq, Repr

namespace Capacity

/-- Columns kept for updates: at least half as many as there are rows. -/
def chainColumns (c : Capacity) : Nat := max c.updates ((c.rows + 1) / 2)

/-- Stored values that the basis and its updates take. -/
def values? (c : Capacity) : Option Nat := do
  let columns ← checkedAdd c.rows c.chainColumns
  checkedMul columns c.rows

/-- The same, if both the values, of `bytes` bytes each, and a position for every update can be
allocated. -/
def allocatable? (bytes : Nat) (c : Capacity) : Option Nat := do
  let space ← c.values?
  if space ≤ allocationLimit bytes ∧ c.updates ≤ allocationLimit positionBytes then
    some space
  else none

end Capacity

end BasisLU
