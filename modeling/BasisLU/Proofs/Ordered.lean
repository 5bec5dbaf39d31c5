import Mathlib.Data.Prod.Lex
import Mathlib.Order.Compare
import BasisLU.Proofs.Lawful

/-!
# Ordered scalars

What a comparison of scalars is taken for: a linear order of the numbers, in which nothing else
takes part (`OrderedScalar`). A value is a number if it compares with itself, so a test for one
order and the opposite test for the other disagree exactly on what is no number (`not_le_iff`).

Scalars are ordered if they compare as their ranks do, of which only numbers have one
(`OrderedScalar.of_rank`). A floating-point number is ranked by its class, and among the values of
one class by exponent and mantissa (`FloatingPoint.compare_of_rank`).

What has a magnitude above a positive number is a number, and not zero (`LawfulMagnitude`).
-/

namespace BasisLU

/-- Whether a value compares with itself. -/
def Scalar.IsNumber {α : Type} [Scalar α] (a : α) : Prop := a ≤ a

/-- Scalars with a linear order of the numbers, in which nothing else takes part. -/
class OrderedScalar (α : Type) [Scalar α] : Prop where
  lt_iff {a b : α} : a < b ↔ a ≤ b ∧ ¬ b ≤ a
  trans {a b c : α} : a ≤ b → b ≤ c → a ≤ c
  isNumber_of_le {a b : α} : a ≤ b → Scalar.IsNumber a ∧ Scalar.IsNumber b
  total {a b : α} : Scalar.IsNumber a → Scalar.IsNumber b → a ≤ b ∨ b ≤ a

/-- Scalars with zero for the magnitude of a zero, and a number only for that of a number. -/
class LawfulMagnitude (α : Type) [Scalar α] : Prop where
  magnitude_of_isZero {a : α} : Scalar.isZero a = true → Scalar.magnitude a = 0
  isNumber_of_magnitude {a : α} : Scalar.IsNumber (Scalar.magnitude a) → Scalar.IsNumber a

namespace Scalar

variable {α : Type} [Scalar α] [OrderedScalar α] {a b c : α}

theorem lt_irrefl (a : α) : ¬ a < a := fun h =>
  (OrderedScalar.lt_iff.1 h).2 (OrderedScalar.lt_iff.1 h).1

theorem lt_trans (hab : a < b) (hbc : b < c) : a < c := by
  rw [OrderedScalar.lt_iff] at hab hbc ⊢
  exact ⟨OrderedScalar.trans hab.1 hbc.1,
    fun hca => hab.2 (OrderedScalar.trans hbc.1 hca)⟩

theorem lt_of_lt_of_le (hab : a < b) (hbc : b ≤ c) : a < c := by
  rw [OrderedScalar.lt_iff] at hab ⊢
  exact ⟨OrderedScalar.trans hab.1 hbc, fun hca => hab.2 (OrderedScalar.trans hbc hca)⟩

theorem isNumber_of_lt (h : a < b) : IsNumber a ∧ IsNumber b :=
  OrderedScalar.isNumber_of_le (OrderedScalar.lt_iff.1 h).1

/-- What is not at most a number is above it, or no number. -/
theorem not_le_iff (hb : IsNumber b) : ¬ a ≤ b ↔ b < a ∨ ¬ IsNumber a := by
  constructor
  · intro h
    by_cases ha : IsNumber a
    · exact .inl (OrderedScalar.lt_iff.2 ⟨(OrderedScalar.total ha hb).resolve_left h, h⟩)
    · exact .inr ha
  · rintro (h | h) hle
    · exact (OrderedScalar.lt_iff.1 h).2 hle
    · exact h (OrderedScalar.isNumber_of_le hle).1

/-- What is not above a number is at most that, or no number. -/
theorem not_lt_iff (hb : IsNumber b) : ¬ b < a ↔ a ≤ b ∨ ¬ IsNumber a := by
  constructor
  · intro h
    by_cases hle : a ≤ b
    · exact .inl hle
    · exact .inr (((not_le_iff hb).1 hle).resolve_left h)
  · rintro (h | h) hlt
    · exact (OrderedScalar.lt_iff.1 hlt).2 h
    · exact h (isNumber_of_lt hlt).2

theorem isNumber_of_lt_magnitude [LawfulMagnitude α] (h : b < magnitude a) : IsNumber a :=
  LawfulMagnitude.isNumber_of_magnitude (isNumber_of_lt h).2

theorem isZero_of_lt_magnitude [LawfulMagnitude α] (hb : 0 < b) (h : b < magnitude a) :
    isZero a = false := by
  refine Bool.eq_false_iff.2 fun hzero => ?_
  rw [LawfulMagnitude.magnitude_of_isZero hzero] at h
  exact lt_irrefl 0 (lt_trans hb h)

end Scalar

/-- Scalars that compare as their ranks do, of which only numbers have one. -/
theorem OrderedScalar.of_rank {α β : Type} [Scalar α] [LinearOrder β] (rank? : α → Option β)
    (hlt : ∀ a b : α, a < b ↔ ∃ x y, rank? a = some x ∧ rank? b = some y ∧ x < y)
    (hle : ∀ a b : α, a ≤ b ↔ ∃ x y, rank? a = some x ∧ rank? b = some y ∧ x ≤ y) :
    OrderedScalar α := by
  have hself (a : α) : a ≤ a ↔ ∃ x, rank? a = some x := by
    rw [hle]
    constructor
    · rintro ⟨x, -, ha, -⟩
      exact ⟨x, ha⟩
    · rintro ⟨x, ha⟩
      exact ⟨x, x, ha, ha, le_rfl⟩
  refine ⟨fun {a b} => ?_, fun {a b c} hab hbc => ?_, fun {a b} hab => ?_, fun {a b} ha hb => ?_⟩
  · rw [hlt, hle, hle]
    constructor
    · rintro ⟨x, y, ha, hb, hxy⟩
      refine ⟨⟨x, y, ha, hb, hxy.le⟩, ?_⟩
      rintro ⟨y', x', hb', ha', hyx⟩
      cases ha.symm.trans ha'
      cases hb.symm.trans hb'
      exact hxy.not_ge hyx
    · rintro ⟨⟨x, y, ha, hb, hxy⟩, hnot⟩
      exact ⟨x, y, ha, hb, lt_of_le_not_ge hxy fun hyx => hnot ⟨y, x, hb, ha, hyx⟩⟩
  · obtain ⟨x, y, ha, hb, hxy⟩ := (hle a b).1 hab
    obtain ⟨y', z, hb', hc, hyz⟩ := (hle b c).1 hbc
    cases hb.symm.trans hb'
    exact (hle a c).2 ⟨x, z, ha, hc, hxy.trans hyz⟩
  · obtain ⟨x, y, ha, hb, -⟩ := (hle a b).1 hab
    exact ⟨(hself a).2 ⟨x, ha⟩, (hself b).2 ⟨y, hb⟩⟩
  · obtain ⟨x, hx⟩ := (hself a).1 ha
    obtain ⟨y, hy⟩ := (hself b).1 hb
    rw [hle, hle]
    exact (le_total x y).imp (fun h => ⟨x, y, hx, hy, h⟩) fun h => ⟨y, x, hy, hx, h⟩

instance {α : Type} [ExactScalar α] : OrderedScalar α :=
  .of_rank some (by simp) (by simp)

instance {α : Type} [ExactScalar α] : LawfulMagnitude α where
  magnitude_of_isZero h := by rw [Scalar.isZero_iff.1 h, Scalar.magnitude_eq_abs, abs_zero]
  isNumber_of_magnitude _ := le_refl _

instance {α : Type} [Scalar α] [OrderedScalar α] : IsStrictOrder α (· < ·) where
  irrefl := Scalar.lt_irrefl
  trans _ _ _ := Scalar.lt_trans

/-! ## Floating-point numbers -/

namespace FloatingPoint

open Float.Model (UnpackedFloat)

/-- A place in the order: the class of a value, from negative to positive infinity, and within the
class its exponent and mantissa. -/
abbrev Rank := Int ×ₗ Int ×ₗ Int

/-- The place with the given class, exponent and mantissa. -/
def rank (order exponent mantissa : Int) : Rank := toLex (order, toLex (exponent, mantissa))

/-- The place of a number. -/
def rank? : UnpackedFloat → Option Rank
  | .notANumber => none
  | .infinity .negative => some (rank (-2) 0 0)
  | .finite .negative mantissa exponent _ => some (rank (-1) (-exponent) (-mantissa))
  | .zero _ => some (rank 0 0 0)
  | .finite .positive mantissa exponent _ => some (rank 1 exponent mantissa)
  | .infinity .positive => some (rank 2 0 0)

theorem compare_rank (o o' e e' m m' : Int) : compare (rank o e m) (rank o' e' m') =
    (compare o o').then ((compare e e').then (compare m m')) := by
  simp only [Prod.Lex.compare_def, compareLex, compareOn, rank, ofLex_toLex]

theorem compare_neg_neg (a b : Int) : compare (-a) (-b) = (compare a b).swap := by
  rw [← Std.OrientedCmp.eq_swap, ← cmp_eq_compare, ← cmp_eq_compare]
  simp [cmp, cmpUsing]

theorem compare_natCast (a b : Nat) : compare (a : Int) (b : Int) = compare a b := by
  rw [← cmp_eq_compare, ← cmp_eq_compare]
  simp [cmp, cmpUsing]

variable {a b : UnpackedFloat} {x y : Rank}

/-- Numbers compare as their places do. -/
theorem compare_of_rank (ha : rank? a = some x) (hb : rank? b = some y) :
    a.compare b = some (compare x y) := by
  revert ha hb
  fun_cases rank? a <;> fun_cases rank? b <;> intro ha hb <;> cases ha <;> cases hb <;>
    rw [compare_rank]
  -- Only finite values of the same sign take more than a look at their classes.
  all_goals try rfl
  · rename_i m e _ m' e' _
    rw [compare_neg_neg e e', compare_neg_neg m m', compare_natCast m m', ← Ordering.swap_then]
    rfl
  · rename_i m e _ m' e' _
    rw [compare_natCast m m']
    rfl

/-- Nothing else compares. -/
theorem compare_of_rank_eq_none (h : rank? a = none ∨ rank? b = none) : a.compare b = none := by
  have hnan {c : UnpackedFloat} (hc : rank? c = none) : c = .notANumber := by
    revert hc
    fun_cases rank? c <;> intro hc <;> first | rfl | cases hc
  rcases h with h | h <;> rw [hnan h]
  · rfl
  · cases a <;> rfl

theorem lt_iff_rank : a.lt b = true ↔ ∃ x y, rank? a = some x ∧ rank? b = some y ∧ x < y := by
  rw [UnpackedFloat.lt, beq_iff_eq]
  cases ha : rank? a with
  | none => simp [compare_of_rank_eq_none (.inl ha)]
  | some x =>
    cases hb : rank? b with
    | none => simp [compare_of_rank_eq_none (.inr hb)]
    | some y => simp [compare_of_rank ha hb, compare_lt_iff_lt]

theorem le_iff_rank : a.le b = true ↔ ∃ x y, rank? a = some x ∧ rank? b = some y ∧ x ≤ y := by
  rw [UnpackedFloat.le]
  cases ha : rank? a with
  | none => simp [compare_of_rank_eq_none (.inl ha)]
  | some x =>
    cases hb : rank? b with
    | none => simp [compare_of_rank_eq_none (.inr hb)]
    | some y => simp [compare_of_rank ha hb, ← Ordering.ne_gt_iff_isLE, compare_le_iff_le]

/-- Everything but a NaN compares with itself. -/
theorem le_self_iff : a.le a = true ↔ a.isNaN = false := by
  cases a with
  | notANumber => decide
  | infinity s => cases s <;> decide
  | zero s => exact iff_of_true (le_iff_rank.2 ⟨_, _, rfl, rfl, le_rfl⟩) rfl
  | finite s m e h =>
    cases s <;> exact iff_of_true (le_iff_rank.2 ⟨_, _, rfl, rfl, le_rfl⟩) rfl

theorem eq_notANumber (h : ¬ a.le a = true) : a = .notANumber := by
  rw [le_self_iff] at h
  cases a with
  | notANumber => rfl
  | _ => exact absurd rfl h

/-- Only a zero compares with zero both ways. -/
theorem exists_eq_zero (h : a.le (.zero .positive) = true)
    (h' : (UnpackedFloat.zero .positive).le a = true) : ∃ s, a = .zero s := by
  cases a with
  | notANumber => cases h
  | zero s => exact ⟨s, rfl⟩
  | infinity s =>
    cases s with
    | positive => cases h
    | negative => cases h'
  | finite s m e hm =>
    cases s with
    | positive => cases h
    | negative => cases h'

/-- Scalars that compare as floating-point numbers do, with zero for the magnitude of both zeros,
and for that of a NaN nothing that compares with itself. -/
theorem lawfulMagnitude_of_unpack {α : Type} [Scalar α] (unpack : α → UnpackedFloat)
    (hle : ∀ a b : α, a ≤ b ↔ (unpack a).le (unpack b) = true)
    (hzero : unpack 0 = .zero .positive)
    (hmagnitude : ∀ (a : α) (s), unpack a = .zero s → Scalar.magnitude a = 0)
    (hnan : ∀ a : α, unpack a = .notANumber → ¬ Scalar.IsNumber (Scalar.magnitude a)) :
    LawfulMagnitude α where
  magnitude_of_isZero {a} h := by
    rw [Scalar.isZero, Scalar.same, Bool.and_eq_true, decide_eq_true_iff, decide_eq_true_iff, hle,
      hle, hzero] at h
    obtain ⟨s, hs⟩ := exists_eq_zero h.1 h.2
    exact hmagnitude a s hs
  isNumber_of_magnitude {a} h := by
    by_contra ha
    exact hnan a (eq_notANumber (mt (hle a a).2 ha)) h

end FloatingPoint

theorem Scalar.isNumber_iff_isNaN {a : Float} : Scalar.IsNumber a ↔ a.isNaN = false :=
  decide_eq_true_iff.trans FloatingPoint.le_self_iff

instance : OrderedScalar Float :=
  .of_rank (fun a => FloatingPoint.rank? a.toModel.unpack)
    (fun _ _ => decide_eq_true_iff.trans FloatingPoint.lt_iff_rank)
    (fun _ _ => decide_eq_true_iff.trans FloatingPoint.le_iff_rank)

instance : OrderedScalar Float32 :=
  .of_rank (fun a => FloatingPoint.rank? a.toModel.unpack)
    (fun _ _ => decide_eq_true_iff.trans FloatingPoint.lt_iff_rank)
    (fun _ _ => decide_eq_true_iff.trans FloatingPoint.le_iff_rank)

instance : LawfulMagnitude Float := by
  refine FloatingPoint.lawfulMagnitude_of_unpack (fun a => a.toModel.unpack)
    (fun _ _ => decide_eq_true_iff) rfl (fun a s ha => ?_) fun a ha => ?_
  · show Float.ofModel (Float.Model.pack a.toModel.unpack.abs) = 0
    rw [ha]
    rfl
  · show ¬ Scalar.IsNumber (Float.ofModel (Float.Model.pack a.toModel.unpack.abs))
    rw [ha, Scalar.IsNumber]
    decide +kernel

instance : LawfulMagnitude Float32 := by
  refine FloatingPoint.lawfulMagnitude_of_unpack (fun a => a.toModel.unpack)
    (fun _ _ => decide_eq_true_iff) rfl (fun a s ha => ?_) fun a ha => ?_
  · show Float32.ofModel (Float32.Model.pack a.toModel.unpack.abs) = 0
    rw [ha]
    rfl
  · show ¬ Scalar.IsNumber (Float32.ofModel (Float32.Model.pack a.toModel.unpack.abs))
    rw [ha, Scalar.IsNumber]
    decide +kernel

end BasisLU
