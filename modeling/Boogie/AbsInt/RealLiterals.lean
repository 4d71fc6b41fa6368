import Boogie.AbsInt.PartiallyEvaluate
import Mathlib.Data.Rat.Cast.Order

/-!
# The interval of a real literal

The visitor gives a real literal the unit interval that starts at its `Floor`,
within 10^12 on both sides.  `Floor` cuts the digits after the point off, so a
negative literal can lie below its interval and a large one above it; an
exponent that has no negation leaves the mantissa as it is.
-/

namespace Boogie
namespace AbstractInterpretation

open Basetypes (BigDec)
open Basetypes.BigDec (Limits clamp)
open MachineInt (minValue)

def literalFloor (d : BigDec) : Int :=
  d.floor (some (-10 ^ 12)) (some (10 ^ 12))

section Start

variable (d : BigDec)

def wholePart (d : BigDec) : Int :=
  if 0 ≤ d.exponent then ⌊d.value⌋
  else if d.exponent = minValue then d.mantissa
  else if 0 < d.mantissa then ⌊d.value⌋
  else ⌊d.value⌋ + 1

theorem literalFloor_eq :
    literalFloor d = max (-10 ^ 12) (min (wholePart d) (10 ^ 12)) := by
  have hlimits : Limits (some (-10 ^ 12)) (some (10 ^ 12)) := by
    constructor
    · intro a ha
      cases ha
      decide
    · intro b hb
      cases hb
      decide
  unfold literalFloor wholePart
  split
  · next he =>
      rw [BigDec.floor_of_nonneg hlimits he]
      rfl
  · next he =>
      have hneg : d.exponent < 0 := not_le.mp he
      rw [BigDec.floor_of_neg hlimits hneg, BigDec.tdiv_scale hneg]
      rfl

theorem value_cases :
    (0 ≤ d.exponent ∧ d.value = ⌊d.value⌋) ∨
      (d.exponent < 0 ∧ 0 < d.mantissa ∧ 0 ≤ ⌊d.value⌋ ∧ ⌊d.value⌋ < d.mantissa) ∨
      (d.exponent < 0 ∧ d.mantissa < 0 ∧ ⌊d.value⌋ ≤ -1 ∧ d.mantissa ≤ ⌊d.value⌋ ∧
        (d.mantissa = ⌊d.value⌋ <-> d.mantissa = -1)) := by
  by_cases he : 0 ≤ d.exponent
  · refine Or.inl ⟨he, ?_⟩
    have hvalue : d.value = ((d.mantissa * 10 ^ d.exponent.toNat : Int) : ℚ) := by
      rw [BigDec.value]
      nth_rewrite 1 [← Int.toNat_of_nonneg he]
      rw [zpow_natCast]
      push_cast
      rfl
    rw [hvalue, Int.floor_intCast]
  · have hneg : d.exponent < 0 := not_le.mp he
    rcases lt_or_gt_of_ne (BigDec.mantissa_ne_zero hneg) with hm | hm
    · rcases BigDec.floor_of_neg_mantissa hneg hm with ⟨hle, hone, hsame⟩
      exact Or.inr (Or.inr ⟨hneg, hm, hone, hle, hsame⟩)
    · rcases BigDec.floor_of_pos_mantissa hneg hm with ⟨hzero, hlt⟩
      exact Or.inr (Or.inl ⟨hneg, hm, hzero, hlt⟩)

end Start

/-!
# The literal and its interval
-/

section Interval

variable (d : BigDec)

theorem ceil_value {d : BigDec} (he : d.exponent < 0) : ⌈d.value⌉ = ⌊d.value⌋ + 1 :=
  eq_of_forall_ge_iff fun a => Int.ceil_le.trans (BigDec.value_le_iff he a)

theorem literalFloor_negate : literalFloor d.negate = -literalFloor d := by
  rcases BigDec.negate_parts d with ⟨hm, he⟩
  rw [literalFloor_eq, literalFloor_eq]
  have hwhole : wholePart d.negate = -wholePart d := by
    unfold wholePart
    rw [he, hm, BigDec.negate_value, Int.floor_neg]
    by_cases hexp : 0 ≤ d.exponent
    · rcases value_cases d with ⟨_, hint⟩ | ⟨hneg, _⟩ | ⟨hneg, _⟩
      · rw [if_pos hexp, if_pos hexp, hint, Int.ceil_intCast, Int.floor_intCast]
      · omega
      · omega
    · have hne := BigDec.mantissa_ne_zero (not_le.mp hexp)
      rw [ceil_value (not_le.mp hexp)]
      split_ifs <;> omega
  rw [hwhole]
  omega

end Interval

end AbstractInterpretation
end Boogie
