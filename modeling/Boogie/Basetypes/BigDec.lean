import Mathlib.Algebra.Order.Field.Power
import Mathlib.Data.Rat.Floor
import Mathlib.Tactic.Linarith
import Mathlib.Tactic.Ring
import Boogie.Foundation.MachineInt

/-!
# Decimal numbers

A decimal number is an integer of any size times a power of ten, whose exponent
is an integer of 32 bits.  The constructor takes factors of ten out of the
integer, so equal numbers have equal parts.
-/

namespace Boogie
namespace Basetypes

open MachineInt (wrap InRange minValue maxValue)

structure BigDec where
  mantissa : Int
  exponent : Int
  canonical : mantissa = 0 ∧ exponent = 0 ∨ ¬ (10 : Int) ∣ mantissa
  inRange : InRange exponent
deriving DecidableEq, Repr

namespace BigDec

def value (d : BigDec) : ℚ :=
  d.mantissa * 10 ^ d.exponent

/-- The number has a canonical form whose exponent is an `int`. -/
def Representable (q : ℚ) : Prop :=
  exists d : BigDec, d.value = q

/-!
# The constructor
-/

theorem natAbs_tdiv_lt {m : Int} (h : m ≠ 0) :
    (m.tdiv 10).natAbs < m.natAbs := by
  rw [Int.natAbs_tdiv]
  exact Nat.div_lt_self (Int.natAbs_pos.mpr h) (by decide)

/-- The loop `while (mantissa % ten == BIM.Zero)` for a mantissa that is not
zero. -/
def strip (mantissa exponent : Int) : Int × Int :=
  if h : mantissa ≠ 0 ∧ mantissa.tmod 10 = 0 then
    strip (mantissa.tdiv 10) (wrap (exponent + 1))
  else (mantissa, exponent)
termination_by mantissa.natAbs
decreasing_by exact natAbs_tdiv_lt h.1

theorem strip_spec {m e : Int} (hm : m ≠ 0) :
    exists k : Nat, m = (strip m (wrap e)).1 * 10 ^ k ∧
      (strip m (wrap e)).2 = wrap (e + k) ∧ ¬ (10 : Int) ∣ (strip m (wrap e)).1 := by
  induction hsize : m.natAbs using Nat.strong_induction_on generalizing m e with
  | _ size ih =>
    by_cases hmod : m.tmod 10 = 0
    · have hdvd : (10 : Int) ∣ m := Int.dvd_of_tmod_eq_zero hmod
      have hdiv : m.tdiv 10 * 10 = m := Int.tdiv_mul_cancel hdvd
      have hne : m.tdiv 10 ≠ 0 := by
        intro hzero
        rw [hzero, zero_mul] at hdiv
        exact hm hdiv.symm
      rw [strip, dif_pos ⟨hm, hmod⟩, MachineInt.wrap_wrap_add]
      rcases ih _ (hsize ▸ natAbs_tdiv_lt hm) hne rfl with ⟨k, hk, hexp, hten⟩
      refine ⟨k + 1, ?_, ?_, hten⟩
      · calc m = m.tdiv 10 * 10 := hdiv.symm
          _ = (strip (m.tdiv 10) (wrap (e + 1))).1 * 10 ^ k * 10 := by rw [← hk]
          _ = _ := by rw [pow_succ, mul_assoc]
      · rw [hexp, Nat.cast_succ, add_assoc, add_comm (1 : Int)]
    · have hstop : ¬ (m ≠ 0 ∧ m.tmod 10 = 0) := fun h => hmod h.2
      rw [strip, dif_neg hstop]
      refine ⟨0, by simp, by simp, ?_⟩
      exact fun hdvd => hmod (Int.tmod_eq_zero_of_dvd hdvd)

def create (mantissa exponent : Int) : BigDec :=
  if h : mantissa = 0 then
    ⟨mantissa, 0, Or.inl ⟨h, rfl⟩, by decide⟩
  else
    ⟨(strip mantissa (wrap exponent)).1, (strip mantissa (wrap exponent)).2,
      by
        rcases @strip_spec mantissa exponent h with ⟨k, _, _, hten⟩
        exact Or.inr hten,
      by
        rcases @strip_spec mantissa exponent h with ⟨k, _, hexp, _⟩
        rw [hexp]
        exact MachineInt.inRange_wrap _⟩

theorem create_zero (e : Int) : (create 0 e).mantissa = 0 := by
  simp [create]

theorem create_congr {m e e' : Int} (h : wrap e = wrap e') :
    create m e = create m e' := by
  simp only [create, h]

theorem create_spec {m : Int} (hm : m ≠ 0) (e : Int) :
    exists k : Nat, m = (create m e).mantissa * 10 ^ k ∧ (create m e).exponent = wrap (e + k) ∧
        ¬ (10 : Int) ∣ (create m e).mantissa := by
  have hcreate : (create m e).mantissa = (strip m (wrap e)).1 ∧
      (create m e).exponent = (strip m (wrap e)).2 := by
    rw [create, dif_neg hm]
    exact ⟨rfl, rfl⟩
  rw [hcreate.1, hcreate.2]
  exact strip_spec hm

/-!
# The canonical form
-/

theorem ten_zpow_pos (e : Int) : (0 : ℚ) < 10 ^ e :=
  zpow_pos (by norm_num) e

theorem ten_zpow_ne_zero (e : Int) : (10 : ℚ) ^ e ≠ 0 :=
  ne_of_gt (ten_zpow_pos e)

theorem zpow_add_natCast (e : Int) (k : Nat) :
    (10 : ℚ) ^ (e + k) = 10 ^ k * 10 ^ e := by
  rw [zpow_add₀ (by norm_num), zpow_natCast, mul_comm]

theorem mantissa_eq_of_value_eq {m m' e : Int} {k : Nat}
    (h : (m : ℚ) * 10 ^ e = m' * 10 ^ (e + k)) : m = m' * 10 ^ k := by
  rw [zpow_add_natCast, ← mul_assoc] at h
  have hcast := mul_right_cancel₀ (ten_zpow_ne_zero e) h
  exact_mod_cast hcast

theorem parts_unique {m m' e e' : Int} (hm : ¬ (10 : Int) ∣ m)
    (hm' : ¬ (10 : Int) ∣ m') (h : (m : ℚ) * 10 ^ e = m' * 10 ^ e') :
    m = m' ∧ e = e' := by
  have hlt : forall {m m' e e' : Int}, ¬ (10 : Int) ∣ m ->
      (m : ℚ) * 10 ^ e = m' * 10 ^ e' -> ¬ e < e' := by
    intro m m' e e' hm h hless
    have hk : e' = e + ((e' - e).toNat : Int) := by omega
    rw [hk] at h
    apply hm
    rw [mantissa_eq_of_value_eq h]
    have hpos : (e' - e).toNat ≠ 0 := by omega
    exact Dvd.dvd.mul_left (dvd_pow_self 10 hpos) m'
  have he : e = e' :=
    le_antisymm (not_lt.mp (hlt hm' h.symm)) (not_lt.mp (hlt hm h))
  subst he
  have hcast := mul_right_cancel₀ (ten_zpow_ne_zero e) h
  exact ⟨by exact_mod_cast hcast, rfl⟩

theorem value_eq_zero_iff (d : BigDec) : d.value = 0 <-> d.mantissa = 0 := by
  rw [value, mul_eq_zero, Int.cast_eq_zero, or_iff_left (ten_zpow_ne_zero _)]

theorem eq_of_parts {d d' : BigDec} (hm : d.mantissa = d'.mantissa)
    (he : d.exponent = d'.exponent) : d = d' := by
  cases d
  cases d'
  simp_all

theorem value_injective : Function.Injective value := by
  intro d d' h
  rcases d.canonical with ⟨hm, he⟩ | hten
  · have hzero : d'.mantissa = 0 := by
      rw [← value_eq_zero_iff, ← h, value_eq_zero_iff, hm]
    rcases d'.canonical with ⟨hm', he'⟩ | hten'
    · exact eq_of_parts (hm.trans hm'.symm) (he.trans he'.symm)
    · exact absurd (hzero ▸ dvd_zero 10) hten'
  · rcases d'.canonical with ⟨hm', _⟩ | hten'
    · have hzero : d.mantissa = 0 := by
        rw [← value_eq_zero_iff, h, value_eq_zero_iff, hm']
      exact absurd (hzero ▸ dvd_zero 10) hten
    · have hparts := parts_unique hten hten' h
      exact eq_of_parts hparts.1 hparts.2

theorem create_value_iff (m e : Int) :
    (create m e).value = m * 10 ^ e <-> Representable (m * 10 ^ e) := by
  constructor
  · exact fun h => ⟨_, h⟩
  · intro ⟨d, hd⟩
    by_cases hm : m = 0
    · rw [hm, Int.cast_zero, zero_mul, value_eq_zero_iff, create_zero]
    · rcases create_spec hm e with ⟨k, hk, hexp, hten⟩
      have hvalue : (m : ℚ) * 10 ^ e =
          (create m e).mantissa * 10 ^ (e + k) := by
        rw [zpow_add_natCast, ← mul_assoc]
        congr 1
        exact_mod_cast hk
      have hdten : ¬ (10 : Int) ∣ d.mantissa := by
        rcases d.canonical with ⟨hzero, _⟩ | hdten
        · rw [← value_eq_zero_iff, hd, mul_eq_zero,
            or_iff_left (ten_zpow_ne_zero e), Int.cast_eq_zero] at hzero
          exact absurd hzero hm
        · exact hdten
      have hparts := parts_unique hdten hten (hd.trans hvalue)
      rw [hvalue, value, hexp, ← hparts.2, MachineInt.wrap_eq d.inRange]

end BigDec

end Basetypes
end Boogie
