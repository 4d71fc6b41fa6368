import Mathlib.Order.Basic

/-!
# Integers of 32 bits

Operations on them that are not checked for overflow compute modulo `2 ^ 32`.
-/

namespace MachineInt

def minValue : Int := -2147483648

def maxValue : Int := 2147483647

def InRange (z : Int) : Prop :=
  minValue ≤ z ∧ z ≤ maxValue

instance (z : Int) : Decidable (InRange z) :=
  inferInstanceAs (Decidable (minValue ≤ z ∧ z ≤ maxValue))

def wrap (z : Int) : Int :=
  (z - minValue) % 4294967296 + minValue

theorem inRange_wrap (z : Int) : InRange (wrap z) := by
  unfold InRange wrap minValue maxValue
  omega

theorem wrap_eq {z : Int} (h : InRange z) : wrap z = z := by
  unfold InRange minValue maxValue at h
  unfold wrap minValue
  omega

theorem wrap_wrap_add (a b : Int) : wrap (wrap a + b) = wrap (a + b) := by
  unfold wrap minValue
  omega

theorem inRange_neg {z : Int} (h : InRange z) (hmin : z ≠ minValue) :
    InRange (-z) := by
  unfold InRange minValue maxValue at h ⊢
  unfold minValue at hmin
  omega

end MachineInt
