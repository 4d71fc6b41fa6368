import Boogie.AbsInt.LatticeLaws
import Boogie.AbsInt.PartiallyEvaluate
import Mathlib.Tactic.Linarith
import Mathlib.Tactic.Ring

/-!
# Values within the evaluated bounds

The visitor is right about each operator on integers and Booleans but two: the
negation of an operand with one known bound, and products of operands that may be
negative.
-/

namespace Boogie
namespace AbstractInterpretation

variable {K : Type*} [Field K] [LinearOrder K] [IsStrictOrderedRing K]

/-!
# Bounds of Booleans
-/

def OneSided (b : Bounds) : Prop :=
  b = unknown ∨ b = isTrue ∨ b = isFalse

theorem oneSided_ite {p : Prop} [Decidable p] {b c : Bounds} (hb : OneSided b)
    (hc : OneSided c) : OneSided (if p then b else c) := by
  split
  next => exact hb
  next => exact hc

theorem oneSided_unknown : OneSided unknown := Or.inl rfl

theorem oneSided_isTrue : OneSided isTrue := Or.inr (Or.inl rfl)

theorem oneSided_isFalse : OneSided isFalse := Or.inr (Or.inr rfl)

theorem OneSided.swap {b : Bounds} (h : OneSided b) : OneSided b.swap := by
  rcases h with rfl | rfl | rfl
  · exact oneSided_unknown
  · exact oneSided_isFalse
  · exact oneSided_isTrue

omit [IsStrictOrderedRing K] in
theorem within_unknown (x : K) : Within unknown x :=
  within_none x

omit [IsStrictOrderedRing K] in
theorem within_isTrue : Within isTrue (Value.bool true : Value K).num := by
  simp [Within, isTrue, Value.num]

theorem within_isFalse : Within isFalse (Value.bool false : Value K).num := by
  simp [Within, isFalse, Value.num]

theorem OneSided.cases_of_within {b : Bounds} (h : OneSided b) {p : Bool}
    (hp : Within b (Value.bool p : Value K).num) :
    b = unknown ∨ (b = isTrue ∧ p = true) ∨ (b = isFalse ∧ p = false) := by
  rcases h with rfl | rfl | rfl
  · exact Or.inl rfl
  · refine Or.inr (Or.inl ⟨rfl, ?_⟩)
    cases p with
    | true => rfl
    | false =>
      have hle := hp.1 1 rfl
      simp [Value.num] at hle
      exact absurd hle (not_le_of_gt zero_lt_one)
  · refine Or.inr (Or.inr ⟨rfl, ?_⟩)
    cases p with
    | true =>
      have hlt := hp.2 1 rfl
      simp [Value.num] at hlt
    | false => rfl

theorem OneSided.within_swap {b : Bounds} (h : OneSided b) {p : Bool}
    (hp : Within b (Value.bool p : Value K).num) :
    Within b.swap (Value.bool !p : Value K).num := by
  rcases h.cases_of_within hp with rfl | ⟨rfl, rfl⟩ | ⟨rfl, rfl⟩
  · exact within_unknown _
  · exact within_isFalse
  · exact within_isTrue

/-!
# Bounds of integers
-/

theorem within_int {b : Bounds} {z : Int} :
    Within b (Value.int z : Value K).num <-> Within b z := by
  unfold Within
  simp only [Value.num, Int.cast_le, Int.cast_lt, Int.cast_id]

theorem within_lo {b : Bounds} {z l : Int} (h : Within b z) (hl : b.1 = some l) :
    l ≤ z := by
  have hle := h.1 l hl
  rwa [Int.cast_id] at hle

theorem within_hi {b : Bounds} {z u : Int} (h : Within b z) (hu : b.2 = some u) :
    z < u := by
  have hlt := h.2 u hu
  rwa [Int.cast_id] at hlt

theorem within_of {b : Bounds} {z : Int} (hlo : forall l, b.1 = some l -> l ≤ z)
    (hhi : forall u, b.2 = some u -> z < u) : Within b z := by
  constructor
  · intro l hl
    rw [Int.cast_id]
    exact hlo l hl
  · intro u hu
    rw [Int.cast_id]
    exact hhi u hu

theorem both_eq_true {p : Int -> Int -> Bool} {a b : Option Int} (h : both p a b = true) :
    exists x y, a = some x ∧ b = some y ∧ p x y = true := by
  cases a with
  | none => cases h
  | some x =>
    cases b with
    | none => cases h
    | some y => exact ⟨x, y, rfl, rfl, h⟩

theorem within_both {b c : Bounds} {x y : Int} {r : Int -> Int -> Prop} [DecidableRel r]
    (hx : Within b x) (hy : Within c y) (h : both (fun hi lo => r hi lo) b.2 c.1 = true) :
    exists hi lo, x < hi ∧ lo ≤ y ∧ r hi lo := by
  rcases both_eq_true h with ⟨hi, lo, hhi, hlo, hr⟩
  exact ⟨hi, lo, within_hi hx hhi, within_lo hy hlo, of_decide_eq_true hr⟩

theorem combine_eq_some {f : Int -> Int -> Int} {a b : Option Int} {z : Int}
    (h : combine f a b = some z) :
    exists x y, a = some x ∧ b = some y ∧ f x y = z := by
  cases a with
  | none => cases h
  | some x =>
    cases b with
    | none => cases h
    | some y => exact ⟨x, y, rfl, rfl, Option.some.inj h⟩

section Integers

variable {b c : Bounds} {x y : Int}

omit [IsStrictOrderedRing K] in
theorem within_decide_true {p : Prop} [Decidable p] (h : p) :
    Within isTrue (Value.bool (decide p) : Value K).num := by
  rw [decide_eq_true h]
  exact within_isTrue

theorem within_decide_false {p : Prop} [Decidable p] (h : ¬ p) :
    Within isFalse (Value.bool (decide p) : Value K).num := by
  rw [decide_eq_false h]
  exact within_isFalse

theorem visitLe_sound (hx : Within b x) (hy : Within c y) :
    Within (visitLe b c) (Value.bool (x ≤ y) : Value K).num := by
  unfold visitLe
  split
  next h =>
    rcases within_both hx hy h with ⟨hi, lo, hxhi, hylo, hle⟩
    exact within_decide_true (by omega)
  next =>
    split
    next h =>
      rcases within_both hy hx h with ⟨hi, lo, hyhi, hxlo, hle⟩
      exact within_decide_false (by omega)
    next => exact within_unknown _

theorem visitLt_sound (hx : Within b x) (hy : Within c y) :
    Within (visitLt b c) (Value.bool (x < y) : Value K).num := by
  unfold visitLt
  split
  next h =>
    rcases within_both hx hy h with ⟨hi, lo, hxhi, hylo, hle⟩
    exact within_decide_true (by omega)
  next =>
    split
    next h =>
      rcases within_both hy hx h with ⟨hi, lo, hyhi, hxlo, hle⟩
      exact within_decide_false (by omega)
    next => exact within_unknown _

theorem visitEq_sound (hx : Within b x) (hy : Within c y) :
    Within (visitEq false b c) (Value.bool (x = y) : Value K).num := by
  unfold visitEq
  rw [if_neg (by simp)]
  split
  next h =>
    rcases within_both hx hy h with ⟨hi, lo, hxhi, hylo, hle⟩
    exact within_decide_false (by omega)
  next =>
    split
    next h =>
      rcases within_both hy hx h with ⟨hi, lo, hyhi, hxlo, hle⟩
      exact within_decide_false (by omega)
    next =>
      split
      next h =>
        -- Both are the only number of the same unit interval.
        simp only [sameUnit, Bool.and_eq_true] at h
        rcases both_eq_true h.1.1 with ⟨lo, hi, hlo, hhi, hunit⟩
        rcases both_eq_true h.1.2 with ⟨l, l', hl, hl', hsame⟩
        rcases both_eq_true h.2 with ⟨lo', hi', hlo', hhi', hunit'⟩
        have hxlo := within_lo hx hlo
        have hxhi := within_hi hx hhi
        have hylo := within_lo hy hlo'
        have hyhi := within_hi hy hhi'
        have heq := of_decide_eq_true hunit
        have heq' := of_decide_eq_true hunit'
        have hll := of_decide_eq_true hsame
        rw [hlo] at hl
        rw [hlo'] at hl'
        cases hl
        cases hl'
        exact within_decide_true (by omega)
      next => exact within_unknown _

theorem add_sound (hx : Within b x) (hy : Within c y) :
    Within (combine (fun lo lo' => lo + lo') b.1 c.1,
      combine (fun hi hi' => hi + hi' - 1) b.2 c.2) (x + y) := by
  apply within_of
  · intro l hl
    rcases combine_eq_some hl with ⟨lo, lo', hlo, hlo', rfl⟩
    exact Int.add_le_add (within_lo hx hlo) (within_lo hy hlo')
  · intro u hu
    rcases combine_eq_some hu with ⟨hi, hi', hhi, hhi', rfl⟩
    have hxhi := within_hi hx hhi
    have hyhi := within_hi hy hhi'
    omega

theorem sub_sound (hx : Within b x) (hy : Within c y) :
    Within (combine (fun lo hi => lo - hi + 1) b.1 c.2,
      combine (fun hi lo => hi - lo) b.2 c.1) (x - y) := by
  apply within_of
  · intro l hl
    rcases combine_eq_some hl with ⟨lo, hi, hlo, hhi, rfl⟩
    have hxlo := within_lo hx hlo
    have hyhi := within_hi hy hhi
    omega
  · intro u hu
    rcases combine_eq_some hu with ⟨hi, lo, hhi, hlo, rfl⟩
    have hxhi := within_hi hx hhi
    have hylo := within_lo hy hlo
    omega

def NegExact (b : Bounds) : Prop :=
  b.1.isSome = b.2.isSome

theorem neg_sound (hexact : NegExact b) (hx : Within b x) :
    Within (visitNeg b) (-x) := by
  rcases b with ⟨lo, hi⟩
  cases lo with
  | none =>
    cases hi with
    | none => exact within_none (-x)
    | some hi => cases hexact
  | some lo =>
    cases hi with
    | none => cases hexact
    | some hi =>
      have hlo := within_lo hx rfl
      have hhi := within_hi hx rfl
      apply within_of
      · intro l hl
        cases hl
        omega
      · intro u hu
        cases hu
        omega

/-- No product of numbers from the intervals up to `hi` and `hi'` is above that of
the negative lower bounds. -/
def ProductBelow (lo lo' : Int) : Option Int -> Option Int -> Prop
  | none, none => False
  | none, some hi' => hi' ≤ 1
  | some hi, none => hi ≤ 1
  | some hi, some hi' => (hi - 1) * (hi' - 1) ≤ lo * lo'

def MulExact (b c : Bounds) : Prop :=
  forall lo lo', b.1 = some lo -> c.1 = some lo' -> lo < 0 -> lo' < 0 ->
    ProductBelow lo lo' b.2 c.2

theorem ProductBelow.mul_le {lo lo' : Int} (h : ProductBelow lo lo' b.2 c.2)
    (hx : Within b x) (hy : Within c y) (hxpos : 0 < x) (hypos : 0 < y) :
    x * y ≤ lo * lo' := by
  cases hb : b.2 with
  | none =>
    cases hc : c.2 with
    | none =>
      rw [hb, hc] at h
      exact h.elim
    | some hi' =>
      rw [hb, hc] at h
      have hyhi := within_hi hy hc
      change hi' ≤ 1 at h
      omega
  | some hi =>
    have hxhi := within_hi hx hb
    cases hc : c.2 with
    | none =>
      rw [hb, hc] at h
      change hi ≤ 1 at h
      omega
    | some hi' =>
      rw [hb, hc] at h
      have hyhi := within_hi hy hc
      calc x * y ≤ (hi - 1) * (hi' - 1) :=
            mul_le_mul (by omega) (by omega) (by omega) (by omega)
        _ ≤ lo * lo' := h

theorem mul_sound (hexact : MulExact b c) (hx : Within b x) (hy : Within c y) :
    Within (visitMul b c) (x * y) := by
  unfold visitMul
  split
  next lo lo' hlo hlo' =>
    have hxlo := within_lo hx hlo
    have hylo := within_lo hy hlo'
    split
    next hpos =>
      apply within_of
      · intro l hl
        cases hl
        exact mul_le_mul hxlo hylo hpos.2 (hpos.1.trans hxlo)
      · intro u hu
        rcases combine_eq_some hu with ⟨hi, hi', hhi, hhi', rfl⟩
        have hxhi := within_hi hx hhi
        have hyhi := within_hi hy hhi'
        have hle : x * y ≤ (hi - 1) * (hi' - 1) :=
          mul_le_mul (by omega) (by omega) (by omega) (by omega)
        omega
    next =>
      split
      next hneg =>
        apply within_of
        · intro l hl
          cases hl
        · intro u hu
          cases hu
          have hbelow := hexact lo lo' hlo hlo' hneg.1 hneg.2
          have hcorner : 0 ≤ lo * lo' :=
            mul_nonneg_of_nonpos_of_nonpos hneg.1.le hneg.2.le
          have hle : x * y ≤ lo * lo' := by
            rcases le_or_gt x 0 with hxneg | hxpos
            · rcases le_or_gt y 0 with hyneg | hypos
              · have hmul := mul_le_mul (neg_le_neg hxlo) (neg_le_neg hylo)
                  (neg_nonneg.mpr hyneg) (neg_nonneg.mpr hneg.1.le)
                rwa [neg_mul_neg, neg_mul_neg] at hmul
              · exact (mul_nonpos_of_nonpos_of_nonneg hxneg hypos.le).trans hcorner
            · rcases le_or_gt y 0 with hyneg | hypos
              · exact (mul_nonpos_of_nonneg_of_nonpos hxpos.le hyneg).trans hcorner
              · exact hbelow.mul_le hx hy hxpos hypos
          omega
      next => exact within_none (x * y)
  next => exact within_none (x * y)

theorem div_sound (hx : Within b x) (hy : Within c y) :
    Within (visitQuotient b.2 b c) (x / y) := by
  unfold visitQuotient
  split
  next h =>
    rcases both_eq_true h with ⟨lo, lo', hlo, hlo', hpos⟩
    have hpos' := of_decide_eq_true hpos
    have hxlo := within_lo hx hlo
    have hylo := within_lo hy hlo'
    have hxpos : 0 ≤ x := hpos'.1.trans hxlo
    have hypos : 0 ≤ y := hpos'.2.trans hylo
    apply within_of
    · intro l hl
      cases hl
      exact Int.ediv_nonneg hxpos hypos
    · intro u hu
      exact lt_of_le_of_lt (Int.ediv_le_self y hxpos) (within_hi hx hu)
  next => exact within_none (x / y)

theorem mod_sound (hy : Within c y) (hne : y ≠ 0) :
    Within (visitQuotient c.2 b c) (x % y) := by
  unfold visitQuotient
  split
  next h =>
    rcases both_eq_true h with ⟨lo, lo', hlo, hlo', hpos⟩
    have hpos' := of_decide_eq_true hpos
    have hylo := within_lo hy hlo'
    apply within_of
    · intro l hl
      cases hl
      exact Int.emod_nonneg x hne
    · intro u hu
      have hlt := Int.emod_lt_of_pos x (lt_of_le_of_ne (hpos'.2.trans hylo) hne.symm)
      exact hlt.trans (within_hi hy hu)
  next => exact within_none (x % y)

end Integers

end AbstractInterpretation
end Boogie
