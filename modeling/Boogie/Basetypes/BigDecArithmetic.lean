import Boogie.Basetypes.BigDec

/-!
# Arithmetic of decimal numbers

The operations are those of the rational numbers as long as the exponents are
integers of 32 bits.  `Floor` cuts the digits after the point off, so it is the
floor of the numbers that are not negative and of those where the difference
does not matter.
-/

namespace Boogie
namespace Basetypes
namespace BigDec

open MachineInt (wrap InRange minValue maxValue)

/-!
# The operations
-/

def abs (d : BigDec) : BigDec :=
  create |d.mantissa| d.exponent

def negate (d : BigDec) : BigDec :=
  create (-d.mantissa) d.exponent

/-- The loop that multiplies the mantissa of the greater exponent by ten. -/
def align : Nat -> Int -> Int
  | 0, m => m
  | n + 1, m => align n (m * 10)

def add (x y : BigDec) : BigDec :=
  if y.exponent < x.exponent then
    create (y.mantissa + align (x.exponent - y.exponent).toNat x.mantissa)
      y.exponent
  else
    create (x.mantissa + align (y.exponent - x.exponent).toNat y.mantissa)
      x.exponent

def sub (x y : BigDec) : BigDec :=
  add x y.negate

def mul (x y : BigDec) : BigDec :=
  create (x.mantissa * y.mantissa) (wrap (x.exponent + y.exponent))

def isNegative (d : BigDec) : Bool :=
  d.mantissa < 0

def compareTo (x y : BigDec) : Int :=
  if x.mantissa = y.mantissa ∧ x.exponent = y.exponent then 0
  else if (sub x y).isNegative then -1
  else 1

/-- `minimum == null || minimum <= n`. -/
def atLeast (minimum : Option Int) (n : Int) : Bool :=
  minimum.all (fun a => a ≤ n)

/-- `maximum == null || n <= maximum`. -/
def atMost (n : Int) (maximum : Option Int) : Bool :=
  maximum.all (fun b => n ≤ b)

/-- The loop for exponents that are not negative. -/
def scaleUp (minimum maximum : Option Int) : Nat -> Int -> Int
  | 0, n => n
  | e + 1, n =>
    if atLeast minimum n && atMost n maximum then
      scaleUp minimum maximum e (n * 10)
    else n

/-- The loop for negative exponents; the division rounds towards zero. -/
def scaleDown : Nat -> Int -> Int
  | 0, n => n
  | e + 1, n => if n = 0 then n else scaleDown e (n.tdiv 10)

/-- The negation of the exponent is an `int` again. -/
def floor (d : BigDec) (minimum maximum : Option Int) : Int :=
  let n :=
    if 0 ≤ d.exponent then scaleUp minimum maximum d.exponent.toNat d.mantissa
    else scaleDown (wrap (-d.exponent)).toNat d.mantissa
  if !atLeast minimum n then minimum.getD n
  else if !atMost n maximum then maximum.getD n
  else n

/-!
# Sums and products
-/

theorem align_eq (n : Nat) (m : Int) : align n m = m * 10 ^ n := by
  induction n generalizing m with
  | zero => rw [align, pow_zero, mul_one]
  | succ n ih => rw [align, ih, pow_succ', mul_assoc]

theorem exists_add (x y : BigDec) :
    exists m e, add x y = create m e ∧ (m : ℚ) * 10 ^ e = x.value + y.value := by
  have halign : forall {a b : BigDec}, a.exponent ≤ b.exponent ->
      ((a.mantissa + align (b.exponent - a.exponent).toNat b.mantissa : Int) : ℚ) *
        10 ^ a.exponent = a.value + b.value := by
    intro a b hle
    have hk : b.exponent =
        a.exponent + ((b.exponent - a.exponent).toNat : Int) := by omega
    have hb : b.value = b.mantissa *
        (10 ^ (b.exponent - a.exponent).toNat * 10 ^ a.exponent) := by
      rw [← zpow_add_natCast, ← hk, value]
    rw [align_eq, hb, value]
    push_cast
    ring
  unfold add
  split
  · next hlt => exact ⟨_, _, rfl, (halign (le_of_lt hlt)).trans (add_comm _ _)⟩
  · next hge => exact ⟨_, _, rfl, halign (not_lt.mp hge)⟩

theorem add_value_iff (x y : BigDec) :
    (add x y).value = x.value + y.value <-> Representable (x.value + y.value) := by
  rcases exists_add x y with ⟨m, e, hadd, hvalue⟩
  rw [hadd, ← hvalue]
  exact create_value_iff m e

theorem representable_neg (d : BigDec) : Representable (-d.value) := by
  refine ⟨⟨-d.mantissa, d.exponent, ?_, d.inRange⟩, by simp [value]⟩
  rcases d.canonical with ⟨hm, he⟩ | hten
  · exact Or.inl ⟨by rw [hm, neg_zero], he⟩
  · exact Or.inr (fun h => hten (Int.dvd_neg.mp h))

theorem negate_value (d : BigDec) : d.negate.value = -d.value := by
  have hvalue : ((-d.mantissa : Int) : ℚ) * 10 ^ d.exponent = -d.value := by
    rw [Int.cast_neg, neg_mul, value]
  rw [negate, ← hvalue, create_value_iff, hvalue]
  exact representable_neg d

theorem negate_parts (d : BigDec) :
    d.negate.mantissa = -d.mantissa ∧ d.negate.exponent = d.exponent := by
  rcases representable_neg d with ⟨x, hx⟩
  rw [value_injective ((negate_value d).trans hx.symm)]
  have hvalue : (x.mantissa : ℚ) * 10 ^ x.exponent =
      ((-d.mantissa : Int) : ℚ) * 10 ^ d.exponent := by
    rw [Int.cast_neg, neg_mul]
    exact hx
  rcases d.canonical with ⟨hm, he⟩ | hten
  · have hzero : x.mantissa = 0 := by
      rw [← value_eq_zero_iff, hx, neg_eq_zero, value_eq_zero_iff, hm]
    rcases x.canonical with ⟨_, he'⟩ | hten'
    · exact ⟨by rw [hzero, hm, neg_zero], by rw [he', he]⟩
    · exact absurd (hzero ▸ dvd_zero 10) hten'
  · have hten' : ¬ (10 : Int) ∣ -d.mantissa := fun h => hten (Int.dvd_neg.mp h)
    rcases x.canonical with ⟨hzero, _⟩ | hxten
    · rw [← value_eq_zero_iff, hx, neg_eq_zero, value_eq_zero_iff] at hzero
      exact absurd (hzero ▸ dvd_zero 10) hten
    · exact parts_unique hxten hten' hvalue

theorem abs_value (d : BigDec) : d.abs.value = |d.value| := by
  have hvalue : ((|d.mantissa| : Int) : ℚ) * 10 ^ d.exponent = |d.value| := by
    rw [value, abs_mul, Int.cast_abs, abs_of_pos (ten_zpow_pos d.exponent)]
  rw [abs, ← hvalue, create_value_iff, hvalue]
  rcases abs_choice d.value with h | h
  · exact ⟨d, h.symm⟩
  · rw [h]
    exact representable_neg d

theorem sub_value_iff (x y : BigDec) :
    (sub x y).value = x.value - y.value <-> Representable (x.value - y.value) := by
  rw [sub, sub_eq_add_neg, ← negate_value]
  exact add_value_iff x y.negate

theorem mul_value_iff (x y : BigDec) :
    (mul x y).value = x.value * y.value <-> Representable (x.value * y.value) := by
  have hvalue : ((x.mantissa * y.mantissa : Int) : ℚ) *
      10 ^ (x.exponent + y.exponent) = x.value * y.value := by
    rw [value, value, zpow_add₀ (by norm_num)]
    push_cast
    ring
  have hwrap : wrap (wrap (x.exponent + y.exponent)) =
      wrap (x.exponent + y.exponent) :=
    MachineInt.wrap_eq (MachineInt.inRange_wrap _)
  rw [mul, create_congr hwrap, ← hvalue]
  exact create_value_iff _ _

/-!
# The order
-/

theorem create_isNegative (m e : Int) : (create m e).isNegative = (m < 0) := by
  by_cases hm : m = 0
  · simp [isNegative, hm, create_zero]
  · rcases create_spec hm e with ⟨k, hk, _, _⟩
    have hpos : (0 : Int) < 10 ^ k := by positivity
    have hiff : (create m e).mantissa < 0 <-> m < 0 := by
      constructor
      · intro hneg
        rw [hk]
        exact mul_neg_of_neg_of_pos hneg hpos
      · intro hneg
        rw [hk] at hneg
        exact neg_of_mul_neg_left hneg (le_of_lt hpos)
    simp [isNegative, hiff]

theorem sub_isNegative (x y : BigDec) :
    (sub x y).isNegative = true <-> x.value < y.value := by
  rcases exists_add x y.negate with ⟨m, e, hadd, hvalue⟩
  have hsign : m < 0 <-> (m : ℚ) * 10 ^ e < 0 := by
    rw [mul_neg_iff]
    have hpos := ten_zpow_pos e
    constructor
    · intro hneg
      exact Or.inr ⟨by exact_mod_cast hneg, hpos⟩
    · rintro (⟨_, hneg⟩ | ⟨hneg, _⟩)
      · exact absurd hneg (not_lt.mpr (le_of_lt hpos))
      · exact_mod_cast hneg
  rw [sub, hadd, create_isNegative, hsign, hvalue, negate_value,
    ← sub_eq_add_neg, sub_neg]

theorem parts_eq_iff (x y : BigDec) :
    (x.mantissa = y.mantissa ∧ x.exponent = y.exponent) <-> x.value = y.value :=
  ⟨fun h => congrArg value (eq_of_parts h.1 h.2), fun h => by
    rw [value_injective h]
    exact ⟨rfl, rfl⟩⟩

theorem compareTo_spec (x y : BigDec) :
    (compareTo x y = 0 <-> x.value = y.value) ∧ (compareTo x y < 0 <-> x.value < y.value) ∧
      (0 < compareTo x y <-> y.value < x.value) := by
  unfold compareTo
  split
  · next heq =>
      have hvalue := (parts_eq_iff x y).mp heq
      simp [hvalue]
  · next hne =>
      rw [parts_eq_iff] at hne
      split
      · next hneg =>
          have hlt := (sub_isNegative x y).mp hneg
          simp [hne, hlt, le_of_lt hlt]
      · next hpos =>
          have hge := not_lt.mp (fun h => hpos ((sub_isNegative x y).mpr h))
          have hgt := lt_of_le_of_ne hge (Ne.symm hne)
          simp [hne, hgt, hge]

/-!
# The floor
-/

def clamp (minimum maximum : Option Int) (n : Int) : Int :=
  let n := maximum.elim n (fun b => min n b)
  minimum.elim n (fun a => max a n)

structure Limits (minimum maximum : Option Int) : Prop where
  minimum : forall a, minimum = some a -> a ≤ 0
  maximum : forall b, maximum = some b -> 0 ≤ b

section Clamp

variable {minimum maximum : Option Int}

theorem atLeast_iff {n : Int} : atLeast minimum n = true <->
    forall a, minimum = some a -> a ≤ n := by
  cases minimum <;> simp [atLeast]

theorem atMost_iff {n : Int} : atMost n maximum = true <-> forall b, maximum = some b -> n ≤ b := by
  cases maximum <;> simp [atMost]

theorem clamp_eq (h : Limits minimum maximum) (n : Int) :
    (if !atLeast minimum n then minimum.getD n
      else if !atMost n maximum then maximum.getD n
      else n) = clamp minimum maximum n := by
  unfold clamp
  cases minimum with
  | none =>
    cases maximum with
    | none => simp [atLeast, atMost]
    | some b =>
      by_cases hn : n ≤ b
      · simp [atLeast, atMost, hn]
      · simp [atLeast, atMost, hn, le_of_lt (not_le.mp hn)]
  | some a =>
    have ha := h.minimum a rfl
    cases maximum with
    | none =>
      by_cases hn : a ≤ n
      · simp [atLeast, atMost, hn]
      · simp [atLeast, hn, le_of_lt (not_le.mp hn)]
    | some b =>
      have hb := h.maximum b rfl
      by_cases hn : a ≤ n
      · by_cases hn' : n ≤ b
        · simp [atLeast, atMost, hn, hn']
        · simp [atLeast, atMost, hn, hn', le_of_lt (not_le.mp hn'),
            le_trans ha hb]
      · have hnb : n ≤ b := le_trans (le_of_lt (not_le.mp hn)) (le_trans ha hb)
        simp [atLeast, hn, hnb, le_of_lt (not_le.mp hn)]

theorem clamp_eq_clamp_iff (h : Limits minimum maximum) {m n : Int}
    (hlt : m < n) (hside : 0 ≤ m ∨ n ≤ 0) : clamp minimum maximum m = clamp minimum maximum n <->
      (exists a, minimum = some a ∧ n ≤ a) ∨ exists b, maximum = some b ∧ b ≤ m := by
  unfold clamp
  cases minimum with
  | none =>
    cases maximum with
    | none => simp [ne_of_lt hlt]
    | some b =>
      simp only [Option.elim_some, Option.elim_none, Option.some.injEq,
        exists_eq_left', reduceCtorEq, false_and, exists_false, false_or]
      omega
  | some a =>
    have ha := h.minimum a rfl
    cases maximum with
    | none =>
      simp only [Option.elim_some, Option.elim_none, Option.some.injEq,
        exists_eq_left', reduceCtorEq, false_and, exists_false, or_false]
      omega
    | some b =>
      have hb := h.maximum b rfl
      simp only [Option.elim_some, Option.some.injEq, exists_eq_left',
        min_def, max_def]
      split_ifs <;> omega

end Clamp

/-!
## The loops
-/

section Loops

variable {minimum maximum : Option Int}

theorem clamp_scaleUp (h : Limits minimum maximum) (e : Nat) (n : Int) :
    clamp minimum maximum (scaleUp minimum maximum e n) = clamp minimum maximum (n * 10 ^ e) := by
  induction e generalizing n with
  | zero => rw [scaleUp, pow_zero, mul_one]
  | succ e ih =>
    rw [scaleUp]
    split
    · rw [ih, pow_succ', mul_assoc]
    · next hout =>
        have hone : (1 : Int) ≤ 10 ^ (e + 1) := one_le_pow₀ (by norm_num)
        rw [Bool.and_eq_true, not_and_or, atLeast_iff, atMost_iff] at hout
        rcases hout with hout | hout
        · rcases not_forall.mp hout with ⟨a, ha⟩
          rcases Classical.not_imp.mp ha with ⟨hmin, hlt⟩
          have hzero := h.minimum a hmin
          have hneg : n < 0 := lt_of_lt_of_le (not_le.mp hlt) hzero
          have hle : n * 10 ^ (e + 1) ≤ n := by nlinarith
          rcases eq_or_lt_of_le hle with heq | hless
          · rw [heq]
          · exact ((clamp_eq_clamp_iff h hless (Or.inr (le_of_lt hneg))).mpr
              (Or.inl ⟨a, hmin, le_of_lt (not_le.mp hlt)⟩)).symm
        · rcases not_forall.mp hout with ⟨b, hb⟩
          rcases Classical.not_imp.mp hb with ⟨hmax, hlt⟩
          have hzero := h.maximum b hmax
          have hpos : 0 < n := lt_of_le_of_lt hzero (not_le.mp hlt)
          have hle : n ≤ n * 10 ^ (e + 1) := by nlinarith
          rcases eq_or_lt_of_le hle with heq | hless
          · rw [← heq]
          · exact (clamp_eq_clamp_iff h hless (Or.inl (le_of_lt hpos))).mpr
              (Or.inr ⟨b, hmax, le_of_lt (not_le.mp hlt)⟩)

theorem tdiv_tdiv_natCast (n : Int) (a b : Nat) :
    (n.tdiv a).tdiv b = n.tdiv (a * b : Nat) := by
  have hnat : forall k : Nat,
      ((k : Int).tdiv a).tdiv b = (k : Int).tdiv (a * b : Nat) := by
    intro k
    rw [← Int.ofNat_tdiv, ← Int.ofNat_tdiv, ← Int.ofNat_tdiv,
      Nat.div_div_eq_div_mul]
  rcases Int.eq_nat_or_neg n with ⟨k, rfl | rfl⟩
  · exact hnat k
  · rw [Int.neg_tdiv, Int.neg_tdiv, Int.neg_tdiv, hnat]

theorem scaleDown_eq (e : Nat) (n : Int) :
    scaleDown e n = n.tdiv (10 ^ e : Nat) := by
  induction e generalizing n with
  | zero => simp [scaleDown]
  | succ e ih =>
    rw [scaleDown]
    split
    · next h => simp [h]
    · rw [ih, pow_succ']
      exact tdiv_tdiv_natCast n 10 (10 ^ e)

end Loops

/-!
## The result
-/

/-- The numbers whose floor is right within the limits: integers, numbers with
a fraction that are positive or not above the minimum, and for the exponent
whose negation is not an `int` those where it does not matter that the mantissa
is not scaled. -/
def FloorsExactly (d : BigDec) (minimum maximum : Option Int) : Prop :=
  0 ≤ d.exponent ∨
    (d.exponent < 0 ∧ d.exponent ≠ minValue ∧
      (0 < d.mantissa ∨ exists a, minimum = some a ∧ d.value ≤ a)) ∨
    (d.exponent = minValue ∧
      ((0 < d.mantissa ∧ exists b, maximum = some b ∧ b ≤ d.value) ∨
        d.mantissa = -1 ∨
        (d.mantissa < 0 ∧ exists a, minimum = some a ∧ d.value < a + 1)))

section Floor

variable {d : BigDec} {minimum maximum : Option Int}

def scale (d : BigDec) : Nat :=
  10 ^ (-d.exponent).toNat

theorem value_eq_div (he : d.exponent < 0) :
    d.value = d.mantissa / (d.scale : ℚ) := by
  have hk : -((-d.exponent).toNat : Int) = d.exponent := by omega
  have hpow : (10 : ℚ) ^ d.exponent = ((d.scale : Nat) : ℚ)⁻¹ := by
    rw [← hk, zpow_neg, zpow_natCast, scale]
    push_cast
    rfl
  rw [value, hpow, div_eq_mul_inv]

theorem floor_value (he : d.exponent < 0) :
    ⌊d.value⌋ = d.mantissa / (d.scale : Int) := by
  rw [value_eq_div he]
  exact Rat.floor_intCast_div_natCast d.mantissa d.scale

theorem one_lt_scale (he : d.exponent < 0) : (1 : Int) < d.scale := by
  have hpos : (-d.exponent).toNat ≠ 0 := by omega
  exact_mod_cast Nat.one_lt_pow hpos (by decide)

theorem not_scale_dvd (he : d.exponent < 0) :
    ¬ (d.scale : Int) ∣ d.mantissa := by
  have hpos : (-d.exponent).toNat ≠ 0 := by omega
  rcases d.canonical with ⟨_, hzero⟩ | hten
  · rw [hzero] at he
    exact absurd he (lt_irrefl 0)
  · intro hdvd
    apply hten
    have hscale : (10 : Int) ∣ d.scale := by
      exact_mod_cast dvd_pow_self 10 hpos
    exact dvd_trans hscale hdvd

theorem mantissa_ne_zero (he : d.exponent < 0) : d.mantissa ≠ 0 := by
  intro hzero
  exact not_scale_dvd he (hzero ▸ dvd_zero _)

theorem floor_of_nonneg (h : Limits minimum maximum) (he : 0 ≤ d.exponent) :
    d.floor minimum maximum = clamp minimum maximum ⌊d.value⌋ := by
  have hvalue : d.value = ((d.mantissa * 10 ^ d.exponent.toNat : Int) : ℚ) := by
    rw [value]
    nth_rewrite 1 [← Int.toNat_of_nonneg he]
    rw [zpow_natCast]
    push_cast
    rfl
  unfold floor
  rw [if_pos he, clamp_eq h, clamp_scaleUp h, hvalue, Int.floor_intCast]

theorem floor_of_neg (h : Limits minimum maximum) (he : d.exponent < 0) :
    d.floor minimum maximum = clamp minimum maximum (if d.exponent = minValue then d.mantissa
          else d.mantissa.tdiv d.scale) := by
  have hneg : ¬ 0 ≤ d.exponent := not_le.mpr he
  unfold floor
  rw [if_neg hneg, clamp_eq h]
  congr 1
  split
  · next hmin =>
      have hzero : (wrap (-d.exponent)).toNat = 0 := by
        rw [hmin]
        rfl
      rw [hzero, scaleDown]
  · next hmin =>
      have hwrap : wrap (-d.exponent) = -d.exponent := by
        apply MachineInt.wrap_eq
        have hrange := d.inRange
        unfold InRange minValue maxValue at *
        omega
      rw [hwrap, scaleDown_eq, scale]

theorem tdiv_scale (he : d.exponent < 0) :
    d.mantissa.tdiv d.scale = if 0 < d.mantissa then ⌊d.value⌋ else ⌊d.value⌋ + 1 := by
  have hsign : Int.sign (d.scale : Int) = 1 :=
    Int.sign_eq_one_of_pos (lt_trans Int.one_pos (one_lt_scale he))
  rw [Int.tdiv_eq_ediv, ← floor_value he, hsign]
  by_cases hpos : 0 < d.mantissa
  · rw [if_pos (Or.inl (le_of_lt hpos)), if_pos hpos, add_zero]
  · have hnot : ¬ (0 ≤ d.mantissa ∨ (d.scale : Int) ∣ d.mantissa) := by
      rintro (hle | hdvd)
      · exact hpos (lt_of_le_of_ne hle (Ne.symm (mantissa_ne_zero he)))
      · exact not_scale_dvd he hdvd
    rw [if_neg hnot, if_neg hpos]

theorem floor_bounds (he : d.exponent < 0) :
    ⌊d.value⌋ * d.scale ≤ d.mantissa ∧ d.mantissa < (⌊d.value⌋ + 1) * d.scale := by
  have hpos : (0 : Int) < d.scale := lt_trans Int.one_pos (one_lt_scale he)
  rw [floor_value he]
  exact ⟨Int.ediv_mul_le _ (ne_of_gt hpos), Int.lt_ediv_add_one_mul_self _ hpos⟩

theorem floor_of_pos_mantissa (he : d.exponent < 0) (hm : 0 < d.mantissa) :
    0 ≤ ⌊d.value⌋ ∧ ⌊d.value⌋ < d.mantissa := by
  have hscale := one_lt_scale he
  rcases floor_bounds he with ⟨hlow, hhigh⟩
  constructor
  · by_contra hneg
    nlinarith
  · by_contra hge
    nlinarith

theorem floor_of_neg_mantissa (he : d.exponent < 0) (hm : d.mantissa < 0) :
    d.mantissa ≤ ⌊d.value⌋ ∧ ⌊d.value⌋ ≤ -1 ∧ (d.mantissa = ⌊d.value⌋ <-> d.mantissa = -1) := by
  have hscale := one_lt_scale he
  rcases floor_bounds he with ⟨hlow, hhigh⟩
  have hneg : ⌊d.value⌋ ≤ -1 := by
    by_contra hge
    nlinarith
  have hle : d.mantissa ≤ ⌊d.value⌋ := by
    by_contra hgt
    nlinarith
  refine ⟨hle, hneg, ?_, ?_⟩
  · intro heq
    by_contra hne
    rw [← heq] at hhigh hneg
    have htwo : d.mantissa ≤ -2 := by omega
    nlinarith
  · intro heq
    omega

theorem value_le_iff (he : d.exponent < 0) (a : Int) :
    d.value ≤ a <-> ⌊d.value⌋ + 1 ≤ a := by
  constructor
  · intro hle
    have hne : d.value ≠ (a : ℚ) := by
      intro heq
      rw [value_eq_div he, div_eq_iff (by
        have hscale := one_lt_scale he
        exact_mod_cast ne_of_gt (lt_trans Int.one_pos hscale))] at heq
      apply not_scale_dvd he
      have hint : d.mantissa = a * d.scale := by exact_mod_cast heq
      exact ⟨a, by rw [hint, mul_comm]⟩
    exact Int.floor_lt.mpr (lt_of_le_of_ne hle hne)
  · intro hle
    exact le_of_lt (lt_of_lt_of_le (Int.lt_floor_add_one d.value)
      (by exact_mod_cast hle))

theorem floor_eq_iff_of_neg (h : Limits minimum maximum) (he : d.exponent < 0)
    (hmin : d.exponent ≠ minValue) :
    d.floor minimum maximum = clamp minimum maximum ⌊d.value⌋ <->
      0 < d.mantissa ∨ exists a, minimum = some a ∧ d.value ≤ a := by
  rw [floor_of_neg h he, if_neg hmin, tdiv_scale he]
  by_cases hpos : 0 < d.mantissa
  · simp [hpos]
  · have hneg : d.mantissa < 0 :=
      lt_of_le_of_ne (not_lt.mp hpos) (mantissa_ne_zero he)
    rcases floor_of_neg_mantissa he hneg with ⟨_, hfloor, _⟩
    rw [if_neg hpos, eq_comm, clamp_eq_clamp_iff h (Int.lt_succ _)
      (Or.inr (by omega))]
    constructor
    · rintro (⟨a, ha, hle⟩ | ⟨b, hb, hle⟩)
      · exact Or.inr ⟨a, ha, (value_le_iff he a).mpr hle⟩
      · have hzero := h.maximum b hb
        omega
    · rintro (hp | ⟨a, ha, hle⟩)
      · exact absurd hp hpos
      · exact Or.inl ⟨a, ha, (value_le_iff he a).mp hle⟩

theorem floor_eq_iff_of_minValue (h : Limits minimum maximum) (hmin : d.exponent = minValue) :
    d.floor minimum maximum = clamp minimum maximum ⌊d.value⌋ <->
      (0 < d.mantissa ∧ exists b, maximum = some b ∧ b ≤ d.value) ∨ d.mantissa = -1 ∨
        (d.mantissa < 0 ∧ exists a, minimum = some a ∧ d.value < a + 1) := by
  have he : d.exponent < 0 := by
    rw [hmin]
    decide
  rw [floor_of_neg h he, if_pos hmin]
  rcases lt_or_gt_of_ne (mantissa_ne_zero he) with hneg | hpos
  · rcases floor_of_neg_mantissa he hneg with ⟨hle, hfloor, hsame⟩
    by_cases hone : d.mantissa = -1
    · simp [← hsame.mpr hone, hone]
    · have hlt : d.mantissa < ⌊d.value⌋ :=
        lt_of_le_of_ne hle (fun heq => hone (hsame.mp heq))
      rw [clamp_eq_clamp_iff h hlt (Or.inr (by omega))]
      constructor
      · rintro (⟨a, ha, hle⟩ | ⟨b, hb, hle⟩)
        · refine Or.inr (Or.inr ⟨hneg, a, ha, ?_⟩)
          have hless : ⌊d.value⌋ < a + 1 := by omega
          exact_mod_cast Int.floor_lt.mp hless
        · have hzero := h.maximum b hb
          omega
      · rintro (⟨hp, _⟩ | hm | ⟨_, a, ha, hless⟩)
        · omega
        · exact absurd hm hone
        · have hfl : ⌊d.value⌋ < a + 1 := Int.floor_lt.mpr (by exact_mod_cast hless)
          exact Or.inl ⟨a, ha, by omega⟩
  · rcases floor_of_pos_mantissa he hpos with ⟨hzero, hlt⟩
    rw [eq_comm, clamp_eq_clamp_iff h hlt (Or.inl hzero)]
    constructor
    · rintro (⟨a, ha, hle⟩ | ⟨b, hb, hle⟩)
      · have hnonpos := h.minimum a ha
        omega
      · exact Or.inl ⟨hpos, b, hb, Int.le_floor.mp hle⟩
    · rintro (⟨_, b, hb, hle⟩ | hm | ⟨hm, _⟩)
      · exact Or.inr ⟨b, hb, Int.le_floor.mpr hle⟩
      · omega
      · omega

theorem floor_eq_iff (h : Limits minimum maximum) :
    d.floor minimum maximum = clamp minimum maximum ⌊d.value⌋ <->
      d.FloorsExactly minimum maximum := by
  unfold FloorsExactly
  by_cases he : 0 ≤ d.exponent
  · exact ⟨fun _ => Or.inl he, fun _ => floor_of_nonneg h he⟩
  · have hlt : d.exponent < 0 := not_le.mp he
    by_cases hmin : d.exponent = minValue
    · have hminneg : ¬ 0 ≤ minValue := by decide
      rw [floor_eq_iff_of_minValue h hmin]
      simp [hmin, hminneg]
    · rw [floor_eq_iff_of_neg h hlt hmin]
      simp [he, hlt, hmin]

end Floor

/-- The representation is canonical, the operations are those of the rational
numbers as long as the exponents of the results are integers of 32 bits, the
comparison is their order, and the floor is right for the numbers above. -/
theorem arithmetic_exact (x y : BigDec) {minimum maximum : Option Int}
    (h : Limits minimum maximum) :
    (x.value = y.value <-> x.mantissa = y.mantissa ∧ x.exponent = y.exponent) ∧
      ((add x y).value = x.value + y.value <-> Representable (x.value + y.value)) ∧
      ((sub x y).value = x.value - y.value <-> Representable (x.value - y.value)) ∧
      ((mul x y).value = x.value * y.value <-> Representable (x.value * y.value)) ∧
      x.negate.value = -x.value ∧ x.abs.value = |x.value| ∧
      ((compareTo x y = 0 <-> x.value = y.value) ∧ (compareTo x y < 0 <-> x.value < y.value) ∧
        (0 < compareTo x y <-> y.value < x.value)) ∧
      (x.floor minimum maximum = clamp minimum maximum ⌊x.value⌋ <->
        x.FloorsExactly minimum maximum) :=
  ⟨(parts_eq_iff x y).symm, add_value_iff x y, sub_value_iff x y,
    mul_value_iff x y, negate_value x, abs_value x, compareTo_spec x y,
    floor_eq_iff h⟩

def threeHalves : BigDec :=
  ⟨15, -1, by decide, by decide⟩

theorem arithmetic_exact_threeHalves :
    (threeHalves.floor (some (-10)) (some 10) = clamp (some (-10)) (some 10) ⌊threeHalves.value⌋ <->
      threeHalves.FloorsExactly (some (-10)) (some 10)) ∧
    threeHalves.negate.value = -threeHalves.value := by
  have h : Limits (some (-10)) (some 10) :=
    ⟨fun a ha => by cases ha; decide, fun b hb => by cases hb; decide⟩
  have hexact := arithmetic_exact threeHalves threeHalves h
  exact ⟨hexact.2.2.2.2.2.2.2, hexact.2.2.2.2.1⟩

/-- The floor of -1.5 is computed as -1. -/
theorem not_floor_negative :
    ¬ forall (d : BigDec) (minimum maximum : Option Int), Limits minimum maximum ->
      d.floor minimum maximum = clamp minimum maximum ⌊d.value⌋ := by
  intro hall
  have h : Limits none none := ⟨by simp, by simp⟩
  have hfloor := hall ⟨-15, -1, by decide, by decide⟩ none none h
  rw [floor_eq_iff h] at hfloor
  rcases hfloor with hge | ⟨_, _, hpos | ⟨a, ha, _⟩⟩ | ⟨hmin, _⟩
  · exact absurd hge (by decide)
  · exact absurd hpos (by decide)
  · cases ha
  · exact absurd hmin (by decide)

end BigDec
end Basetypes
end Boogie
