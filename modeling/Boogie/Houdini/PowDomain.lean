import Mathlib.Algebra.Order.GroupWithZero.Basic
import Mathlib.Algebra.Order.Ring.Int
import Boogie.Houdini.NumericDomains

/-!
# Powers of two

An element bounds its argument by a power of two.  The power is searched for by
shifting a 32-bit integer, whose shift counts are taken modulo 32.
-/

namespace Boogie

inductive PowDomain.Val where
  | false
  | neither
  | true
deriving DecidableEq, Repr

structure PowDomain where
  tlevel : PowDomain.Val
  upper : Int
deriving DecidableEq, Repr

namespace PowDomain

open MachineInt (wrap InRange minValue maxValue)

def maxUpper : Int := 16

def bottom : PowDomain :=
  ⟨.false, 0⟩

def isBottom (d : PowDomain) : Bool :=
  d.tlevel = .false

def isTop (d : PowDomain) : Bool :=
  d.tlevel = .true

/-- `1 << n` on `int`. -/
def shiftOne (n : Int) : Int :=
  wrap (2 ^ (n % 32).toNat)

/-- The loop `while ((1 << nupper) < v) nupper++` for as many rounds as there is
fuel; `none` when it has not ended by then. -/
def searchUpper (v : Int) : Nat -> Int -> Option Int
  | 0, _ => none
  | fuel + 1, nupper =>
    if shiftOne nupper < v then searchUpper v fuel (wrap (nupper + 1))
    else some nupper

def joinValue (fuel : Nat) (d : PowDomain) (v : Int) : Option PowDomain :=
  if d.isTop then some d
  else
    (searchUpper v fuel d.upper).map (fun nupper =>
      ⟨if maxUpper < nupper then .true else .neither, nupper⟩)

def join (fuel : Nat) (d : PowDomain) : List Model.Element -> Option PowDomain
  | [] => none
  | state :: _ =>
    if d.isTop then some d
    else state.asInt.bind (d.joinValue fuel)

/-- There is one variable, `vars[0]`, of type `int`. -/
def gamma (d : PowDomain) : Condition := fun vars =>
  if d.isBottom then some .falseExpr
  else if d.isTop then some .trueExpr
  else
    vars.head?.map (fun v => .lt v (.intLiteral (shiftOne (wrap (d.upper + 1)))))

/-!
# The loop
-/

theorem shiftOne_eq {n : Nat} (h : n ≤ 30) : shiftOne n = 2 ^ n := by
  have hmod : ((n : Int) % 32).toNat = n := by omega
  have hle : (2 : Int) ^ n ≤ 2 ^ 30 := pow_le_pow_right₀ (by decide) h
  have hpos : (0 : Int) < 2 ^ n := Int.pow_pos (by decide)
  rw [shiftOne, hmod]
  apply MachineInt.wrap_eq
  unfold InRange minValue maxValue
  omega

theorem shiftOne_le (n : Int) : shiftOne n ≤ 2 ^ 30 := by
  have hall : forall k : Nat, k < 32 -> wrap (2 ^ k) ≤ 2 ^ 30 := by decide
  exact hall _ (by omega)

theorem searchUpper_eq_none {v : Int} (hv : 2 ^ 30 < v) (fuel : Nat)
    (nupper : Int) : searchUpper v fuel nupper = none := by
  induction fuel generalizing nupper with
  | zero => rfl
  | succ fuel ih =>
    rw [searchUpper, if_pos (lt_of_le_of_lt (shiftOne_le nupper) hv)]
    exact ih _

theorem searchUpper_eq_some {v : Int} (hv : v ≤ 2 ^ 30) {k n : Nat} (hn : n + k = 30) :
    exists m : Nat, searchUpper v (k + 1) n = some (m : Int) ∧ n ≤ m ∧ m ≤ 30 ∧ v ≤ 2 ^ m := by
  induction k generalizing n with
  | zero =>
    have h30 : n = 30 := by omega
    subst h30
    refine ⟨30, ?_, le_refl _, le_refl _, hv⟩
    rw [searchUpper, shiftOne_eq (le_refl 30), if_neg (not_lt.mpr hv)]
  | succ k ih =>
    have hle : n ≤ 30 := by omega
    rw [searchUpper, shiftOne_eq hle]
    split
    · next hlt =>
        have hwrap : wrap ((n : Int) + 1) = ((n + 1 : Nat) : Int) := by
          rw [MachineInt.wrap_eq]
          · rfl
          · unfold InRange minValue maxValue
            omega
        rcases @ih (n + 1) (by omega) with ⟨m, hm, hnm, hbound⟩
        rw [hwrap]
        exact ⟨m, hm, by omega, hbound⟩
    · next hge => exact ⟨n, rfl, le_refl n, hle, not_lt.mp hge⟩

theorem searchUpper_mono {v nupper m : Int} {fuel : Nat}
    (h : searchUpper v fuel nupper = some m) (more : Nat) :
    searchUpper v (fuel + more) nupper = some m := by
  induction fuel generalizing nupper with
  | zero => cases h
  | succ fuel ih =>
    rw [Nat.succ_add]
    rw [searchUpper] at h ⊢
    split at h
    · next hlt =>
        rw [if_pos hlt]
        exact ih h
    · next hge =>
        rw [if_neg hge]
        exact h

/-!
# Joins
-/

inductive Reaches : List Int -> PowDomain -> Prop where
  | bottom : Reaches [] bottom
  | join {values : List Int} {d d' : PowDomain} {v : Int} {fuel : Nat} :
      Reaches values d -> InRange v ->
        d.join fuel [.integer v] = some d' -> Reaches (v :: values) d'

/-- `Join` returns an element whose condition includes all values so far and
is implied by the one before. -/
def JoinsTo (d : PowDomain) (values : List Int) (v : Int) : Prop :=
  exists fuel d', d.join fuel [.integer v] = some d' ∧
    (forall w, w ∈ v :: values -> d'.gamma.SatisfiedBy [w]) ∧
    d.gamma.Implies d'.gamma

/-- Elements that are not the greatest one bound their values by `2 ^ upper`. -/
structure Bounds (d : PowDomain) (values : List Int) : Prop where
  nonempty : d.isBottom = false ∨ values = []
  upper : d.isTop = false -> exists n : Nat, d.upper = n ∧ n ≤ 16 ∧
    forall w, w ∈ values -> w ≤ 2 ^ n

theorem gamma_eq {d : PowDomain} {n : Nat} (hbottom : d.isBottom = false)
    (htop : d.isTop = false) (hupper : d.upper = n) (hn : n ≤ 16)
    (vars : List Expr) : d.gamma vars =
      vars.head?.map (fun v => .lt v (.intLiteral (2 ^ (n + 1)))) := by
  have hwrap : wrap ((n : Int) + 1) = ((n + 1 : Nat) : Int) := by
    rw [MachineInt.wrap_eq]
    · rfl
    · unfold InRange minValue maxValue
      omega
  have hle : n + 1 ≤ 30 := by omega
  simp only [gamma, hbottom, htop, Bool.false_eq_true, if_false, hupper, hwrap,
    shiftOne_eq hle]

theorem Bounds.satisfiedBy {d : PowDomain} {values : List Int}
    (h : d.Bounds values) {w : Int} (hw : w ∈ values) :
    d.gamma.SatisfiedBy [w] := by
  intro U _ I ρ₀ ρ vars hvars
  have hbottom : d.isBottom = false := by
    rcases h.nonempty with hbottom | hnil
    · exact hbottom
    · rw [hnil] at hw
      cases hw
  cases htop : d.isTop with
  | true => exact ⟨.trueExpr, by simp [gamma, hbottom, htop], Expr.holds_trueExpr⟩
  | false =>
    rcases h.upper htop with ⟨n, hn, hle, hall⟩
    rw [gamma_eq hbottom htop hn hle]
    cases vars with
    | nil => cases hvars
    | cons v vars =>
      rw [List.map_cons, List.map_cons, List.cons.injEq] at hvars
      refine ⟨_, rfl, ?_⟩
      rw [Expr.holds_lt, Expr.toInt_intLiteral, hvars.1]
      have hpos : (0 : Int) < 2 ^ n := Int.pow_pos (by decide)
      have hwn := hall w hw
      show w < 2 ^ (n + 1)
      rw [pow_succ]
      omega

theorem Bounds.implies {d d' : PowDomain} {values values' : List Int}
    (h : d.Bounds values) (h' : d'.Bounds values') (hbottom : d'.isBottom = false)
    (hle : d'.isTop = false -> d.isTop = false ∧ d.upper ≤ d'.upper) :
    d.gamma.Implies d'.gamma := by
  intro U _ I ρ₀ ρ vars hholds
  cases htop' : d'.isTop with
  | true =>
    exact ⟨.trueExpr, by simp [gamma, hbottom, htop'], Expr.holds_trueExpr⟩
  | false =>
    rcases hholds with ⟨e, he, hholds⟩
    have htop := (hle htop').1
    cases hd : d.isBottom with
    | true =>
      rw [gamma, if_pos hd] at he
      cases he
      exact absurd hholds Expr.not_holds_falseExpr
    | false =>
      rcases h.upper htop with ⟨n, hn, hn16, _⟩
      rcases h'.upper htop' with ⟨m, hm, hm16, _⟩
      rw [gamma_eq hd htop hn hn16] at he
      rw [gamma_eq hbottom htop' hm hm16]
      rcases Option.map_eq_some_iff.mp he with ⟨v, hv, rfl⟩
      refine ⟨_, by rw [hv]; rfl, ?_⟩
      rw [Expr.holds_lt, Expr.toInt_intLiteral] at hholds ⊢
      have hnm : n + 1 ≤ m + 1 := by
        have hupper := (hle htop').2
        omega
      exact lt_of_lt_of_le hholds (pow_le_pow_right₀ (by decide) hnm)

theorem asInt_integer {v : Int} (h : InRange v) :
    (Model.Element.integer v).asInt = some v :=
  IntState.asInt_integer h

theorem join_eq {d : PowDomain} (htop : d.isTop = false) {v : Int} (hv : InRange v) (fuel : Nat) :
    d.join fuel [.integer v] = (searchUpper v fuel d.upper).map (fun nupper =>
      ⟨if maxUpper < nupper then .true else .neither, nupper⟩) := by
  simp only [join, htop, Bool.false_eq_true, if_false, asInt_integer hv,
    Option.bind_some, joinValue]

theorem join_top {d : PowDomain} (htop : d.isTop = true) (fuel : Nat)
    (state : Model.Element) : d.join fuel [state] = some d :=
  if_pos htop

theorem Bounds.exists_join {d : PowDomain} {values : List Int}
    (h : d.Bounds values) (htop : d.isTop = false) {v : Int} (hv : InRange v) (hle : v ≤ 2 ^ 30) :
    exists m : Nat, d.join 31 [.integer v] = some ⟨if 16 < m then .true else .neither, m⟩ ∧
      d.upper ≤ m ∧ v ≤ 2 ^ m ∧ forall w, w ∈ values -> w ≤ 2 ^ m := by
  rcases h.upper htop with ⟨n, hn, hn16, hall⟩
  have hsum : n + (30 - n) = 30 := by omega
  rcases searchUpper_eq_some hle hsum with ⟨m, hm, hnm, _, hvm⟩
  have hfuel := searchUpper_mono hm n
  have hfuel31 : 30 - n + 1 + n = 31 := by omega
  rw [hfuel31] at hfuel
  refine ⟨m, ?_, by omega, hvm, ?_⟩
  · rw [join_eq htop hv, hn, hfuel]
    have hcast : maxUpper < (m : Int) <-> 16 < m := by
      unfold maxUpper
      omega
    simp only [Option.map_some, hcast]
  · intro w hw
    exact le_trans (hall w hw) (pow_le_pow_right₀ (by decide) hnm)

theorem join_unique {d d1 d2 : PowDomain} {fuel1 fuel2 : Nat} {v : Int}
    (hv : InRange v) (h1 : d.join fuel1 [.integer v] = some d1)
    (h2 : d.join fuel2 [.integer v] = some d2) : d1 = d2 := by
  cases htop : d.isTop with
  | true =>
    rw [join_top htop] at h1 h2
    cases h1
    cases h2
    rfl
  | false =>
    rw [join_eq htop hv] at h1 h2
    rcases Option.map_eq_some_iff.mp h1 with ⟨n1, hn1, rfl⟩
    rcases Option.map_eq_some_iff.mp h2 with ⟨n2, hn2, rfl⟩
    have hmore1 := searchUpper_mono hn1 fuel2
    have hmore2 := searchUpper_mono hn2 fuel1
    rw [Nat.add_comm, hmore2] at hmore1
    cases hmore1
    rfl

theorem Bounds.join {d d' : PowDomain} {values : List Int}
    (h : d.Bounds values) {v : Int} (hv : InRange v) {fuel : Nat}
    (hjoin : d.join fuel [.integer v] = some d') : d'.Bounds (v :: values) := by
  cases htop : d.isTop with
  | true =>
    rw [join_top htop] at hjoin
    cases hjoin
    have hbottom : d.isBottom = false := by
      have hlevel : d.tlevel = .true := of_decide_eq_true htop
      simp [isBottom, hlevel]
    exact ⟨Or.inl hbottom, by simp [htop]⟩
  | false =>
    by_cases hle : v ≤ 2 ^ 30
    · rcases h.exists_join htop hv hle with ⟨m, hm, _, hvm, hall⟩
      cases join_unique hv hjoin hm
      refine ⟨Or.inl ?_, ?_⟩
      · unfold isBottom
        split <;> rfl
      · intro hd'
        have hm16 : m ≤ 16 := by
          by_contra hgt
          rw [isTop, if_pos (by omega)] at hd'
          cases hd'
        exact ⟨m, rfl, hm16, List.forall_mem_cons.mpr ⟨hvm, hall⟩⟩
    · rw [join_eq htop hv, searchUpper_eq_none (not_le.mp hle)] at hjoin
      cases hjoin

theorem Reaches.bounds {d : PowDomain} {values : List Int}
    (h : Reaches values d) : d.Bounds values := by
  induction h with
  | bottom => exact ⟨Or.inr rfl, fun _ => ⟨0, rfl, by decide, by simp⟩⟩
  | join _ hv hjoin ih => exact ih.join hv hjoin

/-- A join ends, and is sound, for the values up to `2 ^ 30` and no others,
unless the element is the greatest one. -/
theorem joinsTo_iff {d : PowDomain} {values : List Int} (h : Reaches values d)
    {v : Int} (hv : InRange v) :
    JoinsTo d values v <-> v ≤ 2 ^ 30 ∨ d.isTop = true := by
  have hbounds := h.bounds
  constructor
  · intro ⟨fuel, d', hjoin, _⟩
    cases htop : d.isTop with
    | true => exact Or.inr rfl
    | false =>
      apply Or.inl
      by_contra hgt
      rw [join_eq htop hv, searchUpper_eq_none (not_le.mp hgt)] at hjoin
      cases hjoin
  · intro hcase
    cases htop : d.isTop with
    | true =>
      have hjoin := join_top htop 0 (.integer v)
      have hbounds' := hbounds.join hv hjoin
      exact ⟨0, d, hjoin, fun w hw => hbounds'.satisfiedBy hw,
        Condition.Implies.refl _⟩
    | false =>
      have hle := hcase.resolve_right (by simp [htop])
      rcases hbounds.exists_join htop hv hle with ⟨m, hjoin, hupper, _⟩
      have hbounds' := hbounds.join hv hjoin
      refine ⟨31, _, hjoin, fun w hw => hbounds'.satisfiedBy hw, ?_⟩
      apply hbounds.implies hbounds'
      · unfold isBottom
        split <;> rfl
      · exact fun _ => ⟨htop, hupper⟩

/-- The values 5 and 3 are joined without trouble. -/
theorem joinsTo_iff_five : JoinsTo ⟨.neither, 3⟩ [5] 3 <->
    (3 : Int) ≤ 2 ^ 30 ∨ (PowDomain.mk .neither 3).isTop = true :=
  joinsTo_iff (Reaches.join Reaches.bottom (by decide)
    (show bottom.join 31 [.integer 5] = some ⟨.neither, 3⟩ by decide)) (by decide)

/-- The loop does not end for `2 ^ 30 + 1`. -/
theorem not_joinsTo_of_reaches :
    ¬ forall values d v, Reaches values d -> InRange v -> JoinsTo d values v := by
  intro h
  rcases h [] bottom 1073741825 Reaches.bottom (by decide) with
    ⟨fuel, d', hjoin, _⟩
  rw [join_eq rfl (by decide), searchUpper_eq_none (by decide)] at hjoin
  cases hjoin

end PowDomain

end Boogie
