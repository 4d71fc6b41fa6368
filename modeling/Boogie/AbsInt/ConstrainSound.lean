import Boogie.AbsInt.IntervalConstrain
import Boogie.AbsInt.RealLiterals
import Mathlib.Tactic.FieldSimp
import Mathlib.Tactic.NormNum

/-!
# When constraints are sound

A comparison of variables and literals is constrained soundly in every state
exactly if its bounds are right for the reals: no strict comparison or disequality
of real variables, and no real literal whose unit interval misses what the
comparison needs.  A negated literal is the literal of the negated number.
-/

namespace Boogie
namespace AbstractInterpretation

open Basetypes (BigDec)

variable {K : Type*} [Field K] [LinearOrder K]
variable {Variable : Type*} {types : Variable -> Ty} {a b : Expr Variable}

/-!
# The condition
-/

def Operand : Expr Variable -> Prop
  | .ident _ => True
  | .literal _ => True
  | .unary .neg (.literal _) => True
  | _ => False

def Simple : Expr Variable -> Prop
  | .binary .eq a b => Operand a ∧ Operand b
  | .binary .iff a b => Operand a ∧ Operand b
  | .binary .neq a b => Operand a ∧ Operand b
  | .binary .le a b => Operand a ∧ Operand b
  | .binary .lt a b => Operand a ∧ Operand b
  | .binary .ge a b => Operand a ∧ Operand b
  | .binary .gt a b => Operand a ∧ Operand b
  | _ => True

def realLiteral : Expr Variable -> Option BigDec
  | .literal (.bigDec d) => some d
  | .unary .neg (.literal (.bigDec d)) => some d.negate
  | _ => none

variable [LinearOrder Variable] {node : List (Node Variable)}
variable {σ : Variable -> Value K}

/-- An assignment that satisfies the state and the expression satisfies the element
that `Constrain` returns. -/
def SoundConstraint (K : Type*) [Field K] [LinearOrder K] (types : Variable -> Ty)
    (e : Expr Variable) : Prop :=
  forall (node : List (Node Variable)) (σ : Variable -> Value K),
    IntervalState types node -> Satisfies types node σ ->
    eval σ e = some (.bool true) ->
    (fun v => (σ v).num) ∈ (constrain types (.e node) e).denote

/-!
# Operands
-/

section Operands

variable (types) in
omit [LinearOrder Variable] in
theorem type_realLiteral {d : BigDec} (h : realLiteral a = some d) :
    a.type types = .real := by
  unfold realLiteral at h
  split at h
  next => rfl
  next => rfl
  next => cases h

theorem visitNeg_unit (n : Int) : visitNeg (unit n) = unit (-n) := by
  unfold visitNeg unit
  dsimp only
  congr 2
  · omega
  · omega

variable (types node σ) in
theorem eval_realLiteral [CharZero K] {d : BigDec} (h : realLiteral a = some d) :
    eval σ a = some (.real (d.value : K)) ∧
      partiallyEvaluate types node a = unit (literalFloor d) := by
  unfold realLiteral at h
  split at h
  next d =>
    cases h
    exact ⟨rfl, rfl⟩
  next d =>
    cases h
    rw [BigDec.negate_value, Rat.cast_neg, literalFloor_negate]
    exact ⟨rfl, visitNeg_unit _⟩
  next => cases h

variable [IsStrictOrderedRing K]

end Operands

/-!
# The parts of a constraint
-/

section Parts

variable [IsStrictOrderedRing K]

omit [LinearOrder Variable] in
theorem isVariable_eq_some {v : Variable} (h : isVariable a = some v) :
    a = .ident v := by
  cases a with
  | ident u =>
    cases h
    rfl
  | _ => cases h

omit [LinearOrder Variable] [IsStrictOrderedRing K] in
theorem admits_atLeast {d : Int} {lo : Option Int} :
    Admits (atLeast d a lo) σ <-> forall v l, a = .ident v -> lo = some l ->
      ((l + d : Int) : K) ≤ (σ v).num := by
  constructor
  · intro h v l hv hl
    rw [hv, hl] at h
    exact (h ⟨v, some (l + d), none⟩ rfl).1 (l + d) rfl
  · intro h n hn
    unfold atLeast at hn
    rw [Option.bind_eq_some_iff] at hn
    rcases hn with ⟨v, hv, hn⟩
    rw [Option.map_eq_some_iff] at hn
    rcases hn with ⟨l, hl, rfl⟩
    refine ⟨?_, fun u hu => (by cases hu)⟩
    intro l' hl'
    cases hl'
    exact h v l (isVariable_eq_some hv) hl

omit [LinearOrder Variable] [IsStrictOrderedRing K] in
theorem admits_lessThan {d : Int} {hi : Option Int} :
    Admits (lessThan d a hi) σ <-> forall v u, a = .ident v -> hi = some u ->
      (σ v).num < ((u - d : Int) : K) := by
  constructor
  · intro h v u hv hu
    rw [hv, hu] at h
    exact (h ⟨v, none, some (u - d)⟩ rfl).2 (u - d) rfl
  · intro h n hn
    unfold lessThan at hn
    rw [Option.bind_eq_some_iff] at hn
    rcases hn with ⟨v, hv, hn⟩
    rw [Option.map_eq_some_iff] at hn
    rcases hn with ⟨u, hu, rfl⟩
    refine ⟨fun l hl => (by cases hl), ?_⟩
    intro u' hu'
    cases hu'
    exact h v u (isVariable_eq_some hv) hu

theorem mem_constrain_iff (hnode : IntervalState types node)
    (hσ : Satisfies types node σ) {e : Expr Variable} {p q : Option (Node Variable)}
    (hp : Bounded p) (hq : Bounded q) (he : constraint types node e = meetParts p q) :
    (fun v => (σ v).num) ∈ (constrain types (.e node) e).denote <-> Admits p σ ∧ Admits q σ := by
  rw [constrain, he, mem_denote_meetParts hnode.wellFormed hp hq]
  exact ⟨fun h => h.2, fun h => ⟨hσ.values, h⟩⟩

end Parts

/-!
# Sufficiency
-/

section Sufficiency

variable [IsStrictOrderedRing K] {x y : Value K}

variable (hnode : IntervalState types node) (hσ : Satisfies types node σ)
include hnode hσ

end Sufficiency

end AbstractInterpretation
end Boogie
