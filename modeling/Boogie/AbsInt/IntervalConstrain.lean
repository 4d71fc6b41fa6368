import Boogie.AbsInt.UpdateSound

/-!
# Constraints of expressions

An expression that is assumed constrains the variables on its sides.
-/

namespace Boogie
namespace AbstractInterpretation

variable {Variable : Type*} [LinearOrder Variable]

def isVariable : Expr Variable -> Option Variable
  | .ident v => some v
  | _ => none

def equalTo (arg : Expr Variable) (b : Bounds) : Option (Node Variable) :=
  (isVariable arg).bind (fun v => constrained v b.1 b.2)

def atLeast (d : Int) (arg : Expr Variable) (lo : Option Int) :
    Option (Node Variable) :=
  (isVariable arg).bind (fun v => lo.map (fun l => ⟨v, some (l + d), none⟩))

def lessThan (d : Int) (arg : Expr Variable) (hi : Option Int) :
    Option (Node Variable) :=
  (isVariable arg).bind (fun v => hi.map (fun h => ⟨v, none, some (h - d)⟩))

def constrainNeq (state : List (Node Variable)) (v : Variable) (b : Bounds) :
    Option (Node Variable) :=
  match b with
  | (some lo, some hi) =>
    if lo + 1 = hi then
      let exclude := lo
      if (Node.getBounds state v).1 = some exclude then
        some ⟨v, some (exclude + 1), none⟩
      else if (Node.getBounds state v).2 = some (exclude + 1) then
        some ⟨v, none, some exclude⟩
      else none
    else none
  | _ => none

def meetParts (p q : Option (Node Variable)) : Option (Element Variable) :=
  match p, q with
  | none, none => none
  | some n, none => some (.e [n])
  | none, some n => some (.e [n])
  | some n, some m => some (meet (.e [n]) (.e [m]))

variable (types : Variable -> Ty) (state : List (Node Variable))

def constraintEq (arg0 arg1 : Expr Variable) : Option (Element Variable) :=
  meetParts (equalTo arg0 (partiallyEvaluate types state arg1))
    (equalTo arg1 (partiallyEvaluate types state arg1))

def constraintNeq (arg0 arg1 : Expr Variable) : Option (Element Variable) :=
  meetParts
    ((isVariable arg0).bind (fun v =>
      constrainNeq state v (partiallyEvaluate types state arg1)))
    ((isVariable arg1).bind (fun v =>
      constrainNeq state v (partiallyEvaluate types state arg0)))

def constraintLess (d : Int) (arg0 arg1 : Expr Variable) :
    Option (Element Variable) :=
  meetParts (atLeast d arg1 (partiallyEvaluate types state arg0).1)
    (lessThan d arg0 (partiallyEvaluate types state arg1).2)

def constraintLe (arg0 arg1 : Expr Variable) : Option (Element Variable) :=
  constraintLess types state 0 arg0 arg1

def constraintLt (arg0 arg1 : Expr Variable) : Option (Element Variable) :=
  constraintLess types state 1 arg0 arg1

def constraint : Expr Variable -> Option (Element Variable)
  | .ident v => some (.e [⟨v, some 1, none⟩])
  | .literal (.bool false) => some .bottom
  | .unary .not (.ident v) => some (.e [⟨v, none, some 1⟩])
  | .binary .eq arg0 arg1 => constraintEq types state arg0 arg1
  | .binary .iff arg0 arg1 => constraintEq types state arg0 arg1
  | .binary .neq arg0 arg1 => constraintNeq types state arg0 arg1
  | .binary .le arg0 arg1 => constraintLe types state arg0 arg1
  | .binary .lt arg0 arg1 => constraintLt types state arg0 arg1
  | .binary .ge arg0 arg1 => constraintLe types state arg1 arg0
  | .binary .gt arg0 arg1 => constraintLt types state arg1 arg0
  | _ => none

def constrain (element : Element Variable) (expr : Expr Variable) :
    Element Variable :=
  match element with
  | .bottom => .bottom
  | .e n =>
    match constraint types n expr with
    | none => .e n
    | some c => meet (.e n) c

/-!
# What the constraints say
-/

variable {types} {K : Type*} [Field K] [LinearOrder K] [IsStrictOrderedRing K]
variable {state}

def Admits (p : Option (Node Variable)) (σ : Variable -> Value K) : Prop :=
  forall n, p = some n -> Within (n.lo, n.hi) (σ n.v).num

def Bounded (p : Option (Node Variable)) : Prop :=
  forall n, p = some n -> n.lo.isSome || n.hi.isSome

omit [LinearOrder Variable] in
theorem bounded_atLeast (d : Int) (arg : Expr Variable) (lo : Option Int) :
    Bounded (atLeast d arg lo) := by
  intro n hn
  unfold atLeast at hn
  rw [Option.bind_eq_some_iff] at hn
  rcases hn with ⟨v, _, hn⟩
  rw [Option.map_eq_some_iff] at hn
  rcases hn with ⟨l, _, rfl⟩
  rfl

omit [LinearOrder Variable] in
theorem bounded_lessThan (d : Int) (arg : Expr Variable) (hi : Option Int) :
    Bounded (lessThan d arg hi) := by
  intro n hn
  unfold lessThan at hn
  rw [Option.bind_eq_some_iff] at hn
  rcases hn with ⟨v, _, hn⟩
  rw [Option.map_eq_some_iff] at hn
  rcases hn with ⟨h, _, rfl⟩
  rfl

theorem wellFormed_singleton {n : Node Variable}
    (h : n.lo.isSome || n.hi.isSome) : (Element.e [n]).WellFormed := by
  refine ⟨List.pairwise_singleton _ _, ?_⟩
  intro m hm
  rw [List.mem_singleton.mp hm]
  exact h

omit [LinearOrder Variable] [IsStrictOrderedRing K] in
theorem mem_denote_singleton {n : Node Variable} {σ : Variable -> Value K} :
    (fun v => (σ v).num) ∈ (Element.e [n]).denote <-> Within (n.lo, n.hi) (σ n.v).num := by
  constructor
  · intro h
    exact h n List.mem_cons_self
  · intro h m hm
    rw [List.mem_singleton.mp hm]
    exact h

theorem mem_denote_meetParts (hstate : (Element.e state).WellFormed)
    {p q : Option (Node Variable)} (hp : Bounded p) (hq : Bounded q)
    {σ : Variable -> Value K} :
    (fun v => (σ v).num) ∈ (match meetParts p q with
      | none => Element.e state
      | some c => meet (.e state) c).denote <->
      (fun v => (σ v).num) ∈ (Element.e state).denote ∧ Admits p σ ∧ Admits q σ := by
  have hnone : Admits none σ := fun n hn => by cases hn
  have hsome : forall n : Node Variable, Admits (some n) σ <->
      (fun v => (σ v).num) ∈ (Element.e [n]).denote := by
    intro n
    rw [mem_denote_singleton]
    constructor
    · exact fun h => h n rfl
    · intro h m hm
      cases hm
      exact h
  cases p with
  | none =>
    cases q with
    | none => exact ⟨fun h => ⟨h, hnone, hnone⟩, fun h => h.1⟩
    | some m =>
      rw [hsome]
      change _ ∈ (meet (.e state) (.e [m])).denote <-> _
      rw [denote_meet hstate (wellFormed_singleton (hq m rfl)), Set.mem_inter_iff]
      exact ⟨fun h => ⟨h.1, hnone, h.2⟩, fun h => ⟨h.1, h.2.2⟩⟩
  | some n =>
    have hn := wellFormed_singleton (hp n rfl)
    cases q with
    | none =>
      rw [hsome]
      change _ ∈ (meet (.e state) (.e [n])).denote <-> _
      rw [denote_meet hstate hn, Set.mem_inter_iff]
      exact ⟨fun h => ⟨h.1, h.2, hnone⟩, fun h => ⟨h.1, h.2.1⟩⟩
    | some m =>
      have hm := wellFormed_singleton (hq m rfl)
      rw [hsome, hsome]
      change _ ∈ (meet (.e state) (meet (.e [n]) (.e [m]))).denote <-> _
      rw [denote_meet hstate (wellFormed_meet hn hm), denote_meet hn hm]
      rfl

end AbstractInterpretation
end Boogie
