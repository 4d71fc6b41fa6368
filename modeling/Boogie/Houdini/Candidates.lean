import Boogie.Core.Program

/-!
# Candidate annotations

A candidate is a Boolean constant with the attribute `existential` that guards
an annotation: the annotation is an implication, or a chain of implications,
with the constant as one of the antecedents.
-/

namespace Boogie

namespace Houdini

/-!
# Candidates of an expression
-/

def matchCandidate (candidates : List String) : Expr -> Option String
  | .nary (.binary .imp) [.ident x, consequent] =>
    if x.isConstant = true ∧ x.name ∈ candidates then some x.name
    else matchCandidate candidates consequent
  | .nary (.binary .imp) [_, consequent] =>
    matchCandidate candidates consequent
  | _ => none

end Houdini

def Constant.existential (c : Constant) : Bool :=
  QKeyValue.checkBooleanAttribute c.attributes "existential" = some true

inductive Site where
  | requiresOf (proc : String)
  | ensuresOf (proc : String)
  | bodyOf (impl : Implementation)
deriving DecidableEq

namespace Program

/-- `CollectExistentialConstants`. -/
def houdiniConstants (p : Program) : List Variable :=
  (p.constants.filter Constant.existential).map Constant.variable

theorem houdiniConstants_subset {p : Program} {c : Variable} (hc : c ∈ p.houdiniConstants) :
    c ∈ p.constants.map Constant.variable := by
  rcases List.mem_map.mp hc with ⟨decl, hdecl, rfl⟩
  exact List.mem_map_of_mem (List.mem_of_mem_filter hdecl)

def matchCandidate (p : Program) (e : Expr) : Option Variable :=
  match Houdini.matchCandidate (p.houdiniConstants.map Variable.name) e with
  | some candidate => p.houdiniConstants.find? (fun v => v.name = candidate)
  | none => none

/-!
# Guarded annotations
-/

/-- In `e` the name of a candidate stands for the candidate. -/
def Resolves (p : Program) (e : Expr) : Prop :=
  forall c, c ∈ p.houdiniConstants -> forall x, e.Mentions x ->
    x.isConstant = true -> x.name = c.name -> x = c

def Guarded (p : Program) (e : Expr) : Prop :=
  forall c, c ∈ p.houdiniConstants -> e.Mentions c ->
    p.matchCandidate e = some c

section Guards

variable {p : Program} {e : Expr} {c : Variable} {name : String}
  {names : List String}

theorem mentions_of_matchCandidate (h : Houdini.matchCandidate names e = some name) :
    exists x, e.Mentions x ∧ x.isConstant = true ∧ x.name = name := by
  fun_induction Houdini.matchCandidate names e with
  | case1 x consequent hx =>
    cases h
    exact ⟨x, Expr.Mentions.nary (by simp) Expr.Mentions.ident, hx.1, rfl⟩
  | case2 x consequent hx ih =>
    rcases ih h with ⟨y, hy, hconst, hname⟩
    exact ⟨y, Expr.Mentions.nary (by simp) hy, hconst, hname⟩
  | case3 antecedent consequent hident ih =>
    rcases ih h with ⟨y, hy, hconst, hname⟩
    exact ⟨y, Expr.Mentions.nary (by simp) hy, hconst, hname⟩
  | case4 => cases h

theorem holds_of_guard_false {U : Type} [DecidableEq U] {I : Interp U}
    {ρ₀ ρ : Env U} (h : Houdini.matchCandidate names e = some name)
    (hfalse : forall x, e.Mentions x -> x.isConstant = true ->
      x.name = name -> (ρ x).truth = false) :
    e.Holds I ρ₀ ρ := by
  have himp : forall a b : Expr,
      (Expr.nary (.binary .imp) [a, b]).Holds I ρ₀ ρ <->
        ((a.eval I ρ₀ ρ).truth = true -> b.Holds I ρ₀ ρ) := by
    intro a b
    cases ha : (a.eval I ρ₀ ρ).truth <;>
      simp [Expr.Holds, Interp.apply, BinaryOperator.apply, ha]
  fun_induction Houdini.matchCandidate names e with
  | case1 x consequent hx =>
    cases h
    have hguard := hfalse x
      (Expr.Mentions.nary (by simp) Expr.Mentions.ident) hx.1 rfl
    rw [himp]
    intro htrue
    rw [Expr.eval_ident, hguard] at htrue
    cases htrue
  | case2 x consequent hx ih =>
    rw [himp]
    intro _
    exact ih h (fun y hy => hfalse y (Expr.Mentions.nary (by simp) hy))
  | case3 antecedent consequent hident ih =>
    rw [himp]
    intro _
    exact ih h (fun y hy => hfalse y (Expr.Mentions.nary (by simp) hy))
  | case4 => cases h

theorem name_of_matchCandidate (h : p.matchCandidate e = some c) :
    Houdini.matchCandidate (p.houdiniConstants.map Variable.name) e =
      some c.name ∧ c ∈ p.houdiniConstants := by
  unfold matchCandidate at h
  split at h
  · rename_i candidate hname
    have hc := List.find?_some h
    rw [hname, of_decide_eq_true hc]
    exact ⟨rfl, List.mem_of_find?_eq_some h⟩
  · cases h

theorem Resolves.mentions (hres : p.Resolves e)
    (h : p.matchCandidate e = some c) : e.Mentions c := by
  have ⟨hname, hc⟩ := name_of_matchCandidate h
  rcases mentions_of_matchCandidate hname with ⟨x, hx, hconst, hxname⟩
  rwa [← hres c hc x hx hconst hxname]

theorem Resolves.holds {U : Type} [DecidableEq U] {I : Interp U}
    {ρ₀ ρ : Env U} (hres : p.Resolves e) (h : p.matchCandidate e = some c)
    (hfalse : (ρ c).truth = false) : e.Holds I ρ₀ ρ := by
  have ⟨hname, hc⟩ := name_of_matchCandidate h
  apply holds_of_guard_false hname
  intro x hx hconst hxname
  rwa [hres c hc x hx hconst hxname]

end Guards

/-!
# Annotations of a program
-/

def Annotates (p : Program) (e : Expr) : Site -> Prop
  | .requiresOf proc => exists decl, decl ∈ p.procedures ∧ decl.name = proc ∧
      exists r, r ∈ decl.requires ∧ r.condition = e
  | .ensuresOf proc => exists decl, decl ∈ p.procedures ∧ decl.name = proc ∧
      exists r, r ∈ decl.ensures ∧ r.condition = e
  | .bodyOf impl => impl ∈ p.implementations ∧ exists b, b ∈ impl.blocks ∧
      exists cmd, cmd ∈ b.cmds ∧ cmd.predicate = some e

/--
Every candidate stands in the annotations of a single site, guards each
annotation it stands in, and stands in no axiom.
-/
structure CandidatesGuard (p : Program) : Prop where
  guarded : forall e site, p.Annotates e site -> p.Guarded e
  single : forall c, c ∈ p.houdiniConstants -> forall e e' site site',
    p.Annotates e site -> p.Annotates e' site' ->
    e.Mentions c -> e'.Mentions c -> site = site'
  resolved : forall e site, p.Annotates e site -> p.Resolves e
  axioms : forall c, c ∈ p.houdiniConstants -> forall e, e ∈ p.axioms ->
    ¬ e.Mentions c

end Program

end Boogie
