import Boogie.Houdini.PassifiedImpl

/-!
# Houdini sessions

A session holds the formula of one implementation.  A query puts the current
values of the constants in front of the formula.
-/

namespace Boogie

/-!
# Queries

The formulas are those of `VCVariety.DagIterative`.  Without labels a query
starts the control flow at the first block.
-/

structure HoudiniOptions where
  clo : CommandLineOptions
  useLabels : Bool
  useUnsatCoreForContractInfer : Bool
  houdiniUseCrossDependencies : Bool
  dagIterative : clo.vcVariety = .dagIterative

namespace HoudiniOptions

def controlFlowVariableExpr (o : HoudiniOptions) : Option VCExpr :=
  if o.useLabels then none else some (.intLit 0)

theorem ready (o : HoudiniOptions) :
    (Wlp.Mode.mk o.controlFlowVariableExpr true).Ready o.clo where
  notDoomed := by
    rw [o.dagIterative]
    decide
  controlFlow := by
    intro e he
    unfold controlFlowVariableExpr at he
    split at he
    · cases he
    · cases he
      rfl
  labels := Or.inl rfl

end HoudiniOptions

open VCExpressionGenerator

def entryCondition (P : PassiveProgram) : VCExpr :=
  eq (controlFlowFunctionApplication (.intLit 0) (.intLit 0))
    (.intLit P.start.uniqueId)

def generateConjecture (o : HoudiniOptions) (P : PassiveProgram) :
    Option VCExpr :=
  match VCGen.letVCIterative o.clo P.blocks o.controlFlowVariableExpr
      (some (fun _ => none)) true with
  | some (conjecture, _) =>
    if o.useLabels then some conjecture
    else some (implies (entryCondition P) conjecture)
  | none => none

structure HoudiniSession (o : HoudiniOptions) (p : Program)
    (impl : Implementation) where
  passified : PassifiedImpl p impl
  conjecture : VCExpr
  generated : generateConjecture o passified.passive = some conjecture

def HoudiniSession.create {p : Program} {impl : Implementation}
    (o : HoudiniOptions) (P : PassifiedImpl p impl) :
    Option (HoudiniSession o p impl) :=
  match h : generateConjecture o P.passive with
  | some conjecture => some ⟨P, conjecture, h⟩
  | none => none

def addConstant (assignment : Variable -> Option Bool) (expr : VCExpr)
    (c : Constant) : VCExpr :=
  match assignment c.variable with
  | some true => VCExpressionGenerator.and expr (.var (.ofVariable c.variable))
  | some false => VCExpressionGenerator.and expr
      (VCExpressionGenerator.not (.var (.ofVariable c.variable)))
  | none => expr

def buildAxiom (p : Program) (assignment : Variable -> Option Bool) : VCExpr :=
  p.constants.foldl (addConstant assignment) VCExpressionGenerator.True

def HoudiniSession.vc {o : HoudiniOptions} {p : Program}
    {impl : Implementation} (s : HoudiniSession o p impl)
    (assignment : Variable -> Option Bool) : VCExpr :=
  implies (buildAxiom p assignment) s.conjecture

def Program.Valid (p : Program) (vc : VCExpr) : Prop :=
  forall (U : Type) [DecidableEq U] (M : VCInterp U) (η : VCEnv U),
    p.AxiomsHold M.toInterp η.state -> vc.Holds M η

section Queries

variable {o : HoudiniOptions} {p : Program} {impl : Implementation}

theorem holds_entryCondition {P : PassiveProgram} {U : Type} [DecidableEq U]
    {C : Context U} {cf : Int -> Int -> Int} {η : VCEnv U} :
    (entryCondition P).Holds (Wlp.vcInterp C cf) η <-> cf 0 0 = P.start.uniqueId := by
  simp [entryCondition, controlFlowFunctionApplication, VCInterp.apply,
    Wlp.vcInterp]

theorem generateConjecture_spec (o : HoudiniOptions) (P : PassiveProgram) :
    exists conjecture, generateConjecture o P = some conjecture ∧
      forall {U : Type} [DecidableEq U] (C : Context U) (η : VCEnv U),
        (forall cf, conjecture.Holds (Wlp.vcInterp C cf) η) <->
          Safe C P.blocks P.start.uniqueId η.state := by
  rcases VCGen.letVCIterative_holds_iff o.clo P o.controlFlowVariableExpr
    (some (fun _ => none)) true o.ready with ⟨vc, labels, n, hvc, hmeaning⟩
  unfold generateConjecture
  rw [hvc]
  cases hlabels : o.useLabels with
  | true => exact ⟨vc, rfl, fun C η => (hmeaning C η).1⟩
  | false =>
    refine ⟨_, rfl, ?_⟩
    intro U _ C η
    rw [← (hmeaning C η).2 P.start.uniqueId]
    simp only [holds_implies, holds_entryCondition]

theorem HoudiniSession.create_isSome (P : PassifiedImpl p impl) :
    exists s, HoudiniSession.create o P = some s ∧ s.passified = P := by
  rcases generateConjecture_spec o P.passive with ⟨conjecture, h, _⟩
  refine ⟨⟨P, conjecture, h⟩, ?_, rfl⟩
  unfold create
  split
  · rename_i vc hvc
    rw [h] at hvc
    cases hvc
    rfl
  · rename_i hnone
    rw [h] at hnone
    cases hnone

section Axiom

variable {U : Type} [DecidableEq U] {M : VCInterp U} {η : VCEnv U}
  {assignment : Variable -> Option Bool}

theorem holds_addConstant {expr : VCExpr} {c : Constant} :
    (addConstant assignment expr c).Holds M η <->
      expr.Holds M η ∧ forall b, assignment c.variable = some b ->
        (η.state c.variable).truth = b := by
  have hvar : (VCExpr.var (.ofVariable c.variable)).Holds M η <->
      (η.state c.variable).truth = true := by
    simp [VCExpr.Holds, VCEnv.state]
  unfold addConstant
  cases assignment c.variable with
  | none => simp
  | some b => cases b <;> simp [hvar]

theorem holds_buildAxiom :
    (buildAxiom p assignment).Holds M η <-> p.Agrees assignment η.state := by
  have hfold : forall (constants : List Constant) (expr : VCExpr),
      (constants.foldl (addConstant assignment) expr).Holds M η <->
        expr.Holds M η ∧ forall c, c ∈ constants.map Constant.variable ->
          forall b, assignment c = some b -> (η.state c).truth = b := by
    intro constants
    induction constants with
    | nil => simp
    | cons c constants ih =>
      intro expr
      rw [List.foldl_cons, ih, holds_addConstant]
      simp only [List.map_cons, List.mem_cons, forall_eq_or_imp, and_assoc]
  unfold buildAxiom Program.Agrees
  rw [hfold]
  simp

end Axiom

theorem HoudiniSession.vc_valid_iff (s : HoudiniSession o p impl)
    {assignment : Variable -> Option Bool} :
    p.Valid (s.vc assignment) <-> p.Verified s.passified.passive assignment := by
  rcases generateConjecture_spec o s.passified.passive with
    ⟨conjecture, hconjecture, hmeaning⟩
  rw [s.generated] at hconjecture
  cases hconjecture
  constructor
  · intro hvalid U _ C ρ haxioms hagrees
    let η : VCEnv U := VCEnv.withState (fun _ => .bool false) ρ
    have hsafe := hmeaning C η
    apply hsafe.mp
    intro cf
    have hvc := hvalid U (Wlp.vcInterp C cf) η haxioms
    exact (holds_implies.mp hvc) (holds_buildAxiom.mpr hagrees)
  · intro hverified U _ M η haxioms
    let C := Context.withoutCalls M.toInterp η.state
    apply holds_implies.mpr
    intro hagrees
    have hsafe := hverified U C η.state haxioms (holds_buildAxiom.mp hagrees)
    exact (hmeaning C η).mpr hsafe M.controlFlow

end Queries

end Boogie
