import Boogie.Houdini.C5Domain
import Boogie.Houdini.Checker

/-!
# Formulas with existential functions

In a passive implementation every call of an existential function is replaced
by a Boolean function of its own.  A query defines these functions by the
current models of the existential functions.
-/

namespace Boogie

namespace MLHoudini

/-!
# Generated formulas
-/

structure IceOptions where
  clo : CommandLineOptions
  useLabels : Bool
  dagIterative : clo.vcVariety = .dagIterative
  noInlining : clo.stratifiedInlining = 0

namespace IceOptions

def controlFlowVariableExpr (o : IceOptions) : Option VCExpr :=
  if o.useLabels then none else some (.intLit 0)

theorem pReady (o : IceOptions) :
    (Wlp.Mode.mk o.controlFlowVariableExpr true).PReady o.clo where
  notDoomed := by
    rw [o.dagIterative]
    decide
  controlFlow := by
    intro e he
    unfold controlFlowVariableExpr at he
    split at he
    · cases he
    · cases he
      rfl
  labels := rfl
  noInlining := o.noInlining

end IceOptions

/--
A call of an existential function and the Boolean function `controlVar` that
replaces it, with the bound variables of the call as parameters.  The arguments
of the call come with their types.
-/
structure FunctionUse where
  function : String
  controlVar : String
  inParams : List Variable
  exprVars : List (Ty × Expr)
deriving DecidableEq, Repr

def FunctionUse.args (tup : FunctionUse) : List Expr :=
  tup.exprVars.map Prod.snd

open VCExpressionGenerator

def generateVC (o : IceOptions) (P : PassiveProgram)
    (constantsAssumed : List String) : Option VCExpr :=
  match VCGen.pLetVCIterative o.clo P.blocks (some constantsAssumed)
      o.controlFlowVariableExpr (some (fun _ => none)) true with
  | some (vcexpr, _) =>
    if o.useLabels then some vcexpr
    else some (implies (entryCondition P) vcexpr)
  | none => none

def constantsAssumed (functionsUsed : List FunctionUse)
    (functionsAssumed : List String) : List String :=
  (functionsUsed.filter (fun tup => functionsAssumed.contains tup.function)).map
    FunctionUse.controlVar

structure GeneratedVC (o : IceOptions) (p : Program) where
  passive : PassiveProgram
  functionsUsed : List FunctionUse
  functionsAssumed : List String
  functionsAsserted : List String
  vcexpr : VCExpr
  generated : generateVC o passive
    (constantsAssumed functionsUsed functionsAssumed) = some vcexpr
  found : forall tup, tup ∈ functionsUsed ->
    tup.function ∈ functionsAssumed ∨ tup.function ∈ functionsAsserted
  distinct : (functionsUsed.map FunctionUse.controlVar).Nodup
  fresh : forall tup, tup ∈ functionsUsed -> forall use, use ∈ functionsUsed ->
    forall a, a ∈ use.args -> tup.controlVar ∉ collectFunctions a
  freshAxioms : forall tup, tup ∈ functionsUsed ->
    forall e, e ∈ p.axioms -> tup.controlVar ∉ collectFunctions e

/-!
# Queries
-/

def binaryTreeAnd (terms : List Expr) : Expr :=
  match terms with
  | [] => .trueExpr
  | [e] => e
  | [e1, e2] => .and e1 e2
  | e1 :: e2 :: e3 :: es =>
    let mid := (es.length + 2) / 2
    .and (binaryTreeAnd ((e1 :: e2 :: e3 :: es).take (mid + 1)))
      (binaryTreeAnd ((e1 :: e2 :: e3 :: es).drop (mid + 1)))
termination_by terms.length
decreasing_by
  all_goals
    simp only [List.length_take, List.length_drop, List.length_cons]
    omega

def definition (function2Value : String -> C5Domain) (tup : FunctionUse) :
    Option Expr :=
  match (function2Value tup.function).gamma tup.args with
  | some value =>
    let term := Expr.eq
      (.nary (.functionCall tup.controlVar) (tup.inParams.map .ident)) value
    some (if tup.inParams = [] then term
      else .quantifier .all tup.inParams term)
  | none => none

def envVC (function2Value : String -> C5Domain) (tups : List FunctionUse) :
    Option VCExpr := do
  let terms <- tups.mapM (definition function2Value)
  translate (binaryTreeAnd terms)

def boundTerms (bound : Int) (tup : FunctionUse) : List Expr :=
  (tup.exprVars.filter (fun v => v.1 = .int)).flatMap (fun v =>
    [.le v.2 (.intLiteral bound), .ge v.2 (.intLiteral (-1 * bound))])

def boundcexVC (bound : Int) (tups : List FunctionUse) : Option VCExpr :=
  translate (binaryTreeAnd (tups.flatMap (boundTerms bound)))

namespace GeneratedVC

variable {o : IceOptions} {p : Program}

/-- The formula of an implementation under models of the functions. -/
def vc (G : GeneratedVC o p) (function2Value : String -> C5Domain) :
    Option VCExpr :=
  match envVC function2Value G.functionsUsed with
  | some env => some (implies env G.vcexpr)
  | none => none

def finalVC (G : GeneratedVC o p) (function2Value : String -> C5Domain)
    (bound : Int) : Option VCExpr :=
  match boundcexVC bound G.functionsUsed, G.vc function2Value with
  | some boundcex, some vc => some (implies boundcex vc)
  | _, _ => none

end GeneratedVC

end MLHoudini

end Boogie
