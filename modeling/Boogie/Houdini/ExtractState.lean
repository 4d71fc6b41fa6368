import Boogie.Houdini.GenVCSound
import Boogie.Houdini.MLHoudini

/-!
# Samples from executions

A counterexample to the formula of an implementation is a failing execution of
its passive program in a model.  The calls of existential functions in the
assumed commands on the way and in the failing assertion are collected with the
values of their arguments.
-/

namespace Boogie

namespace MLHoudini

/-!
# Calls in expressions
-/

/-- Whether a call depends on the existential quantifier it stands under. -/
def dependsOn (existentialExpr : Option (List Variable)) (args : List Expr) :
    Bool :=
  match existentialExpr with
  | some dummies => dummies.any (fun x => (VariableCollector.allUsedVars args).contains x)
  | none => false

mutual

def functionCollector (existentialExpr : Option (List Variable)) :
    Expr -> List (String × Bool)
  | .literal _ => []
  | .ident _ => []
  | .old e => functionCollector existentialExpr e
  | .nary (.functionCall name) args =>
    (name, dependsOn existentialExpr args) ::
      functionCollectorOfArgs existentialExpr args
  | .nary _ args => functionCollectorOfArgs existentialExpr args
  | .quantifier .ex dummies body => functionCollector (some dummies) body
  | .quantifier .all _ body => functionCollector existentialExpr body

def functionCollectorOfArgs (existentialExpr : Option (List Variable)) :
    List Expr -> List (String × Bool)
  | [] => []
  | a :: as =>
    functionCollector existentialExpr a ++
      functionCollectorOfArgs existentialExpr as

end

mutual

theorem functionCollector_fst (existentialExpr : Option (List Variable)) :
    forall e : Expr, (functionCollector existentialExpr e).map Prod.fst = collectFunctions e
  | .literal _ => rfl
  | .ident _ => rfl
  | .old e => functionCollector_fst existentialExpr e
  | .nary f args => by
    have h := functionCollectorOfArgs_fst existentialExpr args
    cases f with
    | functionCall name =>
      rw [functionCollector, collectFunctions, List.map_cons, h]
    | _ => exact h
  | .quantifier q dummies body => by
    cases q with
    | all => exact functionCollector_fst existentialExpr body
    | ex => exact functionCollector_fst (some dummies) body

theorem functionCollectorOfArgs_fst (existentialExpr : Option (List Variable)) :
    forall args : List Expr, (functionCollectorOfArgs existentialExpr args).map Prod.fst =
        collectFunctionsOfArgs args
  | [] => rfl
  | a :: as => by
    rw [functionCollectorOfArgs, collectFunctionsOfArgs, List.map_append,
      functionCollector_fst existentialExpr a,
      functionCollectorOfArgs_fst existentialExpr as]

end

/-!
# Extraction
-/

/--
What the model of a counterexample is asked for: the values of expressions, and
values for the arguments of a call under an existential quantifier, for which
another query is made.
-/
structure ErrorModel where
  getValue : Expr -> Model.Element
  boundValues : String -> Option (List Model.Element)

def constant2FuncCall (functionsUsed : List FunctionUse) (name : String) :
    Option FunctionUse :=
  functionsUsed.find? (fun tup => tup.controlVar = name)

def extractCalls (functionsUsed : List FunctionUse) (model : ErrorModel)
    (expr : Expr) : List CallState :=
  let funcsUsed := functionCollector none expr
  (funcsUsed.filter (fun t => !t.2)).filterMap (fun t =>
      (constant2FuncCall functionsUsed t.1).map (fun tup =>
        (tup.function, tup.args.map model.getValue))) ++
    (funcsUsed.filter (fun t => t.2)).filterMap (fun t =>
      (constant2FuncCall functionsUsed t.1).bind (fun tup =>
        (model.boundValues t.1).map (fun vals => (tup.function, vals))))

def extractState (functionsUsed : List FunctionUse) (model : ErrorModel)
    (assumedCmds : List AssumeCmd) (failingAssert : AssertCmd) : Cex where
  lhs := assumedCmds.flatMap (fun assumeCmd =>
    extractCalls functionsUsed model assumeCmd.expr)
  rhs := extractCalls functionsUsed model failingAssert.expr

/-!
# Failing executions
-/

def assumesOf (cs : List Cmd) : List AssumeCmd :=
  cs.filterMap (fun c =>
    match c with
    | .assumeCmd a => some a
    | _ => none)

/--
An execution from the start of a block that finds `ac` false, with the assumed
commands on its way.
-/
inductive Traces {U : Type} [DecidableEq U] (C : Context U)
    (blocks : List Block) (ac : AssertCmd) :
    Nat -> List AssumeCmd -> Env U -> Prop where
  | cmds {b : Block} {before after : List Cmd} {ρ ρ' : Env U} :
      b ∈ blocks -> b.cmds = before ++ .assertCmd ac :: after ->
      CmdsRun C before ρ ρ' -> ¬ C.Holds ρ' ac.expr ->
      Traces C blocks ac b.uniqueId (assumesOf before) ρ
  | jump {b : Block} {target : Nat} {assumedCmds : List AssumeCmd}
      {ρ₁ ρ₂ : Env U} :
      b ∈ blocks -> CmdsRun C b.cmds ρ₁ ρ₂ -> target ∈ b.labelTargets ->
      Traces C blocks ac target assumedCmds ρ₂ ->
      Traces C blocks ac b.uniqueId (assumesOf b.cmds ++ assumedCmds) ρ₁

theorem Traces.falsifies {U : Type} [DecidableEq U] {C : Context U}
    {blocks : List Block} {ac : AssertCmd} {id : Nat}
    {assumedCmds : List AssumeCmd} {ρ : Env U}
    (h : Traces C blocks ac id assumedCmds ρ) : Falsifies C blocks ac id ρ := by
  induction h with
  | cmds hb hcmds hrun hfalse => exact Falsifies.cmds hb hcmds hrun hfalse
  | jump hb hrun ht _ ih => exact Falsifies.jump hb hrun ht ih

def FunctionUse.Typed {U : Type} [DecidableEq U] (fs : ExistentialFunctions)
    (I : Interp U) (ρ₀ ρ : Env U) (tup : FunctionUse) : Prop :=
  exists F, F ∈ fs.functions ∧ F.name = tup.function ∧
    tup.args.length = F.inParams.length ∧
    forall x, x ∈ F.inParams.zip tup.args ->
      I.HasType (x.2.eval I ρ₀ ρ) x.1.type

/-- A failing execution under the models of the functions, and its model. -/
structure Counterexample (H : MLHoudini) (impl : String)
    (function2Value : String -> C5Domain) where
  U : Type
  decidable : DecidableEq U
  context : Context U
  state : Env U
  failingAssert : AssertCmd
  assumedCmds : List AssumeCmd
  model : ErrorModel
  traces : Traces context (H.genVC impl).passive.blocks failingAssert
    (H.genVC impl).passive.start.uniqueId assumedCmds state
  axiomsHold : H.program.AxiomsHold context.interp state
  defined : forall tup, tup ∈ (H.genVC impl).functionsUsed ->
    tup.Defined function2Value context.interp context.oldState state
  typed : forall tup, tup ∈ (H.genVC impl).functionsUsed ->
    tup.inParams = [] ->
    tup.Typed H.existentialFunctions context.interp context.oldState state
  values : forall tup, tup ∈ (H.genVC impl).functionsUsed ->
    tup.inParams = [] -> forall a, a ∈ tup.args ->
      (model.getValue a).value =
        some (a.eval context.interp context.oldState state)

namespace Counterexample

variable {H : MLHoudini} {impl : String} {function2Value : String -> C5Domain}

instance (error : Counterexample H impl function2Value) :
    DecidableEq error.U :=
  error.decidable

def cex (error : Counterexample H impl function2Value) : Cex :=
  extractState (H.genVC impl).functionsUsed error.model error.assumedCmds
    error.failingAssert

/-- The failing assertion is a call of an existential function or has none. -/
def Simple (error : Counterexample H impl function2Value) : Prop :=
  (exists tup, tup ∈ (H.genVC impl).functionsUsed ∧ tup.inParams = [] ∧
      error.failingAssert.expr = .nary (.functionCall tup.controlVar) []) ∨
    forall tup, tup ∈ (H.genVC impl).functionsUsed ->
      tup.controlVar ∉ collectFunctions error.failingAssert.expr

end Counterexample

/-- The calls are those of a failing execution under the models. -/
def Genuine (H : MLHoudini) (impl : String)
    (function2Value : String -> C5Domain) (cex : Cex) : Prop :=
  exists error : Counterexample H impl function2Value, error.cex = cex

def SimplyGenuine (H : MLHoudini) (impl : String)
    (function2Value : String -> C5Domain) (cex : Cex) : Prop :=
  exists error : Counterexample H impl function2Value,
    error.Simple ∧ error.cex = cex

end MLHoudini

end Boogie
