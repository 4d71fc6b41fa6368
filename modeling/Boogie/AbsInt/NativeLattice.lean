import Boogie.Core.Cmd
import Boogie.Foundation.Worklist

/-!
# The engine of the abstract interpretation

The analysis propagates the elements of a lattice through the blocks of an
implementation.  A queue holds the elements that still have to reach a block, and
blocks that are marked widen instead of join once they have been visited often
enough.  What is found is inserted into the blocks.
-/

namespace Boogie

structure NativeLattice (Element : Type) where
  top : Element
  bottom : Element
  below : Element -> Element -> Bool
  join : Element -> Element -> Element
  widen : Element -> Element -> Element
  constrain : Element -> Expr -> Element
  /-- Of a simple, possibly parallel assignment. -/
  update : Element -> List (Variable × Expr) -> Element
  eliminate : Element -> Variable -> Element
  toExpr : Element -> Expr

def AssignLhs.asSimpleAssignment : AssignLhs -> Expr -> Variable × Expr
  | simpleAssignLhs x, rhs => (x, rhs)
  | mapAssignLhs map indexes, rhs =>
    map.asSimpleAssignment (.nary .mapStore (map.asExpr :: (indexes ++ [rhs])))

namespace NativeAbstractInterpretation

/-!
# Implementations
-/

inductive Cmd where
  | assignCmd (lhss : List AssignLhs) (rhss : List Expr)
  | havocCmd (vars : List Variable)
  | assertCmd (expr : Expr)
  | assumeCmd (expr : Expr)
  | stateCmd (locals : List Variable) (cmds : List Cmd)
  | sugaredCmd (desugaring : Cmd)
  | commentCmd (comment : String)

variable {B : Type}

/-- `labelTargets` is empty for a block that does not end in a goto. -/
structure Block (B : Type) where
  cmds : List Cmd
  labelTargets : List B
  widenBlock : Bool

/-- The type `B` has the blocks, of which the analysis starts with the first. -/
structure Implementation (B : Type) where
  blocks : B -> Block B
  start : B

def Implementation.CyclesWiden (impl : Implementation B) : Prop :=
  forall b, ¬ Relation.TransGen (fun source target =>
    target ∈ (impl.blocks source).labelTargets ∧
      ¬ (impl.blocks source).widenBlock = true) b b

inductive InstrumentationPlaces where
  | loopHeaders
  | everywhere
deriving DecidableEq

structure Options where
  instrumentInfer : InstrumentationPlaces
  stepsBeforeWidening : Nat
  instrumentWithAsserts : Bool

/-!
# The abstract transition relation
-/

mutual

def conjuncts : Expr -> List Expr
  | .nary (.binary .and) args => conjunctsOf args
  | expr => [expr]

def conjunctsOf : List Expr -> List Expr
  | [] => []
  | ee :: args => conjuncts ee ++ conjunctsOf args

end

def asSimpleAssignCmd (lhss : List AssignLhs) (rhss : List Expr) :
    List (Variable × Expr) :=
  List.zipWith AssignLhs.asSimpleAssignment lhss rhss

variable {Element : Type} (lattice : NativeLattice Element)

mutual

def step : Cmd -> Element -> Element
  | .assignCmd lhss rhss, elmt => lattice.update elmt (asSimpleAssignCmd lhss rhss)
  | .havocCmd vars, elmt => vars.foldl lattice.eliminate elmt
  | .assertCmd expr, elmt => (conjuncts expr).foldl lattice.constrain elmt
  | .assumeCmd expr, elmt => (conjuncts expr).foldl lattice.constrain elmt
  | .stateCmd locals cmds, elmt => locals.foldl lattice.eliminate (steps cmds elmt)
  | .sugaredCmd desugaring, elmt => step desugaring elmt
  | .commentCmd _, elmt => elmt

def steps : List Cmd -> Element -> Element
  | [], elmt => elmt
  | cmd :: cmds, elmt => steps cmds (step cmd elmt)

end

/-!
# The fixpoint
-/

/-- An entry is `none` where the source has null. -/
structure AnalysisState (B Element : Type) where
  pre : B -> Option Element
  post : B -> Option Element
  iterations : B -> Nat
  workItems : List (B × Element)

section Analyze

variable [DecidableEq B] (options : Options) (impl : Implementation B)

def propagate (s : AnalysisState B Element) (b : B) (e : Element) :
    AnalysisState B Element :=
  let e := steps lattice (impl.blocks b).cmds e
  { s with
    post :=
      if options.instrumentInfer = .everywhere ∧ (s.pre b).isSome then
        Function.update s.post b (some e)
      else s.post
    workItems := s.workItems ++ (impl.blocks b).labelTargets.map (fun succ => (succ, e)) }

def visit (s : AnalysisState B Element) (b : B) (e : Element) :
    AnalysisState B Element :=
  match s.pre b with
  | none => propagate lattice options impl s b e
  | some pre =>
    if lattice.below e pre then s
    else
      let e :=
        if (impl.blocks b).widenBlock ∧
            options.stepsBeforeWidening ≤ s.iterations b then lattice.widen pre e
        else lattice.join pre e
      propagate lattice options impl
        { s with
          pre := Function.update s.pre b (some e)
          iterations := Function.update s.iterations b (s.iterations b + 1) } b e

/-- The loop, or `none` if it is not done after so many iterations. -/
def analyzeLoop : Nat -> AnalysisState B Element -> Option (AnalysisState B Element)
  | 0, _ => none
  | fuel + 1, s =>
    match s.workItems with
    | [] => some s
    | (b, e) :: rest =>
      analyzeLoop fuel (visit lattice options impl { s with workItems := rest } b e)

def initialState (start : Element) : AnalysisState B Element :=
  { pre := fun _ => some lattice.bottom
    post := fun _ => none
    iterations := fun _ => 0
    workItems := [(impl.start, start)] }

def predicateCmd (inv : Expr) : Cmd :=
  if options.instrumentWithAsserts then .assertCmd inv else .assumeCmd inv

def entryInvariant (s : AnalysisState B Element) (b : B) : Option Expr :=
  if (impl.blocks b).widenBlock ∨ options.instrumentInfer = .everywhere then
    (s.pre b).map lattice.toExpr
  else none

def exitInvariant (s : AnalysisState B Element) (b : B) : Option Expr :=
  (entryInvariant lattice options impl s b).bind
    (fun _ => (s.post b).map lattice.toExpr)

def instrument (s : AnalysisState B Element) : Implementation B :=
  { impl with
    blocks := fun b =>
      { impl.blocks b with
        cmds :=
          (entryInvariant lattice options impl s b).toList.map (predicateCmd options) ++
            (impl.blocks b).cmds ++
            (exitInvariant lattice options impl s b).toList.map
              (predicateCmd options) } }

def analyze (start : Element) (fuel : Nat) :
    Option (AnalysisState B Element × Implementation B) :=
  (analyzeLoop lattice options impl fuel (initialState lattice impl start)).map
    (fun s => (s, instrument lattice options impl s))

end Analyze

/-!
# Executions

An execution ends where an assertion is false.  The locals of a command with
state are arbitrary after it.
-/

section Executions

variable {U : Type} [DecidableEq U] (C : Context U)

def WhereHolds (ρ : Env U) (vars : List Variable) : Prop :=
  forall x, x ∈ vars -> forall e, C.whereExpr x = some e -> C.Holds ρ e

mutual

def Runs : Cmd -> Env U -> Env U -> Prop
  | .assignCmd lhss rhss, ρ, ρ' => ρ' = assigned C ρ lhss rhss ρ
  | .havocCmd vars, ρ, ρ' => ρ'.Rebinds C.interp ρ vars ∧ WhereHolds C ρ' vars
  | .assertCmd expr, ρ, ρ' => C.Holds ρ expr ∧ ρ' = ρ
  | .assumeCmd expr, ρ, ρ' => C.Holds ρ expr ∧ ρ' = ρ
  | .stateCmd locals cmds, ρ, ρ' =>
    WhereHolds C ρ locals ∧
      exists ρ₁, AllRun cmds ρ ρ₁ ∧ ρ'.Rebinds C.interp ρ₁ locals
  | .sugaredCmd desugaring, ρ, ρ' => Runs desugaring ρ ρ'
  | .commentCmd _, ρ, ρ' => ρ' = ρ

def AllRun : List Cmd -> Env U -> Env U -> Prop
  | [], ρ, ρ' => ρ' = ρ
  | cmd :: cmds, ρ, ρ' => exists ρ₁, Runs cmd ρ ρ₁ ∧ AllRun cmds ρ₁ ρ'

end

mutual

def Fails : Cmd -> Env U -> Prop
  | .assertCmd expr, ρ => ¬ C.Holds ρ expr
  | .stateCmd locals cmds, ρ => WhereHolds C ρ locals ∧ AnyFails cmds ρ
  | .sugaredCmd desugaring, ρ => Fails desugaring ρ
  | _, _ => False

def AnyFails : List Cmd -> Env U -> Prop
  | [], _ => False
  | cmd :: cmds, ρ => Fails cmd ρ ∨ exists ρ₁, Runs C cmd ρ ρ₁ ∧ AnyFails cmds ρ₁

end

/-- The states in which an execution comes to the entry of a block. -/
inductive Reaches (impl : Implementation B) (initial : Env U -> Prop) :
    B -> Env U -> Prop where
  | start {ρ : Env U} : initial ρ -> Reaches impl initial impl.start ρ
  | goto {b succ : B} {ρ ρ' : Env U} : Reaches impl initial b ρ ->
      AllRun C (impl.blocks b).cmds ρ ρ' -> succ ∈ (impl.blocks b).labelTargets ->
      Reaches impl initial succ ρ'

def Wrong (impl : Implementation B) (initial : Env U -> Prop) : Prop :=
  exists b ρ, Reaches C impl initial b ρ ∧ AnyFails C (impl.blocks b).cmds ρ

end Executions

end NativeAbstractInterpretation
end Boogie
