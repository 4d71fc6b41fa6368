import Boogie.Houdini.C5Samples
import Boogie.Houdini.GenVC
import Boogie.Houdini.Houdini

/-!
# The ICE learner's loop

`LearnInv` verifies the implementations of a worklist under the current models
of the existential functions.  A counterexample becomes a sample, the learner
finds new models, and the implementations that use a function whose model has
changed go back on the worklist.
-/

namespace Boogie

/--
The fields that are set up before the loop.  Implementations are known by their
names, which `name2Impl` requires to be different.
-/
structure MLHoudini where
  options : MLHoudini.IceOptions
  program : Program
  existentialFunctions : MLHoudini.ExistentialFunctions
  name2Impl : List String
  distinct : name2Impl.Nodup
  genVC : String -> MLHoudini.GeneratedVC options program
  impl2Priority : String -> Nat

namespace MLHoudini

def function2implAssumed (H : MLHoudini) (f : String) : List String :=
  H.name2Impl.filter (fun impl => (H.genVC impl).functionsAssumed.contains f)

def function2implAsserted (H : MLHoudini) (f : String) : List String :=
  H.name2Impl.filter (fun impl => (H.genVC impl).functionsAsserted.contains f)

/-!
# Counterexamples
-/

structure MLHoudiniCounterexampleCollector where
  realErrors : List Cex
  conjectureErrors : List Cex
  implicationErrors : List Cex

namespace MLHoudiniCounterexampleCollector

def reset : MLHoudiniCounterexampleCollector where
  realErrors := []
  conjectureErrors := []
  implicationErrors := []

/-- `none` where a value of the counterexample is no data point. -/
def onCounterexample (cex : Cex)
    (state : MLHoudiniCounterexampleCollector × SampleState) :
    Option (MLHoudiniCounterexampleCollector × SampleState) :=
  let collector := state.1
  match handleCounterExample cex state.2 with
  | some (.real, s) =>
    some ({ collector with
      realErrors := collector.realErrors ++ [cex] }, s)
  | some (.conjecture, s) =>
    some ({ collector with
      conjectureErrors := collector.conjectureErrors ++ [cex] }, s)
  | some (.implication, s) =>
    some ({ collector with
      implicationErrors := collector.implicationErrors ++ [cex] }, s)
  | none => none

end MLHoudiniCounterexampleCollector

open MLHoudiniCounterexampleCollector

def SampleState.clearImplications (s : SampleState) : SampleState :=
  { s with implicationCounterExamples := [] }

def collect (cexs : List Cex) (s : SampleState) :
    Option (MLHoudiniCounterexampleCollector × SampleState) :=
  cexs.foldlM (fun state cex => onCounterexample cex state)
    (reset, s.clearImplications)

/-- The implications are samples only when there are no other samples. -/
def addImplications (collector : MLHoudiniCounterexampleCollector)
    (s : SampleState) : Option SampleState :=
  if collector.conjectureErrors = [] then do
    let samples <- s.implicationCounterExamples.foldlM
      (fun samples cex => addCounterExample cex samples) s.samples
    return { s with samples := samples }
  else some s

/-!
# Learning
-/

def constructModels (fs : ExistentialFunctions) (root : C5TreeNode) :
    List ExistentialFunction -> (String -> C5Domain) ->
      Option ((String -> C5Domain) × List String)
  | [], function2Value => some (function2Value, [])
  | F :: functions, function2Value => do
      let (d, changed) <- (function2Value F.name).constructModel F.name root
        fs.attribute2Expr fs.functionID
      let (function2Value, funcsChanged) <- constructModels fs root functions
        (Function.update function2Value F.name d)
      return (function2Value,
        if changed then F.name :: funcsChanged else funcsChanged)

/-- The tree is what the learner has found, if it has not failed. -/
def learn (H : MLHoudini) (tree : Option C5TreeNode)
    (function2Value : String -> C5Domain) :
    Option ((String -> C5Domain) × List String) :=
  match tree with
  | some root =>
    constructModels H.existentialFunctions root
      H.existentialFunctions.functions function2Value
  | none => some (function2Value, [])

/-- The implementations to verify again, including the current one. -/
def deps (H : MLHoudini) (impl : String) (funcsChanged : List String) :
    List String :=
  impl :: funcsChanged.flatMap (fun f =>
    H.function2implAssumed f ++ H.function2implAsserted f)

/-!
# States
-/

/-- `bounds impl i` is round `i` of the queries about an implementation. -/
inductive LearnControl where
  | worklist
  | bounds (impl : String) (i : Nat)
  | returned (outcome : ConditionGeneration.Outcome) (errors : List Cex)

structure LearnState where
  control : LearnControl
  worklist : List String
  function2Value : String -> C5Domain
  samples : SampleState

namespace LearnState

def goto (s : LearnState) (control : LearnControl) : LearnState :=
  { s with control := control }

def dequeue (s : LearnState) (impl : String) : LearnState :=
  { s with worklist := s.worklist.filter (fun other => other ≠ impl) }

def enqueue (s : LearnState) (impls : List String) : LearnState :=
  { s with worklist := impls ∪ s.worklist }

def setModels (s : LearnState) (function2Value : String -> C5Domain) :
    LearnState :=
  { s with function2Value := function2Value }

def setSamples (s : LearnState) (samples : SampleState) : LearnState :=
  { s with samples := samples }

def returnOutcome (s : LearnState) (outcome : ProverInterface.Outcome)
    (errors : List Cex) : LearnState :=
  s.goto (.returned
    (proverInterfaceOutcomeToConditionGenerationOutcome outcome) errors)

end LearnState

def initialModels (H : MLHoudini) (f : String) : C5Domain :=
  match H.existentialFunctions.functions.find? (fun F => F.name = f) with
  | some F => C5Domain.new F.inParams
  | none => C5Domain.new []

def initial (H : MLHoudini) : LearnState where
  control := .worklist
  worklist := H.name2Impl
  function2Value := H.initialModels
  samples := ⟨C5Samples.empty, []⟩

/-!
# Rounds
-/

def bounds4cex : List Int :=
  [2, 5, 10]

/--
The bound of a round.  The last round is meant to have no bound, but its bound
is a large number.
-/
def bound (i : Nat) : Int :=
  bounds4cex.getD i 1000000

def IsFirst (H : MLHoudini) (impl : String) (worklist : List String) : Prop :=
  impl ∈ worklist ∧ forall other, other ∈ worklist ->
    H.impl2Priority impl ≤ H.impl2Priority other

def nextRound (impl : String) (i : Nat) (s : LearnState) : LearnState :=
  if i < bounds4cex.length then s.goto (.bounds impl (i + 1))
  else s.goto .worklist

def useCounterexamples (H : MLHoudini) (impl : String)
    (collector : MLHoudiniCounterexampleCollector) (tree : Option C5TreeNode)
    (s : LearnState) : Option LearnState :=
  if collector.realErrors ≠ [] then
    some (s.returnOutcome .invalid collector.realErrors)
  else do
    let samples <- addImplications collector s.samples
    let (function2Value, funcsChanged) <- H.learn tree s.function2Value
    let s := (s.setSamples samples).setModels function2Value
    return if funcsChanged = [] then
        s.returnOutcome .invalid
          (if collector.conjectureErrors = [] then collector.implicationErrors
          else collector.conjectureErrors)
      else (s.enqueue (H.deps impl funcsChanged)).goto .worklist

/-- `none` where an exception ends the loop. -/
def useAnswer (H : MLHoudini) (impl : String) (i : Nat)
    (outcome : ProverInterface.Outcome) (cexs : List Cex)
    (tree : Option C5TreeNode) (s : LearnState) : Option LearnState := do
  let (collector, samples) <- collect cexs s.samples
  let s := s.setSamples samples
  if outcome = .timeOut ∨ outcome = .outOfMemory then
    return s.returnOutcome outcome []
  else if cexs = [] then return nextRound impl i s
  else H.useCounterexamples impl collector tree s

/-!
# Steps
-/

/-- What the prover may answer: an outcome, after some counterexamples. -/
structure Prover where
  answers : VCExpr -> ProverInterface.Outcome -> List Cex -> Prop

/-- The prover knows the axioms and says `Valid` for valid formulas only. -/
def Prover.Sound (prover : Prover) (p : Program) : Prop :=
  forall vc cexs, prover.answers vc .valid cexs -> p.Valid vc

inductive LearnEvent where
  | internal
  | answered (impl : String) (i : Nat) (outcome : ProverInterface.Outcome)
      (cexs : List Cex)

inductive Step (H : MLHoudini) (prover : Prover) :
    LearnState -> LearnEvent -> LearnState -> Prop where
  | dequeue {s : LearnState} {impl : String} :
      s.control = .worklist -> H.IsFirst impl s.worklist ->
      Step H prover s .internal ((s.dequeue impl).goto (.bounds impl 0))
  | finish {s : LearnState} :
      s.control = .worklist -> s.worklist = [] ->
      Step H prover s .internal (s.returnOutcome .valid [])
  | query {s s' : LearnState} {impl : String} {i : Nat} {finalVC : VCExpr}
      {outcome : ProverInterface.Outcome} {cexs : List Cex}
      {tree : Option C5TreeNode} :
      s.control = .bounds impl i ->
      (H.genVC impl).finalVC s.function2Value (bound i) = some finalVC ->
      prover.answers finalVC outcome cexs ->
      H.useAnswer impl i outcome cexs tree s = some s' ->
      Step H prover s (.answered impl i outcome cexs) s'

def Reaches (H : MLHoudini) (prover : Prover)
    (ok : LearnState -> LearnEvent -> Prop) :
    LearnState -> LearnState -> Prop :=
  Relation.ReflTransGen
    (fun s s' => exists event, ok s event ∧ Step H prover s event s')

end MLHoudini

end Boogie
