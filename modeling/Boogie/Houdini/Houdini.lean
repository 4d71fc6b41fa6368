import Boogie.Houdini.Checker

/-!
# The Houdini algorithm

Houdini looks for candidates that are correct together.  It verifies the
implementations of a worklist under the current values of the candidates,
removes the candidates of the annotations that counterexamples refute, and puts
the implementations that may have used them back on the worklist.

A state has a program counter besides the fields of `HoudiniState`, so that the
invariants can be stated between any two updates.
-/

namespace Boogie

/-!
# Outcomes
-/

inductive ProverInterface.Outcome where
  | valid
  | invalid
  | timeOut
  | outOfMemory
  | undetermined
deriving DecidableEq, Repr

inductive ConditionGeneration.Outcome where
  | correct
  | errors
  | timedOut
  | outOfMemory
  | inconclusive
  | reachedBound
deriving DecidableEq, Repr

def proverInterfaceOutcomeToConditionGenerationOutcome :
    ProverInterface.Outcome -> ConditionGeneration.Outcome
  | .invalid => .errors
  | .outOfMemory => .outOfMemory
  | .timeOut => .timedOut
  | .undetermined => .inconclusive
  | .valid => .correct

structure VCGenOutcome where
  outcome : ConditionGeneration.Outcome
  errors : List Houdini.Counterexample
deriving DecidableEq, Repr

structure Answer where
  outcome : ProverInterface.Outcome
  errors : List Houdini.Counterexample
deriving DecidableEq, Repr

/-!
# Stages

The attributes of staged inference fix the values of the constants that carry
them, whatever the assignment says.
-/

namespace Constant

def stageActive (c : Constant) : Int :=
  QKeyValue.findIntAttribute c.attributes "stage_active" (-1)

def stageComplete (c : Constant) : Int :=
  QKeyValue.findIntAttribute c.attributes "stage_complete" (-1)

def stageValue (currentStage : Int) (completedStages : List Int)
    (c : Constant) : Option Bool :=
  if c.stageComplete ≠ -1 then some (completedStages.contains c.stageComplete)
  else if c.stageActive ≠ -1 then some (c.stageActive == currentStage)
  else none

end Constant

/-!
# The inference

`crossDependencies` is the table of the class of that name: for the name of a
constant, the implementations in which it was found.
-/

structure Houdini where
  program : Program
  options : HoudiniOptions
  vcgen : (impl : Implementation) -> Option (PassifiedImpl program impl)
  crossDependencies : String -> List Implementation
  stage : Int
  completedStages : Option (List Int)

namespace Houdini

def callGraph (H : Houdini) : Graph Implementation :=
  H.program.buildCallGraph

def houdiniConstants (H : Houdini) : List Variable :=
  H.program.houdiniConstants

def houdiniSession (H : Houdini) (impl : Implementation) :
    Option (HoudiniSession H.options H.program impl) :=
  if impl ∈ H.callGraph.ns then
    match H.vcgen impl with
    | some P => HoudiniSession.create H.options P
    | none => none
  else none

def vcgenFailures (H : Houdini) : List Implementation :=
  H.callGraph.ns.filter (fun impl => (H.houdiniSession impl).isNone)

def withStages (H : Houdini) (completedStages : List Int)
    (assignment : Variable -> Bool) : Variable -> Option Bool :=
  fun v =>
    match H.program.constants.reverse.findSome? (fun c =>
      if c.variable = v then c.stageValue H.stage completedStages else none) with
    | some b => some b
    | none => if v ∈ H.houdiniConstants then some (assignment v) else none

/-- Without a set of completed stages the attribute `stage_complete` fails. -/
def getAssignmentWithStages (H : Houdini) (assignment : Variable -> Bool) :
    Option (Variable -> Option Bool) :=
  match H.completedStages with
  | some completedStages => some (H.withStages completedStages assignment)
  | none =>
    if H.program.constants.all (fun c => c.stageComplete = -1) then
      some (H.withStages [] assignment)
    else none

/-!
# Refuted annotations
-/

inductive RefutedAnnotationKind where
  | requires
  | ensures
  | assert
deriving DecidableEq, Repr

structure RefutedAnnotation where
  constant : Variable
  kind : RefutedAnnotationKind
  calleeProc : Option String
  refutationSite : Implementation
deriving DecidableEq, Repr

def extractRefutedAnnotation (p : Program) (impl : Implementation) :
    Counterexample -> Option RefutedAnnotation
  | .callCounterexample failingCall failingRequires =>
    (p.matchCandidate failingRequires).map
      (fun c => ⟨c, .requires, some failingCall, impl⟩)
  | .returnCounterexample failingEnsures =>
    (p.matchCandidate failingEnsures).map (fun c => ⟨c, .ensures, none, impl⟩)
  | .assertCounterexample failingAssert =>
    match failingAssert.origExpr with
    | some e => (p.matchCandidate e).map (fun c => ⟨c, .assert, none, impl⟩)
    | none => none

def nonCandidateErrors (p : Program) (impl : Implementation) (answer : Answer) :
    List Counterexample :=
  match answer.outcome with
  | .invalid => answer.errors.filter
      (fun error => ( extractRefutedAnnotation p impl error).isNone)
  | _ => []

/-!
# States
-/

/-- A queue without repetitions; the set of the source has its elements. -/
structure WorkQueue where
  queue : List Implementation
  nodup : queue.Nodup

namespace WorkQueue

def enqueue (w : WorkQueue) (impl : Implementation) : WorkQueue where
  queue := hashSetAdd w.queue impl
  nodup := hashSetAdd_nodup w.nodup

def dequeue (w : WorkQueue) : WorkQueue where
  queue := w.queue.tail
  nodup := w.nodup.tail

end WorkQueue

inductive Control where
  | outerLoop
  | verifyCurrent (impl : Implementation)
  | refuting (impl : Implementation) (errors : List Counterexample)
      (dequeue : Bool)
  | updatingAssignment (impl : Implementation) (refuted : RefutedAnnotation)
      (errors : List Counterexample)
  | updatingUnsatCore (impl : Implementation)
  | flushWorkList
  | returned
  | nullReference
deriving DecidableEq

def Control.current : Control -> Option Implementation
  | verifyCurrent impl => some impl
  | refuting impl _ _ => some impl
  | updatingAssignment impl _ _ => some impl
  | updatingUnsatCore impl => some impl
  | _ => none

structure HoudiniState where
  workQueue : WorkQueue
  blackList : List String
  assignment : Variable -> Bool
  implementationOutcomes : String -> Option VCGenOutcome
  unsatCoreSet : Implementation -> Option (List Variable)
  control : Control

namespace HoudiniState

def goto (s : HoudiniState) (control : Control) : HoudiniState :=
  { s with control := control }

def enqueue (s : HoudiniState) (impl : Implementation) : HoudiniState :=
  { s with workQueue := s.workQueue.enqueue impl }

def dequeue (s : HoudiniState) : HoudiniState :=
  { s with workQueue := s.workQueue.dequeue }

def falsify (s : HoudiniState) (v : Variable) : HoudiniState :=
  { s with assignment := Function.update s.assignment v false }

def addToBlackList (s : HoudiniState) (name : String) : HoudiniState :=
  { s with blackList := hashSetAdd s.blackList name }

def recordOutcome (s : HoudiniState) (name : String) (o : VCGenOutcome) :
    HoudiniState :=
  { s with
    implementationOutcomes :=
      Function.update s.implementationOutcomes name (some o) }

def setUnsatCore (s : HoudiniState) (impl : Implementation)
    (core : List Variable) : HoudiniState :=
  { s with unsatCoreSet := Function.update s.unsatCoreSet impl (some core) }

def inUnsatCore (s : HoudiniState) (impl : Implementation) (v : Variable) :
    Bool :=
  match s.unsatCoreSet impl with
  | none => true
  | some core => core.contains v

end HoudiniState

/-!
# Updates
-/

def updateHoudiniOutcome (p : Program) (impl : Implementation)
    (answer : Answer) (s : HoudiniState) : HoudiniState :=
  s.recordOutcome impl.name
    { outcome := proverInterfaceOutcomeToConditionGenerationOutcome answer.outcome
      errors := nonCandidateErrors p impl answer }

/-- `UpdateUnsatCore`, where a failing query leaves an empty core. -/
def updateUnsatCore (impl : Implementation) (outcome : ProverInterface.Outcome)
    (core : List Variable) (s : HoudiniState) : HoudiniState :=
  s.setUnsatCore impl (if outcome = .valid then core else [])

/--
The implementations of a list that pass a test and have the constant in their
unsat core.  The lookup of a core needs a session.
-/
def inCore (H : Houdini) (s : HoudiniState) (v : Variable)
    (test : Implementation -> Bool) :
    List Implementation -> Option (List Implementation)
  | [] => some []
  | impl :: impls =>
    if test impl then
      match H.houdiniSession impl, inCore H s v test impls with
      | some _, some found =>
        some (if s.inUnsatCore impl v then impl :: found else found)
      | _, _ => none
    else inCore H s v test impls

def findImplementationsToEnqueue (H : Houdini) (s : HoudiniState)
    (r : RefutedAnnotation) : Option (List Implementation) :=
  match r.kind with
  | .requires => inCore H s r.constant
      (fun callee => some callee.name = r.calleeProc)
      (H.callGraph.successors r.refutationSite)
  | .ensures => inCore H s r.constant (fun _ => true)
      (H.callGraph.predecessors r.refutationSite)
  | .assert =>
    if H.options.houdiniUseCrossDependencies then
      inCore H s r.constant (fun _ => true)
        (H.crossDependencies r.constant.name)
    else some []

def enqueueUnlessBlackListed (s : HoudiniState) (impl : Implementation) :
    HoudiniState :=
  if impl.name ∈ s.blackList then s else s.enqueue impl

def addRelatedToWorkList (H : Houdini) (r : RefutedAnnotation)
    (s : HoudiniState) : Option HoudiniState :=
  match findImplementationsToEnqueue H s r with
  | some impls => some (impls.foldl enqueueUnlessBlackListed s)
  | none => none

def giveUp (assertConstants : List Variable) (impl : Implementation)
    (s : HoudiniState) : HoudiniState :=
  (assertConstants.foldl HoudiniState.falsify s).addToBlackList impl.name

def useAnswer (H : Houdini) {impl : Implementation}
    (session : HoudiniSession H.options H.program impl) (answer : Answer)
    (s : HoudiniState) : HoudiniState :=
  let s' := updateHoudiniOutcome H.program impl answer s
  if nonCandidateErrors H.program impl answer ≠ [] then
    s'.dequeue.goto .flushWorkList
  else
    match answer.outcome with
    | .valid =>
      if H.options.useUnsatCoreForContractInfer then
        s'.goto (.updatingUnsatCore impl)
      else s'.dequeue.goto .outerLoop
    | .invalid => s'.goto (.refuting impl answer.errors true)
    | _ =>
      (giveUp session.passified.houdiniAssertConstants impl
        s').dequeue.goto .outerLoop

def refuteNext (H : Houdini) (impl : Implementation) (error : Counterexample)
    (errors : List Counterexample) (dequeue : Bool) (s : HoudiniState) :
    HoudiniState :=
  match extractRefutedAnnotation H.program impl error with
  | none => s.goto (.refuting impl errors dequeue)
  | some r =>
    match addRelatedToWorkList H r s with
    | some s' => s'.goto (.updatingAssignment impl r errors)
    | none => s.goto .nullReference

/-!
# The prover

A prover gives each query one of several possible answers.  The query for an
unsat core is about the formula of a session, the candidates that are false
and, as assumptions to choose from, those that are true.
-/

structure Prover (H : Houdini) where
  answers : forall {impl : Implementation},
    HoudiniSession H.options H.program impl -> (Variable -> Option Bool) ->
    Answer -> Prop
  cores : forall {impl : Implementation},
    HoudiniSession H.options H.program impl -> (Variable -> Bool) ->
    ProverInterface.Outcome -> List Variable -> Prop

def coreAssignment (H : Houdini) (assignment : Variable -> Bool)
    (core : List Variable) : Variable -> Option Bool :=
  fun v =>
    if v ∈ H.houdiniConstants then
      if assignment v = true then if v ∈ core then some true else none
      else some false
    else none

/-- The answers `Valid` and `Invalid` are right. -/
structure Prover.Sound {H : Houdini} (prover : Prover H) : Prop where
  valid : forall {impl : Implementation}
    (session : HoudiniSession H.options H.program impl) assignment answer,
    prover.answers session assignment answer -> answer.outcome = .valid ->
      H.program.Valid (session.vc assignment)
  invalid : forall {impl : Implementation}
    (session : HoudiniSession H.options H.program impl) assignment answer,
    prover.answers session assignment answer -> answer.outcome = .invalid ->
      answer.errors ≠ [] ∧ forall error, error ∈ answer.errors ->
        exists ac, .assertCmd ac ∈ session.passified.passive.cmds ∧
          error = assertCmdToCounterexample ac ∧
          H.program.Refutes session.passified.passive assignment ac
  core : forall {impl : Implementation}
    (session : HoudiniSession H.options H.program impl) assignment core,
    prover.cores session assignment .valid core ->
      H.program.Valid (session.vc (H.coreAssignment assignment core))
  noCore : forall {impl : Implementation}
    (session : HoudiniSession H.options H.program impl) assignment core,
    prover.cores session assignment .invalid core ->
      ¬ H.program.Valid
        (session.vc (H.coreAssignment assignment H.houdiniConstants))

/-- Every answer is `Valid` or `Invalid`. -/
structure Prover.Decides {H : Houdini} (prover : Prover H) : Prop where
  answer : forall {impl : Implementation}
    (session : HoudiniSession H.options H.program impl) assignment answer,
    prover.answers session assignment answer ->
      answer.outcome = .valid ∨ answer.outcome = .invalid
  core : forall {impl : Implementation}
    (session : HoudiniSession H.options H.program impl) assignment outcome core,
    prover.cores session assignment outcome core ->
      outcome = .valid ∨ outcome = .invalid

structure Prover.Answers {H : Houdini} (prover : Prover H) : Prop where
  answer : forall {impl : Implementation}
    (session : HoudiniSession H.options H.program impl) assignment,
    exists answer, prover.answers session assignment answer
  core : forall {impl : Implementation}
    (session : HoudiniSession H.options H.program impl) assignment,
    exists outcome core, prover.cores session assignment outcome core

/-- The prover that gives every right answer and may be allowed to give up. -/
def rightAnswers (H : Houdini) (mayGiveUp : Prop) : Prover H where
  answers := fun session assignment answer =>
    match answer.outcome with
    | .valid => H.program.Valid (session.vc assignment)
    | .invalid => answer.errors ≠ [] ∧ forall error, error ∈ answer.errors ->
        exists ac, .assertCmd ac ∈ session.passified.passive.cmds ∧
          error = assertCmdToCounterexample ac ∧
          H.program.Refutes session.passified.passive assignment ac
    | _ => mayGiveUp
  cores := fun session assignment outcome core =>
    match outcome with
    | .valid => H.program.Valid (session.vc (H.coreAssignment assignment core))
    | .invalid => ¬ H.program.Valid
        (session.vc (H.coreAssignment assignment H.houdiniConstants))
    | _ => mayGiveUp

theorem rightAnswers_sound (H : Houdini) (mayGiveUp : Prop) :
    (H.rightAnswers mayGiveUp).Sound where
  valid := by
    intro impl session assignment answer hanswer houtcome
    simpa [rightAnswers, houtcome] using hanswer
  invalid := by
    intro impl session assignment answer hanswer houtcome
    simpa only [rightAnswers, houtcome] using hanswer
  core := fun _ _ _ hcore => hcore
  noCore := fun _ _ _ hcore => hcore

theorem rightAnswers_decides (H : Houdini) :
    (H.rightAnswers False).Decides where
  answer := by
    intro impl session assignment answer hanswer
    cases houtcome : answer.outcome with
    | valid => exact Or.inl rfl
    | invalid => exact Or.inr rfl
    | _ => simp [rightAnswers, houtcome] at hanswer
  core := by
    intro impl session assignment outcome core hcore
    cases outcome with
    | valid => exact Or.inl rfl
    | invalid => exact Or.inr rfl
    | _ => exact hcore.elim

theorem rightAnswers_answers (H : Houdini) (mayGiveUp : Prop) :
    (H.rightAnswers mayGiveUp).Answers where
  answer := by
    intro impl session assignment
    by_cases hvalid : H.program.Valid (session.vc assignment)
    · exact ⟨⟨.valid, []⟩, hvalid⟩
    · rw [session.vc_valid_iff] at hvalid
      rcases Program.not_verified_iff.mp hvalid with ⟨ac, hac, hrefutes⟩
      refine ⟨⟨.invalid, [assertCmdToCounterexample ac]⟩, by simp, ?_⟩
      intro error herror
      exact ⟨ac, hac, List.mem_singleton.mp herror, hrefutes⟩
  core := by
    intro impl session assignment
    by_cases hvalid : H.program.Valid
        (session.vc (H.coreAssignment assignment H.houdiniConstants))
    · exact ⟨.valid, H.houdiniConstants, hvalid⟩
    · exact ⟨.invalid, [], hvalid⟩

/-!
# Steps
-/

inductive Event where
  | internal
  | answered (impl : Implementation) (answer : Answer)
  | coreAnswered (impl : Implementation) (outcome : ProverInterface.Outcome)

/-- The null references a query can meet. -/
def CannotVerify (H : Houdini) (impl : Implementation) (s : HoudiniState) :
    Prop :=
  H.houdiniSession impl = none ∨ H.getAssignmentWithStages s.assignment = none

inductive Step (H : Houdini) (prover : Prover H) :
    HoudiniState -> Event -> HoudiniState -> Prop where
  | peek {s : HoudiniState} {impl : Implementation}
      {impls : List Implementation} :
      s.control = .outerLoop -> s.workQueue.queue = impl :: impls ->
      Step H prover s .internal (s.goto (.verifyCurrent impl))
  | finish {s : HoudiniState} :
      s.control = .outerLoop -> s.workQueue.queue = [] ->
      Step H prover s .internal (s.goto .returned)
  | verify {s : HoudiniState} {impl : Implementation}
      {session : HoudiniSession H.options H.program impl}
      {assignment : Variable -> Option Bool} {answer : Answer} :
      s.control = .verifyCurrent impl ->
      H.houdiniSession impl = some session ->
      H.getAssignmentWithStages s.assignment = some assignment ->
      prover.answers session assignment answer ->
      Step H prover s (.answered impl answer) (useAnswer H session answer s)
  | verifyNull {s : HoudiniState} {impl : Implementation} :
      s.control = .verifyCurrent impl -> H.CannotVerify impl s ->
      Step H prover s .internal (s.goto .nullReference)
  | unsatCore {s : HoudiniState} {impl : Implementation}
      {session : HoudiniSession H.options H.program impl}
      {outcome : ProverInterface.Outcome} {core : List Variable} :
      s.control = .updatingUnsatCore impl ->
      H.houdiniSession impl = some session ->
      prover.cores session s.assignment outcome core ->
      Step H prover s (.coreAnswered impl outcome)
        ((updateUnsatCore impl outcome core s).dequeue.goto .outerLoop)
  | refute {s : HoudiniState} {impl : Implementation} {error : Counterexample}
      {errors : List Counterexample} {dequeue : Bool} :
      s.control = .refuting impl (error :: errors) dequeue ->
      Step H prover s .internal (refuteNext H impl error errors dequeue s)
  | updateAssignment {s : HoudiniState} {impl : Implementation}
      {r : RefutedAnnotation} {errors : List Counterexample} :
      s.control = .updatingAssignment impl r errors ->
      Step H prover s .internal
        ((s.falsify r.constant).goto (.refuting impl errors false))
  | verifyAgain {s : HoudiniState} {impl : Implementation} :
      s.control = .refuting impl [] false ->
      Step H prover s .internal (s.goto (.verifyCurrent impl))
  | leave {s : HoudiniState} {impl : Implementation} :
      s.control = .refuting impl [] true ->
      Step H prover s .internal (s.dequeue.goto .outerLoop)
  | flush {s : HoudiniState} {impl : Implementation}
      {impls : List Implementation}
      {session : HoudiniSession H.options H.program impl}
      {assignment : Variable -> Option Bool} {answer : Answer} :
      s.control = .flushWorkList -> s.workQueue.queue = impl :: impls ->
      H.houdiniSession impl = some session ->
      H.getAssignmentWithStages s.assignment = some assignment ->
      prover.answers session assignment answer ->
      Step H prover s (.answered impl answer)
        (updateHoudiniOutcome H.program impl answer s).dequeue
  | flushNull {s : HoudiniState} {impl : Implementation}
      {impls : List Implementation} :
      s.control = .flushWorkList -> s.workQueue.queue = impl :: impls ->
      H.CannotVerify impl s ->
      Step H prover s .internal (s.goto .nullReference)
  | flushed {s : HoudiniState} :
      s.control = .flushWorkList -> s.workQueue.queue = [] ->
      Step H prover s .internal (s.goto .outerLoop)

/--
The start of `PerformHoudiniInference`.  The order of the worklist, which comes
from the components of the call graph, is left open.
-/
structure Initial (H : Houdini) (assignment : Variable -> Bool)
    (s : HoudiniState) : Prop where
  control : s.control = .outerLoop
  workQueue : forall impl, impl ∈ s.workQueue.queue <->
    (H.houdiniSession impl).isSome = true
  blackList : s.blackList = H.vcgenFailures.map Implementation.name
  assignment : s.assignment = assignment
  outcomes : s.implementationOutcomes = fun _ => none
  cores : s.unsatCoreSet = fun _ => none

def Reaches (H : Houdini) (prover : Prover H)
    (ok : HoudiniState -> Event -> Prop) :
    HoudiniState -> HoudiniState -> Prop :=
  Relation.ReflTransGen
    (fun s s' => exists event, ok s event ∧ Step H prover s event s')

end Houdini

end Boogie
