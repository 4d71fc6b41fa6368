import Boogie.Foundation.Dictionary
import Boogie.Houdini.Houdini

/-!
# The interface to the prover process

The interface sends commands to the process and reads its answers.  What is
asserted between a push and the pop that belongs to it makes up a frame of the
process's assertion stack.
-/

namespace Boogie

namespace SMTLib

/-!
# The process
-/

/--
What is asserted: a formula, possibly with a name, a formula weakened by an
equation for a relaxation variable, or a clause that excludes the counterexample
of the last answer.
-/
inductive Assertion (F L : Type) where
  | formula (vc : F)
  | named (vc : F) (name : String)
  | relaxed (a : Assertion F L) (relaxVar : String) (i : Nat)
  | blockedPath (source target : L)
  | blockedLabels (labels : List L)
deriving Repr

inductive Command (F L : Type) where
  | declareFun (name : String)
  | assert (a : Assertion F L)
deriving Repr

abbrev Stack (F L : Type) := List (List (Command F L))

namespace Stack

def add (c : Command F L) : Stack F L -> Stack F L
  | [] => [[c]]
  | frame :: frames => (frame ++ [c]) :: frames

def assertions (stack : Stack F L) : List (Assertion F L) :=
  stack.flatMap (fun frame => frame.filterMap (fun c =>
    match c with
    | .assert a => some a
    | .declareFun _ => none))

def names (stack : Stack F L) : List String :=
  (stack.headD []).filterMap (fun c =>
    match c with
    | .assert (.named _ name) => some name
    | _ => none)

end Stack

inductive ReasonUnknown where
  | memout
  | timeout
  | canceled
  | other
deriving DecidableEq, Repr

inductive Response where
  | unsat
  | sat
  | unknown (reason : ReasonUnknown)
  | silent
deriving DecidableEq, Repr

/--
The process, whose answers depend on the number of answers given before and on
the stack.  Besides the answer there are the labels of the counterexample, the
values of variables and the names of the assertions in a core.  Only the
assertions of the top frame have names.
-/
structure Process (F L : Type) where
  respond : Nat -> Stack F L -> Response
  labels : Nat -> Stack F L -> List L
  getValue : Nat -> Stack F L -> String -> Option Int
  unsatCore : Nat -> Stack F L -> List String
  unsatCore_named : forall n stack name, name ∈ unsatCore n stack ->
    name ∈ stack.names

/-!
# The interface
-/

inductive Interruption where
  | nullReference
  | indexOutOfRange
  | duplicateKey
  | keyNotFound
  | running
deriving DecidableEq, Repr

structure Options where
  useLabels : Bool
  proverCCLimit : Int

def Options.errorsLeft (options : Options) : Nat :=
  (max options.proverCCLimit 1).toNat

/--
The fields of the interface.  The labels of the counterexamples that were handed
to the error handler are kept too.
-/
structure ProverState (F L : Type) where
  stack : Stack F L
  queries : Nat
  nameCounter : Nat
  pendingAxioms : List F
  currentErrorHandler : Bool
  reported : List (List L)

namespace ProverState

def push (s : ProverState F L) : ProverState F L :=
  { s with stack := [] :: s.stack }

def pop (s : ProverState F L) : ProverState F L :=
  { s with stack := s.stack.tail }

def send (s : ProverState F L) (c : Command F L) : ProverState F L :=
  { s with stack := s.stack.add c }

def setErrorHandler (s : ProverState F L) (installed : Bool) :
    ProverState F L :=
  { s with currentErrorHandler := installed }

def onModel (s : ProverState F L) (labels : List L) : ProverState F L :=
  { s with reported := s.reported ++ [labels] }

def assertAxioms (s : ProverState F L) : ProverState F L :=
  { s.pendingAxioms.foldl (fun s a => s.send (.assert (.formula a))) s with
    pendingAxioms := [] }

def answered (s : ProverState F L) : ProverState F L :=
  { s with queries := s.queries + 1 }

end ProverState

/-!
# Answers
-/

section Answers

variable {F L : Type} (process : Process F L)

/-- The error handler is told about resources that were exceeded. -/
def getResponse (s : ProverState F L) :
    Except Interruption (ProverInterface.Outcome × ProverState F L) :=
  match process.respond s.queries s.stack with
  | .unsat => .ok (.valid, s.answered)
  | .sat => .ok (.invalid, s.answered)
  | .silent => .ok (.undetermined, s.answered)
  | .unknown .memout =>
    if s.currentErrorHandler then .ok (.outOfMemory, s.answered)
    else .error .nullReference
  | .unknown .timeout =>
    if s.currentErrorHandler then .ok (.timeOut, s.answered)
    else .error .nullReference
  | .unknown .canceled =>
    if s.currentErrorHandler then .ok (.timeOut, s.answered)
    else .error .nullReference
  | .unknown .other => .ok (.invalid, s.answered)

def blockingClause (options : Options) (labels : List L) :
    Except Interruption (Assertion F L) :=
  if options.useLabels then .ok (.blockedLabels labels)
  else
    match labels.reverse with
    | target :: source :: _ => .ok (.blockedPath source target)
    | _ => .error .indexOutOfRange

def hasLabels (outcome : ProverInterface.Outcome) : Bool :=
  outcome = .invalid || outcome = .timeOut || outcome = .outOfMemory

def checkOutcomeLoop (options : Options) :
    Nat -> ProverInterface.Outcome -> ProverState F L ->
      Except Interruption (ProverInterface.Outcome × ProverState F L)
  | 0, globalResult, s => .ok (globalResult, s)
  | errorsLeft + 1, globalResult, s => do
      let (result, s) <- getResponse process s
      let labels := process.labels s.queries s.stack
      let globalResult :=
        if globalResult = .undetermined then result else globalResult
      if hasLabels result then
        let s := s.onModel labels
        if labels.isEmpty || errorsLeft = 0 then return (globalResult, s)
        else
          let clause <- blockingClause options labels
          checkOutcomeLoop options errorsLeft globalResult
            (s.send (.assert clause))
      else return (globalResult, s)

/-- The error handler is installed for the time of the call only. -/
def checkOutcomeCore (options : Options) (s : ProverState F L) :
    Except Interruption (ProverInterface.Outcome × ProverState F L) := do
  let (outcome, s) <- checkOutcomeLoop process options options.errorsLeft
    .undetermined (s.setErrorHandler true)
  return (outcome, s.setErrorHandler false)

end Answers

/-!
# Assumptions
-/

section Assumptions

variable {F L : Type} (process : Process F L) (options : Options)

def assumptionName (nameCounter : Nat) : String :=
  "a" ++ toString nameCounter

def nameAssumptions : List F -> Nat -> Dictionary String Nat ->
    ProverState F L ->
      Except Interruption (Dictionary String Nat × ProverState F L)
  | [], _, nameToAssumption, s => .ok (nameToAssumption, s)
  | vc :: assumptions, i, nameToAssumption, s =>
    let name := assumptionName s.nameCounter
    let s := { s with nameCounter := s.nameCounter + 1 }
    if nameToAssumption.containsKey name then .error .duplicateKey
    else
      nameAssumptions assumptions (i + 1) (nameToAssumption.set name i)
        (s.assertAxioms.send (.assert (.named vc name)))

def indexer (nameToAssumption : Dictionary String Nat) (name : String) :
    Except Interruption Nat :=
  match nameToAssumption.tryGetValue name with
  | some i => .ok i
  | none => .error .keyNotFound

/-- `CheckAssumptions` with a list of assumptions. -/
def checkAssumptions (assumptions : List F) (s : ProverState F L) :
    Except Interruption
      (ProverInterface.Outcome × List Nat × ProverState F L) := do
  let (nameToAssumption, s) <- nameAssumptions assumptions 0 .empty s.push
  let (outcome, s) <- checkOutcomeCore process options s
  if outcome = .valid then
    let unsatCore <-
      (process.unsatCore s.queries s.stack).mapM (indexer nameToAssumption)
    return (outcome, unsatCore, s.pop)
  else return (outcome, [], s.pop)

def relaxVar (k : Nat) : String :=
  "relax_" ++ toString k

def relaxAll (currAssumptions : List (Assertion F L)) (k : Nat) :
    List (Assertion F L) :=
  currAssumptions.zipIdx.map (fun a => .relaxed a.1 (relaxVar k) a.2)

/-- The loop over the soft assumptions, which have `k` relaxation variables. -/
def softLoop : Nat -> Nat -> List (Assertion F L) -> ProverState F L ->
    Except Interruption (ProverInterface.Outcome × Nat × ProverState F L)
  | 0, _, _, _ => .error .running
  | fuel + 1, k, currAssumptions, s => do
      let s := currAssumptions.foldl (fun s a => s.send (.assert a)) s.push
      let (outcome, s) <- checkOutcomeCore process options s
      if outcome = .valid then
        softLoop fuel (k + 1) (relaxAll currAssumptions k)
          (s.pop.send (.declareFun (relaxVar k)))
      else return (outcome, k, s)

/-- `int.TryParse` on a numeral. -/
def tryParse (v : Int) : Option Nat :=
  if 0 ≤ v ∧ v ≤ 2147483647 then some v.toNat else none

def relaxValues (value : String -> Option Int) : List Nat -> List Nat
  | [] => []
  | k :: ks =>
    match (value (relaxVar k)).bind tryParse with
    | some v => v :: relaxValues value ks
    | none => []

/-- `CheckAssumptions` with hard and soft assumptions. -/
def checkSoftAssumptions (fuel : Nat) (hardAssumptions softAssumptions : List F)
    (s : ProverState F L) :
    Except Interruption
      (ProverInterface.Outcome × List Nat × ProverState F L) := do
  let s := hardAssumptions.foldl
    (fun s a => s.send (.assert (.formula a))) s.push.assertAxioms
  let (outcome, s) <- getResponse process s
  if outcome ≠ .invalid then return (outcome, [], s.pop)
  else
    let (outcome, k, s) <- softLoop process options fuel 0
      (softAssumptions.map .formula) s
    if outcome = .invalid then
      let unsatisfiedSoftAssumptions :=
        relaxValues (process.getValue s.queries s.stack) (List.range k)
      return (outcome, unsatisfiedSoftAssumptions, s.pop.pop)
    else return (outcome, [], s.pop)

end Assumptions

end SMTLib

end Boogie
