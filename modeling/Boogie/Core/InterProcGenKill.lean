import Mathlib.Data.Finset.Card
import Mathlib.Data.List.Dedup
import Boogie.Core.GenKillWeight
import Boogie.Foundation.Rounds

/-!
# The interprocedural live variable analysis

The first loop computes a weight for each block and a summary for each procedure,
backwards from the blocks that return.  The second loop computes the live
variables with these summaries.
-/

namespace Boogie
namespace InterProcGenKill

/-!
# Programs
-/

inductive TransferCmd (BlockId : Type) where
  | returnCmd
  | gotoCmd (labelTargets : List BlockId)

def TransferCmd.targets : TransferCmd BlockId -> List BlockId
  | returnCmd => []
  | gotoCmd labelTargets => labelTargets

/-- The blocks of an implementation with their labels, which are distinct. -/
structure Implementation (ProcName BlockId : Type) where
  first : BlockId
  others : List BlockId
  cmds : BlockId -> List (Cmd ProcName)
  transferCmd : BlockId -> TransferCmd BlockId
  locVars : List Variable
  outParams : List Variable
  targets_mem : forall b, b ∈ first :: others ->
    forall t, t ∈ (transferCmd b).targets -> t ∈ first :: others

/-- The implementations in the order of their declarations, and the one among them
that is analysed. -/
structure Program (ProcName BlockId : Type) where
  mainName : ProcName
  mainImpl : Implementation ProcName BlockId
  implementations : List (ProcName × Implementation ProcName BlockId)
  mainImpl_mem : (mainName, mainImpl) ∈ implementations
  procedures : ProcName -> Procedure
  globals : List Variable

abbrev WorkItem (ProcName BlockId : Type) :=
  ProcName × BlockId

section Graphs

variable {ProcName BlockId : Type}

def Cmd.callee? : Cmd ProcName -> Option ProcName
  | .call c _ => some c.proc
  | _ => none

namespace Implementation

def blocks (impl : Implementation ProcName BlockId) : List BlockId :=
  impl.first :: impl.others

def successors (impl : Implementation ProcName BlockId) (b : BlockId) : List BlockId :=
  (impl.transferCmd b).targets

def isExit (impl : Implementation ProcName BlockId) (b : BlockId) : Bool :=
  match impl.transferCmd b with
  | .returnCmd => true
  | .gotoCmd _ => false

def exitNodes (impl : Implementation ProcName BlockId) : List BlockId :=
  impl.blocks.filter (fun b => impl.isExit b)

def callees (impl : Implementation ProcName BlockId) (b : BlockId) : List ProcName :=
  (impl.cmds b).filterMap Cmd.callee?

variable [DecidableEq BlockId] [DecidableEq ProcName]

def predecessors (impl : Implementation ProcName BlockId) (b : BlockId) :
    List BlockId :=
  impl.blocks.filter (fun a => b ∈ impl.successors a)

/-- `nodes` has the first block and the ends of the edges. -/
def isNode (impl : Implementation ProcName BlockId) (b : BlockId) : Bool :=
  decide (b = impl.first) || !(impl.successors b).isEmpty ||
    !(impl.predecessors b).isEmpty

/-- `none` when the block is not a key. -/
def predEdges (impl : Implementation ProcName BlockId) (b : BlockId) :
    Option (List BlockId) :=
  if impl.isNode b then some (impl.predecessors b) else none

def calledProcs (impl : Implementation ProcName BlockId) : List ProcName :=
  (impl.blocks.flatMap impl.callees).reverse.dedup.reverse

/-- `procsCalled[callee]`, a block once for each of its calls. -/
def procsCalled (impl : Implementation ProcName BlockId) (callee : ProcName) :
    List BlockId :=
  impl.blocks.flatMap (fun b =>
    ((impl.callees b).filter (fun q => q = callee)).map (fun _ => b))

end Implementation

variable [DecidableEq BlockId] [DecidableEq ProcName]

def Program.name2Impl (program : Program ProcName BlockId) (p : ProcName) :
    Option (Implementation ProcName BlockId) :=
  (program.implementations.reverse.find? (fun e => e.1 = p)).map Prod.snd

def Program.cfg (program : Program ProcName BlockId) (p : ProcName) :
    Implementation ProcName BlockId :=
  if p = program.mainName then program.mainImpl
  else (program.name2Impl p).getD program.mainImpl

def Program.scope (program : Program ProcName BlockId) (p : ProcName) : Scope where
  globals := program.globals
  locVars := (program.cfg p).locVars
  outParams := (program.cfg p).outParams

/-!
# The procedures to analyse
-/

structure Discovery (ProcName BlockId : Type) where
  procICFG : List ProcName
  callers : ProcName -> List (WorkItem ProcName BlockId)
  procsToConsider : List ProcName

def visitCallee (program : Program ProcName BlockId) (p : ProcName)
    (d : Discovery ProcName BlockId) (callee : ProcName) :
    Discovery ProcName BlockId :=
  if (program.name2Impl callee).isNone then d
  else
    let d := { d with
      callers := Function.update d.callers callee
        (d.callers callee ++
          ((program.cfg p).procsCalled callee).map (fun b => (p, b))) }
    if callee ∈ d.procICFG then d
    else { d with
      procICFG := d.procICFG ++ [callee]
      procsToConsider := d.procsToConsider ++ [callee] }

def discoverStep (program : Program ProcName BlockId)
    (d : Discovery ProcName BlockId) : Option (Discovery ProcName BlockId) :=
  match d.procsToConsider with
  | [] => none
  | p :: rest =>
    some ((program.cfg p).calledProcs.foldl (visitCallee program p)
      { d with procsToConsider := rest })

def discover (fuel : Nat) (program : Program ProcName BlockId) :
    Option (Discovery ProcName BlockId) :=
  Rounds.repeatWhile (discoverStep program) (fun d => !d.procsToConsider.isEmpty) fuel
    { procICFG := [program.mainName]
      callers := fun _ => []
      procsToConsider := [program.mainName] }

/-!
# The work list
-/

def addToWorkList (wi : WorkItem ProcName BlockId)
    (workList : List (WorkItem ProcName BlockId)) :
    List (WorkItem ProcName BlockId) :=
  if wi ∈ workList then workList else workList ++ [wi]

def minItem (priority : WorkItem ProcName BlockId -> Int)
    (wi : WorkItem ProcName BlockId) :
    List (WorkItem ProcName BlockId) -> WorkItem ProcName BlockId
  | [] => wi
  | other :: others =>
    if priority other < priority wi then minItem priority other others
    else minItem priority wi others

def getFromWorkList (priority : WorkItem ProcName BlockId -> Int)
    (workList : List (WorkItem ProcName BlockId)) :
    Option (WorkItem ProcName BlockId × List (WorkItem ProcName BlockId)) :=
  match workList with
  | [] => none
  | wi :: others =>
    some (minItem priority wi others, workList.erase (minItem priority wi others))

/-!
# Weights
-/

structure WeightState (ProcName BlockId : Type) where
  memo : Memo
  weightBefore : WorkItem ProcName BlockId -> GenKillWeight
  weightAfter : WorkItem ProcName BlockId -> GenKillWeight
  summary : ProcName -> GenKillWeight
  workList : List (WorkItem ProcName BlockId)

def cmdWeight (program : Program ProcName BlockId) (procICFG : List ProcName)
    (summary : ProcName -> GenKillWeight) (p : ProcName) (c : Cmd ProcName) :
    StateM Memo GenKillWeight :=
  match c with
  | .call call desugaring =>
    if call.proc ∈ procICFG then
      getWeightCall (program.procedures call.proc) (summary call.proc) call
    else getWeight (program.scope p) (.call call desugaring)
  | c => getWeight (program.scope p) c

def blockWeight (program : Program ProcName BlockId) (procICFG : List ProcName)
    (summary : ProcName -> GenKillWeight) (p : ProcName) :
    List (Cmd ProcName) -> GenKillWeight -> StateM Memo GenKillWeight
  | [], w => pure w
  | c :: cmds, w => do
      let w ← blockWeight program procICFG summary p cmds w
      let cweight ← cmdWeight program procICFG summary p c
      GenKillWeight.extend cweight w

def setWeightBefore (s : WeightState ProcName BlockId)
    (wi : WorkItem ProcName BlockId) (w : GenKillWeight) :
    Bool × WeightState ProcName BlockId :=
  let prev := s.weightBefore wi
  let (curr, memo) := GenKillWeight.combine w prev s.memo
  let s := { s with memo := memo }
  if GenKillWeight.isEqual prev curr then (false, s)
  else (true, { s with weightBefore := Function.update s.weightBefore wi curr })

def updateSummary (callers : ProcName -> List (WorkItem ProcName BlockId))
    (s : WeightState ProcName BlockId) (wi : WorkItem ProcName BlockId) :
    WeightState ProcName BlockId :=
  let prev := s.summary wi.1
  let (curr, memo) := GenKillWeight.combine prev (s.weightBefore wi) s.memo
  let s := { s with memo := memo }
  if GenKillWeight.isEqual prev curr then s
  else
    { s with
      summary := Function.update s.summary wi.1 curr
      workList := (callers wi.1).foldl (fun l wi => addToWorkList wi l) s.workList }

def updatePredecessor (p : ProcName) (w : GenKillWeight)
    (s : WeightState ProcName BlockId) (b : BlockId) :
    WeightState ProcName BlockId :=
  let prev := s.weightAfter (p, b)
  let (curr, memo) := GenKillWeight.combine prev w s.memo
  let s := { s with memo := memo }
  if GenKillWeight.isEqual prev curr then s
  else
    { s with
      weightAfter := Function.update s.weightAfter (p, b) curr
      workList := addToWorkList (p, b) s.workList }

/-- `none` when `predEdges` does not have the block. -/
def process (program : Program ProcName BlockId) (d : Discovery ProcName BlockId)
    (s : WeightState ProcName BlockId) (wi : WorkItem ProcName BlockId) :
    Option (WeightState ProcName BlockId) :=
  let (w, memo) := blockWeight program d.procICFG s.summary wi.1
    ((program.cfg wi.1).cmds wi.2) (s.weightAfter wi) s.memo
  let (change, s) := setWeightBefore { s with memo := memo } wi w
  let s :=
    if change && decide (wi.2 = (program.cfg wi.1).first) then
      updateSummary d.callers s wi
    else s
  ((program.cfg wi.1).predEdges wi.2).map
    (fun preds => preds.foldl (updatePredecessor wi.1 w) s)

def weightStep (program : Program ProcName BlockId) (d : Discovery ProcName BlockId)
    (priority : WorkItem ProcName BlockId -> Int)
    (s : WeightState ProcName BlockId) : Option (WeightState ProcName BlockId) :=
  (getFromWorkList priority s.workList).bind
    (fun p => process program d { s with workList := p.2 } p.1)

def exitItems (program : Program ProcName BlockId) (procs : List ProcName) :
    List (WorkItem ProcName BlockId) :=
  procs.flatMap (fun p => ((program.cfg p).exitNodes).map (fun b => (p, b)))

def initialWeights (program : Program ProcName BlockId)
    (d : Discovery ProcName BlockId) (memo : Memo) :
    WeightState ProcName BlockId where
  memo := memo
  weightBefore := fun _ => GenKillWeight.zero
  weightAfter := fun wi =>
    if wi ∈ exitItems program d.procICFG then GenKillWeight.one
    else GenKillWeight.zero
  summary := fun _ => GenKillWeight.zero
  workList := (exitItems program d.procICFG).foldl
    (fun l wi => addToWorkList wi l) []

def whileWork {State : Type} (workList : State -> List (WorkItem ProcName BlockId))
    (step : State -> Option State) (fuel : Nat) (s : State) : Option State :=
  if (workList s).isEmpty then some s
  else Rounds.repeatWhile step (fun s => !(workList s).isEmpty) fuel s

/-!
# Live variables
-/

def simpleRhs : AssignLhs -> Expr -> Expr
  | .simpleAssignLhs _, e => e
  | .mapAssignLhs map indexes, e =>
    simpleRhs map (.nary .mapStore (map.asExpr :: (indexes ++ [e])))

def propagateAssign (lhss : List AssignLhs) (rhss : List Expr)
    (liveSet : Finset Variable) : Finset Variable :=
  (liveSet \ (lhss.map AssignLhs.deepAssignedVariable).toFinset) ∪
    ((lhss.zip rhss).flatMap (fun p =>
      if p.1.deepAssignedVariable ∈ liveSet then
        VariableCollector.usedVars (simpleRhs p.1 p.2)
      else [])).toFinset

mutual

/-- `LiveVariableAnalysis.Propagate`. -/
def propagate : Cmd ProcName -> Finset Variable -> Finset Variable
  | .assign lhss rhss, liveSet => propagateAssign lhss rhss liveSet
  | .havoc vars, liveSet => liveSet \ vars.toFinset
  | .predicate expr, liveSet =>
    match expr with
    | .literal l => if l = .bool false then ∅ else liveSet
    | e => liveSet ∪ (VariableCollector.usedVars e).toFinset
  | .comment, liveSet => liveSet
  | .call _ desugaring, liveSet => propagate desugaring liveSet
  | .state locals cmds, liveSet => propagateCmds cmds liveSet \ locals.toFinset

def propagateCmds : List (Cmd ProcName) -> Finset Variable -> Finset Variable
  | [], liveSet => liveSet
  | c :: cmds, liveSet => propagate c (propagateCmds cmds liveSet)

end

structure LiveState (ProcName BlockId : Type) where
  memo : Memo
  liveVarsAfter : WorkItem ProcName BlockId -> Finset Variable
  liveVarsBefore : WorkItem ProcName BlockId -> Finset Variable
  workList : List (WorkItem ProcName BlockId)

def enterCallee (elv : Finset Variable) (s : LiveState ProcName BlockId)
    (wi : WorkItem ProcName BlockId) : LiveState ProcName BlockId :=
  { s with
    liveVarsAfter := Function.update s.liveVarsAfter wi (s.liveVarsAfter wi ∪ elv)
    workList := addToWorkList wi s.workList }

def processCmds (program : Program ProcName BlockId) (procICFG : List ProcName)
    (summary : ProcName -> GenKillWeight) :
    List (Cmd ProcName) -> Finset Variable × LiveState ProcName BlockId ->
      Finset Variable × LiveState ProcName BlockId
  | [], r => r
  | c :: cmds, r =>
    let (prop, s) := processCmds program procICFG summary cmds r
    match c with
    | .call call desugaring =>
      if call.proc ∈ procICFG then
        let elv := prop.filter (fun v => v.isGlobal) ∪
          (program.cfg call.proc).outParams.toFinset
        let s := (exitItems program [call.proc]).foldl (enterCallee elv) s
        let (w, memo) := getWeightCall (program.procedures call.proc)
          (summary call.proc) call s.memo
        (w.getLiveVars prop, { s with memo := memo })
      else (propagate (.call call desugaring) prop, s)
    | c => (propagate c prop, s)

def updateLivePredecessor (wi : WorkItem ProcName BlockId)
    (s : LiveState ProcName BlockId) (b : BlockId) : LiveState ProcName BlockId :=
  let prev := s.liveVarsAfter (wi.1, b)
  let curr := prev ∪ s.liveVarsBefore wi
  if curr.card = prev.card then s
  else
    { s with
      liveVarsAfter := Function.update s.liveVarsAfter (wi.1, b) curr
      workList := addToWorkList (wi.1, b) s.workList }

/-- `none` when `predEdges` does not have the block. -/
def processLV (program : Program ProcName BlockId) (procICFG : List ProcName)
    (summary : ProcName -> GenKillWeight) (s : LiveState ProcName BlockId)
    (wi : WorkItem ProcName BlockId) : Option (LiveState ProcName BlockId) :=
  let (prop, s) := processCmds program procICFG summary
    ((program.cfg wi.1).cmds wi.2) (s.liveVarsAfter wi, s)
  let s := { s with
    liveVarsBefore := Function.update s.liveVarsBefore wi
      (s.liveVarsBefore wi ∪ prop) }
  ((program.cfg wi.1).predEdges wi.2).map
    (fun preds => preds.foldl (updateLivePredecessor wi) s)

def liveStep (program : Program ProcName BlockId) (procICFG : List ProcName)
    (summary : ProcName -> GenKillWeight)
    (priority : WorkItem ProcName BlockId -> Int)
    (s : LiveState ProcName BlockId) : Option (LiveState ProcName BlockId) :=
  (getFromWorkList priority s.workList).bind
    (fun p => processLV program procICFG summary { s with workList := p.2 } p.1)

def initialLiveVars (program : Program ProcName BlockId) (memo : Memo) :
    LiveState ProcName BlockId where
  memo := memo
  liveVarsAfter := fun _ => ∅
  liveVarsBefore := fun _ => ∅
  workList := (exitItems program [program.mainName]).foldl
    (fun l wi => addToWorkList wi l) []

/-!
# The analysis
-/

/-- The order in which both loops take their items. -/
structure Priorities (ProcName BlockId : Type) where
  forward : WorkItem ProcName BlockId -> Int
  reverse : WorkItem ProcName BlockId -> Int

structure Analysis (ProcName BlockId : Type) where
  procICFG : List ProcName
  weights : WeightState ProcName BlockId
  live : LiveState ProcName BlockId

/-- Both loops of `Compute`; `none` when one of them fails or does not end. -/
def compute (program : Program ProcName BlockId)
    (priorities : Priorities ProcName BlockId) (memo : Memo) (fuel : Nat) :
    Option (Analysis ProcName BlockId) := do
  let d ← discover fuel program
  let s ← whileWork WeightState.workList (weightStep program d priorities.forward) fuel
    (initialWeights program d memo)
  let live ← whileWork LiveState.workList
    (liveStep program d.procICFG s.summary priorities.reverse) fuel
    (initialLiveVars program s.memo)
  some ⟨d.procICFG, s, live⟩

def Analysis.varsLiveSummary (analysis : Analysis ProcName BlockId) (p : ProcName) :
    Option GenKillWeight :=
  if p ∈ analysis.procICFG then some (analysis.weights.summary p) else none

def propagateLiveVarsAcrossCall (program : Program ProcName BlockId)
    (varsLiveSummary : ProcName -> Option GenKillWeight) (cmd : CallCmd ProcName)
    (desugaring : Cmd ProcName) (lvAfter : Finset Variable) :
    StateM Memo (Finset Variable) :=
  match varsLiveSummary cmd.proc with
  | some w2 => do
      let w1 ← getWeightBeforeCall (program.procedures cmd.proc) cmd
      let w3 ← getWeightAfterCall (program.procedures cmd.proc) cmd
      let w ← GenKillWeight.extend w2 w3
      let w ← GenKillWeight.extend w1 w
      pure (w.getLiveVars lvAfter)
  | none => pure (propagate (.call cmd desugaring) lvAfter)

end Graphs

end InterProcGenKill
end Boogie
