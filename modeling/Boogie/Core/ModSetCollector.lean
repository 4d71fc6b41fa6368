import Boogie.Foundation.Dictionary
import Boogie.Foundation.Rounds

/-!
# The analysis that infers modifies clauses

The collector walks over the implementations of a program and keeps a set of
global variables for each procedure.  It walks over the program again until a walk
has added nothing.
-/

namespace Boogie
namespace ModSetCollector

/-!
# What the collector looks at

Expressions are left out: the collector does not enter code expressions, and no
other expression contains a command.  The commands are not those of
`Boogie.Cmd`, which are the commands that formulas are generated for: the collector
runs before asynchronous and parallel calls, yields and state commands have been
replaced.
-/

inductive Variable (Global Other : Type) where
  | global (g : Global)
  | other (x : Other)
deriving DecidableEq

def Variable.global? : Variable Global Other -> Option Global
  | global g => some g
  | other _ => none

inductive AssignLhs (Global Other : Type) where
  | simple (assignedVariable : Variable Global Other)
  | map (map : AssignLhs Global Other)

def AssignLhs.deepAssignedVariable : AssignLhs Global Other -> Variable Global Other
  | simple v => v
  | map lhs => lhs.deepAssignedVariable

structure CallCmd (Procedure Global Other : Type) where
  proc : Procedure
  outs : List (Option (Variable Global Other))
  isAsync : Bool

inductive Cmd (Procedure Global Other : Type) where
  | assign (lhss : List (AssignLhs Global Other))
  | havoc (vars : List (Variable Global Other))
  | call (callCmd : CallCmd Procedure Global Other)
  | parCall (callCmds : List (CallCmd Procedure Global Other))
  | yield
  | state (cmds : List (Cmd Procedure Global Other))
  | other

inductive Declaration (Procedure Global Other : Type) where
  | procedure (p : Procedure)
  | implementation (proc : Procedure)
      (blocks : List (List (Cmd Procedure Global Other)))
  | other

/-!
# The state of the analysis
-/

/-- The static fields, the procedure that encloses the commands apart. -/
structure State (Procedure Global : Type) where
  modSets : Dictionary Procedure (List Global)
  yieldingProcs : List Procedure
  asyncAndParallelCallTargetProcs : List Procedure
  moreProcessingRequired : Bool

section Visitor

variable {Procedure Global Other : Type} [DecidableEq Procedure] [DecidableEq Global]

def State.initial : State Procedure Global where
  modSets := Dictionary.empty
  yieldingProcs := []
  asyncAndParallelCallTargetProcs := []
  moreProcessingRequired := false

def State.modSet (s : State Procedure Global) (p : Procedure) : List Global :=
  (s.modSets.tryGetValue p).getD []

/-- `ProcessVariable` for a global variable. -/
def processGlobal (enclosingProc : Procedure) (g : Global)
    (s : State Procedure Global) : State Procedure Global :=
  let s :=
    if s.modSets.containsKey enclosingProc then s
    else { s with modSets := s.modSets.set enclosingProc [] }
  if g ∈ s.modSet enclosingProc then s
  else
    { s with
      moreProcessingRequired := true
      modSets := s.modSets.set enclosingProc (s.modSet enclosingProc ++ [g]) }

def processVariable (enclosingProc : Procedure) (var : Variable Global Other)
    (s : State Procedure Global) : State Procedure Global :=
  match var with
  | .global g => processGlobal enclosingProc g s
  | .other _ => s

/-- `yieldingProcs` is extended when it does not contain the procedure. -/
def addYieldingProc (p : Procedure) (s : State Procedure Global) :
    State Procedure Global :=
  if p ∈ s.yieldingProcs then s
  else
    { s with
      yieldingProcs := p :: s.yieldingProcs
      moreProcessingRequired := true }

def addTargetProc (p : Procedure) (s : State Procedure Global) :
    State Procedure Global :=
  { s with
    asyncAndParallelCallTargetProcs := p :: s.asyncAndParallelCallTargetProcs }

/-- The loop over the set of the callee; `none` when the set is changed while it
is enumerated. -/
def processModSet (enclosingProc callee : Procedure) (vars : List Global)
    (s : State Procedure Global) : Option (State Procedure Global) :=
  vars.foldlM
    (fun s' g =>
      let s'' := processGlobal enclosingProc g s'
      if s''.modSet callee = s.modSet callee then some s'' else none)
    s

def visitCallCmd (enclosingProc : Procedure)
    (callCmd : CallCmd Procedure Global Other) (s : State Procedure Global) :
    Option (State Procedure Global) := do
  let s := callCmd.outs.foldl
    (fun s ie => ie.elim s (fun v => processVariable enclosingProc v s)) s
  let callee := callCmd.proc
  let s ← processModSet enclosingProc callee (s.modSet callee) s
  let s :=
    if callee ∈ s.yieldingProcs ∨ callCmd.isAsync then
      addYieldingProc enclosingProc s
    else s
  some (if callCmd.isAsync then addYieldingProc callee (addTargetProc callee s) else s)

def visitParCallCmd (enclosingProc : Procedure)
    (callCmds : List (CallCmd Procedure Global Other)) (s : State Procedure Global) :
    Option (State Procedure Global) := do
  let s ← callCmds.foldlM (fun s c => visitCallCmd enclosingProc c s) s
  let s := addYieldingProc enclosingProc s
  some (callCmds.foldl (fun s c => addYieldingProc c.proc (addTargetProc c.proc s)) s)

mutual

def visitCmd (enclosingProc : Procedure) :
    Cmd Procedure Global Other -> State Procedure Global ->
      Option (State Procedure Global)
  | .assign lhss, s => some (lhss.foldl
      (fun s lhs => processVariable enclosingProc lhs.deepAssignedVariable s) s)
  | .havoc vars, s =>
    some (vars.foldl (fun s v => processVariable enclosingProc v s) s)
  | .call callCmd, s => visitCallCmd enclosingProc callCmd s
  | .parCall callCmds, s => visitParCallCmd enclosingProc callCmds s
  | .yield, s => some (addYieldingProc enclosingProc s)
  | .state cmds, s => visitCmdSeq enclosingProc cmds s
  | .other, s => some s

def visitCmdSeq (enclosingProc : Procedure) :
    List (Cmd Procedure Global Other) -> State Procedure Global ->
      Option (State Procedure Global)
  | [], s => some s
  | c :: cmds, s => (visitCmd enclosingProc c s).bind (visitCmdSeq enclosingProc cmds)

end

def visitDeclaration (decl : Declaration Procedure Global Other)
    (s : State Procedure Global) : Option (State Procedure Global) :=
  match decl with
  | .implementation proc blocks =>
    blocks.foldlM (fun s cmds => visitCmdSeq proc cmds s) s
  | _ => some s

end Visitor

/-!
# Programs

Resolution has found the procedures of the implementations and of the calls among
the declarations.
-/

section Declarations

variable {Procedure Global Other : Type}

def CallCmd.outVariables (c : CallCmd Procedure Global Other) :
    List (Variable Global Other) :=
  c.outs.filterMap id

mutual

def Cmd.callees : Cmd Procedure Global Other -> List Procedure
  | .call callCmd => [callCmd.proc]
  | .parCall callCmds => callCmds.map CallCmd.proc
  | .state cmds => Cmd.allCallees cmds
  | _ => []

def Cmd.allCallees : List (Cmd Procedure Global Other) -> List Procedure
  | [] => []
  | c :: cmds => c.callees ++ Cmd.allCallees cmds

end

mutual

def Cmd.assigned : Cmd Procedure Global Other -> List (Variable Global Other)
  | .assign lhss => lhss.map AssignLhs.deepAssignedVariable
  | .havoc vars => vars
  | .call callCmd => callCmd.outVariables
  | .parCall callCmds => callCmds.flatMap CallCmd.outVariables
  | .state cmds => Cmd.allAssigned cmds
  | _ => []

def Cmd.allAssigned :
    List (Cmd Procedure Global Other) -> List (Variable Global Other)
  | [] => []
  | c :: cmds => c.assigned ++ Cmd.allAssigned cmds

end

end Declarations

def Declaration.procedure? :
    Declaration Procedure Global Other -> Option Procedure
  | procedure p => some p
  | _ => none

structure Program (Procedure Global Other : Type) where
  topLevelDeclarations : List (Declaration Procedure Global Other)
  modifies : Procedure -> List (Variable Global Other)
  yields : Procedure -> Bool
  stable : Procedure -> Bool
  declared_once : (topLevelDeclarations.filterMap Declaration.procedure?).Nodup
  proc_declared : forall p blocks,
    Declaration.implementation p blocks ∈ topLevelDeclarations ->
      Declaration.procedure p ∈ topLevelDeclarations
  callee_declared : forall p blocks cmds c q,
    Declaration.implementation p blocks ∈ topLevelDeclarations ->
      cmds ∈ blocks -> c ∈ cmds -> q ∈ Cmd.callees c ->
        Declaration.procedure q ∈ topLevelDeclarations

structure Result (Procedure Global Other : Type) where
  modifies : Procedure -> List (Variable Global Other)
  yields : Procedure -> Bool
  stable : Procedure -> Bool

section Analysis

variable {Procedure Global Other : Type} [DecidableEq Procedure] [DecidableEq Global]

def Declaration.implements (p : Procedure) :
    Declaration Procedure Global Other -> Bool
  | .implementation q _ => decide (q = p)
  | _ => false

def Program.implemented (program : Program Procedure Global Other) (p : Procedure) :
    Bool :=
  program.topLevelDeclarations.any (fun d => d.implements p)

/-- The loop before the first walk; `none` when a procedure is added twice. -/
def enterDeclaration (program : Program Procedure Global Other)
    (decl : Declaration Procedure Global Other) (s : State Procedure Global) :
    Option (State Procedure Global) :=
  match decl with
  | .procedure p =>
    if program.implemented p then
      if s.modSets.containsKey p then none
      else some { s with modSets := s.modSets.set p [] }
    else some ((program.modifies p).foldl (fun s v => processVariable p v s) s)
  | _ => some s

def visitProgram (program : Program Procedure Global Other)
    (s : State Procedure Global) : Option (State Procedure Global) :=
  program.topLevelDeclarations.foldlM (fun s d => visitDeclaration d s)
    { s with moreProcessingRequired := false }

def State.result (program : Program Procedure Global Other)
    (s : State Procedure Global) : Result Procedure Global Other where
  modifies := fun p =>
    (s.modSets.tryGetValue p).elim (program.modifies p)
      (fun vars => vars.map Variable.global)
  yields := fun p => program.yields p || decide (p ∈ s.yieldingProcs)
  stable := fun p =>
    program.stable p || decide (p ∈ s.asyncAndParallelCallTargetProcs)

def doModSetAnalysis (fuel : Nat) (program : Program Procedure Global Other) :
    Option (Result Procedure Global Other) := do
  let s ← program.topLevelDeclarations.foldlM
    (fun s d => enterDeclaration program d s) State.initial
  let s ← Rounds.repeatWhile (visitProgram program)
    State.moreProcessingRequired fuel s
  some (s.result program)

end Analysis

end ModSetCollector
end Boogie
