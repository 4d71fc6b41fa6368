import Boogie.Core.Substituter
import Boogie.Houdini.Candidates

/-!
# Applying an assignment

After the inference the candidates can be taken out of a program.  What a true
candidate guards is assumed from then on, and what a false candidate guards is
removed.
-/

namespace Boogie

namespace Houdini

/-!
# The transformation

The assertions, the preconditions and the postconditions are treated alike.
The candidates are those of the program `p` that was inferred about; the
program that is transformed may be another copy of it, in which the constants
are looked up by their names.
-/

inductive Treatment where
  | keep
  | remove
  | assume (condition : Expr)

def Treatment.result (unchanged : A) (assumed : Expr -> A) :
    Treatment -> Option A
  | .keep => some unchanged
  | .remove => none
  | .assume condition => some (assumed condition)

/-- The first declaration of the name; without any the source fails. -/
def findConstant (prog : Program) (name : String) : Option Variable :=
  (prog.constants.map Constant.variable).find? (fun v => v.name = name)

def treat (p : Program) (assignment : Variable -> Bool) (prog : Program)
    (condition : Expr) : Option Treatment :=
  match p.matchCandidate condition with
  | none => some .keep
  | some cVar =>
    if assignment cVar then
      match findConstant prog cVar.name with
      | some cVarProg =>
        some (.assume (Substituter.apply
          (fun v => if v = cVarProg then some Expr.trueExpr else none)
          condition))
      | none => none
    else some .remove

/-- The results that are kept, when none of the calls fails. -/
def collectResults (f : A -> Option (Option A)) : List A -> Option (List A)
  | [] => some []
  | a :: as => do
      let result <- f a
      let rest <- collectResults f as
      return result.toList ++ rest

variable (p : Program) (assignment : Variable -> Bool) (prog : Program)

def applyToCmd (cmd : Cmd) : Option (Option Cmd) :=
  match cmd with
  | .assertCmd assertCmd =>
    (treat p assignment prog assertCmd.expr).map
      (Treatment.result cmd (fun condition => .assumeCmd
        { uniqueId := assertCmd.uniqueId
          expr := condition
          attributes := assertCmd.attributes }))
  | _ => some (some cmd)

def applyToRequires (r : Requires) : Option (Option Requires) :=
  (treat p assignment prog r.condition).map
    (Treatment.result r (fun condition => ⟨true, condition⟩))

def applyToEnsures (e : Ensures) : Option (Option Ensures) :=
  (treat p assignment prog e.condition).map
    (Treatment.result e (fun condition => ⟨true, condition⟩))

def applyToBlock (block : Block) : Option Block := do
  let newCmds <- collectResults (applyToCmd p assignment prog) block.cmds
  return { block with cmds := newCmds }

def applyToImplementation (impl : Implementation) : Option Implementation := do
  let blocks <- impl.blocks.mapM (applyToBlock p assignment prog)
  return { impl with blocks := blocks }

def applyToProcedure (proc : Procedure) : Option Procedure := do
  let newRequires <-
    collectResults (applyToRequires p assignment prog) proc.requires
  let newEnsures <-
    collectResults (applyToEnsures p assignment prog) proc.ensures
  return { proc with requires := newRequires, ensures := newEnsures }

/-- `ApplyAssignment`; `none` where an exception ends it. -/
def applyAssignment : Option Program := do
  let implementations <-
    prog.implementations.mapM (applyToImplementation p assignment prog)
  let procedures <- prog.procedures.mapM (applyToProcedure p assignment prog)
  return {
    constants := prog.constants.filter
      (fun c => c.variable.name ∉ p.houdiniConstants.map Variable.name)
    axioms := prog.axioms
    procedures := procedures
    implementations := implementations }

/-!
# What the transformation should do

The condition of every annotation that is left means what the condition of the
original means when the candidates have their values.
-/

section Specification

def assigned (condition : Expr) : Expr :=
  Substituter.apply
    (fun v =>
      if v ∈ p.houdiniConstants then some (.literal (.bool (assignment v)))
      else none)
    condition

inductive Guards (p : Program) (c : Variable) : Expr -> Prop where
  | here {consequent : Expr} : c ∈ p.houdiniConstants ->
      Guards p c (Expr.imp (.ident c) consequent)
  | there {antecedent consequent : Expr} : Guards p c consequent ->
      Guards p c (Expr.imp antecedent consequent)

def Equivalent (e e' : Expr) : Prop :=
  forall (U : Type) [DecidableEq U] (I : Interp U) (ρ₀ ρ : Env U),
    e.Holds I ρ₀ ρ <-> e'.Holds I ρ₀ ρ

def Removed (condition : Expr) : Prop :=
  exists c, Guards p c condition ∧ assignment c = false

inductive Aligned (removed : A -> Prop) (becomes : A -> A -> Prop) :
    List A -> List A -> Prop where
  | nil : Aligned removed becomes [] []
  | removed {a : A} {as as' : List A} : removed a ->
      Aligned removed becomes as as' -> Aligned removed becomes (a :: as) as'
  | becomes {a a' : A} {as as' : List A} : becomes a a' ->
      Aligned removed becomes as as' ->
      Aligned removed becomes (a :: as) (a' :: as')

/-- The condition that is left, which is assumed when candidates guard it. -/
structure Left (condition condition' : Expr) (free free' : Bool) : Prop where
  guards : forall c, Guards p c condition -> assignment c = true
  meaning : Equivalent condition' (assigned p assignment condition)
  free_iff : free' = true <-> free = true ∨ exists c, Guards p c condition

def RequiresLeft (r r' : Requires) : Prop :=
  Left p assignment r.condition r'.condition r.free r'.free

def EnsuresLeft (e e' : Ensures) : Prop :=
  Left p assignment e.condition e'.condition e.free e'.free

inductive CmdLeft : Cmd -> Cmd -> Prop where
  | checked {ac ac' : AssertCmd} :
      Left p assignment ac.expr ac'.expr false false ->
      CmdLeft (.assertCmd ac) (.assertCmd ac')
  | assumed {ac : AssertCmd} {ac' : AssumeCmd} :
      Left p assignment ac.expr ac'.expr false true ->
      CmdLeft (.assertCmd ac) (.assumeCmd ac')
  | assume {ac ac' : AssumeCmd} :
      Equivalent ac'.expr (assigned p assignment ac.expr) ->
      CmdLeft (.assumeCmd ac) (.assumeCmd ac')
  | other {cmd : Cmd} : cmd.predicate = none -> CmdLeft cmd cmd

def CmdRemoved (cmd : Cmd) : Prop :=
  exists condition, cmd.predicate = some condition ∧
    Removed p assignment condition

structure BlockApplied (b b' : Block) : Prop where
  uniqueId : b'.uniqueId = b.uniqueId
  label : b'.label = b.label
  transferCmd : b'.transferCmd = b.transferCmd
  cmds : Aligned (CmdRemoved p assignment) (CmdLeft p assignment) b.cmds b'.cmds

structure ImplementationApplied (impl impl' : Implementation) : Prop where
  uniqueId : impl'.uniqueId = impl.uniqueId
  name : impl'.name = impl.name
  skipVerification : impl'.skipVerification = impl.skipVerification
  blocks : List.Forall₂ (BlockApplied p assignment) impl.blocks impl'.blocks

structure ProcedureApplied (proc proc' : Procedure) : Prop where
  name : proc'.name = proc.name
  requires : Aligned (fun r => Removed p assignment r.condition)
    (RequiresLeft p assignment) proc.requires proc'.requires
  ensures : Aligned (fun e => Removed p assignment e.condition)
    (EnsuresLeft p assignment) proc.ensures proc'.ensures

/-- The candidates are gone and the annotations have their values. -/
structure Applied (prog' : Program) : Prop where
  clean : forall e site, prog'.Annotates e site ->
    forall c, c ∈ p.houdiniConstants -> ¬ e.Mentions c
  constants : forall v, v ∈ prog'.constants.map Constant.variable <->
    v ∈ prog.constants.map Constant.variable ∧ v ∉ p.houdiniConstants
  procedures : List.Forall₂ (ProcedureApplied p assignment) prog.procedures
    prog'.procedures
  implementations : List.Forall₂ (ImplementationApplied p assignment)
    prog.implementations prog'.implementations

/-- `prog` is a resolved program that declares the candidates of `p`. -/
structure Declares : Prop where
  declared : forall c, c ∈ p.houdiniConstants ->
    c ∈ prog.constants.map Constant.variable
  names : (prog.constants.map (fun c => c.variable.name)).Nodup
  resolved : forall e site, prog.Annotates e site -> p.Resolves e

/-- The condition of a precondition, a postcondition or an assertion. -/
inductive Checked (e : Expr) : Prop where
  | requires {proc : Procedure} {r : Requires} : proc ∈ prog.procedures ->
      r ∈ proc.requires -> r.condition = e -> Checked e
  | ensures {proc : Procedure} {r : Ensures} : proc ∈ prog.procedures ->
      r ∈ proc.ensures -> r.condition = e -> Checked e
  | assert {impl : Implementation} {b : Block} {ac : AssertCmd} :
      impl ∈ prog.implementations -> b ∈ impl.blocks ->
      .assertCmd ac ∈ b.cmds -> ac.expr = e -> Checked e

inductive Assumed (e : Expr) : Prop where
  | assume {impl : Implementation} {b : Block} {ac : AssumeCmd} :
      impl ∈ prog.implementations -> b ∈ impl.blocks ->
      .assumeCmd ac ∈ b.cmds -> ac.expr = e -> Assumed e

/--
No assumption mentions a candidate, and a condition that mentions candidates is
guarded by one that is false or that is the only one.
-/
structure GuardedByOne : Prop where
  assumed : forall e, Assumed prog e -> forall c, c ∈ p.houdiniConstants ->
    ¬ e.Mentions c
  checked : forall e, Checked prog e -> forall c, c ∈ p.houdiniConstants ->
    e.Mentions c -> exists g, p.matchCandidate e = some g ∧
      (assignment g = true -> c = g)

end Specification

end Houdini

end Boogie
