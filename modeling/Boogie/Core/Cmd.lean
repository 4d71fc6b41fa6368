import Boogie.Core.Expr

/-!
# Commands, blocks and their executions
-/

namespace Boogie

/-!
# Attributes

An attribute chain is a list here.  A lookup skips the entries whose parameters
have another shape than the one asked for.
-/

inductive QKeyValue.Param where
  | string (s : String)
  | expr (e : Expr)
deriving DecidableEq, Repr

structure QKeyValue where
  key : String
  params : List QKeyValue.Param
deriving DecidableEq, Repr

namespace QKeyValue

def findStringAttribute : List QKeyValue -> String -> Option String
  | [], _ => none
  | kv :: next, name =>
    if kv.key = name then
      match kv.params with
      | [.string s] => some s
      | _ => findStringAttribute next name
    else findStringAttribute next name

def findExprAttribute : List QKeyValue -> String -> Option Expr
  | [], _ => none
  | kv :: next, name =>
    if kv.key = name then
      match kv.params with
      | [.expr e] => some e
      | _ => findExprAttribute next name
    else findExprAttribute next name

def findIntAttribute (kv : List QKeyValue) (name : String) (defl : Int) :
    Int :=
  match findExprAttribute kv name with
  | some (.literal (.int n)) => n
  | _ => defl

def findAttribute (kv : List QKeyValue) (name : String) : Option QKeyValue :=
  kv.reverse.find? (fun entry => entry.key = name)

def checkBooleanAttribute (kv : List QKeyValue) (name : String) :
    Option Bool :=
  match findAttribute kv name with
  | some entry =>
    match entry.params with
    | [] => some true
    | [.expr (.literal (.bool b))] => some b
    | _ => none
  | none => none

end QKeyValue

/-!
# Commands
-/

inductive AssertKind where
  | assertCmd
  | assertRequiresCmd (callee : String) (condition : Expr)
  | assertEnsuresCmd (condition : Expr)
  | loopInitAssertCmd
  | loopInvMaintainedAssertCmd
deriving DecidableEq, Repr

/-- `origExpr` is set when the command is made passive. -/
structure AssertCmd where
  uniqueId : Nat
  expr : Expr
  attributes : List QKeyValue
  kind : AssertKind
  origExpr : Option Expr
deriving DecidableEq, Repr

structure AssumeCmd where
  uniqueId : Nat
  expr : Expr
  attributes : List QKeyValue
deriving DecidableEq, Repr

inductive AssignLhs where
  | simpleAssignLhs (assignedVariable : Variable)
  | mapAssignLhs (map : AssignLhs) (indexes : List Expr)
deriving DecidableEq, Repr

namespace AssignLhs

def deepAssignedVariable : AssignLhs -> Variable
  | simpleAssignLhs x => x
  | mapAssignLhs map _ => map.deepAssignedVariable

def asExpr : AssignLhs -> Expr
  | simpleAssignLhs x => .ident x
  | mapAssignLhs map indexes => .nary .mapSelect (map.asExpr :: indexes)

end AssignLhs

structure CallCmd where
  callee : String
  ins : List Expr
  outs : List Variable
deriving DecidableEq, Repr

inductive Cmd where
  | assertCmd (c : AssertCmd)
  | assumeCmd (c : AssumeCmd)
  | assignCmd (lhss : List AssignLhs) (rhss : List Expr)
  | havocCmd (vars : List Variable)
  | callCmd (c : CallCmd)
  | commentCmd (comment : String)
deriving DecidableEq, Repr

namespace Cmd

/-- The condition of an assertion or an assumption, a `PredicateCmd`. -/
def predicate : Cmd -> Option Expr
  | assertCmd c => some c.expr
  | assumeCmd c => some c.expr
  | _ => none

end Cmd

/-!
# Blocks

A block is the object with its unique identifier, so jump targets and
predecessors are lists of identifiers.
-/

inductive TransferCmd where
  | gotoCmd (labelTargets : List Nat)
  | returnCmd
  | returnExprCmd (e : Expr)
deriving DecidableEq, Repr

structure Block where
  uniqueId : Nat
  label : String
  cmds : List Cmd
  transferCmd : TransferCmd
deriving DecidableEq, Repr

def TransferCmd.labelTargets : TransferCmd -> List Nat
  | gotoCmd targets => targets
  | _ => []

def Block.labelTargets (b : Block) : List Nat :=
  b.transferCmd.labelTargets

def Jumps (blocks : List Block) (source target : Nat) : Prop :=
  exists b, b ∈ blocks ∧ b.uniqueId = source ∧ target ∈ b.labelTargets

def Acyclic (blocks : List Block) : Prop :=
  forall b, ¬ Relation.TransGen (Jumps blocks) b b

/-!
# Executions

An assertion never stops an execution: it is the executions in which some
assertion is found false that matter.  The meaning of calls is a parameter.
-/

structure Context (U : Type) where
  interp : Interp U
  oldState : Env U
  whereExpr : Variable -> Option Expr
  call : CallCmd -> Env U -> Env U -> Prop
  callFails : CallCmd -> Env U -> Prop

section Semantics

variable {U : Type} [DecidableEq U]

def Context.Holds (C : Context U) (ρ : Env U) (e : Expr) : Prop :=
  e.Holds C.interp C.oldState ρ

/-- Calls have no transitions and never fail. -/
def Context.withoutCalls (I : Interp U) (ρ₀ : Env U) : Context U where
  interp := I
  oldState := ρ₀
  whereExpr := fun _ => none
  call := fun _ _ _ => False
  callFails := fun _ _ => False

noncomputable def Context.value (C : Context U) (ρ : Env U) (e : Expr) : Value U :=
  e.eval C.interp C.oldState ρ

noncomputable def AssignLhs.stored (C : Context U) (ρ : Env U) :
    AssignLhs -> Value U -> Value U
  | simpleAssignLhs _, v => v
  | mapAssignLhs map indexes, v =>
    map.stored C ρ
      (C.interp.store
        (C.value ρ map.asExpr :: (indexes.map (C.value ρ) ++ [v])))

noncomputable def assigned (C : Context U) (ρ : Env U) :
    List AssignLhs -> List Expr -> Env U -> Env U
  | lhs :: lhss, rhs :: rhss, ρ' =>
    assigned C ρ lhss rhss
      (Function.update ρ' lhs.deepAssignedVariable
        (lhs.stored C ρ (C.value ρ rhs)))
  | _, _, ρ' => ρ'

inductive CmdStep (C : Context U) : Cmd -> Env U -> Env U -> Prop where
  | assert (c : AssertCmd) (ρ : Env U) : CmdStep C (.assertCmd c) ρ ρ
  | assume (c : AssumeCmd) (ρ : Env U) :
      C.Holds ρ c.expr -> CmdStep C (.assumeCmd c) ρ ρ
  | assign (lhss : List AssignLhs) (rhss : List Expr) (ρ : Env U) :
      CmdStep C (.assignCmd lhss rhss) ρ (assigned C ρ lhss rhss ρ)
  | havoc (vars : List Variable) (ρ ρ' : Env U) :
      ρ'.Rebinds C.interp ρ vars ->
      (forall x, x ∈ vars -> forall e, C.whereExpr x = some e ->
        C.Holds ρ' e) ->
      CmdStep C (.havocCmd vars) ρ ρ'
  | call (c : CallCmd) (ρ ρ' : Env U) :
      C.call c ρ ρ' -> CmdStep C (.callCmd c) ρ ρ'
  | comment (s : String) (ρ : Env U) : CmdStep C (.commentCmd s) ρ ρ

def CmdFails (C : Context U) (ρ : Env U) : Cmd -> Prop
  | .assertCmd c => ¬ C.Holds ρ c.expr
  | .callCmd c => C.callFails c ρ
  | _ => False

inductive CmdsRun (C : Context U) : List Cmd -> Env U -> Env U -> Prop where
  | nil (ρ : Env U) : CmdsRun C [] ρ ρ
  | cons {c : Cmd} {cs : List Cmd} {ρ₁ ρ₂ ρ₃ : Env U} :
      CmdStep C c ρ₁ ρ₂ -> CmdsRun C cs ρ₂ ρ₃ -> CmdsRun C (c :: cs) ρ₁ ρ₃

inductive CmdsFail (C : Context U) : List Cmd -> Env U -> Prop where
  | here {c : Cmd} {cs : List Cmd} {ρ : Env U} :
      CmdFails C ρ c -> CmdsFail C (c :: cs) ρ
  | later {c : Cmd} {cs : List Cmd} {ρ₁ ρ₂ : Env U} :
      CmdStep C c ρ₁ ρ₂ -> CmdsFail C cs ρ₂ -> CmdsFail C (c :: cs) ρ₁

/-- Some execution from the start of a block finds an assertion false. -/
inductive Wrong (C : Context U) (blocks : List Block) :
    Nat -> Env U -> Prop where
  | cmds {b : Block} {ρ : Env U} :
      b ∈ blocks -> CmdsFail C b.cmds ρ -> Wrong C blocks b.uniqueId ρ
  | jump {b : Block} {target : Nat} {ρ₁ ρ₂ : Env U} :
      b ∈ blocks -> CmdsRun C b.cmds ρ₁ ρ₂ -> target ∈ b.labelTargets ->
      Wrong C blocks target ρ₂ -> Wrong C blocks b.uniqueId ρ₁

/-- No execution from the start of a block finds an assertion false. -/
def Safe (C : Context U) (blocks : List Block) (start : Nat) (ρ : Env U) :
    Prop :=
  ¬ Wrong C blocks start ρ

theorem Wrong.cases_block
    {C : Context U} {blocks : List Block} {id : Nat} {ρ : Env U} (h : Wrong C blocks id ρ) :
    exists b, b ∈ blocks ∧ b.uniqueId = id ∧ (CmdsFail C b.cmds ρ ∨
        exists target ρ', CmdsRun C b.cmds ρ ρ' ∧ target ∈ b.labelTargets ∧
          Wrong C blocks target ρ') := by
  induction h with
  | cmds hb hfail => exact ⟨_, hb, rfl, Or.inl hfail⟩
  | jump hb hrun ht hrest _ =>
    exact ⟨_, hb, rfl, Or.inr ⟨_, _, hrun, ht, hrest⟩⟩

theorem CmdsRun.append
    {C : Context U} {cs ds : List Cmd} {ρ₁ ρ₂ ρ₃ : Env U}
    (hfirst : CmdsRun C cs ρ₁ ρ₂) (hsecond : CmdsRun C ds ρ₂ ρ₃) :
    CmdsRun C (cs ++ ds) ρ₁ ρ₃ := by
  induction hfirst with
  | nil ρ => exact hsecond
  | cons hstep _ ih => exact CmdsRun.cons hstep (ih hsecond)

theorem cmdsRun_append
    {C : Context U} {cs ds : List Cmd} {ρ₁ ρ₃ : Env U} :
    CmdsRun C (cs ++ ds) ρ₁ ρ₃ <-> exists ρ₂, CmdsRun C cs ρ₁ ρ₂ ∧ CmdsRun C ds ρ₂ ρ₃ := by
  constructor
  · intro h
    induction cs generalizing ρ₁ with
    | nil => exact ⟨ρ₁, CmdsRun.nil ρ₁, h⟩
    | cons c cs ih =>
      cases h with
      | cons hstep hrest =>
        rcases ih hrest with ⟨ρ₂, hcs, hds⟩
        exact ⟨ρ₂, CmdsRun.cons hstep hcs, hds⟩
  · rintro ⟨ρ₂, hcs, hds⟩
    exact hcs.append hds

theorem cmdsFail_append
    {C : Context U} {cs ds : List Cmd} {ρ : Env U} :
    CmdsFail C (cs ++ ds) ρ <->
      CmdsFail C cs ρ ∨ exists ρ', CmdsRun C cs ρ ρ' ∧ CmdsFail C ds ρ' := by
  constructor
  · intro h
    induction cs generalizing ρ with
    | nil => exact Or.inr ⟨ρ, CmdsRun.nil ρ, h⟩
    | cons c cs ih =>
      cases h with
      | here hfail => exact Or.inl (CmdsFail.here hfail)
      | later hstep hrest =>
        rcases ih hrest with hcs | ⟨ρ', hrun, hds⟩
        · exact Or.inl (CmdsFail.later hstep hcs)
        · exact Or.inr ⟨ρ', CmdsRun.cons hstep hrun, hds⟩
  · intro h
    induction cs generalizing ρ with
    | nil =>
      rcases h with hcs | ⟨ρ', hrun, hds⟩
      · cases hcs
      · cases hrun
        exact hds
    | cons c cs ih =>
      rcases h with hcs | ⟨ρ', hrun, hds⟩
      · cases hcs with
        | here hfail => exact CmdsFail.here hfail
        | later hstep hrest =>
          exact CmdsFail.later hstep (ih (Or.inl hrest))
      · cases hrun with
        | cons hstep hrest =>
          exact CmdsFail.later hstep (ih (Or.inr ⟨ρ', hrest, hds⟩))

end Semantics

end Boogie
