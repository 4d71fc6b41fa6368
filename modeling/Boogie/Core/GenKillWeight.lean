import Mathlib.Data.Finset.Basic
import Mathlib.Data.Finset.SDiff
import Boogie.Core.Cmd

/-!
# Weights of the live variable analysis

A weight stands for the function that removes one set of variables from the live
ones and adds another.  Sets are objects here: two of them are equal when they are
the same object.
-/

namespace Boogie

namespace InterProcGenKill

open VariableCollector (usedVars allUsedVars oldVarsUsed)

/-!
# Sets and weights
-/

structure HashSet where
  id : Nat
  elements : Finset Variable

/-- `Equals` is not overridden. -/
def HashSet.equals (s t : HashSet) : Bool :=
  decide (s.id = t.id)

structure GenKillWeight where
  gen : HashSet
  kill : HashSet
  isZero : Bool
  zero_empty : isZero = true -> gen.elements = ∅ ∧ kill.elements = ∅

namespace GenKillWeight

def one : GenKillWeight where
  gen := ⟨0, ∅⟩
  kill := ⟨1, ∅⟩
  isZero := false
  zero_empty := fun _ => ⟨rfl, rfl⟩

def zero : GenKillWeight where
  gen := ⟨2, ∅⟩
  kill := ⟨3, ∅⟩
  isZero := true
  zero_empty := fun _ => ⟨rfl, rfl⟩

def ofSets (next : Nat) (gen kill : Finset Variable) : GenKillWeight where
  gen := ⟨next, gen⟩
  kill := ⟨next + 1, kill⟩
  isZero := false
  zero_empty := fun h => nomatch h

def Allocated (w : GenKillWeight) (next : Nat) : Prop :=
  w.gen.id < next ∧ w.kill.id < next

def isEqual (w1 w2 : GenKillWeight) : Bool :=
  if w1.isZero then w2.isZero
  else if w2.isZero then w1.isZero
  else w1.gen.equals w2.gen && w1.kill.equals w2.kill

def getLiveVars (w : GenKillWeight) (lv : Finset Variable) : Finset Variable :=
  (lv \ w.kill.elements) ∪ w.gen.elements

end GenKillWeight

/-!
# Allocation
-/

/-- The next object, and the table of weights after calls, which outlives an
analysis.  Its keys are call commands. -/
structure Memo where
  next : Nat
  weightCacheAfterCall : Nat -> Option GenKillWeight
  four_le : 4 ≤ next
  stored : forall c w, weightCacheAfterCall c = some w ->
    w.isZero = false ∧ w.Allocated next

/-- Nothing has been stored, and there are only the four sets of `one` and `zero`. -/
def Memo.empty : Memo where
  next := 4
  weightCacheAfterCall := fun _ => none
  four_le := le_refl 4
  stored := fun _ _ h => nomatch h

/-- `new GenKillWeight(gen, kill)` with new sets. -/
def newWeight (gen kill : Finset Variable) : StateM Memo GenKillWeight := fun m =>
  (GenKillWeight.ofSets m.next gen kill,
    { m with
      next := m.next + 2
      four_le := Nat.le_add_right_of_le m.four_le
      stored := fun c w h =>
        ⟨(m.stored c w h).1, Nat.lt_add_right 2 (m.stored c w h).2.1,
          Nat.lt_add_right 2 (m.stored c w h).2.2⟩ })

def storeWeight (c : Nat) (gen kill : Finset Variable) : StateM Memo GenKillWeight :=
  fun m =>
    (GenKillWeight.ofSets m.next gen kill,
      { next := m.next + 2
        weightCacheAfterCall := Function.update m.weightCacheAfterCall c
          (some (GenKillWeight.ofSets m.next gen kill))
        four_le := Nat.le_add_right_of_le m.four_le
        stored := by
          intro c' w h
          by_cases heq : c' = c
          · subst heq
            rw [Function.update_self] at h
            cases h
            exact ⟨rfl, Nat.lt_add_of_pos_right (by decide),
              Nat.lt_succ_self _⟩
          · rw [Function.update_of_ne heq] at h
            exact ⟨(m.stored c' w h).1, Nat.lt_add_right 2 (m.stored c' w h).2.1,
              Nat.lt_add_right 2 (m.stored c' w h).2.2⟩ })

namespace GenKillWeight

def extend (w1 w2 : GenKillWeight) : StateM Memo GenKillWeight :=
  if w1.isZero || w2.isZero then pure zero
  else
    newWeight (w1.gen.elements ∪ (w2.gen.elements \ w1.kill.elements))
      (w1.kill.elements ∪ w2.kill.elements)

def combine (w1 w2 : GenKillWeight) : StateM Memo GenKillWeight :=
  if w1.isZero then pure w2
  else if w2.isZero then pure w1
  else
    newWeight (w1.gen.elements ∪ w2.gen.elements)
      (w1.kill.elements ∩ w2.kill.elements)

def projectLocals (w : GenKillWeight) : StateM Memo GenKillWeight :=
  newWeight (w.gen.elements.filter (fun v => v.isGlobal))
    (w.kill.elements.filter (fun v => v.isGlobal))

end GenKillWeight

/-!
# Commands

They are not those of `Boogie.Cmd`, in which a call is its meaning: here a call keeps
its desugaring, by which the calls of procedures outside the analysis are weighed,
and the commands of a state command are inside of it.
-/

/-- `uniqueId` tells a call command from others. -/
structure CallCmd (ProcName : Type) where
  uniqueId : Nat
  proc : ProcName
  ins : List Expr
  outs : List Variable

inductive Cmd (ProcName : Type) where
  | assign (lhss : List AssignLhs) (rhss : List Expr)
  | havoc (vars : List Variable)
  | predicate (expr : Expr)
  | comment
  | call (c : CallCmd ProcName) (desugaring : Cmd ProcName)
  | state (locals : List Variable) (cmds : List (Cmd ProcName))

/-- What the weight of a failing assumption kills. -/
structure Scope where
  globals : List Variable
  locVars : List Variable
  outParams : List Variable

def simpleTargets (lhss : List AssignLhs) : List Variable :=
  lhss.filterMap (fun lhs =>
    match lhs with
    | .simpleAssignLhs x => some x
    | .mapAssignLhs _ _ => none)

def assignGen (lhss : List AssignLhs) (rhss : List Expr) : List Variable :=
  (lhss.zip rhss).flatMap (fun p =>
    usedVars p.2 ++
      match p.1 with
      | .simpleAssignLhs _ => []
      | .mapAssignLhs _ indexes => allUsedVars indexes)

section Weights

variable {ProcName : Type}

mutual

/-- The table of these weights is left out; they depend on the command and the
scope only. -/
def getWeight (scope : Scope) : Cmd ProcName -> StateM Memo GenKillWeight
  | .assign lhss rhss =>
    newWeight (assignGen lhss rhss).toFinset (simpleTargets lhss).toFinset
  | .havoc vars => newWeight ∅ vars.toFinset
  | .predicate expr =>
    match expr with
    | .literal l =>
      newWeight ∅
        (if l = .bool false then
          (scope.globals ++ scope.locVars ++ scope.outParams).toFinset
        else ∅)
    | e => newWeight (usedVars e).toFinset ∅
  | .comment => newWeight ∅ ∅
  | .call _ desugaring => getWeight scope desugaring
  | .state locals cmds => do
      let ret ← getWeightCmds scope cmds
      let w ← newWeight ∅ locals.toFinset
      GenKillWeight.extend w ret

/-- The loop over the commands of a state command, from the last one. -/
def getWeightCmds (scope : Scope) :
    List (Cmd ProcName) -> StateM Memo GenKillWeight
  | [] => pure GenKillWeight.one
  | c :: cmds => do
      let ret ← getWeightCmds scope cmds
      let w ← getWeight scope c
      GenKillWeight.extend w ret

end

end Weights

/-!
# Calls
-/

structure Procedure where
  requires : List Expr
  ensures : List Expr

section Calls

variable {ProcName : Type}

def globalsOf (vars : List Variable) : List Variable :=
  vars.filter (fun v => v.isGlobal)

def beforeCallGen (p : Procedure) (c : CallCmd ProcName) : List Variable :=
  allUsedVars c.ins ++
    globalsOf (p.requires.flatMap usedVars) ++
    globalsOf (p.ensures.flatMap (oldVarsUsed false))

def afterCallGen (p : Procedure) : List Variable :=
  globalsOf (p.ensures.flatMap usedVars)

def getWeightBeforeCall (p : Procedure) (c : CallCmd ProcName) :
    StateM Memo GenKillWeight :=
  storeWeight c.uniqueId (beforeCallGen p c).toFinset ∅

def getWeightAfterCall (p : Procedure) (c : CallCmd ProcName) :
    StateM Memo GenKillWeight := fun m =>
  match m.weightCacheAfterCall c.uniqueId with
  | some w => (w, m)
  | none => storeWeight c.uniqueId (afterCallGen p).toFinset c.outs.toFinset m

/-- `summary` is the one of the callee so far. -/
def getWeightCall (p : Procedure) (summary : GenKillWeight) (c : CallCmd ProcName) :
    StateM Memo GenKillWeight := do
  let w1 ← getWeightBeforeCall p c
  let w2 ← GenKillWeight.projectLocals summary
  let w3 ← getWeightAfterCall p c
  let w ← GenKillWeight.extend w2 w3
  GenKillWeight.extend w1 w

end Calls

end InterProcGenKill
end Boogie
