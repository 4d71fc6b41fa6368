import Boogie.Core.GenKillAllocation
import Boogie.Foundation.GenKill

/-!
# Values of weights

The value of a weight forgets its objects.  The values of commands are those of
paths, except for calls: the table of weights after calls has the weight before the
call, so that the variables of the postconditions are not read and the outputs are
not overwritten.
-/

namespace Boogie
namespace InterProcGenKill

open GenKill (Effect Weight readFirst readAnywhere overwritten ofPath)
open VariableCollector (usedVars allUsedVars)

/-!
# Operations
-/

namespace GenKillWeight

def value (w : GenKillWeight) : Weight Variable :=
  if w.isZero then ⊥ else GenKill.weight w.gen.elements w.kill.elements

theorem value_of_isZero {w : GenKillWeight} (h : w.isZero = true) : w.value = ⊥ :=
  if_pos h

theorem value_of_not_isZero {w : GenKillWeight} (h : w.isZero = false) :
    w.value = GenKill.weight w.gen.elements w.kill.elements := by
  rw [value, h]
  rfl

theorem value_gen (w : GenKillWeight) : Weight.gen w.value = w.gen.elements := by
  cases h : w.isZero with
  | true =>
    rw [value_of_isZero h, (w.zero_empty h).1]
    rfl
  | false =>
    rw [value_of_not_isZero h]
    rfl

theorem value_kill (w : GenKillWeight) : Weight.kill w.value = w.kill.elements := by
  cases h : w.isZero with
  | true =>
    rw [value_of_isZero h, (w.zero_empty h).2]
    rfl
  | false =>
    rw [value_of_not_isZero h]
    rfl

theorem value_eq_bot {w : GenKillWeight} : w.value = ⊥ <-> w.isZero = true := by
  cases h : w.isZero with
  | true => exact iff_of_true (value_of_isZero h) rfl
  | false =>
    rw [value_of_not_isZero h]
    exact iff_of_false WithBot.coe_ne_bot Bool.false_ne_true

theorem extend_value (w1 w2 : GenKillWeight) (m : Memo) :
    (extend w1 w2 m).1.value = GenKill.extend w1.value w2.value := by
  unfold extend
  cases h1 : w1.isZero with
  | true =>
    rw [value_of_isZero h1, GenKill.bot_extend]
    rfl
  | false =>
    cases h2 : w2.isZero with
    | true =>
      rw [value_of_isZero h2, GenKill.extend_bot]
      rfl
    | false =>
      rw [value_of_not_isZero h1, value_of_not_isZero h2, GenKill.extend_weight]
      rfl

theorem combine_value (w1 w2 : GenKillWeight) (m : Memo) :
    (combine w1 w2 m).1.value = w1.value ⊔ w2.value := by
  unfold combine
  cases h1 : w1.isZero with
  | true =>
    rw [value_of_isZero h1, bot_sup_eq]
    rfl
  | false =>
    cases h2 : w2.isZero with
    | true =>
      rw [value_of_isZero h2, sup_bot_eq]
      rfl
    | false =>
      rw [value_of_not_isZero h1, value_of_not_isZero h2, GenKill.weight_sup_weight]
      rfl

end GenKillWeight

/-!
# Commands
-/

inductive Reads where
  | all
  | counted

def allIndexes : AssignLhs -> List Expr
  | .simpleAssignLhs _ => []
  | .mapAssignLhs map indexes => allIndexes map ++ indexes

def assignReads (lhss : List AssignLhs) (rhss : List Expr) : List Variable :=
  (lhss.zip rhss).flatMap (fun p => usedVars p.2 ++ allUsedVars (allIndexes p.1))

theorem allUsedVars_append (es es' : List Expr) :
    allUsedVars (es ++ es') = allUsedVars es ++ allUsedVars es' := by
  induction es with
  | nil => rfl
  | cons e es ih => rw [List.cons_append, allUsedVars, ih, allUsedVars, List.append_assoc]

theorem assignGen_subset (lhss : List AssignLhs) (rhss : List Expr) :
    (assignGen lhss rhss).toFinset ⊆ (assignReads lhss rhss).toFinset := by
  intro v hv
  rw [List.mem_toFinset] at hv ⊢
  rcases List.mem_flatMap.mp hv with ⟨⟨lhs, e⟩, hpair, hv⟩
  refine List.mem_flatMap.mpr ⟨⟨lhs, e⟩, hpair, ?_⟩
  rcases List.mem_append.mp hv with hv | hv
  · exact List.mem_append_left _ hv
  · cases lhs with
    | simpleAssignLhs x => exact absurd hv List.not_mem_nil
    | mapAssignLhs map indexes =>
      apply List.mem_append_right
      rw [allIndexes, allUsedVars_append]
      exact List.mem_append_right _ hv

section Commands

variable {ProcName : Type}

mutual

def effects (r : Reads) (scope : Scope) : Cmd ProcName -> List (Effect Variable)
  | .assign lhss rhss =>
    [⟨match r with
      | .all => (assignReads lhss rhss).toFinset
      | .counted => (assignGen lhss rhss).toFinset, (simpleTargets lhss).toFinset⟩]
  | .havoc vars => [⟨∅, vars.toFinset⟩]
  | .predicate expr =>
    match expr with
    | .literal l =>
      [⟨∅, if l = .bool false then
          (scope.globals ++ scope.locVars ++ scope.outParams).toFinset
        else ∅⟩]
    | e => [⟨(usedVars e).toFinset, ∅⟩]
  | .comment => []
  | .call _ desugaring => effects r scope desugaring
  | .state locals cmds => ⟨∅, locals.toFinset⟩ :: allEffects r scope cmds

def allEffects (r : Reads) (scope : Scope) :
    List (Cmd ProcName) -> List (Effect Variable)
  | [] => []
  | c :: cmds => effects r scope c ++ allEffects r scope cmds

end

mutual

theorem getWeight_value (scope : Scope) (m : Memo) :
    (c : Cmd ProcName) -> (getWeight scope c m).1.value = ofPath (effects .counted scope c)
  | .assign _ _ => by
    rw [effects, GenKill.ofPath_single]
    rfl
  | .havoc _ => by
    rw [effects, GenKill.ofPath_single]
    rfl
  | .predicate (.literal _) => by
    rw [effects, GenKill.ofPath_single]
    rfl
  | .predicate (.ident _) => (GenKill.ofPath_single ⟨(usedVars _).toFinset, ∅⟩).symm
  | .predicate (.old _) => (GenKill.ofPath_single ⟨(usedVars _).toFinset, ∅⟩).symm
  | .predicate (.nary _ _) => (GenKill.ofPath_single ⟨(usedVars _).toFinset, ∅⟩).symm
  | .predicate (.quantifier _ _ _) => (GenKill.ofPath_single ⟨(usedVars _).toFinset, ∅⟩).symm
  | .comment => rfl
  | .call _ desugaring => getWeight_value scope m desugaring
  | .state locals cmds => by
    rw [effects, ← List.singleton_append, GenKill.ofPath_append, GenKill.ofPath_single,
      ← getWeightCmds_value scope m cmds]
    exact GenKillWeight.extend_value _ _ _

theorem getWeightCmds_value (scope : Scope) (m : Memo) :
    (cmds : List (Cmd ProcName)) ->
      (getWeightCmds scope cmds m).1.value = ofPath (allEffects .counted scope cmds)
  | [] => rfl
  | c :: cmds => by
    rw [allEffects, GenKill.ofPath_append, ← getWeightCmds_value scope m cmds,
      ← getWeight_value scope (getWeightCmds scope cmds m).2 c]
    exact GenKillWeight.extend_value _ _ _

end

mutual

theorem overwritten_effects (scope : Scope) : (c : Cmd ProcName) ->
    overwritten (effects .counted scope c) = overwritten (effects .all scope c)
  | .assign _ _ => by rw [effects, effects]; rfl
  | .havoc _ => by rw [effects, effects]
  | .predicate (.literal _) => by rw [effects, effects]
  | .predicate (.ident _) => rfl
  | .predicate (.old _) => rfl
  | .predicate (.nary _ _) => rfl
  | .predicate (.quantifier _ _ _) => rfl
  | .comment => by rw [effects, effects]
  | .call _ desugaring => by
    rw [effects, effects]
    exact overwritten_effects scope desugaring
  | .state _ cmds => by
    rw [effects, effects, overwritten, overwritten, overwritten_allEffects scope cmds]

theorem overwritten_allEffects (scope : Scope) : (cmds : List (Cmd ProcName)) ->
    overwritten (allEffects .counted scope cmds) = overwritten (allEffects .all scope cmds)
  | [] => by rw [allEffects, allEffects]
  | c :: cmds => by
    rw [allEffects, allEffects, GenKill.overwritten_append,
      GenKill.overwritten_append, overwritten_effects scope c,
      overwritten_allEffects scope cmds]

end

mutual

theorem readAnywhere_effects (scope : Scope) : (c : Cmd ProcName) ->
    readAnywhere (effects .counted scope c) ⊆ readAnywhere (effects .all scope c)
  | .assign lhss rhss => by
    rw [effects, effects]
    exact Finset.union_subset_union (assignGen_subset lhss rhss) (Finset.Subset.refl _)
  | .havoc _ => by rw [effects, effects]
  | .predicate (.literal _) => by rw [effects, effects]
  | .predicate (.ident _) => Finset.Subset.refl _
  | .predicate (.old _) => Finset.Subset.refl _
  | .predicate (.nary _ _) => Finset.Subset.refl _
  | .predicate (.quantifier _ _ _) => Finset.Subset.refl _
  | .comment => by rw [effects, effects]
  | .call _ desugaring => by
    rw [effects, effects]
    exact readAnywhere_effects scope desugaring
  | .state _ cmds => by
    rw [effects, effects]
    exact Finset.union_subset_union (Finset.Subset.refl _)
      (readAnywhere_allEffects scope cmds)

theorem readAnywhere_allEffects (scope : Scope) : (cmds : List (Cmd ProcName)) ->
    readAnywhere (allEffects .counted scope cmds) ⊆ readAnywhere (allEffects .all scope cmds)
  | [] => by rw [allEffects, allEffects]
  | c :: cmds => by
    rw [allEffects, allEffects, GenKill.readAnywhere_append,
      GenKill.readAnywhere_append]
    exact Finset.union_subset_union (readAnywhere_effects scope c)
      (readAnywhere_allEffects scope cmds)

end

/-!
# Calls
-/

def callEffects (r : Reads) (p : Procedure) (c : CallCmd ProcName)
    (t : List (Effect Variable)) : List (Effect Variable) :=
  ⟨(beforeCallGen p c).toFinset, ∅⟩ :: t.map (Effect.filter (fun v => v.isGlobal)) ++
    [⟨match r with
      | .all => (afterCallGen p).toFinset
      | .counted => ∅, c.outs.toFinset⟩]

theorem overwritten_callEffects (r : Reads) (p : Procedure) (c : CallCmd ProcName)
    (t : List (Effect Variable)) : overwritten (callEffects r p c t) =
      (overwritten t).filter (fun v => v.isGlobal) ∪ c.outs.toFinset := by
  simp only [callEffects, List.cons_append, overwritten, GenKill.overwritten_append,
    GenKill.overwritten_filter, Finset.empty_union, Finset.union_empty]

def callValue (p : Procedure) (summary : Weight Variable) (c : CallCmd ProcName) :
    Weight Variable :=
  GenKill.weight
    ((beforeCallGen p c).toFinset ∪ (Weight.gen summary).filter (fun v => v.isGlobal))
    ((Weight.kill summary).filter (fun v => v.isGlobal))

theorem ofPath_callEffects_le {t : List (Effect Variable)} {w : Weight Variable}
    (h : ofPath t ≤ w) (p : Procedure) (c : CallCmd ProcName) :
    ofPath (callEffects .counted p c t) ≤ callValue p w c := by
  rcases GenKill.eq_bot_or_weight w with rfl | ⟨gen, kill, rfl⟩
  · exact absurd h GenKill.not_weight_le_bot
  · rcases GenKill.weight_le_weight.mp h with ⟨hgen, hkill⟩
    refine GenKill.weight_le_weight.mpr ⟨?_, ?_⟩
    · simp only [callEffects, List.cons_append, readFirst, GenKill.readFirst_append,
        GenKill.readFirst_filter, Finset.empty_sdiff, Finset.union_empty,
        Finset.sdiff_empty]
      exact Finset.union_subset_union (Finset.Subset.refl _)
        (Finset.filter_subset_filter _ hgen)
    · rw [overwritten_callEffects]
      exact (Finset.filter_subset_filter _ hkill).trans Finset.subset_union_left

theorem getWeightBeforeCall_value (p : Procedure) (c : CallCmd ProcName)
    (m : Memo) : (getWeightBeforeCall p c m).1.value =
      GenKill.weight (beforeCallGen p c).toFinset ∅ :=
  rfl

theorem getWeightAfterCall_stored (p : Procedure) (c : CallCmd ProcName)
    {m m' : Memo} (h : m'.weightCacheAfterCall =
      (getWeightBeforeCall p c m).2.weightCacheAfterCall) :
    getWeightAfterCall p c m' = ((getWeightBeforeCall p c m).1, m') := by
  unfold getWeightAfterCall
  rw [h]
  unfold getWeightBeforeCall storeWeight
  simp only [Function.update_self]

theorem getWeightCall_value (p : Procedure) (summary : GenKillWeight)
    (c : CallCmd ProcName) (m : Memo) :
    (getWeightCall p summary c m).1.value = callValue p summary.value c := by
  refine (GenKillWeight.extend_value _ _ _).trans ?_
  refine (congrArg (GenKill.extend _) (GenKillWeight.extend_value _ _ _)).trans ?_
  let m' := (GenKillWeight.projectLocals summary
    (getWeightBeforeCall p c m).2).2
  change GenKill.extend (getWeightBeforeCall p c m).1.value (GenKill.extend
    (GenKill.weight (summary.gen.elements.filter (fun v => v.isGlobal))
      (summary.kill.elements.filter (fun v => v.isGlobal)))
    (getWeightAfterCall p c m').1.value) = _
  have hstored : getWeightAfterCall p c m' = ((getWeightBeforeCall p c m).1, m') :=
    getWeightAfterCall_stored p c rfl
  rw [hstored, getWeightBeforeCall_value]
  rw [GenKill.extend_weight, GenKill.extend_weight, callValue,
    GenKillWeight.value_gen, GenKillWeight.value_kill, Finset.sdiff_empty,
    Finset.empty_union, Finset.union_empty, ← Finset.union_assoc]
  congr 1
  ext v
  simp only [Finset.mem_union, Finset.mem_sdiff]
  tauto

end Commands

section Blocks

variable {ProcName BlockId : Type} [DecidableEq ProcName]

def cmdValue (program : Program ProcName BlockId) (procICFG : List ProcName)
    (summary : ProcName -> Weight Variable) (p : ProcName) (c : Cmd ProcName) :
    Weight Variable :=
  match c with
  | .call call desugaring =>
    if call.proc ∈ procICFG then
      callValue (program.procedures call.proc) (summary call.proc) call
    else ofPath (effects .counted (program.scope p) (.call call desugaring))
  | c => ofPath (effects .counted (program.scope p) c)

def blockValue (program : Program ProcName BlockId) (procICFG : List ProcName)
    (summary : ProcName -> Weight Variable) (p : ProcName) :
    List (Cmd ProcName) -> Weight Variable -> Weight Variable
  | [], w => w
  | c :: cmds, w =>
    GenKill.extend (cmdValue program procICFG summary p c)
      (blockValue program procICFG summary p cmds w)

variable {program : Program ProcName BlockId} {procICFG : List ProcName}
variable {summary : ProcName -> GenKillWeight} {p : ProcName}

theorem cmdWeight_value (c : Cmd ProcName) (m : Memo) :
    (cmdWeight program procICFG summary p c m).1.value =
      cmdValue program procICFG (fun q => (summary q).value) p c := by
  unfold cmdWeight cmdValue
  cases c with
  | call call desugaring =>
    dsimp only
    split
    · exact getWeightCall_value _ _ _ _
    · exact getWeight_value _ _ _
  | assign lhss rhss => exact getWeight_value _ _ _
  | havoc vars => exact getWeight_value _ _ _
  | predicate expr => exact getWeight_value _ _ _
  | comment => exact getWeight_value _ _ _
  | state locals cmds => exact getWeight_value _ _ _

theorem blockWeight_value (cmds : List (Cmd ProcName)) (w : GenKillWeight) (m : Memo) :
    (blockWeight program procICFG summary p cmds w m).1.value =
      blockValue program procICFG (fun q => (summary q).value) p cmds w.value := by
  induction cmds with
  | nil => rfl
  | cons c cmds ih =>
    rw [blockValue, ← ih,
      ← cmdWeight_value c (blockWeight program procICFG summary p cmds w m).2]
    exact GenKillWeight.extend_value _ _ _

end Blocks

end InterProcGenKill
end Boogie
