import Boogie.Core.GenKillValues
import Boogie.Core.InterProcTermination

/-!
# The first loop on values

The loop without its objects: a value that is not the least one changes all values
that it is combined with, as the test for changes never says that it does not.
-/

namespace Boogie
namespace InterProcGenKill

open GenKill (Weight)

section Values

variable {ProcName BlockId : Type} [DecidableEq ProcName] [DecidableEq BlockId]

structure ValueState (ProcName BlockId : Type) where
  before : WorkItem ProcName BlockId -> Weight Variable
  after : WorkItem ProcName BlockId -> Weight Variable
  summary : ProcName -> Weight Variable
  workList : List (WorkItem ProcName BlockId)

namespace ValueState

def setBefore (s : ValueState ProcName BlockId) (x : WorkItem ProcName BlockId)
    (w : Weight Variable) : ValueState ProcName BlockId :=
  { s with before := Function.update s.before x (w ⊔ s.before x) }

def raiseSummary (callers : ProcName -> List (WorkItem ProcName BlockId))
    (s : ValueState ProcName BlockId) (x : WorkItem ProcName BlockId) :
    ValueState ProcName BlockId :=
  { s with
    summary := Function.update s.summary x.1 (s.summary x.1 ⊔ s.before x)
    workList := (callers x.1).foldl (fun l x => addToWorkList x l) s.workList }

def raisePredecessor (p : ProcName) (w : Weight Variable)
    (s : ValueState ProcName BlockId) (b : BlockId) : ValueState ProcName BlockId :=
  { s with
    after := Function.update s.after (p, b) (s.after (p, b) ⊔ w)
    workList := addToWorkList (p, b) s.workList }

def itemValue (program : Program ProcName BlockId) (procICFG : List ProcName)
    (s : ValueState ProcName BlockId) (x : WorkItem ProcName BlockId) :
    Weight Variable :=
  blockValue program procICFG s.summary x.1 ((program.cfg x.1).cmds x.2) (s.after x)

def pass (program : Program ProcName BlockId) (d : Discovery ProcName BlockId)
    (s : ValueState ProcName BlockId) (x : WorkItem ProcName BlockId)
    (w : Weight Variable) : ValueState ProcName BlockId :=
  if w = ⊥ then s
  else
    let s := s.setBefore x w
    let s := if x.2 = (program.cfg x.1).first then s.raiseSummary d.callers x else s
    ((program.cfg x.1).predecessors x.2).foldl (raisePredecessor x.1 w) s

def process (program : Program ProcName BlockId) (d : Discovery ProcName BlockId)
    (s : ValueState ProcName BlockId) (x : WorkItem ProcName BlockId) :
    Option (ValueState ProcName BlockId) :=
  if (program.cfg x.1).isNode x.2 then
    some (s.pass program d x (s.itemValue program d.procICFG x))
  else none

def step (program : Program ProcName BlockId) (d : Discovery ProcName BlockId)
    (priority : WorkItem ProcName BlockId -> Int) (s : ValueState ProcName BlockId) :
    Option (ValueState ProcName BlockId) :=
  (getFromWorkList priority s.workList).bind
    (fun p => process program d { s with workList := p.2 } p.1)

def initial (program : Program ProcName BlockId) (d : Discovery ProcName BlockId) :
    ValueState ProcName BlockId where
  before := fun _ => ⊥
  after := fun x =>
    if x ∈ exitItems program d.procICFG then GenKill.ofPath [] else ⊥
  summary := fun _ => ⊥
  workList := (exitItems program d.procICFG).foldl (fun l x => addToWorkList x l) []

end ValueState

/-!
# The loop computes these values
-/

def WeightState.values (s : WeightState ProcName BlockId) :
    ValueState ProcName BlockId where
  before := fun x => (s.weightBefore x).value
  after := fun x => (s.weightAfter x).value
  summary := fun p => (s.summary p).value
  workList := s.workList

theorem value_update {Key : Type} [DecidableEq Key] (f : Key -> GenKillWeight) (x : Key)
    (w : GenKillWeight) : (fun y => (Function.update f x w y).value) =
      Function.update (fun y => (f y).value) x w.value :=
  funext (fun y => Function.apply_update (fun _ => GenKillWeight.value) f x w y)

theorem setWeightBefore_values {s : WeightState ProcName BlockId} (hs : s.Valid)
    {w : GenKillWeight} (hw : w.Allocated s.memo.next) (x : WorkItem ProcName BlockId) :
    (setWeightBefore s x w).2.values =
      if w.value = ⊥ then s.values else s.values.setBefore x w.value := by
  unfold setWeightBefore
  dsimp only
  have hequal := (GenKillWeight.combine_spec' (hs.weightBefore x) hw).isEqual
  have hvalue := GenKillWeight.combine_value w (s.weightBefore x) s.memo
  generalize GenKillWeight.combine w (s.weightBefore x) s.memo = r at hequal hvalue ⊢
  rcases r with ⟨curr, memo⟩
  dsimp only at hequal hvalue ⊢
  simp only [hequal, GenKillWeight.value_eq_bot]
  split
  · rfl
  · unfold WeightState.values ValueState.setBefore
    rw [value_update, hvalue]

theorem updateSummary_values {callers : ProcName -> List (WorkItem ProcName BlockId)}
    {s : WeightState ProcName BlockId} (hs : s.Valid) {x : WorkItem ProcName BlockId}
    (hbefore : (s.weightBefore x).isZero = false) :
    (updateSummary callers s x).values = s.values.raiseSummary callers x := by
  unfold updateSummary
  dsimp only
  have hequal :=
    (GenKillWeight.combine_spec (hs.summary x.1) (hs.weightBefore x)).isEqual
  have hvalue := GenKillWeight.combine_value (s.summary x.1) (s.weightBefore x) s.memo
  generalize GenKillWeight.combine (s.summary x.1) (s.weightBefore x) s.memo = r
    at hequal hvalue ⊢
  rcases r with ⟨curr, memo⟩
  dsimp only at hequal hvalue ⊢
  rw [hequal, hbefore, if_neg Bool.false_ne_true]
  unfold WeightState.values ValueState.raiseSummary
  rw [value_update, hvalue]

theorem updatePredecessor_values {s : WeightState ProcName BlockId} (hs : s.Valid)
    {w : GenKillWeight} (hw : w.Allocated s.memo.next) (p : ProcName) (b : BlockId) :
    (updatePredecessor p w s b).values =
      if w.value = ⊥ then s.values else s.values.raisePredecessor p w.value b := by
  unfold updatePredecessor
  dsimp only
  have hequal := (GenKillWeight.combine_spec (hs.weightAfter (p, b)) hw).isEqual
  have hvalue := GenKillWeight.combine_value (s.weightAfter (p, b)) w s.memo
  generalize GenKillWeight.combine (s.weightAfter (p, b)) w s.memo = r at hequal hvalue ⊢
  rcases r with ⟨curr, memo⟩
  dsimp only at hequal hvalue ⊢
  simp only [hequal, GenKillWeight.value_eq_bot]
  split
  · rfl
  · unfold WeightState.values ValueState.raisePredecessor
    rw [value_update, hvalue]

theorem updatePredecessors_values {s : WeightState ProcName BlockId} (hs : s.Valid)
    {w : GenKillWeight} (hw : w.Allocated s.memo.next) (p : ProcName) (preds : List BlockId) :
    (preds.foldl (updatePredecessor p w) s).values = if w.value = ⊥ then s.values
      else preds.foldl (ValueState.raisePredecessor p w.value) s.values := by
  induction preds generalizing s with
  | nil => rw [List.foldl_nil, List.foldl_nil, ite_self]
  | cons b preds ih =>
    have hfirst := updatePredecessor_spec hs hw p b
    rw [List.foldl_cons, ih hfirst.valid (hw.mono hfirst.next),
      updatePredecessor_values hs hw]
    split
    · rfl
    · rfl

variable {program : Program ProcName BlockId} {d : Discovery ProcName BlockId}

theorem summarize_values {s : WeightState ProcName BlockId} (hs : s.Valid)
    {w : GenKillWeight} (hw : w.Allocated s.memo.next) (x : WorkItem ProcName BlockId) :
    (summarize program d s x w).values = if w.value = ⊥ then s.values
      else if x.2 = (program.cfg x.1).first then
        (s.values.setBefore x w.value).raiseSummary d.callers x
      else s.values.setBefore x w.value := by
  rcases setWeightBefore_spec hs hw x with ⟨hchange, hset, hbefore⟩
  have hvalues := setWeightBefore_values hs hw x
  unfold summarize
  rw [hchange]
  cases hzero : w.isZero with
  | true =>
    rw [if_pos (GenKillWeight.value_of_isZero hzero)] at hvalues ⊢
    exact hvalues
  | false =>
    have hne : w.value ≠ ⊥ := fun h =>
      Bool.false_ne_true (hzero.symm.trans (GenKillWeight.value_eq_bot.mp h))
    rw [if_neg hne] at hvalues ⊢
    by_cases hfirst : x.2 = (program.cfg x.1).first
    · simp only [hfirst, decide_true, Bool.not_false, Bool.and_self, if_true]
      rw [updateSummary_values hset.valid (hbefore hzero), hvalues]
    · simp only [hfirst, decide_false, Bool.and_false, Bool.false_eq_true, if_false]
      exact hvalues

theorem process_values {s : WeightState ProcName BlockId} (hs : s.Valid)
    (x : WorkItem ProcName BlockId) :
    (process program d s x).map WeightState.values = s.values.process program d x := by
  cases hnode : (program.cfg x.1).isNode x.2 with
  | false =>
    rw [process_eq_none hnode, ValueState.process, hnode]
    rfl
  | true =>
    rcases @blockWeight_spec _ _ _ program d.procICFG s.summary x.1
      ((program.cfg x.1).cmds x.2) _ _ (hs.weightAfter x) with ⟨hnext, _, hw⟩
    have hvalue := @blockWeight_value _ _ _ program d.procICFG s.summary x.1
      ((program.cfg x.1).cmds x.2) (s.weightAfter x) s.memo
    rw [process_eq hnode rfl, ValueState.process, hnode, if_pos rfl, Option.map_some]
    generalize blockWeight program d.procICFG s.summary x.1
      ((program.cfg x.1).cmds x.2) (s.weightAfter x) s.memo = r at hnext hw hvalue ⊢
    have hitem : s.values.itemValue program d.procICFG x = r.1.value := hvalue.symm
    have hmemo := hs.setMemo hnext
    have hsummary := @summarize_spec _ _ _ _ program d _ hmemo.valid _ hw x
    rw [updatePredecessors_values hsummary.valid (hw.mono hsummary.next),
      summarize_values hmemo.valid hw, hitem, ValueState.pass]
    split
    · rfl
    · rfl

theorem weightStep_values (priority : WorkItem ProcName BlockId -> Int)
    {s : WeightState ProcName BlockId} (hs : s.Valid) :
    (weightStep program d priority s).map WeightState.values =
      s.values.step program d priority := by
  unfold weightStep ValueState.step
  change _ = (getFromWorkList priority s.workList).bind _
  cases getFromWorkList priority s.workList with
  | none => rfl
  | some p =>
    rw [Option.bind_some, Option.bind_some]
    exact @process_values _ _ _ _ program d { s with workList := p.2 }
      ⟨hs.weightBefore, hs.weightAfter, hs.summary⟩ p.1

theorem weightStep_valid (priority : WorkItem ProcName BlockId -> Int)
    {s s' : WeightState ProcName BlockId} (hs : s.Valid)
    (h : weightStep program d priority s = some s') : s'.Valid := by
  rcases Option.bind_eq_some_iff.mp h with ⟨p, _, hprocess⟩
  cases hnode : (program.cfg p.1.1).isNode p.1.2 with
  | false =>
    rw [process_eq_none hnode] at hprocess
    cases hprocess
  | true =>
    rcases @process_spec _ _ _ _ program d { s with workList := p.2 }
      ⟨hs.weightBefore, hs.weightAfter, hs.summary⟩ p.1 hnode with
      ⟨s'', hprocess', heffect⟩
    rw [hprocess] at hprocess'
    cases hprocess'
    exact heffect.valid

theorem initialWeights_values (memo : Memo) :
    (initialWeights program d memo).values = ValueState.initial program d := by
  unfold initialWeights WeightState.values ValueState.initial
  congr 1
  funext x
  exact apply_ite GenKillWeight.value _ _ _

theorem whileWork_values (priority : WorkItem ProcName BlockId -> Int) (memo : Memo) (n : Nat) :
    (whileWork WeightState.workList (weightStep program d priority) n
        (initialWeights program d memo)).map WeightState.values =
      whileWork ValueState.workList (ValueState.step program d priority) n
        (ValueState.initial program d) := by
  unfold whileWork
  rw [← initialWeights_values memo]
  change _ = if (initialWeights program d memo).workList.isEmpty = true then _ else _
  split
  · rfl
  · exact @Rounds.repeatWhile_map _ _ _ WeightState.Valid _ WeightState.values _
      (fun s => !s.workList.isEmpty) (fun s s' hs => weightStep_valid priority hs)
      (fun s hs => weightStep_values priority hs) (fun s => rfl) _
      (initialWeights_valid program d memo) n

end Values

end InterProcGenKill
end Boogie
