import Boogie.Core.InterProcEndless
import Boogie.Core.InterProcReads

/-!
# Live variables across calls

What is live before a call of an analysed procedure contains what the call and the
paths through its callee read, and what is live after the call and not overwritten.
The weight before a call is stored in the table of the weights after calls: where
postconditions read a variable that nothing else reads, or an output is live after the
call, this can be wrong.
-/

namespace Boogie
namespace InterProcGenKill

open GenKill (Weight readFirst overwritten ofPath)
open VariableCollector (usedVars allUsedVars oldVarsUsed allOldVarsUsed)

mutual

theorem oldVarsUsed_subset (insideOldExpr : Bool) :
    (e : Expr) -> oldVarsUsed insideOldExpr e ⊆ usedVars e
  | .literal _ => List.nil_subset _
  | .ident x => by
    unfold oldVarsUsed usedVars
    split
    · exact List.Subset.refl _
    · exact List.nil_subset _
  | .old e => oldVarsUsed_subset true e
  | .nary _ args => allOldVarsUsed_subset insideOldExpr args
  | .quantifier _ _ body => oldVarsUsed_subset insideOldExpr body

theorem allOldVarsUsed_subset (insideOldExpr : Bool) :
    (es : List Expr) -> allOldVarsUsed insideOldExpr es ⊆ allUsedVars es
  | [] => List.nil_subset _
  | e :: es => by
    unfold allOldVarsUsed allUsedVars
    exact List.append_subset.mpr
      ⟨List.subset_append_of_subset_left _ (oldVarsUsed_subset insideOldExpr e),
        List.subset_append_of_subset_right _
          (allOldVarsUsed_subset insideOldExpr es)⟩

end

section Liveness

variable {ProcName BlockId : Type} [DecidableEq ProcName]
variable {program : Program ProcName BlockId}

/-!
# What has to be live
-/

def ReadByCall (program : Program ProcName BlockId) (c : CallCmd ProcName)
    (v : Variable) : Prop :=
  v ∈ allUsedVars c.ins ∨
    v ∈ (program.procedures c.proc).requires.flatMap usedVars ∨
    v ∈ (program.procedures c.proc).ensures.flatMap usedVars

/-- What has to hold of the variables `live` before a call, for those after it. -/
structure LiveAcross (program : Program ProcName BlockId) (c : CallCmd ProcName)
    (lvAfter live : Finset Variable) : Prop where
  reads : forall v, v.isGlobal = true ∨ v ∈ allUsedVars c.ins ->
    (ReadByCall program c v ∨
      exists t, PathOf program .all c.proc t ∧ v ∈ readFirst t) -> v ∈ live
  keeps : forall v, v ∈ lvAfter -> v ∉ c.outs ->
    (¬ forall t, PathOf program .all c.proc t -> v ∈ overwritten t) -> v ∈ live
  drops : forall v, v ∈ c.outs -> ¬ ReadByCall program c v ->
    ¬ MayRead program c.proc v -> v ∉ live

/-- The tables are not mixed up for a variable that matters: no output is live after
the call without being read, all that postconditions and the inner indexes of maps
read is read elsewhere or stays live, and the inputs of a callee that does not return
are live after the call. -/
structure Harmless (program : Program ProcName BlockId) (c : CallCmd ProcName)
    (lvAfter : Finset Variable) : Prop where
  outs : forall v, v ∈ c.outs -> v ∈ lvAfter ->
    ReadByCall program c v ∨ MayRead program c.proc v
  returns : (program.cfg c.proc).ReachesExit (program.cfg c.proc).first ->
    forall v, v.isGlobal = true ->
      (v ∈ (program.procedures c.proc).ensures.flatMap usedVars ∨
        exists t, PathOf program .all c.proc t ∧ v ∈ readFirst t) ->
      v ∈ beforeCallGen (program.procedures c.proc) c ∨
        (exists t, PathOf program .counted c.proc t ∧ v ∈ readFirst t) ∨
        v ∈ lvAfter ∧ exists t, PathOf program .all c.proc t ∧ v ∉ overwritten t
  endless : ¬ (program.cfg c.proc).ReachesExit (program.cfg c.proc).first ->
    forall v, v.isGlobal = true ∨ v ∈ allUsedVars c.ins ->
      ReadByCall program c v -> v ∈ lvAfter

/-!
# One call
-/

def acrossCall (p : Procedure) (c : CallCmd ProcName) (w : Weight Variable)
    (lvAfter : Finset Variable) : Finset Variable :=
  if w = ⊥ then lvAfter
  else (lvAfter \ Weight.kill w) ∪ ((beforeCallGen p c).toFinset ∪ Weight.gen w)

theorem getLiveVars_eq (w : GenKillWeight) (lvAfter : Finset Variable) :
    w.getLiveVars lvAfter = (lvAfter \ Weight.kill w.value) ∪ Weight.gen w.value := by
  rw [GenKillWeight.value_gen, GenKillWeight.value_kill]
  rfl

omit [DecidableEq ProcName] in
theorem propagateLiveVarsAcrossCall_eq {varsLiveSummary : ProcName -> Option GenKillWeight}
    {c : CallCmd ProcName} {w : GenKillWeight} (h : varsLiveSummary c.proc = some w)
    (desugaring : Cmd ProcName) (lvAfter : Finset Variable) (m : Memo) :
    (propagateLiveVarsAcrossCall program varsLiveSummary c desugaring lvAfter m).1 =
      acrossCall (program.procedures c.proc) c w.value lvAfter := by
  unfold propagateLiveVarsAcrossCall
  rw [h]
  have hstored : getWeightAfterCall (program.procedures c.proc) c
      (getWeightBeforeCall (program.procedures c.proc) c m).2 =
      getWeightBeforeCall (program.procedures c.proc) c m :=
    getWeightAfterCall_stored (program.procedures c.proc) c rfl
  change (GenKillWeight.extend (getWeightBeforeCall (program.procedures c.proc) c m).1
    (GenKillWeight.extend w
      (getWeightAfterCall (program.procedures c.proc) c
        (getWeightBeforeCall (program.procedures c.proc) c m).2).1
      (getWeightAfterCall (program.procedures c.proc) c
        (getWeightBeforeCall (program.procedures c.proc) c m).2).2).1 _).1.getLiveVars
      lvAfter = _
  rw [hstored, getLiveVars_eq, GenKillWeight.extend_value, GenKillWeight.extend_value,
    getWeightBeforeCall_value, acrossCall]
  rcases GenKill.eq_bot_or_weight w.value with hw | ⟨gen, kill, hw⟩
  · rw [hw, if_pos rfl]
    change (lvAfter \ ∅) ∪ ∅ = lvAfter
    rw [Finset.sdiff_empty, Finset.union_empty]
  · have hne : w.value ≠ ⊥ := by
      rw [hw]
      exact WithBot.coe_ne_bot
    rw [if_neg hne, hw, GenKill.extend_weight, GenKill.extend_weight]
    ext v
    simp only [GenKill.gen_weight, GenKill.kill_weight, Finset.mem_union,
      Finset.mem_sdiff, Finset.notMem_empty]
    tauto

/-!
# All calls
-/

structure Summaries (program : Program ProcName BlockId)
    (summary : ProcName -> Weight Variable) : Prop where
  above : forall p t, Analysed program p -> PathOf program .counted p t ->
    ofPath t ≤ summary p
  reads : forall p v, v ∈ Weight.gen (summary p) -> MayRead program p v
  ne_bot : forall p, Analysed program p ->
    (summary p ≠ ⊥ <-> (program.cfg p).ReachesExit (program.cfg p).first)

section Across

variable {summary : ProcName -> Weight Variable} {c : CallCmd ProcName}
variable {lvAfter : Finset Variable} {v : Variable}

omit [DecidableEq ProcName] in
theorem mem_acrossCall {p : Procedure} {w : Weight Variable} (hv : v ∈ acrossCall p c w lvAfter) :
    v ∈ lvAfter ∨ v ∈ beforeCallGen p c ∨ v ∈ Weight.gen w := by
  unfold acrossCall at hv
  split at hv
  next => exact Or.inl hv
  next =>
    rcases Finset.mem_union.mp hv with hv | hv
    · exact Or.inl (Finset.mem_sdiff.mp hv).1
    · rcases Finset.mem_union.mp hv with hv | hv
      · exact Or.inr (Or.inl (List.mem_toFinset.mp hv))
      · exact Or.inr (Or.inr hv)

omit [DecidableEq ProcName] in
theorem mem_acrossCall_of_reads {p : Procedure} {w : Weight Variable} (hw : w ≠ ⊥)
    (hv : v ∈ beforeCallGen p c ∨ v ∈ Weight.gen w) :
    v ∈ acrossCall p c w lvAfter := by
  unfold acrossCall
  rw [if_neg hw]
  apply Finset.mem_union_right
  exact Finset.mem_union.mpr (hv.imp_left List.mem_toFinset.mpr)

omit [DecidableEq ProcName] in
theorem mem_acrossCall_of_live {p : Procedure} {w : Weight Variable} (hv : v ∈ lvAfter)
    (hkill : w ≠ ⊥ -> v ∉ Weight.kill w) : v ∈ acrossCall p c w lvAfter := by
  unfold acrossCall
  split
  next => exact hv
  next hw => exact Finset.mem_union_left _ (Finset.mem_sdiff.mpr ⟨hv, hkill hw⟩)

omit [DecidableEq ProcName] in
theorem readByCall_of_mem_beforeCallGen
    (hv : v ∈ beforeCallGen (program.procedures c.proc) c) : ReadByCall program c v := by
  rcases List.mem_append.mp hv with hv | hv
  · rcases List.mem_append.mp hv with hv | hv
    · exact Or.inl hv
    · exact Or.inr (Or.inl (List.mem_filter.mp hv).1)
  · rcases List.mem_flatMap.mp (List.mem_filter.mp hv).1 with ⟨e, he, hv⟩
    exact Or.inr (Or.inr (List.mem_flatMap.mpr ⟨e, he, oldVarsUsed_subset false e hv⟩))

theorem Summaries.not_mem_kill (hs : Summaries program summary)
    (hq : Analysed program c.proc) {t : List (GenKill.Effect Variable)}
    (ht : PathOf program .all c.proc t) (hv : v ∉ overwritten t) :
    v ∉ Weight.kill (summary c.proc) := by
  rcases ht.counted with ⟨u, hu, heq⟩
  have hle := hs.above c.proc u hq hu
  rcases GenKill.eq_bot_or_weight (summary c.proc) with hw | ⟨gen, kill, hw⟩
  · rw [hw] at hle
    exact absurd hle GenKill.not_weight_le_bot
  · rw [hw] at hle ⊢
    intro hkill
    apply hv
    rw [← heq]
    exact (GenKill.weight_le_weight.mp hle).2 hkill

theorem Summaries.mem_gen (hs : Summaries program summary)
    (hq : Analysed program c.proc) {t : List (GenKill.Effect Variable)}
    (ht : PathOf program .counted c.proc t) (hv : v ∈ readFirst t) :
    v ∈ Weight.gen (summary c.proc) := by
  have hle := hs.above c.proc t hq ht
  rcases GenKill.eq_bot_or_weight (summary c.proc) with hw | ⟨gen, kill, hw⟩
  · rw [hw] at hle
    exact absurd hle GenKill.not_weight_le_bot
  · rw [hw] at hle ⊢
    exact (GenKill.weight_le_weight.mp hle).1 hv

theorem Summaries.reads_global (hs : Summaries program summary)
    (hq : Analysed program c.proc) (h : Harmless program c lvAfter)
    (hreaches : (program.cfg c.proc).ReachesExit (program.cfg c.proc).first)
    (hglobal : v.isGlobal = true) (hv : v ∈ (program.procedures c.proc).ensures.flatMap usedVars ∨
      exists t, PathOf program .all c.proc t ∧ v ∈ readFirst t) :
    v ∈ acrossCall (program.procedures c.proc) c (summary c.proc) lvAfter := by
  have hne := (hs.ne_bot c.proc hq).mpr hreaches
  rcases h.returns hreaches v hglobal hv with hv | ⟨t, ht, hv⟩ | ⟨hv, t, ht, hnot⟩
  · exact mem_acrossCall_of_reads hne (Or.inl hv)
  · exact mem_acrossCall_of_reads hne (Or.inr (hs.mem_gen hq ht hv))
  · exact mem_acrossCall_of_live hv (fun _ => hs.not_mem_kill hq ht hnot)

theorem Trace.reachesExit {r : Reads} {p : ProcName} {b : BlockId}
    {t : List (GenKill.Effect Variable)} (h : Trace program r p (.block b) t) :
    (program.cfg p).ReachesExit b := by
  generalize hpart : Part.block b = part at h
  induction h generalizing b with
  | nil p => cases hpart
  | cmd p c cmds t _ _ _ => cases hpart
  | call p c desugaring cmds t t' _ _ _ _ _ => cases hpart
  | exit p b' t hexit _ _ =>
    cases hpart
    exact ⟨b', Relation.ReflTransGen.refl, hexit⟩
  | goto p b' b'' t t' hedge _ _ _ ih =>
    cases hpart
    exact (ih rfl).head hedge

theorem Summaries.liveAcross (hs : Summaries program summary)
    (hq : Analysed program c.proc) (h : Harmless program c lvAfter) :
    LiveAcross program c lvAfter
      (acrossCall (program.procedures c.proc) c (summary c.proc) lvAfter) where
  reads := by
    intro v hrelevant hv
    by_cases hreaches : (program.cfg c.proc).ReachesExit (program.cfg c.proc).first
    · have hne := (hs.ne_bot c.proc hq).mpr hreaches
      by_cases hin : v ∈ allUsedVars c.ins
      · exact mem_acrossCall_of_reads hne
          (Or.inl (List.mem_append_left _ (List.mem_append_left _ hin)))
      · have hglobal := hrelevant.resolve_right hin
        rcases hv with (hv | hv | hv) | hv
        · exact absurd hv hin
        · exact mem_acrossCall_of_reads hne (Or.inl (List.mem_append_left _
            (List.mem_append_right _ (List.mem_filter.mpr ⟨hv, hglobal⟩))))
        · exact hs.reads_global hq h hreaches hglobal (Or.inl hv)
        · exact hs.reads_global hq h hreaches hglobal (Or.inr hv)
    · have hcall : ReadByCall program c v := by
        rcases hv with hv | ⟨t, ht, _⟩
        · exact hv
        · exact absurd ht.reachesExit hreaches
      exact mem_acrossCall_of_live (h.endless hreaches v hrelevant hcall)
        (fun hne => absurd ((hs.ne_bot c.proc hq).mp hne) hreaches)
  keeps := by
    intro v hv _ hpaths
    push Not at hpaths
    rcases hpaths with ⟨t, ht, hnot⟩
    exact mem_acrossCall_of_live hv (fun _ => hs.not_mem_kill hq ht hnot)
  drops := by
    intro v hout hcall hreads hv
    rcases mem_acrossCall hv with hv | hv | hv
    · rcases h.outs v hout hv with hv | hv
      · exact hcall hv
      · exact hreads hv
    · exact hcall (readByCall_of_mem_beforeCallGen hv)
    · exact hreads (hs.reads _ v hv)

end Across

/-!
# The analysis
-/

variable [DecidableEq BlockId]

theorem summaries_of_values {d : Discovery ProcName BlockId} (hd : Discovered program d)
    (priority : WorkItem ProcName BlockId -> Int) {n : Nat}
    {s : ValueState ProcName BlockId}
    (h : whileWork ValueState.workList (ValueState.step program d priority) n
      (ValueState.initial program d) = some s) : Summaries program s.summary := by
  rcases ValueState.whileWork_settled hd priority h with ⟨hs, hempty⟩
  have hbounded := ValueState.whileWork_bounded hd priority h
  refine ⟨fun p t hp ht => ht.le_summary hd hs hempty hp,
    fun p => (hbounded.summary p).2, fun p hp => ⟨(hbounded.summary p).1, ?_⟩⟩
  intro hreaches hbot
  have hfirst : (program.cfg p).first ∈ (program.cfg p).blocks := List.mem_cons_self
  have hsettled : s.Settled program d.procICFG (p, (program.cfg p).first) := by
    apply hs.settled _ hp hfirst
    rw [hempty]
    exact List.not_mem_nil
  have hle := hsettled.2 rfl
  rw [hbot] at hle
  exact ValueState.itemValue_ne_bot hd hs hempty hp hfirst hreaches (le_bot_iff.mp hle)

theorem compute_eq_some {priorities : Priorities ProcName BlockId} {memo : Memo}
    {n : Nat} {r : Analysis ProcName BlockId} (h : compute program priorities memo n = some r) :
    exists d, discover n program = some d ∧ r.procICFG = d.procICFG ∧
      whileWork ValueState.workList (ValueState.step program d priorities.forward) n
        (ValueState.initial program d) = some r.weights.values := by
  rcases Option.bind_eq_some_iff.mp h with ⟨d, hdiscover, h⟩
  rcases Option.bind_eq_some_iff.mp h with ⟨s, hweights, h⟩
  rcases Option.bind_eq_some_iff.mp h with ⟨live, _, h⟩
  cases h
  refine ⟨d, hdiscover, rfl, ?_⟩
  rw [← whileWork_values priorities.forward memo, hweights]
  rfl

theorem exists_summaries (program : Program ProcName BlockId)
    (priorities : Priorities ProcName BlockId) :
    exists summary, forall memo n r, compute program priorities memo n = some r ->
      Summaries program summary ∧ forall q, Analysed program q ->
        exists w, r.varsLiveSummary q = some w ∧ w.value = summary q := by
  rcases discover_spec program with ⟨n, d, hdiscover, hd⟩
  have hvalues : forall memo m r, compute program priorities memo m = some r ->
      r.procICFG = d.procICFG ∧ forall k, m ≤ k -> whileWork ValueState.workList
        (ValueState.step program d priorities.forward) k (ValueState.initial program d) =
        some r.weights.values := by
    intro memo m r hr
    rcases compute_eq_some hr with ⟨d', hd', hprocs, hrun⟩
    have heq := Rounds.repeatWhile_mono (le_max_left m n) hd'
    have heq' := hdiscover (max m n) (le_max_right m n)
    rw [discover, heq] at heq'
    cases heq'
    exact ⟨hprocs, fun k hk => whileWork_mono hk hrun⟩
  by_cases hruns : exists memo m r, compute program priorities memo m = some r
  · rcases hruns with ⟨memo₀, m₀, r₀, hr₀⟩
    have hrun₀ := (hvalues memo₀ m₀ r₀ hr₀).2
    refine ⟨r₀.weights.values.summary, ?_⟩
    intro memo m r hr
    refine ⟨summaries_of_values hd priorities.forward (hrun₀ m₀ le_rfl), ?_⟩
    intro q hq
    rcases hvalues memo m r hr with ⟨hprocs, hrun⟩
    have hsame := hrun₀ (max m m₀) (le_max_right m m₀)
    rw [hrun (max m m₀) (le_max_left m m₀)] at hsame
    have heq := Option.some.inj hsame
    refine ⟨r.weights.summary q, ?_, congrFun (congrArg ValueState.summary heq) q⟩
    rw [Analysis.varsLiveSummary, hprocs, if_pos ((hd.analysed q).mpr hq)]
  · exact ⟨fun _ => ⊥, fun memo m r hr => absurd ⟨memo, m, r, hr⟩ hruns⟩

/-- The analysis ends, and then the variables live before calls of analysed procedures
do not depend on the tables, and are the right ones under the condition. -/
structure PropagatesWhen (program : Program ProcName BlockId)
    (priorities : Priorities ProcName BlockId)
    (condition : CallCmd ProcName -> Finset Variable -> Prop) : Prop where
  ends : (forall p, Analysed program p -> Registered program p) -> forall memo,
    exists n r, forall m, n ≤ m -> compute program priorities memo m = some r
  live : exists live : CallCmd ProcName -> Finset Variable -> Finset Variable,
    forall memo n r, compute program priorities memo n = some r ->
      forall c desugaring lvAfter, Analysed program c.proc ->
        (forall memo', (propagateLiveVarsAcrossCall program r.varsLiveSummary c
          desugaring lvAfter memo').1 = live c lvAfter) ∧
        (condition c lvAfter -> LiveAcross program c lvAfter (live c lvAfter))

/-- The variables before calls without recursion and loops. -/
theorem propagates_of_harmless (hacyclic : AcyclicCalls program)
    (hloops : forall p, Analysed program p -> forall b, b ∈ (program.cfg p).blocks ->
      ¬ Relation.TransGen (program.cfg p).Edge b b) (priorities : Priorities ProcName BlockId) :
    PropagatesWhen program priorities (Harmless program) where
  ends := fun hregistered =>
    compute_ends hacyclic (fun p hp ⟨b, hb, hloop, _⟩ => hloops p hp b hb hloop)
      hregistered priorities
  live := by
    rcases exists_summaries program priorities with ⟨summary, hruns⟩
    refine ⟨fun c lvAfter =>
      acrossCall (program.procedures c.proc) c (summary c.proc) lvAfter, ?_⟩
    intro memo n r hr c desugaring lvAfter hq
    rcases hruns memo n r hr with ⟨hs, hsummary⟩
    rcases hsummary c.proc hq with ⟨w, hw, hvalue⟩
    refine ⟨fun memo' => ?_, fun h => hs.liveAcross hq h⟩
    rw [propagateLiveVarsAcrossCall_eq hw, hvalue]

theorem not_propagates {priorities : Priorities ProcName BlockId} {memo : Memo} {n : Nat}
    {r : Analysis ProcName BlockId} (hr : compute program priorities memo n = some r)
    {c : CallCmd ProcName} (hq : Analysed program c.proc) {lvAfter : Finset Variable}
    {v : Variable} (hglobal : v.isGlobal = true)
    (hread : v ∈ (program.procedures c.proc).ensures.flatMap usedVars)
    (hlive : v ∉ lvAfter) (hbefore : v ∉ beforeCallGen (program.procedures c.proc) c)
    (hmay : ¬ MayRead program c.proc v)
    {condition : CallCmd ProcName -> Finset Variable -> Prop} (hcondition : condition c lvAfter) :
    ¬ PropagatesWhen program priorities condition := by
  intro ⟨_, live, hruns⟩
  rcases exists_summaries program priorities with ⟨summary, hsummaries⟩
  rcases hsummaries memo n r hr with ⟨hs, hsummary⟩
  rcases hsummary c.proc hq with ⟨w, hw, hvalue⟩
  rcases hruns memo n r hr c .comment lvAfter hq with ⟨hpropagate, hacross⟩
  have hmem := (hacross hcondition).reads v (Or.inl hglobal)
    (Or.inl (Or.inr (Or.inr hread)))
  rw [← hpropagate memo, propagateLiveVarsAcrossCall_eq hw] at hmem
  rcases mem_acrossCall hmem with h | h | h
  · exact hlive h
  · exact hbefore h
  · rw [hvalue] at h
    exact hmay (hs.reads c.proc v h)

end Liveness

/-!
# A program with a call
-/

section Programs

variable {ensures : List Expr}

theorem callProgram_analysed : Analysed (callProgram ensures) false :=
  .single ⟨(), rfl, List.mem_cons_self, List.mem_cons_self⟩

theorem callProgram_not_mayRead (v : Variable) :
    ¬ MayRead (callProgram ensures) false v := by
  intro h
  generalize hp : false = p at h
  induction h with
  | cmd p b c v _ hc _ _ =>
    subst hp
    exact List.not_mem_nil hc
  | call p b c desugaring v _ hc _ _ =>
    subst hp
    exact List.not_mem_nil hc
  | callee p q v hcalls _ _ =>
    subst hp
    rcases hcalls with ⟨_, _, _, hq⟩
    exact List.not_mem_nil hq

/-- The postcondition reads a global variable that is not live before the call. -/
theorem callProgram_not_propagates :
    ¬ PropagatesWhen (callProgram [.ident (.globalVariable ⟨"g", .int⟩)])
      ⟨fun _ => 0, fun _ => 0⟩ (fun _ _ => True) := by
  rcases compute_ends (callProgram_acyclic [.ident (.globalVariable ⟨"g", .int⟩)])
    (fun p _ => (callProgram_spec _ p).1) (fun p _ => (callProgram_spec _ p).2)
    ⟨fun _ => 0, fun _ => 0⟩ Memo.empty with ⟨n, r, hr⟩
  exact not_propagates (c := ⟨0, false, [], []⟩) (hr n le_rfl)
    callProgram_analysed rfl List.mem_cons_self (Finset.notMem_empty _)
    List.not_mem_nil (callProgram_not_mayRead _) trivial

/-!
# A callee that reads and overwrites a global
-/

def counter : Variable := .globalVariable ⟨"counter", .int⟩

def limit : Variable := .globalVariable ⟨"limit", .int⟩

def amount : Variable := .localVariable ⟨"amount", .int⟩

def previous : Variable := .localVariable ⟨"previous", .int⟩

/-- `call previous := advance(amount)`. -/
def advanceCall : CallCmd Bool := ⟨0, false, [.ident amount], [previous]⟩

/-- `counter := counter + 1`. -/
def advance : Cmd Bool :=
  .assign [.simpleAssignLhs counter]
    [.nary (.binary .add) [.ident counter, .literal (.int 1)]]

/-- The main procedure `true` calls `false`, which ensures `old(counter) < counter`. -/
def advanceProgram : Program Bool Unit where
  mainName := true
  mainImpl := returning [.call advanceCall (.havoc [counter, previous])]
  implementations :=
    [(true, returning [.call advanceCall (.havoc [counter, previous])]),
      (false, returning [advance])]
  mainImpl_mem := List.mem_cons_self
  procedures := fun p =>
    if p then ⟨[], []⟩
    else ⟨[], [.nary (.binary .lt) [.old (.ident counter), .ident counter]]⟩
  globals := [counter, limit]

theorem advanceProgram_acyclic : AcyclicCalls advanceProgram := by
  apply acyclicCalls_of_calls
  intro p q ⟨b, _, _, hq⟩
  cases p with
  | true => exact ⟨rfl, List.mem_singleton.mp hq⟩
  | false => exact absurd hq List.not_mem_nil

theorem advanceProgram_edge (p : Bool) (a b : Unit) :
    ¬ (advanceProgram.cfg p).Edge a b := by
  cases p with
  | true => exact List.not_mem_nil
  | false => exact List.not_mem_nil

theorem advanceProgram_no_loop (p : Bool) (b : Unit) :
    ¬ Relation.TransGen (advanceProgram.cfg p).Edge b b := by
  intro h
  rcases Relation.TransGen.tail'_iff.mp h with ⟨a, _, hedge⟩
  exact advanceProgram_edge p a b hedge

theorem advanceProgram_registered (p : Bool) : Registered advanceProgram p := by
  cases p with
  | true => exact (returning_spec (p := true) rfl).2
  | false => exact (returning_spec (p := false) rfl).2

theorem advanceProgram_analysed : Analysed advanceProgram false :=
  .single ⟨(), rfl, List.mem_cons_self, List.mem_cons_self⟩

theorem advance_inside : Inside advanceProgram advance :=
  fun _ h => nomatch h

theorem advance_effects (r : Reads) (scope : Scope) :
    effects r scope advance = [⟨{counter}, {counter}⟩] := by
  cases r <;> rfl

theorem advance_path (r : Reads) :
    PathOf advanceProgram r false [⟨{counter}, {counter}⟩] := by
  have hcmds := Trace.cmd (r := r) false advance [] [] advance_inside (.nil false)
  rw [advance_effects, List.append_nil] at hcmds
  exact .exit false () _ rfl hcmds

theorem advance_path_eq {r : Reads} {t : List (GenKill.Effect Variable)}
    (h : PathOf advanceProgram r false t) : t = [⟨{counter}, {counter}⟩] := by
  cases h with
  | exit _ _ _ _ ht =>
    cases ht with
    | cmd _ _ _ t _ ht =>
      cases ht
      rw [advance_effects, List.append_nil]
  | goto _ _ b _ _ hedge _ _ => exact absurd hedge (advanceProgram_edge false _ b)

theorem advance_mayRead {v : Variable} (h : MayRead advanceProgram false v) : v = counter := by
  cases h with
  | cmd _ b c _ _ hc _ hv =>
    cases List.mem_singleton.mp hc
    rw [advance_effects] at hv
    simpa [GenKill.readAnywhere] using hv
  | call _ b c desugaring _ _ hc _ _ => cases List.mem_singleton.mp hc
  | callee _ q _ hcalls _ =>
    rcases hcalls with ⟨_, _, _, hq⟩
    exact absurd hq List.not_mem_nil

theorem advance_readByCall {v : Variable} (h : ReadByCall advanceProgram advanceCall v) :
    v = amount ∨ v = counter := by
  rcases h with h | h | h
  · exact Or.inl (List.mem_singleton.mp h)
  · exact absurd h List.not_mem_nil
  · have hv : v ∈ [counter, counter] := h
    simp only [List.mem_cons, List.not_mem_nil, or_false, or_self] at hv
    exact Or.inr hv

theorem advance_harmless : Harmless advanceProgram advanceCall {limit} where
  outs := by
    intro v hv hlimit
    rw [List.mem_singleton.mp hv] at hlimit
    exact absurd hlimit (by decide)
  returns := by
    intro _ v _ h
    refine Or.inr (Or.inl ⟨_, advance_path .counted, ?_⟩)
    have hv : v = counter := by
      rcases h with h | ⟨t, ht, hv⟩
      · rcases advance_readByCall (Or.inr (Or.inr h)) with rfl | rfl
        · exact absurd h (by decide)
        · rfl
      · rw [advance_path_eq ht] at hv
        simpa [readFirst] using hv
    rw [hv]
    decide
  endless := fun h => absurd ⟨(), .refl, rfl⟩ h

/-- Before the call live are the input, what the callee reads and overwrites, and what
is live after the call, and not the output. -/
theorem advanceProgram_propagates : exists live : Finset Variable,
    LiveAcross advanceProgram advanceCall {limit} live ∧ amount ∈ live ∧
      counter ∈ live ∧ limit ∈ live ∧ previous ∉ live := by
  rcases propagates_of_harmless advanceProgram_acyclic
    (fun p _ b _ => advanceProgram_no_loop p b) ⟨fun _ => 0, fun _ => 0⟩ with
    ⟨hends, live, hlive⟩
  rcases hends (fun p _ => advanceProgram_registered p) Memo.empty with ⟨n, r, hr⟩
  have hacross := (hlive Memo.empty n r (hr n le_rfl) advanceCall .comment {limit}
    advanceProgram_analysed).2 advance_harmless
  have hkept : ¬ forall t, PathOf advanceProgram .all advanceCall.proc t ->
      limit ∈ overwritten t :=
    fun h => absurd (h _ (advance_path .all)) (by decide)
  refine ⟨_, hacross, ?_, ?_, ?_, ?_⟩
  · exact hacross.reads amount (Or.inr (by decide)) (Or.inl (Or.inl (by decide)))
  · exact hacross.reads counter (Or.inl rfl) (Or.inr ⟨_, advance_path .all, by decide⟩)
  · exact hacross.keeps limit (by decide) (by decide) hkept
  · apply hacross.drops previous (by decide)
    · intro h
      rcases advance_readByCall h with h | h <;> exact absurd h (by decide)
    · exact fun h => absurd (advance_mayRead h) (by decide)

end Programs

end InterProcGenKill
end Boogie
