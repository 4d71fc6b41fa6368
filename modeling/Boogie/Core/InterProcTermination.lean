import Boogie.Core.InterProcItems

/-!
# Both loops end

Without recursion and without loops that can return, items only put items below them
on the work list.
-/

namespace Boogie
namespace InterProcGenKill

section Termination

variable {ProcName BlockId : Type} [DecidableEq ProcName] [DecidableEq BlockId]
variable {program : Program ProcName BlockId} {d : Discovery ProcName BlockId}

/-- Every block that can get on a work list is a key of `predEdges`. -/
def Registered (program : Program ProcName BlockId) (p : ProcName) : Prop :=
  forall b, b ∈ (program.cfg p).blocks -> (program.cfg p).isNode b = false ->
    (program.cfg p).isExit b = false ∧
      forall q, CallsAt program (p, b) q ->
        ¬ (program.cfg q).ReachesExit (program.cfg q).first

theorem isNode_predItem {x y : WorkItem ProcName BlockId} (hy : y ∈ predItems program x) :
    (program.cfg y.1).isNode y.2 = true := by
  rcases mem_predItems.mp hy with ⟨hp, _, hedge⟩
  rw [hp]
  exact isNode_of_successor hedge

theorem Registered.exit (h : forall p, Analysed program p -> Registered program p)
    {x : WorkItem ProcName BlockId} (hx : Returns program x)
    (hexit : (program.cfg x.1).isExit x.2 = true) :
    (program.cfg x.1).isNode x.2 = true := by
  by_contra hnode
  have hnot := (h x.1 hx.1 x.2 hx.2.1 (eq_false_of_ne_true hnode)).1
  rw [hexit] at hnot
  cases hnot

theorem Registered.caller (h : forall p, Analysed program p -> Registered program p)
    (hd : Discovered program d) {x y : WorkItem ProcName BlockId}
    (hx : Returns program x) (hy : y ∈ callersOf program d x) :
    (program.cfg y.1).isNode y.2 = true := by
  by_contra hnode
  rcases mem_callersOf.mp hy with ⟨hfirst, hcaller⟩
  rcases (hd.callers _ _).mp hcaller with ⟨hp, hcalls⟩
  have hnot := (h y.1 hp y.2 hcalls.2.1 (eq_false_of_ne_true hnode)).2 x.1 hcalls
  rw [← hfirst] at hnot
  exact hnot hx.2.2

/-!
# One round
-/

omit [DecidableEq ProcName] [DecidableEq BlockId] in
theorem minItem_mem (priority : WorkItem ProcName BlockId -> Int)
    (x : WorkItem ProcName BlockId) (others : List (WorkItem ProcName BlockId)) :
    minItem priority x others ∈ x :: others := by
  induction others generalizing x with
  | nil => exact List.mem_singleton_self x
  | cons y others ih =>
    unfold minItem
    split
    · exact List.mem_cons_of_mem x (ih y)
    · rcases List.mem_cons.mp (ih x) with h | h
      · exact List.mem_cons.mpr (Or.inl h)
      · exact List.mem_cons_of_mem _ (List.mem_cons_of_mem _ h)

theorem getFromWorkList_eq_some {priority : WorkItem ProcName BlockId -> Int}
    {workList rest : List (WorkItem ProcName BlockId)} {x : WorkItem ProcName BlockId}
    (h : getFromWorkList priority workList = some (x, rest)) :
    x ∈ workList ∧ rest = workList.erase x := by
  unfold getFromWorkList at h
  split at h
  next => cases h
  next y others =>
    cases h
    exact ⟨minItem_mem priority y others, rfl⟩

theorem getFromWorkList_spec (priority : WorkItem ProcName BlockId -> Int)
    {workList : List (WorkItem ProcName BlockId)} (hmore : workList ≠ []) :
    exists x, x ∈ workList ∧ getFromWorkList priority workList = some (x, workList.erase x) := by
  cases hget : getFromWorkList priority workList with
  | none =>
    cases workList with
    | nil => exact absurd rfl hmore
    | cons y others => cases hget
  | some p =>
    rcases p with ⟨x, rest⟩
    rcases getFromWorkList_eq_some hget with ⟨hx, rfl⟩
    exact ⟨x, hx, rfl⟩

structure WeightInvariant (program : Program ProcName BlockId)
    (s : WeightState ProcName BlockId) : Prop where
  valid : s.Valid
  returns : forall x, s.Live x -> Returns program x
  isNode : forall x, x ∈ s.workList -> (program.cfg x.1).isNode x.2 = true

theorem weightStep_spec (hd : Discovered program d)
    (hregistered : forall p, Analysed program p -> Registered program p)
    (priority : WorkItem ProcName BlockId -> Int) {s : WeightState ProcName BlockId}
    (hs : WeightInvariant program s) (hmore : s.workList ≠ []) :
    exists s' x, weightStep program d priority s = some s' ∧
      WeightInvariant program s' ∧ x ∈ s.workList ∧
      Rounds.Replaced (Upwards program d) x s.workList s'.workList := by
  rcases getFromWorkList_spec priority hmore with ⟨x, hx, hget⟩
  have hvalid : WeightState.Valid { s with workList := s.workList.erase x } :=
    ⟨hs.valid.weightBefore, hs.valid.weightAfter, hs.valid.summary⟩
  rcases @process_spec _ _ _ _ program d _ hvalid x (hs.isNode x hx) with
    ⟨s', hprocess, heffect⟩
  have hitems : forall (items : List (WorkItem ProcName BlockId)) y,
      y ∈ unlessZero (s.weightAfter x) items -> Returns program x ∧ y ∈ items := by
    intro items y hy
    rcases mem_unlessZero.mp hy with ⟨hlive, hy⟩
    exact ⟨hs.returns x hlive, hy⟩
  refine ⟨s', x, ?_, ⟨heffect.valid, ?_, ?_⟩, hx, ?_⟩
  · rw [weightStep, hget, Option.bind_some]
    exact hprocess
  · intro y hy
    rcases (heffect.live y).mp hy with hy | hy
    · exact hs.returns y hy
    · rcases hitems _ y hy with ⟨hreturns, hy⟩
      exact returns_predItem hreturns hy
  · intro y hy
    rcases heffect.grown with ⟨new, hwork, hnew⟩
    rw [hwork] at hy
    rcases List.mem_append.mp hy with hy | hy
    · exact hs.isNode y (List.mem_of_mem_erase hy)
    · rcases hitems _ y (hnew hy) with ⟨hreturns, hy⟩
      rcases List.mem_append.mp hy with hy | hy
      · exact Registered.caller hregistered hd hreturns hy
      · exact isNode_predItem hy
  · rcases heffect.grown with ⟨new, hwork, hnew⟩
    exact ⟨new, hwork, fun y hy => hitems _ y (hnew hy)⟩

/-!
# Live variables
-/

omit [DecidableEq ProcName] [DecidableEq BlockId] in
theorem Grown.mono {items items' l l' : List (WorkItem ProcName BlockId)}
    (h : Grown items l l') (hsub : items ⊆ items') : Grown items' l l' := by
  rcases h with ⟨new, hl, hnew⟩
  exact ⟨new, hl, List.Subset.trans hnew hsub⟩

theorem enterCallee_grown (elv : Finset Variable)
    (items : List (WorkItem ProcName BlockId)) (s : LiveState ProcName BlockId) :
    Grown items s.workList (items.foldl (enterCallee elv) s).workList := by
  induction items generalizing s with
  | nil => exact Grown.refl _ _
  | cons x items ih => exact (addToWorkList_grown x s.workList).trans (ih _)

theorem processCmds_grown {procICFG : List ProcName}
    {summary : ProcName -> GenKillWeight} (cmds : List (Cmd ProcName))
    (r : Finset Variable × LiveState ProcName BlockId) :
    Grown (exitItems program
        ((cmds.filterMap Cmd.callee?).filter (fun q => q ∈ procICFG))) r.2.workList
      (processCmds program procICFG summary cmds r).2.workList := by
  induction cmds with
  | nil => exact Grown.refl _ _
  | cons c cmds ih =>
    have hrest : exitItems program
          ((cmds.filterMap Cmd.callee?).filter (fun q => q ∈ procICFG)) ⊆
        exitItems program
          (((c :: cmds).filterMap Cmd.callee?).filter (fun q => q ∈ procICFG)) := by
      intro x hx
      rcases mem_exitItems.mp hx with ⟨hp, hexit⟩
      refine mem_exitItems.mpr ⟨?_, hexit⟩
      rw [List.mem_filter] at hp ⊢
      refine ⟨?_, hp.2⟩
      rw [List.mem_filterMap] at hp ⊢
      rcases hp.1 with ⟨c', hc', hcallee⟩
      exact ⟨c', List.mem_cons_of_mem _ hc', hcallee⟩
    have hgrown := ih.mono hrest
    rw [processCmds]
    cases c with
    | call call desugaring =>
      dsimp only
      split
      next hanalysed =>
        refine (hgrown.trans (enterCallee_grown _ _ _)).mono ?_
        intro x hx
        rcases List.mem_append.mp hx with hx | hx
        · exact hx
        · rcases mem_exitItems.mp hx with ⟨hp, hexit⟩
          refine mem_exitItems.mpr ⟨?_, hexit⟩
          rw [List.mem_singleton.mp hp, List.mem_filter, List.mem_filterMap]
          exact ⟨⟨_, List.mem_cons_self, rfl⟩, decide_eq_true hanalysed⟩
      next => exact hgrown
    | assign lhss rhss => exact hgrown
    | havoc vars => exact hgrown
    | predicate expr => exact hgrown
    | comment => exact hgrown
    | state locals cmds => exact hgrown

theorem updateLivePredecessors_grown (x : WorkItem ProcName BlockId)
    (preds : List BlockId) (s : LiveState ProcName BlockId) :
    Grown (preds.map (fun b => (x.1, b))) s.workList
      (preds.foldl (updateLivePredecessor x) s).workList := by
  induction preds generalizing s with
  | nil => exact Grown.refl _ _
  | cons b preds ih =>
    have hfirst : Grown [(x.1, b)] s.workList
        (updateLivePredecessor x s b).workList := by
      unfold updateLivePredecessor
      dsimp only
      split
      · exact Grown.refl _ _
      · exact addToWorkList_grown _ _
    exact hfirst.trans (ih _)

theorem processLV_spec {procICFG : List ProcName}
    {summary : ProcName -> GenKillWeight} (s : LiveState ProcName BlockId)
    {x : WorkItem ProcName BlockId} (h : (program.cfg x.1).isNode x.2 = true) :
    exists s', processLV program procICFG summary s x = some s' ∧
      Grown (calledExits program procICFG x ++ predItems program x) s.workList s'.workList := by
  unfold processLV Implementation.predEdges
  rw [if_pos h]
  have hcmds := @processCmds_grown _ _ _ _ program procICFG summary
    ((program.cfg x.1).cmds x.2) (s.liveVarsAfter x, s)
  generalize processCmds program procICFG summary ((program.cfg x.1).cmds x.2)
    (s.liveVarsAfter x, s) = r at hcmds ⊢
  rcases r with ⟨prop, s'⟩
  refine ⟨_, rfl, ?_⟩
  exact Grown.trans hcmds (updateLivePredecessors_grown x _ _)

def LiveInvariant (program : Program ProcName BlockId)
    (s : LiveState ProcName BlockId) : Prop :=
  forall x, x ∈ s.workList ->
    Returns program x ∧ (program.cfg x.1).isNode x.2 = true

theorem liveStep_spec (hd : Discovered program d)
    (hregistered : forall p, Analysed program p -> Registered program p)
    (summary : ProcName -> GenKillWeight)
    (priority : WorkItem ProcName BlockId -> Int) {s : LiveState ProcName BlockId}
    (hs : LiveInvariant program s) (hmore : s.workList ≠ []) :
    exists s' x, liveStep program d.procICFG summary priority s = some s' ∧
      LiveInvariant program s' ∧ x ∈ s.workList ∧
      Rounds.Replaced (Downwards program d) x s.workList s'.workList := by
  rcases getFromWorkList_spec priority hmore with ⟨x, hx, hget⟩
  rcases hs x hx with ⟨hreturns, hnode⟩
  rcases @processLV_spec _ _ _ _ program d.procICFG summary
    { s with workList := s.workList.erase x } x hnode with ⟨s', hprocess, new, hwork, hnew⟩
  refine ⟨s', x, ?_, ?_, hx, new, hwork, fun y hy => ⟨hreturns, hnew hy⟩⟩
  · rw [liveStep, hget, Option.bind_some]
    exact hprocess
  · intro y hy
    rw [hwork] at hy
    rcases List.mem_append.mp hy with hy | hy
    · exact hs y (List.mem_of_mem_erase hy)
    · rcases List.mem_append.mp (hnew hy) with hy | hy
      · rcases mem_calledExits hd hreturns.2.1 hy with ⟨_, hcallee, hexit⟩
        exact ⟨hcallee, Registered.exit hregistered hcallee hexit⟩
      · exact ⟨returns_predItem hreturns hy, isNode_predItem hy⟩

/-!
# Whole loops
-/

theorem exists_whileWork {State : Type}
    {work : State -> List (WorkItem ProcName BlockId)} {step : State -> Option State}
    {inv : State -> Prop}
    {below : WorkItem ProcName BlockId -> WorkItem ProcName BlockId -> Prop}
    (hbelow : WellFounded below)
    (hstep : forall s, inv s -> work s ≠ [] -> exists s' x, step s = some s' ∧ inv s' ∧
      x ∈ work s ∧ Rounds.Replaced below x (work s) (work s'))
    {s : State} (hs : inv s) :
    exists n result, forall m, n ≤ m -> whileWork work step m s = some result := by
  cases hwork : work s with
  | nil =>
    refine ⟨0, s, fun m _ => ?_⟩
    rw [whileWork, hwork]
    rfl
  | cons x workList =>
    have hmore : work s ≠ [] := hwork ▸ List.cons_ne_nil _ _
    rcases Rounds.exists_repeatWhile_of_items hbelow hstep hs hmore with
      ⟨n, result, hruns, _⟩
    refine ⟨n, result, fun m hm => ?_⟩
    rw [whileWork, hwork]
    exact hruns m hm

omit [DecidableEq ProcName] [DecidableEq BlockId] in
theorem whileWork_mono {State : Type} {work : State -> List (WorkItem ProcName BlockId)}
    {step : State -> Option State} {n m : Nat} (hle : n ≤ m) {s result : State}
    (h : whileWork work step n s = some result) :
    whileWork work step m s = some result := by
  unfold whileWork at h ⊢
  split at h
  next hempty => rwa [if_pos hempty]
  next hempty =>
    rw [if_neg hempty]
    exact Rounds.repeatWhile_mono hle h

theorem initialWeights_valid (program : Program ProcName BlockId)
    (d : Discovery ProcName BlockId) (memo : Memo) :
    (initialWeights program d memo).Valid := by
  refine ⟨fun x => (Yields.zero memo).2.2, fun x => ?_, fun p => (Yields.zero memo).2.2⟩
  change GenKillWeight.Allocated (if _ then _ else _) _
  split
  · exact (Yields.one memo).2.2
  · exact (Yields.zero memo).2.2

theorem initialWeights_live {memo : Memo} {x : WorkItem ProcName BlockId} :
    (initialWeights program d memo).Live x <-> x ∈ exitItems program d.procICFG := by
  change (if _ then _ else _ : GenKillWeight).isZero = false <-> _
  split
  next h => exact iff_of_true rfl h
  next h => exact iff_of_false (fun hzero => nomatch hzero) h

omit [DecidableEq BlockId] in
theorem mem_addAll_nil [DecidableEq BlockId] {items : List (WorkItem ProcName BlockId)}
    {x : WorkItem ProcName BlockId} :
    x ∈ items.foldl (fun l x => addToWorkList x l) [] <-> x ∈ items := by
  constructor
  · intro hx
    rcases addAll_grown items [] with ⟨new, hwork, hnew⟩
    rw [hwork] at hx
    exact hnew hx
  · exact fun hx => subset_addAll items [] hx

theorem initialWeights_invariant (hd : Discovered program d)
    (hregistered : forall p, Analysed program p -> Registered program p) (memo : Memo) :
    WeightInvariant program (initialWeights program d memo) := by
  have hreturns : forall x, x ∈ exitItems program d.procICFG -> Returns program x :=
    fun x hx => returns_of_mem_exitItems (fun p hp => (hd.analysed p).mp hp) hx
  refine ⟨initialWeights_valid program d memo,
    fun x hx => hreturns x (initialWeights_live.mp hx), ?_⟩
  intro x hx
  have hexit := mem_addAll_nil.mp hx
  exact Registered.exit hregistered (hreturns x hexit) (mem_exitItems.mp hexit).2.2

theorem initialLiveVars_invariant
    (hregistered : forall p, Analysed program p -> Registered program p) (memo : Memo) :
    LiveInvariant program (initialLiveVars program memo) := by
  intro x hx
  have hexit := mem_addAll_nil.mp hx
  have hreturns : Returns program x := by
    apply returns_of_mem_exitItems _ hexit
    intro p hp
    rw [List.mem_singleton.mp hp]
    exact Relation.ReflTransGen.refl
  exact ⟨hreturns, Registered.exit hregistered hreturns (mem_exitItems.mp hexit).2.2⟩

theorem compute_ends (hacyclic : AcyclicCalls program)
    (hloops : forall p, Analysed program p -> ¬ (program.cfg p).LoopsToExit)
    (hregistered : forall p, Analysed program p -> Registered program p)
    (priorities : Priorities ProcName BlockId) (memo : Memo) :
    exists n r, forall m, n ≤ m -> compute program priorities memo m = some r := by
  rcases discover_spec program with ⟨n, d, hdiscover, hd⟩
  rcases exists_whileWork (upwards_wellFounded hd hacyclic hloops)
    (fun _ hs hmore => weightStep_spec hd hregistered priorities.forward hs hmore)
    (initialWeights_invariant hd hregistered memo) with ⟨n', s, hweights⟩
  rcases exists_whileWork (downwards_wellFounded hd hacyclic hloops)
    (fun _ hs hmore => liveStep_spec hd hregistered s.summary priorities.reverse hs hmore)
    (initialLiveVars_invariant hregistered s.memo) with ⟨n'', live, hlive⟩
  refine ⟨max n (max n' n''), ⟨d.procICFG, s, live⟩, fun m hm => ?_⟩
  rcases max_le_iff.mp hm with ⟨hn, hm⟩
  rcases max_le_iff.mp hm with ⟨hn', hn''⟩
  simp only [compute, hdiscover m hn, hweights m hn', hlive m hn'', Option.bind_eq_bind,
    Option.bind_some]

end Termination

end InterProcGenKill
end Boogie
