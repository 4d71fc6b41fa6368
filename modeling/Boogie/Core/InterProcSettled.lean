import Boogie.Core.InterProcValues

/-!
# Values that are settled

An item that is not on the work list has passed its value on.  So when the work list
is empty, all values are above those that they are made of.
-/

namespace Boogie
namespace InterProcGenKill

open GenKill (Weight)

section Settled

variable {ProcName BlockId : Type} [DecidableEq ProcName] [DecidableEq BlockId]
variable {program : Program ProcName BlockId} {d : Discovery ProcName BlockId}

namespace ValueState

/-!
# Changes
-/

structure Raised (callers : ProcName -> List (WorkItem ProcName BlockId))
    (s s' : ValueState ProcName BlockId) : Prop where
  workList : s.workList ⊆ s'.workList
  after : forall y, s'.after y = s.after y ∨ s.after y ≤ s'.after y ∧ y ∈ s'.workList
  summary : forall p, s'.summary p = s.summary p ∨
    s.summary p ≤ s'.summary p ∧ callers p ⊆ s'.workList

variable {callers : ProcName -> List (WorkItem ProcName BlockId)}
variable {s s' s'' : ValueState ProcName BlockId} {x : WorkItem ProcName BlockId}

omit [DecidableEq ProcName] [DecidableEq BlockId] in
theorem Raised.after_le (h : Raised callers s s') (y : WorkItem ProcName BlockId) :
    s.after y ≤ s'.after y := by
  rcases h.after y with heq | ⟨hle, _⟩
  · rw [heq]
  · exact hle

omit [DecidableEq ProcName] [DecidableEq BlockId] in
theorem Raised.summary_le (h : Raised callers s s') (p : ProcName) :
    s.summary p ≤ s'.summary p := by
  rcases h.summary p with heq | ⟨hle, _⟩
  · rw [heq]
  · exact hle

omit [DecidableEq ProcName] [DecidableEq BlockId] in
theorem Raised.refl : Raised callers s s :=
  ⟨List.Subset.refl _, fun _ => Or.inl rfl, fun _ => Or.inl rfl⟩

omit [DecidableEq ProcName] [DecidableEq BlockId] in
theorem Raised.trans (h : Raised callers s s') (h' : Raised callers s' s'') :
    Raised callers s s'' where
  workList := List.Subset.trans h.workList h'.workList
  after := by
    intro y
    rcases h'.after y with heq' | ⟨hle', hy⟩
    · rcases h.after y with heq | ⟨hle, hy⟩
      · exact Or.inl (heq'.trans heq)
      · exact Or.inr ⟨heq' ▸ hle, h'.workList hy⟩
    · exact Or.inr ⟨(h.after_le y).trans hle', hy⟩
  summary := by
    intro p
    rcases h'.summary p with heq' | ⟨hle', hp⟩
    · rcases h.summary p with heq | ⟨hle, hp⟩
      · exact Or.inl (heq'.trans heq)
      · exact Or.inr ⟨heq' ▸ hle, List.Subset.trans hp h'.workList⟩
    · exact Or.inr ⟨(h.summary_le p).trans hle', hp⟩

theorem raiseSummary_raised :
    Raised callers s (s.raiseSummary callers x) ∧
      s.before x ≤ (s.raiseSummary callers x).summary x.1 := by
  unfold raiseSummary
  constructor
  · refine ⟨(addAll_grown _ _).subset, fun _ => Or.inl rfl, ?_⟩
    intro p
    by_cases hp : p = x.1
    · subst hp
      dsimp only
      rw [Function.update_self]
      exact Or.inr ⟨le_sup_left, subset_addAll _ _⟩
    · exact Or.inl (Function.update_of_ne hp _ _)
  · dsimp only
    rw [Function.update_self]
    exact le_sup_right

theorem raisePredecessor_raised (p : ProcName) (w : Weight Variable) (b : BlockId) :
    Raised callers s (s.raisePredecessor p w b) ∧ w ≤ (s.raisePredecessor p w b).after (p, b) := by
  unfold raisePredecessor
  constructor
  · refine ⟨(addToWorkList_grown _ _).subset, ?_, fun _ => Or.inl rfl⟩
    intro y
    by_cases hy : y = (p, b)
    · subst hy
      dsimp only
      rw [Function.update_self]
      exact Or.inr ⟨le_sup_left, mem_addToWorkList _ _⟩
    · exact Or.inl (Function.update_of_ne hy _ _)
  · dsimp only
    rw [Function.update_self]
    exact le_sup_right

theorem raisePredecessors_raised (p : ProcName) (w : Weight Variable) (preds : List BlockId) :
    Raised callers s (preds.foldl (raisePredecessor p w) s) ∧
      forall b, b ∈ preds -> w ≤ (preds.foldl (raisePredecessor p w) s).after (p, b) := by
  induction preds generalizing s with
  | nil => exact ⟨Raised.refl, fun _ h => absurd h List.not_mem_nil⟩
  | cons b preds ih =>
    rcases @raisePredecessor_raised _ _ _ _ callers s p w b with ⟨hfirst, hle⟩
    rcases @ih (s.raisePredecessor p w b) with ⟨hrest, hall⟩
    refine ⟨hfirst.trans hrest, ?_⟩
    intro c hc
    rcases List.mem_cons.mp hc with rfl | hc
    · exact hle.trans (hrest.after_le _)
    · exact hall c hc

theorem pass_raised (w : Weight Variable) :
    Raised d.callers s (s.pass program d x w) ∧
      (forall y, y ∈ predItems program x -> w ≤ (s.pass program d x w).after y) ∧
      (x.2 = (program.cfg x.1).first -> w ≤ (s.pass program d x w).summary x.1) := by
  unfold pass
  split
  next h =>
    rw [h]
    exact ⟨Raised.refl, fun _ _ => bot_le, fun _ => bot_le⟩
  next h =>
    have hbefore : w ≤ (s.setBefore x w).before x := by
      unfold setBefore
      dsimp only
      rw [Function.update_self]
      exact le_sup_left
    have hset : Raised d.callers s (s.setBefore x w) :=
      ⟨List.Subset.refl _, fun _ => Or.inl rfl, fun _ => Or.inl rfl⟩
    have hsummary : Raised d.callers s
          (if x.2 = (program.cfg x.1).first then
            (s.setBefore x w).raiseSummary d.callers x else s.setBefore x w) ∧
        (x.2 = (program.cfg x.1).first -> w ≤
          (if x.2 = (program.cfg x.1).first then
            (s.setBefore x w).raiseSummary d.callers x
          else s.setBefore x w).summary x.1) := by
      split
      next hfirst =>
        rcases @raiseSummary_raised _ _ _ _ d.callers (s.setBefore x w) x with
          ⟨hraised, hle⟩
        exact ⟨hset.trans hraised, fun _ => hbefore.trans hle⟩
      next hnot => exact ⟨hset, fun hfirst => absurd hfirst hnot⟩
    rcases hsummary with ⟨hsummary, hfirst⟩
    have hpreds := fun s => @raisePredecessors_raised _ _ _ _ d.callers s x.1 w
      ((program.cfg x.1).predecessors x.2)
    refine ⟨hsummary.trans (hpreds _).1, ?_, ?_⟩
    · intro y hy
      rcases List.mem_map.mp hy with ⟨b, hb, rfl⟩
      exact (hpreds _).2 b hb
    · intro h
      exact (hfirst h).trans ((hpreds _).1.summary_le _)

/-!
# The invariant
-/

def Settled (program : Program ProcName BlockId) (procICFG : List ProcName)
    (s : ValueState ProcName BlockId) (x : WorkItem ProcName BlockId) : Prop :=
  (forall y, y ∈ predItems program x -> s.itemValue program procICFG x ≤ s.after y) ∧
    (x.2 = (program.cfg x.1).first -> s.itemValue program procICFG x ≤ s.summary x.1)

structure Invariant (program : Program ProcName BlockId)
    (d : Discovery ProcName BlockId) (s : ValueState ProcName BlockId) : Prop where
  exits : forall x, x ∈ exitItems program d.procICFG -> GenKill.ofPath [] ≤ s.after x
  settled : forall x, Analysed program x.1 -> x.2 ∈ (program.cfg x.1).blocks ->
    x ∉ s.workList -> Settled program d.procICFG s x

omit [DecidableEq BlockId] in
theorem blockValue_congr {procICFG : List ProcName}
    {summary summary' : ProcName -> Weight Variable} {p : ProcName}
    {cmds : List (Cmd ProcName)} {w : Weight Variable}
    (h : forall q, q ∈ cmds.filterMap Cmd.callee? -> q ∈ procICFG -> summary' q = summary q) :
    blockValue program procICFG summary' p cmds w =
      blockValue program procICFG summary p cmds w := by
  induction cmds with
  | nil => rfl
  | cons c cmds ih =>
    have hrest : forall q, q ∈ cmds.filterMap Cmd.callee? ->
        q ∈ (c :: cmds).filterMap Cmd.callee? := by
      intro q hq
      rcases List.mem_filterMap.mp hq with ⟨c', hc', hcallee⟩
      exact List.mem_filterMap.mpr ⟨c', List.mem_cons_of_mem _ hc', hcallee⟩
    have hcmd : cmdValue program procICFG summary' p c =
        cmdValue program procICFG summary p c := by
      cases c with
      | call call desugaring =>
        unfold cmdValue
        dsimp only
        split
        next hanalysed =>
          rw [h call.proc (List.mem_filterMap.mpr ⟨_, List.mem_cons_self, rfl⟩)
            hanalysed]
        next => rfl
      | assign lhss rhss => rfl
      | havoc vars => rfl
      | predicate expr => rfl
      | comment => rfl
      | state locals cmds => rfl
    rw [blockValue, blockValue, hcmd, ih (fun q hq => h q (hrest q hq))]

omit [DecidableEq BlockId] in
theorem itemValue_eq (hd : Discovered program d) (hraised : Raised d.callers s s')
    (hp : Analysed program x.1) (hblock : x.2 ∈ (program.cfg x.1).blocks) (hx : x ∉ s'.workList) :
    s'.itemValue program d.procICFG x = s.itemValue program d.procICFG x := by
  unfold itemValue
  have hafter : s'.after x = s.after x := by
    rcases hraised.after x with heq | ⟨_, hmem⟩
    · exact heq
    · exact absurd hmem hx
  rw [hafter]
  apply blockValue_congr
  intro q hq hanalysed
  rcases hraised.summary q with heq | ⟨_, hsub⟩
  · exact heq
  · have hcalls : CallsAt program x q :=
      ⟨((hd.analysed q).mp hanalysed).isSome, hblock, hq⟩
    exact absurd (hsub ((hd.callers q x).mpr ⟨hp, hcalls⟩)) hx

theorem step_invariant (hd : Discovered program d)
    (priority : WorkItem ProcName BlockId -> Int) (hs : Invariant program d s)
    (hstep : s.step program d priority = some s') : Invariant program d s' := by
  rcases Option.bind_eq_some_iff.mp hstep with ⟨⟨x, rest⟩, hget, hprocess⟩
  have hrest := (getFromWorkList_eq_some hget).2
  unfold process at hprocess
  split at hprocess
  next hnode =>
    cases hprocess
    rcases @pass_raised _ _ _ _ program d { s with workList := rest } x
      (itemValue program d.procICFG { s with workList := rest } x) with
      ⟨hraised, hpreds, hfirst⟩
    constructor
    · intro y hy
      exact (hs.exits y hy).trans (hraised.after_le y)
    · intro y hp hblock hy
      have hvalue := itemValue_eq hd hraised hp hblock hy
      by_cases hyx : y = x
      · subst hyx
        rw [Settled, hvalue]
        exact ⟨hpreds, hfirst⟩
      · have hold : y ∉ s.workList := by
          intro hmem
          apply hy
          apply hraised.workList
          rw [hrest]
          exact (List.mem_erase_of_ne hyx).mpr hmem
        rcases hs.settled y hp hblock hold with ⟨hpreds, hfirst⟩
        rw [Settled, hvalue]
        exact ⟨fun z hz => (hpreds z hz).trans (hraised.after_le z),
          fun h => (hfirst h).trans (hraised.summary_le _)⟩
  next => cases hprocess

omit [DecidableEq BlockId] in
theorem blockValue_bot {procICFG : List ProcName}
    {summary : ProcName -> Weight Variable} {p : ProcName} (cmds : List (Cmd ProcName)) :
    blockValue program procICFG summary p cmds ⊥ = ⊥ := by
  induction cmds with
  | nil => rfl
  | cons c cmds ih => rw [blockValue, ih, GenKill.extend_bot]

theorem initial_after (x : WorkItem ProcName BlockId) : (initial program d).after x =
    if x ∈ exitItems program d.procICFG then GenKill.ofPath [] else ⊥ :=
  rfl

theorem initial_invariant : Invariant program d (initial program d) := by
  constructor
  · intro x hx
    rw [initial_after, if_pos hx]
  · intro x _ _ hx
    have hexit : x ∉ exitItems program d.procICFG := fun h => hx (mem_addAll_nil.mpr h)
    have hvalue : (initial program d).itemValue program d.procICFG x = ⊥ := by
      rw [itemValue, initial_after, if_neg hexit, blockValue_bot]
    rw [Settled, hvalue]
    exact ⟨fun _ _ => bot_le, fun _ => bot_le⟩

theorem whileWork_settled (hd : Discovered program d)
    (priority : WorkItem ProcName BlockId -> Int) {n : Nat}
    (h : whileWork ValueState.workList (step program d priority) n (initial program d) =
      some s) : Invariant program d s ∧ s.workList = [] := by
  unfold whileWork at h
  split at h
  next hempty =>
    cases h
    exact ⟨initial_invariant, by simpa using hempty⟩
  next =>
    rcases Rounds.repeatWhile_invariant
      (fun s s' hs hstep => step_invariant hd priority hs hstep) initial_invariant h with
      ⟨hs, hempty⟩
    exact ⟨hs, by simpa using hempty⟩

end ValueState

end Settled

end InterProcGenKill
end Boogie
