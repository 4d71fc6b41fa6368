import Boogie.Core.InterProcPaths

/-!
# What the summaries contain

A summary has only variables that the procedure or one that it calls reads, and it is
the least one when no block that returns can be reached.
-/

namespace Boogie
namespace InterProcGenKill

open GenKill (Weight readAnywhere ofPath)

section Reads

variable {ProcName BlockId : Type} [DecidableEq ProcName]
variable {program : Program ProcName BlockId}

/-- A command of the procedure, or of one that it calls, reads the variable. -/
inductive MayRead (program : Program ProcName BlockId) : ProcName -> Variable -> Prop where
  | cmd (p : ProcName) (b : BlockId) (c : Cmd ProcName) (v : Variable)
      (hb : b ∈ (program.cfg p).blocks) (hc : c ∈ (program.cfg p).cmds b)
      (hinside : Inside program c)
      (hv : v ∈ readAnywhere (effects .all (program.scope p) c)) : MayRead program p v
  | call (p : ProcName) (b : BlockId) (c : CallCmd ProcName) (desugaring : Cmd ProcName)
      (v : Variable) (hb : b ∈ (program.cfg p).blocks)
      (hc : .call c desugaring ∈ (program.cfg p).cmds b) (hq : Analysed program c.proc)
      (hv : v ∈ beforeCallGen (program.procedures c.proc) c ∨
        v ∈ afterCallGen (program.procedures c.proc)) : MayRead program p v
  | callee (p q : ProcName) (v : Variable) (hcalls : Calls program p q)
      (hv : MayRead program q v) : MayRead program p v

/-- The weight is the least one unless `reaches`, and reads what is in `reads`. -/
def Within (reaches : Prop) (reads : Variable -> Prop) (w : Weight Variable) : Prop :=
  (w ≠ ⊥ -> reaches) ∧ forall v, v ∈ Weight.gen w -> reads v

theorem within_bot (reaches : Prop) (reads : Variable -> Prop) : Within reaches reads ⊥ :=
  ⟨fun h => absurd rfl h, fun _ h => absurd h (Finset.notMem_empty _)⟩

theorem Within.sup {reaches : Prop} {reads : Variable -> Prop} {w w' : Weight Variable}
    (h : Within reaches reads w) (h' : Within reaches reads w') :
    Within reaches reads (w ⊔ w') := by
  constructor
  · intro hne
    by_cases hw : w = ⊥
    · rw [hw, bot_sup_eq] at hne
      exact h'.1 hne
    · exact h.1 hw
  · intro v hv
    rw [GenKill.gen_sup] at hv
    rcases Finset.mem_union.mp hv with hv | hv
    · exact h.2 v hv
    · exact h'.2 v hv

theorem Within.mono {reaches reaches' : Prop} {reads : Variable -> Prop}
    {w : Weight Variable} (h : Within reaches reads w) (himp : reaches -> reaches') :
    Within reaches' reads w :=
  ⟨fun hne => himp (h.1 hne), h.2⟩

/-!
# Blocks
-/

theorem mayRead_of_mem_cmdValue {procICFG : List ProcName}
    (hprocs : forall p, p ∈ procICFG <-> Analysed program p)
    {summary : ProcName -> Weight Variable}
    (hsummary : forall q v, v ∈ Weight.gen (summary q) -> MayRead program q v)
    {p : ProcName} {b : BlockId} (hb : b ∈ (program.cfg p).blocks) {c : Cmd ProcName}
    (hc : c ∈ (program.cfg p).cmds b) {v : Variable}
    (hv : v ∈ Weight.gen (cmdValue program procICFG summary p c)) :
    MayRead program p v := by
  have hread : Inside program c ->
      v ∈ Weight.gen (ofPath (effects .counted (program.scope p) c)) ->
      MayRead program p v := by
    intro hinside hv
    exact .cmd p b c v hb hc hinside
      (readAnywhere_effects _ c (GenKill.readFirst_subset _ hv))
  cases c with
  | call call desugaring =>
    unfold cmdValue at hv
    dsimp only at hv
    split at hv
    next hmem =>
      have hq := (hprocs _).mp hmem
      rcases Finset.mem_union.mp hv with hv | hv
      · exact .call p b call desugaring v hb hc hq (Or.inl (List.mem_toFinset.mp hv))
      · refine .callee p call.proc v ⟨b, hq.isSome, hb, ?_⟩
          (hsummary _ v (Finset.mem_filter.mp hv).1)
        exact List.mem_filterMap.mpr ⟨_, hc, rfl⟩
    next hmem =>
      apply hread _ hv
      intro q hq
      cases hq
      exact fun h => hmem ((hprocs _).mpr h)
  | assign lhss rhss => exact hread (fun _ h => by cases h) hv
  | havoc vars => exact hread (fun _ h => by cases h) hv
  | predicate expr => exact hread (fun _ h => by cases h) hv
  | comment => exact hread (fun _ h => by cases h) hv
  | state locals cmds => exact hread (fun _ h => by cases h) hv

theorem cmdValue_ne_bot {procICFG : List ProcName}
    {summary : ProcName -> Weight Variable} {p : ProcName} (c : Cmd ProcName) :
    cmdValue program procICFG summary p c ≠ ⊥ := by
  unfold cmdValue
  cases c with
  | call call desugaring =>
    dsimp only
    split
    · exact WithBot.coe_ne_bot
    · exact WithBot.coe_ne_bot
  | assign lhss rhss => exact WithBot.coe_ne_bot
  | havoc vars => exact WithBot.coe_ne_bot
  | predicate expr => exact WithBot.coe_ne_bot
  | comment => exact WithBot.coe_ne_bot
  | state locals cmds => exact WithBot.coe_ne_bot

theorem blockValue_ne_bot {procICFG : List ProcName}
    {summary : ProcName -> Weight Variable} {p : ProcName} {cmds : List (Cmd ProcName)}
    {w : Weight Variable} (hw : w ≠ ⊥) :
    blockValue program procICFG summary p cmds w ≠ ⊥ := by
  induction cmds with
  | nil => exact hw
  | cons c cmds ih =>
    intro hbot
    rcases WithBot.map₂_eq_bot_iff.mp hbot with hbot | hbot
    · exact cmdValue_ne_bot c hbot
    · exact ih hbot

theorem blockValue_within {procICFG : List ProcName}
    (hprocs : forall p, p ∈ procICFG <-> Analysed program p)
    {summary : ProcName -> Weight Variable}
    (hsummary : forall q v, v ∈ Weight.gen (summary q) -> MayRead program q v)
    {p : ProcName} {b : BlockId} (hb : b ∈ (program.cfg p).blocks)
    {w : Weight Variable} {reaches : Prop} (hw : Within reaches (MayRead program p) w)
    {cmds : List (Cmd ProcName)} (hcmds : cmds ⊆ (program.cfg p).cmds b) :
    Within reaches (MayRead program p) (blockValue program procICFG summary p cmds w) := by
  constructor
  · intro hne
    apply hw.1
    intro hbot
    rw [hbot, ValueState.blockValue_bot] at hne
    exact hne rfl
  · intro v hv
    induction cmds with
    | nil => exact hw.2 v hv
    | cons c cmds ih =>
      rcases Finset.mem_union.mp (GenKill.gen_extend_subset _ _ hv) with hv | hv
      · exact mayRead_of_mem_cmdValue hprocs hsummary hb (hcmds List.mem_cons_self) hv
      · exact ih (List.subset_of_cons_subset hcmds) hv

/-!
# The loop
-/

variable [DecidableEq BlockId] {d : Discovery ProcName BlockId}

namespace ValueState

variable {s s' : ValueState ProcName BlockId}

def ItemWithin (program : Program ProcName BlockId) (x : WorkItem ProcName BlockId)
    (w : Weight Variable) : Prop :=
  Within ((program.cfg x.1).ReachesExit x.2) (MayRead program x.1) w

structure Bounded (program : Program ProcName BlockId) (s : ValueState ProcName BlockId) :
    Prop where
  workList : forall x, x ∈ s.workList -> x.2 ∈ (program.cfg x.1).blocks
  before : forall x, ItemWithin program x (s.before x)
  after : forall x, ItemWithin program x (s.after x)
  summary : forall p,
    ItemWithin program (p, (program.cfg p).first) (s.summary p)

omit [DecidableEq BlockId] in
theorem forall_update {Key : Type} [DecidableEq Key] {P : Key -> Weight Variable -> Prop}
    {f : Key -> Weight Variable} (hf : forall y, P y (f y)) {x : Key}
    {w : Weight Variable} (hw : P x w) (y : Key) : P y (Function.update f x w y) :=
  (Function.forall_update_iff f P).mpr ⟨hw, fun y _ => hf y⟩ y

omit [DecidableEq ProcName] [DecidableEq BlockId] in
theorem mem_of_grown {items l l' : List (WorkItem ProcName BlockId)}
    {P : WorkItem ProcName BlockId -> Prop} (h : Grown items l l')
    (hl : forall x, x ∈ l -> P x) (hitems : forall x, x ∈ items -> P x) :
    forall x, x ∈ l' -> P x := by
  rcases h with ⟨new, rfl, hnew⟩
  intro x hx
  rcases List.mem_append.mp hx with hx | hx
  · exact hl x hx
  · exact hitems x (hnew hx)

theorem setBefore_bounded (hs : Bounded program s) {x : WorkItem ProcName BlockId}
    {w : Weight Variable} (hw : ItemWithin program x w) :
    Bounded program (s.setBefore x w) where
  workList := hs.workList
  before := forall_update hs.before (hw.sup (hs.before x))
  after := hs.after
  summary := hs.summary

theorem raiseSummary_bounded (hd : Discovered program d) (hs : Bounded program s)
    {x : WorkItem ProcName BlockId} (hfirst : x.2 = (program.cfg x.1).first) :
    Bounded program (s.raiseSummary d.callers x) where
  workList := by
    refine mem_of_grown (addAll_grown _ _) hs.workList ?_
    intro y hy
    exact ((hd.callers _ _).mp hy).2.2.1
  before := hs.before
  after := hs.after
  summary := by
    refine @forall_update _ _
      (fun p w => ItemWithin program (p, (program.cfg p).first) w) _ hs.summary _ _ ?_
    exact (hs.summary x.1).sup (hfirst ▸ hs.before x)

theorem raisePredecessors_bounded (hs : Bounded program s)
    {x : WorkItem ProcName BlockId} {w : Weight Variable} (hw : ItemWithin program x w)
    {preds : List BlockId} (hpreds : preds ⊆ (program.cfg x.1).predecessors x.2) :
    Bounded program (preds.foldl (raisePredecessor x.1 w) s) := by
  induction preds generalizing s with
  | nil => exact hs
  | cons b preds ih =>
    rcases mem_predecessors.mp (hpreds List.mem_cons_self) with ⟨hblock, hedge⟩
    apply ih _ (List.subset_of_cons_subset hpreds)
    refine ⟨?_, hs.before, ?_, hs.summary⟩
    · refine mem_of_grown (addToWorkList_grown _ _) hs.workList ?_
      intro y hy
      rw [List.mem_singleton.mp hy]
      exact hblock
    · apply forall_update hs.after
      exact (hs.after _).sup (hw.mono (fun h => h.head hedge))

theorem pass_bounded (hd : Discovered program d) (hs : Bounded program s)
    {x : WorkItem ProcName BlockId} {w : Weight Variable}
    (hw : ItemWithin program x w) : Bounded program (s.pass program d x w) := by
  unfold pass
  split
  · exact hs
  · have hset := setBefore_bounded hs hw
    apply raisePredecessors_bounded _ hw (List.Subset.refl _)
    split
    next hfirst => exact raiseSummary_bounded hd hset hfirst
    next => exact hset

theorem step_bounded (hd : Discovered program d)
    (priority : WorkItem ProcName BlockId -> Int) (hs : Bounded program s)
    (hstep : s.step program d priority = some s') : Bounded program s' := by
  rcases Option.bind_eq_some_iff.mp hstep with ⟨⟨x, rest⟩, hget, hprocess⟩
  rcases getFromWorkList_eq_some hget with ⟨hx, rfl⟩
  unfold process at hprocess
  split at hprocess
  next hnode =>
    cases hprocess
    have hrest : Bounded program { s with workList := s.workList.erase x } :=
      ⟨fun y hy => hs.workList y (List.mem_of_mem_erase hy), hs.before, hs.after,
        hs.summary⟩
    apply pass_bounded hd hrest
    exact blockValue_within hd.analysed (fun q => (hs.summary q).2) (hs.workList x hx)
      (hs.after x) (List.Subset.refl _)
  next => cases hprocess

theorem initial_bounded : Bounded program (initial program d) where
  workList := fun _ hx => (mem_exitItems.mp (mem_addAll_nil.mp hx)).2.1
  before := fun _ => within_bot _ _
  after := by
    intro x
    rw [initial_after]
    split
    next hexit =>
      refine ⟨fun _ => ⟨x.2, Relation.ReflTransGen.refl,
        (mem_exitItems.mp hexit).2.2⟩, ?_⟩
      exact fun _ h => absurd h (Finset.notMem_empty _)
    next => exact within_bot _ _
  summary := fun _ => within_bot _ _

theorem whileWork_bounded (hd : Discovered program d)
    (priority : WorkItem ProcName BlockId -> Int) {n : Nat}
    (h : whileWork ValueState.workList (step program d priority) n (initial program d) =
      some s) : Bounded program s := by
  unfold whileWork at h
  split at h
  next =>
    cases h
    exact initial_bounded
  next =>
    exact (Rounds.repeatWhile_invariant
      (fun s s' hs hstep => step_bounded hd priority hs hstep) initial_bounded h).1

theorem itemValue_ne_bot (hd : Discovered program d) (hs : Invariant program d s)
    (hempty : s.workList = []) {p : ProcName} {b : BlockId} (hp : Analysed program p)
    (hblock : b ∈ (program.cfg p).blocks) (hreaches : (program.cfg p).ReachesExit b) :
    s.itemValue program d.procICFG (p, b) ≠ ⊥ := by
  rcases hreaches with ⟨e, hpath, hexit⟩
  induction hpath using Relation.ReflTransGen.head_induction_on with
  | refl =>
    apply blockValue_ne_bot
    intro hbot
    have hone := hs.exits (p, e)
      (mem_exitItems.mpr ⟨(hd.analysed p).mpr hp, hblock, hexit⟩)
    rw [hbot] at hone
    exact GenKill.not_weight_le_bot hone
  | @head b c hedge _ ih =>
    have hblock' := (program.cfg p).targets_mem b hblock c hedge
    have hsettled : s.Settled program d.procICFG (p, c) := by
      apply hs.settled _ hp hblock'
      rw [hempty]
      exact List.not_mem_nil
    apply blockValue_ne_bot
    intro hbot
    have hle := hsettled.1 (p, b) (mem_predItems.mpr ⟨rfl, hblock, hedge⟩)
    rw [hbot] at hle
    exact ih hblock' (le_bot_iff.mp hle)

end ValueState

end Reads

end InterProcGenKill
end Boogie
