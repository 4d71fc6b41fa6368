import Boogie.Core.InterProcTermination

/-!
# When both loops end

A combination of weights that are not zero is never equal to the one before, so that
the items of a loop are put on the work list again and again.
-/

namespace Boogie
namespace InterProcGenKill

section Endless

variable {ProcName BlockId : Type} [DecidableEq ProcName] [DecidableEq BlockId]
variable {program : Program ProcName BlockId} {d : Discovery ProcName BlockId}

/-- The block is on a loop, or processing it fails, or it puts an item on the work list
for which this is so. -/
def Stuck (program : Program ProcName BlockId) (x : WorkItem ProcName BlockId) : Prop :=
  Relation.TransGen (program.cfg x.1).Edge x.2 x.2 ∨
    (program.cfg x.1).isNode x.2 = false ∨
    x.2 = (program.cfg x.1).first ∧ exists y, Analysed program y.1 ∧
      CallsAt program y x.1 ∧ (program.cfg y.1).isNode y.2 = false

def Doomed (program : Program ProcName BlockId) (x : WorkItem ProcName BlockId) : Prop :=
  exists b, b ∈ (program.cfg x.1).blocks ∧
    Relation.ReflTransGen (program.cfg x.1).Edge b x.2 ∧ Stuck program (x.1, b)

theorem doomed_predItem {p : ProcName} {a b c : BlockId} (ha : a ∈ (program.cfg p).blocks)
    (hpath : Relation.ReflTransGen (program.cfg p).Edge a b)
    (hedge : (program.cfg p).Edge b c) (hstuck : Stuck program (p, a)) :
    (p, b) ∈ predItems program (p, c) ∧ Doomed program (p, b) :=
  ⟨mem_predItems.mpr ⟨rfl, Implementation.mem_blocks_of_reaches ha hpath, hedge⟩,
    a, ha, hpath, hstuck⟩

theorem Doomed.next (hd : Discovered program d) {x : WorkItem ProcName BlockId}
    (hx : Doomed program x) (hnode : (program.cfg x.1).isNode x.2 = true) :
    exists y, Doomed program y ∧ (y ∈ predItems program x ∨
      y ∈ callersOf program d x ∧ (program.cfg y.1).isNode y.2 = false) := by
  rcases x with ⟨p, c⟩
  rcases hx with ⟨a, ha, hpath, hstuck⟩
  rcases Relation.ReflTransGen.cases_tail hpath with rfl | ⟨b, hpath, hedge⟩
  · rcases hstuck with hloop | hnode' | ⟨hfirst, y, hp, hcalls, hnode'⟩
    · rcases Relation.TransGen.tail'_iff.mp hloop with ⟨b, hpath, hedge⟩
      rcases doomed_predItem ha hpath hedge (Or.inl hloop) with ⟨hb, hdoomed⟩
      exact ⟨(p, b), hdoomed, Or.inl hb⟩
    · rw [hnode] at hnode'
      cases hnode'
    · refine ⟨y, ⟨y.2, hcalls.2.1, Relation.ReflTransGen.refl, Or.inr (Or.inl hnode')⟩,
        Or.inr ⟨mem_callersOf.mpr ⟨hfirst, ?_⟩, hnode'⟩⟩
      exact (hd.callers _ _).mpr ⟨hp, hcalls⟩
  · rcases doomed_predItem ha hpath hedge hstuck with ⟨hb, hdoomed⟩
    exact ⟨(p, b), hdoomed, Or.inl hb⟩

/-- A doomed item is on the work list, and processing it fails or goes on. -/
def Endless (program : Program ProcName BlockId) (s : WeightState ProcName BlockId) :
    Prop :=
  s.Valid ∧ exists x, x ∈ s.workList ∧ Doomed program x ∧
    (s.Live x ∨ (program.cfg x.1).isNode x.2 = false)

theorem weightStep_endless (hd : Discovered program d)
    (priority : WorkItem ProcName BlockId -> Int) {s s' : WeightState ProcName BlockId}
    (hs : Endless program s) (hstep : weightStep program d priority s = some s') :
    Endless program s' := by
  rcases hs with ⟨hvalid, x, hx, hdoomed, hlive⟩
  rcases getFromWorkList_spec priority (List.ne_nil_of_mem hx) with ⟨y, hy, hget⟩
  rw [weightStep, hget, Option.bind_some] at hstep
  dsimp only at hstep
  cases hnode : (program.cfg y.1).isNode y.2 with
  | false =>
    rw [process_eq_none hnode] at hstep
    cases hstep
  | true =>
    have hvalid' : WeightState.Valid { s with workList := s.workList.erase y } :=
      ⟨hvalid.weightBefore, hvalid.weightAfter, hvalid.summary⟩
    rcases @process_spec _ _ _ _ program d _ hvalid' y hnode with
      ⟨s'', hprocess, heffect⟩
    rw [hprocess] at hstep
    cases hstep
    refine ⟨heffect.valid, ?_⟩
    by_cases hxy : x = y
    · subst hxy
      have hzero : (s.weightAfter x).isZero = false := by
        rcases hlive with hlive | hnot
        · exact hlive
        · rw [hnode] at hnot
          cases hnot
      rcases hdoomed.next hd hnode with ⟨z, hz, hpred | ⟨hcaller, hnot⟩⟩
      · refine ⟨z, heffect.added (mem_unlessZero.mpr
          ⟨hzero, List.mem_append_right _ hpred⟩), hz, Or.inl ?_⟩
        exact (heffect.live z).mpr (Or.inr (mem_unlessZero.mpr ⟨hzero, hpred⟩))
      · exact ⟨z, heffect.added (mem_unlessZero.mpr
          ⟨hzero, List.mem_append_left _ hcaller⟩), hz, Or.inr hnot⟩
    · refine ⟨x, heffect.grown.subset ((List.mem_erase_of_ne hxy).mpr hx), hdoomed, ?_⟩
      exact hlive.imp_left (fun hlive => (heffect.live x).mpr (Or.inl hlive))

theorem whileWork_endless (hd : Discovered program d)
    (priority : WorkItem ProcName BlockId -> Int) {s : WeightState ProcName BlockId}
    (hs : Endless program s) (n : Nat) :
    whileWork WeightState.workList (weightStep program d priority) n s = none := by
  have hmore : forall {s : WeightState ProcName BlockId}, Endless program s ->
      s.workList.isEmpty = false := by
    intro s ⟨_, x, hx, _⟩
    rw [List.isEmpty_eq_false_iff]
    exact List.ne_nil_of_mem hx
  rw [whileWork, hmore hs]
  refine @Rounds.repeatWhile_eq_none _ _ _ (Endless program) ?_ s hs n
  intro s s' hs hstep
  have hs' := weightStep_endless hd priority hs hstep
  exact ⟨hs', by rw [hmore hs']; rfl⟩

theorem initialWeights_endless (hd : Discovered program d) (memo : Memo)
    {x : WorkItem ProcName BlockId} (hp : Analysed program x.1)
    (hblock : x.2 ∈ (program.cfg x.1).blocks)
    (hexit : (program.cfg x.1).isExit x.2 = true) (hx : Doomed program x) :
    Endless program (initialWeights program d memo) := by
  have hmem : x ∈ exitItems program d.procICFG :=
    mem_exitItems.mpr ⟨(hd.analysed _).mpr hp, hblock, hexit⟩
  exact ⟨initialWeights_valid program d memo, x, mem_addAll_nil.mpr hmem, hx,
    Or.inl (initialWeights_live.mpr hmem)⟩

theorem exists_doomed {p : ProcName} (hp : Analysed program p)
    (h : (program.cfg p).LoopsToExit ∨ ¬ Registered program p) :
    exists x, Analysed program x.1 ∧ x.2 ∈ (program.cfg x.1).blocks ∧
      (program.cfg x.1).isExit x.2 = true ∧ Doomed program x := by
  rcases h with ⟨b, hb, hloop, e, hpath, hexit⟩ | h
  · exact ⟨(p, e), hp, Implementation.mem_blocks_of_reaches hb hpath, hexit, b, hb, hpath,
      Or.inl hloop⟩
  · unfold Registered at h
    push Not at h
    rcases h with ⟨b, hb, hnode, h⟩
    cases hexit : (program.cfg p).isExit b with
    | true =>
      exact ⟨(p, b), hp, hb, hexit, b, hb, Relation.ReflTransGen.refl,
        Or.inr (Or.inl hnode)⟩
    | false =>
      rcases h hexit with ⟨q, hcalls, e, hpath, hexit'⟩
      have hfirst : (program.cfg q).first ∈ (program.cfg q).blocks :=
        List.mem_cons_self
      exact ⟨(q, e), hp.tail ⟨b, hcalls⟩,
        Implementation.mem_blocks_of_reaches hfirst hpath, hexit', _, hfirst, hpath,
        Or.inr (Or.inr ⟨rfl, (p, b), hp, hcalls, hnode⟩)⟩

theorem not_compute_ends {p : ProcName} (hp : Analysed program p)
    (h : (program.cfg p).LoopsToExit ∨ ¬ Registered program p)
    (priorities : Priorities ProcName BlockId) (memo : Memo) :
    ¬ exists n r, forall m, n ≤ m -> compute program priorities memo m = some r := by
  intro ⟨n, r, hcompute⟩
  rcases discover_spec program with ⟨n', d, hdiscover, hd⟩
  rcases exists_doomed hp h with ⟨x, hp', hblock, hexit, hx⟩
  have hnone := whileWork_endless hd priorities.forward
    (initialWeights_endless hd memo hp' hblock hexit hx) (max n n')
  have hsome := hcompute (max n n') (le_max_left n n')
  simp only [compute, hdiscover _ (le_max_right n n'), hnone, Option.bind_eq_bind,
    Option.bind_some, Option.bind_none] at hsome
  cases hsome

/-- Without recursion, both loops end if and only if no procedure loops on the way to
a block that returns, and every block they get to is registered. -/
theorem compute_ends_iff (hacyclic : AcyclicCalls program)
    (priorities : Priorities ProcName BlockId) (memo : Memo) :
    (exists n r, forall m, n ≤ m -> compute program priorities memo m = some r) <->
      forall p, Analysed program p -> ¬ (program.cfg p).LoopsToExit ∧ Registered program p := by
  constructor
  · intro hends p hp
    constructor
    · intro hloops
      exact not_compute_ends hp (Or.inl hloops) priorities memo hends
    · by_contra hregistered
      exact not_compute_ends hp (Or.inr hregistered) priorities memo hends
  · intro h
    exact compute_ends hacyclic (fun p hp => (h p hp).1) (fun p hp => (h p hp).2)
      priorities memo

end Endless

/-!
# Programs with and without a loop
-/

section Programs

def returning {ProcName : Type} (cmds : List (Cmd ProcName)) :
    Implementation ProcName Unit where
  first := ()
  others := []
  cmds := fun _ => cmds
  transferCmd := fun _ => .returnCmd
  locVars := []
  outParams := []
  targets_mem := fun _ _ _ h => absurd h List.not_mem_nil

theorem returning_spec {ProcName : Type} [DecidableEq ProcName]
    {program : Program ProcName Unit} {p : ProcName} {cmds : List (Cmd ProcName)}
    (h : program.cfg p = returning cmds) :
    ¬ (program.cfg p).LoopsToExit ∧ Registered program p := by
  rw [Registered, h]
  constructor
  · intro ⟨b, _, hloop, _⟩
    rcases Relation.TransGen.tail'_iff.mp hloop with ⟨_, _, hedge⟩
    exact List.not_mem_nil hedge
  · intro b _ hnode
    cases hnode

/-- The main procedure `true` calls `false`, which has no commands. -/
def callProgram (ensures : List Expr) : Program Bool Unit where
  mainName := true
  mainImpl := returning [.call ⟨0, false, [], []⟩ .comment]
  implementations :=
    [(true, returning [.call ⟨0, false, [], []⟩ .comment]), (false, returning [])]
  mainImpl_mem := List.mem_cons_self
  procedures := fun _ => ⟨[], ensures⟩
  globals := []

theorem acyclicCalls_of_calls {program : Program Bool Unit}
    (hcalls : forall p q, Calls program p q -> p = true ∧ q = false) :
    AcyclicCalls program := by
  intro p _ hcycle
  rcases Relation.TransGen.head'_iff.mp hcycle with ⟨_, hfirst, _⟩
  rcases Relation.TransGen.tail'_iff.mp hcycle with ⟨_, _, hlast⟩
  have htrue := (hcalls _ _ hfirst).1
  rw [(hcalls _ _ hlast).2] at htrue
  cases htrue

theorem callProgram_acyclic (ensures : List Expr) :
    AcyclicCalls (callProgram ensures) := by
  apply acyclicCalls_of_calls
  intro p q ⟨b, _, _, hq⟩
  cases p with
  | true => exact ⟨rfl, List.mem_singleton.mp hq⟩
  | false => exact absurd hq List.not_mem_nil

theorem callProgram_spec (ensures : List Expr) (p : Bool) :
    ¬ ((callProgram ensures).cfg p).LoopsToExit ∧ Registered (callProgram ensures) p := by
  cases p with
  | true => exact returning_spec (p := true) rfl
  | false => exact returning_spec (p := false) rfl

theorem callProgram_ends : exists n r, forall m, n ≤ m ->
    compute (callProgram []) ⟨fun _ => 0, fun _ => 0⟩ Memo.empty m = some r :=
  (compute_ends_iff (callProgram_acyclic []) _ _).mpr
    (fun p _ => callProgram_spec [] p)

/-- The block `false` goes to itself and to `true`, which returns. -/
def looping : Implementation Unit Bool where
  first := false
  others := [true]
  cmds := fun _ => []
  transferCmd := fun b => if b then .returnCmd else .gotoCmd [false, true]
  locVars := []
  outParams := []
  targets_mem := by decide

def loopProgram : Program Unit Bool where
  mainName := ()
  mainImpl := looping
  implementations := [((), looping)]
  mainImpl_mem := List.mem_singleton_self _
  procedures := fun _ => ⟨[], []⟩
  globals := []

theorem loopProgram_acyclic : AcyclicCalls loopProgram := by
  intro p _ hcycle
  rcases Relation.TransGen.tail'_iff.mp hcycle with ⟨_, _, _, _, _, hq⟩
  exact List.not_mem_nil hq

theorem loopProgram_loops : (loopProgram.cfg ()).LoopsToExit :=
  ⟨false, List.mem_cons_self, .single List.mem_cons_self,
    true, .single (List.mem_cons_of_mem _ (List.mem_singleton_self _)), rfl⟩

/-- The first loop does not end when a block is on a loop. -/
theorem not_acyclicCalls_ends : ¬ (AcyclicCalls loopProgram -> exists n r, forall m,
    n ≤ m -> compute loopProgram ⟨fun _ => 0, fun _ => 0⟩ Memo.empty m = some r) := by
  intro h
  exact not_compute_ends (p := ()) Relation.ReflTransGen.refl (Or.inl loopProgram_loops)
    _ _ (h loopProgram_acyclic)

end Programs

end InterProcGenKill
end Boogie
