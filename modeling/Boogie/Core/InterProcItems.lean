import Boogie.Core.InterProcDiscovery
import Boogie.Core.InterProcProcess
import Boogie.Foundation.TopologicalSort

/-!
# The order of the items

Without recursion, and without loops from which a block that returns is reachable, the
items that an item can put on the work list are below it.
-/

namespace Boogie
namespace InterProcGenKill

section Items

variable {ProcName BlockId : Type}

/-!
# Blocks that return
-/

namespace Implementation

def Edge (impl : Implementation ProcName BlockId) (a b : BlockId) : Prop :=
  b ∈ impl.successors a

def ReachesExit (impl : Implementation ProcName BlockId) (b : BlockId) : Prop :=
  exists e, Relation.ReflTransGen impl.Edge b e ∧ impl.isExit e = true

def LoopsToExit (impl : Implementation ProcName BlockId) : Prop :=
  exists b, b ∈ impl.blocks ∧ Relation.TransGen impl.Edge b b ∧ impl.ReachesExit b

theorem mem_blocks_of_reaches {impl : Implementation ProcName BlockId} {a b : BlockId}
    (ha : a ∈ impl.blocks) (h : Relation.ReflTransGen impl.Edge a b) :
    b ∈ impl.blocks := by
  induction h with
  | refl => exact ha
  | tail _ hedge ih => exact impl.targets_mem _ ih _ hedge

theorem ReachesExit.head {impl : Implementation ProcName BlockId} {a b : BlockId}
    (hedge : impl.Edge a b) (h : impl.ReachesExit b) : impl.ReachesExit a := by
  rcases h with ⟨e, hpath, hexit⟩
  exact ⟨e, hpath.head hedge, hexit⟩

theorem mem_exitNodes {impl : Implementation ProcName BlockId} {b : BlockId} :
    b ∈ impl.exitNodes <-> b ∈ impl.blocks ∧ impl.isExit b = true :=
  List.mem_filter

end Implementation

variable [DecidableEq ProcName] {program : Program ProcName BlockId}

/-- Procedures do not call themselves, directly or through others. -/
def AcyclicCalls (program : Program ProcName BlockId) : Prop :=
  forall p, Analysed program p -> ¬ Relation.TransGen (Calls program) p p

def Returns (program : Program ProcName BlockId) (x : WorkItem ProcName BlockId) :
    Prop :=
  Analysed program x.1 ∧ x.2 ∈ (program.cfg x.1).blocks ∧
    (program.cfg x.1).ReachesExit x.2

theorem mem_exitItems {procs : List ProcName} {x : WorkItem ProcName BlockId} :
    x ∈ exitItems program procs <-> x.1 ∈ procs ∧ x.2 ∈ (program.cfg x.1).blocks ∧
        (program.cfg x.1).isExit x.2 = true := by
  rw [exitItems, List.mem_flatMap]
  constructor
  · intro ⟨p, hp, hx⟩
    rcases List.mem_map.mp hx with ⟨b, hb, rfl⟩
    exact ⟨hp, Implementation.mem_exitNodes.mp hb⟩
  · intro ⟨hp, hx⟩
    exact ⟨x.1, hp, List.mem_map.mpr ⟨x.2, Implementation.mem_exitNodes.mpr hx, rfl⟩⟩

theorem returns_of_mem_exitItems {procs : List ProcName}
    (hprocs : forall p, p ∈ procs -> Analysed program p)
    {x : WorkItem ProcName BlockId} (hx : x ∈ exitItems program procs) :
    Returns program x := by
  rcases mem_exitItems.mp hx with ⟨hp, hblock, hexit⟩
  exact ⟨hprocs _ hp, hblock, x.2, Relation.ReflTransGen.refl, hexit⟩

def calledExits (program : Program ProcName BlockId) (procICFG : List ProcName)
    (x : WorkItem ProcName BlockId) : List (WorkItem ProcName BlockId) :=
  exitItems program
    (((program.cfg x.1).callees x.2).filter (fun q => q ∈ procICFG))

theorem mem_calledExits {d : Discovery ProcName BlockId} (hd : Discovered program d)
    {x y : WorkItem ProcName BlockId} (hx : x.2 ∈ (program.cfg x.1).blocks)
    (hy : y ∈ calledExits program d.procICFG x) :
    CallsAt program x y.1 ∧ Returns program y ∧ (program.cfg y.1).isExit y.2 = true := by
  have hcalled : forall q,
      q ∈ ((program.cfg x.1).callees x.2).filter (fun q => q ∈ d.procICFG) ->
        q ∈ (program.cfg x.1).callees x.2 ∧ Analysed program q := by
    intro q hq
    rw [List.mem_filter, decide_eq_true_iff, hd.analysed] at hq
    exact hq
  have hreturns := returns_of_mem_exitItems (fun q hq => (hcalled q hq).2) hy
  rcases mem_exitItems.mp hy with ⟨hq, _, hexit⟩
  exact ⟨⟨hreturns.1.isSome, hx, (hcalled _ hq).1⟩, hreturns, hexit⟩

/-!
# Descents
-/

section Descents

variable {up : ProcName -> ProcName -> Prop}
variable {below : WorkItem ProcName BlockId -> WorkItem ProcName BlockId -> Prop}

omit [DecidableEq ProcName] in
theorem descent [DecidableEq ProcName] (hsteps : forall y x, below y x ->
      up y.1 x.1 ∨ y.1 = x.1 ∧ (program.cfg x.1).Edge y.2 x.2)
    {x y : WorkItem ProcName BlockId} (h : Relation.TransGen below y x) :
    Relation.TransGen up y.1 x.1 ∨
      y.1 = x.1 ∧ Relation.TransGen (program.cfg x.1).Edge y.2 x.2 := by
  induction h with
  | single hstep =>
    rcases hsteps _ _ hstep with hup | ⟨hsame, hedge⟩
    · exact Or.inl (Relation.TransGen.single hup)
    · exact Or.inr ⟨hsame, Relation.TransGen.single hedge⟩
  | tail _ hstep ih =>
    rcases ih with hups | ⟨hsame, hedges⟩
    · rcases hsteps _ _ hstep with hup | ⟨hsame', _⟩
      · exact Or.inl (hups.tail hup)
      · exact Or.inl (hsame' ▸ hups)
    · rcases hsteps _ _ hstep with hup | ⟨hsame', hedge⟩
      · exact Or.inl (Relation.TransGen.single (hsame ▸ hup))
      · rw [hsame'] at hsame hedges
        exact Or.inr ⟨hsame, hedges.tail hedge⟩

theorem wellFounded_items {d : Discovery ProcName BlockId} (hd : Discovered program d)
    (hup : forall p, Analysed program p -> ¬ Relation.TransGen up p p)
    (hloops : forall p, Analysed program p -> ¬ (program.cfg p).LoopsToExit)
    (hreturns : forall y x, below y x -> Returns program x) (hdomain : forall y x, below y x ->
      Analysed program y.1 ∧ y.2 ∈ (program.cfg y.1).blocks) (hsteps : forall y x, below y x ->
      up y.1 x.1 ∨ y.1 = x.1 ∧ (program.cfg x.1).Edge y.2 x.2) :
    WellFounded below := by
  refine @TopologicalSort.wellFounded_of_acyclic _ _
    (d.procICFG.flatMap (fun p => (program.cfg p).blocks.map (fun b => (p, b)))) ?_ ?_
  · intro y x h
    rcases hdomain y x h with ⟨hp, hblock⟩
    exact List.mem_flatMap.mpr ⟨y.1, (hd.analysed y.1).mpr hp,
      List.mem_map.mpr ⟨y.2, hblock, rfl⟩⟩
  · intro x hcycle
    have hx : Returns program x := by
      rcases Relation.TransGen.tail'_iff.mp hcycle with ⟨y, _, hlast⟩
      exact hreturns y x hlast
    rcases descent hsteps hcycle with hups | ⟨_, hedges⟩
    · exact hup x.1 hx.1 hups
    · exact hloops x.1 hx.1 ⟨x.2, hx.2.1, hedges, hx.2.2⟩

end Descents

variable [DecidableEq BlockId]

def Upwards (program : Program ProcName BlockId) (d : Discovery ProcName BlockId)
    (y x : WorkItem ProcName BlockId) : Prop :=
  Returns program x ∧ y ∈ callersOf program d x ++ predItems program x

def Downwards (program : Program ProcName BlockId) (d : Discovery ProcName BlockId)
    (y x : WorkItem ProcName BlockId) : Prop :=
  Returns program x ∧ y ∈ calledExits program d.procICFG x ++ predItems program x

theorem returns_predItem {x y : WorkItem ProcName BlockId} (hx : Returns program x)
    (hy : y ∈ predItems program x) : Returns program y := by
  rcases mem_predItems.mp hy with ⟨hp, hblock, hedge⟩
  rw [Returns, hp]
  exact ⟨hx.1, hblock, hx.2.2.head hedge⟩

theorem upwards_wellFounded {d : Discovery ProcName BlockId}
    (hd : Discovered program d) (hacyclic : AcyclicCalls program)
    (hloops : forall p, Analysed program p -> ¬ (program.cfg p).LoopsToExit) :
    WellFounded (Upwards program d) := by
  refine @wellFounded_items _ _ _ program (Calls program) _ d hd hacyclic hloops
    (fun _ _ h => h.1) ?_ ?_
  · intro y x ⟨hx, hy⟩
    rcases List.mem_append.mp hy with hy | hy
    · rcases (hd.callers _ _).mp (mem_callersOf.mp hy).2 with ⟨hp, hcalls⟩
      exact ⟨hp, hcalls.2.1⟩
    · have hreturns := returns_predItem hx hy
      exact ⟨hreturns.1, hreturns.2.1⟩
  · intro y x ⟨_, hy⟩
    rcases List.mem_append.mp hy with hy | hy
    · exact Or.inl ⟨y.2, ((hd.callers _ _).mp (mem_callersOf.mp hy).2).2⟩
    · rcases mem_predItems.mp hy with ⟨hp, _, hedge⟩
      exact Or.inr ⟨hp, hedge⟩

theorem downwards_wellFounded {d : Discovery ProcName BlockId}
    (hd : Discovered program d) (hacyclic : AcyclicCalls program)
    (hloops : forall p, Analysed program p -> ¬ (program.cfg p).LoopsToExit) :
    WellFounded (Downwards program d) := by
  have hswap : forall p, Analysed program p ->
      ¬ Relation.TransGen (Function.swap (Calls program)) p p := by
    intro p hp h
    exact hacyclic p hp (Relation.transGen_swap.mp h)
  refine @wellFounded_items _ _ _ program _ _ d hd hswap hloops
    (fun _ _ h => h.1) ?_ ?_
  · intro y x ⟨hx, hy⟩
    rcases List.mem_append.mp hy with hy | hy
    · have hreturns := (mem_calledExits hd hx.2.1 hy).2.1
      exact ⟨hreturns.1, hreturns.2.1⟩
    · have hreturns := returns_predItem hx hy
      exact ⟨hreturns.1, hreturns.2.1⟩
  · intro y x ⟨hx, hy⟩
    rcases List.mem_append.mp hy with hy | hy
    · exact Or.inl ⟨x.2, (mem_calledExits hd hx.2.1 hy).1⟩
    · rcases mem_predItems.mp hy with ⟨hp, _, hedge⟩
      exact Or.inr ⟨hp, hedge⟩

end Items

end InterProcGenKill
end Boogie
