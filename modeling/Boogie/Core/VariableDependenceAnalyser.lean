import Boogie.Core.GlobalControlDependencesExact

/-!
# Variable dependence

Queries to the graph of direct dependences go through its components, whose
results are kept.  The analysis is right about the variables, and about the
blocks as long as calls are resolved to what they reach.
-/

namespace Boogie

inductive VariableDescriptor where
  | localDescriptor (proc name : String)
  | globalDescriptor (name : String)
deriving DecidableEq, Repr

namespace VariableDependenceAnalyser

open Condensation (CacheCorrect MayReachCache components condensed reachableFrom
  sccOf)
open Implementation (IsPruned IsBlockGraph)
open InterproceduralReachability (Resolved)

/-!
# Queries
-/

/-- The query and the new cache; an exception is `none`. -/
def dependsOn (dependsOnNonTransitive : Graph VariableDescriptor)
    (dependsOnCache : MayReachCache VariableDescriptor) (v : VariableDescriptor) :
    Option (List VariableDescriptor) × MayReachCache VariableDescriptor :=
  match condensed dependsOnNonTransitive,
    sccOf (components dependsOnNonTransitive) v with
  | some dag, some scc =>
    match reachableFrom dag (dag.ns.length + 1) dependsOnCache scc with
    | some (result, cache) => (some result, cache)
    | none => (none, dependsOnCache)
  | _, _ => (none, dependsOnCache)

inductive Queried (g : Graph VariableDescriptor) :
    MayReachCache VariableDescriptor -> Prop where
  | initial : Queried g (fun _ => none)
  | query {cache : MayReachCache VariableDescriptor} (v : VariableDescriptor) :
      Queried g cache -> Queried g (dependsOn g cache v).2

section Queries

variable {g : Graph VariableDescriptor}
  {cache : MayReachCache VariableDescriptor} {v : VariableDescriptor}

theorem dependsOn_spec (hcache : CacheCorrect g cache) :
    CacheCorrect g (dependsOn g cache v).2 ∧
      (v ∈ g.ns -> exists result, (dependsOn g cache v).1 = some result ∧
        forall w, w ∈ result <-> Relation.ReflTransGen g.Edge v w) := by
  unfold dependsOn
  by_cases hv : v ∈ g.ns
  · rcases Condensation.exists_reachableFrom hcache hv with
      ⟨dag, scc, result, cache', hdag, hscc, hresult, hcache', hreach⟩
    rw [hdag, hscc]
    dsimp only
    rw [hresult]
    exact ⟨hcache', fun _ => ⟨result, rfl, hreach⟩⟩
  · rcases Condensation.condensed_spec g with ⟨dag, hdag, _⟩
    rw [hdag, Condensation.sccOf_eq_none hv]
    exact ⟨hcache, fun hmem => absurd hmem hv⟩

theorem Queried.correct (h : Queried g cache) : CacheCorrect g cache := by
  induction h with
  | initial => exact CacheCorrect.empty
  | query v hbefore ih => exact (dependsOn_spec ih).1

end Queries

/-!
# Where the analysis is exact
-/

section Exact

variable {prune : Bool} {dummy : Nat} {prog : Program}
  {processed processed' : List (Implementation × Graph Nat)}

theorem IsProcessed.unique (h : IsProcessed prune prog processed)
    (h' : IsProcessed prune prog processed') : processed = processed' := by
  unfold IsProcessed at h h'
  generalize prog.implementations = impls at h h'
  induction h generalizing processed' with
  | nil =>
    cases h'
    rfl
  | cons hab hrest ih =>
    cases h' with
    | cons hab' hrest' =>
      rcases hab with ⟨bound, hrun⟩
      rcases hab' with ⟨bound', hrun'⟩
      have hsame := hrun (bound + bound') (Nat.le_add_right _ _)
      rw [hrun' (bound + bound') (Nat.le_add_left _ _)] at hsame
      cases hsame
      rw [ih hrest']

theorem exists_isProcessed_iff (prune : Bool) (hprog : Resolved prog) :
    (exists processed, IsProcessed prune prog processed) <->
      forall impl, impl ∈ prog.implementations -> exists impl' g start,
        IsPruned prune impl impl' ∧ IsBlockGraph impl' g start ∧
          (exists bound, forall fuel, bound ≤ fuel ->
            impl.processLoops fuel prune = some (impl', g)) ∧ g.Reducible start := by
  have hwf : forall impl, impl ∈ prog.implementations -> impl.WellFormed :=
    fun _ himpl => wellFormed_of_resolved hprog himpl
  unfold IsProcessed
  generalize prog.implementations = impls at hwf
  constructor
  · intro ⟨processed, h⟩ impl himpl
    rcases exists_mem_of_forall₂ h.flip himpl with ⟨a, _, bound, hrun⟩
    rcases Implementation.processLoops_spec prune (hwf impl himpl) with
      ⟨bound', impl', g, start, hpruned, hgraph, hyes, hno⟩
    have hresult := hrun (bound + bound') (Nat.le_add_right _ _)
    by_cases hred : g.Reducible start
    · exact ⟨impl', g, start, hpruned, hgraph, ⟨bound', hyes hred⟩, hred⟩
    · rw [hno hred _ (Nat.le_add_left _ _)] at hresult
      cases hresult
  · intro h
    induction impls with
    | nil => exact ⟨[], List.Forall₂.nil⟩
    | cons impl impls ih =>
      rcases h impl List.mem_cons_self with ⟨impl', g, start, _, _, hrun, _⟩
      rcases ih (fun impl himpl => hwf impl (List.mem_cons_of_mem _ himpl))
        (fun impl himpl => h impl (List.mem_cons_of_mem _ himpl)) with
        ⟨processed, hrest⟩
      exact ⟨(impl', g) :: processed, List.Forall₂.cons hrun hrest⟩

theorem covered_of_nodup_names (hfirst : FirstVerified prog processed)
    (hnames : (processed.map (fun a => a.1.name)).Nodup) :
    Covered dummy prog processed := by
  intro x y ⟨a, ha, b, hb, hxb, impl, himpl, hname, c, hreach, hy⟩
  have hunique : forall {impl}, impl ∈ (withProcessed prog processed).implementations ->
      getImplementation (withProcessed prog processed) impl.name = some impl := by
    intro impl himpl
    rcases mem_withProcessed.mp himpl with ⟨a, ha, heq⟩
    have hsome : (getImplementation (withProcessed prog processed)
        impl.name).isSome = true := by
      rw [getImplementation, List.find?_isSome]
      exact ⟨impl, himpl, by simp⟩
    rcases Option.isSome_iff_exists.mp hsome with ⟨first, hfound⟩
    rcases getImplementation_some hfound with ⟨hmem, hsame⟩
    rcases mem_withProcessed.mp hmem with ⟨a', ha', heq'⟩
    have haa : a' = a := by
      apply List.inj_on_of_nodup_map hnames ha' ha
      rw [heq, heq', hsame]
    rw [hfound, ← heq, ← heq', haa]
  have hverified : forall {caller callee},
      caller ∈ (withProcessed prog processed).implementations ->
      callee ∈ (withProcessed prog processed).implementations ->
      callee.name ∈ caller.callees ->
        callee ∈ (withProcessed prog processed).verified := by
    intro caller callee hcaller hcallee hcalls
    apply List.mem_filter.mpr
    constructor
    · exact hcallee
    · rw [hfirst caller hcaller callee.name hcalls callee (hunique hcallee)]
      rfl
  apply Relation.TransGen.single
  right
  exists a
  constructor
  · exact ha
  · exists b
    constructor
    · exact hb
    · constructor
      · exact hxb
      · exists impl.name
        constructor
        · exact hname
        · exists impl
          constructor
          · exact hunique himpl
          · exists c
            constructor
            · have hstart : impl ∈ (withProcessed prog processed).verified :=
                hverified (mem_withProcessed.mpr ⟨a, ha, rfl⟩) himpl
                  (mem_implementation_callees hb hname)
              clear hy
              induction hreach with
              | refl => exact Relation.ReflTransGen.refl
              | tail hbefore hstep ih =>
                apply ih.tail
                apply Program.buildCallGraph_edge.mpr
                exact ⟨mem_of_edge ih hstart,
                  hverified hstep.1 hstep.2.1 hstep.2.2, hstep.2.2⟩
            · exact hy

theorem exists_isProcessed_of_forward (prune : Bool) (hprog : Resolved prog)
    (hforward : forall impl, impl ∈ prog.implementations -> forall b, b ∈ impl.blocks ->
      forall t, t ∈ b.labelTargets -> b.uniqueId < t) :
    exists processed, IsProcessed prune prog processed := by
  apply (exists_isProcessed_iff prune hprog).mpr
  intro impl himpl
  rcases Implementation.processLoops_spec prune (wellFormed_of_resolved hprog himpl) with
    ⟨bound, impl', g, start, hpruned, hgraph, hyes, _⟩
  have hedge : forall x y, g.ForwardEdge start x y -> x < y := by
    intro x y hedge
    rcases (hgraph.edges x y).mp hedge.1 with ⟨b', hb', rfl, hy⟩
    rcases hpruned.blocks b' hb' with ⟨b, hb, rfl⟩
    rw [Implementation.uniqueId_pruned]
    exact hforward impl himpl b hb y (Implementation.labelTargets_pruned hy)
  have hpath : forall x y, Relation.TransGen (g.ForwardEdge start) x y -> x < y := by
    intro x y hpath
    induction hpath with
    | single h => exact hedge _ _ h
    | tail _ h ih => exact ih.trans (hedge _ _ h)
  have hred : g.Reducible start := fun x hx => Nat.lt_irrefl x (hpath x x hx)
  exact ⟨impl', g, start, hpruned, hgraph, ⟨bound, hyes hred⟩, hred⟩

theorem exists_implementation (hprog : Resolved prog) (h : IsProcessed prune prog processed)
    {a : Implementation × Graph Nat} (ha : a ∈ processed) :
    exists impl, impl ∈ prog.implementations ∧ a.1.name = impl.name ∧
      a.1.skipVerification = impl.skipVerification := by
  rcases exists_mem_of_forall₂ (pruned_forall₂ hprog h) ha with ⟨impl, himpl, hpruned⟩
  refine ⟨impl, himpl, ?_, ?_⟩
  · rw [hpruned.same]
  · rw [hpruned.same]

theorem map_name_processed (hprog : Resolved prog) (h : IsProcessed prune prog processed) :
    processed.map (fun a => a.1.name) = prog.implementations.map Implementation.name := by
  have hpruned := pruned_forall₂ hprog h
  clear h
  generalize prog.implementations = impls at hpruned
  induction hpruned with
  | nil => rfl
  | cons hab _ ih => rw [List.map_cons, List.map_cons, ih, hab.same]

theorem condition_of_verified (dummy : Nat) (hprog : Resolved prog)
    (h : IsProcessed prune prog processed)
    (hnames : (prog.implementations.map Implementation.name).Nodup)
    (hverified : forall impl, impl ∈ prog.implementations -> impl.skipVerification = false) :
    FirstVerified prog processed ∧ Covered dummy prog processed := by
  have hfirst : FirstVerified prog processed := by
    intro impl _ callee _ first hfound
    rcases mem_withProcessed.mp (getImplementation_some hfound).1 with ⟨a, ha, rfl⟩
    rcases exists_implementation hprog h ha with ⟨impl', himpl', _, hskip⟩
    rw [hskip]
    exact hverified impl' himpl'
  constructor
  · exact hfirst
  · apply covered_of_nodup_names hfirst
    rw [map_name_processed hprog h]
    exact hnames

end Exact

/--
The global control dependences are the inverse of the closure of the joined
dependences if and only if calls find verified implementations and nothing is
behind other ones only; queries for variables are exact after any others.
-/
theorem dependences_exact_iff {prog : Program} (hprog : Resolved prog)
    (prune : Bool) (dummy : Nat) (g : Graph VariableDescriptor) :
    (exists bound, forall fuel, bound ≤ fuel ->
      ((exists processed, IsProcessed prune prog processed ∧
          ComputesJoined fuel prune dummy prog processed) <->
        exists processed, IsProcessed prune prog processed ∧
          FirstVerified prog processed ∧ Covered dummy prog processed)) ∧
      forall cache, Queried g cache -> forall v, v ∈ g.ns ->
        exists result, (dependsOn g cache v).1 = some result ∧
          forall w, w ∈ result <-> Relation.ReflTransGen g.Edge v w := by
  constructor
  · by_cases hprocessed : exists processed, IsProcessed prune prog processed
    · rcases hprocessed with ⟨processed, h⟩
      rcases computesJoined_iff dummy hprog h with ⟨bound, hbound⟩
      exists bound
      intro fuel hfuel
      constructor
      · intro ⟨processed', h', hcomputes⟩
        rw [← h.unique h'] at hcomputes
        exact ⟨processed, h, (hbound fuel hfuel).mp hcomputes⟩
      · intro ⟨processed', h', hcondition⟩
        rw [← h.unique h'] at hcondition
        exact ⟨processed, h, (hbound fuel hfuel).mpr hcondition⟩
    · exists 0
      intro fuel _
      constructor
      · intro ⟨processed, h, _⟩
        exact absurd ⟨processed, h⟩ hprocessed
      · intro ⟨processed, h, _⟩
        exact absurd ⟨processed, h⟩ hprocessed
  · intro cache hcache v hv
    exact (dependsOn_spec hcache.correct).2 hv

/-- `main` calls `q`, whose implementation is not to be verified. -/
def skippedCallee : Program where
  constants := []
  axioms := []
  procedures := [⟨"main", [], []⟩, ⟨"q", [], []⟩]
  implementations :=
    [⟨0, "main", [⟨0, "entry", [.callCmd ⟨"q", [], []⟩], .returnCmd⟩], false⟩,
      ⟨1, "q", [⟨1, "body", [], .returnCmd⟩], true⟩]

theorem skippedCallee_resolved : Resolved skippedCallee := by
  have hcallees : forall impl, impl ∈ skippedCallee.implementations ->
      forall callee, callee ∈ impl.callees ->
        callee ∈ skippedCallee.procedures.map Procedure.name := by
    decide
  constructor
  · decide
  · decide
  · decide
  · decide
  · decide
  · intro impl himpl b hb c hc
    apply hcallees impl himpl
    exact mem_implementation_callees hb (List.mem_filterMap.mpr ⟨_, hc, rfl⟩)

theorem skippedCallee_isProcessed (prune : Bool) :
    exists processed, IsProcessed prune skippedCallee processed := by
  apply exists_isProcessed_of_forward prune skippedCallee_resolved
  decide

theorem skippedCallee_not_firstVerified {prune : Bool}
    {processed : List (Implementation × Graph Nat)}
    (h : IsProcessed prune skippedCallee processed) :
    ¬ FirstVerified skippedCallee processed := by
  have hpruned := pruned_forall₂ skippedCallee_resolved h
  unfold skippedCallee at hpruned
  rcases hpruned with _ | ⟨hmain, _ | ⟨hq, _ | _⟩⟩
  rename_i main q
  intro hfirst
  rcases List.exists_mem_of_ne_nil _ hmain.wellFormed.nonempty with ⟨b', hb'⟩
  rcases hmain.blocks b' hb' with ⟨b, hb, heq⟩
  have hcallee : "q" ∈ main.1.callees := by
    apply mem_implementation_callees hb'
    rw [heq, callees, Implementation.cmds_pruned, List.mem_singleton.mp hb]
    exact List.mem_cons_self
  have hfound : getImplementation (withProcessed skippedCallee [main, q]) "q" =
      some q.1 := by
    have hname : main.1.name = "main" := by
      rw [hmain.same]
    have hname' : q.1.name = "q" := by
      rw [hq.same]
    simp [getImplementation, withProcessed, hname, hname']
  have hskip := hfirst main.1 List.mem_cons_self "q" hcallee q.1 hfound
  rw [hq.same] at hskip
  cases hskip

/-- The graphs are reducible, but the callee is not in the call graph. -/
theorem skippedCallee_throws :
    (exists processed, IsProcessed false skippedCallee processed) ∧
      exists bound, forall fuel, bound ≤ fuel ->
        computeGlobalControlDependences fuel false 2 skippedCallee = none := by
  rcases skippedCallee_isProcessed false with ⟨processed, h⟩
  constructor
  · exact ⟨processed, h⟩
  · rcases firstVerified_of_compute 2 h with ⟨bound, hthrows⟩
    exists bound
    intro fuel hfuel
    by_contra hsome
    rcases Option.ne_none_iff_exists'.mp hsome with ⟨r, hr⟩
    exact skippedCallee_not_firstVerified h (hthrows fuel hfuel r hr)

/-- `main` calls `q` on one side of a branch, and `q` calls itself. -/
def branchingCaller : Program where
  constants := []
  axioms := []
  procedures := [⟨"main", [], []⟩, ⟨"q", [], []⟩]
  implementations :=
    [⟨0, "main",
        [⟨0, "entry", [], .gotoCmd [1, 2]⟩,
          ⟨1, "then", [.callCmd ⟨"q", [], []⟩], .gotoCmd [3]⟩,
          ⟨2, "else", [], .gotoCmd [3]⟩, ⟨3, "join", [], .returnCmd⟩], false⟩,
      ⟨1, "q", [⟨4, "body", [.callCmd ⟨"q", [], []⟩], .returnCmd⟩], false⟩]

theorem branchingCaller_resolved : Resolved branchingCaller := by
  have hcallees : forall impl, impl ∈ branchingCaller.implementations ->
      forall callee, callee ∈ impl.callees ->
        callee ∈ branchingCaller.procedures.map Procedure.name := by
    decide
  constructor
  · decide
  · decide
  · decide
  · decide
  · decide
  · intro impl himpl b hb c hc
    apply hcallees impl himpl
    exact mem_implementation_callees hb (List.mem_filterMap.mpr ⟨_, hc, rfl⟩)

def directDependence : Graph VariableDescriptor :=
  Graph.empty.addEdge (.globalDescriptor "x") (.localDescriptor "main" "y")

theorem branchingCaller_dependences :
    (exists bound, forall fuel, bound ≤ fuel ->
      exists processed, IsProcessed false branchingCaller processed ∧
        ComputesJoined fuel false 5 branchingCaller processed) ∧
      forall cache, Queried directDependence cache -> exists result,
        (dependsOn directDependence cache (.globalDescriptor "x")).1 = some result ∧
          VariableDescriptor.localDescriptor "main" "y" ∈ result := by
  rcases dependences_exact_iff branchingCaller_resolved false 5 directDependence with
    ⟨⟨bound, hiff⟩, hqueries⟩
  constructor
  · exists bound
    intro fuel hfuel
    apply (hiff fuel hfuel).mpr
    rcases exists_isProcessed_of_forward false branchingCaller_resolved (by decide) with
      ⟨processed, h⟩
    exact ⟨processed, h, condition_of_verified 5 branchingCaller_resolved h
      (by decide) (by decide)⟩
  · intro cache hcache
    rcases hqueries cache hcache (.globalDescriptor "x")
      (by simp [directDependence]) with ⟨result, hresult, hmem⟩
    refine ⟨result, hresult, (hmem _).mpr (Relation.ReflTransGen.single ?_)⟩
    simp [directDependence]

end VariableDependenceAnalyser

end Boogie
