import Boogie.Graph.StronglyConnectedComponents
import Boogie.Houdini.Houdini

/-!
# The first work list

The implementations are put on the work list by the components of the call
graph, from the bottom of the graph upwards.
-/

namespace Boogie

namespace Houdini

open StronglyConnectedComponents (AreComponents Mutual TargetsFirst)

variable {H : Houdini}

def enqueueComponent (H : Houdini) (queue : WorkQueue)
    (scc : List Implementation) : WorkQueue :=
  scc.foldl
    (fun queue impl =>
      if impl ∈ H.vcgenFailures then queue else queue.enqueue impl)
    queue

def buildWorkList (H : Houdini) : WorkQueue :=
  (StronglyConnectedComponents.compute H.callGraph.ns H.callGraph.predecessors
    H.callGraph.successors).foldl H.enqueueComponent ⟨[], List.nodup_nil⟩

theorem mem_vcgenFailures {impl : Implementation} :
    impl ∈ H.vcgenFailures <-> impl ∈ H.callGraph.ns ∧ (H.houdiniSession impl).isSome = false := by
  simp [vcgenFailures]

/-!
# The elements of the work list
-/

theorem enqueueComponent_queue (scc : List Implementation) (queue : WorkQueue)
    (hnodup : scc.Nodup) (hnew : List.Disjoint queue.queue scc) :
    (H.enqueueComponent queue scc).queue =
      queue.queue ++ scc.filter (fun impl => impl ∉ H.vcgenFailures) := by
  unfold enqueueComponent
  induction scc generalizing queue with
  | nil => simp
  | cons impl scc ih =>
    have himpl : impl ∉ queue.queue :=
      fun hmem => hnew hmem List.mem_cons_self
    have hrest : List.Disjoint queue.queue scc :=
      fun x hx hmem => hnew hx (List.mem_cons_of_mem impl hmem)
    rcases List.nodup_cons.mp hnodup with ⟨hfresh, htail⟩
    rw [List.foldl_cons]
    split
    · rename_i hfails
      rw [ih queue htail hrest, List.filter_cons_of_neg (by simpa using hfails)]
    · rename_i hok
      have hqueue : (queue.enqueue impl).queue = queue.queue ++ [impl] :=
        if_neg himpl
      rw [ih (queue.enqueue impl) htail, hqueue,
        List.filter_cons_of_pos (by simpa using hok), List.append_assoc,
        List.singleton_append]
      intro x hx hmem
      rw [hqueue] at hx
      rcases List.mem_append.mp hx with hx | hx
      · exact hrest hx hmem
      · rw [List.mem_singleton.mp hx] at hmem
        exact hfresh hmem

theorem foldl_enqueueComponent (sccs : List (List Implementation))
    (queue : WorkQueue) (hnodup : sccs.flatten.Nodup)
    (hnew : List.Disjoint queue.queue sccs.flatten) :
    (sccs.foldl H.enqueueComponent queue).queue = queue.queue ++
      sccs.flatten.filter (fun impl => impl ∉ H.vcgenFailures) := by
  induction sccs generalizing queue with
  | nil => simp
  | cons scc sccs ih =>
    rw [List.flatten_cons] at hnodup hnew
    rcases List.nodup_append.mp hnodup with ⟨hscc, hsccs, hapart⟩
    rcases List.disjoint_append_right.mp hnew with ⟨hhead, htail⟩
    have hqueue := enqueueComponent_queue (H := H) scc queue hscc hhead
    rw [List.foldl_cons, ih _ hsccs, hqueue, List.flatten_cons,
      List.filter_append, List.append_assoc]
    rw [hqueue]
    intro impl himpl hmem
    rcases List.mem_append.mp himpl with himpl | himpl
    · exact htail himpl hmem
    · exact hapart impl (List.mem_filter.mp himpl).1 impl hmem rfl

/-!
# The order of the work list
-/

theorem compute_callGraph (H : Houdini) :
    let sccs := StronglyConnectedComponents.compute H.callGraph.ns
      H.callGraph.predecessors H.callGraph.successors
    AreComponents H.callGraph.ns H.callGraph.successors sccs ∧
      TargetsFirst H.callGraph.ns H.callGraph.successors sccs := by
  apply StronglyConnectedComponents.compute_upwards
  intro x y _ _
  rw [Graph.mem_predecessors, Graph.mem_successors]

theorem buildWorkList_queue (H : Houdini) :
    H.buildWorkList.queue = (StronglyConnectedComponents.compute H.callGraph.ns
        H.callGraph.predecessors H.callGraph.successors).flatten.filter
          (fun impl => impl ∉ H.vcgenFailures) := by
  have hsccs := (compute_callGraph H).1
  have hnodup := List.nodup_flatten.mpr ⟨hsccs.nodup, hsccs.disjoint⟩
  unfold buildWorkList
  rw [foldl_enqueueComponent _ _ hnodup (List.disjoint_nil_left _)]
  rfl

theorem mem_buildWorkList {impl : Implementation} :
    impl ∈ H.buildWorkList.queue <-> impl ∈ H.callGraph.ns ∧ impl ∉ H.vcgenFailures := by
  rw [buildWorkList_queue, List.mem_filter, List.mem_flatten,
    ← (compute_callGraph H).1.cover impl]
  simp

theorem buildWorkList_calleesFirst {caller callee : Implementation}
    (hcall : H.callGraph.Edge caller callee)
    (hone : ¬ Mutual H.callGraph.ns H.callGraph.successors caller callee)
    (hcaller : caller ∉ H.vcgenFailures) (hcallee : callee ∉ H.vcgenFailures) :
    [callee, caller].Sublist H.buildWorkList.queue := by
  have hends := H.callGraph.endpoints _ hcall
  have hstep : StronglyConnectedComponents.Step H.callGraph.ns
      H.callGraph.successors caller callee :=
    ⟨hends.1, hends.2, Graph.mem_successors.mpr hcall⟩
  rcases (compute_callGraph H).2 caller callee hstep hone with
    ⟨before, scc, after, scc', hsccs, hmem, hscc', hmem'⟩
  have hfirst : [callee].Sublist before.flatten :=
    List.singleton_sublist.mpr (List.mem_flatten.mpr ⟨scc', hscc', hmem'⟩)
  have hsecond : [caller].Sublist (scc :: after).flatten :=
    List.singleton_sublist.mpr
      (List.mem_flatten.mpr ⟨scc, List.mem_cons_self, hmem⟩)
  have hboth := (hfirst.append hsecond).filter
    (fun impl => decide (impl ∉ H.vcgenFailures))
  rw [← List.flatten_append, ← hsccs, ← buildWorkList_queue] at hboth
  simpa [hcaller, hcallee] using hboth

theorem buildWorkList_initial (H : Houdini) (assignment : Variable -> Bool) :
    H.Initial assignment
      { workQueue := H.buildWorkList
        blackList := H.vcgenFailures.map Implementation.name
        assignment := assignment
        implementationOutcomes := fun _ => none
        unsatCoreSet := fun _ => none
        control := .outerLoop } where
  control := rfl
  workQueue := by
    intro impl
    rw [mem_buildWorkList, mem_vcgenFailures]
    constructor
    · intro ⟨hns, hsession⟩
      simpa [hns, Option.isSome_iff_ne_none] using hsession
    · intro hsession
      have hns : impl ∈ H.callGraph.ns := by
        by_contra hnot
        simp [houdiniSession, hnot] at hsession
      simp [hns, hsession]
  blackList := rfl
  assignment := rfl
  outcomes := rfl
  cores := rfl

/--
Every finite graph is cut into its components, targets before sources, and
callees are put on the work list before their callers.
-/
theorem compute_buildWorkList_order {Node : Type} [DecidableEq Node]
    {graph : List Node} {preds succs : Node -> List Node}
    (hinverse : forall x y, x ∈ graph -> y ∈ graph -> (y ∈ preds x <-> x ∈ succs y)) :
    let sccs := StronglyConnectedComponents.compute graph preds succs
    AreComponents graph succs sccs ∧ TargetsFirst graph succs sccs ∧
      forall (H : Houdini) caller callee,
        H.callGraph.Edge caller callee ->
        ¬ Mutual H.callGraph.ns H.callGraph.successors caller callee ->
        caller ∉ H.vcgenFailures -> callee ∉ H.vcgenFailures ->
        [callee, caller].Sublist H.buildWorkList.queue := by
  have hgraph := StronglyConnectedComponents.compute_upwards hinverse
  constructor
  · exact hgraph.1
  · constructor
    · exact hgraph.2
    · intro H caller callee hcall hone hcaller hcallee
      exact buildWorkList_calleesFirst hcall hone hcaller hcallee

/-- A cycle, a loop that the cycle reaches, and an edge that leaves the graph. -/
theorem compute_buildWorkList_order_cycle :
    AreComponents [0, 1, 2] (fun x => if x = 0 then [1] else if x = 1 then [0, 2, 7] else [2])
      (StronglyConnectedComponents.compute [0, 1, 2]
        (fun x => if x = 0 then [1] else if x = 1 then [0] else [1, 2])
        (fun x => if x = 0 then [1] else if x = 1 then [0, 2, 7] else [2])) := by
  have hinverse : forall x, x ∈ [0, 1, 2] -> forall y, y ∈ [0, 1, 2] ->
      (y ∈ (if x = 0 then [1] else if x = 1 then [0] else [1, 2]) <->
        x ∈ (if y = 0 then [1] else if y = 1 then [0, 2, 7] else [2])) := by
    decide
  exact (compute_buildWorkList_order
    (fun x y hx hy => hinverse x hx y hy)).1

end Houdini

end Boogie
