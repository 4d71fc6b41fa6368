import Mathlib.Algebra.Order.BigOperators.Group.List
import Mathlib.Algebra.Order.Group.Nat
import Boogie.Graph.Condensation
import Boogie.Houdini.CandidateDependenceAnalyser

/-!
# Correctness of the stage planning

Each strategy schedules the components of the dependence graph so that a
component comes after all the components it depends on.
-/

namespace Boogie

namespace Houdini

open StronglyConnectedComponents (AreComponents Mutual)

open Condensation (IsCondensation)

def Mutually (g : Graph String) (c d : String) : Prop :=
  Mutual g.ns g.successors c d

/-!
# The components as a graph
-/

structure IsStagesDAG (g : Graph String) (sccs : List SCC) (dag : Graph SCC) :
    Prop where
  components : AreComponents g.ns g.successors sccs
  mem_iff : forall n, n ∈ dag.ns <-> n ∈ sccs ∨ (n = dummy ∧ sccs ≠ [])
  edge_iff : forall n m, dag.Edge n m <->
    (n ∈ sccs ∧ m = dummy) ∨
      (n ∈ sccs ∧ m ∈ sccs ∧ n ≠ m ∧
        exists c d, c ∈ n ∧ d ∈ m ∧ g.Edge c d)

theorem repOf_eq_sccOf (sccs : List SCC) : repOf sccs = Condensation.sccOf sccs :=
  rfl

theorem addStagesEdge_eq (rep : String -> Option SCC) :
    addStagesEdge rep = Condensation.addEdgeBetween rep := by
  funext dag edge
  rw [addStagesEdge, Condensation.addEdgeBetween]
  cases rep edge.1 with
  | none => rfl
  | some source =>
    cases rep edge.2 with
    | none => rfl
    | some dest => rfl

theorem addDummy_all (sccs : List SCC) (dag : Graph SCC) :
    let dag' := sccs.foldl (fun dag scc => dag.addEdge scc dummy) dag
    (forall n, n ∈ dag'.ns <->
        n ∈ dag.ns ∨ n ∈ sccs ∨ (n = dummy ∧ sccs ≠ [])) ∧
      forall n m, dag'.Edge n m <-> dag.Edge n m ∨ (n ∈ sccs ∧ m = dummy) := by
  induction sccs generalizing dag with
  | nil => simp
  | cons scc sccs ih =>
    rcases ih (dag.addEdge scc dummy) with ⟨hns, hedges⟩
    constructor
    · intro n
      rw [List.foldl_cons, hns, Graph.mem_ns_addEdge, List.mem_cons]
      simp only [ne_eq, reduceCtorEq, not_false_eq_true, and_true]
      tauto
    · intro n m
      rw [List.foldl_cons, hedges, Graph.edge_addEdge, List.mem_cons]
      tauto

theorem constructStagesDAG_spec (g : Graph String) :
    exists sccs dag, constructStagesDAG g = some dag ∧ IsStagesDAG g sccs dag := by
  let sccs :=
    StronglyConnectedComponents.compute g.ns g.successors g.predecessors
  have hcomponents : AreComponents g.ns g.successors sccs :=
    Condensation.areComponents g
  rcases Condensation.addEdgeBetween_all hcomponents g.es (fun e he => he) Graph.empty
    (by simp [Graph.empty]) with ⟨dag, hdag, hns, hedges⟩
  rw [← addStagesEdge_eq, ← repOf_eq_sccOf] at hdag
  rcases addDummy_all sccs dag with ⟨hns', hedges'⟩
  have hresult : constructStagesDAG g =
      some (sccs.foldl (fun dag scc => dag.addEdge scc dummy) dag) := by
    rw [constructStagesDAG, hdag]
  refine ⟨sccs, _, hresult, hcomponents, ?_, ?_⟩
  · intro n
    rw [hns']
    constructor
    · rintro (hn | hn | hn)
      · exact Or.inl (hns n hn)
      · exact Or.inl hn
      · exact Or.inr hn
    · exact Or.inr
  · intro n m
    rw [hedges', hedges, or_comm]
    simp only [Graph.not_edge_empty, false_or]
    rfl

namespace IsStagesDAG

variable {g : Graph String} {sccs : List SCC} {dag : Graph SCC}

theorem condensation (h : IsStagesDAG g sccs dag) : IsCondensation g sccs dag :=
  ⟨h.components, h.edge_iff⟩

theorem unique (h : IsStagesDAG g sccs dag) {n m : SCC} {c : String}
    (hn : n ∈ dag.ns) (hm : m ∈ dag.ns) (hcn : c ∈ n) (hcm : c ∈ m) :
    n = m := by
  have hscc : forall {k}, k ∈ dag.ns -> c ∈ k -> k ∈ sccs := by
    intro k hk hck
    rcases (h.mem_iff k).mp hk with hk | ⟨rfl, _⟩
    · exact hk
    · cases hck
  exact h.condensation.unique (hscc hn hcn) (hscc hm hcm) hcn hcm

theorem eq_dummy (h : IsStagesDAG g sccs dag) {n : SCC} (hn : n ∈ dag.ns)
    (hlast : forall m, ¬ dag.Edge n m) : n = dummy := by
  rcases (h.mem_iff n).mp hn with hn | ⟨rfl, _⟩
  · exact absurd ((h.edge_iff n dummy).mpr (Or.inl ⟨hn, rfl⟩)) (hlast dummy)
  · rfl

theorem not_edge_dummy (h : IsStagesDAG g sccs dag) (m : SCC) :
    ¬ dag.Edge dummy m := by
  intro hedge
  exact h.condensation.nil_notMem (h.condensation.mem_of_edge hedge).1

theorem acyclic (h : IsStagesDAG g sccs dag) : dag.Acyclic := by
  intro n hcycle
  rcases Relation.TransGen.head'_iff.mp hcycle with ⟨k, hedge, hpath⟩
  exact h.condensation.acyclic hedge hpath

end IsStagesDAG

/-!
# Schedules

A component that is done comes after all the components it depends on.
-/

structure Scheduled (dag : Graph SCC) (p : Planning) (stageId : Nat) :
    Prop where
  subset : forall n, n ∈ p.done -> n ∈ dag.ns
  below : forall n s, p.done.lookup n = some s -> s < stageId
  earlier : forall n s, p.done.lookup n = some s -> forall m, dag.Edge n m ->
    exists t, p.done.lookup m = some t ∧ t < s ∧ p.dependences.Edge s t
  descends : forall s t, p.dependences.Edge s t -> t < s
  contents : forall c s, c ∈ p.candidates s <->
    exists n, p.done.lookup n = some s ∧ c ∈ n

structure Filled (dag : Graph SCC) (p : Planning) (stageId : Nat)
    (dependences : Graph Nat) (candidates : Nat -> List String)
    (assigned : List SCC) : Prop where
  fresh : forall n, n ∈ assigned -> n ∈ dag.ns ∧ n ∉ p.done
  linked : forall n, n ∈ assigned -> forall m, dag.Edge n m ->
    exists t, p.done.lookup m = some t ∧ dependences.Edge stageId t
  kept : forall s t, p.dependences.Edge s t -> dependences.Edge s t
  descends : forall s t, dependences.Edge s t -> t < s
  contents : forall c s, c ∈ candidates s <-> c ∈ p.candidates s ∨
    (s = stageId ∧ exists n, n ∈ assigned ∧ c ∈ n)

theorem Filled.initial {dag : Graph SCC} {p : Planning} {stageId : Nat}
    (h : Scheduled dag p stageId) :
    Filled dag p stageId p.dependences p.candidates [] where
  fresh := by simp
  linked := by simp
  kept := fun _ _ hedge => hedge
  descends := h.descends
  contents := by simp

theorem lookup_insert_all (assigned : List SCC) (stageId : Nat)
    (done : AList (fun _ : SCC => Nat)) (n : SCC) :
    (assigned.foldl (fun done n => done.insert n stageId) done).lookup n =
      if n ∈ assigned then some stageId else done.lookup n := by
  induction assigned generalizing done with
  | nil => simp
  | cons m assigned ih =>
    rw [List.foldl_cons, ih]
    by_cases hn : n = m
    · subst hn
      simp
    · rw [AList.lookup_insert_ne hn]
      simp [hn]

theorem mem_addCandidates {candidates : Nat -> List String} {stage s : Nat}
    {n : SCC} {c : String} :
    c ∈ addCandidates candidates stage n s <-> c ∈ candidates s ∨ (s = stage ∧ c ∈ n) := by
  unfold addCandidates
  by_cases hs : s = stage
  · subst hs
    simp [mem_foldl_hashSetAdd]
  · simp [hs]

theorem addDependences_spec {dag : Graph SCC}
    (done : AList (fun _ : SCC => Nat)) (stage : Nat) {n : SCC} (dependences : Graph Nat)
    (hdone : forall m, dag.Edge n m -> m ∈ done) :
    exists dependences', addDependences dag done stage n dependences = some dependences' ∧
      forall s t, dependences'.Edge s t <-> dependences.Edge s t ∨
        (s = stage ∧ exists m, dag.Edge n m ∧ done.lookup m = some t) := by
  have hgeneral : forall (ms : List SCC) (g : Graph Nat),
      (forall m, m ∈ ms -> m ∈ done) ->
      exists g', ms.foldlM
          (fun g s => (done.lookup s).map (fun t => g.addEdge stage t)) g =
            some g' ∧
        forall s t, g'.Edge s t <-> g.Edge s t ∨
          (s = stage ∧ exists m, m ∈ ms ∧ done.lookup m = some t) := by
    intro ms
    induction ms with
    | nil => exact fun g _ => ⟨g, rfl, by simp⟩
    | cons m ms ih =>
      intro g hms
      rcases Option.isSome_iff_exists.mp
        (AList.lookup_isSome.mpr (hms m List.mem_cons_self)) with ⟨u, hu⟩
      rcases ih (g.addEdge stage u)
        (fun k hk => hms k (List.mem_cons_of_mem m hk)) with
        ⟨g', hrest, hedges⟩
      refine ⟨g', ?_, ?_⟩
      · rw [List.foldlM_cons, hu]
        exact hrest
      · intro s t
        rw [hedges, Graph.edge_addEdge]
        constructor
        · rintro ((hold | ⟨rfl, rfl⟩) | ⟨rfl, k, hk, ht⟩)
          · exact Or.inl hold
          · exact Or.inr ⟨rfl, m, List.mem_cons_self, hu⟩
          · exact Or.inr ⟨rfl, k, List.mem_cons_of_mem m hk, ht⟩
        · rintro (hold | ⟨rfl, k, hk, ht⟩)
          · exact Or.inl (Or.inl hold)
          · rcases List.mem_cons.mp hk with rfl | hk
            · rw [hu] at ht
              exact Or.inl (Or.inr ⟨rfl, (Option.some.inj ht).symm⟩)
            · exact Or.inr ⟨rfl, k, hk, ht⟩
  rcases hgeneral (dag.successors n) dependences
    (fun m hm => hdone m (Graph.mem_successors.mp hm)) with
    ⟨dependences', hresult, hedges⟩
  refine ⟨dependences', hresult, ?_⟩
  intro s t
  rw [hedges]
  simp only [Graph.mem_successors]

theorem Filled.add {dag : Graph SCC} {p : Planning} {stageId : Nat}
    {dependences dependences' : Graph Nat} {candidates : Nat -> List String}
    {assigned : List SCC} {n : SCC} (hp : Scheduled dag p stageId)
    (h : Filled dag p stageId dependences candidates assigned) (hn : n ∈ dag.ns) (hnew : n ∉ p.done)
    (hdone : forall m, dag.Edge n m -> m ∈ p.done)
    (hedges : forall s t, dependences'.Edge s t <-> dependences.Edge s t ∨
      (s = stageId ∧ exists m, dag.Edge n m ∧ p.done.lookup m = some t)) :
    Filled dag p stageId dependences' (addCandidates candidates stageId n)
      (hashSetAdd assigned n) where
  fresh := by
    intro k hk
    rcases mem_hashSetAdd.mp hk with hk | rfl
    · exact h.fresh k hk
    · exact ⟨hn, hnew⟩
  linked := by
    intro k hk m hkm
    rcases mem_hashSetAdd.mp hk with hk | rfl
    · rcases h.linked k hk m hkm with ⟨t, ht, hedge⟩
      exact ⟨t, ht, (hedges stageId t).mpr (Or.inl hedge)⟩
    · rcases Option.isSome_iff_exists.mp
        (AList.lookup_isSome.mpr (hdone m hkm)) with ⟨t, ht⟩
      exact ⟨t, ht, (hedges stageId t).mpr (Or.inr ⟨rfl, m, hkm, ht⟩)⟩
  kept := fun s t hedge => (hedges s t).mpr (Or.inl (h.kept s t hedge))
  descends := by
    intro s t hedge
    rcases (hedges s t).mp hedge with hedge | ⟨rfl, m, _, ht⟩
    · exact h.descends s t hedge
    · exact hp.below m t ht
  contents := by
    intro c s
    rw [mem_addCandidates, h.contents]
    simp only [mem_hashSetAdd]
    constructor
    · rintro ((hold | ⟨rfl, k, hk, hc⟩) | ⟨rfl, hc⟩)
      · exact Or.inl hold
      · exact Or.inr ⟨rfl, k, Or.inl hk, hc⟩
      · exact Or.inr ⟨rfl, n, Or.inr rfl, hc⟩
    · rintro (hold | ⟨rfl, k, hk | rfl, hc⟩)
      · exact Or.inl (Or.inl hold)
      · exact Or.inl (Or.inr ⟨rfl, k, hk, hc⟩)
      · exact Or.inr ⟨rfl, hc⟩

theorem Scheduled.finish {dag : Graph SCC} {p : Planning} {stageId : Nat}
    {dependences : Graph Nat} {candidates : Nat -> List String}
    {assigned : List SCC} (hp : Scheduled dag p stageId)
    (h : Filled dag p stageId dependences candidates assigned) :
    Scheduled dag
      { dependences := dependences
        candidates := candidates
        done := assigned.foldl (fun done n => done.insert n stageId) p.done } (stageId + 1) := by
  have hkept : forall n s, p.done.lookup n = some s ->
      (assigned.foldl (fun done n => done.insert n stageId) p.done).lookup n =
        some s := by
    intro n s hn
    have hold : n ∉ assigned := by
      intro hmem
      have hnot := AList.lookup_eq_none.mpr (h.fresh n hmem).2
      rw [hn] at hnot
      cases hnot
    rw [lookup_insert_all, if_neg hold, hn]
  constructor
  · intro n hn
    have hsome := AList.lookup_isSome.mpr hn
    rw [lookup_insert_all] at hsome
    by_cases hmem : n ∈ assigned
    · exact (h.fresh n hmem).1
    · rw [if_neg hmem] at hsome
      exact hp.subset n (AList.lookup_isSome.mp hsome)
  · intro n s hn
    rw [lookup_insert_all] at hn
    split at hn
    · cases hn
      exact Nat.lt_succ_self stageId
    · exact Nat.lt_succ_of_lt (hp.below n s hn)
  · intro n s hn m hedge
    rw [lookup_insert_all] at hn
    split at hn
    · rename_i hmem
      cases hn
      rcases h.linked n hmem m hedge with ⟨t, ht, hst⟩
      exact ⟨t, hkept m t ht, hp.below m t ht, hst⟩
    · rcases hp.earlier n s hn m hedge with ⟨t, ht, hlt, hst⟩
      exact ⟨t, hkept m t ht, hlt, h.kept s t hst⟩
  · exact h.descends
  · intro c s
    rw [h.contents, hp.contents]
    constructor
    · rintro (⟨n, hn, hc⟩ | ⟨rfl, n, hn, hc⟩)
      · exact ⟨n, hkept n s hn, hc⟩
      · refine ⟨n, ?_, hc⟩
        rw [lookup_insert_all, if_pos hn]
    · rintro ⟨n, hn, hc⟩
      rw [lookup_insert_all] at hn
      split at hn
      · rename_i hmem
        cases hn
        exact Or.inr ⟨rfl, n, hmem, hc⟩
      · exact Or.inl ⟨n, hn, hc⟩

/-!
# Filling a stage
-/

theorem ready_iff {dag : Graph SCC} {done : AList (fun _ : SCC => Nat)}
    {n : SCC} :
    ready dag done n = true <-> forall m, dag.Edge n m -> m ∈ done := by
  unfold ready
  rw [List.all_eq_true]
  constructor
  · exact fun h m hedge =>
      of_decide_eq_true (h m (Graph.mem_successors.mpr hedge))
  · exact fun h m hm => decide_eq_true (h m (Graph.mem_successors.mp hm))

structure FillsStage (dag : Graph SCC) (p : Planning) (stageId : Nat)
    (maxStageSize : Option Nat) (ns : List SCC) (f f' : Filling) : Prop where
  filled : Filled dag p stageId f'.dependences f'.candidates
    f'.assignedToThisStage
  grows : f.stageSize ≤ f'.stageSize
  kept : forall n, n ∈ f.assignedToThisStage -> n ∈ f'.assignedToThisStage
  assigned : f'.stageSize ≠ f.stageSize ->
    exists n, n ∈ f'.assignedToThisStage
  refused : f'.stageSize = 0 -> forall n, n ∈ ns -> n ≠ [] ->
    ready dag p.done n = true -> exceeds maxStageSize n.length = true

theorem fillStage_loop {dag : Graph SCC} {p : Planning} {stageId : Nat}
    {maxStageSize : Option Nat} (hp : Scheduled dag p stageId)
    (ns : List SCC) (hns : forall n, n ∈ ns -> n ∈ dag.ns ∧ n ∉ p.done) (f : Filling)
    (hf : Filled dag p stageId f.dependences f.candidates f.assignedToThisStage) :
    exists f', ns.foldlM (assignComponent dag p.done stageId maxStageSize) f = some f' ∧
      FillsStage dag p stageId maxStageSize ns f f' := by
  induction ns generalizing f with
  | nil =>
    exact ⟨f, rfl, hf, Nat.le_refl _, fun _ h => h, fun h => absurd rfl h,
      by simp⟩
  | cons n ns ih =>
    have hrest : forall m, m ∈ ns -> m ∈ dag.ns ∧ m ∉ p.done :=
      fun m hm => hns m (List.mem_cons_of_mem n hm)
    rw [List.foldlM_cons, assignComponent]
    by_cases hlarge : exceeds maxStageSize (f.stageSize + n.length) = true
    · rw [if_pos hlarge]
      rcases ih hrest f hf with ⟨f', hresult, hfills⟩
      refine ⟨f', hresult, hfills.filled, hfills.grows, hfills.kept,
        hfills.assigned, ?_⟩
      intro hzero m hm hne hready
      rcases List.mem_cons.mp hm with rfl | hm
      · have hgrows := hfills.grows
        have hstart : f.stageSize = 0 := by omega
        rw [hstart, Nat.zero_add] at hlarge
        exact hlarge
      · exact hfills.refused hzero m hm hne hready
    · rw [if_neg hlarge]
      by_cases hready : ready dag p.done n = true
      · rw [if_pos hready]
        have hdone := ready_iff.mp hready
        rcases addDependences_spec p.done stageId f.dependences hdone with
          ⟨dependences, hdependences, hedges⟩
        rw [hdependences]
        rcases ih hrest
          { dependences := dependences
            candidates := addCandidates f.candidates stageId n
            stageSize := f.stageSize + n.length
            assignedToThisStage := hashSetAdd f.assignedToThisStage n }
          (hf.add hp (hns n List.mem_cons_self).1
            (hns n List.mem_cons_self).2 hdone hedges) with
          ⟨f', hresult, hfills⟩
        have hgrows : f.stageSize + n.length ≤ f'.stageSize := hfills.grows
        refine ⟨f', hresult, hfills.filled, by omega, ?_, ?_, ?_⟩
        · exact fun m hm => hfills.kept m (mem_hashSetAdd.mpr (Or.inl hm))
        · exact fun _ =>
            ⟨n, hfills.kept n (mem_hashSetAdd.mpr (Or.inr rfl))⟩
        · intro hzero m hm hne hm'
          rcases List.mem_cons.mp hm with rfl | hm
          · have hlength := List.length_pos_iff.mpr hne
            omega
          · exact hfills.refused hzero m hm hne hm'
      · rw [if_neg hready]
        rcases ih hrest f hf with ⟨f', hresult, hfills⟩
        refine ⟨f', hresult, hfills.filled, hfills.grows, hfills.kept,
          hfills.assigned, ?_⟩
        intro hzero m hm hne hm'
        rcases List.mem_cons.mp hm with rfl | hm
        · exact absurd hm' hready
        · exact hfills.refused hzero m hm hne hm'

theorem fillStage_spec {dag : Graph SCC} {p : Planning} {stageId : Nat}
    (maxStageSize : Option Nat) (hp : Scheduled dag p stageId) :
    exists f, fillStage dag p stageId maxStageSize = some f ∧ FillsStage dag p stageId maxStageSize
        (dag.ns.filter (fun n => n ∉ p.done)) ⟨p.dependences, p.candidates, 0, []⟩ f := by
  apply fillStage_loop hp
  · intro n hn
    rw [List.mem_filter] at hn
    exact ⟨hn.1, of_decide_eq_true hn.2⟩
  · exact Filled.initial hp

/-!
# The loop over the stages
-/

theorem done_length_le {dag : Graph SCC} {p : Planning} {stageId : Nat}
    (h : Scheduled dag p stageId) :
    p.done.keys.length ≤ dag.ns.length :=
  (List.subperm_of_subset p.done.keys_nodup
    (fun n hn => h.subset n (AList.mem_keys.mpr hn))).length_le

theorem all_done {dag : Graph SCC} {p : Planning} {stageId : Nat} (h : Scheduled dag p stageId)
    (hlength : p.done.keys.length = dag.ns.length) :
    forall n, n ∈ dag.ns -> n ∈ p.done := by
  intro n hn
  have hperm := (List.subperm_of_subset p.done.keys_nodup
    (fun n hn => h.subset n (AList.mem_keys.mpr hn))).perm_of_length_le
      (by omega)
  exact AList.mem_keys.mpr (hperm.mem_iff.mpr hn)

theorem exists_notDone {dag : Graph SCC} {p : Planning}
    (hlength : p.done.keys.length < dag.ns.length) :
    exists n, n ∈ dag.ns ∧ n ∉ p.done := by
  by_contra hnone
  push Not at hnone
  have hle := (List.subperm_of_subset dag.nodup
    (fun n hn => AList.mem_keys.mp (hnone n hn))).length_le
  omega

theorem mem_finishStage {p : Planning} {stageId : Nat} {f : Filling}
    {n : SCC} :
    n ∈ (finishStage p stageId f).done <-> n ∈ f.assignedToThisStage ∨ n ∈ p.done := by
  rw [← AList.lookup_isSome, finishStage, lookup_insert_all]
  by_cases hn : n ∈ f.assignedToThisStage
  · simp [hn]
  · simp [hn, AList.lookup_isSome]

theorem done_length_mono (p : Planning) (stageId : Nat) (f : Filling) :
    p.done.keys.length ≤ (finishStage p stageId f).done.keys.length :=
  (List.subperm_of_subset p.done.keys_nodup (fun _ hm =>
    AList.mem_keys.mp (mem_finishStage.mpr
      (Or.inr (AList.mem_keys.mpr hm))))).length_le

theorem done_length_lt {p : Planning} (stageId : Nat) {f : Filling} {n : SCC}
    (hnew : n ∉ p.done) (hn : n ∈ f.assignedToThisStage) :
    p.done.keys.length < (finishStage p stageId f).done.keys.length := by
  have hnodup : (n :: p.done.keys).Nodup :=
    List.nodup_cons.mpr
      ⟨fun h => hnew (AList.mem_keys.mpr h), p.done.keys_nodup⟩
  have hsubset : forall m, m ∈ n :: p.done.keys ->
      m ∈ (finishStage p stageId f).done.keys := by
    intro m hm
    apply AList.mem_keys.mp
    rcases List.mem_cons.mp hm with rfl | hm
    · exact mem_finishStage.mpr (Or.inl hn)
    · exact mem_finishStage.mpr (Or.inr (AList.mem_keys.mpr hm))
  have hle := (List.subperm_of_subset hnodup hsubset).length_le
  rw [List.length_cons] at hle
  omega

def slack (largest : Nat) : Option Nat -> Nat
  | none => 0
  | some max => largest - max

theorem exists_ready {dag : Graph SCC} {p : Planning} (hdag : dag.Acyclic)
    (hlength : p.done.keys.length < dag.ns.length) :
    exists n, n ∈ dag.ns ∧ n ∉ p.done ∧ ready dag p.done n = true := by
  rcases hdag.exists_last (P := fun n => n ∉ p.done)
    (exists_notDone hlength) with ⟨n, hn, hnew, hlast⟩
  refine ⟨n, hn, hnew, ready_iff.mpr ?_⟩
  intro m hedge
  have := hlast m hedge
  simpa using this

theorem stagesLoop_spec {g : Graph String} {sccs : List SCC}
    {dag : Graph SCC} (hdag : IsStagesDAG g sccs dag) {largest : Nat}
    (hlargest : forall n, n ∈ dag.ns -> n.length ≤ largest)
    (iterations stageId : Nat) (maxStageSize : Option Nat) (p : Planning)
    (hp : Scheduled dag p stageId) (hdummy : dummy ∈ p.done)
    (hpositive : forall max, maxStageSize = some max -> 0 < max)
    (henough : dag.ns.length - p.done.keys.length + slack largest maxStageSize < iterations) :
    exists p' last, stagesLoop dag iterations stageId maxStageSize p = some p' ∧
      Scheduled dag p' last ∧ forall n, n ∈ dag.ns -> n ∈ p'.done := by
  induction iterations generalizing stageId maxStageSize p with
  | zero => omega
  | succ iterations ih =>
    rw [stagesLoop]
    by_cases hlength : p.done.keys.length = dag.ns.length
    · rw [if_pos hlength]
      exact ⟨p, stageId, rfl, hp, all_done hp hlength⟩
    · rw [if_neg hlength]
      have hlt : p.done.keys.length < dag.ns.length := by
        have := done_length_le hp
        omega
      rcases fillStage_spec maxStageSize hp with ⟨f, hresult, hfills⟩
      rw [hresult]
      have hfinish := hp.finish hfills.filled
      have hdummy' : dummy ∈ (finishStage p stageId f).done :=
        mem_finishStage.mpr (Or.inr hdummy)
      by_cases hzero : f.stageSize = 0
      · -- no component was small enough, and a ready one was refused
        rcases exists_ready hdag.acyclic hlt with ⟨n, hn, hnew, hready⟩
        have hne : n ≠ [] := by
          rintro rfl
          exact hnew hdummy
        have hexceeds := hfills.refused hzero n
          (List.mem_filter.mpr ⟨hn, decide_eq_true hnew⟩) hne hready
        cases maxStageSize with
        | none => cases hexceeds
        | some max =>
          have hmax : max < n.length := of_decide_eq_true hexceeds
          have hbound := hlargest n hn
          have hpos := hpositive max rfl
          simp only [if_pos hzero, Option.map_some]
          apply ih (stageId + 1) (some (max * 2))
            (finishStage p stageId f) hfinish hdummy'
          · intro max' hmax'
            cases hmax'
            omega
          · have hkeys := done_length_mono p stageId f
            simp only [slack] at henough ⊢
            omega
      · rcases hfills.assigned hzero with ⟨n, hn⟩
        have hgrow := done_length_lt stageId
          (hfills.filled.fresh n hn).2 hn
        have hle : (finishStage p stageId f).done.keys.length ≤
            dag.ns.length := done_length_le hfinish
        simp only [if_neg hzero]
        apply ih (stageId + 1) maxStageSize (finishStage p stageId f)
          hfinish hdummy' hpositive
        omega

theorem getStartNode_eq {g : Graph String} {sccs : List SCC}
    {dag : Graph SCC} (hdag : IsStagesDAG g sccs dag) (hne : dag.ns ≠ []) :
    getStartNodeOfStagesDAG dag = some dummy ∧ dummy ∈ dag.ns := by
  have hstart : forall n,
      n ∈ dag.ns.filter (fun n => (dag.successors n).length = 0) ->
        n = dummy ∧ n ∈ dag.ns := by
    intro n hn
    rw [List.mem_filter] at hn
    refine ⟨hdag.eq_dummy hn.1 ?_, hn.1⟩
    intro m hedge
    have hempty := List.length_eq_zero_iff.mp (of_decide_eq_true hn.2)
    have hmem := Graph.mem_successors.mpr hedge
    rw [hempty] at hmem
    cases hmem
  rcases hdag.acyclic.exists_last (P := fun _ => True)
    ((List.exists_mem_of_ne_nil dag.ns hne).imp fun _ h => ⟨h, trivial⟩) with
    ⟨n, hn, _, hlast⟩
  have hmem : n ∈ dag.ns.filter (fun n => (dag.successors n).length = 0) := by
    rw [List.mem_filter]
    refine ⟨hn, decide_eq_true (List.length_eq_zero_iff.mpr ?_)⟩
    apply List.eq_nil_iff_forall_not_mem.mpr
    exact fun m hm => hlast m (Graph.mem_successors.mp hm) trivial
  unfold getStartNodeOfStagesDAG
  cases hfilter : dag.ns.filter
      (fun n => (dag.successors n).length = 0) with
  | nil =>
    rw [hfilter] at hmem
    cases hmem
  | cons first rest =>
    have hfirst := hstart first (by rw [hfilter]; exact List.mem_cons_self)
    exact ⟨by rw [List.head?_cons, hfirst.1], hfirst.1 ▸ hfirst.2⟩

theorem computeStages_spec {g : Graph String} {sccs : List SCC}
    {dag : Graph SCC} (hdag : IsStagesDAG g sccs dag) (hne : dag.ns ≠ [])
    (maxStageSize : Option Nat) (hpositive : forall max, maxStageSize = some max -> 0 < max) :
    exists bound, forall iterations, bound ≤ iterations ->
      exists p last, computeStages dag iterations maxStageSize =
          some ⟨p.dependences, p.candidates⟩ ∧
        Scheduled dag p last ∧ forall n, n ∈ dag.ns -> n ∈ p.done := by
  rcases getStartNode_eq hdag hne with ⟨hstart, hmem⟩
  let p₀ : Planning := ⟨Graph.empty, fun _ => [], AList.insert dummy 0 ∅⟩
  have hlookup : forall n s, p₀.done.lookup n = some s ->
      n = dummy ∧ s = 0 := by
    intro n s hn
    by_cases heq : n = dummy
    · subst heq
      rw [AList.lookup_insert] at hn
      exact ⟨rfl, (Option.some.inj hn).symm⟩
    · rw [AList.lookup_insert_ne heq, AList.lookup_empty] at hn
      cases hn
  have hp : Scheduled dag p₀ 1 := by
    constructor
    · intro n hn
      rcases (AList.mem_insert _).mp hn with rfl | hn
      · exact hmem
      · exact absurd hn (AList.notMem_empty n)
    · intro n s hn
      rw [(hlookup n s hn).2]
      exact Nat.one_pos
    · intro n s hn m hedge
      rw [(hlookup n s hn).1] at hedge
      exact absurd hedge (hdag.not_edge_dummy m)
    · exact fun s t hedge => absurd hedge Graph.not_edge_empty
    · intro c s
      constructor
      · intro hc
        cases hc
      · rintro ⟨n, hn, hc⟩
        rw [(hlookup n s hn).1] at hc
        cases hc
  have hdummy : dummy ∈ p₀.done := (AList.mem_insert _).mpr (Or.inl rfl)
  have hlargest : forall n, n ∈ dag.ns ->
      n.length ≤ (dag.ns.map List.length).sum :=
    fun n hn => List.le_sum_of_mem (List.mem_map_of_mem hn)
  refine ⟨dag.ns.length - p₀.done.keys.length +
    slack (dag.ns.map List.length).sum maxStageSize + 1, ?_⟩
  intro iterations hiterations
  rcases stagesLoop_spec hdag hlargest iterations 1 maxStageSize p₀ hp hdummy
    hpositive (by omega) with ⟨p, last, hresult, hscheduled, hall⟩
  refine ⟨p, last, ?_, hscheduled, hall⟩
  rw [computeStages, hstart]
  simp only [p₀] at hresult
  simp only [hresult]

/-!
# Fine stages
-/

def Executable (dag : Graph SCC) (done : SCC -> Prop)
    (components : List SCC) : Prop :=
  forall before n after, components = before ++ n :: after ->
    forall m, dag.Edge n m -> done m ∨ m ∈ before

theorem fineLoop_spec {dag : Graph SCC} (hacyclic : dag.Acyclic)
    (components : List SCC) (i : Nat) (p : Planning)
    (hp : Scheduled dag p i) (hnodup : components.Nodup)
    (hfresh : forall n, n ∈ components -> n ∈ dag.ns ∧ n ∉ p.done)
    (horder : Executable dag (fun m => m ∈ p.done) components) :
    exists p' last, fineLoop dag components i p = some p' ∧ Scheduled dag p' last ∧
      forall n, n ∈ p.done ∨ n ∈ components -> n ∈ p'.done := by
  induction components generalizing i p with
  | nil => exact ⟨p, i, rfl, hp, by simp⟩
  | cons n components ih =>
    rw [List.nodup_cons] at hnodup
    have hloop : forall m, dag.Edge n m -> m ≠ n := by
      rintro m hedge rfl
      exact hacyclic m (Relation.TransGen.single hedge)
    have hdone : forall m, dag.Edge n m -> m ∈ p.done := by
      intro m hedge
      rcases horder [] n components rfl m hedge with hm | hm
      · exact hm
      · cases hm
    have hn := hfresh n List.mem_cons_self
    rcases addDependences_spec (p.done.insert n i) i p.dependences
      (fun m hedge => (AList.mem_insert _).mpr (Or.inr (hdone m hedge))) with
      ⟨dependences, hdependences, hedges⟩
    have hedges' : forall s t, dependences.Edge s t <->
        p.dependences.Edge s t ∨
          (s = i ∧ exists m, dag.Edge n m ∧ p.done.lookup m = some t) := by
      intro s t
      rw [hedges]
      constructor
      · rintro (hold | ⟨hs, m, hedge, ht⟩)
        · exact Or.inl hold
        · rw [AList.lookup_insert_ne (hloop m hedge)] at ht
          exact Or.inr ⟨hs, m, hedge, ht⟩
      · rintro (hold | ⟨hs, m, hedge, ht⟩)
        · exact Or.inl hold
        · rw [← AList.lookup_insert_ne (hloop m hedge)] at ht
          exact Or.inr ⟨hs, m, hedge, ht⟩
    have hfinish := hp.finish
      ((Filled.initial hp).add hp hn.1 hn.2 hdone hedges')
    have hmem : forall m,
        m ∈ p.done.insert n i <-> m = n ∨ m ∈ p.done :=
      fun m => AList.mem_insert p.done
    have hfresh' : forall m, m ∈ components ->
        m ∈ dag.ns ∧ m ∉ p.done.insert n i := by
      intro m hm
      have hold := hfresh m (List.mem_cons_of_mem n hm)
      refine ⟨hold.1, ?_⟩
      rw [hmem]
      rintro (rfl | hm')
      · exact hnodup.1 hm
      · exact hold.2 hm'
    have horder' : Executable dag (fun m => m ∈ p.done.insert n i)
        components := by
      intro before m after heq k hedge
      rcases horder (n :: before) m after (by rw [heq]; rfl) k hedge with
        hk | hk
      · exact Or.inl ((hmem k).mpr (Or.inr hk))
      · rcases List.mem_cons.mp hk with rfl | hk
        · exact Or.inl ((hmem k).mpr (Or.inl rfl))
        · exact Or.inr hk
    rcases ih (i + 1) _ hfinish hnodup.2 hfresh' horder' with
      ⟨p', last, hresult, hscheduled, hall⟩
    refine ⟨p', last, ?_, hscheduled, ?_⟩
    · rw [fineLoop]
      simp only [hdependences]
      exact hresult
    · intro m hm
      apply hall
      show m ∈ p.done.insert n i ∨ m ∈ components
      rw [hmem]
      rcases hm with hm | hm
      · exact Or.inl (Or.inr hm)
      · rcases List.mem_cons.mp hm with rfl | hm
        · exact Or.inl (Or.inl rfl)
        · exact Or.inr hm

theorem executable_reverse {dag : Graph SCC} (hacyclic : dag.Acyclic)
    {l : List SCC} (h : dag.IsTopologicalOrder l) (done : SCC -> Prop) :
    Executable dag done l.reverse := by
  intro before n after heq m hedge
  right
  have hsplit : l = after.reverse ++ n :: before.reverse := by
    rw [← List.reverse_reverse l, heq]
    simp
  have hm : m ∈ l := (h.mem_iff m).mpr (dag.endpoints _ hedge).2
  rw [hsplit, List.mem_append, List.mem_cons, List.mem_reverse,
    List.mem_reverse] at hm
  rcases hm with hm | rfl | hm
  · -- otherwise the source of the edge occurs twice in the order
    exfalso
    rcases List.append_of_mem (List.mem_reverse.mpr hm) with
      ⟨first, second, hafter⟩
    have hfull : l = first ++ m :: (second ++ n :: before.reverse) := by
      rw [hsplit, hafter]
      simp
    have hfirst := h.ordered first m _ hfull n hedge
    have hnodup := h.nodup
    rw [hfull, List.nodup_append] at hnodup
    exact hnodup.2.2 n hfirst n (by simp) rfl
  · exact absurd (Relation.TransGen.single hedge) (hacyclic m)
  · exact hm

theorem computeFineStages_spec {g : Graph String} {sccs : List SCC}
    {dag : Graph SCC} (hdag : IsStagesDAG g sccs dag) :
    exists p last, computeFineStages dag = some ⟨p.dependences, p.candidates⟩ ∧
      Scheduled dag p last ∧ forall n, n ∈ dag.ns -> n ∈ p.done := by
  let p₀ : Planning := ⟨Graph.empty, fun _ => [], ∅⟩
  have hlookup : forall n s, p₀.done.lookup n = some s -> False := by
    intro n s hn
    rw [AList.lookup_empty] at hn
    cases hn
  have hp : Scheduled dag p₀ 0 := by
    constructor
    · exact fun n hn => absurd hn (AList.notMem_empty n)
    · exact fun n s hn => (hlookup n s hn).elim
    · exact fun n s hn => (hlookup n s hn).elim
    · exact fun s t hedge => absurd hedge Graph.not_edge_empty
    · intro c s
      constructor
      · intro hc
        cases hc
      · rintro ⟨n, hn, _⟩
        exact (hlookup n s hn).elim
  have horder := Graph.topologicalSort_order false hdag.acyclic
  rcases fineLoop_spec hdag.acyclic (dag.topologicalSort false).reverse 0 p₀
    hp (List.nodup_reverse.mpr horder.nodup)
    (fun n hn => ⟨(horder.mem_iff n).mp (List.mem_reverse.mp hn),
      AList.notMem_empty n⟩)
    (executable_reverse hdag.acyclic horder _) with
    ⟨p, last, hresult, hscheduled, hall⟩
  refine ⟨p, last, ?_, hscheduled, ?_⟩
  · rw [computeFineStages]
    simp only [p₀] at hresult
    simp only [hresult]
  · intro n hn
    exact hall n (Or.inr (List.mem_reverse.mpr ((horder.mem_iff n).mpr hn)))

/-!
# The plan
-/

/-- Every candidate has one stage, the candidates of a component have the same
stage, and the stages of different components follow the dependences. -/
structure StagedHoudiniPlan.Respects (plan : StagedHoudiniPlan)
    (g : Graph String) : Prop where
  placed : forall c, c ∈ g.ns -> exists s,
    plan.stageForCandidate c = some s ∧
      forall t, t ∈ plan.scheduledStages.ns ->
        (c ∈ plan.candidates t <-> t = s)
  together : forall c d, c ∈ g.ns -> d ∈ g.ns -> Mutually g c d ->
    plan.stageForCandidate c = plan.stageForCandidate d
  earlier : forall c d, g.Edge c d -> ¬ Mutually g c d -> exists s t,
    plan.stageForCandidate c = some s ∧ plan.stageForCandidate d = some t ∧
      t < s ∧ plan.scheduledStages.Edge s t
  acyclic : plan.scheduledStages.Acyclic

theorem acyclic_of_descends {plan : Graph Nat}
    (h : forall s t, plan.Edge s t -> t < s) : plan.Acyclic := by
  intro n hcycle
  have hlt : forall m, Relation.TransGen plan.Edge n m -> m < n := by
    intro m hpath
    induction hpath with
    | single hedge => exact h _ _ hedge
    | tail _ hedge ih => exact Nat.lt_trans (h _ _ hedge) ih
  exact Nat.lt_irrefl n (hlt n hcycle)

theorem respects_of_scheduled {g : Graph String} {sccs : List SCC}
    {dag : Graph SCC} (hdag : IsStagesDAG g sccs dag) {p : Planning}
    {last : Nat} (hp : Scheduled dag p last) (hall : forall n, n ∈ dag.ns -> n ∈ p.done) :
    StagedHoudiniPlan.Respects ⟨p.dependences, p.candidates⟩ g := by
  -- the stage of a candidate is that of its component
  have hstage : forall c, c ∈ g.ns -> exists n s, n ∈ sccs ∧ c ∈ n ∧
      p.done.lookup n = some s ∧
      StagedHoudiniPlan.stageForCandidate ⟨p.dependences, p.candidates⟩ c =
        some s ∧
      forall t, t ∈ p.dependences.ns -> (c ∈ p.candidates t <-> t = s) := by
    intro c hc
    rcases (hdag.components.cover c).mp hc with ⟨n, hn, hcn⟩
    have hns : n ∈ dag.ns := (hdag.mem_iff n).mpr (Or.inl hn)
    rcases Option.isSome_iff_exists.mp
      (AList.lookup_isSome.mpr (hall n hns)) with ⟨s, hs⟩
    have honly : forall t, c ∈ p.candidates t <-> t = s := by
      intro t
      rw [hp.contents]
      constructor
      · rintro ⟨m, hm, hcm⟩
        have hmns := hp.subset m
          (AList.lookup_isSome.mp (Option.isSome_iff_exists.mpr ⟨t, hm⟩))
        have hsame := hdag.unique hmns hns hcm hcn
        rw [hsame, hs] at hm
        exact (Option.some.inj hm).symm
      · rintro rfl
        exact ⟨n, hs, hcn⟩
    rcases hp.earlier n s hs dummy
      ((hdag.edge_iff n dummy).mpr (Or.inl ⟨hn, rfl⟩)) with ⟨t, _, _, hedge⟩
    have hmem : s ∈ p.dependences.ns := (p.dependences.endpoints _ hedge).1
    refine ⟨n, s, hn, hcn, hs, ?_, fun t _ => honly t⟩
    unfold StagedHoudiniPlan.stageForCandidate
    cases hfind : p.dependences.ns.find?
        (fun s => c ∈ p.candidates s) with
    | none =>
      have hnot := List.find?_eq_none.mp hfind s hmem
      exact absurd (decide_eq_true ((honly s).mpr rfl)) hnot
    | some t =>
      have hct := List.find?_some hfind
      rw [decide_eq_true_eq] at hct
      rw [(honly t).mp hct]
  constructor
  · intro c hc
    rcases hstage c hc with ⟨_, s, _, _, _, hfind, honly⟩
    exact ⟨s, hfind, honly⟩
  · intro c d hc hd hmutual
    rcases hstage c hc with ⟨n, s, hn, hcn, hs, hfind, _⟩
    rcases hstage d hd with ⟨m, t, hm, hdm, ht, hfind', _⟩
    have hdn := (hdag.components.mutual_iff n hn c hcn d).mpr ⟨hd, hmutual⟩
    have hsame := hdag.unique ((hdag.mem_iff m).mpr (Or.inl hm))
      ((hdag.mem_iff n).mpr (Or.inl hn)) hdm hdn
    rw [hsame, hs] at ht
    rw [hfind, hfind', ht]
  · intro c d hedge hmutual
    rcases hstage c (g.endpoints _ hedge).1 with ⟨n, s, hn, hcn, hs, hfind, _⟩
    rcases hstage d (g.endpoints _ hedge).2 with
      ⟨m, t, hm, hdm, ht, hfind', _⟩
    have hne : n ≠ m := by
      rintro rfl
      exact hmutual ((hdag.components.mutual_iff n hn c hcn d).mp hdm).2
    rcases hp.earlier n s hs m ((hdag.edge_iff n m).mpr
      (Or.inr ⟨hn, hm, hne, c, d, hcn, hdm, hedge⟩)) with
      ⟨u, hu, hlt, hst⟩
    rw [ht] at hu
    cases hu
    exact ⟨s, t, hfind, hfind', hlt, hst⟩
  · exact acyclic_of_descends hp.descends

theorem noStages_iff {analyser : CandidateDependenceAnalyser}
    {sccs : List SCC} {dag : Graph SCC}
    (hdag : IsStagesDAG analyser.candidateDependences sccs dag) :
    noStages analyser.candidates dag = true <-> analyser.candidates = [] := by
  unfold noStages
  rw [Bool.or_eq_true, decide_eq_true_eq, decide_eq_true_eq,
    List.length_eq_zero_iff, List.length_eq_zero_iff]
  constructor
  · rintro (hnone | hnone)
    · exact hnone
    · apply List.eq_nil_iff_forall_not_mem.mpr
      intro c hc
      rcases (hdag.components.cover c).mp ((analyser.nodes c).mpr hc) with
        ⟨n, hn, _⟩
      have hmem := (hdag.mem_iff n).mpr (Or.inl hn)
      rw [hnone] at hmem
      cases hmem
  · exact Or.inl

/-- Every strategy ends; without candidates there is no plan. -/
theorem assignCandidatesToStages_respects
    (analyser : CandidateDependenceAnalyser) (strategy : StagedHoudini) :
    exists bound, forall iterations, bound ≤ iterations -> (analyser.candidates = [] ∧
        assignCandidatesToStages analyser strategy iterations = some none) ∨ exists plan,
        assignCandidatesToStages analyser strategy iterations = some (some plan) ∧
        plan.Respects analyser.candidateDependences := by
  rcases constructStagesDAG_spec analyser.candidateDependences with
    ⟨sccs, dag, hresult, hdag⟩
  by_cases hnone : analyser.candidates = []
  · refine ⟨0, fun iterations _ => Or.inl ⟨hnone, ?_⟩⟩
    unfold assignCandidatesToStages
    simp only [hresult, (noStages_iff hdag).mpr hnone, if_true]
  · have hstages : noStages analyser.candidates dag = false :=
      Bool.eq_false_iff.mpr (fun h => hnone ((noStages_iff hdag).mp h))
    have hne : dag.ns ≠ [] := by
      intro hempty
      exact hnone ((noStages_iff hdag).mp (by simp [noStages, hempty]))
    cases strategy with
    | coarse =>
      rcases computeStages_spec hdag hne none (by simp) with ⟨bound, hbound⟩
      refine ⟨bound, fun iterations hle => Or.inr ?_⟩
      rcases hbound iterations hle with ⟨p, last, hplan, hp, hall⟩
      refine ⟨_, ?_, respects_of_scheduled hdag hp hall⟩
      unfold assignCandidatesToStages computeCoarseStages
      simp only [hresult, hstages, hplan, Bool.false_eq_true, if_false,
        Option.map_some]
    | fine =>
      rcases computeFineStages_spec hdag with ⟨p, last, hplan, hp, hall⟩
      refine ⟨0, fun iterations _ => Or.inr ?_⟩
      refine ⟨_, ?_, respects_of_scheduled hdag hp hall⟩
      unfold assignCandidatesToStages
      simp only [hresult, hstages, hplan, Bool.false_eq_true, if_false,
        Option.map_some]
    | balanced =>
      rcases computeStages_spec hdag hne (some 200) (by simp) with
        ⟨bound, hbound⟩
      refine ⟨bound, fun iterations hle => Or.inr ?_⟩
      rcases hbound iterations hle with ⟨p, last, hplan, hp, hall⟩
      refine ⟨_, ?_, respects_of_scheduled hdag hp hall⟩
      unfold assignCandidatesToStages computeBalancedStages
      simp only [hresult, hstages, hplan, Bool.false_eq_true, if_false,
        Option.map_some]

end Houdini

end Boogie
