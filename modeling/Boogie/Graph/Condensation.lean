import Boogie.Foundation.DepthFirst
import Boogie.Graph.Graph
import Boogie.Graph.StronglyConnectedComponents

/-!
# Queries on the condensed graph

The components of a graph form an acyclic graph.  The nodes that a component
reaches are the nodes of the components that it reaches, which are remembered
from one query to the next.
-/

namespace Boogie

namespace Condensation

open StronglyConnectedComponents (AreComponents Mutual Reach Step)

variable {Node : Type} [DecidableEq Node]

/-!
# The condensed graph

A component is the list of its nodes, and the dummy is empty.
-/

def sccOf (sccs : List (List Node)) : Node -> Option (List Node) :=
  sccs.foldl
    (fun sccOf scc =>
      scc.foldl (fun sccOf s => Function.update sccOf s (some scc)) sccOf)
    (fun _ => none)

def addEdgeBetween (sccOf : Node -> Option (List Node))
    (dag : Graph (List Node)) (edge : Node × Node) :
    Option (Graph (List Node)) :=
  match sccOf edge.1, sccOf edge.2 with
  | some source, some dest =>
    some (if source ≠ dest then dag.addEdge source dest else dag)
  | _, _ => none

def addDummyEdge (sccOf : Node -> Option (List Node))
    (dag : Graph (List Node)) (n : Node) : Option (Graph (List Node)) :=
  match sccOf n with
  | some scc => some (dag.addEdge scc [])
  | none => none

def components (g : Graph Node) : List (List Node) :=
  StronglyConnectedComponents.compute g.ns g.successors g.predecessors

/-- `ReachabilityGraphSCCsDAG`. -/
def condensed (g : Graph Node) : Option (Graph (List Node)) :=
  match g.es.foldlM (addEdgeBetween (sccOf (components g))) Graph.empty with
  | none => none
  | some dag => g.ns.foldlM (addDummyEdge (sccOf (components g))) dag

/-!
# Queries
-/

abbrev MayReachCache (Node : Type) :=
  List Node -> Option (List Node)

def unionWith (result nodes : List Node) : List Node :=
  nodes.foldl hashSetAdd result

def reachableFrom (dag : Graph (List Node)) :
    Nat -> MayReachCache Node -> List Node ->
      Option (List Node × MayReachCache Node)
  | 0, _, _ => none
  | depth + 1, cache, scc =>
    match cache scc with
    | some result => some (result, cache)
    | none =>
      if 0 < scc.length then
        match (dag.successors scc).foldlM
          (fun st nextSCC =>
            match reachableFrom dag depth st.2 nextSCC with
            | some (nodes, cache) => some (unionWith st.1 nodes, cache)
            | none => none)
          (unionWith [] scc, cache) with
        | some (result, cache) =>
          some (result, Function.update cache scc (some result))
        | none => none
      else some ([], Function.update cache scc (some []))

/-!
# Components of nodes
-/

section SccOf

variable {sccs : List (List Node)} {scc : List Node} {s : Node}

theorem sccOf_component (sccOf : Node -> Option (List Node)) :
    (scc.foldl (fun sccOf s => Function.update sccOf s (some scc)) sccOf) s =
      if s ∈ scc then some scc else sccOf s := by
  have hgeneral : forall (nodes : List Node) (f : Node -> Option (List Node)),
      (nodes.foldl (fun f s => Function.update f s (some scc)) f) s =
        if s ∈ nodes then some scc else f s := by
    intro nodes
    induction nodes with
    | nil => simp
    | cons t nodes ih =>
      intro f
      rw [List.foldl_cons, ih]
      by_cases hs : s = t
      · simp [hs]
      · simp [hs]
  exact hgeneral scc sccOf

theorem sccOf_eq (hdisjoint : sccs.Pairwise List.Disjoint) (hscc : scc ∈ sccs)
    (hs : s ∈ scc) : sccOf sccs s = some scc := by
  have hgeneral : forall (sccs : List (List Node))
      (f : Node -> Option (List Node)), sccs.Pairwise List.Disjoint ->
      (scc ∈ sccs ∨ (f s = some scc ∧ forall n, n ∈ sccs -> s ∉ n)) ->
      (sccs.foldl (fun f scc =>
        scc.foldl (fun f s => Function.update f s (some scc)) f) f) s =
        some scc := by
    intro sccs
    induction sccs with
    | nil =>
      intro f _ h
      rcases h with h | h
      · cases h
      · exact h.1
    | cons n sccs ih =>
      intro f hpairwise h
      rw [List.pairwise_cons] at hpairwise
      rw [List.foldl_cons]
      apply ih _ hpairwise.2
      rw [sccOf_component]
      rcases h with h | ⟨hf, hfresh⟩
      · rcases List.mem_cons.mp h with rfl | h
        · right
          refine ⟨by simp [hs], ?_⟩
          intro m hm hsm
          exact hpairwise.1 m hm hs hsm
        · exact Or.inl h
      · right
        have hn : s ∉ n := hfresh n List.mem_cons_self
        refine ⟨by simp [hn, hf], ?_⟩
        exact fun m hm => hfresh m (List.mem_cons_of_mem n hm)
  exact hgeneral sccs _ hdisjoint (Or.inl hscc)

theorem sccOf_some (h : sccOf sccs s = some scc) : scc ∈ sccs ∧ s ∈ scc := by
  have hgeneral : forall (sccs : List (List Node))
      (f : Node -> Option (List Node)),
      (sccs.foldl (fun f scc =>
        scc.foldl (fun f s => Function.update f s (some scc)) f) f) s =
        some scc ->
      (scc ∈ sccs ∧ s ∈ scc) ∨ f s = some scc := by
    intro sccs
    induction sccs with
    | nil => exact fun f h => Or.inr h
    | cons n sccs ih =>
      intro f h
      rw [List.foldl_cons] at h
      rcases ih _ h with ⟨hmem, hs⟩ | hfirst
      · exact Or.inl ⟨List.mem_cons_of_mem n hmem, hs⟩
      · rw [sccOf_component] at hfirst
        by_cases hs : s ∈ n
        · rw [if_pos hs] at hfirst
          cases hfirst
          exact Or.inl ⟨List.mem_cons_self, hs⟩
        · rw [if_neg hs] at hfirst
          exact Or.inr hfirst
  rcases hgeneral sccs _ h with hmem | hnone
  · exact hmem
  · cases hnone

end SccOf

/-!
# Paths of components
-/

theorem step_iff {g : Graph Node} {x y : Node} :
    Step g.ns g.successors x y <-> g.Edge x y := by
  constructor
  · exact fun h => Graph.mem_successors.mp h.2.2
  · intro h
    exact ⟨(g.endpoints _ h).1, (g.endpoints _ h).2,
      Graph.mem_successors.mpr h⟩

theorem areComponents (g : Graph Node) :
    AreComponents g.ns g.successors (components g) := by
  apply StronglyConnectedComponents.compute_spec
  intro x y _ _
  rw [Graph.mem_predecessors, Graph.mem_successors]

def Reaches (g : Graph Node) : Node -> Node -> Prop :=
  Relation.ReflTransGen g.Edge

theorem reach_iff {g : Graph Node} {x y : Node} :
    Reach g.ns g.successors x y <-> Reaches g x y := by
  have hstep : Step g.ns g.successors = g.Edge := by
    funext x y
    exact propext step_iff
  unfold Reach Reaches
  rw [hstep]

structure IsCondensation (g : Graph Node) (sccs : List (List Node))
    (dag : Graph (List Node)) : Prop where
  components : AreComponents g.ns g.successors sccs
  edge_iff : forall n m, dag.Edge n m <->
    (n ∈ sccs ∧ m = []) ∨
      (n ∈ sccs ∧ m ∈ sccs ∧ n ≠ m ∧
        exists x y, x ∈ n ∧ y ∈ m ∧ g.Edge x y)

section Condensed

variable {g : Graph Node} {sccs : List (List Node)} {dag : Graph (List Node)}

theorem addEdgeBetween_all (h : AreComponents g.ns g.successors sccs)
    (es : List (Node × Node)) (hes : forall e, e ∈ es -> g.Edge e.1 e.2) (dag : Graph (List Node))
    (hns : forall n, n ∈ dag.ns -> n ∈ sccs) :
    exists dag', es.foldlM (addEdgeBetween (sccOf sccs)) dag = some dag' ∧
      (forall n, n ∈ dag'.ns -> n ∈ sccs) ∧
      forall n m, dag'.Edge n m <-> dag.Edge n m ∨ (n ∈ sccs ∧ m ∈ sccs ∧ n ≠ m ∧
          exists x y, x ∈ n ∧ y ∈ m ∧ (x, y) ∈ es) := by
  induction es generalizing dag with
  | nil => exact ⟨dag, rfl, hns, by simp⟩
  | cons e es ih =>
    have hedge := hes e List.mem_cons_self
    rcases (h.cover e.1).mp (g.endpoints _ hedge).1 with ⟨n, hn, hen⟩
    rcases (h.cover e.2).mp (g.endpoints _ hedge).2 with ⟨m, hm, hem⟩
    let dag₁ := if n ≠ m then dag.addEdge n m else dag
    have hfirst : addEdgeBetween (sccOf sccs) dag e = some dag₁ := by
      rw [addEdgeBetween, sccOf_eq h.disjoint hn hen,
        sccOf_eq h.disjoint hm hem]
    have hns₁ : forall k, k ∈ dag₁.ns -> k ∈ sccs := by
      intro k hk
      simp only [dag₁] at hk
      split at hk
      · rcases Graph.mem_ns_addEdge.mp hk with hk | rfl | rfl
        · exact hns k hk
        · exact hn
        · exact hm
      · exact hns k hk
    rcases ih (fun e he => hes e (List.mem_cons_of_mem _ he)) dag₁ hns₁ with
      ⟨dag', hrest, hns', hedges⟩
    refine ⟨dag', ?_, hns', ?_⟩
    · rw [List.foldlM_cons, hfirst]
      exact hrest
    · -- the components of the end points of `e` are `n` and `m`
      have hunique : forall {k l c}, k ∈ sccs -> l ∈ sccs -> c ∈ k ->
          c ∈ l -> k = l := by
        intro k l c hk hl hck hcl
        have hsame := (sccOf_eq h.disjoint hk hck).symm.trans
          (sccOf_eq h.disjoint hl hcl)
        exact Option.some.inj hsame
      have hold : forall k l, dag₁.Edge k l <->
          dag.Edge k l ∨ (n ≠ m ∧ k = n ∧ l = m) := by
        intro k l
        simp only [dag₁]
        split
        · rename_i hne
          simp [hne]
        · rename_i heq
          simp [heq]
      intro k l
      rw [hedges, hold]
      constructor
      · intro hcases
        rcases hcases with (hkl | ⟨hne, rfl, rfl⟩) |
          ⟨hk, hl, hne, x, y, hx, hy, hxy⟩
        · exact Or.inl hkl
        · exact Or.inr ⟨hn, hm, hne, e.1, e.2, hen, hem, List.mem_cons_self⟩
        · exact Or.inr
            ⟨hk, hl, hne, x, y, hx, hy, List.mem_cons_of_mem e hxy⟩
      · intro hcases
        rcases hcases with hkl | ⟨hk, hl, hne, x, y, hx, hy, hxy⟩
        · exact Or.inl (Or.inl hkl)
        · rcases List.mem_cons.mp hxy with rfl | hxy
          · have hkn := hunique hk hn hx hen
            have hlm := hunique hl hm hy hem
            exact Or.inl (Or.inr ⟨hkn ▸ hlm ▸ hne, hkn, hlm⟩)
          · exact Or.inr ⟨hk, hl, hne, x, y, hx, hy, hxy⟩

theorem addDummyEdge_all (h : AreComponents g.ns g.successors sccs)
    (ns : List Node) (hns : forall n, n ∈ ns -> n ∈ g.ns) (dag : Graph (List Node)) :
    exists dag', ns.foldlM (addDummyEdge (sccOf sccs)) dag = some dag' ∧
      forall n m, dag'.Edge n m <-> dag.Edge n m ∨
        (n ∈ sccs ∧ m = [] ∧ exists x, x ∈ n ∧ x ∈ ns) := by
  induction ns generalizing dag with
  | nil => exact ⟨dag, rfl, by simp⟩
  | cons x ns ih =>
    rcases (h.cover x).mp (hns x List.mem_cons_self) with ⟨scc, hscc, hx⟩
    have hfirst : addDummyEdge (sccOf sccs) dag x =
        some (dag.addEdge scc []) := by
      rw [addDummyEdge, sccOf_eq h.disjoint hscc hx]
    rcases ih (fun y hy => hns y (List.mem_cons_of_mem x hy))
      (dag.addEdge scc []) with ⟨dag', hrest, hedges⟩
    refine ⟨dag', ?_, ?_⟩
    · rw [List.foldlM_cons, hfirst]
      exact hrest
    · intro n m
      rw [hedges, Graph.edge_addEdge]
      constructor
      · intro hcases
        rcases hcases with (hold | ⟨rfl, rfl⟩) | ⟨hn, hm, y, hy, hyns⟩
        · exact Or.inl hold
        · exact Or.inr ⟨hscc, rfl, x, hx, List.mem_cons_self⟩
        · exact Or.inr ⟨hn, hm, y, hy, List.mem_cons_of_mem x hyns⟩
      · intro hcases
        rcases hcases with hold | ⟨hn, rfl, y, hy, hyns⟩
        · exact Or.inl (Or.inl hold)
        · rcases List.mem_cons.mp hyns with rfl | hrest
          · have hsame := (sccOf_eq h.disjoint hn hy).symm.trans
              (sccOf_eq h.disjoint hscc hx)
            exact Or.inl (Or.inr ⟨Option.some.inj hsame, rfl⟩)
          · exact Or.inr ⟨hn, rfl, y, hy, hrest⟩

theorem condensed_spec (g : Graph Node) :
    exists dag, condensed g = some dag ∧ IsCondensation g (components g) dag := by
  have h := areComponents g
  rcases addEdgeBetween_all h g.es (fun e he => he) Graph.empty
    (by simp [Graph.empty]) with ⟨dag, hdag, _, hedges⟩
  rcases addDummyEdge_all h g.ns (fun n hn => hn) dag with
    ⟨dag', hdag', hedges'⟩
  refine ⟨dag', ?_, h, ?_⟩
  · rw [condensed, hdag]
    exact hdag'
  · intro n m
    rw [hedges', hedges, or_comm]
    apply or_congr
    · constructor
      · intro hcase
        exact ⟨hcase.1, hcase.2.1⟩
      · intro hcase
        rcases List.exists_mem_of_ne_nil n (h.nonempty n hcase.1) with ⟨x, hx⟩
        exact ⟨hcase.1, hcase.2, x, hx, (h.cover x).mpr ⟨n, hcase.1, hx⟩⟩
    · simp only [Graph.not_edge_empty, false_or]
      rfl

end Condensed

namespace IsCondensation

variable {g : Graph Node} {sccs : List (List Node)} {dag : Graph (List Node)}
  {n m : List Node} {x y : Node}

theorem nil_notMem (h : IsCondensation g sccs dag) : [] ∉ sccs :=
  fun hmem => h.components.nonempty [] hmem rfl

theorem mem_of_edge (h : IsCondensation g sccs dag) (hedge : dag.Edge n m) :
    n ∈ sccs ∧ (m = [] ∨ m ∈ sccs) := by
  rcases (h.edge_iff n m).mp hedge with ⟨hn, hm⟩ | ⟨hn, hm, _⟩
  · exact ⟨hn, Or.inl hm⟩
  · exact ⟨hn, Or.inr hm⟩

theorem unique (h : IsCondensation g sccs dag) (hn : n ∈ sccs) (hm : m ∈ sccs)
    (hxn : x ∈ n) (hxm : x ∈ m) : n = m := by
  have hsame := (sccOf_eq h.components.disjoint hn hxn).symm.trans
    (sccOf_eq h.components.disjoint hm hxm)
  exact Option.some.inj hsame

theorem reaches_within (h : IsCondensation g sccs dag) (hn : n ∈ sccs)
    (hx : x ∈ n) (hy : y ∈ n) : Reaches g x y :=
  reach_iff.mp ((h.components.mutual_iff n hn x hx y).mp hy).2.1

theorem reaches_of_path (h : IsCondensation g sccs dag)
    (hpath : Relation.ReflTransGen dag.Edge n m) (hm : m ∈ sccs) (hx : x ∈ n)
    (hn : n ∈ sccs) (hy : y ∈ m) : Reaches g x y := by
  induction hpath using Relation.ReflTransGen.head_induction_on
      generalizing x with
  | refl => exact h.reaches_within hm hx hy
  | @head k l hedge hrest ih =>
    rcases (h.edge_iff k l).mp hedge with
      ⟨_, rfl⟩ | ⟨hk, hl, _, c, d, hc, hd, hcd⟩
    · rcases Relation.ReflTransGen.cases_head hrest with rfl | ⟨l', hedge', _⟩
      · exact absurd hm h.nil_notMem
      · exact absurd (h.mem_of_edge hedge').1 h.nil_notMem
    · exact (h.reaches_within hk hx hc).trans
        (Relation.ReflTransGen.head hcd (ih hd hl))

theorem acyclic (h : IsCondensation g sccs dag) (hedge : dag.Edge n m) :
    ¬ Relation.ReflTransGen dag.Edge m n := by
  intro hback
  rcases (h.edge_iff n m).mp hedge with
    ⟨hn, rfl⟩ | ⟨hn, hm, hne, x, y, hx, hy, hxy⟩
  · rcases Relation.ReflTransGen.cases_head hback with rfl | ⟨k, hedge', _⟩
    · exact h.nil_notMem hn
    · exact h.nil_notMem (h.mem_of_edge hedge').1
  · have hyx : Reaches g y x := h.reaches_of_path hback hn hy hm hx
    have hmutual : Mutual g.ns g.successors x y :=
      ⟨reach_iff.mpr (Relation.ReflTransGen.single hxy), reach_iff.mpr hyx⟩
    have hmem := (h.components.mutual_iff n hn x hx y).mpr
      ⟨(g.endpoints _ hxy).2, hmutual⟩
    exact hne (h.unique hn hm hmem hy)

theorem reaches_iff (h : IsCondensation g sccs dag) (hn : n ∈ sccs) :
    (exists x, x ∈ n ∧ Reaches g x y) <->
      y ∈ n ∨ exists m, dag.Edge n m ∧ exists x, x ∈ m ∧ Reaches g x y := by
  constructor
  · rintro ⟨x, hx, hreaches⟩
    induction hreaches using Relation.ReflTransGen.head_induction_on with
    | refl => exact Or.inl hx
    | @head x z hedge hrest ih =>
      by_cases hz : z ∈ n
      · exact ih hz
      · right
        rcases (h.components.cover z).mp (g.endpoints _ hedge).2 with
          ⟨m, hm, hzm⟩
        have hne : n ≠ m := by
          rintro rfl
          exact hz hzm
        exact ⟨m, (h.edge_iff n m).mpr
          (Or.inr ⟨hn, hm, hne, x, z, hx, hzm, hedge⟩), z, hzm, hrest⟩
  · intro hcases
    rcases hcases with hy | ⟨m, hedge, x, hx, hreaches⟩
    · exact ⟨y, hy, Relation.ReflTransGen.refl⟩
    · rcases (h.edge_iff n m).mp hedge with
        ⟨_, rfl⟩ | ⟨_, hm, _, c, d, hc, hd, hcd⟩
      · cases hx
      · exact ⟨c, hc, Relation.ReflTransGen.head hcd
          ((h.reaches_within hm hd hx).trans hreaches)⟩

end IsCondensation

/-!
# What the queries return
-/

section Queries

variable {g : Graph Node} {sccs : List (List Node)} {dag : Graph (List Node)}
  {cache : MayReachCache Node} {scc : List Node} {src dst : Node}

def IsReachable (g : Graph Node) (scc result : List Node) : Prop :=
  forall y, y ∈ result <-> exists x, x ∈ scc ∧ Reaches g x y

def CacheCorrect (g : Graph Node) (cache : MayReachCache Node) : Prop :=
  forall scc result, scc = [] ∨ scc ∈ components g ->
    cache scc = some result -> IsReachable g scc result

theorem CacheCorrect.empty : CacheCorrect g (fun _ => none) := by
  intro scc result _ h
  cases h

theorem CacheCorrect.update (h : CacheCorrect g cache) {result : List Node}
    (hresult : IsReachable g scc result) :
    CacheCorrect g (Function.update cache scc (some result)) := by
  intro scc' result' hmem hlookup
  by_cases heq : scc' = scc
  · rw [heq, Function.update_self] at hlookup
    cases hlookup
    rw [heq]
    exact hresult
  · rw [Function.update_of_ne heq] at hlookup
    exact h scc' result' hmem hlookup

theorem mem_unionWith {result nodes : List Node} {y : Node} :
    y ∈ unionWith result nodes <-> y ∈ result ∨ y ∈ nodes :=
  mem_foldl_hashSetAdd nodes result

def Answers (g : Graph Node) (dag : Graph (List Node)) (depth : Nat)
    (scc : List Node) : Prop :=
  forall cache, CacheCorrect g cache ->
    exists result cache', reachableFrom dag depth cache scc =
        some (result, cache') ∧
      IsReachable g scc result ∧ CacheCorrect g cache'

theorem answers_foldl {depth : Nat} (nexts : List (List Node))
    (hnexts : forall m, m ∈ nexts -> Answers g dag depth m)
    (result : List Node) (hcache : CacheCorrect g cache) :
    exists result' cache', nexts.foldlM (fun st nextSCC =>
          match reachableFrom dag depth st.2 nextSCC with
          | some (nodes, cache) => some (unionWith st.1 nodes, cache)
          | none => none) (result, cache) = some (result', cache') ∧
      CacheCorrect g cache' ∧
      forall y, y ∈ result' <-> y ∈ result ∨
        exists m, m ∈ nexts ∧ exists x, x ∈ m ∧ Reaches g x y := by
  induction nexts generalizing result cache with
  | nil => exact ⟨result, cache, rfl, hcache, by simp⟩
  | cons m nexts ih =>
    rcases hnexts m List.mem_cons_self cache hcache with
      ⟨nodes, cache', hfirst, hnodes, hcache'⟩
    rcases ih (fun k hk => hnexts k (List.mem_cons_of_mem m hk))
      (unionWith result nodes) hcache' with
      ⟨result', cache'', hrest, hcache'', hresult⟩
    refine ⟨result', cache'', ?_, hcache'', ?_⟩
    · rw [List.foldlM_cons]
      simp only [hfirst]
      exact hrest
    · intro y
      rw [hresult, mem_unionWith, hnodes y]
      simp only [List.mem_cons, exists_eq_or_imp, or_assoc]

theorem reachableFrom_answers (h : IsCondensation g (components g) dag)
    (hmem : scc = [] ∨ scc ∈ components g) {depth : Nat}
    (hnexts : forall m, m ∈ dag.successors scc -> Answers g dag depth m) :
    Answers g dag (depth + 1) scc := by
  intro cache hcache
  rw [reachableFrom]
  cases hlookup : cache scc with
  | some result => exact ⟨result, cache, rfl, hcache scc result hmem hlookup, hcache⟩
  | none =>
    rcases hmem with rfl | hscc
    · have hresult : IsReachable g [] [] := by
        intro y
        simp
      exact ⟨[], _, rfl, hresult, hcache.update hresult⟩
    · rw [if_pos (List.length_pos_of_ne_nil (h.components.nonempty scc hscc))]
      rcases answers_foldl (dag.successors scc) hnexts (unionWith [] scc) hcache
        with ⟨result, cache', hfold, hcache', hresult⟩
      have hreach : IsReachable g scc result := by
        intro y
        rw [hresult, mem_unionWith, h.reaches_iff hscc]
        simp only [List.not_mem_nil, false_or, Graph.mem_successors]
      simp only [hfold]
      exact ⟨result, _, rfl, hreach, hcache'.update hreach⟩

theorem answers (h : IsCondensation g (components g) dag)
    (hscc : scc ∈ components g) : Answers g dag (dag.ns.length + 1) scc := by
  have hedges : forall n m, m ∈ dag.successors n -> dag.Edge n m :=
    fun n m hm => Graph.mem_successors.mp hm
  have hpath : forall {n m}, DepthFirst.Reaches dag.successors n m ->
      Relation.ReflTransGen dag.Edge n m :=
    fun hpath => Relation.ReflTransGen.mono (fun n m hm => hedges n m hm) _ _ hpath
  have hclosed : DepthFirst.Closed dag.successors dag.ns :=
    fun n _ m hm => (dag.endpoints _ (hedges n m hm)).2
  rcases List.exists_mem_of_ne_nil scc (h.components.nonempty scc hscc) with
    ⟨x, hx⟩
  have hns : scc ∈ dag.ns := by
    have hedge : dag.Edge scc [] := (h.edge_iff scc []).mpr (Or.inl ⟨hscc, rfl⟩)
    exact (dag.endpoints _ hedge).1
  have hbounded : forall n, n ∈ dag.ns -> dag.ns.length ≤ dag.ns.length + 1 ->
      (n = [] ∨ n ∈ components g) -> Answers g dag (dag.ns.length + 1) n := by
    intro n hn hdepth
    apply DepthFirst.acyclic_bounded hclosed
      (P := fun depth n => (n = [] ∨ n ∈ components g) -> Answers g dag depth n)
      _ _ hn hdepth
    · intro n m hm hback
      exact h.acyclic (hedges n m hm) (hpath hback)
    · intro depth n _ hnexts hmem
      apply reachableFrom_answers h hmem
      intro m hm
      exact hnexts m hm (h.mem_of_edge (hedges n m hm)).2
  exact hbounded scc hns (Nat.le_succ _) (Or.inr hscc)

theorem exists_reachableFrom (hcache : CacheCorrect g cache) (hsrc : src ∈ g.ns) :
    exists dag scc result cache', condensed g = some dag ∧ sccOf (components g) src = some scc ∧
      reachableFrom dag (dag.ns.length + 1) cache scc = some (result, cache') ∧
      CacheCorrect g cache' ∧ forall dst, dst ∈ result <-> Reaches g src dst := by
  rcases condensed_spec g with ⟨dag, hdag, h⟩
  rcases (h.components.cover src).mp hsrc with ⟨scc, hscc, hmem⟩
  rcases answers h hscc cache hcache with
    ⟨result, cache', hresult, hreach, hcache'⟩
  refine ⟨dag, scc, result, cache', hdag,
    sccOf_eq h.components.disjoint hscc hmem, hresult, hcache', ?_⟩
  intro dst
  rw [hreach dst]
  constructor
  · rintro ⟨x, hx, hreaches⟩
    exact (h.reaches_within hscc hmem hx).trans hreaches
  · intro hreaches
    exact ⟨src, hmem, hreaches⟩

theorem sccOf_eq_none (hsrc : src ∉ g.ns) : sccOf (components g) src = none := by
  cases hlookup : sccOf (components g) src with
  | none => rfl
  | some scc =>
    have hscc := sccOf_some hlookup
    exact absurd (((areComponents g).cover src).mpr ⟨scc, hscc⟩) hsrc

end Queries

end Condensation

end Boogie
