import Boogie.Core.Program

/-!
# The call graph after inlining

Once the bodies of callees up to a depth are inlined, an implementation is left with
the calls of the inlined bodies, so every round of the loop adds the callees that are
one call further away.
-/

namespace Boogie

variable {Node : Type} [DecidableEq Node]

namespace Graph

def copyNodesAndEdges (g : Graph Node) : Graph Node :=
  g.es.foldl (fun copy edge => copy.addEdge edge.1 edge.2)
    (g.ns.foldl addSource empty)

inductive PathOf (g : Graph Node) : Nat -> Node -> Node -> Prop where
  | refl (x : Node) : PathOf g 0 x x
  | tail {n : Nat} {x y z : Node} :
      PathOf g n x y -> g.Edge y z -> PathOf g (n + 1) x z

omit [DecidableEq Node] in
theorem pathOf_succ {g : Graph Node} {n : Nat} {x z : Node} :
    g.PathOf (n + 1) x z <-> exists y, g.PathOf n x y ∧ g.Edge y z := by
  constructor
  · intro h
    cases h with
    | tail hpath hedge => exact ⟨_, hpath, hedge⟩
  · rintro ⟨y, hpath, hedge⟩
    exact PathOf.tail hpath hedge

omit [DecidableEq Node] in
theorem pathOf_one {g : Graph Node} {x z : Node} :
    g.PathOf 1 x z <-> g.Edge x z := by
  rw [pathOf_succ]
  constructor
  · rintro ⟨y, hpath, hedge⟩
    cases hpath
    exact hedge
  · intro hedge
    exact ⟨x, PathOf.refl x, hedge⟩

omit [DecidableEq Node] in
theorem PathOf.first_mem {g : Graph Node} {n : Nat} {x z : Node}
    (h : g.PathOf (n + 1) x z) : x ∈ g.ns := by
  induction n generalizing z with
  | zero => exact (g.endpoints _ (pathOf_one.mp h)).1
  | succ n ih =>
    rcases pathOf_succ.mp h with ⟨y, hpath, _⟩
    exact ih hpath

section Copy

variable {g : Graph Node} {x y : Node}

theorem edge_foldl_addEdge (edges : List (Node × Node)) :
    (edges.foldl (fun copy edge => copy.addEdge edge.1 edge.2) g).Edge x y <->
      g.Edge x y ∨ (x, y) ∈ edges := by
  induction edges generalizing g with
  | nil => simp
  | cons edge edges ih =>
    rw [List.foldl_cons, ih, edge_addEdge, List.mem_cons, Prod.ext_iff, or_assoc]

theorem edge_foldl_addSource (nodes : List Node) :
    (nodes.foldl addSource g).Edge x y <-> g.Edge x y := by
  induction nodes generalizing g with
  | nil => rfl
  | cons node nodes ih => rw [List.foldl_cons, ih, edge_addSource]

theorem edge_copyNodesAndEdges : g.copyNodesAndEdges.Edge x y <-> g.Edge x y := by
  unfold copyNodesAndEdges
  rw [edge_foldl_addEdge, edge_foldl_addSource]
  exact or_iff_right not_edge_empty

end Copy

end Graph

namespace Houdini

/-!
# The deepening loop
-/

def newNodes (oldCallGraph callGraph : Graph Node) (impl : Node) : List Node :=
  (callGraph.successors impl).flatMap oldCallGraph.successors

def addNewNodes (oldCallGraph callGraph : Graph Node) (impl : Node) : Graph Node :=
  (newNodes oldCallGraph callGraph impl).foldl
    (fun callGraph newNode => callGraph.addEdge impl newNode) callGraph

def deepen (oldCallGraph callGraph : Graph Node) : Graph Node :=
  oldCallGraph.ns.foldl (addNewNodes oldCallGraph) callGraph

/-- The loop, as often as `count` says. -/
def deepenLoop (oldCallGraph : Graph Node) : Nat -> Graph Node -> Graph Node
  | 0, callGraph => callGraph
  | count + 1, callGraph =>
    deepenLoop oldCallGraph count (deepen oldCallGraph callGraph)

/-- What `Inline` makes of the call graph; without inlining it stays as it is. -/
def inlineCallGraph (inlineDepth : Int) (callGraph : Graph Node) : Graph Node :=
  if inlineDepth < 0 then callGraph
  else deepenLoop callGraph inlineDepth.toNat callGraph.copyNodesAndEdges

section Deepen

variable {oldCallGraph callGraph : Graph Node} {impl a b : Node}

theorem mem_newNodes :
    b ∈ newNodes oldCallGraph callGraph impl <->
      exists c, callGraph.Edge impl c ∧ oldCallGraph.Edge c b := by
  simp [newNodes]

theorem edge_foldl_addEdge_from (nodes : List Node) :
    (nodes.foldl (fun g node => g.addEdge impl node) callGraph).Edge a b <->
      callGraph.Edge a b ∨ (a = impl ∧ b ∈ nodes) := by
  induction nodes generalizing callGraph with
  | nil => simp
  | cons node nodes ih =>
    rw [List.foldl_cons, ih, Graph.edge_addEdge, List.mem_cons]
    tauto

theorem edge_addNewNodes :
    (addNewNodes oldCallGraph callGraph impl).Edge a b <-> callGraph.Edge a b ∨
        (a = impl ∧ exists c, callGraph.Edge a c ∧ oldCallGraph.Edge c b) := by
  unfold addNewNodes
  rw [edge_foldl_addEdge_from, mem_newNodes]
  constructor
  · rintro (hedge | ⟨rfl, hnew⟩)
    · exact Or.inl hedge
    · exact Or.inr ⟨rfl, hnew⟩
  · rintro (hedge | ⟨rfl, hnew⟩)
    · exact Or.inl hedge
    · exact Or.inr ⟨rfl, hnew⟩

/-- The nodes of a round do not see the edges that are added for each other, since
an edge that is added leaves the node it is added for. -/
theorem edge_foldl_addNewNodes (impls : List Node) (hnodup : impls.Nodup) :
    (impls.foldl (addNewNodes oldCallGraph) callGraph).Edge a b <-> callGraph.Edge a b ∨
        (a ∈ impls ∧ exists c, callGraph.Edge a c ∧ oldCallGraph.Edge c b) := by
  induction impls generalizing callGraph with
  | nil => simp
  | cons impl impls ih =>
    rcases List.nodup_cons.mp hnodup with ⟨hnot, hrest⟩
    rw [List.foldl_cons, ih hrest, List.mem_cons]
    constructor
    · rintro (hedge | ⟨hmem, c, hac, hcb⟩)
      · rcases edge_addNewNodes.mp hedge with hold | ⟨ha, hnew⟩
        · exact Or.inl hold
        · exact Or.inr ⟨Or.inl ha, hnew⟩
      · rcases edge_addNewNodes.mp hac with hold | ⟨ha, _⟩
        · exact Or.inr ⟨Or.inr hmem, c, hold, hcb⟩
        · exact absurd (ha ▸ hmem) hnot
    · rintro (hold | ⟨ha | hmem, c, hac, hcb⟩)
      · exact Or.inl (edge_addNewNodes.mpr (Or.inl hold))
      · exact Or.inl (edge_addNewNodes.mpr (Or.inr ⟨ha, c, hac, hcb⟩))
      · exact Or.inr ⟨hmem, c, edge_addNewNodes.mpr (Or.inl hac), hcb⟩

/-- The edges of the graph are the call paths of at most `depth` calls. -/
def Deepened (oldCallGraph callGraph : Graph Node) (depth : Nat) : Prop :=
  forall a b, callGraph.Edge a b <->
    exists n, 1 ≤ n ∧ n ≤ depth ∧ oldCallGraph.PathOf n a b

omit [DecidableEq Node] in
theorem Deepened.mem_ns {depth : Nat} (h : Deepened oldCallGraph callGraph depth)
    (hedge : callGraph.Edge a b) : a ∈ oldCallGraph.ns := by
  rcases (h a b).mp hedge with ⟨n, hpos, _, hpath⟩
  rcases Nat.exists_eq_add_of_le' hpos with ⟨m, rfl⟩
  exact hpath.first_mem

theorem Deepened.deepen {depth : Nat} (h : Deepened oldCallGraph callGraph depth)
    (hpos : 1 ≤ depth) :
    Deepened oldCallGraph (deepen oldCallGraph callGraph) (depth + 1) := by
  intro a b
  unfold Houdini.deepen
  rw [edge_foldl_addNewNodes _ oldCallGraph.nodup]
  constructor
  · rintro (hold | ⟨_, c, hac, hcb⟩)
    · rcases (h a b).mp hold with ⟨n, hn, hle, hpath⟩
      exact ⟨n, hn, Nat.le_succ_of_le hle, hpath⟩
    · rcases (h a c).mp hac with ⟨n, hn, hle, hpath⟩
      exact ⟨n + 1, Nat.le_add_left 1 n, Nat.succ_le_succ hle, hpath.tail hcb⟩
  · rintro ⟨n, hn, hle, hpath⟩
    rcases Nat.lt_or_eq_of_le hle with hlt | rfl
    · exact Or.inl ((h a b).mpr ⟨n, hn, Nat.le_of_lt_succ hlt, hpath⟩)
    · rcases Graph.pathOf_succ.mp hpath with ⟨c, hac, hcb⟩
      have hedge : callGraph.Edge a c := (h a c).mpr ⟨depth, hpos, Nat.le_refl _, hac⟩
      exact Or.inr ⟨h.mem_ns hedge, c, hedge, hcb⟩

theorem Deepened.deepenLoop {depth : Nat} (h : Deepened oldCallGraph callGraph depth)
    (hpos : 1 ≤ depth) (count : Nat) :
    Deepened oldCallGraph (deepenLoop oldCallGraph count callGraph) (depth + count) := by
  induction count generalizing callGraph depth with
  | zero => exact h
  | succ count ih =>
    rw [Houdini.deepenLoop, Nat.add_comm count 1, ← Nat.add_assoc]
    exact ih (h.deepen hpos) (Nat.le_add_left 1 depth)

theorem deepened_copyNodesAndEdges :
    Deepened oldCallGraph oldCallGraph.copyNodesAndEdges 1 := by
  intro a b
  rw [Graph.edge_copyNodesAndEdges, ← Graph.pathOf_one]
  constructor
  · intro hpath
    exact ⟨1, Nat.le_refl 1, Nat.le_refl 1, hpath⟩
  · rintro ⟨n, hn, hle, hpath⟩
    rwa [Nat.le_antisymm hle hn] at hpath

/-- The edges after inlining are the call paths of at most `inlineDepth + 1` calls. -/
theorem edge_inlineCallGraph {inlineDepth : Int} (hdepth : 0 ≤ inlineDepth)
    (callGraph : Graph Node) (a b : Node) :
    (inlineCallGraph inlineDepth callGraph).Edge a b <->
      exists n : Nat, 1 ≤ n ∧ (n : Int) ≤ inlineDepth + 1 ∧ callGraph.PathOf n a b := by
  have hcopy : Deepened callGraph callGraph.copyNodesAndEdges 1 :=
    deepened_copyNodesAndEdges
  have h := hcopy.deepenLoop (Nat.le_refl 1) inlineDepth.toNat
  unfold inlineCallGraph
  rw [if_neg (by omega), h a b]
  constructor
  · rintro ⟨n, hn, hle, hpath⟩
    exact ⟨n, hn, by omega, hpath⟩
  · rintro ⟨n, hn, hle, hpath⟩
    exact ⟨n, hn, by omega, hpath⟩

/-- Two implementations that call each other. -/
theorem edge_inlineCallGraph_mutual :
    (inlineCallGraph 1 (Graph.ofEdges [("even", "odd"), ("odd", "even")])).Edge "even" "even" <->
      exists n : Nat, 1 ≤ n ∧ (n : Int) ≤ 1 + 1 ∧
        (Graph.ofEdges [("even", "odd"), ("odd", "even")]).PathOf n "even" "even" :=
  edge_inlineCallGraph (by decide) _ "even" "even"

end Deepen

end Houdini
end Boogie
