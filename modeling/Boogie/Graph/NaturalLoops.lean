import Mathlib.Algebra.GroupWithZero.Nat
import Boogie.Foundation.DepthFirst
import Boogie.Foundation.Traversal
import Boogie.Graph.Dominance

/-!
# Natural loops

An edge whose target dominates its source is a back edge.  A graph is reducible
if it has no cycles without its back edges, and then each back edge has a
natural loop.  The loops over a stack are bounded by `fuel`.
-/

namespace Boogie

namespace Graph

variable {Node : Type} [DecidableEq Node]

/-!
# The computation
-/

/-- The test `Acyclic` of the source. -/
def acyclic (g : Graph Node) : Bool :=
  (g.tarjanTopSort false).1

def visitPredecessor (st : List Node × List Node) (p : Node) :
    List Node × List Node :=
  if p ∈ st.1 then st else (hashSetAdd st.1 p, p :: st.2)

def naturalLoopFrom (g : Graph Node) :
    Nat -> List Node × List Node -> Option (List Node)
  | 0, _ => none
  | _ + 1, (loop, []) => some loop
  | fuel + 1, (loop, m :: stack) =>
    naturalLoopFrom g fuel
      ((g.predecessors m).foldl visitPredecessor (loop, stack))

def naturalLoop (fuel : Nat) (g : Graph Node) (backEdge : Node × Node) :
    Option (List Node) :=
  let n := backEdge.1
  let d := backEdge.2
  if n ≠ d then naturalLoopFrom g fuel (hashSetAdd [d] n, [n])
  else naturalLoopFrom g fuel ([d], [])

/-- A lookup in the cache of the successors fails outside the graph. -/
def successorsAsList (g : Graph Node) (n : Node) : Option (List Node) :=
  if n ∈ g.ns then some (g.successors n) else none

/-- The stack holds nodes with the successors not tried yet; its nodes are what
the source keeps in `stackAsSet`. -/
def findCycleFrom (g : Graph Node) :
    Nat -> List (Node × List Node) -> List Node -> Option (List Node)
  | 0, _, _ => none
  | _ + 1, [], _ => some []
  | fuel + 1, (_, []) :: stack, visited => findCycleFrom g fuel stack visited
  | fuel + 1, (x, n :: children) :: stack, visited =>
    if n ∈ x :: stack.map Prod.fst then some [n]
    else if n ∈ visited then
      findCycleFrom g fuel ((x, children) :: stack) visited
    else
      match g.successorsAsList n with
      | none => none
      | some next =>
        findCycleFrom g fuel ((n, next) :: (x, children) :: stack)
          (hashSetAdd visited n)

def findCycle (fuel : Nat) (g : Graph Node) (source : Node) :
    Option (List Node) :=
  match g.successorsAsList source with
  | none => none
  | some next => findCycleFrom g fuel [(source, next)] []

structure ReducibleResult (Node : Type) where
  reducible : Bool
  headers : List Node
  backEdgeNodes : List (Node × List Node)
  naturalLoops : List ((Node × Node) × List Node)
  splitCandidates : List Node

def splitEdge (fuel : Nat) (D : DomRelation Node)
    (st : List (Node × Node) × List (Node × Node)) (e : Node × Node) :
    Option (List (Node × Node) × List (Node × Node)) :=
  match D.dominatedBy fuel e.1 e.2 with
  | none => none
  | some (true, _) => some (hashSetAdd st.1 e, st.2)
  | some (false, _) => some (st.1, hashSetAdd st.2 e)

def headersOf (backEdges : List (Node × Node)) : List Node :=
  backEdges.foldl (fun headers e => hashSetAdd headers e.2) []

def backEdgeNodesOf (backEdges : List (Node × Node)) (h : Node) : List Node :=
  backEdges.foldl (fun bs e => if e.2 = h then hashSetAdd bs e.1 else bs) []

def computeReducible (fuel : Nat) (g : Graph Node) (source : Node) :
    Option (ReducibleResult Node) :=
  match DomRelation.newComputeDominators fuel g source with
  | none => none
  | some D =>
    match g.es.foldlM (splitEdge fuel D) ([], []) with
    | none => none
    | some (backEdges, nonBackEdges) =>
      let withoutBackEdges := ofEdges nonBackEdges
      if withoutBackEdges.acyclic = false then
        match findCycle fuel withoutBackEdges source with
        | none => none
        | some splitCandidates => some ⟨false, [], [], [], splitCandidates⟩
      else
        match backEdges.mapM
            (fun e => (naturalLoop fuel g e).map (fun loop => (e, loop))) with
        | none => none
        | some naturalLoops =>
          let headers := headersOf backEdges
          some ⟨true, headers,
            headers.map (fun h => (h, backEdgeNodesOf backEdges h)),
            naturalLoops, []⟩

namespace ReducibleResult

/-- `BackEdgeNodes`, which answers for every node. -/
def backEdgeNodesAt (r : ReducibleResult Node) (h : Node) : List Node :=
  (r.backEdgeNodes.lookup h).getD []

/-- `NaturalLoops`, which answers for every pair of nodes. -/
def naturalLoopsAt (r : ReducibleResult Node) (header backEdgeNode : Node) :
    List Node :=
  (r.naturalLoops.lookup (backEdgeNode, header)).getD []

end ReducibleResult

/-!
# The search for a natural loop
-/

section NaturalLoop

variable {g : Graph Node} {d n m : Node} {loop stack : List Node}

theorem mem_foldl_visitPredecessor {x : Node} (ps loop stack : List Node) :
    (x ∈ (ps.foldl visitPredecessor (loop, stack)).1 <-> x ∈ loop ∨ x ∈ ps) ∧
      (x ∈ (ps.foldl visitPredecessor (loop, stack)).2 <-> x ∈ stack ∨ (x ∈ ps ∧ x ∉ loop)) := by
  induction ps generalizing loop stack with
  | nil => simp
  | cons p ps ih =>
    rw [List.foldl_cons]
    by_cases hp : p ∈ loop
    · rw [visitPredecessor, if_pos hp]
      rw [(ih loop stack).1, (ih loop stack).2, List.mem_cons]
      constructor
      · constructor
        · intro hx
          rcases hx with hx | hx
          · exact Or.inl hx
          · exact Or.inr (Or.inr hx)
        · intro hx
          rcases hx with hx | heq | hx
          · exact Or.inl hx
          · exact Or.inl (heq ▸ hp)
          · exact Or.inr hx
      · constructor
        · intro hx
          rcases hx with hx | ⟨hx, hnot⟩
          · exact Or.inl hx
          · exact Or.inr ⟨Or.inr hx, hnot⟩
        · intro hx
          rcases hx with hx | ⟨heq | hx, hnot⟩
          · exact Or.inl hx
          · exact absurd (heq ▸ hp) hnot
          · exact Or.inr ⟨hx, hnot⟩
    · rw [visitPredecessor, if_neg hp]
      rw [(ih _ _).1, (ih _ _).2, mem_hashSetAdd, List.mem_cons, List.mem_cons,
        or_assoc]
      constructor
      · rfl
      · constructor
        · intro hx
          rcases hx with (heq | hx) | ⟨hx, hnot⟩
          · exact Or.inr ⟨Or.inl heq, heq ▸ hp⟩
          · exact Or.inl hx
          · exact Or.inr ⟨Or.inr hx, fun hmem => hnot (Or.inl hmem)⟩
        · intro hx
          rcases hx with hx | ⟨heq | hx, hnot⟩
          · exact Or.inl (Or.inr hx)
          · exact Or.inl (Or.inl heq)
          · by_cases heq : x = p
            · exact Or.inl (Or.inl heq)
            · apply Or.inr
              constructor
              · exact hx
              · intro hmem
                rcases hmem with hmem | hmem
                · exact hnot hmem
                · exact heq hmem

theorem foldl_visitPredecessor_le (ps loop stack : List Node) (hps : forall p, p ∈ ps -> p ∈ g.ns) :
    (ps.foldl visitPredecessor (loop, stack)).2.length +
        DepthFirst.unvisited g.ns (ps.foldl visitPredecessor (loop, stack)).1 ≤
      stack.length + DepthFirst.unvisited g.ns loop := by
  induction ps generalizing loop stack with
  | nil => exact Nat.le_refl _
  | cons p ps ih =>
    have hrest := fun q hq => hps q (List.mem_cons_of_mem p hq)
    rw [List.foldl_cons]
    by_cases hp : p ∈ loop
    · rw [visitPredecessor, if_pos hp]
      exact ih loop stack hrest
    · rw [visitPredecessor, if_neg hp, hashSetAdd, if_neg hp]
      have hless := DepthFirst.unvisited_lt (hps p List.mem_cons_self) hp
      apply Nat.le_trans (ih _ _ hrest)
      rw [List.length_cons, Nat.succ_add_eq_add_succ]
      exact Nat.add_le_add_left hless _

/-- The loop holds what reaches the back edge around its header, and is closed
under the predecessors of all nodes that are no longer on the stack. -/
structure Searching (g : Graph Node) (n d : Node) (loop stack : List Node) :
    Prop where
  header : d ∈ loop
  start : n ∈ loop
  sound : forall m, m ∈ loop -> m = d ∨ g.ReachesAvoiding d m n
  found : forall m, m ∈ stack -> m ∈ loop ∧ m ≠ d
  closed : forall m, m ∈ loop -> m ≠ d -> m ∉ stack ->
    forall p, g.Edge p m -> p ∈ loop

theorem Searching.initial (hne : n ≠ d) :
    Searching g n d (hashSetAdd [d] n) [n] where
  header := by simp
  start := by simp
  sound := by
    intro m hm
    rcases mem_hashSetAdd.mp hm with hm | heq
    · exact Or.inl (List.mem_singleton.mp hm)
    · rw [heq]
      exact Or.inr ⟨hne, Relation.ReflTransGen.refl⟩
  found := by
    intro m hm
    rw [List.mem_singleton.mp hm]
    exact ⟨by simp, hne⟩
  closed := by
    intro m hm hmd hnot
    rcases mem_hashSetAdd.mp hm with hm | heq
    · exact absurd (List.mem_singleton.mp hm) hmd
    · exact absurd (List.mem_singleton.mpr heq) hnot

omit [DecidableEq Node] in
theorem Searching.itself : Searching g d d [d] [] where
  header := by simp
  start := by simp
  sound := by
    intro m hm
    exact Or.inl (List.mem_singleton.mp hm)
  found := by
    intro m hm
    cases hm
  closed := by
    intro m hm hmd _
    exact absurd (List.mem_singleton.mp hm) hmd

theorem Searching.step (h : Searching g n d loop (m :: stack)) :
    Searching g n d ((g.predecessors m).foldl visitPredecessor (loop, stack)).1
      ((g.predecessors m).foldl visitPredecessor (loop, stack)).2 := by
  have hm := h.found m List.mem_cons_self
  have hloop := fun x =>
    (mem_foldl_visitPredecessor (x := x) (g.predecessors m) loop stack).1
  have hstack := fun x =>
    (mem_foldl_visitPredecessor (x := x) (g.predecessors m) loop stack).2
  have hreach : g.ReachesAvoiding d m n := by
    rcases h.sound m hm.1 with heq | hreach
    · exact absurd heq hm.2
    · exact hreach
  constructor
  · exact (hloop d).mpr (Or.inl h.header)
  · exact (hloop n).mpr (Or.inl h.start)
  · intro p hp
    rcases (hloop p).mp hp with hold | hpred
    · exact h.sound p hold
    · by_cases heq : p = d
      · exact Or.inl heq
      · exact Or.inr (hreach.head (mem_predecessors.mp hpred) heq)
  · intro p hp
    rcases (hstack p).mp hp with hold | ⟨hpred, hnot⟩
    · have hfound := h.found p (List.mem_cons_of_mem m hold)
      exact ⟨(hloop p).mpr (Or.inl hfound.1), hfound.2⟩
    · constructor
      · exact (hloop p).mpr (Or.inr hpred)
      · intro heq
        exact hnot (heq ▸ h.header)
  · intro x hx hxd hnot p hp
    apply (hloop p).mpr
    by_cases hxm : x = m
    · subst hxm
      exact Or.inr (mem_predecessors.mpr hp)
    · have hold : x ∈ loop := by
        by_contra hnew
        have hpred := ((hloop x).mp hx).resolve_left hnew
        exact hnot ((hstack x).mpr (Or.inr ⟨hpred, hnew⟩))
      apply Or.inl
      apply h.closed x hold hxd _ p hp
      intro hmem
      rcases List.mem_cons.mp hmem with heq | hmem
      · exact hxm heq
      · exact hnot ((hstack x).mpr (Or.inl hmem))

omit [DecidableEq Node] in
theorem Searching.mem_iff (h : Searching g n d loop []) (x : Node) :
    x ∈ loop <-> x = d ∨ g.ReachesAvoiding d x n := by
  constructor
  · exact h.sound x
  · intro hx
    rcases hx with heq | ⟨hne, hreach⟩
    · exact heq ▸ h.header
    · induction hreach using Relation.ReflTransGen.head_induction_on with
      | refl => exact h.start
      | head hstep hafter ih =>
        rename_i x c
        exact h.closed c (ih hstep.2) hstep.2 List.not_mem_nil x hstep.1

theorem naturalLoopFrom_spec {fuel : Nat} (h : Searching g n d loop stack)
    (hfuel : stack.length + DepthFirst.unvisited g.ns loop < fuel) :
    exists found, naturalLoopFrom g fuel (loop, stack) = some found ∧
      forall x, x ∈ found <-> x = d ∨ g.ReachesAvoiding d x n := by
  induction fuel generalizing loop stack with
  | zero => exact absurd hfuel (Nat.not_lt_zero _)
  | succ fuel ih =>
    cases stack with
    | nil => exact ⟨loop, rfl, h.mem_iff⟩
    | cons m stack =>
      rw [naturalLoopFrom]
      apply ih h.step
      have hle := foldl_visitPredecessor_le (g := g) (g.predecessors m) loop
        stack (fun p hp => (g.endpoints _ (mem_predecessors.mp hp)).1)
      apply Nat.lt_of_le_of_lt hle
      rw [List.length_cons, Nat.succ_add] at hfuel
      exact Nat.lt_of_succ_lt_succ hfuel

theorem naturalLoop_spec {fuel : Nat} (hfuel : g.ns.length + 1 < fuel) (n d : Node) :
    exists loop, naturalLoop fuel g (n, d) = some loop ∧
      forall x, x ∈ loop <-> x = d ∨ g.ReachesAvoiding d x n := by
  have hle : forall loop, DepthFirst.unvisited g.ns loop ≤ g.ns.length := by
    intro loop
    apply Nat.le_trans (Finset.card_le_card Finset.sdiff_subset)
    exact List.toFinset_card_le g.ns
  unfold naturalLoop
  dsimp only
  by_cases hne : n = d
  · rw [if_neg (not_not.mpr hne)]
    subst hne
    apply naturalLoopFrom_spec Searching.itself
    rw [List.length_nil, Nat.zero_add]
    exact Nat.lt_of_le_of_lt (hle _) (Nat.lt_of_succ_lt hfuel)
  · rw [if_pos hne]
    apply naturalLoopFrom_spec (Searching.initial hne)
    rw [List.length_singleton, Nat.add_comm]
    exact Nat.lt_of_le_of_lt (Nat.succ_le_succ (hle _)) hfuel

end NaturalLoop

/-!
# The search for a cycle
-/

section FindCycle

variable {g : Graph Node} {stack : List (Node × List Node)}

def untried (g : Graph Node) (stack : List (Node × List Node))
    (visited : List Node) : Nat :=
  (stack.map (fun e => e.2.length + 1)).sum +
    ((g.ns.filter (fun n => n ∉ visited)).map
      (fun n => (g.successors n).length + 1)).sum

theorem sum_filter_visit {f : Node -> Nat} {ns visited : List Node} {n : Node}
    (hns : ns.Nodup) (hn : n ∈ ns) (hnew : n ∉ visited) :
    ((ns.filter (fun x => x ∉ visited)).map f).sum =
      f n + ((ns.filter (fun x => x ∉ hashSetAdd visited n)).map f).sum := by
  have hmem : n ∈ ns.filter (fun x => x ∉ visited) := by
    simp [hn, hnew]
  have hfilter : ns.filter (fun x => x ∉ hashSetAdd visited n) =
      (ns.filter (fun x => x ∉ visited)).erase n := by
    rw [(hns.filter _).erase_eq_filter, List.filter_filter]
    apply List.filter_congr
    intro x _
    rw [Bool.eq_iff_iff]
    simp [not_or, and_comm]
  rw [hfilter, ← List.sum_map_erase f hmem]

theorem findCycleFrom_isSome {fuel : Nat} {visited : List Node}
    (hstack : forall e, e ∈ stack -> forall n, n ∈ e.2 -> n ∈ g.ns)
    (hfuel : untried g stack visited < fuel) :
    exists r, findCycleFrom g fuel stack visited = some r := by
  induction fuel generalizing stack visited with
  | zero => exact absurd hfuel (Nat.not_lt_zero _)
  | succ fuel ih =>
    rcases stack with _ | ⟨⟨x, children⟩, stack⟩
    · exact ⟨[], rfl⟩
    · have hbelow := fun e he => hstack e (List.mem_cons_of_mem _ he)
      rcases children with _ | ⟨n, children⟩
      · rw [findCycleFrom]
        apply ih hbelow
        unfold untried at hfuel ⊢
        simp only [List.map_cons, List.sum_cons, List.length_nil] at hfuel
        omega
      · have hn := hstack _ List.mem_cons_self n List.mem_cons_self
        have hrest : forall e, e ∈ (x, children) :: stack ->
            forall n, n ∈ e.2 -> n ∈ g.ns := by
          intro e he n hn
          rcases List.mem_cons.mp he with heq | he
          · subst heq
            exact hstack _ List.mem_cons_self n (List.mem_cons_of_mem _ hn)
          · exact hbelow e he n hn
        rw [findCycleFrom]
        by_cases hcycle : n ∈ x :: stack.map Prod.fst
        · rw [if_pos hcycle]
          exact ⟨[n], rfl⟩
        · rw [if_neg hcycle]
          by_cases hvisited : n ∈ visited
          · rw [if_pos hvisited]
            apply ih hrest
            unfold untried at hfuel ⊢
            simp only [List.map_cons, List.sum_cons, List.length_cons] at hfuel ⊢
            omega
          · rw [if_neg hvisited, successorsAsList, if_pos hn]
            apply ih
            · intro e he
              rcases List.mem_cons.mp he with heq | he
              · subst heq
                intro m hm
                exact (g.endpoints _ (mem_successors.mp hm)).2
              · exact hrest e he
            · unfold untried at hfuel ⊢
              rw [sum_filter_visit g.nodup hn hvisited] at hfuel
              simp only [List.map_cons, List.sum_cons, List.length_cons] at hfuel ⊢
              omega

theorem exists_findCycle {source : Node} (hsource : source ∈ g.ns) :
    exists bound, forall fuel, bound ≤ fuel -> exists r, findCycle fuel g source = some r := by
  exists untried g [(source, g.successors source)] [] + 1
  intro fuel hfuel
  rw [findCycle, successorsAsList, if_pos hsource]
  apply findCycleFrom_isSome _ hfuel
  intro e he n hn
  rw [List.mem_singleton.mp he] at hn
  exact (g.endpoints _ (mem_successors.mp hn)).2

end FindCycle

/-!
# Reducible graphs
-/

section Reducible

variable {g : Graph Node} {source h b m x y : Node} {D : DomRelation Node}
  {fuel : Nat}

def BackEdge (g : Graph Node) (source x y : Node) : Prop :=
  g.Edge x y ∧ g.Dominates source y x

def ForwardEdge (g : Graph Node) (source x y : Node) : Prop :=
  g.Edge x y ∧ ¬ g.Dominates source y x

def Reducible (g : Graph Node) (source : Node) : Prop :=
  forall x, ¬ Relation.TransGen (g.ForwardEdge source) x x

/-- What a result says of the back edges and the cycles of a reducible graph. -/
structure HasNaturalLoops (g : Graph Node) (source : Node)
    (r : ReducibleResult Node) : Prop where
  headers : forall h, h ∈ r.headers <-> exists b, g.BackEdge source b h
  backEdgeNodes : forall h b,
    b ∈ r.backEdgeNodesAt h <-> g.BackEdge source b h
  naturalLoops : forall h b, b ∈ r.backEdgeNodesAt h -> forall m,
    m ∈ r.naturalLoopsAt h b <-> m = h ∨ g.ReachesAvoiding h m b
  dominated : forall h b m, b ∈ r.backEdgeNodesAt h ->
    m ∈ r.naturalLoopsAt h b -> g.Dominates source h m
  cycles : forall x path, g.IsPath x x path -> 2 ≤ path.length ->
    exists h, h ∈ r.headers ∧ forall m, m ∈ path ->
      exists b, b ∈ r.backEdgeNodesAt h ∧ m ∈ r.naturalLoopsAt h b

theorem foldlM_splitEdge {dominates : Node × Node -> Bool} (edges back others : List (Node × Node))
    (hquery : forall e, e ∈ edges -> exists between,
      D.dominatedBy fuel e.1 e.2 = some (dominates e, between)) :
    edges.foldlM (splitEdge fuel D) (back, others) =
      some ((edges.filter dominates).foldl hashSetAdd back,
        (edges.filter (fun e => !dominates e)).foldl hashSetAdd others) := by
  induction edges generalizing back others with
  | nil => rfl
  | cons e edges ih =>
    have hrest := fun e' he' => hquery e' (List.mem_cons_of_mem e he')
    rcases hquery e List.mem_cons_self with ⟨between, he⟩
    rw [List.foldlM_cons, splitEdge, he]
    cases hdom : dominates e with
    | true =>
      rw [List.filter_cons_of_pos hdom, List.filter_cons_of_neg (by simp [hdom])]
      exact ih _ _ hrest
    | false =>
      rw [List.filter_cons_of_neg (by simp [hdom]),
        List.filter_cons_of_pos (by simp [hdom])]
      exact ih _ _ hrest

theorem mem_headersOf (edges : List (Node × Node)) :
    h ∈ headersOf edges <-> exists b, (b, h) ∈ edges := by
  have hfold : forall headers, h ∈ edges.foldl
      (fun headers e => hashSetAdd headers e.2) headers <->
        h ∈ headers ∨ exists b, (b, h) ∈ edges := by
    induction edges with
    | nil => simp
    | cons e edges ih =>
      intro headers
      rw [List.foldl_cons, ih, mem_hashSetAdd, or_assoc]
      simp [Prod.ext_iff, exists_or]
  simp [headersOf, hfold]

theorem mem_backEdgeNodesOf (edges : List (Node × Node)) :
    b ∈ backEdgeNodesOf edges h <-> (b, h) ∈ edges := by
  have hfold : forall bs, b ∈ edges.foldl
      (fun bs e => if e.2 = h then hashSetAdd bs e.1 else bs) bs <->
        b ∈ bs ∨ (b, h) ∈ edges := by
    induction edges with
    | nil => simp
    | cons e edges ih =>
      intro bs
      rw [List.foldl_cons, ih, List.mem_cons, Prod.ext_iff]
      by_cases he : e.2 = h
      · rw [if_pos he, mem_hashSetAdd, or_assoc]
        simp [he]
      · rw [if_neg he]
        simp [Ne.symm he]
  simp [backEdgeNodesOf, hfold]

omit [DecidableEq Node] in
theorem BackEdge.dominates (hback : g.BackEdge source b h)
    (hm : m = h ∨ g.ReachesAvoiding h m b) : g.Dominates source h m := by
  rcases hm with heq | hreach
  · rw [heq]
    exact Dominates.refl h
  · rw [dominates_iff]
    intro haround
    exact dominates_iff.mp hback.2 (haround.trans hreach)

/-!
# Cycles
-/

omit [DecidableEq Node] in
theorem IsPath.within {path : List Node} {P : Node -> Prop}
    (hpath : g.IsPath x y path) (hP : forall z, z ∈ path -> P z) (hm : m ∈ path) :
    Relation.ReflTransGen (fun u v => g.Edge u v ∧ P u) x m ∧
      Relation.ReflTransGen (fun u v => g.Edge u v ∧ P u) m y := by
  induction path generalizing x m with
  | nil => cases hm
  | cons a path ih =>
    have ha : a = x := by
      have hhead := hpath.head
      cases hhead
      rfl
    subst ha
    cases path with
    | nil =>
      have hlast := hpath.last
      cases hlast
      rw [List.mem_singleton.mp hm]
      exact ⟨Relation.ReflTransGen.refl, Relation.ReflTransGen.refl⟩
    | cons c path =>
      have hchain := List.isChain_cons.mp hpath.chain
      have hrest : g.IsPath c y (c :: path) := by
        constructor
        · exact hchain.2
        · rfl
        · have hlast := hpath.last
          rwa [List.getLast?_cons_cons] at hlast
      have hstep : g.Edge a c ∧ P a :=
        ⟨hchain.1 c rfl, hP a List.mem_cons_self⟩
      have hrestP := fun z hz => hP z (List.mem_cons_of_mem a hz)
      rcases List.mem_cons.mp hm with heq | hm
      · subst heq
        constructor
        · exact Relation.ReflTransGen.refl
        · exact (ih hrest hrestP List.mem_cons_self).2.head hstep
      · have hways := ih hrest hrestP hm
        exact ⟨hways.1.head hstep, hways.2⟩

omit [DecidableEq Node] in
theorem exists_arrival {P : Node -> Prop} (hne : m ≠ h)
    (hreach : Relation.ReflTransGen (fun u v => g.Edge u v ∧ P u) m h) :
    exists b, g.ReachesAvoiding h m b ∧ g.Edge b h ∧ P b := by
  induction hreach using Relation.ReflTransGen.head_induction_on with
  | refl => exact absurd rfl hne
  | head hstep hafter ih =>
    rename_i m c
    by_cases hc : c = h
    · rw [hc] at hstep
      exact ⟨m, ⟨hne, Relation.ReflTransGen.refl⟩, hstep⟩
    · rcases ih hc with ⟨b, haround, hb⟩
      exact ⟨b, haround.head hstep.1 hne, hb⟩

/-!
# The result
-/

section Result

variable {back : List (Node × Node)} {L : Node × Node -> List Node}

def reducibleResult (back : List (Node × Node))
    (L : Node × Node -> List Node) : ReducibleResult Node where
  reducible := true
  headers := headersOf back
  backEdgeNodes :=
    (headersOf back).map (fun h => (h, backEdgeNodesOf back h))
  naturalLoops := back.map (fun e => (e, L e))
  splitCandidates := []

theorem mem_backEdgeNodesAt :
    b ∈ (reducibleResult back L).backEdgeNodesAt h <-> (b, h) ∈ back := by
  unfold ReducibleResult.backEdgeNodesAt reducibleResult
  by_cases hmem : h ∈ headersOf back
  · rw [List.lookup_graph _ hmem, Option.getD_some, mem_backEdgeNodesOf]
  · have hnone : ((headersOf back).map
        (fun h => (h, backEdgeNodesOf back h))).lookup h = none := by
      rw [List.lookup_eq_none_iff]
      intro e he
      rcases List.mem_map.mp he with ⟨h', hh', heq⟩
      subst heq
      rw [bne_iff_ne]
      intro heq
      exact hmem (heq ▸ hh')
    rw [hnone, Option.getD_none]
    constructor
    · intro hb
      cases hb
    · intro hb
      exact absurd ((mem_headersOf back).mpr ⟨b, hb⟩) hmem

theorem naturalLoopsAt_eq (hb : (b, h) ∈ back) :
    (reducibleResult back L).naturalLoopsAt h b = L (b, h) := by
  unfold ReducibleResult.naturalLoopsAt reducibleResult
  rw [List.lookup_graph L hb, Option.getD_some]

theorem exists_header (hwf : WellFounded (g.ForwardEdge source))
    {path : List Node} (hpath : g.IsPath x x path) (hlength : 2 ≤ path.length) :
    exists h, h ∈ path ∧ (exists b, g.BackEdge source b h) ∧
      forall m, m ∈ path -> exists b, g.BackEdge source b h ∧
        (m = h ∨ g.ReachesAvoiding h m b) := by
  have hx : x ∈ path := List.mem_of_mem_head? hpath.head
  rcases hwf.has_min {z | z ∈ path} ⟨x, hx⟩ with ⟨h, hh, hmin⟩
  have hback : forall b, g.Edge b h -> b ∈ path -> g.BackEdge source b h := by
    intro b hedge hb
    constructor
    · exact hedge
    · by_contra hnot
      exact hmin b hb ⟨hedge, hnot⟩
  have hways : forall {u v}, u ∈ path -> v ∈ path ->
      Relation.ReflTransGen (fun u v => g.Edge u v ∧ u ∈ path) u v := by
    intro u v hu hv
    exact (hpath.within (fun _ hz => hz) hu).2.trans
      (hpath.within (fun _ hz => hz) hv).1
  -- The cycle leaves `h`, so it comes back to `h` over some edge.
  have hentry : exists b, g.BackEdge source b h := by
    rcases path with _ | ⟨a, _ | ⟨c, path⟩⟩
    · cases hx
    · exact absurd hlength (Nat.not_succ_le_self 1)
    · by_cases hc : c = h
      · have hedge := (List.isChain_cons.mp hpath.chain).1 c rfl
        rw [hc] at hedge
        exact ⟨a, hback a hedge List.mem_cons_self⟩
      · have hmem : c ∈ a :: c :: path :=
          List.mem_cons_of_mem a List.mem_cons_self
        rcases exists_arrival hc (hways hmem hh) with ⟨b, _, hedge, hb⟩
        exact ⟨b, hback b hedge hb⟩
  exists h
  constructor
  · exact hh
  · constructor
    · exact hentry
    · intro m hm
      by_cases heq : m = h
      · rcases hentry with ⟨b, hb⟩
        exact ⟨b, hb, Or.inl heq⟩
      · rcases exists_arrival heq (hways hm hh) with ⟨b, haround, hedge, hb⟩
        exact ⟨b, hback b hedge hb, Or.inr haround⟩

theorem hasNaturalLoops (hwf : WellFounded (g.ForwardEdge source))
    (hback : forall x y, (x, y) ∈ back <-> g.BackEdge source x y)
    (hloop : forall e m, m ∈ L e <-> m = e.2 ∨ g.ReachesAvoiding e.2 m e.1) :
    HasNaturalLoops g source (reducibleResult back L) where
  headers := by
    intro h
    exact (mem_headersOf back).trans (exists_congr (fun b => hback b h))
  backEdgeNodes := by
    intro h b
    exact mem_backEdgeNodesAt.trans (hback b h)
  naturalLoops := by
    intro h b hb m
    rw [naturalLoopsAt_eq (mem_backEdgeNodesAt.mp hb)]
    exact hloop (b, h) m
  dominated := by
    intro h b m hb hm
    have hmem := mem_backEdgeNodesAt.mp hb
    rw [naturalLoopsAt_eq hmem] at hm
    exact ((hback b h).mp hmem).dominates ((hloop (b, h) m).mp hm)
  cycles := by
    intro x path hpath hlength
    rcases exists_header hwf hpath hlength with ⟨h, _, hentry, hall⟩
    exists h
    constructor
    · exact (mem_headersOf back).mpr
        (hentry.imp (fun b hb => (hback b h).mpr hb))
    · intro m hm
      rcases hall m hm with ⟨b, hb, hmb⟩
      have hmem := (hback b h).mpr hb
      exists b
      constructor
      · exact mem_backEdgeNodesAt.mpr hmem
      · rw [naturalLoopsAt_eq hmem]
        exact (hloop (b, h) m).mpr hmb

end Result

omit [DecidableEq Node] in
theorem exists_forwardEdge_source (hreach : Relation.ReflTransGen g.Edge source x)
    (hedge : g.ForwardEdge source x y) :
    exists z, g.ForwardEdge source source z := by
  have hleaves : forall {x}, Relation.ReflTransGen g.Edge source x ->
      x ≠ source -> exists z, g.Edge source z ∧ z ≠ source := by
    intro x hreach hne
    induction hreach with
    | refl => exact absurd rfl hne
    | tail hbefore hstep ih =>
      rename_i b c
      by_cases hb : b = source
      · rw [hb] at hstep
        exact ⟨c, hstep, hne⟩
      · exact ih hb
  have hforward : forall {z}, g.Edge source z -> z ≠ source ->
      g.ForwardEdge source source z := by
    intro z hz hne
    constructor
    · exact hz
    · rw [dominates_iff, not_not]
      exact ⟨hne.symm, Relation.ReflTransGen.refl⟩
  by_cases hx : x = source
  · rw [hx] at hedge
    exact ⟨y, hedge⟩
  · rcases hleaves hreach hx with ⟨z, hz, hne⟩
    exact ⟨z, hforward hz hne⟩

section Split

structure IsSplit (g : Graph Node) (source : Node)
    (back others : List (Node × Node)) : Prop where
  back : forall x y, (x, y) ∈ back <-> g.BackEdge source x y
  others : (ofEdges others).Edge = g.ForwardEdge source

variable {back others : List (Node × Node)}

theorem IsSplit.acyclic_iff (h : IsSplit g source back others) :
    (ofEdges others).Acyclic <-> g.Reducible source := by
  unfold Acyclic Reducible
  rw [h.others]

theorem IsSplit.wellFounded (h : IsSplit g source back others)
    (hred : g.Reducible source) : WellFounded (g.ForwardEdge source) := by
  rw [← h.others]
  exact (h.acyclic_iff.mpr hred).wellFounded

theorem IsSplit.exists_findCycle (h : IsSplit g source back others)
    (hreach : forall x, x ∈ g.ns -> Relation.ReflTransGen g.Edge source x) :
    exists bound, ¬ g.Reducible source -> forall fuel, bound ≤ fuel ->
      exists c, findCycle fuel (ofEdges others) source = some c := by
  by_cases hred : g.Reducible source
  · exact ⟨0, fun hnot => absurd hred hnot⟩
  · have hmem : source ∈ (ofEdges others).ns := by
      unfold Reducible at hred
      push Not at hred
      rcases hred with ⟨x, hx⟩
      rcases Relation.TransGen.head'_iff.mp hx with ⟨y, hstep, _⟩
      rcases exists_forwardEdge_source
        (hreach x (g.endpoints _ hstep.1).1) hstep with ⟨z, hz⟩
      rw [← h.others] at hz
      exact ((ofEdges others).endpoints _ hz).1
    rcases Graph.exists_findCycle hmem with ⟨bound, hbound⟩
    exact ⟨bound, fun _ => hbound⟩

theorem exists_split (hsource : source ∈ g.ns)
    (hreach : forall x, x ∈ g.ns -> Relation.ReflTransGen g.Edge source x) :
    exists bound back others, IsSplit g source back others ∧ forall fuel, bound ≤ fuel -> exists D,
        DomRelation.newComputeDominators fuel g source = some D ∧
        g.es.foldlM (splitEdge fuel D) ([], []) = some (back, others) := by
  classical
  let dominates : Node × Node -> Bool := fun e =>
    decide (g.Dominates source e.2 e.1)
  exists DomRelation.enoughFuel g,
    (g.es.filter dominates).foldl hashSetAdd [],
    (g.es.filter (fun e => !dominates e)).foldl hashSetAdd []
  constructor
  · constructor
    · intro x y
      simp [dominates, mem_foldl_hashSetAdd, BackEdge, Edge]
    · funext x y
      apply propext
      simp [dominates, mem_foldl_hashSetAdd, ForwardEdge, Edge, ofEdges]
  · intro fuel hfuel
    rcases DomRelation.newComputeDominators_spec hsource hreach hfuel with
      ⟨D, hD, htree⟩
    have hless := DomRelation.twice_lt_of_enoughFuel hfuel
    exists D
    constructor
    · exact hD
    · apply foldlM_splitEdge
      intro e he
      have hends := g.endpoints e he
      rcases DomRelation.dominatedBy_spec htree hends.1 hends.2
        (Nat.lt_of_le_of_lt (Nat.le_add_left _ _) hless) with
        ⟨answer, between, hanswer, hiff, _⟩
      exists between
      have heq : answer = dominates e := by
        rw [Bool.eq_iff_iff, hiff]
        simp [dominates]
      rw [hanswer, heq]

end Split

theorem computeReducible_spec (hsource : source ∈ g.ns)
    (hreach : forall x, x ∈ g.ns -> Relation.ReflTransGen g.Edge source x) :
    exists bound back others, IsSplit g source back others ∧ forall fuel, bound ≤ fuel ->
        (g.Reducible source -> exists L,
          computeReducible fuel g source = some (reducibleResult back L) ∧
            forall e m, m ∈ L e <-> m = e.2 ∨ g.ReachesAvoiding e.2 m e.1) ∧
        (¬ g.Reducible source -> exists c,
          computeReducible fuel g source = some ⟨false, [], [], [], c⟩) := by
  rcases exists_split hsource hreach with ⟨bound, back, others, h, hsplit⟩
  rcases h.exists_findCycle hreach with ⟨bound', hcycle⟩
  exists bound + bound' + (g.ns.length + 2), back, others
  constructor
  · exact h
  · intro fuel hfuel
    have hfuels : bound ≤ fuel ∧ bound' ≤ fuel ∧ g.ns.length + 1 < fuel := by
      omega
    rcases hsplit fuel hfuels.1 with ⟨D, hD, hedges⟩
    have hacyclic : (ofEdges others).acyclic = true <-> g.Reducible source :=
      (tarjanTopSort_acyclic_iff false).trans h.acyclic_iff
    unfold computeReducible
    rw [hD]
    dsimp only
    rw [hedges]
    dsimp only
    constructor
    · intro hred
      have hnatural := fun e : Node × Node =>
        naturalLoop_spec (g := g) hfuels.2.2 e.1 e.2
      choose L hL hmem using hnatural
      have hloops : back.mapM
          (fun e => (naturalLoop fuel g e).map (fun loop => (e, loop))) =
            some (back.map (fun e => (e, L e))) := by
        apply Traversal.mapM_eq_map
        intro e _
        rw [hL e]
        rfl
      rw [hacyclic.mpr hred, if_neg (by simp), hloops]
      exact ⟨L, rfl, hmem⟩
    · intro hred
      have hfalse : (ofEdges others).acyclic = false := by
        rw [Bool.eq_false_iff]
        exact fun htrue => hred (hacyclic.mp htrue)
      rcases hcycle hred fuel hfuels.2.1 with ⟨c, hc⟩
      rw [if_pos hfalse, hc]
      exact ⟨c, rfl⟩

/--
`ComputeReducible` tells reducible graphs from others, and covers the cycles of
a reducible graph with the natural loops of its back edges.
-/
theorem computeReducible_hasNaturalLoops (hsource : source ∈ g.ns)
    (hreach : forall x, x ∈ g.ns -> Relation.ReflTransGen g.Edge source x) :
    exists bound, forall fuel, bound ≤ fuel -> exists r, computeReducible fuel g source = some r ∧
      (r.reducible = true <-> g.Reducible source) ∧
      (r.reducible = true -> HasNaturalLoops g source r) := by
  rcases computeReducible_spec hsource hreach with
    ⟨bound, back, others, h, hrun⟩
  exists bound
  intro fuel hfuel
  by_cases hred : g.Reducible source
  · rcases (hrun fuel hfuel).1 hred with ⟨L, hL, hmem⟩
    exists reducibleResult back L
    constructor
    · exact hL
    · constructor
      · exact iff_of_true rfl hred
      · intro _
        exact hasNaturalLoops (h.wellFounded hred) h.back hmem
  · rcases (hrun fuel hfuel).2 hred with ⟨c, hc⟩
    exists ⟨false, [], [], [], c⟩
    constructor
    · exact hc
    · constructor
      · exact iff_of_false (by simp) hred
      · intro htrue
        cases htrue

/-- A loop of two nodes behind the source, one of which has an edge to itself. -/
theorem twoLoops_hasNaturalLoops :
    let g : Graph Nat := ((((Graph.empty.addSource 0).addEdge 0 1).addEdge 1
      2).addEdge 2 1).addEdge 2 2
    exists bound, forall fuel, bound ≤ fuel -> exists r,
      computeReducible fuel g 0 = some r ∧
      (r.reducible = true <-> g.Reducible 0) ∧
      (r.reducible = true -> HasNaturalLoops g 0 r) := by
  intro g
  have hedges : g.Edge 0 1 ∧ g.Edge 1 2 := by simp [g]
  apply computeReducible_hasNaturalLoops
  · simp [g]
  · intro x hx
    have hnodes : x = 0 ∨ x = 1 ∨ x = 2 := by
      simpa [g, Graph.addSource, Graph.addEdge, Graph.empty, hashSetAdd] using hx
    rcases hnodes with heq | heq | heq
    · rw [heq]
    · rw [heq]
      exact Relation.ReflTransGen.single hedges.1
    · rw [heq]
      exact (Relation.ReflTransGen.single hedges.1).tail hedges.2

end Reducible

end Graph

end Boogie
