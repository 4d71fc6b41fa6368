import Boogie.Foundation.TopologicalSort
import Boogie.Graph.NaturalLoops

/-!
# Sorting a graph with loops

The nodes of a reducible graph are sorted along the edges that do not lead back
to the header of a loop.  All nodes of a loop are sorted before anything behind
it, and the header stands once more where its loop ends.
-/

namespace Boogie

namespace Graph

variable {Node : Type} [DecidableEq Node]

/-!
# The algorithm
-/

def loopNodes (r : ReducibleResult Node) (h : Node) : List Node :=
  (r.backEdgeNodesAt h).foldl
    (fun nodes b => (r.naturalLoopsAt h b).foldl hashSetAdd nodes) []

def isLoopEdge (r : ReducibleResult Node) (e : Node × Node) : Bool :=
  decide (e.2 ∈ r.headers ∧ e.1 ∈ loopNodes r e.2)

def orderedEdges (g : Graph Node) (r : ReducibleResult Node) :
    List (Node × Node) :=
  g.es.filter (fun e => !isLoopEdge r e)

structure SortState (Node : Type) where
  incomingEdges : Node -> Int
  sortedNodes : List (Node × Bool)
  regionStack : List (Option Node × List Node)

def initialSort (g : Graph Node) (r : ReducibleResult Node) :
    SortState Node where
  incomingEdges := fun x => (orderedEdges g r).countP (fun e => e.2 = x)
  sortedNodes := []
  regionStack := [(none, g.ns)]

def findLastIndex (l : List Node) (x : Node) : Int :=
  match l.reverse.findIdx? (fun y => y = x) with
  | none => -1
  | some i => (l.length : Int) - 1 - i

def considerPredecessor (sortedNodesInternal : List Node) (i : Node)
    (best : Node × Int) (p : Node) : Node × Int :=
  let predIndex := findLastIndex sortedNodesInternal p
  if predIndex > best.2 then (i, predIndex) else best

def chooseRoot (g : Graph Node) (sortedNodesInternal : List Node)
    (rootIndex : Node) (rootIndexes : List Node) : Node :=
  (rootIndexes.foldl
    (fun best i =>
      (g.predecessors i).foldl (considerPredecessor sortedNodesInternal i) best)
    (rootIndex, -1)).1

def decrement (incomingEdges : Node -> Int) (s : Node) : Node -> Int :=
  Function.update incomingEdges s (incomingEdges s - 1)

def sortRoot (g : Graph Node) (r : ReducibleResult Node) (st : SortState Node)
    (root : Node) : SortState Node where
  incomingEdges :=
    (((orderedEdges g r).filter (fun e => e.1 = root)).map Prod.snd).foldl
      decrement (Function.update st.incomingEdges root (-1))
  sortedNodes := st.sortedNodes ++ [(root, false)]
  regionStack :=
    if root ∈ r.headers then (some root, loopNodes r root) :: st.regionStack
    else st.regionStack

def endRegion (st : SortState Node) (header : Option Node)
    (rest : List (Option Node × List Node)) : SortState Node where
  incomingEdges := st.incomingEdges
  sortedNodes :=
    match rest, header with
    | _ :: _, some h => st.sortedNodes ++ [(h, true)]
    | _, _ => st.sortedNodes
  regionStack := rest

def sortLoop (g : Graph Node) (r : ReducibleResult Node) :
    Nat -> SortState Node -> Option (List (Node × Bool))
  | 0, _ => none
  | fuel + 1, st =>
    match st.regionStack with
    | [] => some st.sortedNodes
    | (header, region) :: rest =>
      match region.filter (fun i => st.incomingEdges i = 0) with
      | [] => sortLoop g r fuel (endRegion st header rest)
      | rootIndex :: rootIndexes =>
        sortLoop g r fuel
          (sortRoot g r st
            (chooseRoot g (st.sortedNodes.map Prod.fst) rootIndex
              (rootIndex :: rootIndexes)))

/-- `Contract.Assert(g.Reducible)` fails for other graphs. -/
def loopyTopSort (fuel : Nat) (g : Graph Node) (r : ReducibleResult Node) :
    Option (List (Node × Bool)) :=
  if r.reducible = true then sortLoop g r fuel (initialSort g r) else none

/-!
# Orders of graphs with loops
-/

/-- Behind a node stand its successors, or the ends of the loops they head. -/
structure IsLoopyOrder (g : Graph Node) (source : Node)
    (sorted : List (Node × Bool)) : Prop where
  first : exists rest, sorted = (source, false) :: rest
  nodes : forall x, (x, false) ∈ sorted <-> x ∈ g.ns
  ends : forall x, (x, true) ∈ sorted -> x ∈ g.ns
  once : (sorted.filter (fun e => !e.2)).Nodup
  ahead : forall u v, g.Edge u v -> forall pre post,
    sorted = pre ++ (u, false) :: post ->
      (v, false) ∈ post ∨ (v, true) ∈ post

section Order

variable {g : Graph Node} {source x y h m : Node} {r : ReducibleResult Node}

theorem mem_loopNodes :
    m ∈ loopNodes r h <-> exists b, b ∈ r.backEdgeNodesAt h ∧ m ∈ r.naturalLoopsAt h b := by
  have hfold : forall (bs nodes : List Node),
      m ∈ bs.foldl
        (fun nodes b => (r.naturalLoopsAt h b).foldl hashSetAdd nodes) nodes <->
        m ∈ nodes ∨ exists b, b ∈ bs ∧ m ∈ r.naturalLoopsAt h b := by
    intro bs
    induction bs with
    | nil => simp
    | cons b bs ih =>
      intro nodes
      rw [List.foldl_cons, ih, mem_foldl_hashSetAdd]
      simp [or_assoc]
  unfold loopNodes
  rw [hfold]
  simp

theorem mem_orderedEdges (hr : HasNaturalLoops g source r) :
    (x, y) ∈ orderedEdges g r <-> g.ForwardEdge source x y := by
  unfold orderedEdges isLoopEdge
  rw [List.mem_filter]
  have hloop : g.Edge x y -> ((y ∈ r.headers ∧ x ∈ loopNodes r y) <->
      g.Dominates source y x) := by
    intro hedge
    rw [mem_loopNodes]
    constructor
    · intro ⟨_, b, hb, hx⟩
      exact hr.dominated y b x hb hx
    · intro hdom
      have hback : g.BackEdge source x y := ⟨hedge, hdom⟩
      have hb := (hr.backEdgeNodes y x).mpr hback
      constructor
      · exact (hr.headers y).mpr ⟨x, hback⟩
      · exists x
        constructor
        · exact hb
        · rw [hr.naturalLoops y x hb]
          by_cases heq : x = y
          · exact Or.inl heq
          · exact Or.inr ⟨heq, Relation.ReflTransGen.refl⟩
  constructor
  · intro ⟨hedge, hnot⟩
    constructor
    · exact hedge
    · intro hdom
      simp [(hloop hedge).mpr hdom] at hnot
  · intro ⟨hedge, hnot⟩
    constructor
    · exact hedge
    · rw [Bool.not_eq_true', decide_eq_false_iff_not]
      exact fun hyes => hnot ((hloop hedge).mp hyes)

theorem mem_loopNodes_of_edge (hr : HasNaturalLoops g source r)
    (hm : m ∈ loopNodes r h) (hne : m ≠ h) (hedge : g.Edge x m) :
    x ∈ loopNodes r h := by
  rw [mem_loopNodes] at hm ⊢
  rcases hm with ⟨b, hb, hm⟩
  exists b
  constructor
  · exact hb
  · rw [hr.naturalLoops h b hb] at hm ⊢
    by_cases hx : x = h
    · exact Or.inl hx
    · right
      exact ReachesAvoiding.head (hm.resolve_left hne) hedge hx

theorem exists_forwardEdge (hreach : Relation.ReflTransGen g.Edge source x)
    (hne : x ≠ source) : exists u, g.ForwardEdge source u x := by
  have hpath : forall w, Relation.ReflTransGen g.Edge source w ->
      g.ReachesAvoiding x source w ∨ exists u, g.ForwardEdge source u x := by
    intro w hw
    induction hw with
    | refl => exact Or.inl ⟨Ne.symm hne, Relation.ReflTransGen.refl⟩
    | tail hbefore hstep ih =>
      rename_i u w
      rcases ih with havoid | hfound
      · by_cases hw : w = x
        · right
          exists u
          rw [hw] at hstep
          constructor
          · exact hstep
          · rw [dominates_iff, not_not]
            exact havoid
        · exact Or.inl (havoid.tail hstep hw)
      · exact Or.inr hfound
  rcases hpath x hreach with havoid | hfound
  · exact absurd rfl havoid.ne
  · exact hfound

end Order

/-!
# One step
-/

section Step

variable {g : Graph Node} {source root x y h : Node} {r : ReducibleResult Node}
  {st : SortState Node}

def waiting (g : Graph Node) (r : ReducibleResult Node)
    (sorted : List (Node × Bool)) (x : Node) : Nat :=
  (orderedEdges g r).countP (fun e => e.2 = x ∧ (e.1, false) ∉ sorted)

structure Sorting (g : Graph Node) (source : Node) (r : ReducibleResult Node)
    (st : SortState Node) : Prop where
  sorted : forall x, x ∈ g.ns -> (x, false) ∈ st.sortedNodes ->
    st.incomingEdges x = -1
  unsorted : forall x, x ∈ g.ns -> (x, false) ∉ st.sortedNodes ->
    st.incomingEdges x = waiting g r st.sortedNodes x
  first : st.sortedNodes = [] ∨
    exists rest, st.sortedNodes = (source, false) :: rest
  nodes : forall x b, (x, b) ∈ st.sortedNodes -> x ∈ g.ns
  once : (st.sortedNodes.filter (fun e => !e.2)).Nodup
  before : forall pre y post, st.sortedNodes = pre ++ (y, false) :: post ->
    forall x, (x, y) ∈ orderedEdges g r -> (x, false) ∈ pre
  closed : forall pre h post, st.sortedNodes = pre ++ (h, true) :: post ->
    forall m, m ∈ loopNodes r h -> (m, false) ∈ pre
  opened : forall h, h ∈ r.headers -> (h, false) ∈ st.sortedNodes ->
    (h, true) ∈ st.sortedNodes ∨ (some h, loopNodes r h) ∈ st.regionStack
  stack : (st.regionStack = [] ∧
      forall x, x ∈ g.ns -> (x, false) ∈ st.sortedNodes) ∨
    exists hs : List Node, (forall h, h ∈ hs -> (h, false) ∈ st.sortedNodes) ∧
      st.regionStack =
        hs.map (fun h => (some h, loopNodes r h)) ++ [(none, g.ns)]

theorem Sorting.initial (g : Graph Node) (source : Node)
    (r : ReducibleResult Node) : Sorting g source r (initialSort g r) where
  sorted := by
    intro x _ hx
    cases hx
  unsorted := by
    intro x _ _
    unfold waiting initialSort
    simp
  first := Or.inl rfl
  nodes := by
    intro x b hx
    cases hx
  once := List.nodup_nil
  before := by
    intro pre y post hsplit
    exact absurd hsplit (by simp [initialSort])
  closed := by
    intro pre h post hsplit
    exact absurd hsplit (by simp [initialSort])
  opened := by
    intro h _ hh
    cases hh
  stack := by
    right
    exists []
    constructor
    · intro h hh
      cases hh
    · rfl

theorem foldl_decrement (xs : List Node) (incomingEdges : Node -> Int) (x : Node) :
    xs.foldl decrement incomingEdges x = incomingEdges x - xs.count x := by
  induction xs generalizing incomingEdges with
  | nil => simp
  | cons y xs ih =>
    rw [List.foldl_cons, ih, decrement]
    by_cases hx : x = y
    · rw [hx, Function.update_self, List.count_cons_self]
      omega
    · rw [Function.update_of_ne hx, List.count_cons_of_ne (Ne.symm hx)]

theorem count_orderedSuccessors (root x : Node) :
    (((orderedEdges g r).filter (fun e => e.1 = root)).map Prod.snd).count x =
      (orderedEdges g r).countP (fun e => e.2 = x ∧ e.1 = root) := by
  rw [List.count_eq_countP, List.countP_map, List.countP_filter]
  apply List.countP_congr
  intro e _
  simp

theorem waiting_root (hroot : (root, false) ∉ st.sortedNodes) (x : Node) :
    waiting g r st.sortedNodes x = waiting g r (st.sortedNodes ++ [(root, false)]) x +
        (orderedEdges g r).countP (fun e => e.2 = x ∧ e.1 = root) := by
  unfold waiting
  rw [List.countP_eq_countP_filter_add (orderedEdges g r) _
    (fun e => decide (e.1 ≠ root)), List.countP_filter, List.countP_filter]
  congr 1
  · apply List.countP_congr
    intro e _
    simp
    tauto
  · apply List.countP_congr
    intro e _
    simp
    intro heq _
    rw [heq]
    exact hroot

theorem mem_split_append {A : Type} {l pre post : List A} {a b : A}
    (h : l ++ [a] = pre ++ b :: post) :
    (b = a ∧ pre = l ∧ post = []) ∨ exists post', l = pre ++ b :: post' ∧ post = post' ++ [a] := by
  rcases List.eq_nil_or_concat post with hnil | ⟨post', c, hconcat⟩
  · left
    rw [hnil] at h
    rcases List.append_inj' h rfl with ⟨hl, hab⟩
    injection hab with hab
    exact ⟨hab.symm, hl.symm, hnil⟩
  · right
    exists post'
    rw [List.concat_eq_append] at hconcat
    rw [hconcat, ← List.cons_append, ← List.append_assoc] at h
    rcases List.append_inj' h rfl with ⟨hl, hac⟩
    injection hac with hac
    rw [hconcat, hac]
    exact ⟨hl, rfl⟩

theorem Sorting.sortRoot (h : Sorting g source r st) (hr : HasNaturalLoops g source r)
    (hreach : forall x, x ∈ g.ns -> Relation.ReflTransGen g.Edge source x)
    (hmem : root ∈ g.ns) (hzero : st.incomingEdges root = 0) :
    Sorting g source r (Graph.sortRoot g r st root) := by
  have hnot : (root, false) ∉ st.sortedNodes := by
    intro hsorted
    rw [h.sorted root hmem hsorted] at hzero
    cases hzero
  have hnone : forall x, (x, root) ∈ orderedEdges g r ->
      (x, false) ∈ st.sortedNodes := by
    intro x hedge
    by_contra hx
    rw [h.unsorted root hmem hnot, Int.natCast_eq_zero] at hzero
    unfold waiting at hzero
    rw [List.countP_eq_zero] at hzero
    exact hzero (x, root) hedge (by simp [hx])
  have hself : (root, root) ∉ orderedEdges g r :=
    fun hedge => hnot (hnone root hedge)
  have hcount : forall x, (root, x) ∉ orderedEdges g r ->
      (orderedEdges g r).countP (fun e => e.2 = x ∧ e.1 = root) = 0 := by
    intro x hedge
    rw [List.countP_eq_zero]
    intro e he heq
    rw [decide_eq_true_eq] at heq
    apply hedge
    rw [← heq.1, ← heq.2]
    exact he
  have hincoming : forall x,
      (Graph.sortRoot g r st root).incomingEdges x =
      Function.update st.incomingEdges root (-1) x -
        (orderedEdges g r).countP (fun e => e.2 = x ∧ e.1 = root) := by
    intro x
    unfold Graph.sortRoot
    dsimp only
    rw [foldl_decrement, count_orderedSuccessors]
  constructor
  · intro x hx hsorted
    rw [hincoming]
    rcases List.mem_append.mp hsorted with hold | hnew
    · have hedge : (root, x) ∉ orderedEdges g r := by
        intro hedge
        rcases List.append_of_mem hold with ⟨pre, post, hsplit⟩
        apply hnot
        rw [hsplit]
        exact List.mem_append_left _ (h.before pre x post hsplit root hedge)
      have hne : x ≠ root := fun heq => hnot (heq ▸ hold)
      rw [hcount x hedge, Function.update_of_ne hne, h.sorted x hx hold]
      rfl
    · rw [List.mem_singleton, Prod.mk.injEq] at hnew
      rw [hnew.1, hcount root hself, Function.update_self]
      rfl
  · intro x hx hunsorted
    have hx' : (x, false) ∉ st.sortedNodes ∧ x ≠ root := by
      constructor
      · exact fun hold => hunsorted (List.mem_append_left _ hold)
      · intro heq
        exact hunsorted (List.mem_append_right _ (by simp [heq]))
    have hwait := waiting_root (g := g) (r := r) hnot x
    rw [hincoming, Function.update_of_ne hx'.2, h.unsorted x hx hx'.1, hwait]
    unfold Graph.sortRoot
    dsimp only
    omega
  · right
    rcases h.first with hnil | ⟨rest, hfirst⟩
    · by_cases heq : root = source
      · exists []
        unfold Graph.sortRoot
        rw [hnil, heq]
        rfl
      · rcases exists_forwardEdge (hreach root hmem) heq with ⟨u, hu⟩
        have hedge := hnone u ((mem_orderedEdges hr).mpr hu)
        rw [hnil] at hedge
        cases hedge
    · exists rest ++ [(root, false)]
      unfold Graph.sortRoot
      rw [hfirst]
      rfl
  · intro x b hx
    rcases List.mem_append.mp hx with hold | hnew
    · exact h.nodes x b hold
    · rw [List.mem_singleton, Prod.mk.injEq] at hnew
      rw [hnew.1]
      exact hmem
  · unfold Graph.sortRoot
    dsimp only
    rw [List.filter_append, List.nodup_append]
    constructor
    · exact h.once
    · constructor
      · exact List.Nodup.filter _ (List.nodup_singleton _)
      · intro a ha b hb heq
        have hb' := List.mem_singleton.mp (List.mem_filter.mp hb).1
        apply hnot
        rw [← hb', ← heq]
        exact (List.mem_filter.mp ha).1
  · intro pre y post hsplit x hedge
    rcases mem_split_append hsplit with ⟨heq, hpre, _⟩ | ⟨post', hold, _⟩
    · rw [Prod.mk.injEq] at heq
      rw [hpre]
      exact hnone x (heq.1 ▸ hedge)
    · exact h.before pre y post' hold x hedge
  · intro pre y post hsplit m hm
    rcases mem_split_append hsplit with ⟨heq, _, _⟩ | ⟨post', hold, _⟩
    · cases (Prod.mk.inj heq).2
    · exact h.closed pre y post' hold m hm
  · intro y hy hsorted
    unfold Graph.sortRoot at hsorted ⊢
    dsimp only at hsorted ⊢
    rcases List.mem_append.mp hsorted with hold | hnew
    · rcases h.opened y hy hold with hend | hregion
      · exact Or.inl (List.mem_append_left _ hend)
      · right
        split
        · exact List.mem_cons_of_mem _ hregion
        · exact hregion
    · rw [List.mem_singleton, Prod.mk.injEq] at hnew
      right
      rw [← hnew.1, if_pos hy]
      exact List.mem_cons_self
  · rcases h.stack with ⟨_, hall⟩ | ⟨hs, hsorted, hstack⟩
    · exact absurd (hall root hmem) hnot
    · right
      unfold Graph.sortRoot
      dsimp only
      split
      · exists root :: hs
        constructor
        · intro y hy
          rcases List.mem_cons.mp hy with heq | hy
          · rw [heq]
            exact List.mem_append_right _ List.mem_cons_self
          · exact List.mem_append_left _ (hsorted y hy)
        · rw [hstack]
          rfl
      · exists hs
        constructor
        · intro y hy
          exact List.mem_append_left _ (hsorted y hy)
        · exact hstack

theorem mem_ns_of_mem_loopNodes (hr : HasNaturalLoops g source r)
    (hm : x ∈ loopNodes r h) : x ∈ g.ns := by
  rw [mem_loopNodes] at hm
  rcases hm with ⟨b, hb, hm⟩
  have hback := (hr.backEdgeNodes h b).mp hb
  rcases (hr.naturalLoops h b hb x).mp hm with heq | havoid
  · rw [heq]
    exact (g.endpoints _ hback.1).2
  · rcases Relation.ReflTransGen.cases_head havoid.reaches with
      heq | ⟨c, hedge, _⟩
    · rw [heq]
      exact (g.endpoints _ hback.1).1
    · exact (g.endpoints _ hedge).1

theorem Sorting.region_sorted (hs : Sorting g source r st)
    (hr : HasNaturalLoops g source r) (hred : g.Reducible source)
    {region : List Node} (hns : forall x, x ∈ region -> x ∈ g.ns)
    (hregion : forall x, x ∈ region -> (x, false) ∉ st.sortedNodes ->
      forall u, g.Edge u x -> u ∈ region)
    (hnone : region.filter (fun i => st.incomingEdges i = 0) = [])
    (hx : x ∈ region) : (x, false) ∈ st.sortedNodes := by
  have hdomain : forall y x, g.ForwardEdge source y x -> y ∈ g.ns :=
    fun y x hedge => (g.endpoints _ hedge.1).1
  have hwf := TopologicalSort.wellFounded_of_acyclic hdomain hred
  induction x using hwf.induction with
  | _ x ih =>
    by_contra hnot
    have hpos : st.incomingEdges x ≠ 0 := by
      intro hzero
      have hmem : x ∈ region.filter (fun i => st.incomingEdges i = 0) :=
        List.mem_filter.mpr ⟨hx, decide_eq_true hzero⟩
      rw [hnone] at hmem
      cases hmem
    rw [hs.unsorted x (hns x hx) hnot] at hpos
    have hwaiting : 0 < waiting g r st.sortedNodes x :=
      Nat.pos_of_ne_zero (fun hzero => hpos (by rw [hzero]; rfl))
    rcases List.countP_pos_iff.mp hwaiting with ⟨e, he, hwait⟩
    rw [decide_eq_true_eq] at hwait
    have hedge : g.ForwardEdge source e.1 x := by
      rw [← hwait.1]
      exact (mem_orderedEdges hr).mp he
    exact hwait.2 (ih e.1 hedge (hregion x hx hnot e.1 hedge.1))

theorem Sorting.endLast (hs : Sorting g source r st) (hstack : st.regionStack = [(none, g.ns)])
    (hall : forall x, x ∈ g.ns -> (x, false) ∈ st.sortedNodes) :
    Sorting g source r (endRegion st none []) where
  sorted := hs.sorted
  unsorted := hs.unsorted
  first := hs.first
  nodes := hs.nodes
  once := hs.once
  before := hs.before
  closed := hs.closed
  opened := by
    intro h hh hsorted
    rcases hs.opened h hh hsorted with hend | hregion
    · exact Or.inl hend
    · rw [hstack, List.mem_singleton] at hregion
      cases (Prod.mk.inj hregion).1
  stack := Or.inl ⟨rfl, hall⟩

theorem Sorting.endLoop (hs : Sorting g source r st) {hds : List Node}
    (hsorted : forall y, y ∈ h :: hds -> (y, false) ∈ st.sortedNodes)
    (hstack : st.regionStack = (h :: hds).map (fun h => (some h, loopNodes r h)) ++ [(none, g.ns)])
    (hall : forall x, x ∈ loopNodes r h -> (x, false) ∈ st.sortedNodes) :
    Sorting g source r (endRegion st (some h)
      (hds.map (fun h => (some h, loopNodes r h)) ++ [(none, g.ns)])) := by
  have hnodes : (endRegion st (some h) (hds.map
      (fun h => (some h, loopNodes r h)) ++ [(none, g.ns)])).sortedNodes =
        st.sortedNodes ++ [(h, true)] := by
    cases hds with
    | nil => rfl
    | cons y hds => rfl
  have hmem : forall x, (x, false) ∈ st.sortedNodes ++ [(h, true)] <->
      (x, false) ∈ st.sortedNodes := by
    intro x
    simp
  have hfirst := hsorted h List.mem_cons_self
  constructor
  · rw [hnodes]
    intro x hx hx'
    exact hs.sorted x hx ((hmem x).mp hx')
  · rw [hnodes]
    intro x hx hx'
    have hsame : waiting g r (st.sortedNodes ++ [(h, true)]) x =
        waiting g r st.sortedNodes x := by
      unfold waiting
      simp only [hmem]
    rw [hsame]
    exact hs.unsorted x hx (fun hold => hx' ((hmem x).mpr hold))
  · rw [hnodes]
    right
    rcases hs.first with hnil | ⟨rest, hrest⟩
    · rw [hnil] at hfirst
      cases hfirst
    · exists rest ++ [(h, true)]
      rw [hrest]
      rfl
  · rw [hnodes]
    intro x b hx
    rcases List.mem_append.mp hx with hold | hnew
    · exact hs.nodes x b hold
    · rw [List.mem_singleton, Prod.mk.injEq] at hnew
      rw [hnew.1]
      exact hs.nodes h false hfirst
  · rw [hnodes, List.filter_append]
    simpa using hs.once
  · rw [hnodes]
    intro pre y post hsplit x hedge
    rcases mem_split_append hsplit with ⟨heq, _, _⟩ | ⟨post', hold, _⟩
    · cases (Prod.mk.inj heq).2
    · exact hs.before pre y post' hold x hedge
  · rw [hnodes]
    intro pre y post hsplit m hm
    rcases mem_split_append hsplit with ⟨heq, hpre, _⟩ | ⟨post', hold, _⟩
    · rw [hpre]
      exact hall m ((Prod.mk.inj heq).1 ▸ hm)
    · exact hs.closed pre y post' hold m hm
  · rw [hnodes]
    intro y hy hy'
    rcases hs.opened y hy ((hmem y).mp hy') with hend | hregion
    · exact Or.inl (List.mem_append_left _ hend)
    · rw [hstack, List.map_cons, List.cons_append] at hregion
      rcases List.mem_cons.mp hregion with heq | hregion
      · left
        rw [Prod.mk.injEq, Option.some.injEq] at heq
        rw [heq.1]
        exact List.mem_append_right _ List.mem_cons_self
      · exact Or.inr hregion
  · rw [hnodes]
    right
    exists hds
    constructor
    · intro y hy
      exact List.mem_append_left _ (hsorted y (List.mem_cons_of_mem h hy))
    · rfl

/-!
# The whole sort
-/

theorem chooseRoot_mem (sortedNodesInternal : List Node) {rootIndex : Node}
    {rootIndexes : List Node} (hroot : rootIndex ∈ rootIndexes) :
    chooseRoot g sortedNodesInternal rootIndex rootIndexes ∈ rootIndexes := by
  have hconsider : forall (i : Node) (ps : List Node) (best : Node × Int),
      i ∈ rootIndexes -> best.1 ∈ rootIndexes ->
      (ps.foldl (considerPredecessor sortedNodesInternal i) best).1 ∈
        rootIndexes := by
    intro i ps
    induction ps with
    | nil => exact fun best _ hbest => hbest
    | cons p ps ih =>
      intro best hi hbest
      apply ih _ hi
      unfold considerPredecessor
      dsimp only
      split
      · exact hi
      · exact hbest
  have hroots : forall (is : List Node) (best : Node × Int),
      (forall i, i ∈ is -> i ∈ rootIndexes) -> best.1 ∈ rootIndexes ->
      (is.foldl (fun best i => (g.predecessors i).foldl
        (considerPredecessor sortedNodesInternal i) best) best).1 ∈
        rootIndexes := by
    intro is
    induction is with
    | nil => exact fun best _ hbest => hbest
    | cons i is ih =>
      intro best his hbest
      apply ih
      · exact fun j hj => his j (List.mem_cons_of_mem i hj)
      · exact hconsider i _ best (his i List.mem_cons_self) hbest
  exact hroots rootIndexes _ (fun i hi => hi) hroot

def stepsLeft (g : Graph Node) (st : SortState Node) : Nat :=
  2 * g.ns.countP (fun x => (x, false) ∉ st.sortedNodes) +
    st.regionStack.length

theorem stepsLeft_sortRoot (hmem : root ∈ g.ns) (hnot : (root, false) ∉ st.sortedNodes) :
    stepsLeft g (sortRoot g r st root) < stepsLeft g st := by
  have hless : g.ns.countP
      (fun x => (x, false) ∉ (sortRoot g r st root).sortedNodes) <
        g.ns.countP (fun x => (x, false) ∉ st.sortedNodes) := by
    have hsplit := List.countP_eq_countP_filter_add g.ns
      (fun x => decide ((x, false) ∉ st.sortedNodes))
      (fun x => decide (x ≠ root))
    rw [List.countP_filter, List.countP_filter] at hsplit
    have hrest : g.ns.countP
        (fun x => (x, false) ∉ (sortRoot g r st root).sortedNodes) =
          g.ns.countP (fun x => decide ((x, false) ∉ st.sortedNodes) &&
            decide (x ≠ root)) := by
      apply List.countP_congr
      intro x _
      unfold sortRoot
      simp
    have hroot : 0 < g.ns.countP (fun x =>
        decide ((x, false) ∉ st.sortedNodes) && !decide (x ≠ root)) := by
      rw [List.countP_pos_iff]
      exact ⟨root, hmem, by simp [hnot]⟩
    rw [hrest, hsplit]
    exact Nat.lt_add_of_pos_right hroot
  have hstack : (sortRoot g r st root).regionStack.length ≤
      st.regionStack.length + 1 := by
    unfold sortRoot
    dsimp only
    split
    · exact Nat.le_refl _
    · exact Nat.le_succ _
  unfold stepsLeft
  omega

theorem sortLoop_end {fuel : Nat} {header : Option Node} {region : List Node}
    {rest : List (Option Node × List Node)} (hstack : st.regionStack = (header, region) :: rest)
    (hnone : region.filter (fun i => st.incomingEdges i = 0) = []) :
    sortLoop g r (fuel + 1) st = sortLoop g r fuel (endRegion st header rest) := by
  rw [sortLoop, hstack]
  dsimp only
  rw [hnone]

theorem sortLoop_root {fuel : Nat} {header : Option Node} {region : List Node}
    {rest : List (Option Node × List Node)} {rootIndex : Node}
    {rootIndexes : List Node} (hstack : st.regionStack = (header, region) :: rest)
    (hsome : region.filter (fun i => st.incomingEdges i = 0) = rootIndex :: rootIndexes) :
    sortLoop g r (fuel + 1) st = sortLoop g r fuel (sortRoot g r st
      (chooseRoot g (st.sortedNodes.map Prod.fst) rootIndex (rootIndex :: rootIndexes))) := by
  rw [sortLoop, hstack]
  dsimp only
  rw [hsome]

theorem exists_sortLoop (fuel : Nat) (hs : Sorting g source r st)
    (hr : HasNaturalLoops g source r) (hred : g.Reducible source)
    (hreach : forall x, x ∈ g.ns -> Relation.ReflTransGen g.Edge source x)
    (hfuel : stepsLeft g st < fuel) :
    exists st', sortLoop g r fuel st = some st'.sortedNodes ∧
      Sorting g source r st' ∧ st'.regionStack = [] := by
  induction fuel generalizing st with
  | zero => exact absurd hfuel (Nat.not_lt_zero _)
  | succ fuel ih =>
    rcases hs.stack with ⟨hnil, _⟩ | ⟨hds, hsorted, hstack⟩
    · rw [sortLoop, hnil]
      exact ⟨st, rfl, hs, hnil⟩
    · have hpop : forall header region rest,
          st.regionStack = (header, region) :: rest ->
          stepsLeft g (endRegion st header rest) < fuel := by
        intro header region rest heq
        have hsame : forall x, (x, false) ∈
            (endRegion st header rest).sortedNodes <->
              (x, false) ∈ st.sortedNodes := by
          intro x
          unfold endRegion
          dsimp only
          split
          · simp
          · exact Iff.rfl
        have hlength : stepsLeft g st =
            stepsLeft g (endRegion st header rest) + 1 := by
          unfold stepsLeft
          simp only [hsame]
          rw [heq, List.length_cons, ← Nat.add_assoc]
          rfl
        rw [hlength] at hfuel
        exact Nat.lt_of_succ_lt_succ hfuel
      have hregion : forall header region rest,
          st.regionStack = (header, region) :: rest ->
          (forall x, x ∈ region -> x ∈ g.ns) ->
          (region.filter (fun i => st.incomingEdges i = 0) = [] ->
            Sorting g source r (endRegion st header rest)) ->
          exists st', sortLoop g r (fuel + 1) st = some st'.sortedNodes ∧
            Sorting g source r st' ∧ st'.regionStack = [] := by
        intro header region rest hstack hns hend
        cases hfilter : region.filter (fun i => st.incomingEdges i = 0) with
        | nil =>
          rw [sortLoop_end hstack hfilter]
          exact ih (hend hfilter) (hpop header region rest hstack)
        | cons rootIndex rootIndexes =>
          rw [sortLoop_root hstack hfilter]
          have hchosen := chooseRoot_mem (g := g)
            (st.sortedNodes.map Prod.fst)
            (List.mem_cons_self (a := rootIndex) (l := rootIndexes))
          rw [← hfilter] at hchosen
          rcases List.mem_filter.mp hchosen with ⟨hmem, hzero⟩
          rw [decide_eq_true_eq] at hzero
          rw [hfilter] at hmem hzero
          have hnot : (chooseRoot g (st.sortedNodes.map Prod.fst) rootIndex
              (rootIndex :: rootIndexes), false) ∉ st.sortedNodes := by
            intro hold
            rw [hs.sorted _ (hns _ hmem) hold] at hzero
            cases hzero
          apply ih (hs.sortRoot hr hreach (hns _ hmem) hzero)
          have hless := stepsLeft_sortRoot (r := r) (hns _ hmem) hnot
          omega
      cases hds with
      | nil =>
        apply hregion none g.ns [] hstack (fun _ h => h)
        intro hnone
        apply hs.endLast hstack
        exact fun x hx => hs.region_sorted hr hred (fun _ h => h)
          (fun x _ _ u hedge => (g.endpoints _ hedge).1) hnone hx
      | cons h hds =>
        apply hregion (some h) _ _ hstack
          (fun x hx => mem_ns_of_mem_loopNodes hr hx)
        intro hnone
        apply hs.endLoop hsorted hstack
        intro x hx
        apply hs.region_sorted hr hred
          (fun x hx => mem_ns_of_mem_loopNodes hr hx) _ hnone hx
        intro x hx hnot u hedge
        apply mem_loopNodes_of_edge hr hx _ hedge
        intro heq
        exact hnot (heq ▸ hsorted h List.mem_cons_self)

/-!
# The order
-/

theorem mem_post_of_mem_pre {A : Type} {l pre post pre' post' : List A} {a b : A}
    (h : l = pre ++ a :: post) (h' : l = pre' ++ b :: post') (ha : a ∈ pre')
    (hnot : a ∉ pre) : b ∈ post := by
  rw [h] at h'
  rcases List.append_eq_append_iff.mp h' with ⟨c, hpre', hpost⟩ | ⟨c, hpre, _⟩
  · cases c with
    | nil =>
      rw [List.append_nil] at hpre'
      exact absurd (hpre' ▸ ha) hnot
    | cons x c =>
      rw [List.cons_append] at hpost
      injection hpost with _ hpost
      rw [hpost]
      exact List.mem_append_right _ List.mem_cons_self
  · rw [hpre] at hnot
    exact absurd (List.mem_append_left _ ha) hnot

theorem Sorting.once_pre (hs : Sorting g source r st) {pre post : List (Node × Bool)}
    (hsplit : st.sortedNodes = pre ++ (x, false) :: post) : (x, false) ∉ pre := by
  intro hmem
  have honce := hs.once
  rw [hsplit, List.filter_append, List.nodup_append] at honce
  exact honce.2.2 (x, false) (List.mem_filter.mpr ⟨hmem, rfl⟩) (x, false)
    (List.mem_filter.mpr ⟨List.mem_cons_self, rfl⟩) rfl

theorem Sorting.isLoopyOrder (hs : Sorting g source r st) (hempty : st.regionStack = [])
    (hsource : source ∈ g.ns) :
    IsLoopyOrder g source st.sortedNodes := by
  have hall : forall x, x ∈ g.ns -> (x, false) ∈ st.sortedNodes := by
    rcases hs.stack with ⟨_, hall⟩ | ⟨hds, _, hstack⟩
    · exact hall
    · rw [hempty] at hstack
      exact absurd hstack.symm (List.append_ne_nil_of_right_ne_nil _ (List.cons_ne_nil _ _))
  constructor
  · rcases hs.first with hnil | hfirst
    · have hmem := hall source hsource
      rw [hnil] at hmem
      cases hmem
    · exact hfirst
  · exact fun x => ⟨hs.nodes x false, hall x⟩
  · exact fun x => hs.nodes x true
  · exact hs.once
  · intro u v hedge pre post hsplit
    have hnot := hs.once_pre hsplit
    have hv := (g.endpoints _ hedge).2
    cases hloop : isLoopEdge r (u, v) with
    | false =>
      have hordered : (u, v) ∈ orderedEdges g r :=
        List.mem_filter.mpr ⟨hedge, by rw [hloop]; rfl⟩
      rcases List.append_of_mem (hall v hv) with ⟨pre', post', hsplit'⟩
      left
      exact mem_post_of_mem_pre hsplit hsplit' (hs.before pre' v post' hsplit' u hordered) hnot
    | true =>
      rcases of_decide_eq_true hloop with ⟨hheader, hmem⟩
      have hend : (v, true) ∈ st.sortedNodes := by
        rcases hs.opened v hheader (hall v hv) with hend | hopen
        · exact hend
        · rw [hempty] at hopen
          cases hopen
      rcases List.append_of_mem hend with ⟨pre', post', hsplit'⟩
      right
      exact mem_post_of_mem_pre hsplit hsplit' (hs.closed pre' v post' hsplit' u hmem) hnot

theorem loopyTopSort_isLoopyOrder (hsource : source ∈ g.ns)
    (hreach : forall x, x ∈ g.ns -> Relation.ReflTransGen g.Edge source x) :
    exists bound, forall fuel, bound ≤ fuel -> exists r, computeReducible fuel g source = some r ∧
      (g.Reducible source -> exists sorted,
        loopyTopSort fuel g r = some sorted ∧ IsLoopyOrder g source sorted) ∧
      (¬ g.Reducible source -> loopyTopSort fuel g r = none) := by
  rcases computeReducible_hasNaturalLoops hsource hreach with ⟨bound, hbound⟩
  -- Each node takes two rounds: its own, and the end of its loop.
  exists max bound (2 * g.ns.length + 2)
  intro fuel hfuel
  rcases hbound fuel (le_trans (le_max_left _ _) hfuel) with ⟨r, hrun, hreducible, hloops⟩
  refine ⟨r, hrun, ?_, ?_⟩
  · intro hred
    have htrue := hreducible.mpr hred
    have hsteps : stepsLeft g (initialSort g r) < fuel := by
      have hcount := @List.countP_le_length _
        (fun x => decide ((x, false) ∉ (initialSort g r).sortedNodes)) g.ns
      have hlast : (initialSort g r).regionStack.length = 1 := rfl
      have hlarge := le_trans (le_max_right _ _) hfuel
      unfold stepsLeft
      omega
    rcases exists_sortLoop fuel (Sorting.initial g source r) (hloops htrue) hred hreach
      hsteps with ⟨st, hsort, hs, hempty⟩
    exists st.sortedNodes
    constructor
    · rw [loopyTopSort, if_pos htrue, hsort]
    · exact hs.isLoopyOrder hempty hsource
  · intro hred
    rw [loopyTopSort, if_neg (fun htrue => hred (hreducible.mp htrue))]

end Step

end Graph

end Boogie
