import Mathlib.Data.List.Nodup
import Mathlib.Logic.Relation

/-!
# Strongly connected components

Two depth-first searches: the first puts the nodes on a stack when it leaves
them; the second goes against the edges, takes its roots from the stack, and
every tree it visits is a component.
-/

namespace Boogie

namespace StronglyConnectedComponents

variable {Node : Type} [DecidableEq Node]

/-!
# The searches

The recursion is bounded by a number of nodes that is never exceeded.
-/

structure OrderState (Node : Type) where
  seen : List Node
  postOrder : List Node

def orderNodes (graph : List Node) (dfsNext : Node -> List Node) :
    Nat -> Node -> OrderState Node -> OrderState Node
  | 0, _, s => s
  | bound + 1, node, s =>
    let s := (dfsNext node).foldl
      (fun s n =>
        if n ∈ graph ∧ n ∉ s.seen then orderNodes graph dfsNext bound n s
        else s)
      { s with seen := node :: s.seen }
    { s with postOrder := node :: s.postOrder }

def orderAll (graph : List Node) (dfsNext : Node -> List Node) :
    OrderState Node :=
  graph.foldl
    (fun s n =>
      if n ∉ s.seen then orderNodes graph dfsNext graph.length n s else s)
    ⟨[], []⟩

structure ComponentState (Node : Type) where
  seen : List Node
  currSCC : List Node

def findSCCs (graph : List Node) (dfsNext : Node -> List Node) :
    Nat -> Node -> ComponentState Node -> ComponentState Node
  | 0, _, s => s
  | bound + 1, node, s =>
    (dfsNext node).foldl
      (fun s n =>
        if n ∈ graph ∧ n ∉ s.seen then findSCCs graph dfsNext bound n s
        else s)
      { seen := node :: s.seen, currSCC := s.currSCC ++ [node] }

def popAll (graph : List Node) (dfsNext : Node -> List Node) :
    List Node -> List Node -> List (List Node) -> List (List Node)
  | [], _, sccs => sccs
  | n :: postOrder, seen, sccs =>
    if n ∉ seen then
      let s := findSCCs graph dfsNext graph.length n ⟨seen, []⟩
      popAll graph dfsNext postOrder s.seen (sccs ++ [s.currSCC])
    else popAll graph dfsNext postOrder seen sccs

def compute (graph : List Node) (preds succs : Node -> List Node) :
    List (List Node) :=
  popAll graph succs (orderAll graph preds).postOrder [] []

/-!
# Reachability
-/

def Step (graph : List Node) (next : Node -> List Node) (x y : Node) : Prop :=
  x ∈ graph ∧ y ∈ graph ∧ y ∈ next x

def Reach (graph : List Node) (next : Node -> List Node) :
    Node -> Node -> Prop :=
  Relation.ReflTransGen (Step graph next)

def Mutual (graph : List Node) (next : Node -> List Node) (x y : Node) :
    Prop :=
  Reach graph next x y ∧ Reach graph next y x

variable {graph : List Node} {next : Node -> List Node} {x y z : Node}

omit [DecidableEq Node] in
theorem Mutual.refl (x : Node) : Mutual graph next x x :=
  ⟨Relation.ReflTransGen.refl, Relation.ReflTransGen.refl⟩

omit [DecidableEq Node] in
theorem Mutual.symm (h : Mutual graph next x y) : Mutual graph next y x :=
  ⟨h.2, h.1⟩

omit [DecidableEq Node] in
theorem Mutual.trans (h : Mutual graph next x y) (h' : Mutual graph next y z) :
    Mutual graph next x z :=
  ⟨Relation.ReflTransGen.trans h.1 h'.1, Relation.ReflTransGen.trans h'.2 h.2⟩

omit [DecidableEq Node] in
theorem Reach.mem (h : Reach graph next x y) (hx : x ∈ graph) : y ∈ graph := by
  induction h with
  | refl => exact hx
  | tail _ hstep _ => exact hstep.2.1

def unseen (graph seen : List Node) : Nat :=
  graph.countP (fun n => n ∉ seen)

theorem unseen_cons_lt {seen : List Node} (hx : x ∈ graph) (hnew : x ∉ seen) :
    unseen graph (x :: seen) < unseen graph seen := by
  unfold unseen
  induction graph with
  | nil => cases hx
  | cons n graph ih =>
    have hmono : graph.countP (fun n => n ∉ x :: seen) ≤
        graph.countP (fun n => n ∉ seen) := by
      apply List.countP_mono_left
      intro m _ hm
      simp only [List.mem_cons, not_or, decide_eq_true_eq] at hm ⊢
      exact hm.2
    rw [List.countP_cons, List.countP_cons]
    by_cases hn : n = x
    · subst hn
      simp only [List.mem_cons, true_or, not_true_eq_false, hnew,
        not_false_eq_true, decide_true, decide_false, if_true,
        Bool.false_eq_true, if_false]
      simp only [List.mem_cons] at hmono
      omega
    · have hmem : x ∈ graph := by
        rcases List.mem_cons.mp hx with rfl | hmem
        · exact absurd rfl hn
        · exact hmem
      have hsame : (n ∈ x :: seen) = (n ∈ seen) := by simp [hn]
      have hlt := ih hmem
      simp only [hsame]
      omega

theorem unseen_mono {seen seen' : List Node} (h : forall n, n ∈ seen -> n ∈ seen') :
    unseen graph seen' ≤ unseen graph seen := by
  apply List.countP_mono_left
  intro n _ hn
  simp only [decide_eq_true_eq] at hn ⊢
  exact fun hseen => hn (h n hseen)

/-!
# The first search

The nodes that are seen but not yet on the stack are those the search is in.
-/

def ClosedAt (graph : List Node) (next : Node -> List Node)
    (postOrder : List Node) (z : Node) : Prop :=
  exists above below, postOrder = above ++ z :: below ∧
    forall w, Reach graph next z w -> w ∈ z :: below

def Open (s : OrderState Node) (n : Node) : Prop :=
  n ∈ s.seen ∧ n ∉ s.postOrder

structure OrderInvariant (graph : List Node) (next : Node -> List Node)
    (s : OrderState Node) : Prop where
  nodup : s.postOrder.Nodup
  subset : forall y, y ∈ s.postOrder -> y ∈ s.seen
  inGraph : forall y, y ∈ s.seen -> y ∈ graph
  closed : forall y, y ∈ s.postOrder -> forall z, Step graph next y z ->
    z ∈ s.seen
  leader : forall y, y ∈ s.postOrder ->
    (exists z, Mutual graph next y z ∧ ClosedAt graph next s.postOrder z) ∨
      exists n, Open s n ∧ Mutual graph next n y

structure Grows (s s' : OrderState Node) : Prop where
  seen : forall n, n ∈ s.seen -> n ∈ s'.seen
  opened : forall n, Open s' n <-> Open s n

omit [DecidableEq Node] in
theorem Grows.refl (s : OrderState Node) : Grows s s :=
  ⟨fun _ h => h, fun _ => Iff.rfl⟩

omit [DecidableEq Node] in
theorem Grows.trans {s₁ s₂ s₃ : OrderState Node} (h : Grows s₁ s₂)
    (h' : Grows s₂ s₃) : Grows s₁ s₃ :=
  ⟨fun n hn => h'.seen n (h.seen n hn),
    fun n => (h'.opened n).trans (h.opened n)⟩

omit [DecidableEq Node] in
theorem ClosedAt.cons {postOrder : List Node} (n : Node) (h : ClosedAt graph next postOrder z) :
    ClosedAt graph next (n :: postOrder) z := by
  rcases h with ⟨above, below, rfl, hreach⟩
  exact ⟨n :: above, below, rfl, hreach⟩

omit [DecidableEq Node] in
theorem OrderInvariant.push {s : OrderState Node} {node : Node}
    (h : OrderInvariant graph next s) (hnode : Open s node)
    (hreach : forall n, Open s n -> Reach graph next n node)
    (hnext : forall n, Step graph next node n -> n ∈ s.seen) :
    OrderInvariant graph next
      { s with postOrder := node :: s.postOrder } where
  nodup := List.nodup_cons.mpr ⟨hnode.2, h.nodup⟩
  subset := by
    intro y hy
    rcases List.mem_cons.mp hy with rfl | hy
    · exact hnode.1
    · exact h.subset y hy
  inGraph := h.inGraph
  closed := by
    intro y hy z hstep
    rcases List.mem_cons.mp hy with rfl | hy
    · exact hnext z hstep
    · exact h.closed y hy z hstep
  leader := by
    by_cases hother : exists n, Open s n ∧ n ≠ node ∧ Mutual graph next n node
    · -- some other open node is in the component of the one that is left
      rcases hother with ⟨n, hopen, hne, hmutual⟩
      have hopen' : Open { s with postOrder := node :: s.postOrder } n :=
        ⟨hopen.1, by simp [hne, hopen.2]⟩
      intro y hy
      rcases List.mem_cons.mp hy with rfl | hy
      · exact Or.inr ⟨n, hopen', hmutual⟩
      · rcases h.leader y hy with ⟨z, hz, hclosed⟩ | ⟨m, hm, hmy⟩
        · exact Or.inl ⟨z, hz, hclosed.cons node⟩
        · by_cases hmn : m = node
          · subst hmn
            exact Or.inr ⟨n, hopen', hmutual.trans hmy⟩
          · exact Or.inr ⟨m, ⟨hm.1, by simp [hmn, hm.2]⟩, hmy⟩
    · -- otherwise everything the node reaches has been left before
      have hclosed : ClosedAt graph next (node :: s.postOrder) node := by
        refine ⟨[], s.postOrder, rfl, ?_⟩
        intro w hw
        induction hw with
        | refl => exact List.mem_cons_self
        | tail hpath hstep ih =>
          rename_i w w'
          have hseen : w' ∈ s.seen := by
            rcases List.mem_cons.mp ih with rfl | hmem
            · exact hnext w' hstep
            · exact h.closed w hmem w' hstep
          by_contra hnot
          rw [List.mem_cons, not_or] at hnot
          have hopen : Open s w' := ⟨hseen, hnot.2⟩
          exact hother ⟨w', hopen, hnot.1, hreach w' hopen,
            Relation.ReflTransGen.tail hpath hstep⟩
      intro y hy
      rcases List.mem_cons.mp hy with rfl | hy
      · exact Or.inl ⟨y, Mutual.refl y, hclosed⟩
      · rcases h.leader y hy with ⟨z, hz, hclosed'⟩ | ⟨m, hm, hmy⟩
        · exact Or.inl ⟨z, hz, hclosed'.cons node⟩
        · by_cases hmn : m = node
          · subst hmn
            exact Or.inl ⟨m, hmy.symm, hclosed⟩
          · exact Or.inr ⟨m, ⟨hm.1, by simp [hmn, hm.2]⟩, hmy⟩

def Visits (graph : List Node) (next : Node -> List Node) (bound : Nat) :
    Prop :=
  forall node s, OrderInvariant graph next s -> node ∈ graph ->
    node ∉ s.seen -> unseen graph s.seen ≤ bound ->
    (forall n, Open s n -> Reach graph next n node) ->
    OrderInvariant graph next (orderNodes graph next bound node s) ∧
      Grows s (orderNodes graph next bound node s) ∧
      node ∈ (orderNodes graph next bound node s).seen

theorem visit_successors {bound : Nat} {node : Node}
    (hvisits : Visits graph next bound) (hgraph : node ∈ graph)
    (ns : List Node) (hns : forall n, n ∈ ns -> n ∈ next node)
    (s : OrderState Node) (h : OrderInvariant graph next s) (hbound : unseen graph s.seen ≤ bound)
    (hreach : forall n, Open s n -> Reach graph next n node) :
    let s' := ns.foldl
      (fun s n =>
        if n ∈ graph ∧ n ∉ s.seen then orderNodes graph next bound n s
        else s) s
    OrderInvariant graph next s' ∧ Grows s s' ∧
      forall n, n ∈ ns -> n ∈ graph -> n ∈ s'.seen := by
  induction ns generalizing s with
  | nil => exact ⟨h, Grows.refl s, by simp⟩
  | cons n ns ih =>
    have hn : n ∈ next node := hns n (by simp)
    have hrest : forall m, m ∈ ns -> m ∈ next node :=
      fun m hm => hns m (List.mem_cons_of_mem n hm)
    simp only [List.foldl_cons]
    split
    · rename_i hnew
      have hstep : Step graph next node n := ⟨hgraph, hnew.1, hn⟩
      rcases hvisits n s h hnew.1 hnew.2 hbound
        (fun m hm => Relation.ReflTransGen.tail (hreach m hm) hstep) with
        ⟨hinv, hgrows, hseen⟩
      have hbound' := Nat.le_trans (unseen_mono hgrows.seen) hbound
      rcases ih hrest _ hinv hbound'
        (fun m hm => hreach m ((hgrows.opened m).mp hm)) with
        ⟨hinv', hgrows', hall⟩
      refine ⟨hinv', hgrows.trans hgrows', ?_⟩
      intro m hm hmem
      rcases List.mem_cons.mp hm with rfl | hm
      · exact hgrows'.seen m hseen
      · exact hall m hm hmem
    · rename_i hold
      rcases ih hrest s h hbound hreach with ⟨hinv', hgrows', hall⟩
      refine ⟨hinv', hgrows', ?_⟩
      intro m hm hmem
      rcases List.mem_cons.mp hm with rfl | hm
      · apply hgrows'.seen
        by_contra hnot
        exact hold ⟨hmem, hnot⟩
      · exact hall m hm hmem

theorem orderNodes_visits (bound : Nat) : Visits graph next bound := by
  induction bound with
  | zero =>
    intro node s _ hgraph hnew hbound _
    have hlt := unseen_cons_lt hgraph hnew
    omega
  | succ bound ih =>
    intro node s h hgraph hnew hbound hreach
    let s₀ : OrderState Node := { s with seen := node :: s.seen }
    have hnode : node ∉ s.postOrder := fun hmem => hnew (h.subset node hmem)
    have hopen : forall n, Open s₀ n <-> n = node ∨ Open s n := by
      intro n
      constructor
      · intro ⟨hseen, hnot⟩
        rcases List.mem_cons.mp hseen with rfl | hseen
        · exact Or.inl rfl
        · exact Or.inr ⟨hseen, hnot⟩
      · rintro (rfl | hn)
        · exact ⟨List.mem_cons_self, hnode⟩
        · exact ⟨List.mem_cons_of_mem node hn.1, hn.2⟩
    have h₀ : OrderInvariant graph next s₀ :=
      { nodup := h.nodup
        subset := fun y hy => List.mem_cons_of_mem node (h.subset y hy)
        inGraph := by
          intro y hy
          rcases List.mem_cons.mp hy with rfl | hy
          · exact hgraph
          · exact h.inGraph y hy
        closed := fun y hy z hstep =>
          List.mem_cons_of_mem node (h.closed y hy z hstep)
        leader := by
          intro y hy
          rcases h.leader y hy with hleft | ⟨n, hn, hmutual⟩
          · exact Or.inl hleft
          · exact Or.inr ⟨n, (hopen n).mpr (Or.inr hn), hmutual⟩ }
    have hlt := unseen_cons_lt hgraph hnew
    have hreach₀ : forall n, Open s₀ n -> Reach graph next n node := by
      intro n hn
      rcases (hopen n).mp hn with rfl | hn
      · exact Relation.ReflTransGen.refl
      · exact hreach n hn
    have hbound₀ : unseen graph s₀.seen ≤ bound := by
      show unseen graph (node :: s.seen) ≤ bound
      omega
    rcases visit_successors ih hgraph (next node) (fun n hn => hn) s₀ h₀
      hbound₀ hreach₀ with ⟨hinv, hgrows, hall⟩
    let t := (next node).foldl
      (fun s n =>
        if n ∈ graph ∧ n ∉ s.seen then orderNodes graph next bound n s
        else s) s₀
    have hlast : orderNodes graph next (bound + 1) node s =
        { t with postOrder := node :: t.postOrder } := rfl
    rw [hlast]
    have hstill : Open t node :=
      (hgrows.opened node).mpr ((hopen node).mpr (Or.inl rfl))
    refine ⟨hinv.push hstill
      (fun n hn => hreach₀ n ((hgrows.opened n).mp hn))
      (fun n hstep => hall n hstep.2.2 hstep.2.1), ⟨?_, ?_⟩, hstill.1⟩
    · intro n hn
      exact hgrows.seen n (List.mem_cons_of_mem node hn)
    · intro n
      constructor
      · intro ⟨hseen, hnot⟩
        simp only [List.mem_cons, not_or] at hnot
        rcases (hopen n).mp ((hgrows.opened n).mp ⟨hseen, hnot.2⟩) with
          rfl | hn
        · exact absurd rfl hnot.1
        · exact hn
      · intro hn
        have hopen' := (hgrows.opened n).mpr ((hopen n).mpr (Or.inr hn))
        refine ⟨hopen'.1, ?_⟩
        simp only [List.mem_cons, not_or]
        refine ⟨?_, hopen'.2⟩
        rintro rfl
        exact hnew hn.1

theorem orderAll_spec (graph : List Node) (next : Node -> List Node) :
    (orderAll graph next).postOrder.Nodup ∧
      (forall y, y ∈ (orderAll graph next).postOrder <-> y ∈ graph) ∧
      forall y, y ∈ graph -> exists z, Mutual graph next y z ∧
        ClosedAt graph next (orderAll graph next).postOrder z := by
  have hloop : forall ns : List Node, (forall n, n ∈ ns -> n ∈ graph) ->
      forall s : OrderState Node, OrderInvariant graph next s ->
      (forall n, ¬ Open s n) ->
      let s' := ns.foldl
        (fun s n => if n ∉ s.seen then
          orderNodes graph next graph.length n s else s) s
      OrderInvariant graph next s' ∧ (forall n, ¬ Open s' n) ∧
        (forall n, n ∈ s.seen -> n ∈ s'.seen) ∧
        forall n, n ∈ ns -> n ∈ s'.seen := by
    intro ns
    induction ns with
    | nil => exact fun _ s h hopen => ⟨h, hopen, fun _ hn => hn, by simp⟩
    | cons n ns ih =>
      intro hns s h hopen
      have hrest : forall m, m ∈ ns -> m ∈ graph :=
        fun m hm => hns m (List.mem_cons_of_mem n hm)
      simp only [List.foldl_cons]
      split
      · rename_i hnew
        rcases orderNodes_visits graph.length n s h (hns n (by simp)) hnew
          List.countP_le_length (fun m hm => absurd hm (hopen m)) with
          ⟨hinv, hgrows, hseen⟩
        rcases ih hrest _ hinv
          (fun m hm => hopen m ((hgrows.opened m).mp hm)) with
          ⟨hinv', hopen', hmono, hall⟩
        refine ⟨hinv', hopen', fun m hm => hmono m (hgrows.seen m hm), ?_⟩
        intro m hm
        rcases List.mem_cons.mp hm with rfl | hm
        · exact hmono m hseen
        · exact hall m hm
      · rename_i hold
        rcases ih hrest s h hopen with ⟨hinv', hopen', hmono, hall⟩
        refine ⟨hinv', hopen', hmono, ?_⟩
        intro m hm
        rcases List.mem_cons.mp hm with rfl | hm
        · exact hmono m (by simpa using hold)
        · exact hall m hm
  have hinit : OrderInvariant graph next ⟨[], []⟩ :=
    { nodup := List.nodup_nil
      subset := by simp
      inGraph := by simp
      closed := by simp
      leader := by simp }
  rcases hloop graph (fun _ hn => hn) ⟨[], []⟩ hinit
    (fun n hn => by simp [Open] at hn) with ⟨hinv, hopen, _, hall⟩
  have hmem : forall y, y ∈ (orderAll graph next).postOrder <->
      y ∈ graph := by
    intro y
    constructor
    · exact fun hy => hinv.inGraph y (hinv.subset y hy)
    · intro hy
      by_contra hnot
      exact hopen y ⟨hall y hy, hnot⟩
  refine ⟨hinv.nodup, hmem, ?_⟩
  intro y hy
  rcases hinv.leader y ((hmem y).mpr hy) with hleader | ⟨n, hn, _⟩
  · exact hleader
  · exact absurd hn (hopen n)

/-!
# The second search
-/

structure Visited (graph : List Node) (next : Node -> List Node) (node : Node)
    (seen : List Node) (s' : ComponentState Node) (visited : List Node) :
    Prop where
  seen_iff : forall y, y ∈ s'.seen <-> y ∈ seen ∨ y ∈ visited
  nodup : visited.Nodup
  fresh : forall y, y ∈ visited -> y ∉ seen
  reached : forall y, y ∈ visited -> Reach graph next node y
  closed : forall y, y ∈ visited -> forall z, Step graph next y z ->
    z ∈ s'.seen

def Finds (graph : List Node) (next : Node -> List Node) (bound : Nat) :
    Prop :=
  forall node s, node ∈ graph -> node ∉ s.seen ->
    unseen graph s.seen ≤ bound ->
    exists visited, (findSCCs graph next bound node s).currSCC =
        s.currSCC ++ visited ∧ node ∈ visited ∧
      Visited graph next node s.seen (findSCCs graph next bound node s) visited

theorem find_successors {bound : Nat} {node : Node}
    (hfinds : Finds graph next bound) (hgraph : node ∈ graph)
    (ns : List Node) (hns : forall n, n ∈ ns -> n ∈ next node)
    (s : ComponentState Node) (hbound : unseen graph s.seen ≤ bound) :
    let s' := ns.foldl
      (fun s n =>
        if n ∈ graph ∧ n ∉ s.seen then findSCCs graph next bound n s
        else s) s
    exists visited, s'.currSCC = s.currSCC ++ visited ∧
      Visited graph next node s.seen s' visited ∧
      forall n, n ∈ ns -> n ∈ graph -> n ∈ s'.seen := by
  induction ns generalizing s with
  | nil =>
    refine ⟨[], by simp, ?_, by simp⟩
    exact ⟨by simp, List.nodup_nil, by simp, by simp, by simp⟩
  | cons n ns ih =>
    have hn : n ∈ next node := hns n (by simp)
    have hrest : forall m, m ∈ ns -> m ∈ next node :=
      fun m hm => hns m (List.mem_cons_of_mem n hm)
    simp only [List.foldl_cons]
    split
    · rename_i hnew
      have hstep : Step graph next node n := ⟨hgraph, hnew.1, hn⟩
      rcases hfinds n s hnew.1 hnew.2 hbound with
        ⟨visited, hcurr, hself, hvisited⟩
      have hmono : forall m, m ∈ s.seen ->
          m ∈ (findSCCs graph next bound n s).seen :=
        fun m hm => (hvisited.seen_iff m).mpr (Or.inl hm)
      rcases ih hrest _ (Nat.le_trans (unseen_mono hmono) hbound) with
        ⟨visited', hcurr', hvisited', hall⟩
      refine ⟨visited ++ visited', by rw [hcurr', hcurr, List.append_assoc],
        ⟨?_, ?_, ?_, ?_, ?_⟩, ?_⟩
      · intro y
        rw [hvisited'.seen_iff, hvisited.seen_iff, List.mem_append, or_assoc]
      · rw [List.nodup_append]
        refine ⟨hvisited.nodup, hvisited'.nodup, ?_⟩
        rintro y hy y' hy' rfl
        exact hvisited'.fresh y hy' ((hvisited.seen_iff y).mpr (Or.inr hy))
      · intro y hy
        rcases List.mem_append.mp hy with hy | hy
        · exact hvisited.fresh y hy
        · exact fun hseen => hvisited'.fresh y hy (hmono y hseen)
      · intro y hy
        rcases List.mem_append.mp hy with hy | hy
        · exact Relation.ReflTransGen.head hstep (hvisited.reached y hy)
        · exact hvisited'.reached y hy
      · intro y hy z hz
        rcases List.mem_append.mp hy with hy | hy
        · exact (hvisited'.seen_iff z).mpr
            (Or.inl (hvisited.closed y hy z hz))
        · exact hvisited'.closed y hy z hz
      · intro m hm hmem
        rcases List.mem_cons.mp hm with rfl | hm
        · exact (hvisited'.seen_iff m).mpr
            (Or.inl ((hvisited.seen_iff m).mpr (Or.inr hself)))
        · exact hall m hm hmem
    · rename_i hold
      rcases ih hrest s hbound with ⟨visited, hcurr, hvisited, hall⟩
      refine ⟨visited, hcurr, hvisited, ?_⟩
      intro m hm hmem
      rcases List.mem_cons.mp hm with rfl | hm
      · apply (hvisited.seen_iff m).mpr
        left
        by_contra hnot
        exact hold ⟨hmem, hnot⟩
      · exact hall m hm hmem

theorem findSCCs_finds (bound : Nat) : Finds graph next bound := by
  induction bound with
  | zero =>
    intro node s hgraph hnew hbound
    have hlt := unseen_cons_lt hgraph hnew
    omega
  | succ bound ih =>
    intro node s hgraph hnew hbound
    let s₀ : ComponentState Node :=
      { seen := node :: s.seen, currSCC := s.currSCC ++ [node] }
    have hlt := unseen_cons_lt hgraph hnew
    have hbound₀ : unseen graph s₀.seen ≤ bound := by
      show unseen graph (node :: s.seen) ≤ bound
      omega
    rcases find_successors ih hgraph (next node) (fun n hn => hn) s₀
      hbound₀ with ⟨visited, hcurr, hvisited, hall⟩
    refine ⟨node :: visited, ?_, List.mem_cons_self, ⟨?_, ?_, ?_, ?_, ?_⟩⟩
    · rw [findSCCs, hcurr]
      simp [s₀]
    · intro y
      rw [findSCCs, hvisited.seen_iff]
      simp only [s₀, List.mem_cons]
      tauto
    · refine List.nodup_cons.mpr ⟨?_, hvisited.nodup⟩
      intro hmem
      exact hvisited.fresh node hmem List.mem_cons_self
    · intro y hy
      rcases List.mem_cons.mp hy with rfl | hy
      · exact hnew
      · exact fun hseen =>
          hvisited.fresh y hy (List.mem_cons_of_mem node hseen)
    · intro y hy
      rcases List.mem_cons.mp hy with rfl | hy
      · exact Relation.ReflTransGen.refl
      · exact hvisited.reached y hy
    · intro y hy z hz
      rcases List.mem_cons.mp hy with rfl | hy
      · exact hall z hz.2.2 hz.2.1
      · exact hvisited.closed y hy z hz

/-!
# The components
-/

/-- The components of a list are the classes of mutually reachable nodes. -/
structure AreComponents (graph : List Node) (next : Node -> List Node)
    (sccs : List (List Node)) : Prop where
  nonempty : forall scc, scc ∈ sccs -> scc ≠ []
  nodup : forall scc, scc ∈ sccs -> scc.Nodup
  disjoint : sccs.Pairwise List.Disjoint
  cover : forall y, y ∈ graph <-> exists scc, scc ∈ sccs ∧ y ∈ scc
  mutual_iff : forall scc, scc ∈ sccs -> forall x, x ∈ scc -> forall y,
    y ∈ scc <-> y ∈ graph ∧ Mutual graph next x y

structure PopInvariant (graph : List Node) (next : Node -> List Node)
    (above seen : List Node) (sccs : List (List Node)) : Prop where
  seen_iff : forall y, y ∈ seen <-> y ∈ graph ∧ exists z, z ∈ above ∧
    Mutual graph next z y
  nonempty : forall scc, scc ∈ sccs -> scc ≠ []
  nodup : forall scc, scc ∈ sccs -> scc.Nodup
  disjoint : sccs.Pairwise List.Disjoint
  cover : forall y, y ∈ seen <-> exists scc, scc ∈ sccs ∧ y ∈ scc
  mutual_iff : forall scc, scc ∈ sccs -> forall x, x ∈ scc -> forall y,
    y ∈ scc <-> y ∈ graph ∧ Mutual graph next x y

section Components

variable {prev : Node -> List Node}
  (hprev : forall x y, x ∈ graph -> y ∈ graph -> (y ∈ prev x <-> x ∈ next y))

include hprev

omit [DecidableEq Node] in
theorem reach_prev_iff : Reach graph prev x y <-> Reach graph next y x := by
  have hswap : Step graph prev = Function.swap (Step graph next) := by
    funext a b
    simp only [Step, Function.swap, eq_iff_iff]
    constructor
    · intro ⟨ha, hb, hmem⟩
      exact ⟨hb, ha, (hprev a b ha hb).mp hmem⟩
    · intro ⟨hb, ha, hmem⟩
      exact ⟨ha, hb, (hprev a b ha hb).mpr hmem⟩
  unfold Reach
  rw [hswap, Relation.reflTransGen_swap]

omit [DecidableEq Node] in
theorem visited_iff {above below seen visited : List Node} {node : Node}
    {s' : ComponentState Node} (hnodup : (above ++ node :: below).Nodup)
    (hmem : forall y, y ∈ above ++ node :: below <-> y ∈ graph)
    (hleader : forall y, y ∈ graph -> exists z, Mutual graph next y z ∧
      ClosedAt graph next (above ++ node :: below) z)
    (hseen : forall y, y ∈ seen <-> y ∈ graph ∧ exists z, z ∈ above ∧ Mutual graph next z y)
    (hnew : node ∉ seen) (hself : node ∈ visited)
    (hvisited : Visited graph prev node seen s' visited) (y : Node) :
    y ∈ visited <-> y ∈ graph ∧ Mutual graph next node y := by
  have hgraph : node ∈ graph := (hmem node).mp (by simp)
  constructor
  · intro hy
    have hback : Reach graph next y node :=
      (reach_prev_iff hprev).mp (hvisited.reached y hy)
    have hygraph : y ∈ graph := (hvisited.reached y hy).mem hgraph
    refine ⟨hygraph, ?_⟩
    rcases hleader y hygraph with ⟨z, hyz, above', below', hsplit, hclosed⟩
    have hz : node ∈ z :: below' :=
      hclosed node (Relation.ReflTransGen.trans hyz.2 hback)
    rcases List.mem_cons.mp hz with rfl | hbelow
    · exact hyz.symm
    · -- the leader is above the root, so its component was seen before
      exfalso
      have habove : z ∈ above := by
        have hzmem : z ∈ above ++ node :: below := by simp [hsplit]
        rcases List.append_eq_append_iff.mp hsplit with
          ⟨rest, hrest, hrest'⟩ | ⟨rest, hrest, hrest'⟩
        · exfalso
          rw [hsplit] at hnodup
          have hdisjoint := List.disjoint_of_nodup_append hnodup
          cases rest with
          | nil =>
            rw [List.nil_append] at hrest'
            injection hrest' with hhead htail
            subst hhead
            have hparts := (List.nodup_append.mp hnodup).2.1
            exact (List.nodup_cons.mp hparts).1 hbelow
          | cons m rest =>
            rw [List.cons_append] at hrest'
            injection hrest' with hhead htail
            subst hhead
            exact hdisjoint (by simp [hrest])
              (List.mem_cons_of_mem z hbelow)
        · cases rest with
          | nil =>
            rw [List.nil_append] at hrest'
            injection hrest' with hhead htail
            subst hhead
            exfalso
            rw [hsplit] at hnodup
            have hparts := (List.nodup_append.mp hnodup).2.1
            exact (List.nodup_cons.mp hparts).1 hbelow
          | cons m rest =>
            rw [List.cons_append] at hrest'
            injection hrest' with hhead htail
            subst hhead
            simp [hrest]
      exact hvisited.fresh y hy
        ((hseen y).mpr ⟨hygraph, z, habove, hyz.symm⟩)
  · intro ⟨hygraph, hmutual⟩
    have hfinish : Reach graph prev y node :=
      (reach_prev_iff hprev).mpr hmutual.1
    have hpath : Reach graph prev node y :=
      (reach_prev_iff hprev).mpr hmutual.2
    have hall : forall w, Reach graph prev node w -> Reach graph prev w y ->
        w ∈ visited := by
      intro w hw
      induction hw with
      | refl => exact fun _ => hself
      | tail hbefore hstep ih =>
        rename_i w w'
        intro hrest
        have hwvisited :=
          ih (Relation.ReflTransGen.head hstep hrest)
        rcases (hvisited.seen_iff w').mp
          (hvisited.closed w hwvisited w' hstep) with hold | hin
        · exfalso
          rcases (hseen w').mp hold with ⟨_, z, hz, hzw⟩
          have hcycle : Mutual graph next node w' :=
            ⟨(reach_prev_iff hprev).mp
                (Relation.ReflTransGen.trans hrest hfinish),
              (reach_prev_iff hprev).mp
                (Relation.ReflTransGen.tail hbefore hstep)⟩
          exact hnew ((hseen node).mpr
            ⟨hgraph, z, hz, hzw.trans hcycle.symm⟩)
        · exact hin
    exact hall y hpath Relation.ReflTransGen.refl

theorem popAll_spec (above below : List Node) {seen : List Node}
    {sccs : List (List Node)} (hnodup : (above ++ below).Nodup)
    (hmem : forall y, y ∈ above ++ below <-> y ∈ graph)
    (hleader : forall y, y ∈ graph -> exists z, Mutual graph next y z ∧
      ClosedAt graph next (above ++ below) z) (h : PopInvariant graph next above seen sccs) :
    AreComponents graph next (popAll graph prev below seen sccs) := by
  induction below generalizing above seen sccs with
  | nil =>
    rw [List.append_nil] at hmem
    refine ⟨h.nonempty, h.nodup, h.disjoint, ?_, h.mutual_iff⟩
    intro y
    rw [popAll, ← h.cover y, h.seen_iff]
    constructor
    · exact fun hy => ⟨hy, y, (hmem y).mpr hy, Mutual.refl y⟩
    · exact And.left
  | cons node below ih =>
    have happend : above ++ node :: below = above ++ [node] ++ below := by
      simp
    rw [popAll]
    split
    · rename_i hnew
      have hgraph : node ∈ graph := (hmem node).mp (by simp)
      rcases findSCCs_finds graph.length node ⟨seen, []⟩ hgraph hnew
        List.countP_le_length with ⟨visited, hcurr, hself, hvisited⟩
      have hcomponent := visited_iff hprev hnodup hmem hleader h.seen_iff
        hnew hself hvisited
      rw [happend] at hnodup hmem hleader
      apply ih _ hnodup hmem hleader
      rw [hcurr, List.nil_append]
      refine ⟨?_, ?_, ?_, ?_, ?_, ?_⟩
      · intro y
        rw [hvisited.seen_iff, h.seen_iff, hcomponent]
        simp only [List.mem_append, List.mem_singleton]
        constructor
        · rintro (⟨hy, z, hz, hzy⟩ | ⟨hy, hmutual⟩)
          · exact ⟨hy, z, Or.inl hz, hzy⟩
          · exact ⟨hy, node, Or.inr rfl, hmutual⟩
        · rintro ⟨hy, z, hz | rfl, hzy⟩
          · exact Or.inl ⟨hy, z, hz, hzy⟩
          · exact Or.inr ⟨hy, hzy⟩
      · intro scc hscc
        rcases List.mem_append.mp hscc with hscc | hscc
        · exact h.nonempty scc hscc
        · rw [List.mem_singleton.mp hscc]
          exact List.ne_nil_of_mem hself
      · intro scc hscc
        rcases List.mem_append.mp hscc with hscc | hscc
        · exact h.nodup scc hscc
        · rw [List.mem_singleton.mp hscc]
          exact hvisited.nodup
      · rw [List.pairwise_append]
        refine ⟨h.disjoint, List.pairwise_singleton _ _, ?_⟩
        intro scc hscc scc' hscc' y hy hy'
        rw [List.mem_singleton.mp hscc'] at hy'
        exact hvisited.fresh y hy' ((h.cover y).mpr ⟨scc, hscc, hy⟩)
      · intro y
        rw [hvisited.seen_iff, h.cover]
        simp only [List.mem_append, List.mem_singleton]
        constructor
        · rintro (⟨scc, hscc, hy⟩ | hy)
          · exact ⟨scc, Or.inl hscc, hy⟩
          · exact ⟨visited, Or.inr rfl, hy⟩
        · rintro ⟨scc, hscc | rfl, hy⟩
          · exact Or.inl ⟨scc, hscc, hy⟩
          · exact Or.inr hy
      · intro scc hscc x hx y
        rcases List.mem_append.mp hscc with hscc | hscc
        · exact h.mutual_iff scc hscc x hx y
        · rw [List.mem_singleton.mp hscc] at hx ⊢
          have hnx := ((hcomponent x).mp hx).2
          rw [hcomponent]
          constructor
          · exact fun hy => ⟨hy.1, hnx.symm.trans hy.2⟩
          · exact fun hy => ⟨hy.1, hnx.trans hy.2⟩
    · rename_i hold
      have hseen : node ∈ seen := by simpa using hold
      rw [happend] at hnodup hmem hleader
      apply ih _ hnodup hmem hleader
      refine ⟨?_, h.nonempty, h.nodup, h.disjoint, h.cover, h.mutual_iff⟩
      intro y
      rw [h.seen_iff]
      simp only [List.mem_append, List.mem_singleton]
      constructor
      · rintro ⟨hy, z, hz, hzy⟩
        exact ⟨hy, z, Or.inl hz, hzy⟩
      · rintro ⟨hy, z, hz | rfl, hzy⟩
        · exact ⟨hy, z, hz, hzy⟩
        · rcases (h.seen_iff z).mp hseen with ⟨_, w, hw, hwz⟩
          exact ⟨hy, w, hw, hwz.trans hzy⟩

theorem compute_spec : AreComponents graph next (compute graph next prev) := by
  rcases orderAll_spec graph next with ⟨hnodup, hmem, hleader⟩
  have hempty : PopInvariant graph next [] [] [] :=
    { seen_iff := by simp
      nonempty := by simp
      nodup := by simp
      disjoint := List.Pairwise.nil
      cover := by simp
      mutual_iff := by simp }
  unfold compute
  exact popAll_spec hprev [] _ hnodup hmem hleader hempty

omit [DecidableEq Node] in
theorem mutual_prev_iff : Mutual graph prev x y <-> Mutual graph next x y := by
  unfold Mutual
  rw [reach_prev_iff hprev, reach_prev_iff hprev, and_comm]

omit [DecidableEq Node] in
theorem AreComponents.of_prev {sccs : List (List Node)}
    (h : AreComponents graph prev sccs) : AreComponents graph next sccs where
  nonempty := h.nonempty
  nodup := h.nodup
  disjoint := h.disjoint
  cover := h.cover
  mutual_iff := by
    intro scc hscc x hx y
    rw [h.mutual_iff scc hscc x hx y, mutual_prev_iff hprev]

end Components

/-!
# The order of the components
-/

def EmittedInOrder (graph : List Node) (next : Node -> List Node)
    (sccs : List (List Node)) : Prop :=
  forall before scc after, sccs = before ++ scc :: after ->
    forall x, x ∈ scc -> forall y, Step graph next x y ->
      y ∈ scc ∨ exists scc', scc' ∈ before ∧ y ∈ scc'

omit [DecidableEq Node] in
theorem EmittedInOrder.concat {sccs : List (List Node)} {scc : List Node}
    (h : EmittedInOrder graph next sccs)
    (hlast : forall x, x ∈ scc -> forall y, Step graph next x y ->
      y ∈ scc ∨ exists scc', scc' ∈ sccs ∧ y ∈ scc') :
    EmittedInOrder graph next (sccs ++ [scc]) := by
  intro before scc' after hsplit x hx y hstep
  cases List.eq_nil_or_concat after with
  | inl hnil =>
    subst hnil
    rcases List.append_inj' hsplit rfl with ⟨hbefore, hscc⟩
    injection hscc with hscc
    rw [← hscc, ← hbefore]
    rw [← hscc] at hx
    exact hlast x hx y hstep
  | inr hconcat =>
    rcases hconcat with ⟨after, last, rfl⟩
    have hsplit' : sccs ++ [scc] = (before ++ scc' :: after) ++ [last] := by
      rw [hsplit]
      simp
    have hsccs := (List.append_inj' hsplit' rfl).1
    exact h before scc' after hsccs x hx y hstep

theorem popAll_emitted (stack : List Node) {seen : List Node}
    {sccs : List (List Node)} (hstack : forall n, n ∈ stack -> n ∈ graph)
    (hcover : forall y, y ∈ seen <-> exists scc, scc ∈ sccs ∧ y ∈ scc)
    (h : EmittedInOrder graph next sccs) :
    EmittedInOrder graph next (popAll graph next stack seen sccs) := by
  induction stack generalizing seen sccs with
  | nil => exact h
  | cons n stack ih =>
    have hrest : forall m, m ∈ stack -> m ∈ graph :=
      fun m hm => hstack m (List.mem_cons_of_mem n hm)
    rw [popAll]
    split
    · rename_i hnew
      rcases findSCCs_finds graph.length n ⟨seen, []⟩ (hstack n (by simp))
        hnew List.countP_le_length with ⟨visited, hcurr, _, hvisited⟩
      have hseen : forall y, y ∈ (findSCCs graph next graph.length n
          ⟨seen, []⟩).seen <-> y ∈ visited ∨
            exists scc, scc ∈ sccs ∧ y ∈ scc := by
        intro y
        rw [hvisited.seen_iff, hcover, or_comm]
      dsimp only
      rw [hcurr, List.nil_append]
      apply ih hrest
      · intro y
        rw [hseen, or_comm]
        simp only [List.mem_append, List.mem_singleton]
        constructor
        · rintro (⟨scc, hscc, hy⟩ | hy)
          · exact ⟨scc, Or.inl hscc, hy⟩
          · exact ⟨visited, Or.inr rfl, hy⟩
        · rintro ⟨scc, hscc | rfl, hy⟩
          · exact Or.inl ⟨scc, hscc, hy⟩
          · exact Or.inr hy
      · apply h.concat
        intro x hx y hstep
        exact (hseen y).mp (hvisited.closed x hx y hstep)
    · exact ih hrest hcover h

theorem compute_emitted (graph : List Node) (preds succs : Node -> List Node) :
    EmittedInOrder graph succs (compute graph preds succs) := by
  apply popAll_emitted
  · intro n hn
    exact ((orderAll_spec graph preds).2.1 n).mp hn
  · simp
  · intro before scc after hsplit
    simp at hsplit

def TargetsFirst (graph : List Node) (next : Node -> List Node)
    (sccs : List (List Node)) : Prop :=
  forall x y, Step graph next x y -> ¬ Mutual graph next x y ->
    exists before scc after scc', sccs = before ++ scc :: after ∧ x ∈ scc ∧
      scc' ∈ before ∧ y ∈ scc'

omit [DecidableEq Node] in
theorem EmittedInOrder.targetsFirst {sccs : List (List Node)} (h : EmittedInOrder graph next sccs)
    (hsccs : AreComponents graph next sccs) : TargetsFirst graph next sccs := by
  intro x y hstep hone
  rcases (hsccs.cover x).mp hstep.1 with ⟨scc, hscc, hx⟩
  rcases List.append_of_mem hscc with ⟨before, after, hsplit⟩
  rcases h before scc after hsplit x hx y hstep with hy | ⟨scc', hscc', hy⟩
  · exact absurd ((hsccs.mutual_iff scc hscc x hx y).mp hy).2 hone
  · exact ⟨before, scc, after, scc', hsplit, hx, hscc', hy⟩

theorem compute_upwards {preds succs : Node -> List Node}
    (hinverse : forall x y, x ∈ graph -> y ∈ graph -> (y ∈ preds x <-> x ∈ succs y)) :
    AreComponents graph succs (compute graph preds succs) ∧
      TargetsFirst graph succs (compute graph preds succs) := by
  have hback : forall x y, x ∈ graph -> y ∈ graph ->
      (y ∈ succs x <-> x ∈ preds y) :=
    fun x y hx hy => (hinverse y x hy hx).symm
  have hsccs := (compute_spec hback).of_prev hinverse
  exact ⟨hsccs, (compute_emitted graph preds succs).targetsFirst hsccs⟩

end StronglyConnectedComponents

end Boogie
