import Boogie.Graph.PostOrder

/-!
# Nodes that wait on the stack

The traversal that numbers the nodes is depth-first as long as no node is taken
from the stack before one of its successors that waits there.
-/

namespace Boogie

namespace DomRelation

variable {Node : Type} {g : Graph Node} {source curr x y : Node}
  {rest cs : List Node} {s s' : PostOrderState Node}

/-!
# The order of the numbers
-/

def PostOrderState.Ancestor (s : PostOrderState Node) : Node -> Node -> Prop :=
  Relation.ReflTransGen s.Parent

/-- The numbering is a depth-first post-order of the tree of the traversal. -/
structure IsPostOrder (g : Graph Node) (source : Node)
    (s : PostOrderState Node) : Prop extends
    IsNumbering g source s.numbered where
  order : forall u v, Relation.ReflTransGen g.Edge source u -> g.Edge u v ->
    ¬ s.Ancestor v u -> Precedes s.numbered v u

/--
When a node is taken from the stack for the first time, none of its successors
waits on the stack for being taken.
-/
def NoneWaiting [DecidableEq Node] (g : Graph Node) (source : Node) : Prop :=
  forall s, Steps g (initial source) s -> forall u rest,
    s.stack = u :: rest -> u ∉ s.grey ->
    forall v, g.Edge u v -> v ∈ rest -> v ∈ s.grey

def SettledFor (g : Graph Node) (P : Node -> Prop) (s : PostOrderState Node) :
    Prop :=
  forall u, P u -> u ∈ s.grey -> forall v, g.Edge u v ->
    Precedes s.line v u ∨ s.Ancestor v u

def Settled (g : Graph Node) (s : PostOrderState Node) : Prop :=
  forall u, u ∈ s.grey -> forall v, g.Edge u v ->
    Precedes s.line v u ∨ s.Ancestor v u

variable [DecidableEq Node]

theorem SettledFor.step {P : Node -> Prop} (h : SettledFor g P s)
    (hinv : Invariant g source s) (hstack : s.stack = curr :: rest)
    (hwaiting : P curr -> curr ∉ s.grey -> forall v, g.Edge curr v -> v ∈ rest -> v ∈ s.grey) :
    SettledFor g P (visit g curr rest s) := by
  rcases visit_cases (g := g) hstack with
    ⟨_, hvisit⟩ | ⟨hwhite, cs, hpushed, _, hall⟩
  · have hline : (visit g curr rest s).line = s.line := by
      rw [hvisit]
      unfold PostOrderState.line
      simp [hstack]
    intro u hP hu v hedge
    rw [hline]
    rw [hvisit] at hu ⊢
    exact h u hP hu v hedge
  · have hmono : forall {a b}, s.Ancestor a b ->
        (visit g curr rest s).Ancestor a b := by
      intro a b
      apply Relation.ReflTransGen.mono
      intro p c hp
      exact (hpushed.tree p c).mpr (Or.inl hp)
    intro u hP hu v hedge
    rw [hpushed.grey] at hu
    rcases List.mem_cons.mp hu with rfl | hu
    · rcases hall v hedge with hv | hv
      · have hline := (hinv.visited v).mp hv
        rcases List.mem_append.mp hline with hv | hv
        · left
          apply List.Sublist.trans _ hpushed.line_sublist
          exact Precedes.append hv (by simp [hstack])
        · right
          rw [hstack] at hv
          rcases List.mem_cons.mp hv with rfl | hv
          · exact Relation.ReflTransGen.refl
          · have hgrey := hwaiting hP hwhite v hedge hv
            have hancestor :=
              (hinv.ancestors [] u rest hstack v).mp ⟨hv, hgrey⟩
            exact hmono hancestor.to_reflTransGen
      · left
        rw [hpushed.line, ← List.append_assoc]
        exact Precedes.append (List.mem_append_right _ hv) (by simp [hstack])
    · rcases h u hP hu v hedge with hbefore | hancestor
      · exact Or.inl (hbefore.trans hpushed.line_sublist)
      · exact Or.inr (hmono hancestor)

theorem Settled.step (h : Settled g s) (hinv : Invariant g source s)
    (hstack : s.stack = curr :: rest)
    (hwaiting : curr ∉ s.grey -> forall v, g.Edge curr v -> v ∈ rest -> v ∈ s.grey) :
    Settled g (visit g curr rest s) := by
  have hall : SettledFor g (fun _ => True) s := fun u _ hu => h u hu
  have hnext := hall.step hinv hstack (fun _ => hwaiting)
  exact fun u hu => hnext u trivial hu

theorem settled_of_noneWaiting (h : NoneWaiting g source)
    (hsteps : Steps g (initial source) s) : Settled g s := by
  induction hsteps with
  | refl =>
    intro u hu
    cases hu
  | tail hbefore hstep ih =>
    rcases hstep with ⟨curr, rest, hstack, rfl⟩
    have hinv := (Invariant.initial g source).steps hbefore
    exact ih.step hinv hstack (h _ hbefore curr rest hstack)

/-- `u` is numbered before `v`, which is no ancestor of it. -/
structure Wrong (u v : Node) (s : PostOrderState Node) : Prop where
  order : Precedes s.line u v
  notAncestor : ¬ Relation.TransGen s.Parent v u

theorem Wrong.step {u v : Node} (h : Wrong u v s)
    (hinv : Invariant g source s) (hstack : s.stack = curr :: rest) :
    Wrong u v (visit g curr rest s) := by
  rcases visit_cases (g := g) hstack with
    ⟨_, hvisit⟩ | ⟨_, cs, hpushed, _, _⟩
  · have hline : (visit g curr rest s).line = s.line := by
      rw [hvisit]
      unfold PostOrderState.line
      simp [hstack]
    constructor
    · rw [hline]
      exact h.order
    · rw [hvisit]
      exact h.notAncestor
  · constructor
    · exact h.order.trans hpushed.line_sublist
    · rw [push_ancestor_old hinv hpushed h.order.mem_left]
      exact h.notAncestor

theorem Wrong.steps {u v : Node} (h : Wrong u v s)
    (hinv : Invariant g source s) (hsteps : Steps g s s') : Wrong u v s' := by
  induction hsteps with
  | refl => exact h
  | tail hbefore hstep ih =>
    rcases hstep with ⟨curr, rest, hstack, rfl⟩
    exact ih.step (hinv.steps hbefore) hstack

theorem step_unique : Relator.RightUnique (Step g) := by
  rintro s s₁ s₂ ⟨curr, rest, hstack, rfl⟩ ⟨curr', rest', hstack', rfl⟩
  rw [hstack] at hstack'
  cases hstack'
  rfl

theorem Steps.to_last {s₀ : PostOrderState Node} (h : Steps g s₀ s)
    (hlast : Steps g s₀ s') (hempty : s'.stack = []) : Steps g s s' := by
  rcases Relation.ReflTransGen.total_of_right_unique step_unique h hlast with
    hsteps | hback
  · exact hsteps
  · rcases Relation.ReflTransGen.cases_head hback with rfl | ⟨t, hstep, _⟩
    · exact Relation.ReflTransGen.refl
    · rcases hstep with ⟨curr, rest, hstack, _⟩
      rw [hempty] at hstack
      cases hstack

/--
The traversal numbers in post-order exactly when no node is taken from the
stack while one of its successors waits there.
-/
theorem postOrderVisitIterative_isPostOrder_iff (hsource : source ∈ g.ns) :
    (exists s, postOrderVisitIterative g source = some s ∧
      IsPostOrder g source s) <-> NoneWaiting g source := by
  rcases postOrderVisitIterative_some hsource with
    ⟨last, hlast, hsteps, hempty⟩
  have hinv := (Invariant.initial g source).steps hsteps
  have hline : last.line = last.numbered := by
    unfold PostOrderState.line
    rw [hempty, List.append_nil]
  constructor
  · rintro ⟨s, hs, hpost⟩
    rw [hlast] at hs
    cases hs
    intro t ht u rest hstack hwhite v hedge hv
    by_contra hnot
    have hinvt := (Invariant.initial g source).steps ht
    have hwrong : Wrong u v t := by
      constructor
      · unfold PostOrderState.line
        rw [hstack, ← List.singleton_append, ← List.append_assoc]
        exact Precedes.append (by simp) hv
      · intro hancestor
        exact hnot ((hinvt.ancestors [] u rest hstack v).mpr hancestor).2
    have hwrong' := hwrong.steps hinvt (ht.to_last hsteps hempty)
    have hne : v ≠ u := by
      rintro rfl
      have hnodup : (v :: rest).Nodup := by
        rw [← hstack]
        exact (List.nodup_append.mp hinvt.nodup).2.1
      exact (List.nodup_cons.mp hnodup).1 hv
    have hbefore := hpost.order u v
      (hinvt.reached u (curr_mem_line hstack)) hedge (by
        intro hancestor
        rcases Relation.reflTransGen_iff_eq_or_transGen.mp hancestor with
          heq | hproper
        · exact hne heq.symm
        · exact hwrong'.notAncestor hproper)
    have horder := hwrong'.order
    rw [hline] at horder
    exact horder.asymm (hinv.isNumbering hempty).nodup hbefore
  · intro h
    exists last
    constructor
    · exact hlast
    · constructor
      · exact hinv.isNumbering hempty
      · intro u v hu hedge hancestor
        have hmem := ((hinv.isNumbering hempty).mem_iff u).mpr hu
        have hsettled := settled_of_noneWaiting h hsteps u
          (hinv.numbered u hmem) v hedge
        rw [hline] at hsettled
        exact hsettled.resolve_right hancestor

/-!
# A join

The node `2`, which is put on the stack above `1`, has an edge to `1`.
-/

def joinGraph : Graph Nat :=
  (((Graph.empty.addSource 0).addEdge 0 1).addEdge 0 2).addEdge 2 1

theorem joinGraph_visited :
    (postOrderVisitIterative joinGraph 0).map (fun s => (s.numbered, s.tree)) =
      some ([2, 1, 0], [(0, 2), (0, 1)]) := by
  decide

theorem joinGraph_wrong {s : PostOrderState Nat}
    (hs : postOrderVisitIterative joinGraph 0 = some s) :
    ¬ IsPostOrder joinGraph 0 s := by
  have hvisited := joinGraph_visited
  rw [hs, Option.map_some, Option.some.injEq, Prod.mk.injEq] at hvisited
  intro h
  have hreach : Relation.ReflTransGen joinGraph.Edge 0 2 :=
    Relation.ReflTransGen.single (by simp [joinGraph])
  have hancestor : ¬ s.Ancestor 1 2 := by
    intro h
    rcases Relation.ReflTransGen.cases_head h with heq | ⟨c, hc, _⟩
    · cases heq
    · unfold PostOrderState.Parent at hc
      rw [hvisited.2] at hc
      simp at hc
  have hbefore := h.order 2 1 hreach (by simp [joinGraph]) hancestor
  rw [hvisited.1] at hbefore
  unfold Precedes at hbefore
  revert hbefore
  decide

theorem joinGraph_waiting : ¬ NoneWaiting joinGraph 0 := by
  intro h
  rcases (postOrderVisitIterative_isPostOrder_iff (by decide)).mpr h with
    ⟨s, hs, hpost⟩
  exact joinGraph_wrong hs hpost

theorem joinGraph_not_postOrder :
    ¬ exists s, postOrderVisitIterative joinGraph 0 = some s ∧ IsPostOrder joinGraph 0 s := by
  rintro ⟨s, hs, hpost⟩
  exact joinGraph_wrong hs hpost

end DomRelation

end Boogie
