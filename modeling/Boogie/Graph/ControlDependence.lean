import Boogie.Foundation.Dictionary
import Boogie.Graph.Dominance
import Boogie.Graph.Dual

/-!
# Control dependence

The dependences of an edge are read off the tree of post-dominators of the dual
graph.  An edge whose target post-dominates its source has none.
-/

namespace Boogie

namespace Graph

variable {Node : Type} [DecidableEq Node]

def dominatorMap (fuel : Nat) (g : Graph Node) : Option (DomRelation Node) :=
  match g.source with
  | none => none
  | some source => DomRelation.newComputeDominators fuel g source

def edgeDependences (fuel : Nat) (pdom : DomRelation Node) (edge : Node × Node) :
    Option (List Node) :=
  match pdom.leastCommonAncestor fuel edge.1 edge.2 with
  | none => none
  | some L =>
    if L = edge.1 then
      match pdom.dominatedBy fuel edge.2 edge.1 with
      | none => none
      | some (_, deps) => some (deps ++ [edge.2] ++ [edge.1])
    else
      match pdom.dominatedBy fuel edge.2 L with
      | none => none
      | some (_, deps) => some (deps ++ [edge.2])

def addDependences (result : Dictionary Node (List Node)) (n : Node)
    (deps : List Node) : Dictionary Node (List Node) :=
  match result.tryGetValue n with
  | some old => result.set n (deps.foldl hashSetAdd old)
  | none => result.set n (deps.foldl hashSetAdd [])

/-- One edge, which is in `S` if its target does not dominate its source. -/
def controlDependenceEdge (fuel : Nat) (pdom : DomRelation Node)
    (result : Dictionary Node (List Node)) (edge : Node × Node) :
    Option (Dictionary Node (List Node)) :=
  match pdom.dominatedBy fuel edge.1 edge.2 with
  | none => none
  | some (true, _) => some result
  | some (false, _) =>
    match edgeDependences fuel pdom edge with
    | none => none
    | some deps => some (addDependences result edge.1 deps)

def controlDependence (fuel : Nat) (g : Graph Node) (dummySource : Node) :
    Option (Dictionary Node (List Node)) :=
  match g.dual fuel dummySource with
  | none => none
  | some d =>
    match d.dominatorMap fuel with
    | none => none
    | some pdom =>
      g.es.foldlM (controlDependenceEdge fuel pdom) Dictionary.empty

def dependencesOf (result : Dictionary Node (List Node)) (n : Node) :
    List Node :=
  (result.tryGetValue n).getD []

/-!
# The dependences of an edge
-/

section Edge

variable {d : Graph Node} {s A B S : Node} {pdom : DomRelation Node}
  {fuel : Nat}

/-- `B` post-dominates the target of an edge, but not strictly its source. -/
def Controls (d : Graph Node) (s A S B : Node) : Prop :=
  d.Dominates s B S ∧ ¬ (B ≠ A ∧ d.Dominates s B A)

open DomRelation

theorem edgeDependences_spec (h : IsDominatorTree d s pdom) (hs : s ∈ d.ns)
    (hreach : forall x, x ∈ d.ns -> Relation.ReflTransGen d.Edge s x)
    (hfuel : d.ns.length + d.ns.length < fuel) (hA : A ∈ d.ns) (hS : S ∈ d.ns)
    (hnot : ¬ d.Dominates s S A) :
    exists deps, edgeDependences fuel pdom (A, S) = some deps ∧
      forall B, B ∈ deps <-> Controls d s A S B := by
  have hless : d.ns.length < fuel :=
    Nat.lt_of_le_of_lt (Nat.le_add_left _ _) hfuel
  have hmem : forall {B}, d.Dominates s B S -> B ∈ d.ns :=
    fun hB => hB.mem hs (hreach S hS)
  rcases leastCommonAncestor_spec h hA hS hfuel with
    ⟨L, hL, hLmem, hLA, hLS, hfirst⟩
  rcases dominatedBy_spec h hS hLmem hless with ⟨b, between, hquery, hb, hbetween⟩
  have hspec := hbetween (hb.mpr hLS)
  unfold edgeDependences
  rw [hL]
  dsimp only
  by_cases heq : L = A
  · subst heq
    rw [if_pos rfl, hquery]
    exists between ++ [S] ++ [L]
    constructor
    · rfl
    · intro B
      rw [List.mem_append, List.mem_append, List.mem_singleton,
        List.mem_singleton, hspec]
      constructor
      · intro hB
        rcases hB with (⟨hBmem, _, hne, hBS, hLB⟩ | heq) | heq
        · constructor
          · exact hBS
          · intro ⟨_, hBL⟩
            exact hne (dominates_antisymm h hBmem hA hBL hLB)
        · rw [heq]
          constructor
          · exact Dominates.refl S
          · intro ⟨_, hSL⟩
            exact hnot hSL
        · rw [heq]
          constructor
          · exact hLS
          · intro ⟨hne, _⟩
            exact hne rfl
      · intro ⟨hBS, hstrict⟩
        by_cases hBL : B = L
        · exact Or.inr hBL
        · by_cases hBeq : B = S
          · exact Or.inl (Or.inr hBeq)
          · left
            left
            rcases dominates_linear h (hmem hBS) hA hS hBS hLS with hdom | hdom
            · exact absurd ⟨hBL, hdom⟩ hstrict
            · exact ⟨hmem hBS, hBeq, hBL, hBS, hdom⟩
  · rw [if_neg heq, hquery]
    exists between ++ [S]
    constructor
    · rfl
    · intro B
      rw [List.mem_append, List.mem_singleton, hspec]
      constructor
      · intro hB
        rcases hB with ⟨hBmem, _, hne, hBS, hLB⟩ | hBeq
        · constructor
          · exact hBS
          · intro ⟨_, hBA⟩
            have hBL := hfirst B hBmem hBA hBS
            exact hne (dominates_antisymm h hBmem hLmem hBL hLB)
        · rw [hBeq]
          constructor
          · exact Dominates.refl S
          · intro ⟨_, hSA⟩
            exact hnot hSA
      · intro ⟨hBS, hstrict⟩
        by_cases hBeq : B = S
        · exact Or.inr hBeq
        · left
          -- Above the least common ancestor all post-dominate the source.
          have hBL : ¬ d.Dominates s B L := by
            intro hBL
            by_cases hBA : B = A
            · subst hBA
              exact heq (dominates_antisymm h hLmem hA hLA hBL)
            · exact hstrict
                ⟨hBA, dominates_trans h (hmem hBS) hLmem hA hBL hLA⟩
          rcases dominates_linear h (hmem hBS) hLmem hS hBS hLS with hdom | hdom
          · exact absurd hdom hBL
          · constructor
            · exact hmem hBS
            · constructor
              · exact hBeq
              · constructor
                · intro hBeq'
                  rw [hBeq'] at hBL
                  exact hBL (Dominates.refl L)
                · exact ⟨hBS, hdom⟩

end Edge

/-!
# The dependences of a graph
-/

theorem mem_dependencesOf_addDependences {result : Dictionary Node (List Node)}
    {n m b : Node} {deps : List Node} :
    b ∈ dependencesOf (addDependences result n deps) m <->
      b ∈ dependencesOf result m ∨ (m = n ∧ b ∈ deps) := by
  unfold dependencesOf addDependences
  by_cases hm : m = n
  · subst hm
    cases hold : result.tryGetValue m with
    | none => simp [Dictionary.tryGetValue_set_self, mem_foldl_hashSetAdd]
    | some old => simp [Dictionary.tryGetValue_set_self, mem_foldl_hashSetAdd]
  · cases result.tryGetValue n with
    | none => simp [Dictionary.tryGetValue_set_of_ne hm, hm]
    | some old => simp [Dictionary.tryGetValue_set_of_ne hm, hm]

theorem mem_keys_addDependences {result : Dictionary Node (List Node)}
    {n m : Node} {deps : List Node} :
    m ∈ (addDependences result n deps).keys <-> m ∈ result.keys ∨ m = n := by
  unfold addDependences
  cases result.tryGetValue n with
  | none => exact Dictionary.mem_keys_set
  | some old => exact Dictionary.mem_keys_set

section Correct

variable {g d : Graph Node} {s A B S : Node} {pdom : DomRelation Node}
  {fuel : Nat}

open DomRelation

theorem foldlM_controlDependenceEdge (h : IsDominatorTree d s pdom) (hs : s ∈ d.ns)
    (hreach : forall x, x ∈ d.ns -> Relation.ReflTransGen d.Edge s x)
    (hfuel : d.ns.length + d.ns.length < fuel) (edges : List (Node × Node))
    (hedges : forall e, e ∈ edges -> e.1 ∈ d.ns ∧ e.2 ∈ d.ns)
    (result : Dictionary Node (List Node)) :
    exists r, edges.foldlM (controlDependenceEdge fuel pdom) result = some r ∧
      (forall A, A ∈ r.keys -> A ∈ result.keys ∨ exists S, (A, S) ∈ edges) ∧
      forall A B, B ∈ dependencesOf r A <-> B ∈ dependencesOf result A ∨
        exists S, (A, S) ∈ edges ∧ ¬ d.Dominates s S A ∧ Controls d s A S B := by
  induction edges generalizing result with
  | nil => exact ⟨result, rfl, fun _ hA => Or.inl hA, by simp⟩
  | cons e edges ih =>
    rcases e with ⟨A, S⟩
    have hrest := fun e he => hedges e (List.mem_cons_of_mem _ he)
    have hends := hedges (A, S) List.mem_cons_self
    rcases dominatedBy_spec h hends.1 hends.2
        (Nat.lt_of_le_of_lt (Nat.le_add_left _ _) hfuel) with
      ⟨b, between, hquery, hb, _⟩
    have hone : exists next,
        controlDependenceEdge fuel pdom result (A, S) = some next ∧
          (forall A', A' ∈ next.keys -> A' ∈ result.keys ∨ A' = A) ∧
          forall A' B, B ∈ dependencesOf next A' <->
            B ∈ dependencesOf result A' ∨
              (A' = A ∧ ¬ d.Dominates s S A ∧ Controls d s A S B) := by
      unfold controlDependenceEdge
      rw [hquery]
      cases b with
      | true =>
        exists result
        constructor
        · rfl
        · constructor
          · exact fun _ hA' => Or.inl hA'
          · intro A' B
            simp [hb.mp rfl]
      | false =>
        have hnot : ¬ d.Dominates s S A := by
          intro hdom
          cases hb.mpr hdom
        rcases edgeDependences_spec h hs hreach hfuel hends.1 hends.2 hnot
          with ⟨deps, hdeps, hmem⟩
        dsimp only
        rw [hdeps]
        exists addDependences result A deps
        constructor
        · rfl
        · constructor
          · exact fun _ hA' => mem_keys_addDependences.mp hA'
          · intro A' B
            rw [mem_dependencesOf_addDependences, hmem]
            simp [hnot]
    rcases hone with ⟨next, hnext, hkeys, hmem⟩
    rcases ih hrest next with ⟨r, hr, hkeys', hmem'⟩
    exists r
    constructor
    · rw [List.foldlM_cons, hnext]
      exact hr
    · constructor
      · intro A' hA'
        rcases hkeys' A' hA' with hA' | ⟨S', hS'⟩
        · rcases hkeys A' hA' with hA' | heq
          · exact Or.inl hA'
          · exact Or.inr ⟨S, heq ▸ List.mem_cons_self⟩
        · exact Or.inr ⟨S', List.mem_cons_of_mem _ hS'⟩
      · intro A' B
        rw [hmem', hmem, or_assoc]
        apply or_congr_right
        constructor
        · intro hB
          rcases hB with ⟨heq, hB⟩ | ⟨S', hS', hB⟩
          · exact ⟨S, heq ▸ List.mem_cons_self, heq ▸ hB⟩
          · exact ⟨S', List.mem_cons_of_mem _ hS', hB⟩
        · intro ⟨S', hS', hB⟩
          rcases List.mem_cons.mp hS' with heq | hS'
          · cases heq
            exact Or.inl ⟨rfl, hB⟩
          · exact Or.inr ⟨S', hS', hB⟩

theorem controlDependence_spec (g : Graph Node) (dummySource : Node) :
    exists bound d s, IsDual g dummySource d s ∧
      (exists pdom, IsDominatorTree d s pdom) ∧ forall fuel, bound ≤ fuel ->
        g.dual fuel dummySource = some d ∧ exists r, g.controlDependence fuel dummySource = some r ∧
          (forall A, A ∈ r.keys -> A ∈ g.ns) ∧
          forall A B, B ∈ dependencesOf r A <-> exists S, g.Edge A S ∧
            ¬ d.Dominates s S A ∧ Controls d s A S B := by
  rcases dual_isDual g dummySource with ⟨bound, d, s, hdual, h⟩
  exists bound + enoughFuel d, d, s
  constructor
  · exact h
  · constructor
    · rcases newComputeDominators_spec h.mem h.reaches
        (Nat.le_refl (enoughFuel d)) with ⟨pdom, _, htree⟩
      exact ⟨pdom, htree⟩
    · intro fuel hfuel
      have hrun := hdual fuel
        (Nat.le_trans (Nat.le_add_right bound (enoughFuel d)) hfuel)
      have henough : enoughFuel d ≤ fuel :=
        Nat.le_trans (Nat.le_add_left _ _) hfuel
      rcases newComputeDominators_spec h.mem h.reaches henough with
        ⟨pdom, hpdom, htree⟩
      have hedges : forall e, e ∈ g.es -> e.1 ∈ d.ns ∧ e.2 ∈ d.ns := by
        intro e he
        have hends := g.endpoints e he
        exact ⟨h.all e.1 hends.1, h.all e.2 hends.2⟩
      rcases foldlM_controlDependenceEdge htree h.mem h.reaches
        (twice_lt_of_enoughFuel henough) g.es hedges Dictionary.empty with
        ⟨r, hr, hkeys, hmem⟩
      constructor
      · exact hrun
      · exists r
        constructor
        · unfold controlDependence dominatorMap
          rw [hrun]
          dsimp only
          rw [h.source]
          dsimp only
          rw [hpdom]
          exact hr
        · constructor
          · intro A hA
            rcases hkeys A hA with hA | ⟨S, hS⟩
            · cases hA
            · exact (g.endpoints _ hS).1
          · intro A B
            rw [hmem]
            simp [dependencesOf, Edge]

/-- Some successor of `A` is post-dominated by `B`, which does not strictly
post-dominate `A`. -/
def ControlDependent (g d : Graph Node) (s A B : Node) : Prop :=
  (exists S, g.Edge A S ∧ d.Dominates s B S) ∧
    ¬ (B ≠ A ∧ d.Dominates s B A)

/--
The set of a node is that of the definition unless the node has an edge to
itself and post-dominates no other successor.
-/
theorem controlDependence_correct_iff (g : Graph Node) (dummySource : Node) :
    exists bound d s, IsDual g dummySource d s ∧ forall fuel, bound ≤ fuel ->
        g.dual fuel dummySource = some d ∧ exists r, g.controlDependence fuel dummySource = some r ∧
          forall A, (forall B, B ∈ dependencesOf r A <-> ControlDependent g d s A B) <->
            (g.Edge A A -> exists S, S ≠ A ∧ g.Edge A S ∧ d.Dominates s A S) := by
  rcases controlDependence_spec g dummySource with
    ⟨bound, d, s, h, ⟨pdom, htree⟩, hrun⟩
  exists bound, d, s
  constructor
  · exact h
  · intro fuel hfuel
    rcases hrun fuel hfuel with ⟨hdual, r, hr, _, hmem⟩
    constructor
    · exact hdual
    · exists r
      constructor
      · exact hr
      · intro A
        constructor
        · intro hcorrect hself
          have hdependent : ControlDependent g d s A A := by
            constructor
            · exact ⟨A, hself, Dominates.refl A⟩
            · intro hstrict
              exact hstrict.1 rfl
          rcases (hmem A A).mp ((hcorrect A).mpr hdependent) with
            ⟨S, hedge, hnot, hcontrols⟩
          exists S
          constructor
          · intro heq
            rw [heq] at hnot
            exact hnot (Dominates.refl A)
          · exact ⟨hedge, hcontrols.1⟩
        · intro hself B
          rw [hmem]
          constructor
          · intro ⟨S, hedge, _, hBS, hstrict⟩
            exact ⟨⟨S, hedge, hBS⟩, hstrict⟩
          · intro ⟨⟨S, hedge, hBS⟩, hstrict⟩
            have hA := h.all A (g.endpoints _ hedge).1
            have hS := h.all S (g.endpoints _ hedge).2
            by_cases hSA : d.Dominates s S A
            · -- `B` post-dominates `A`, so both are the same.
              have hB := hBS.mem h.mem (h.reaches S hS)
              have hBA : B = A := by
                by_contra hne
                exact hstrict ⟨hne, dominates_trans htree hB hS hA hBS hSA⟩
              rw [hBA] at hBS ⊢
              have heq := dominates_antisymm htree hA hS hBS hSA
              rw [← heq] at hedge
              rcases hself hedge with ⟨S', hne, hedge', hAS'⟩
              have hS' := h.all S' (g.endpoints _ hedge').2
              exists S'
              constructor
              · exact hedge'
              · constructor
                · intro hS'A
                  exact hne (dominates_antisymm htree hS' hA hS'A hAS')
                · constructor
                  · exact hAS'
                  · intro hstrict'
                    exact hstrict'.1 rfl
            · exact ⟨S, hedge, hSA, hBS, hstrict⟩

/-- A block that goes back to itself or to the exit depends on itself, but it
is mapped to nothing. -/
theorem selfLoop_not_dependent :
    let g : Graph Nat := (Graph.empty.addEdge 0 0).addEdge 0 1
    exists d r, g.dual 10 2 = some d ∧ d.source = some 1 ∧
      g.controlDependence 10 2 = some r ∧
      ¬ forall A B, B ∈ dependencesOf r A <-> ControlDependent g d 1 A B := by
  intro g
  have hsource : (g.dual 10 2).map Graph.source = some (some 1) := by
    decide
  have hempty : (g.controlDependence 10 2).map (fun r => dependencesOf r 0) =
      some [] := by
    decide
  rcases Option.map_eq_some_iff.mp hsource with ⟨d, hd, hs⟩
  rcases Option.map_eq_some_iff.mp hempty with ⟨r, hr, hnone⟩
  apply Exists.intro d
  apply Exists.intro r
  constructor
  · exact hd
  · constructor
    · exact hs
    · constructor
      · exact hr
      · intro hcorrect
        have hmem : 0 ∈ dependencesOf r 0 := by
          rw [hcorrect]
          constructor
          · exact ⟨0, by simp [g], Dominates.refl 0⟩
          · intro hstrict
            exact hstrict.1 rfl
        rw [hnone] at hmem
        cases hmem

end Correct

end Graph

end Boogie
