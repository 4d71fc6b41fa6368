import Boogie.Graph.DomRelationPasses
import Mathlib.Data.List.Chain

/-!
# Dominance

The queries on the computed tree answer questions about the paths of the graph.
-/

namespace Boogie

namespace Graph

variable {Node : Type} {g : Graph Node} {source a b x y z : Node}

structure IsPath (g : Graph Node) (a b : Node) (path : List Node) : Prop where
  chain : path.IsChain g.Edge
  head : path.head? = some a
  last : path.getLast? = some b

/-- `y` lies on every path from the source to `x`. -/
def Dominates (g : Graph Node) (source y x : Node) : Prop :=
  forall path, g.IsPath source x path -> y ∈ path

def ReachesAvoiding (g : Graph Node) (y a b : Node) : Prop :=
  a ≠ y ∧ Relation.ReflTransGen (fun u v => g.Edge u v ∧ v ≠ y) a b

theorem IsPath.cons {path : List Node} (hedge : g.Edge x a)
    (h : g.IsPath a b path) : g.IsPath x b (x :: path) := by
  constructor
  · rw [List.isChain_cons]
    constructor
    · intro c hc
      rw [h.head] at hc
      cases hc
      exact hedge
    · exact h.chain
  · rfl
  · rw [List.getLast?_cons, h.last]
    rfl

theorem reachesAvoiding_iff :
    g.ReachesAvoiding y a b <-> exists path, g.IsPath a b path ∧ y ∉ path := by
  constructor
  · intro ⟨hne, hreach⟩
    induction hreach using Relation.ReflTransGen.head_induction_on with
    | refl =>
      exists [b]
      constructor
      · constructor
        · exact List.isChain_singleton b
        · rfl
        · rfl
      · simpa using hne.symm
    | head hstep hafter ih =>
      rename_i a c
      rcases ih hstep.2 with ⟨path, hpath, hnot⟩
      exists a :: path
      constructor
      · exact hpath.cons hstep.1
      · intro hmem
        rcases List.mem_cons.mp hmem with heq | hmem
        · exact hne heq.symm
        · exact hnot hmem
  · intro ⟨path, hpath, hnot⟩
    induction path generalizing a with
    | nil => cases hpath.head
    | cons c path ih =>
      have hc : c = a := by
        have hhead := hpath.head
        cases hhead
        rfl
      subst hc
      have hne : c ≠ y := fun heq => hnot (heq ▸ List.mem_cons_self)
      constructor
      · exact hne
      · cases path with
        | nil =>
          have hlast := hpath.last
          cases hlast
          exact Relation.ReflTransGen.refl
        | cons d path =>
          have hchain := List.isChain_cons.mp hpath.chain
          have hedge : g.Edge c d := hchain.1 d rfl
          have hrest : g.IsPath d b (d :: path) := by
            constructor
            · exact hchain.2
            · rfl
            · have hlast := hpath.last
              rwa [List.getLast?_cons_cons] at hlast
          have hreach := ih hrest
            (fun hmem => hnot (List.mem_cons_of_mem c hmem))
          exact Relation.ReflTransGen.head ⟨hedge, hreach.1⟩ hreach.2

theorem dominates_iff :
    g.Dominates source y x <-> ¬ g.ReachesAvoiding y source x := by
  rw [reachesAvoiding_iff]
  unfold Dominates
  constructor
  · intro h ⟨path, hpath, hnot⟩
    exact hnot (h path hpath)
  · intro h path hpath
    by_contra hnot
    exact h ⟨path, hpath, hnot⟩

theorem ReachesAvoiding.reaches (h : g.ReachesAvoiding y a b) :
    Relation.ReflTransGen g.Edge a b := by
  have hmono : forall u v, g.Edge u v ∧ v ≠ y -> g.Edge u v :=
    fun _ _ hstep => hstep.1
  exact Relation.ReflTransGen.mono hmono _ _ h.2

theorem ReachesAvoiding.ne (h : g.ReachesAvoiding y a b) : b ≠ y := by
  rcases Relation.ReflTransGen.cases_tail h.2 with heq | ⟨c, _, hstep⟩
  · exact heq ▸ h.1
  · exact hstep.2

theorem ReachesAvoiding.tail (h : g.ReachesAvoiding y a b)
    (hedge : g.Edge b x) (hne : x ≠ y) : g.ReachesAvoiding y a x :=
  ⟨h.1, h.2.tail ⟨hedge, hne⟩⟩

theorem ReachesAvoiding.head (h : g.ReachesAvoiding y a b)
    (hedge : g.Edge x a) (hne : x ≠ y) : g.ReachesAvoiding y x b :=
  ⟨hne, Relation.ReflTransGen.head ⟨hedge, h.1⟩ h.2⟩

theorem ReachesAvoiding.trans (h : g.ReachesAvoiding y a b)
    (h' : g.ReachesAvoiding y b x) : g.ReachesAvoiding y a x :=
  ⟨h.1, h.2.trans h'.2⟩

theorem Dominates.mem (hsource : source ∈ g.ns) (hreach : Relation.ReflTransGen g.Edge source x)
    (h : g.Dominates source y x) : y ∈ g.ns := by
  by_contra hnot
  apply dominates_iff.mp h
  constructor
  · intro heq
    exact hnot (heq ▸ hsource)
  · have hmono : forall u v, g.Edge u v -> g.Edge u v ∧ v ≠ y := by
      intro u v hedge
      exact ⟨hedge, fun heq => hnot (heq ▸ (g.endpoints _ hedge).2)⟩
    exact Relation.ReflTransGen.mono hmono _ _ hreach

theorem Dominates.refl (x : Node) : g.Dominates source x x := by
  rw [dominates_iff]
  intro h
  exact h.ne rfl

end Graph

namespace DomRelation

open ParentTree Dominators

variable {Node : Type} [DecidableEq Node] {g : Graph Node} {source x y z : Node}
  {D : DomRelation Node} {fuel i j : Nat}

/-!
# Dominators of numbers and of nodes
-/

section Tree

variable (h : IsDominatorTree g source D)

include h

theorem reachesAvoiding_of_avoiding (hy : nodeToPostOrderNumber D.numbered y = some j)
    (havoid : Avoiding g.ns.length (PredNum g D.numbered) j i)
    (hx : nodeToPostOrderNumber D.numbered x = some i) :
    g.ReachesAvoiding y source x := by
  induction havoid generalizing x with
  | root hne =>
    have heq := toNumber_injective hx h.numbers.last
    subst heq
    constructor
    · intro heq
      subst heq
      rw [hx] at hy
      cases hy
      exact hne rfl
    · exact Relation.ReflTransGen.refl
  | step hbefore hpred hne ih =>
    rcases hpred with ⟨x', p, hx', hp, hedge⟩
    rw [toNode_of_toNumber hx] at hx'
    cases hx'
    apply (ih (toNumber_of_toNode h.numbers.nodup hp)).tail hedge
    intro heq
    subst heq
    rw [hx] at hy
    cases hy
    exact hne rfl

theorem avoiding_of_reachesAvoiding (hy : nodeToPostOrderNumber D.numbered y = some j)
    (hreach : g.ReachesAvoiding y source x) (hx : nodeToPostOrderNumber D.numbered x = some i) :
    Avoiding g.ns.length (PredNum g D.numbered) j i := by
  rcases hreach with ⟨hne, hreach⟩
  have hnumber : forall {a k}, a ≠ y ->
      nodeToPostOrderNumber D.numbered a = some k -> k ≠ j := by
    intro a k hay ha heq
    subst heq
    exact hay (toNumber_injective ha hy)
  induction hreach generalizing i with
  | refl =>
    have heq := h.numbers.last
    rw [hx] at heq
    cases heq
    exact Avoiding.root (hnumber hne hx)
  | tail hbefore hstep ih =>
    rename_i b c
    have hb : b ∈ D.numbered :=
      (h.numbers.mem_iff b).mpr (g.endpoints _ hstep.1).1
    rcases exists_toNumber hb with ⟨k, hk⟩
    apply Avoiding.step (ih hk) _ (hnumber hstep.2 hx)
    exact ⟨c, b, toNode_of_toNumber hx, toNode_of_toNumber hk, hstep.1⟩

theorem climbs_iff_dominates (hx : nodeToPostOrderNumber D.numbered x = some i)
    (hy : nodeToPostOrderNumber D.numbered y = some j) :
    Climbs D.doms i j <-> g.Dominates source y x := by
  have hbounds := toNumber_bounds hx
  rw [h.numbers.length_eq] at hbounds
  rw [h.climbs_iff i j hbounds.1 hbounds.2, Graph.dominates_iff]
  apply not_congr
  constructor
  · intro havoid
    exact reachesAvoiding_of_avoiding h hy havoid hx
  · intro hreach
    exact avoiding_of_reachesAvoiding h hy hreach hx

theorem exists_number (hx : x ∈ g.ns) :
    exists i, nodeToPostOrderNumber D.numbered x = some i ∧ D.doms i ≠ 0 := by
  rcases exists_toNumber ((h.numbers.mem_iff x).mpr hx) with ⟨i, hi⟩
  have hbounds := toNumber_bounds hi
  rw [h.numbers.length_eq] at hbounds
  exact ⟨i, hi, h.set i hbounds.1 hbounds.2⟩

theorem exists_node (hi : D.doms i ≠ 0) :
    exists x, x ∈ g.ns ∧ nodeToPostOrderNumber D.numbered x = some i := by
  have hle := h.rooted.le_root hi
  rw [← h.numbers.length_eq] at hle
  rcases exists_toNode (h.rooted.pos hi) hle with ⟨x, hx⟩
  have hnumber := toNumber_of_toNode h.numbers.nodup hx
  exact ⟨x, (h.numbers.mem_iff x).mp (toNumber_eq_some.mp hnumber).1, hnumber⟩

/-!
# Queries
-/

theorem dominatedByLoop_spec (current : Nat) (path : List Node)
    (hset : D.doms current ≠ 0) (hfuel : g.ns.length < current + fuel) :
    exists b between, dominatedByLoop D j fuel current path = some (b, path ++ between) ∧
      (b = true <-> Climbs D.doms current j) ∧ (b = true -> forall z, z ∈ between <-> exists k,
        nodeToPostOrderNumber D.numbered z = some k ∧ Climbs D.doms current k ∧ k < j) := by
  induction fuel generalizing current path with
  | zero => exact absurd hfuel (Nat.not_lt.mpr (h.rooted.le_root hset))
  | succ fuel ih =>
    rw [dominatedByLoop]
    by_cases hfound : current = j
    · rw [if_pos hfound]
      subst hfound
      exists true, []
      constructor
      · rw [List.append_nil]
      · constructor
        · simp [Climbs.refl]
        · intro _ z
          constructor
          · intro hz
            cases hz
          · intro ⟨k, _, hclimb, hlt⟩
            exact absurd hlt (Nat.not_lt.mpr hclimb.le)
    · rw [if_neg hfound]
      by_cases hroot : current = g.ns.length
      · rw [h.sourceNum, if_pos hroot]
        subst hroot
        exists false, []
        constructor
        · rw [List.append_nil]
        · constructor
          · constructor
            · intro hfalse
              cases hfalse
            · intro hclimb
              exact absurd (h.rooted.eq_root hclimb).symm hfound
          · intro hfalse
            cases hfalse
      · rw [h.sourceNum, if_neg hroot]
        rcases exists_node h hset with ⟨x, _, hx⟩
        rw [toNode_of_toNumber hx]
        dsimp only
        have hup := h.rooted.up current hroot hset
        have hmore : g.ns.length < D.doms current + fuel := by
          omega
        rcases ih (D.doms current) (path ++ [x]) (h.rooted.set current hset)
          hmore with ⟨b, between, hloop, hiff, hbetween⟩
        have hclimb : Climbs D.doms current j <->
            Climbs D.doms (D.doms current) j := by
          constructor
          · intro hclimb
            rcases hclimb.eq_or_head with heq | ⟨_, hrest⟩
            · exact absurd heq hfound
            · exact hrest
          · exact Climbs.head hup
        exists b, x :: between
        constructor
        · rw [hloop, List.append_assoc]
          rfl
        · constructor
          · rw [hiff, hclimb]
          · intro htrue z
            have hcurrent : current < j :=
              Nat.lt_of_lt_of_le hup (hiff.mp htrue).le
            rw [List.mem_cons, hbetween htrue]
            constructor
            · intro hz
              rcases hz with heq | ⟨k, hk, hrest, hlt⟩
              · subst heq
                exact ⟨current, hx, Climbs.refl current, hcurrent⟩
              · exact ⟨k, hk, Climbs.head hup hrest, hlt⟩
            · intro ⟨k, hk, hrest, hlt⟩
              rcases hrest.eq_or_head with heq | ⟨_, hrest⟩
              · subst heq
                exact Or.inl (toNumber_injective hk hx)
              · exact Or.inr ⟨k, hk, hrest, hlt⟩

theorem dominatedBy_spec (hx : x ∈ g.ns) (hy : y ∈ g.ns) (hfuel : g.ns.length < fuel) :
    exists b between, dominatedBy fuel D x y = some (b, between) ∧
      (b = true <-> g.Dominates source y x) ∧
      (b = true -> forall z, z ∈ between <-> z ∈ g.ns ∧ z ≠ x ∧ z ≠ y ∧
        g.Dominates source z x ∧ g.Dominates source y z) := by
  rcases exists_number h hx with ⟨i, hi, hset⟩
  rcases exists_number h hy with ⟨j, hj, hset'⟩
  unfold dominatedBy
  rw [hi, hj]
  dsimp only
  by_cases heq : i = j
  · rw [if_pos heq]
    subst heq
    have hxy := toNumber_injective hi hj
    subst hxy
    exists true, []
    constructor
    · rfl
    · constructor
      · simp [Graph.Dominates.refl]
      · intro _ z
        constructor
        · intro hz
          cases hz
        · intro ⟨hz, hne, _, hzx, hxz⟩
          exfalso
          rcases exists_number h hz with ⟨k, hk, _⟩
          have hle := ((climbs_iff_dominates h hi hk).mpr hzx).le
          have hle' := ((climbs_iff_dominates h hk hi).mpr hxz).le
          have hik := Nat.le_antisymm hle hle'
          subst hik
          exact hne (toNumber_injective hk hi)
  · rw [if_neg heq]
    rcases dominatedByLoop_spec h (j := j) (D.doms i) []
        (h.rooted.set i hset)
        (Nat.lt_of_lt_of_le hfuel (Nat.le_add_left fuel _)) with
      ⟨b, between, hloop, hiff, hbetween⟩
    have hclimb : Climbs D.doms i j <-> Climbs D.doms (D.doms i) j := by
      constructor
      · intro hclimb
        rcases hclimb.eq_or_head with heq' | ⟨_, hrest⟩
        · exact absurd heq' heq
        · exact hrest
      · intro hrest
        by_cases hroot : i = g.ns.length
        · rw [hroot, h.rooted.root] at hrest
          rw [hroot]
          exact hrest
        · exact Climbs.head (h.rooted.up i hroot hset) hrest
    exists b, between
    constructor
    · exact hloop
    · constructor
      · rw [hiff, ← hclimb, climbs_iff_dominates h hi hj]
      · intro htrue z
        have hij := hclimb.mpr (hiff.mp htrue)
        have hroot : i ≠ g.ns.length := by
          intro hroot
          subst hroot
          exact heq (h.rooted.eq_root hij).symm
        have hup := h.rooted.up i hroot hset
        rw [hbetween htrue]
        constructor
        · intro ⟨k, hk, hrest, hlt⟩
          have hik := Climbs.head hup hrest
          constructor
          · exact (h.numbers.mem_iff z).mp (toNumber_eq_some.mp hk).1
          · constructor
            · intro hzx
              subst hzx
              rw [hk] at hi
              cases hi
              exact absurd hup (Nat.not_lt.mpr hrest.le)
            · constructor
              · intro hzy
                subst hzy
                rw [hk] at hj
                cases hj
                exact Nat.lt_irrefl _ hlt
              · constructor
                · exact (climbs_iff_dominates h hi hk).mp hik
                · apply (climbs_iff_dominates h hk hj).mp
                  exact hik.linear hij (Nat.le_of_lt hlt)
        · intro ⟨hz, hzx, hzy, hdom, hdom'⟩
          rcases exists_number h hz with ⟨k, hk, _⟩
          have hik := (climbs_iff_dominates h hi hk).mpr hdom
          have hkj := (climbs_iff_dominates h hk hj).mpr hdom'
          rcases hik.eq_or_head with hik' | ⟨_, hrest⟩
          · subst hik'
            exact absurd (toNumber_injective hk hi) hzx
          · apply Exists.intro k
            constructor
            · exact hk
            · constructor
              · exact hrest
              · apply Nat.lt_of_le_of_ne hkj.le
                intro heq'
                subst heq'
                exact hzy (toNumber_injective hk hj)

theorem leastCommonAncestor_spec (hx : x ∈ g.ns) (hy : y ∈ g.ns)
    (hfuel : g.ns.length + g.ns.length < fuel) :
    exists c, leastCommonAncestor fuel D x y = some c ∧ c ∈ g.ns ∧
      g.Dominates source c x ∧ g.Dominates source c y ∧
      forall z, z ∈ g.ns -> g.Dominates source z x ->
        g.Dominates source z y -> g.Dominates source z c := by
  rcases exists_number h hx with ⟨i, hi, hset⟩
  rcases exists_number h hy with ⟨j, hj, hset'⟩
  rcases intersect_spec h.rooted hset hset' hfuel with
    ⟨k, hk, hik, hjk, hfirst⟩
  rcases exists_node h (h.rooted.set_of_climbs hset hik) with ⟨c, hc, hck⟩
  exists c
  constructor
  · unfold leastCommonAncestor
    rw [hi, hj]
    dsimp only
    rw [hk]
    exact toNode_of_toNumber hck
  · constructor
    · exact hc
    · constructor
      · exact (climbs_iff_dominates h hi hck).mp hik
      · constructor
        · exact (climbs_iff_dominates h hj hck).mp hjk
        · intro z hz hzx hzy
          rcases exists_number h hz with ⟨m, hm, _⟩
          apply (climbs_iff_dominates h hck hm).mp
          apply hfirst
          · exact (climbs_iff_dominates h hi hm).mpr hzx
          · exact (climbs_iff_dominates h hj hm).mpr hzy

/-!
# The order of the dominators
-/

theorem dominates_trans (hx : x ∈ g.ns) (hy : y ∈ g.ns) (hz : z ∈ g.ns)
    (hxy : g.Dominates source x y) (hyz : g.Dominates source y z) :
    g.Dominates source x z := by
  rcases exists_number h hx with ⟨i, hi, _⟩
  rcases exists_number h hy with ⟨j, hj, _⟩
  rcases exists_number h hz with ⟨k, hk, _⟩
  apply (climbs_iff_dominates h hk hi).mp
  exact ((climbs_iff_dominates h hk hj).mpr hyz).trans
    ((climbs_iff_dominates h hj hi).mpr hxy)

theorem dominates_antisymm (hx : x ∈ g.ns) (hy : y ∈ g.ns)
    (hxy : g.Dominates source x y) (hyx : g.Dominates source y x) : x = y := by
  rcases exists_number h hx with ⟨i, hi, _⟩
  rcases exists_number h hy with ⟨j, hj, _⟩
  have hle := ((climbs_iff_dominates h hj hi).mpr hxy).le
  have hle' := ((climbs_iff_dominates h hi hj).mpr hyx).le
  have heq := Nat.le_antisymm hle hle'
  subst heq
  exact toNumber_injective hi hj

theorem dominates_linear (hx : x ∈ g.ns) (hy : y ∈ g.ns) (hz : z ∈ g.ns)
    (hxz : g.Dominates source x z) (hyz : g.Dominates source y z) :
    g.Dominates source x y ∨ g.Dominates source y x := by
  rcases exists_number h hx with ⟨i, hi, _⟩
  rcases exists_number h hy with ⟨j, hj, _⟩
  rcases exists_number h hz with ⟨k, hk, _⟩
  have hki := (climbs_iff_dominates h hk hi).mpr hxz
  have hkj := (climbs_iff_dominates h hk hj).mpr hyz
  rcases Nat.le_total i j with hle | hle
  · exact Or.inr ((climbs_iff_dominates h hi hj).mp (hki.linear hkj hle))
  · exact Or.inl ((climbs_iff_dominates h hj hi).mp (hkj.linear hki hle))

end Tree

/-!
# The tentative trees
-/

/-- The contents of `doms` before node `m` is processed. -/
inductive Tentative (fuel : Nat) (g : Graph Node) (l : List Node) :
    Nat -> (Nat -> Nat) -> Prop where
  | initial : Tentative fuel g l (g.ns.length - 1)
      (Function.update (fun _ => 0) g.ns.length g.ns.length)
  | process {m idom : Nat} {doms : Nat -> Nat} {predecessors : List Nat} :
      Tentative fuel g l (m + 1) doms ->
      predecessorNumbers g l (m + 1) = some predecessors ->
      newIdom fuel doms predecessors = some idom ->
      Tentative fuel g l m (Function.update doms (m + 1) idom)
  | restart {doms : Nat -> Nat} : Tentative fuel g l 0 doms ->
      Tentative fuel g l (g.ns.length - 1) doms

theorem Tentative.approximates {l : List Node} {m : Nat} {doms : Nat -> Nat}
    {parent : Nat -> Nat} (h : Numbers g source l) (hpos : 0 < g.ns.length)
    (hspan : Spanned g.ns.length (PredNum g l) parent) (hfuel : g.ns.length + g.ns.length < fuel)
    (htentative : Tentative fuel g l m doms) :
    m < g.ns.length ∧ Approximates g.ns.length (PredNum g l) parent m doms := by
  have hlast : g.ns.length - 1 < g.ns.length := Nat.pred_lt_of_lt hpos
  induction htentative with
  | initial => exact ⟨hlast, Approximates.initial hpos⟩
  | process hbefore hpredecessors hidom ih =>
    rename_i m idom doms predecessors
    rcases process_spec h hspan hfuel (Nat.succ_pos m) ih.1 ih.2 with
      ⟨predecessors', idom', hpredecessors', hidom', hmeet⟩
    rw [hpredecessors] at hpredecessors'
    cases hpredecessors'
    rw [hidom] at hidom'
    cases hidom'
    exact ⟨Nat.lt_of_succ_lt ih.1,
      Approximates.step hspan ih.2 (Nat.succ_pos m) ih.1 hmeet⟩
  | restart hbefore ih => exact ⟨hlast, ih.2.restart⟩

def Increases (g : Graph Node) (fuel : Nat) (doms : Nat -> Nat) : Prop :=
  (forall i, i ≠ g.ns.length -> doms i ≠ 0 -> i < doms i) ∧
    forall i j, doms i ≠ 0 -> doms j ≠ 0 ->
      (intersect fuel doms i j).isSome = true

theorem Tentative.increases {l : List Node} {m : Nat} {doms : Nat -> Nat}
    (h : Numbers g source l) (hpos : 0 < g.ns.length) (hfuel : g.ns.length + g.ns.length < fuel)
    (htentative : Tentative fuel g l m doms) : Increases g fuel doms := by
  rcases exists_spanned h with ⟨parent, hspan⟩
  have hrooted := (htentative.approximates h hpos hspan hfuel).2.rooted
  constructor
  · exact hrooted.up
  · intro i j hi hj
    rcases intersect_spec hrooted hi hj hfuel with ⟨c, hc, _⟩
    rw [hc]
    rfl

/--
The computation of the dominators ends, all tentative trees on the way are
ordered by the numbers, and the queries are answered with dominance.
-/
theorem newComputeDominators_dominatedBy (hsource : source ∈ g.ns)
    (hreach : forall x, x ∈ g.ns -> Relation.ReflTransGen g.Edge source x) :
    exists bound, forall fuel, bound ≤ fuel -> exists D,
      newComputeDominators fuel g source = some D ∧
      (forall m doms, Tentative fuel g D.numbered m doms -> Increases g fuel doms) ∧
      forall x y, x ∈ g.ns -> y ∈ g.ns -> exists b between,
        dominatedBy fuel D x y = some (b, between) ∧ (b = true <-> g.Dominates source y x) := by
  exists enoughFuel g
  intro fuel hfuel
  have hpos : 0 < g.ns.length := List.length_pos_of_mem hsource
  have hless := twice_lt_of_enoughFuel hfuel
  rcases newComputeDominators_spec hsource hreach hfuel with ⟨D, hD, htree⟩
  exists D
  constructor
  · exact hD
  · constructor
    · intro m doms htentative
      exact htentative.increases htree.numbers hpos hless
    · intro x y hx hy
      rcases dominatedBy_spec htree hx hy
          (Nat.lt_of_le_of_lt (Nat.le_add_left _ _) hless) with
        ⟨b, between, hquery, hiff, _⟩
      exact ⟨b, between, hquery, hiff⟩

/-- Both branches of a diamond reach the join, so only the source dominates it. -/
theorem diamond_dominatedBy :
    let g : Graph Nat := ((((Graph.empty.addSource 0).addEdge 0 1).addEdge 0
      2).addEdge 1 3).addEdge 2 3
    exists bound, forall fuel, bound ≤ fuel -> exists D,
      newComputeDominators fuel g 0 = some D ∧
      exists b between, dominatedBy fuel D 3 0 = some (b, between) ∧
        (b = true <-> g.Dominates 0 0 3) := by
  intro g
  have hedges : g.Edge 0 1 ∧ g.Edge 0 2 ∧ g.Edge 1 3 := by simp [g]
  have hreach : forall x, x ∈ g.ns -> Relation.ReflTransGen g.Edge 0 x := by
    intro x hx
    have hnodes : x = 0 ∨ x = 1 ∨ x = 2 ∨ x = 3 := by
      simpa [g, Graph.addSource, Graph.addEdge, Graph.empty, hashSetAdd] using hx
    rcases hnodes with heq | heq | heq | heq
    · rw [heq]
    · rw [heq]
      exact Relation.ReflTransGen.single hedges.1
    · rw [heq]
      exact Relation.ReflTransGen.single hedges.2.1
    · rw [heq]
      exact (Relation.ReflTransGen.single hedges.1).tail hedges.2.2
  have hsource : 0 ∈ g.ns := by simp [g]
  rcases newComputeDominators_dominatedBy hsource hreach with ⟨bound, hbound⟩
  exists bound
  intro fuel hfuel
  rcases hbound fuel hfuel with ⟨D, hD, _, hqueries⟩
  exact ⟨D, hD, hqueries 3 0 (by simp [g]) (by simp [g])⟩

end DomRelation

end Boogie
