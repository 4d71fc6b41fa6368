import Boogie.Foundation.Dominators
import Boogie.Graph.PostOrder

/-!
# The dominators of a flow graph

The tentative immediate dominators of the numbered nodes are improved in passes
over all nodes until a pass changes nothing.  Every loop is bounded by `fuel`.
-/

namespace Boogie

/-- The array `doms` and the numbering, which starts with the node numbered `1`. -/
structure DomRelation (Node : Type) where
  doms : Nat -> Nat
  numbered : List Node
  sourceNum : Nat

namespace DomRelation

variable {Node : Type}

/-!
# The computation
-/

def postOrderNumberToNode (numbered : List Node) : Nat -> Option Node
  | 0 => none
  | i + 1 => numbered[i]?

def nodeToPostOrderNumber [DecidableEq Node] (numbered : List Node) (x : Node) :
    Option Nat :=
  if x ∈ numbered then some (numbered.idxOf x + 1) else none

/-- The loop `while (finger < bound)`. -/
def raise (doms : Nat -> Nat) (bound : Nat) : Nat -> Nat -> Option Nat
  | 0, _ => none
  | fuel + 1, finger =>
    if finger < bound then raise doms bound fuel (doms finger)
    else some finger

def intersectLoop (doms : Nat -> Nat) (limit : Nat) :
    Nat -> Nat -> Nat -> Option Nat
  | 0, _, _ => none
  | fuel + 1, finger1, finger2 =>
    if finger1 = finger2 then some finger1
    else
      match raise doms finger2 limit finger1 with
      | none => none
      | some finger1 =>
        match raise doms finger1 limit finger2 with
        | none => none
        | some finger2 => intersectLoop doms limit fuel finger1 finger2

def intersect (fuel : Nat) (doms : Nat -> Nat) (b1 b2 : Nat) : Option Nat :=
  intersectLoop doms fuel fuel b1 b2

def firstProcessed (doms : Nat -> Nat) (predecessors : List Nat) : Nat :=
  (predecessors.find? (fun p => doms p ≠ 0)).getD 0

def newIdom (fuel : Nat) (doms : Nat -> Nat) (predecessors : List Nat) :
    Option Nat :=
  predecessors.foldlM
    (fun idom p =>
      if p = firstProcessed doms predecessors then some idom
      else if doms p ≠ 0 then intersect fuel doms p idom
      else some idom)
    (firstProcessed doms predecessors)

section Passes

variable [DecidableEq Node]

def predecessorNumbers (g : Graph Node) (numbered : List Node)
    (nodeNum : Nat) : Option (List Nat) :=
  match postOrderNumberToNode numbered nodeNum with
  | none => none
  | some b => (g.predecessors b).mapM (nodeToPostOrderNumber numbered)

/-- The loop from `nodeNum` down to `1`, with the flag `changed`. -/
def pass (fuel : Nat) (g : Graph Node) (numbered : List Node) :
    Nat -> (Nat -> Nat) × Bool -> Option ((Nat -> Nat) × Bool)
  | 0, st => some st
  | nodeNum + 1, (doms, changed) =>
    match predecessorNumbers g numbered (nodeNum + 1) with
    | none => none
    | some predecessors =>
      match newIdom fuel doms predecessors with
      | none => none
      | some idom =>
        if doms (nodeNum + 1) ≠ idom then
          pass fuel g numbered nodeNum
            (Function.update doms (nodeNum + 1) idom, true)
        else pass fuel g numbered nodeNum (doms, changed)

/-- The loop `while (changed)`. -/
def passes (fuel : Nat) (g : Graph Node) (numbered : List Node) :
    Nat -> (Nat -> Nat) -> Option (Nat -> Nat)
  | 0, _ => none
  | rounds + 1, doms =>
    match pass fuel g numbered (g.ns.length - 1) (doms, false) with
    | none => none
    | some (doms, changed) =>
      if changed = true then passes fuel g numbered rounds doms
      else some doms

def newComputeDominators (fuel : Nat) (g : Graph Node) (source : Node) :
    Option (DomRelation Node) :=
  match postOrderVisitIterative g source with
  | none => none
  | some s =>
    match nodeToPostOrderNumber s.numbered source with
    | none => none
    | some sourceNum =>
      match passes fuel g s.numbered fuel
        (Function.update (fun _ => 0) sourceNum sourceNum) with
      | none => none
      | some doms => some ⟨doms, s.numbered, sourceNum⟩

/-!
# Queries
-/

def dominatedByLoop (D : DomRelation Node) (dominatorNum : Nat) :
    Nat -> Nat -> List Node -> Option (Bool × List Node)
  | 0, _, _ => none
  | fuel + 1, currentNodeNum, path =>
    if currentNodeNum = dominatorNum then some (true, path)
    else if currentNodeNum = D.sourceNum then some (false, path)
    else
      match postOrderNumberToNode D.numbered currentNodeNum with
      | none => none
      | some x =>
        dominatedByLoop D dominatorNum fuel (D.doms currentNodeNum)
          (path ++ [x])

def dominatedBy (fuel : Nat) (D : DomRelation Node) (dominee dominator : Node) :
    Option (Bool × List Node) :=
  match nodeToPostOrderNumber D.numbered dominee,
    nodeToPostOrderNumber D.numbered dominator with
  | some domineeNum, some dominatorNum =>
    if domineeNum = dominatorNum then some (true, [])
    else dominatedByLoop D dominatorNum fuel (D.doms domineeNum) []
  | _, _ => none

def leastCommonAncestor (fuel : Nat) (D : DomRelation Node) (n1 n2 : Node) :
    Option Node :=
  match nodeToPostOrderNumber D.numbered n1,
    nodeToPostOrderNumber D.numbered n2 with
  | some num1, some num2 =>
    match intersect fuel D.doms num1 num2 with
    | some lca => postOrderNumberToNode D.numbered lca
    | none => none
  | _, _ => none

end Passes

/-!
# Meeting points
-/

open ParentTree Dominators

variable {doms : Nat -> Nat} {n bound finger finger1 finger2 fuel : Nat}

theorem raise_spec (h : Rooted doms n) (hset : doms finger ≠ 0)
    (hbound : bound ≤ n) (hfuel : n < finger + fuel) :
    exists c, raise doms bound fuel finger = some c ∧ Climbs doms finger c ∧ bound ≤ c ∧
      forall y, Climbs doms finger y -> bound ≤ y -> Climbs doms c y := by
  induction fuel generalizing finger with
  | zero =>
    have hle := h.le_root hset
    exact absurd hfuel (Nat.not_lt.mpr hle)
  | succ fuel ih =>
    rw [raise]
    by_cases hlt : finger < bound
    · rw [if_pos hlt]
      have hne : finger ≠ n := Nat.ne_of_lt (Nat.lt_of_lt_of_le hlt hbound)
      have hup := h.up finger hne hset
      have hmore : n < doms finger + fuel := by
        apply Nat.lt_of_lt_of_le hfuel
        rw [← Nat.add_assoc, Nat.add_right_comm]
        exact Nat.add_le_add_right hup fuel
      rcases ih (h.set finger hset) hmore with ⟨c, hc, hclimb, hle, hfirst⟩
      exists c
      constructor
      · exact hc
      · constructor
        · exact Climbs.head hup hclimb
        · constructor
          · exact hle
          · intro y hy hby
            rcases hy.eq_or_head with heq | ⟨_, hrest⟩
            · rw [← heq] at hby
              exact absurd hlt (Nat.not_lt.mpr hby)
            · exact hfirst y hrest hby
    · rw [if_neg hlt]
      exact ⟨finger, rfl, Climbs.refl finger, Nat.le_of_not_lt hlt,
        fun y hy _ => hy⟩

theorem intersectLoop_spec {limit : Nat} (h : Rooted doms n)
    (hset1 : doms finger1 ≠ 0) (hset2 : doms finger2 ≠ 0) (hlimit : n < limit)
    (hfuel : n + n < finger1 + finger2 + fuel) :
    exists c, intersectLoop doms limit fuel finger1 finger2 = some c ∧
      Climbs doms finger1 c ∧ Climbs doms finger2 c ∧
      forall y, Climbs doms finger1 y -> Climbs doms finger2 y -> Climbs doms c y := by
  induction fuel generalizing finger1 finger2 with
  | zero =>
    have hle := Nat.add_le_add (h.le_root hset1) (h.le_root hset2)
    exact absurd hfuel (Nat.not_lt.mpr hle)
  | succ fuel ih =>
    rw [intersectLoop]
    by_cases heq : finger1 = finger2
    · rw [if_pos heq]
      subst heq
      exact ⟨finger1, rfl, Climbs.refl _, Climbs.refl _, fun y hy _ => hy⟩
    · rw [if_neg heq]
      rcases raise_spec h hset1 (h.le_root hset2)
          (Nat.lt_of_lt_of_le hlimit (Nat.le_add_left _ finger1)) with
        ⟨c1, hc1, hclimb1, hle1, hfirst1⟩
      have hset1' := h.set_of_climbs hset1 hclimb1
      rcases raise_spec h hset2 (h.le_root hset1')
          (Nat.lt_of_lt_of_le hlimit (Nat.le_add_left _ finger2)) with
        ⟨c2, hc2, hclimb2, hle2, hfirst2⟩
      have hset2' := h.set_of_climbs hset2 hclimb2
      have hmore : n + n < c1 + c2 + fuel := by
        have hle1' := hclimb1.le
        have hle2' := hclimb2.le
        omega
      rcases ih hset1' hset2' hmore with ⟨c, hc, hclimb1', hclimb2', hfirst⟩
      exists c
      constructor
      · rw [hc1]
        dsimp only
        rw [hc2]
        exact hc
      · constructor
        · exact hclimb1.trans hclimb1'
        · constructor
          · exact hclimb2.trans hclimb2'
          · intro y hy1 hy2
            have hy1' := hfirst1 y hy1 hy2.le
            exact hfirst y hy1' (hfirst2 y hy2 hy1'.le)

theorem intersect_spec {b1 b2 : Nat} (h : Rooted doms n) (hset1 : doms b1 ≠ 0)
    (hset2 : doms b2 ≠ 0) (hfuel : n + n < fuel) :
    exists c, intersect fuel doms b1 b2 = some c ∧ Climbs doms b1 c ∧ Climbs doms b2 c ∧
      forall y, Climbs doms b1 y -> Climbs doms b2 y -> Climbs doms c y := by
  apply intersectLoop_spec h hset1 hset2
  · exact Nat.lt_of_le_of_lt (Nat.le_add_left n n) hfuel
  · exact Nat.lt_of_lt_of_le hfuel (Nat.le_add_left _ _)

theorem foldl_intersect {first : Nat} (h : Rooted doms n)
    (hfuel : n + n < fuel) (predecessors : List Nat) (idom : Nat)
    (hset : doms idom ≠ 0) (hclimb : Climbs doms first idom) :
    exists c, predecessors.foldlM (fun idom p =>
          if p = first then some idom
          else if doms p ≠ 0 then intersect fuel doms p idom
          else some idom) idom = some c ∧ Climbs doms idom c ∧
      (forall p, p ∈ predecessors -> doms p ≠ 0 -> Climbs doms p c) ∧
      forall y, Climbs doms idom y ->
        (forall p, p ∈ predecessors -> doms p ≠ 0 -> Climbs doms p y) -> Climbs doms c y := by
  induction predecessors generalizing idom with
  | nil =>
    exact ⟨idom, rfl, Climbs.refl idom, by simp, fun y hy _ => hy⟩
  | cons p predecessors ih =>
    have hone : exists next, (if p = first then some idom
        else if doms p ≠ 0 then intersect fuel doms p idom
        else some idom) = some next ∧ Climbs doms idom next ∧
        (doms p ≠ 0 -> Climbs doms p next) ∧
        forall y, Climbs doms idom y -> (doms p ≠ 0 -> Climbs doms p y) ->
          Climbs doms next y := by
      by_cases hp : p = first
      · rw [if_pos hp]
        subst hp
        exact ⟨idom, rfl, Climbs.refl idom, fun _ => hclimb, fun y hy _ => hy⟩
      · rw [if_neg hp]
        by_cases hpset : doms p ≠ 0
        · rw [if_pos hpset]
          rcases intersect_spec h hpset hset hfuel with
            ⟨c, hc, hclimb1, hclimb2, hfirst⟩
          exact ⟨c, hc, hclimb2, fun _ => hclimb1,
            fun y hy hpy => hfirst y (hpy hpset) hy⟩
        · rw [if_neg hpset]
          exact ⟨idom, rfl, Climbs.refl idom,
            fun hpset' => absurd hpset' hpset, fun y hy _ => hy⟩
    rcases hone with ⟨next, hnext, hidom, hpnext, hfirst⟩
    rcases ih next (h.set_of_climbs hset hidom) (hclimb.trans hidom) with
      ⟨c, hc, hnextc, hall, hfirst'⟩
    exists c
    constructor
    · rw [List.foldlM_cons, hnext]
      exact hc
    · constructor
      · exact hidom.trans hnextc
      · constructor
        · intro q hq hqset
          rcases List.mem_cons.mp hq with heq | hq
          · subst heq
            exact (hpnext hqset).trans hnextc
          · exact hall q hq hqset
        · intro y hy hally
          apply hfirst' y
          · apply hfirst y hy
            intro hpset
            exact hally p List.mem_cons_self hpset
          · intro q hq hqset
            exact hally q (List.mem_cons_of_mem p hq) hqset

theorem newIdom_spec {predecessors : List Nat} {Pred : Nat -> Nat -> Prop}
    {b p : Nat} (h : Rooted doms n) (hfuel : n + n < fuel)
    (hpred : forall p, p ∈ predecessors <-> Pred b p) (hp : Pred b p) (hset : doms p ≠ 0) :
    exists c, newIdom fuel doms predecessors = some c ∧ IsMeet Pred doms b c := by
  have hsome : (predecessors.find? (fun p => doms p ≠ 0)).isSome = true := by
    rw [List.find?_isSome]
    exact ⟨p, (hpred p).mpr hp, by simpa using hset⟩
  rcases Option.isSome_iff_exists.mp hsome with ⟨first, hfind⟩
  have hfirst : firstProcessed doms predecessors = first := by
    unfold firstProcessed
    rw [hfind]
    rfl
  have hfirstset : doms first ≠ 0 := by simpa using List.find?_some hfind
  have hfirstmem := List.mem_of_find?_eq_some hfind
  rcases foldl_intersect h hfuel predecessors first hfirstset
    (Climbs.refl first) with ⟨c, hc, _, hall, hleast⟩
  exists c
  constructor
  · unfold newIdom
    rw [hfirst]
    exact hc
  · constructor
    · intro q hq hqset
      exact hall q ((hpred q).mpr hq) hqset
    · intro y hy
      apply hleast y
      · exact hy first ((hpred first).mp hfirstmem) hfirstset
      · intro q hq hqset
        exact hy q ((hpred q).mp hq) hqset

end DomRelation

end Boogie
