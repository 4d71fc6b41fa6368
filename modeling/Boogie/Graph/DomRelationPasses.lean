import Boogie.Graph.DomRelation
import Mathlib.Algebra.Order.BigOperators.Group.Finset

/-!
# The passes over the nodes

Each pass keeps the approximation of the dominators, and the pointers only grow,
so that some pass changes nothing.
-/

namespace Boogie

namespace DomRelation

open ParentTree Dominators

variable {Node : Type} [DecidableEq Node] {g : Graph Node} {source x y : Node}
  {l : List Node} {doms : Nat -> Nat} {fuel i j : Nat}

/-!
# Numbers and nodes
-/

omit [DecidableEq Node] in
theorem toNode_eq_some :
    postOrderNumberToNode l i = some x <-> exists k, i = k + 1 ∧ l[k]? = some x := by
  cases i with
  | zero => simp [postOrderNumberToNode]
  | succ k => simp [postOrderNumberToNode]

theorem toNumber_eq_some :
    nodeToPostOrderNumber l x = some i <-> x ∈ l ∧ i = l.idxOf x + 1 := by
  unfold nodeToPostOrderNumber
  by_cases hx : x ∈ l
  · simp [hx, eq_comm]
  · simp [hx]

theorem toNode_of_toNumber (h : nodeToPostOrderNumber l x = some i) :
    postOrderNumberToNode l i = some x := by
  rcases toNumber_eq_some.mp h with ⟨hx, rfl⟩
  exact List.getElem?_idxOf hx

theorem toNumber_of_toNode (hl : l.Nodup) (h : postOrderNumberToNode l i = some x) :
    nodeToPostOrderNumber l x = some i := by
  rcases toNode_eq_some.mp h with ⟨k, rfl, hk⟩
  apply toNumber_eq_some.mpr
  rcases List.getElem?_eq_some_iff.mp hk with ⟨hlt, hget⟩
  constructor
  · rw [← hget]
    exact List.getElem_mem hlt
  · rw [← hget, hl.idxOf_getElem k hlt]

theorem exists_toNumber (hx : x ∈ l) :
    exists i, nodeToPostOrderNumber l x = some i :=
  ⟨_, toNumber_eq_some.mpr ⟨hx, rfl⟩⟩

omit [DecidableEq Node] in
theorem exists_toNode (hi : 0 < i) (hle : i ≤ l.length) :
    exists x, postOrderNumberToNode l i = some x := by
  cases i with
  | zero => cases hi
  | succ k =>
    exact ⟨l[k], toNode_eq_some.mpr
      ⟨k, rfl, List.getElem?_eq_getElem (Nat.lt_of_succ_le hle)⟩⟩

theorem toNumber_bounds (h : nodeToPostOrderNumber l x = some i) :
    0 < i ∧ i ≤ l.length := by
  rcases toNumber_eq_some.mp h with ⟨hx, rfl⟩
  exact ⟨Nat.succ_pos _, List.idxOf_lt_length_iff.mpr hx⟩

theorem toNumber_injective (h : nodeToPostOrderNumber l x = some i)
    (h' : nodeToPostOrderNumber l y = some i) : x = y := by
  have hnode := toNode_of_toNumber h
  rw [toNode_of_toNumber h'] at hnode
  cases hnode
  rfl

theorem Precedes.toNumber_lt (hl : l.Nodup) (h : Precedes l x y)
    (hx : nodeToPostOrderNumber l x = some i)
    (hy : nodeToPostOrderNumber l y = some j) : i < j := by
  have hi := (toNumber_eq_some.mp hx).2
  have hj := (toNumber_eq_some.mp hy).2
  rw [hi, hj]
  apply Nat.succ_lt_succ
  clear hx hy hi hj
  induction l with
  | nil => cases h
  | cons z l ih =>
    rcases List.nodup_cons.mp hl with ⟨hz, hrest⟩
    cases h with
    | cons _ h =>
      have hx : x ≠ z := fun heq => hz (heq ▸ Precedes.mem_left h)
      have hy : y ≠ z := fun heq => hz (heq ▸ Precedes.mem_right h)
      rw [List.idxOf_cons_ne _ hx.symm, List.idxOf_cons_ne _ hy.symm]
      exact Nat.succ_lt_succ (ih hrest h)
    | cons_cons _ h =>
      have hy : y ≠ x := fun heq => hz (heq ▸ List.singleton_sublist.mp h)
      rw [List.idxOf_cons_self, List.idxOf_cons_ne _ hy.symm]
      exact Nat.succ_pos _

def PredNum (g : Graph Node) (l : List Node) (b p : Nat) : Prop :=
  exists x y, postOrderNumberToNode l b = some x ∧
    postOrderNumberToNode l p = some y ∧ g.Edge y x

structure Numbers (g : Graph Node) (source : Node) (l : List Node) : Prop where
  nodup : l.Nodup
  mem_iff : forall x, x ∈ l <-> x ∈ g.ns
  last : nodeToPostOrderNumber l source = some g.ns.length
  parent : forall x, x ∈ l -> x ≠ source ->
    exists p, g.Edge p x ∧ Precedes l x p

theorem Numbers.length_eq (h : Numbers g source l) : l.length = g.ns.length :=
  ((List.perm_ext_iff_of_nodup h.nodup g.nodup).mpr h.mem_iff).length_eq

theorem idxOf_of_getLast? (hl : l.Nodup) (h : l.getLast? = some x) :
    nodeToPostOrderNumber l x = some l.length := by
  have hne : l ≠ [] := by
    intro heq
    rw [heq] at h
    cases h
  have hpos : 0 < l.length := List.length_pos_iff.mpr hne
  apply toNumber_of_toNode hl
  apply toNode_eq_some.mpr
  exists l.length - 1
  constructor
  · exact (Nat.sub_add_cancel hpos).symm
  · rw [← h, List.getLast?_eq_getElem?]

theorem postOrderVisitIterative_numbers (hsource : source ∈ g.ns)
    (hreach : forall x, x ∈ g.ns -> Relation.ReflTransGen g.Edge source x) :
    exists s, postOrderVisitIterative g source = some s ∧ Numbers g source s.numbered := by
  rcases postOrderVisitIterative_some hsource with ⟨s, hs, hsteps, hempty⟩
  have hinv := (Invariant.initial g source).steps hsteps
  have hnumbering := hinv.isNumbering hempty
  have hmem : forall x, x ∈ s.numbered <-> x ∈ g.ns := by
    intro x
    rw [hnumbering.mem_iff]
    constructor
    · intro h
      cases h with
      | refl => exact hsource
      | tail _ hedge => exact (g.endpoints _ hedge).2
    · exact hreach x
  exists s
  constructor
  · exact hs
  · constructor
    · exact hnumbering.nodup
    · exact hmem
    · rw [idxOf_of_getLast? hnumbering.nodup hnumbering.last]
      rw [((List.perm_ext_iff_of_nodup hnumbering.nodup g.nodup).mpr
        hmem).length_eq]
    · intro x hx hne
      exact hinv.exists_parent hempty hx hne

section Numbered

variable (h : Numbers g source l)

include h

theorem predNum_bounds {b p : Nat} (hp : PredNum g l b p) :
    (0 < b ∧ b ≤ g.ns.length) ∧ 0 < p ∧ p ≤ g.ns.length := by
  rcases hp with ⟨x, y, hx, hy, _⟩
  have hb := toNumber_bounds (toNumber_of_toNode h.nodup hx)
  have hp := toNumber_bounds (toNumber_of_toNode h.nodup hy)
  rw [h.length_eq] at hb hp
  exact ⟨hb, hp⟩

theorem exists_spanned :
    exists parent, Spanned g.ns.length (PredNum g l) parent := by
  have hone : forall i, exists p, 0 < i -> i < g.ns.length ->
      i < p ∧ p ≤ g.ns.length ∧ PredNum g l i p := by
    intro i
    by_cases hi : 0 < i ∧ i < g.ns.length
    · rcases exists_toNode hi.1 (Nat.le_of_lt (h.length_eq ▸ hi.2)) with ⟨x, hx⟩
      have hnum := toNumber_of_toNode h.nodup hx
      have hne : x ≠ source := by
        intro heq
        rw [heq, h.last] at hnum
        cases hnum
        exact Nat.lt_irrefl _ hi.2
      rcases h.parent x (toNumber_eq_some.mp hnum).1 hne with
        ⟨y, hedge, hbefore⟩
      rcases exists_toNumber hbefore.mem_right with ⟨p, hp⟩
      have hpred : PredNum g l i p :=
        ⟨x, y, hx, toNode_of_toNumber hp, hedge⟩
      exists p
      intro _ _
      exact ⟨hbefore.toNumber_lt h.nodup hnum hp,
        (predNum_bounds h hpred).2.2, hpred⟩
    · exists 0
      intro hpos hlt
      exact absurd ⟨hpos, hlt⟩ hi
  choose parent hparent using hone
  exists parent
  constructor
  · intro x hx hxn
    exact (hparent x hx hxn).1
  · intro x hx hxn
    exact (hparent x hx hxn).2.1
  · intro x hx hxn
    exact (hparent x hx hxn).2.2

omit h in
theorem mapM_toNumber (xs : List Node) (hxs : forall x, x ∈ xs -> x ∈ l) :
    exists is, xs.mapM (nodeToPostOrderNumber l) = some is ∧ forall i, i ∈ is <-> exists x, x ∈ xs ∧
        nodeToPostOrderNumber l x = some i := by
  induction xs with
  | nil => exact ⟨[], by simp, by simp⟩
  | cons x xs ih =>
    rcases ih (fun y hy => hxs y (List.mem_cons_of_mem x hy)) with
      ⟨is, his, hmem⟩
    rcases exists_toNumber (hxs x List.mem_cons_self) with ⟨i, hi⟩
    exists i :: is
    constructor
    · simp [List.mapM_cons, hi, his]
    · intro j
      simp only [List.mem_cons, hmem, exists_eq_or_imp, hi, Option.some.injEq]
      rw [eq_comm]

theorem predecessorNumbers_spec {b : Nat} (hb : 0 < b) (hle : b ≤ g.ns.length) :
    exists predecessors, predecessorNumbers g l b = some predecessors ∧
      forall p, p ∈ predecessors <-> PredNum g l b p := by
  rcases exists_toNode hb (h.length_eq ▸ hle) with ⟨x, hx⟩
  have hmem : forall y, y ∈ g.predecessors x -> y ∈ l := by
    intro y hy
    exact (h.mem_iff y).mpr (g.endpoints _ (Graph.mem_predecessors.mp hy)).1
  rcases mapM_toNumber (g.predecessors x) hmem with ⟨is, his, hiff⟩
  exists is
  constructor
  · unfold predecessorNumbers
    rw [hx]
    exact his
  · intro p
    rw [hiff]
    constructor
    · intro ⟨y, hy, hp⟩
      exact ⟨x, y, hx, toNode_of_toNumber hp, Graph.mem_predecessors.mp hy⟩
    · intro ⟨x', y, hx', hy, hedge⟩
      rw [hx] at hx'
      cases hx'
      exact ⟨y, Graph.mem_predecessors.mpr hedge, toNumber_of_toNode h.nodup hy⟩

/-!
# One pass
-/

variable {parent : Nat -> Nat}
  (hspan : Spanned g.ns.length (PredNum g l) parent)
  (hfuel : g.ns.length + g.ns.length < fuel)

include hspan hfuel

theorem process_spec {m : Nat} (hm : 0 < m) (hmn : m < g.ns.length)
    (happrox : Approximates g.ns.length (PredNum g l) parent m doms) :
    exists predecessors idom, predecessorNumbers g l m = some predecessors ∧
      newIdom fuel doms predecessors = some idom ∧ IsMeet (PredNum g l) doms m idom := by
  rcases predecessorNumbers_spec h hm (Nat.le_of_lt hmn) with
    ⟨predecessors, hpredecessors, hmem⟩
  have hset : doms (parent m) ≠ 0 :=
    happrox.processed _ (hspan.lt m hm hmn) (hspan.le m hm hmn)
  rcases newIdom_spec happrox.rooted hfuel hmem (hspan.pred m hm hmn) hset with
    ⟨idom, hidom, hmeet⟩
  exact ⟨predecessors, idom, hpredecessors, hidom, hmeet⟩

structure Passed (m : Nat) (doms : Nat -> Nat) (changed : Bool)
    (g : Graph Node) (l : List Node) (parent : Nat -> Nat)
    (doms' : Nat -> Nat) (changed' : Bool) : Prop where
  approximates : Approximates g.ns.length (PredNum g l) parent 0 doms'
  grows : forall i, doms i ≤ doms' i
  more : changed' = true -> changed = true ∨
    exists i, i ≤ g.ns.length ∧ doms i < doms' i
  unchanged : changed' = false -> changed = false ∧ doms' = doms ∧
    forall b, 0 < b -> b ≤ m -> IsMeet (PredNum g l) doms b (doms b)

theorem pass_spec (m : Nat) (hmn : m < g.ns.length) (changed : Bool)
    (happrox : Approximates g.ns.length (PredNum g l) parent m doms) :
    exists doms' changed', pass fuel g l m (doms, changed) = some (doms', changed') ∧
      Passed m doms changed g l parent doms' changed' := by
  induction m generalizing doms changed with
  | zero =>
    exists doms, changed
    constructor
    · rfl
    · constructor
      · exact happrox
      · exact fun i => Nat.le_refl _
      · exact Or.inl
      · intro hfalse
        constructor
        · exact hfalse
        · constructor
          · rfl
          · intro b hb hle
            exact absurd hb (Nat.not_lt.mpr hle)
  | succ m ih =>
    have hm : 0 < m + 1 := Nat.succ_pos m
    rcases process_spec h hspan hfuel hm hmn happrox with
      ⟨predecessors, idom, hpredecessors, hidom, hmeet⟩
    have hstep := Approximates.step hspan happrox hm hmn hmeet
    have hle := le_meet happrox hmn hmeet
    rw [pass]
    simp only [hpredecessors, hidom]
    by_cases hsame : doms (m + 1) = idom
    · have hupdate : Function.update doms (m + 1) idom = doms := by
        rw [← hsame]
        exact Function.update_eq_self _ _
      rw [hupdate] at hstep
      rw [if_neg (not_not.mpr hsame)]
      rcases ih (Nat.lt_of_succ_lt hmn) changed hstep with
        ⟨doms', changed', hpass, hpassed⟩
      exists doms', changed'
      constructor
      · exact hpass
      · constructor
        · exact hpassed.approximates
        · exact hpassed.grows
        · exact hpassed.more
        · intro hfalse
          rcases hpassed.unchanged hfalse with ⟨hchanged, hdoms, hbelow⟩
          constructor
          · exact hchanged
          · constructor
            · exact hdoms
            · intro b hb hbm
              rcases Nat.lt_or_eq_of_le hbm with hlt | heq
              · exact hbelow b hb (Nat.le_of_lt_succ hlt)
              · rw [heq, hsame]
                exact hmeet
    · rw [if_pos hsame]
      rcases ih (Nat.lt_of_succ_lt hmn) true hstep with
        ⟨doms', changed', hpass, hpassed⟩
      have hself : doms (m + 1) < doms' (m + 1) := by
        have hgrows := hpassed.grows (m + 1)
        rw [Function.update_self] at hgrows
        exact Nat.lt_of_lt_of_le (Nat.lt_of_le_of_ne hle hsame) hgrows
      exists doms', changed'
      constructor
      · exact hpass
      · constructor
        · exact hpassed.approximates
        · intro i
          by_cases hi : i = m + 1
          · rw [hi]
            exact Nat.le_of_lt hself
          · have hgrows := hpassed.grows i
            rwa [Function.update_of_ne hi] at hgrows
        · intro _
          exact Or.inr ⟨m + 1, Nat.le_of_lt hmn, hself⟩
        · intro hfalse
          cases (hpassed.unchanged hfalse).1

/-!
# All passes
-/

omit [DecidableEq Node] h hspan hfuel in
theorem total_lt {n : Nat} {doms' : Nat -> Nat} (hgrows : forall i, doms i ≤ doms' i)
    (hmore : exists i, i ≤ n ∧ doms i < doms' i) :
    (Finset.range (n + 1)).sum doms < (Finset.range (n + 1)).sum doms' := by
  rcases hmore with ⟨i, hi, hlt⟩
  apply Finset.sum_lt_sum
  · intro j _
    exact hgrows j
  · exact ⟨i, Finset.mem_range.mpr (Nat.lt_succ_of_le hi), hlt⟩

omit [DecidableEq Node] h hspan hfuel in
theorem total_le {n : Nat} (hrooted : Rooted doms n) :
    (Finset.range (n + 1)).sum doms ≤ (n + 1) * n := by
  have hle := Finset.sum_le_card_nsmul (Finset.range (n + 1)) doms n
    (fun i _ => hrooted.le i)
  rw [Finset.card_range] at hle
  exact hle

theorem passes_spec (rounds : Nat) (hpos : 0 < g.ns.length)
    (happrox : Approximates g.ns.length (PredNum g l) parent (g.ns.length - 1) doms)
    (hrounds : (g.ns.length + 1) * g.ns.length <
      (Finset.range (g.ns.length + 1)).sum doms + rounds) :
    exists doms', passes fuel g l rounds doms = some doms' ∧
      Approximates g.ns.length (PredNum g l) parent 0 doms' ∧ forall b, 0 < b -> b < g.ns.length ->
        IsMeet (PredNum g l) doms' b (doms' b) := by
  induction rounds generalizing doms with
  | zero =>
    exact absurd hrounds (Nat.not_lt.mpr (total_le happrox.rooted))
  | succ rounds ih =>
    have hlast : g.ns.length - 1 < g.ns.length := Nat.pred_lt_of_lt hpos
    rcases pass_spec h hspan hfuel _ hlast false happrox with
      ⟨doms', changed', hpass, hpassed⟩
    rw [passes, hpass]
    dsimp only
    by_cases hchanged : changed' = true
    · rw [if_pos hchanged]
      apply ih hpassed.approximates.restart
      rcases hpassed.more hchanged with hfalse | hmore
      · cases hfalse
      · have hlt := total_lt hpassed.grows hmore
        omega
    · rw [if_neg hchanged]
      rcases hpassed.unchanged (Bool.eq_false_of_not_eq_true hchanged) with
        ⟨_, hdoms, hmeets⟩
      exists doms'
      constructor
      · rfl
      · constructor
        · exact hpassed.approximates
        · intro b hb hlt
          rw [hdoms]
          exact hmeets b hb (Nat.le_pred_of_lt hlt)

end Numbered

def enoughFuel (g : Graph Node) : Nat :=
  (g.ns.length + 1) * g.ns.length + g.ns.length + 1

omit [DecidableEq Node] in
theorem twice_lt_of_enoughFuel (hfuel : enoughFuel g ≤ fuel) :
    g.ns.length + g.ns.length < fuel := by
  have hmul : g.ns.length ≤ (g.ns.length + 1) * g.ns.length :=
    Nat.le_mul_of_pos_left _ (Nat.succ_pos _)
  unfold enoughFuel at hfuel
  omega

structure IsDominatorTree (g : Graph Node) (source : Node)
    (D : DomRelation Node) : Prop where
  numbers : Numbers g source D.numbered
  sourceNum : D.sourceNum = g.ns.length
  rooted : Rooted D.doms g.ns.length
  set : forall i, 0 < i -> i ≤ g.ns.length -> D.doms i ≠ 0
  climbs_iff : forall i j, 0 < i -> i ≤ g.ns.length ->
    (Climbs D.doms i j <->
      ¬ Avoiding g.ns.length (PredNum g D.numbered) j i)

theorem newComputeDominators_spec (hsource : source ∈ g.ns)
    (hreach : forall x, x ∈ g.ns -> Relation.ReflTransGen g.Edge source x)
    (hfuel : enoughFuel g ≤ fuel) :
    exists D, newComputeDominators fuel g source = some D ∧ IsDominatorTree g source D := by
  have hpos : 0 < g.ns.length := List.length_pos_of_mem hsource
  have hless := twice_lt_of_enoughFuel hfuel
  rcases postOrderVisitIterative_numbers hsource hreach with ⟨s, hs, h⟩
  rcases exists_spanned h with ⟨parent, hspan⟩
  have hstart : Approximates g.ns.length (PredNum g s.numbered) parent
      (g.ns.length - 1)
      (Function.update (fun _ => 0) g.ns.length g.ns.length) :=
    Approximates.initial hpos
  rcases passes_spec h hspan hless fuel hpos hstart (by
      unfold enoughFuel at hfuel
      omega) with ⟨doms, hdoms, happrox, hstable⟩
  have hset : forall i, 0 < i -> i ≤ g.ns.length -> doms i ≠ 0 := by
    intro i hi hle
    exact happrox.processed i hi hle
  exists ⟨doms, s.numbered, g.ns.length⟩
  constructor
  · unfold newComputeDominators
    rw [hs]
    simp only [h.last, hdoms]
  · constructor
    · exact h
    · rfl
    · exact happrox.rooted
    · exact hset
    · intro i j hi hle
      apply climbs_iff_of_stable happrox _ hstable (hset i hi hle)
      intro b p hp
      have hbounds := predNum_bounds h hp
      exact ⟨hbounds.1.1, hbounds.1.2, hset p hbounds.2.1 hbounds.2.2⟩

end DomRelation

end Boogie
