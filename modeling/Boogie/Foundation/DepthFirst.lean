import Mathlib.Data.Finset.Card
import Mathlib.Data.Finset.SDiff
import Mathlib.Logic.Relation

/-!
# Depth-first traversal with a state

A traversal visits every node once, before the nodes that come next, and updates
a state at each visit.  The order of the visits does not depend on the state.
-/

namespace DepthFirst

variable {Node : Type*} [DecidableEq Node]

def visit {State : Type} (next : Node -> List Node)
    (f : State -> Node -> State) :
    Nat -> List Node × State -> Node -> List Node × State
  | 0, st, _ => st
  | depth + 1, st, x =>
    if x ∈ st.1 then st
    else (next x).foldl (visit next f depth) (st.1 ++ [x], f st.2 x)

def order (next : Node -> List Node) (depth : Nat) (x : Node) : List Node :=
  (visit next (fun (_ : Unit) _ => ()) depth ([], ()) x).1

section Spec

variable {next : Node -> List Node} {nodes visited visited' new new' : List Node}
  {x y : Node}

def Reaches (next : Node -> List Node) : Node -> Node -> Prop :=
  Relation.ReflTransGen (fun x y => y ∈ next x)

def Closed (next : Node -> List Node) (nodes : List Node) : Prop :=
  forall x, x ∈ nodes -> forall y, y ∈ next x -> y ∈ nodes

def unvisited (nodes visited : List Node) : Nat :=
  (nodes.toFinset \ visited.toFinset).card

theorem unvisited_le (h : visited ⊆ visited') :
    unvisited nodes visited' ≤ unvisited nodes visited := by
  apply Finset.card_le_card
  apply Finset.sdiff_subset_sdiff (Finset.Subset.refl _)
  intro y hy
  exact List.mem_toFinset.mpr (h (List.mem_toFinset.mp hy))

theorem unvisited_lt (hx : x ∈ nodes) (hnew : x ∉ visited) :
    unvisited nodes (visited ++ [x]) < unvisited nodes visited := by
  apply Finset.card_lt_card
  rw [Finset.ssubset_iff_of_subset]
  · refine ⟨x, ?_, ?_⟩
    · simp [hx, hnew]
    · simp
  · apply Finset.sdiff_subset_sdiff (Finset.Subset.refl _)
    intro y hy
    simp only [List.mem_toFinset, List.mem_append] at hy ⊢
    exact Or.inl hy

structure Explored (next : Node -> List Node) (roots visited new : List Node) :
    Prop where
  nodup : new.Nodup
  fresh : forall y, y ∈ new -> y ∉ visited
  closed : forall y, y ∈ new -> forall z, z ∈ next y -> z ∈ visited ++ new
  reached : forall y, y ∈ new -> exists r, r ∈ roots ∧ Reaches next r y
  roots : forall r, r ∈ roots -> r ∈ visited ++ new

omit [DecidableEq Node] in
theorem Explored.nil : Explored next [] visited [] where
  nodup := List.nodup_nil
  fresh := by
    intro y hy
    cases hy
  closed := by
    intro y hy
    cases hy
  reached := by
    intro y hy
    cases hy
  roots := by
    intro r hr
    cases hr

omit [DecidableEq Node] in
theorem Explored.nothing (hx : x ∈ visited) : Explored next [x] visited [] where
  nodup := List.nodup_nil
  fresh := by
    intro y hy
    cases hy
  closed := by
    intro y hy
    cases hy
  reached := by
    intro y hy
    cases hy
  roots := by
    intro r hr
    rw [List.mem_singleton.mp hr, List.append_nil]
    exact hx

omit [DecidableEq Node] in
theorem Explored.append {roots : List Node} (h : Explored next [x] visited new)
    (h' : Explored next roots (visited ++ new) new') :
    Explored next (x :: roots) visited (new ++ new') where
  nodup := by
    rw [List.nodup_append]
    refine ⟨h.nodup, h'.nodup, ?_⟩
    intro y hy y' hy' heq
    rw [← heq] at hy'
    exact h'.fresh y hy' (List.mem_append_right visited hy)
  fresh := by
    intro y hy
    rcases List.mem_append.mp hy with hfirst | hsecond
    · exact h.fresh y hfirst
    · exact fun hmem => h'.fresh y hsecond (List.mem_append_left new hmem)
  closed := by
    intro y hy z hz
    rw [← List.append_assoc]
    rcases List.mem_append.mp hy with hfirst | hsecond
    · exact List.mem_append_left new' (h.closed y hfirst z hz)
    · exact h'.closed y hsecond z hz
  reached := by
    intro y hy
    rcases List.mem_append.mp hy with hfirst | hsecond
    · rcases h.reached y hfirst with ⟨r, hr, hreaches⟩
      rw [List.mem_singleton.mp hr] at hreaches
      exact ⟨x, List.mem_cons_self, hreaches⟩
    · rcases h'.reached y hsecond with ⟨r, hr, hreaches⟩
      exact ⟨r, List.mem_cons_of_mem x hr, hreaches⟩
  roots := by
    intro r hr
    rw [← List.append_assoc]
    rcases List.mem_cons.mp hr with rfl | hrest
    · exact List.mem_append_left new' (h.roots r (List.mem_singleton.mpr rfl))
    · exact h'.roots r hrest

omit [DecidableEq Node] in
theorem Explored.cons (hnew : x ∉ visited) (h : Explored next (next x) (visited ++ [x]) new) :
    Explored next [x] visited (x :: new) where
  nodup := by
    rw [List.nodup_cons]
    constructor
    · intro hx
      exact h.fresh x hx (List.mem_append_right visited (List.mem_singleton.mpr rfl))
    · exact h.nodup
  fresh := by
    intro y hy
    rcases List.mem_cons.mp hy with rfl | hrest
    · exact hnew
    · exact fun hmem => h.fresh y hrest (List.mem_append_left [x] hmem)
  closed := by
    intro y hy z hz
    have hsplit : visited ++ x :: new = (visited ++ [x]) ++ new := by
      rw [List.append_assoc, List.singleton_append]
    rw [hsplit]
    rcases List.mem_cons.mp hy with rfl | hrest
    · exact h.roots z hz
    · exact h.closed y hrest z hz
  reached := by
    intro y hy
    refine ⟨x, List.mem_singleton.mpr rfl, ?_⟩
    rcases List.mem_cons.mp hy with rfl | hrest
    · exact Relation.ReflTransGen.refl
    · rcases h.reached y hrest with ⟨r, hr, hreaches⟩
      exact Relation.ReflTransGen.head hr hreaches
  roots := by
    intro r hr
    rw [List.mem_singleton.mp hr]
    exact List.mem_append_right visited List.mem_cons_self

def Explores (next : Node -> List Node) (depth : Nat) (nodes : List Node) :
    Prop :=
  forall x visited, x ∈ nodes -> unvisited nodes visited ≤ depth ->
    exists new, Explored next [x] visited new ∧
      forall {State : Type} (f : State -> Node -> State) (s : State),
        visit next f depth (visited, s) x = (visited ++ new, new.foldl f s)

theorem explores_foldl {depth : Nat} (hdepth : Explores next depth nodes) :
    forall (xs visited : List Node), (forall x, x ∈ xs -> x ∈ nodes) ->
      unvisited nodes visited ≤ depth -> exists new, Explored next xs visited new ∧
        forall {State : Type} (f : State -> Node -> State) (s : State),
          xs.foldl (visit next f depth) (visited, s) = (visited ++ new, new.foldl f s) := by
  intro xs
  induction xs with
  | nil =>
    intro visited _ _
    refine ⟨[], Explored.nil, ?_⟩
    intro State f s
    rw [List.append_nil]
    rfl
  | cons x xs ih =>
    intro visited hxs hle
    rcases hdepth x visited (hxs x List.mem_cons_self) hle with
      ⟨new, hnew, hvisit⟩
    have hle' : unvisited nodes (visited ++ new) ≤ depth :=
      Nat.le_trans (unvisited_le (List.subset_append_left visited new)) hle
    rcases ih (visited ++ new) (fun y hy => hxs y (List.mem_cons_of_mem x hy))
      hle' with ⟨new', hnew', hrest⟩
    refine ⟨new ++ new', hnew.append hnew', ?_⟩
    intro State f s
    rw [List.foldl_cons, hvisit, hrest, List.append_assoc, List.foldl_append]

theorem explores (hclosed : Closed next nodes) (depth : Nat) :
    Explores next depth nodes := by
  induction depth with
  | zero =>
    intro x visited hx hle
    have hmem : x ∈ visited := by
      by_contra hnew
      exact Nat.not_lt_zero _
        (Nat.lt_of_lt_of_le (unvisited_lt hx hnew) hle)
    refine ⟨[], Explored.nothing hmem, ?_⟩
    intro State f s
    rw [List.append_nil]
    rfl
  | succ depth ih =>
    intro x visited hx hle
    by_cases hmem : x ∈ visited
    · refine ⟨[], Explored.nothing hmem, ?_⟩
      intro State f s
      rw [visit, if_pos hmem, List.append_nil]
      rfl
    · have hle' : unvisited nodes (visited ++ [x]) ≤ depth :=
        Nat.le_of_lt_succ (Nat.lt_of_lt_of_le (unvisited_lt hx hmem) hle)
      rcases explores_foldl ih (next x) (visited ++ [x]) (hclosed x hx) hle'
        with ⟨new, hnew, hrest⟩
      refine ⟨x :: new, hnew.cons hmem, ?_⟩
      intro State f s
      rw [visit, if_neg hmem, hrest, List.append_assoc,
        List.singleton_append]
      rfl

section Order

variable {depth : Nat} (hclosed : Closed next nodes)
  (hdepth : nodes.length ≤ depth) (hx : x ∈ nodes)

include hclosed hdepth hx

theorem exists_order : Explored next [x] [] (order next depth x) ∧
    forall {State : Type} (f : State -> Node -> State) (s : State), visit next f depth ([], s) x =
        (order next depth x, (order next depth x).foldl f s) := by
  have hle : unvisited nodes [] ≤ depth := by
    apply Nat.le_trans _ hdepth
    apply Nat.le_trans (Finset.card_le_card Finset.sdiff_subset)
    exact List.toFinset_card_le nodes
  rcases explores hclosed depth x [] hx hle with ⟨new, hnew, hvisit⟩
  have horder : order next depth x = new := by
    unfold order
    rw [hvisit]
    rfl
  rw [horder]
  refine ⟨hnew, ?_⟩
  intro State f s
  rw [hvisit, List.nil_append]

theorem visit_eq {State : Type} (f : State -> Node -> State) (s : State) :
    visit next f depth ([], s) x = (order next depth x, (order next depth x).foldl f s) :=
  (exists_order hclosed hdepth hx).2 f s

theorem order_nodup : (order next depth x).Nodup :=
  (exists_order hclosed hdepth hx).1.nodup

theorem order_closed : Closed next (order next depth x) := by
  intro y hy z hz
  exact (exists_order hclosed hdepth hx).1.closed y hy z hz

theorem mem_order_self : x ∈ order next depth x :=
  (exists_order hclosed hdepth hx).1.roots x (List.mem_singleton.mpr rfl)

theorem mem_order : y ∈ order next depth x <-> Reaches next x y := by
  constructor
  · intro hy
    rcases (exists_order hclosed hdepth hx).1.reached y hy with
      ⟨r, hr, hreaches⟩
    rwa [List.mem_singleton.mp hr] at hreaches
  · intro hreaches
    induction hreaches with
    | refl => exact mem_order_self hclosed hdepth hx
    | tail _ hstep ih => exact order_closed hclosed hdepth hx _ ih _ hstep

end Order

/-!
# Recursion without cycles

A recursion along a relation without cycles goes no deeper than there are nodes,
whether or not it remembers what it has visited.
-/

section Acyclic

variable (hclosed : Closed next nodes)
  (hacyclic : forall x y, y ∈ next x -> ¬ Reaches next y x)
  {P : Nat -> Node -> Prop}
  (hstep : forall depth x, x ∈ nodes -> (forall y, y ∈ next x -> P depth y) ->
    P (depth + 1) x)

include hclosed hacyclic hstep

omit [DecidableEq Node] in
theorem acyclic_path {depth : Nat} {pending : List Node}
    (hnodup : (x :: pending).Nodup) (hsub : x :: pending ⊆ nodes)
    (hpath : forall y, y ∈ x :: pending -> Reaches next y x)
    (hdepth : nodes.length ≤ depth + pending.length) : P depth x := by
  induction depth generalizing x pending with
  | zero =>
    have hlength := (hnodup.subperm hsub).length_le
    rw [List.length_cons] at hlength
    omega
  | succ depth ih =>
    apply hstep depth x (hsub List.mem_cons_self)
    intro y hy
    have hnew : y ∉ x :: pending :=
      fun hmem => hacyclic x y hy (hpath y hmem)
    apply ih (List.nodup_cons.mpr ⟨hnew, hnodup⟩)
    · intro z hz
      rcases List.mem_cons.mp hz with rfl | hrest
      · exact hclosed x (hsub List.mem_cons_self) z hy
      · exact hsub hrest
    · intro z hz
      rcases List.mem_cons.mp hz with rfl | hrest
      · exact Relation.ReflTransGen.refl
      · exact Relation.ReflTransGen.tail (hpath z hrest) hy
    · rw [List.length_cons]
      omega

omit [DecidableEq Node] in
theorem acyclic_bounded {depth : Nat} (hx : x ∈ nodes)
    (hdepth : nodes.length ≤ depth) : P depth x := by
  apply acyclic_path hclosed hacyclic hstep (List.nodup_singleton x)
  · intro y hy
    rw [List.mem_singleton.mp hy]
    exact hx
  · intro y hy
    rw [List.mem_singleton.mp hy]
    exact Relation.ReflTransGen.refl
  · exact hdepth

end Acyclic

end Spec

end DepthFirst
