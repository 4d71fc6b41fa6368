import Boogie.Foundation.DepthFirst
import Boogie.Graph.Graph

/-!
# The dual of a graph

All edges are turned around and an exit becomes the source.  Several exits, or
none, need a dummy source.  Whatever the source does not reach gets an edge from
it.  The loop over the stack is bounded by `fuel`.
-/

namespace Boogie

namespace Graph

variable {Node : Type} [DecidableEq Node]

/-- The loop over the stack, in which a node can be more than once. -/
def computeReachableFrom (g : Graph Node) :
    Nat -> List Node -> List Node -> Option (List Node)
  | 0, _, _ => none
  | _ + 1, [], result => some result
  | fuel + 1, n :: stack, result =>
    let result := hashSetAdd result n
    computeReachableFrom g fuel
      ((g.successors n).foldl
        (fun stack m => if m ∈ result then stack else m :: stack) stack)
      result

def computeReachable (fuel : Nat) (g : Graph Node) : Option (List Node) :=
  match g.source with
  | none => none
  | some source => computeReachableFrom g fuel [source] []

def connect (fuel : Nat) (source : Node) (dual : Graph Node) (n : Node) :
    Option (Graph Node) :=
  match dual.computeReachable fuel with
  | none => none
  | some reachable =>
    if n ∈ reachable then some dual else some (dual.addEdge source n)

def turned (g : Graph Node) : List (Node × Node) :=
  g.es.foldl (fun es e => hashSetAdd es (e.2, e.1)) []

def exits (g : Graph Node) (dummySource : Node) : List Node :=
  let exits := g.ns.filter (fun n => (g.successors n).length = 0)
  if exits.length = 0 then exits ++ [dummySource] else exits

/-- The turned graph with its source. -/
def sourced (g : Graph Node) (dummySource : Node) : Graph Node × Node :=
  match g.exits dummySource with
  | [exit] => ((ofEdges g.turned).addSource exit, exit)
  | exits =>
    (exits.foldl (fun dual exit => dual.addEdge dummySource exit)
      ((ofEdges g.turned).addSource dummySource), dummySource)

def dual (fuel : Nat) (g : Graph Node) (dummySource : Node) :
    Option (Graph Node) :=
  let start := g.sourced dummySource
  start.1.ns.foldlM (connect fuel start.2) start.1

/-!
# Reachable nodes
-/

section Reachable

variable {g : Graph Node} {source : Node} {stack result : List Node}

structure Spreading (g : Graph Node) (source : Node)
    (stack result : List Node) : Prop where
  start : source ∈ result ∨ source ∈ stack
  sound : forall n, n ∈ result ∨ n ∈ stack ->
    Relation.ReflTransGen g.Edge source n
  closed : forall n m, n ∈ result -> g.Edge n m -> m ∈ result ∨ m ∈ stack

theorem mem_foldl_push {m : Node} (ms stack : List Node) :
    m ∈ ms.foldl (fun stack m => if m ∈ result then stack else m :: stack)
        stack <-> m ∈ stack ∨ (m ∈ ms ∧ m ∉ result) := by
  induction ms generalizing stack with
  | nil => simp
  | cons a ms ih =>
    rw [List.foldl_cons, ih, List.mem_cons]
    by_cases ha : a ∈ result
    · rw [if_pos ha]
      constructor
      · intro hm
        rcases hm with hm | ⟨hm, hnot⟩
        · exact Or.inl hm
        · exact Or.inr ⟨Or.inr hm, hnot⟩
      · intro hm
        rcases hm with hm | ⟨heq | hm, hnot⟩
        · exact Or.inl hm
        · exact absurd (heq ▸ ha) hnot
        · exact Or.inr ⟨hm, hnot⟩
    · rw [if_neg ha, List.mem_cons]
      constructor
      · intro hm
        rcases hm with (heq | hm) | ⟨hm, hnot⟩
        · exact Or.inr ⟨Or.inl heq, heq ▸ ha⟩
        · exact Or.inl hm
        · exact Or.inr ⟨Or.inr hm, hnot⟩
      · intro hm
        rcases hm with hm | ⟨heq | hm, hnot⟩
        · exact Or.inl (Or.inr hm)
        · exact Or.inl (Or.inl heq)
        · exact Or.inr ⟨hm, hnot⟩

theorem Spreading.step {n : Node} (h : Spreading g source (n :: stack) result) :
    Spreading g source ((g.successors n).foldl
        (fun stack m => if m ∈ hashSetAdd result n then stack else m :: stack) stack)
      (hashSetAdd result n) := by
  have hn := h.sound n (Or.inr List.mem_cons_self)
  have hkeep : forall m, m ∈ result ∨ m ∈ n :: stack ->
      m ∈ hashSetAdd result n ∨ m ∈ (g.successors n).foldl
        (fun stack m => if m ∈ hashSetAdd result n then stack else m :: stack)
        stack := by
    intro m hm
    rw [mem_hashSetAdd, mem_foldl_push]
    rcases hm with hm | hm
    · exact Or.inl (Or.inl hm)
    · rcases List.mem_cons.mp hm with heq | hm
      · exact Or.inl (Or.inr heq)
      · exact Or.inr (Or.inl hm)
  constructor
  · exact hkeep source h.start
  · intro m hm
    rw [mem_hashSetAdd, mem_foldl_push] at hm
    rcases hm with (hm | heq) | hm | ⟨hm, _⟩
    · exact h.sound m (Or.inl hm)
    · exact heq ▸ hn
    · exact h.sound m (Or.inr (List.mem_cons_of_mem n hm))
    · exact hn.tail (mem_successors.mp hm)
  · intro x m hx hedge
    rcases mem_hashSetAdd.mp hx with hx | heq
    · exact hkeep m (h.closed x m hx hedge)
    · rw [heq] at hedge
      by_cases hm : m ∈ hashSetAdd result n
      · exact Or.inl hm
      · exact Or.inr ((mem_foldl_push _ _).mpr
          (Or.inr ⟨mem_successors.mpr hedge, hm⟩))

omit [DecidableEq Node] in
theorem Spreading.mem_iff (h : Spreading g source [] result) (n : Node) :
    n ∈ result <-> Relation.ReflTransGen g.Edge source n := by
  constructor
  · intro hn
    exact h.sound n (Or.inl hn)
  · intro hreach
    induction hreach with
    | refl => exact h.start.resolve_right List.not_mem_nil
    | tail hbefore hstep ih =>
      exact (h.closed _ _ ih hstep).resolve_right List.not_mem_nil

theorem exists_foldl_push (result ms stack : List Node) :
    exists new, ms.foldl (fun stack m => if m ∈ result then stack else m :: stack) stack =
          new ++ stack ∧ forall m, m ∈ new -> m ∈ ms ∧ m ∉ result := by
  induction ms generalizing stack with
  | nil => exact ⟨[], rfl, fun m hm => absurd hm List.not_mem_nil⟩
  | cons a ms ih =>
    rw [List.foldl_cons]
    by_cases ha : a ∈ result
    · rw [if_pos ha]
      rcases ih stack with ⟨new, hnew, hmem⟩
      exact ⟨new, hnew, fun m hm =>
        ⟨List.mem_cons_of_mem a (hmem m hm).1, (hmem m hm).2⟩⟩
    · rw [if_neg ha]
      rcases ih (a :: stack) with ⟨new, hnew, hmem⟩
      exists new ++ [a]
      constructor
      · rw [hnew, List.append_assoc]
        rfl
      · intro m hm
        rcases List.mem_append.mp hm with hm | hm
        · exact ⟨List.mem_cons_of_mem a (hmem m hm).1, (hmem m hm).2⟩
        · rw [List.mem_singleton.mp hm]
          exact ⟨List.mem_cons_self, ha⟩

theorem exists_computeReachableFrom (u : Nat) (stack result : List Node)
    (hu : DepthFirst.unvisited g.ns result < u) (hstack : forall n, n ∈ stack -> n ∈ g.ns) :
    exists bound found, forall fuel, bound ≤ fuel ->
      computeReachableFrom g fuel stack result = some found := by
  induction u generalizing stack result with
  | zero => exact absurd hu (Nat.not_lt_zero _)
  | succ u ih =>
    have hsuccessors : forall n m, m ∈ g.successors n -> m ∈ g.ns := by
      intro n m hm
      exact (g.endpoints _ (mem_successors.mp hm)).2
    have hnew : forall n stack, n ∉ result ->
        (forall x, x ∈ n :: stack -> x ∈ g.ns) ->
        exists bound found, forall fuel, bound ≤ fuel ->
          computeReachableFrom g fuel (n :: stack) result = some found := by
      intro n stack hn hstack
      have hless := DepthFirst.unvisited_lt (hstack n List.mem_cons_self) hn
      rcases ih ((g.successors n).foldl
          (fun stack m => if m ∈ hashSetAdd result n then stack else m :: stack)
          stack) (hashSetAdd result n)
          (by
            rw [hashSetAdd, if_neg hn]
            exact Nat.lt_of_lt_of_le hless (Nat.le_of_lt_succ hu))
          (by
            intro x hx
            rcases (mem_foldl_push _ _).mp hx with hx | ⟨hx, _⟩
            · exact hstack x (List.mem_cons_of_mem n hx)
            · exact hsuccessors n x hx) with ⟨bound, found, hbound⟩
      exists bound + 1, found
      intro fuel hfuel
      rcases Nat.exists_eq_add_of_le' hfuel with ⟨more, heq⟩
      rw [heq, ← Nat.add_assoc, computeReachableFrom]
      exact hbound _ (Nat.le_add_left bound more)
    induction stack with
    | nil =>
      exists 1, result
      intro fuel hfuel
      rcases Nat.exists_eq_add_of_le' hfuel with ⟨more, heq⟩
      rw [heq, computeReachableFrom]
    | cons n stack ihstack =>
      by_cases hn : n ∈ result
      · have hrest := fun x hx => hstack x (List.mem_cons_of_mem n hx)
        rcases exists_foldl_push (hashSetAdd result n) (g.successors n)
          stack with ⟨new, hpush, hmem⟩
        have hsame : hashSetAdd result n = result := by
          rw [hashSetAdd, if_pos hn]
        have hends : exists bound found, forall fuel, bound ≤ fuel ->
            computeReachableFrom g fuel (new ++ stack) result =
              some found := by
          rcases new with _ | ⟨m, new⟩
          · exact ihstack hrest
          · have hm := hmem m List.mem_cons_self
            rw [hsame] at hm
            apply hnew m (new ++ stack) hm.2
            intro x hx
            rw [← List.cons_append] at hx
            rcases List.mem_append.mp hx with hx | hx
            · exact hsuccessors n x (hmem x hx).1
            · exact hrest x hx
        rcases hends with ⟨bound, found, hbound⟩
        exists bound + 1, found
        intro fuel hfuel
        rcases Nat.exists_eq_add_of_le' hfuel with ⟨more, heq⟩
        rw [heq, ← Nat.add_assoc, computeReachableFrom]
        rw [hpush, hsame]
        exact hbound _ (Nat.le_add_left bound more)
      · exact hnew n stack hn hstack

theorem computeReachableFrom_spreading {fuel : Nat} {found : List Node}
    (h : Spreading g source stack result)
    (hfound : computeReachableFrom g fuel stack result = some found) :
    Spreading g source [] found := by
  induction fuel generalizing stack result with
  | zero => cases hfound
  | succ fuel ih =>
    cases stack with
    | nil =>
      cases hfound
      exact h
    | cons n stack => exact ih h.step hfound

theorem computeReachable_spec (hsource : g.source = some source) (hmem : source ∈ g.ns) :
    exists bound found, (forall fuel, bound ≤ fuel -> computeReachable fuel g = some found) ∧
      forall n, n ∈ found <-> Relation.ReflTransGen g.Edge source n := by
  have hstack : forall n, n ∈ [source] -> n ∈ g.ns := by
    intro n hn
    rw [List.mem_singleton.mp hn]
    exact hmem
  have hinitial : Spreading g source [source] [] := by
    constructor
    · exact Or.inr List.mem_cons_self
    · intro n hn
      rcases hn with hn | hn
      · cases hn
      · rw [List.mem_singleton.mp hn]
    · intro n m hn
      cases hn
  rcases exists_computeReachableFrom _ [source] [] (Nat.lt_succ_self _) hstack
    with ⟨bound, found, hbound⟩
  exists bound, found
  constructor
  · intro fuel hfuel
    rw [computeReachable, hsource]
    exact hbound fuel hfuel
  · intro n
    exact (computeReachableFrom_spreading hinitial
      (hbound bound (Nat.le_refl bound))).mem_iff n

end Reachable

/-!
# What the dual is
-/

section Dual

variable {g d d' : Graph Node} {s x y dummySource : Node}

theorem mem_turned : (x, y) ∈ g.turned <-> g.Edge y x := by
  have hfold : forall (es turned : List (Node × Node)),
      (x, y) ∈ es.foldl (fun es e => hashSetAdd es (e.2, e.1)) turned <->
        (x, y) ∈ turned ∨ (y, x) ∈ es := by
    intro es
    induction es with
    | nil => simp
    | cons e es ih =>
      intro turned
      rw [List.foldl_cons, ih, mem_hashSetAdd, List.mem_cons, or_assoc,
        Prod.ext_iff, Prod.ext_iff, and_comm]
  simp [turned, hfold, Edge]

theorem foldl_addEdge (exits : List Node) (d : Graph Node) (hs : s ∈ d.ns) :
    (exits.foldl (fun dual exit => dual.addEdge s exit) d).source = d.source ∧
      (forall x, x ∈ (exits.foldl (fun dual exit => dual.addEdge s exit) d).ns <->
        x ∈ d.ns ∨ x ∈ exits) ∧
      forall x y, (exits.foldl (fun dual exit => dual.addEdge s exit) d).Edge x y
        <-> d.Edge x y ∨ (x = s ∧ y ∈ exits) := by
  induction exits generalizing d with
  | nil => simp
  | cons exit exits ih =>
    have hmem : s ∈ (d.addEdge s exit).ns := by simp
    rcases ih (d.addEdge s exit) hmem with ⟨hsource, hns, hedges⟩
    rw [List.foldl_cons]
    constructor
    · exact hsource
    · constructor
      · intro x
        rw [hns, mem_ns_addEdge, List.mem_cons]
        constructor
        · intro hx
          rcases hx with (hx | heq | hx) | hx
          · exact Or.inl hx
          · exact Or.inl (heq ▸ hs)
          · exact Or.inr (Or.inl hx)
          · exact Or.inr (Or.inr hx)
        · intro hx
          rcases hx with hx | hx | hx
          · exact Or.inl (Or.inl hx)
          · exact Or.inl (Or.inr (Or.inr hx))
          · exact Or.inr hx
      · intro x y
        rw [hedges, edge_addEdge, List.mem_cons, or_assoc, ← and_or_left]

/-- The turned graph with a source: nodes and edges, and what the source is. -/
structure IsTurned (g : Graph Node) (dummySource : Node) (d : Graph Node)
    (s : Node) : Prop where
  source : d.source = some s
  mem : s ∈ d.ns
  nodes : forall x, x ∈ d.ns -> x ∈ g.ns ∨ x = s
  all : forall x, x ∈ g.ns -> x ∈ d.ns
  turned : forall x y, g.Edge x y -> d.Edge y x
  edges : forall x y, d.Edge x y -> g.Edge y x ∨ x = s
  exit : s = dummySource ∨ (s ∈ g.ns ∧ forall x, ¬ g.Edge s x)

theorem mem_exits (hx : x ∈ g.exits dummySource) :
    x = dummySource ∨ (x ∈ g.ns ∧ forall y, ¬ g.Edge x y) := by
  have hfilter : forall x,
      x ∈ g.ns.filter (fun n => (g.successors n).length = 0) ->
        x ∈ g.ns ∧ forall y, ¬ g.Edge x y := by
    intro x hx
    rw [List.mem_filter, decide_eq_true_iff, List.length_eq_zero_iff] at hx
    constructor
    · exact hx.1
    · intro y hy
      have hmem := mem_successors.mpr hy
      rw [hx.2] at hmem
      cases hmem
  unfold exits at hx
  dsimp only at hx
  split at hx
  · rcases List.mem_append.mp hx with hx | hx
    · exact Or.inr (hfilter x hx)
    · exact Or.inl (List.mem_singleton.mp hx)
  · exact Or.inr (hfilter x hx)

theorem exists_edge_or_mem_exits (hx : x ∈ g.ns) :
    (exists y, g.Edge x y) ∨ x ∈ g.exits dummySource := by
  by_cases hsuccessors : exists y, g.Edge x y
  · exact Or.inl hsuccessors
  · have hmem : x ∈ g.ns.filter (fun n => (g.successors n).length = 0) := by
      rw [List.mem_filter, decide_eq_true_iff, List.length_eq_zero_iff,
        List.eq_nil_iff_forall_not_mem]
      constructor
      · exact hx
      · intro y hy
        exact hsuccessors ⟨y, mem_successors.mp hy⟩
    right
    unfold exits
    dsimp only
    split
    · exact List.mem_append_left _ hmem
    · exact hmem

theorem mem_ofEdges_turned :
    x ∈ (ofEdges g.turned).ns <-> exists y, g.Edge x y ∨ g.Edge y x := by
  unfold ofEdges
  rw [mem_foldl_addEndpoints]
  constructor
  · intro hx
    rcases hx with hx | ⟨⟨a, b⟩, he, heq | heq⟩
    · cases hx
    · exact ⟨b, Or.inr (heq ▸ mem_turned.mp he)⟩
    · exact ⟨a, Or.inl (heq ▸ mem_turned.mp he)⟩
  · intro ⟨y, hy⟩
    rcases hy with hy | hy
    · exact Or.inr ⟨(y, x), mem_turned.mpr hy, Or.inr rfl⟩
    · exact Or.inr ⟨(x, y), mem_turned.mpr hy, Or.inl rfl⟩

theorem mem_of_mem_ofEdges_turned (hx : x ∈ (ofEdges g.turned).ns) :
    x ∈ g.ns := by
  rcases mem_ofEdges_turned.mp hx with ⟨y, hy | hy⟩
  · exact (g.endpoints _ hy).1
  · exact (g.endpoints _ hy).2

theorem edge_ofEdges_turned : (ofEdges g.turned).Edge x y <-> g.Edge y x :=
  mem_turned

theorem sourced_isTurned (g : Graph Node) (dummySource : Node) :
    IsTurned g dummySource (g.sourced dummySource).1 (g.sourced dummySource).2 := by
  have hexit : forall x, x ∈ g.exits dummySource ->
      x = dummySource ∨ (x ∈ g.ns ∧ forall y, ¬ g.Edge x y) :=
    fun _ => mem_exits
  have hall : forall {x}, x ∈ g.ns -> x ∉ (ofEdges g.turned).ns ->
      x ∈ g.exits dummySource := by
    intro x hx hnot
    rcases exists_edge_or_mem_exits hx with ⟨y, hy⟩ | hmem
    · exact absurd (mem_ofEdges_turned.mpr ⟨y, Or.inl hy⟩) hnot
    · exact hmem
  unfold sourced
  split
  · rename_i exit hexits
    rw [hexits] at hexit hall
    constructor
    · rfl
    · simp
    · intro x hx
      rcases mem_ns_addSource.mp hx with hx | heq
      · exact Or.inl (mem_of_mem_ofEdges_turned hx)
      · exact Or.inr heq
    · intro x hx
      rw [mem_ns_addSource]
      by_cases hmem : x ∈ (ofEdges g.turned).ns
      · exact Or.inl hmem
      · exact Or.inr (List.mem_singleton.mp (hall hx hmem))
    · intro x y hedge
      exact edge_addSource.mpr (edge_ofEdges_turned.mpr hedge)
    · intro x y hedge
      exact Or.inl (edge_ofEdges_turned.mp (edge_addSource.mp hedge))
    · exact hexit exit List.mem_cons_self
  · have hmem : dummySource ∈ ((ofEdges g.turned).addSource dummySource).ns := by
      simp
    rcases foldl_addEdge (g.exits dummySource) _ hmem with
      ⟨hsource, hns, hedges⟩
    constructor
    · rw [hsource]
      rfl
    · rw [hns]
      exact Or.inl hmem
    · intro x hx
      rw [hns, mem_ns_addSource] at hx
      rcases hx with (hx | heq) | hx
      · exact Or.inl (mem_of_mem_ofEdges_turned hx)
      · exact Or.inr heq
      · rcases hexit x hx with heq | ⟨hx, _⟩
        · exact Or.inr heq
        · exact Or.inl hx
    · intro x hx
      rw [hns, mem_ns_addSource]
      by_cases hturned : x ∈ (ofEdges g.turned).ns
      · exact Or.inl (Or.inl hturned)
      · exact Or.inr (hall hx hturned)
    · intro x y hedge
      rw [hedges]
      exact Or.inl (edge_addSource.mpr (edge_ofEdges_turned.mpr hedge))
    · intro x y hedge
      rcases (hedges x y).mp hedge with hedge | ⟨heq, _⟩
      · exact Or.inl (edge_ofEdges_turned.mp (edge_addSource.mp hedge))
      · exact Or.inr heq
    · exact Or.inl rfl

theorem IsTurned.addEdge (h : IsTurned g dummySource d s) (hx : x ∈ d.ns) :
    IsTurned g dummySource (d.addEdge s x) s where
  source := h.source
  mem := by simp
  nodes := by
    intro y hy
    rcases mem_ns_addEdge.mp hy with hy | heq | heq
    · exact h.nodes y hy
    · exact Or.inr heq
    · exact heq ▸ h.nodes x hx
  all := by
    intro y hy
    exact mem_ns_addEdge.mpr (Or.inl (h.all y hy))
  turned := by
    intro y z hedge
    exact edge_addEdge.mpr (Or.inl (h.turned y z hedge))
  edges := by
    intro y z hedge
    rcases edge_addEdge.mp hedge with hedge | ⟨heq, _⟩
    · exact h.edges y z hedge
    · exact Or.inr heq
  exit := h.exit

/-- The dual of a graph, all of whose nodes its source reaches. -/
structure IsDual (g : Graph Node) (dummySource : Node) (d : Graph Node)
    (s : Node) : Prop extends IsTurned g dummySource d s where
  reaches : forall x, x ∈ d.ns -> Relation.ReflTransGen d.Edge s x

theorem foldlM_connect (ns : List Node) (h : IsTurned g dummySource d s)
    (hns : forall x, x ∈ ns -> x ∈ d.ns) :
    exists bound d', (forall fuel, bound ≤ fuel -> ns.foldlM (connect fuel s) d = some d') ∧
      IsTurned g dummySource d' s ∧ (forall x, x ∈ d'.ns -> x ∈ d.ns) ∧
      (forall x y, d.Edge x y -> d'.Edge x y) ∧
      forall x, x ∈ ns -> Relation.ReflTransGen d'.Edge s x := by
  induction ns generalizing d with
  | nil =>
    exists 0, d
    constructor
    · intro fuel _
      rfl
    · exact ⟨h, fun _ hx => hx, fun _ _ hxy => hxy,
        fun x hx => absurd hx List.not_mem_nil⟩
  | cons n ns ih =>
    rcases computeReachable_spec h.source h.mem with
      ⟨bound, reachable, hreachable, hmem⟩
    have hn : n ∈ d.ns := hns n List.mem_cons_self
    have hrest := fun x hx => hns x (List.mem_cons_of_mem n hx)
    have hone : exists next, (forall fuel, bound ≤ fuel ->
        connect fuel s d n = some next) ∧ IsTurned g dummySource next s ∧
        (forall x, x ∈ next.ns <-> x ∈ d.ns) ∧
        (forall x y, d.Edge x y -> next.Edge x y) ∧
        Relation.ReflTransGen next.Edge s n := by
      by_cases hin : n ∈ reachable
      · exists d
        constructor
        · intro fuel hfuel
          rw [connect, hreachable fuel hfuel]
          exact if_pos hin
        · exact ⟨h, fun _ => Iff.rfl, fun _ _ hxy => hxy, (hmem n).mp hin⟩
      · exists d.addEdge s n
        constructor
        · intro fuel hfuel
          rw [connect, hreachable fuel hfuel]
          exact if_neg hin
        · constructor
          · exact h.addEdge hn
          · constructor
            · intro x
              rw [mem_ns_addEdge]
              constructor
              · intro hx
                rcases hx with hx | heq | heq
                · exact hx
                · exact heq ▸ h.mem
                · exact heq ▸ hn
              · exact Or.inl
            · constructor
              · intro x y hxy
                exact edge_addEdge.mpr (Or.inl hxy)
              · apply Relation.ReflTransGen.single
                exact edge_addEdge.mpr (Or.inr ⟨rfl, rfl⟩)
    rcases hone with ⟨next, hconnect, hturned, hnodes, hedges, hreach⟩
    rcases ih hturned (fun x hx => (hnodes x).mpr (hrest x hx)) with
      ⟨bound', d', hrun, hturned', hnodes', hedges', hreach'⟩
    exists bound + bound', d'
    constructor
    · intro fuel hfuel
      rw [List.foldlM_cons, hconnect fuel
        (Nat.le_trans (Nat.le_add_right bound bound') hfuel)]
      exact hrun fuel (Nat.le_trans (Nat.le_add_left bound' bound) hfuel)
    · constructor
      · exact hturned'
      · constructor
        · intro x hx
          exact (hnodes x).mp (hnodes' x hx)
        · constructor
          · intro x y hxy
            exact hedges' x y (hedges x y hxy)
          · intro x hx
            rcases List.mem_cons.mp hx with heq | hx
            · rw [heq]
              exact Relation.ReflTransGen.mono hedges' _ _ hreach
            · exact hreach' x hx

theorem dual_isDual (g : Graph Node) (dummySource : Node) :
    exists bound d s, (forall fuel, bound ≤ fuel ->
      dual fuel g dummySource = some d) ∧ IsDual g dummySource d s := by
  rcases foldlM_connect (g.sourced dummySource).1.ns
    (sourced_isTurned g dummySource) (fun _ hx => hx) with
    ⟨bound, d, hrun, hturned, hnodes, _, hreach⟩
  exists bound, d, (g.sourced dummySource).2
  exact ⟨hrun, hturned, fun x hx => hreach x (hnodes x hx)⟩

end Dual

end Graph

end Boogie
