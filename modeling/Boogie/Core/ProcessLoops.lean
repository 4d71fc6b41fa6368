import Boogie.Core.Program
import Boogie.Graph.NaturalLoops

/-!
# The graph of the blocks of an implementation

Unreachable blocks are pruned, and the graph of the others has to be reducible.
The predecessors that are computed along the way are not needed here.
-/

namespace Boogie

def Cmd.isFalse (c : Cmd) : Bool :=
  match c.predicate with
  | some (.literal (.bool false)) => true
  | _ => false

def Block.pruned (pruneInfeasibleEdges : Bool) (b : Block) : Block :=
  match b.transferCmd with
  | .gotoCmd _ =>
    if pruneInfeasibleEdges = true ∧ b.cmds.any Cmd.isFalse = true then
      { b with transferCmd := .returnCmd }
    else b
  | _ => b

namespace Implementation

def blockAt (impl : Implementation) (id : Nat) : Option Block :=
  impl.blocks.find? (fun b => b.uniqueId = id)

def blockIds (impl : Implementation) : List Nat :=
  impl.blocks.map Block.uniqueId

/-- The loop over `visitNext`, whose last element is the first of the list. -/
def pruneFrom (pruneInfeasibleEdges : Bool) (impl : Implementation) :
    Nat -> List Nat -> List Block -> Option (List Block)
  | 0, _, _ => none
  | _ + 1, [], reachableBlocks => some reachableBlocks
  | fuel + 1, id :: visitNext, reachableBlocks =>
    if id ∈ reachableBlocks.map Block.uniqueId then
      pruneFrom pruneInfeasibleEdges impl fuel visitNext reachableBlocks
    else
      match impl.blockAt id with
      | none => none
      | some b =>
        let b := b.pruned pruneInfeasibleEdges
        pruneFrom pruneInfeasibleEdges impl fuel
          (b.labelTargets.reverse ++ visitNext) (reachableBlocks ++ [b])

def pruneUnreachableBlocks (fuel : Nat) (pruneInfeasibleEdges : Bool)
    (impl : Implementation) : Option Implementation :=
  match impl.blocks with
  | [] => none
  | first :: _ =>
    match pruneFrom pruneInfeasibleEdges impl fuel [first.uniqueId] [] with
    | none => none
    | some reachableBlocks => some { impl with blocks := reachableBlocks }

def addGoto (g : Graph Nat) (b : Block) : Graph Nat :=
  b.labelTargets.foldl (fun g dest => g.addEdge b.uniqueId dest) g

def graphFromImpl (impl : Implementation) : Option (Graph Nat) :=
  match impl.blocks with
  | [] => none
  | first :: _ =>
    some (impl.blocks.foldl addGoto (Graph.empty.addSource first.uniqueId))

/-- `ProcessLoops`, which changes the blocks of the implementation. -/
def processLoops (fuel : Nat) (pruneInfeasibleEdges : Bool)
    (impl : Implementation) : Option (Implementation × Graph Nat) :=
  match impl.pruneUnreachableBlocks fuel pruneInfeasibleEdges with
  | none => none
  | some impl =>
    match impl.graphFromImpl with
    | none => none
    | some g =>
      match g.source with
      | none => none
      | some source =>
        match g.computeReducible fuel source with
        | none => none
        | some r => if r.reducible = true then some (impl, g) else none

/-!
# Pruning
-/

structure WellFormed (impl : Implementation) : Prop where
  nodup : impl.blockIds.Nodup
  nonempty : impl.blocks ≠ []
  targets : forall b, b ∈ impl.blocks -> forall t, t ∈ b.labelTargets ->
    t ∈ impl.blockIds

section Prune

variable {impl : Implementation} {prune : Bool} {visitNext : List Nat}
  {reachableBlocks : List Block} {first : Nat}

@[simp] theorem uniqueId_pruned (b : Block) :
    (b.pruned prune).uniqueId = b.uniqueId := by
  unfold Block.pruned
  split
  · split
    · rfl
    · rfl
  · rfl

@[simp] theorem cmds_pruned (b : Block) : (b.pruned prune).cmds = b.cmds := by
  unfold Block.pruned
  split
  · split
    · rfl
    · rfl
  · rfl

theorem labelTargets_pruned {b : Block} {t : Nat}
    (h : t ∈ (b.pruned prune).labelTargets) : t ∈ b.labelTargets := by
  unfold Block.pruned at h
  split at h
  · split at h
    · cases h
    · exact h
  · exact h

theorem exists_blockAt {id : Nat} (hid : id ∈ impl.blockIds) :
    exists b, impl.blockAt id = some b ∧ b ∈ impl.blocks ∧ b.uniqueId = id := by
  rcases List.mem_map.mp hid with ⟨b, hb, heq⟩
  have hsome : (impl.blockAt id).isSome = true := by
    rw [blockAt, List.find?_isSome]
    exact ⟨b, hb, decide_eq_true heq⟩
  rcases Option.isSome_iff_exists.mp hsome with ⟨c, hc⟩
  exists c
  constructor
  · exact hc
  · exact ⟨List.mem_of_find?_eq_some hc, by simpa using List.find?_some hc⟩

/-- What the loop keeps: only targets of the blocks found are to be visited. -/
structure Pruning (prune : Bool) (impl : Implementation) (first : Nat)
    (visitNext : List Nat) (reachableBlocks : List Block) : Prop where
  nodup : (reachableBlocks.map Block.uniqueId).Nodup
  blocks : forall b', b' ∈ reachableBlocks ->
    exists b, b ∈ impl.blocks ∧ b' = b.pruned prune
  next : forall t, t ∈ visitNext -> t ∈ impl.blockIds
  targets : forall b, b ∈ reachableBlocks -> forall t, t ∈ b.labelTargets ->
    t ∈ reachableBlocks.map Block.uniqueId ∨ t ∈ visitNext
  start : (reachableBlocks = [] ∧ visitNext = [first]) ∨
    exists b rest, reachableBlocks = b :: rest ∧ b.uniqueId = first
  reach : forall t,
    t ∈ reachableBlocks.map Block.uniqueId ∨ t ∈ visitNext ->
      Relation.ReflTransGen (Jumps reachableBlocks) first t

theorem Pruning.skip {id : Nat} (h : Pruning prune impl first (id :: visitNext) reachableBlocks)
    (hid : id ∈ reachableBlocks.map Block.uniqueId) :
    Pruning prune impl first visitNext reachableBlocks where
  nodup := h.nodup
  blocks := h.blocks
  next := fun t ht => h.next t (List.mem_cons_of_mem id ht)
  targets := by
    intro b hb t ht
    rcases h.targets b hb t ht with hfound | hnext
    · exact Or.inl hfound
    · rcases List.mem_cons.mp hnext with heq | hnext
      · exact Or.inl (heq ▸ hid)
      · exact Or.inr hnext
  start := by
    rcases h.start with ⟨hnil, _⟩ | hstart
    · rw [hnil] at hid
      cases hid
    · exact Or.inr hstart
  reach := by
    intro t ht
    apply h.reach t
    rcases ht with ht | ht
    · exact Or.inl ht
    · exact Or.inr (List.mem_cons_of_mem id ht)

theorem Pruning.visit {b : Block} (hwf : impl.WellFormed)
    (h : Pruning prune impl first (b.uniqueId :: visitNext) reachableBlocks) (hb : b ∈ impl.blocks)
    (hnew : b.uniqueId ∉ reachableBlocks.map Block.uniqueId) :
    Pruning prune impl first ((b.pruned prune).labelTargets.reverse ++ visitNext)
      (reachableBlocks ++ [b.pruned prune]) := by
  have hmono : forall x y, Jumps reachableBlocks x y ->
      Jumps (reachableBlocks ++ [b.pruned prune]) x y := by
    intro x y ⟨c, hc, hjump⟩
    exact ⟨c, List.mem_append_left _ hc, hjump⟩
  have hids : (reachableBlocks ++ [b.pruned prune]).map Block.uniqueId =
      reachableBlocks.map Block.uniqueId ++ [b.uniqueId] := by
    rw [List.map_append, List.map_singleton, uniqueId_pruned]
  have hreach : Relation.ReflTransGen
      (Jumps (reachableBlocks ++ [b.pruned prune])) first b.uniqueId := by
    apply Relation.ReflTransGen.mono hmono
    exact h.reach b.uniqueId (Or.inr List.mem_cons_self)
  constructor
  · rw [hids]
    simpa using h.nodup.concat hnew
  · intro b' hb'
    rcases List.mem_append.mp hb' with hb' | hb'
    · exact h.blocks b' hb'
    · exact ⟨b, hb, List.mem_singleton.mp hb'⟩
  · intro t ht
    rcases List.mem_append.mp ht with ht | ht
    · exact hwf.targets b hb t (labelTargets_pruned (List.mem_reverse.mp ht))
    · exact h.next t (List.mem_cons_of_mem _ ht)
  · intro c hc t ht
    rw [hids, List.mem_append, List.mem_append, List.mem_singleton,
      List.mem_reverse]
    rcases List.mem_append.mp hc with hc | hc
    · rcases h.targets c hc t ht with hfound | hnext
      · exact Or.inl (Or.inl hfound)
      · rcases List.mem_cons.mp hnext with heq | hnext
        · exact Or.inl (Or.inr heq)
        · exact Or.inr (Or.inr hnext)
    · rw [List.mem_singleton.mp hc] at ht
      exact Or.inr (Or.inl ht)
  · right
    rcases h.start with ⟨hnil, hnext⟩ | ⟨c, rest, hcons, hfirst⟩
    · exists b.pruned prune, []
      constructor
      · rw [hnil]
        rfl
      · rw [uniqueId_pruned]
        exact (List.cons.inj hnext).1
    · exists c, rest ++ [b.pruned prune]
      constructor
      · rw [hcons]
        rfl
      · exact hfirst
  · intro t ht
    rw [hids, List.mem_append, List.mem_append, List.mem_singleton,
      List.mem_reverse] at ht
    rcases ht with (ht | heq) | ht | ht
    · apply Relation.ReflTransGen.mono hmono
      exact h.reach t (Or.inl ht)
    · exact heq ▸ hreach
    · apply hreach.tail
      exact ⟨b.pruned prune, List.mem_append_right _ List.mem_cons_self,
        uniqueId_pruned b, ht⟩
    · apply Relation.ReflTransGen.mono hmono
      exact h.reach t (Or.inr (List.mem_cons_of_mem _ ht))

theorem exists_pruneFrom (hwf : impl.WellFormed) (u : Nat)
    (visitNext : List Nat) (reachableBlocks : List Block) (hu : DepthFirst.unvisited impl.blockIds
      (reachableBlocks.map Block.uniqueId) < u)
    (h : Pruning prune impl first visitNext reachableBlocks) :
    exists bound found, (forall fuel, bound ≤ fuel ->
        pruneFrom prune impl fuel visitNext reachableBlocks = some found) ∧
      Pruning prune impl first [] found := by
  induction u generalizing visitNext reachableBlocks with
  | zero => exact absurd hu (Nat.not_lt_zero _)
  | succ u ih =>
    induction visitNext with
    | nil =>
      exists 1, reachableBlocks
      constructor
      · intro fuel hfuel
        rcases Nat.exists_eq_add_of_le' hfuel with ⟨more, heq⟩
        rw [heq, pruneFrom]
      · exact h
    | cons id visitNext ihnext =>
      have hid := h.next id List.mem_cons_self
      by_cases hfound : id ∈ reachableBlocks.map Block.uniqueId
      · rcases ihnext (h.skip hfound) with ⟨bound, found, hrun, hpruning⟩
        exists bound + 1, found
        constructor
        · intro fuel hfuel
          rcases Nat.exists_eq_add_of_le' hfuel with ⟨more, heq⟩
          rw [heq, ← Nat.add_assoc, pruneFrom, if_pos hfound]
          exact hrun _ (Nat.le_add_left bound more)
        · exact hpruning
      · rcases exists_blockAt hid with ⟨b, hat, hb, heq⟩
        subst heq
        have hless := DepthFirst.unvisited_lt hid hfound
        rcases ih _ _ (by
            rw [List.map_append, List.map_singleton, uniqueId_pruned]
            exact Nat.lt_of_lt_of_le hless (Nat.le_of_lt_succ hu))
          (h.visit hwf hb hfound) with ⟨bound, found, hrun, hpruning⟩
        exists bound + 1, found
        constructor
        · intro fuel hfuel
          rcases Nat.exists_eq_add_of_le' hfuel with ⟨more, heq⟩
          rw [heq, ← Nat.add_assoc, pruneFrom, if_neg hfound, hat]
          exact hrun _ (Nat.le_add_left bound more)
        · exact hpruning

structure IsPruned (prune : Bool) (impl impl' : Implementation) : Prop where
  same : impl' = { impl with blocks := impl'.blocks }
  blocks : forall b', b' ∈ impl'.blocks ->
    exists b, b ∈ impl.blocks ∧ b' = b.pruned prune
  wellFormed : impl'.WellFormed
  reach : forall first rest, impl'.blocks = first :: rest ->
    forall t, t ∈ impl'.blockIds ->
      Relation.ReflTransGen (Jumps impl'.blocks) first.uniqueId t

theorem pruneUnreachableBlocks_spec (prune : Bool) (hwf : impl.WellFormed) :
    exists bound impl', (forall fuel, bound ≤ fuel ->
        impl.pruneUnreachableBlocks fuel prune = some impl') ∧ IsPruned prune impl impl' := by
  cases hblocks : impl.blocks with
  | nil => exact absurd hblocks hwf.nonempty
  | cons first rest =>
    have hfirst : first.uniqueId ∈ impl.blockIds := by
      rw [blockIds, hblocks]
      exact List.mem_cons_self
    have hinitial : Pruning prune impl first.uniqueId [first.uniqueId] [] := by
      constructor
      · exact List.nodup_nil
      · intro b' hb'
        cases hb'
      · intro t ht
        rw [List.mem_singleton.mp ht]
        exact hfirst
      · intro b hb
        cases hb
      · exact Or.inl ⟨rfl, rfl⟩
      · intro t ht
        rcases ht with ht | ht
        · cases ht
        · rw [List.mem_singleton.mp ht]
    rcases exists_pruneFrom hwf _ _ _ (Nat.lt_succ_self _) hinitial with
      ⟨bound, found, hrun, hpruning⟩
    exists bound, { impl with blocks := found }
    constructor
    · intro fuel hfuel
      rw [pruneUnreachableBlocks, hblocks]
      dsimp only
      rw [hrun fuel hfuel]
    · have hstart : exists b rest, found = b :: rest ∧
          b.uniqueId = first.uniqueId := by
        rcases hpruning.start with ⟨_, hnext⟩ | hstart
        · cases hnext
        · exact hstart
      rcases hstart with ⟨b, rest', hcons, hb⟩
      constructor
      · rfl
      · exact hpruning.blocks
      · constructor
        · exact hpruning.nodup
        · intro hnil
          rw [hcons] at hnil
          cases hnil
        · intro c hc t ht
          exact (hpruning.targets c hc t ht).resolve_right List.not_mem_nil
      · intro c rest'' hcons' t ht
        have hsame := (List.cons.inj (hcons.symm.trans hcons')).1
        rw [← hsame, hb]
        exact hpruning.reach t (Or.inl ht)

end Prune

/-!
# The graph
-/

section BlockGraph

variable {impl impl' : Implementation} {prune : Bool} {g : Graph Nat}
  {x y : Nat}

theorem foldl_addEdge_targets (s : Nat) (targets : List Nat) (g : Graph Nat) :
    (targets.foldl (fun g dest => g.addEdge s dest) g).source = g.source ∧ (forall x, x ∈ g.ns ->
        x ∈ (targets.foldl (fun g dest => g.addEdge s dest) g).ns) ∧
      (forall x, x ∈ (targets.foldl (fun g dest => g.addEdge s dest) g).ns ->
        x ∈ g.ns ∨ x = s ∨ x ∈ targets) ∧
      forall x y, (targets.foldl (fun g dest => g.addEdge s dest) g).Edge x y <->
        g.Edge x y ∨ (x = s ∧ y ∈ targets) := by
  induction targets generalizing g with
  | nil => exact ⟨rfl, fun _ hx => hx, fun _ hx => Or.inl hx, by simp⟩
  | cons t targets ih =>
    rcases ih (g.addEdge s t) with ⟨hsource, hgrows, hns, hedges⟩
    rw [List.foldl_cons]
    constructor
    · exact hsource
    · constructor
      · intro x hx
        exact hgrows x (Graph.mem_ns_addEdge.mpr (Or.inl hx))
      · constructor
        · intro x hx
          rw [List.mem_cons]
          rcases hns x hx with hx | heq | hx
          · rcases Graph.mem_ns_addEdge.mp hx with hx | heq | heq
            · exact Or.inl hx
            · exact Or.inr (Or.inl heq)
            · exact Or.inr (Or.inr (Or.inl heq))
          · exact Or.inr (Or.inl heq)
          · exact Or.inr (Or.inr (Or.inr hx))
        · intro x y
          rw [hedges, Graph.edge_addEdge, List.mem_cons, or_assoc,
            ← and_or_left]

theorem foldl_addGoto (blocks : List Block) (g : Graph Nat) :
    (blocks.foldl addGoto g).source = g.source ∧
      (forall x, x ∈ g.ns -> x ∈ (blocks.foldl addGoto g).ns) ∧
      (forall x, x ∈ (blocks.foldl addGoto g).ns -> x ∈ g.ns ∨
        exists b, b ∈ blocks ∧ (x = b.uniqueId ∨ x ∈ b.labelTargets)) ∧
      forall x y, (blocks.foldl addGoto g).Edge x y <-> g.Edge x y ∨ Jumps blocks x y := by
  induction blocks generalizing g with
  | nil => simp [Jumps]
  | cons b blocks ih =>
    rcases ih (addGoto g b) with ⟨hsource, hgrows, hns, hedges⟩
    rcases foldl_addEdge_targets b.uniqueId b.labelTargets g with
      ⟨hsource', hgrows', hns', hedges'⟩
    rw [List.foldl_cons]
    constructor
    · exact hsource.trans hsource'
    · constructor
      · intro x hx
        exact hgrows x (hgrows' x hx)
      · constructor
        · intro x hx
          rcases hns x hx with hx | ⟨c, hc, hx⟩
          · rcases hns' x hx with hx | hx
            · exact Or.inl hx
            · exact Or.inr ⟨b, List.mem_cons_self, hx⟩
          · exact Or.inr ⟨c, List.mem_cons_of_mem b hc, hx⟩
        · intro x y
          rw [hedges, addGoto, hedges', or_assoc]
          apply or_congr_right
          constructor
          · intro hxy
            rcases hxy with ⟨heq, ht⟩ | ⟨c, hc, hjump⟩
            · exact ⟨b, List.mem_cons_self, heq.symm, ht⟩
            · exact ⟨c, List.mem_cons_of_mem b hc, hjump⟩
          · intro ⟨c, hc, hid, ht⟩
            rcases List.mem_cons.mp hc with heq | hc
            · rw [heq] at hid ht
              exact Or.inl ⟨hid.symm, ht⟩
            · exact Or.inr ⟨c, hc, hid, ht⟩

structure IsBlockGraph (impl : Implementation) (g : Graph Nat) (start : Nat) :
    Prop where
  source : g.source = some start
  nodes : forall x, x ∈ g.ns <-> x ∈ impl.blockIds
  edges : forall x y, g.Edge x y <-> Jumps impl.blocks x y
  mem : start ∈ g.ns
  reach : forall x, x ∈ g.ns -> Relation.ReflTransGen g.Edge start x

theorem graphFromImpl_spec (h : IsPruned prune impl impl') :
    exists g source, impl'.graphFromImpl = some g ∧ IsBlockGraph impl' g source := by
  cases hblocks : impl'.blocks with
  | nil => exact absurd hblocks h.wellFormed.nonempty
  | cons first rest =>
    have hreach := h.reach first rest hblocks
    rcases foldl_addGoto impl'.blocks (Graph.empty.addSource first.uniqueId) with
      ⟨hsource, hgrows, hns, hedges⟩
    have hedges' : forall x y, (impl'.blocks.foldl addGoto
        (Graph.empty.addSource first.uniqueId)).Edge x y <->
          Jumps impl'.blocks x y := by
      intro x y
      rw [hedges]
      simp
    have hfirst : first.uniqueId ∈ impl'.blockIds := by
      rw [blockIds, hblocks]
      exact List.mem_cons_self
    have hgraph : Relation.ReflTransGen (impl'.blocks.foldl addGoto
        (Graph.empty.addSource first.uniqueId)).Edge first.uniqueId =
        Relation.ReflTransGen (Jumps impl'.blocks) first.uniqueId := by
      have hsame : (impl'.blocks.foldl addGoto
          (Graph.empty.addSource first.uniqueId)).Edge = Jumps impl'.blocks := by
        funext x y
        exact propext (hedges' x y)
      rw [hsame]
    have hmem : first.uniqueId ∈ (impl'.blocks.foldl addGoto
        (Graph.empty.addSource first.uniqueId)).ns := by
      apply hgrows
      simp
    have hnodes : forall x, x ∈ (impl'.blocks.foldl addGoto
        (Graph.empty.addSource first.uniqueId)).ns <-> x ∈ impl'.blockIds := by
      intro x
      constructor
      · intro hx
        rcases hns x hx with hx | ⟨b, hb, heq | ht⟩
        · have heq : x = first.uniqueId := by
            simpa [Graph.empty] using hx
          rw [heq]
          exact hfirst
        · rw [heq]
          exact List.mem_map_of_mem hb
        · exact h.wellFormed.targets b hb x ht
      · intro hx
        rcases Relation.ReflTransGen.cases_tail (hreach x hx) with
          heq | ⟨z, _, hjump⟩
        · rw [heq]
          exact hmem
        · exact (Graph.endpoints _ _ ((hedges' z x).mpr hjump)).2
    apply Exists.intro
    exists first.uniqueId
    constructor
    · rw [graphFromImpl, hblocks]
    · rw [← hblocks]
      constructor
      · exact hsource
      · exact hnodes
      · exact hedges'
      · exact hmem
      · intro x hx
        rw [hgraph]
        exact hreach x ((hnodes x).mp hx)

theorem processLoops_spec (prune : Bool) (hwf : impl.WellFormed) :
    exists bound impl' g source, IsPruned prune impl impl' ∧ IsBlockGraph impl' g source ∧
      (g.Reducible source -> forall fuel, bound ≤ fuel ->
        impl.processLoops fuel prune = some (impl', g)) ∧
      (¬ g.Reducible source -> forall fuel, bound ≤ fuel ->
        impl.processLoops fuel prune = none) := by
  rcases pruneUnreachableBlocks_spec prune hwf with
    ⟨bound, impl', hprune, hpruned⟩
  rcases graphFromImpl_spec hpruned with ⟨g, source, hg, hgraph⟩
  rcases Graph.computeReducible_spec hgraph.mem hgraph.reach with
    ⟨bound', back, others, _, hreducible⟩
  exists bound + bound', impl', g, source
  constructor
  · exact hpruned
  · constructor
    · exact hgraph
    · have hrun : forall fuel, bound + bound' ≤ fuel ->
          impl.processLoops fuel prune =
            match g.computeReducible fuel source with
            | none => none
            | some r => if r.reducible = true then some (impl', g) else none := by
        intro fuel hfuel
        rw [processLoops,
          hprune fuel (Nat.le_trans (Nat.le_add_right _ _) hfuel)]
        dsimp only
        rw [hg]
        dsimp only
        rw [hgraph.source]
      constructor
      · intro hred fuel hfuel
        rcases (hreducible fuel (Nat.le_trans (Nat.le_add_left _ _) hfuel)).1 hred
          with ⟨L, hL, _⟩
        rw [hrun fuel hfuel, hL]
        rfl
      · intro hred fuel hfuel
        rcases (hreducible fuel (Nat.le_trans (Nat.le_add_left _ _) hfuel)).2 hred
          with ⟨c, hc⟩
        rw [hrun fuel hfuel, hc]
        rfl

theorem exists_pruned_of_processLoops
    {a : Implementation × Graph Nat} (hwf : impl.WellFormed)
    (h : exists bound, forall fuel, bound ≤ fuel -> impl.processLoops fuel prune = some a) :
    IsPruned prune impl a.1 ∧ exists start, IsBlockGraph a.1 a.2 start := by
  rcases h with ⟨bound, hrun⟩
  rcases processLoops_spec prune hwf with
    ⟨bound', impl', g, start, hpruned, hgraph, hyes, hno⟩
  have hresult := hrun (bound + bound') (Nat.le_add_right _ _)
  by_cases hred : g.Reducible start
  · rw [hyes hred _ (Nat.le_add_left _ _)] at hresult
    cases hresult
    exact ⟨hpruned, start, hgraph⟩
  · rw [hno hred _ (Nat.le_add_left _ _)] at hresult
    cases hresult

end BlockGraph

end Implementation

end Boogie
