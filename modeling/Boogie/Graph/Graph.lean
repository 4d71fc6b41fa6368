import Mathlib.Data.Fintype.EquivFin
import Mathlib.Data.List.Count
import Mathlib.Data.List.Nodup
import Mathlib.Data.Set.Finite.List
import Mathlib.Logic.Function.Basic
import Mathlib.Order.WellFounded

/-!
# Directed graphs and topological sorting

Node and edge sets are lists in insertion order, the order in which the sort
scans for its next root.
-/

namespace Boogie

variable {Node : Type} [DecidableEq Node]

/-- `HashSet.Add`: a new element is enumerated last. -/
def hashSetAdd (s : List Node) (x : Node) : List Node :=
  if x ∈ s then s else s ++ [x]

@[simp] theorem mem_hashSetAdd {s : List Node} {x y : Node} :
    y ∈ hashSetAdd s x <-> y ∈ s ∨ y = x := by
  unfold hashSetAdd
  split
  · rename_i hx
    constructor
    · intro hy
      exact Or.inl hy
    · rintro (hy | rfl)
      · exact hy
      · exact hx
  · simp

theorem mem_foldl_hashSetAdd {y : Node} (xs s : List Node) :
    y ∈ xs.foldl hashSetAdd s <-> y ∈ s ∨ y ∈ xs := by
  induction xs generalizing s with
  | nil => simp
  | cons x xs ih =>
    rw [List.foldl_cons, ih, mem_hashSetAdd, List.mem_cons, or_assoc]

theorem hashSetAdd_nodup {s : List Node} {x : Node} (h : s.Nodup) :
    (hashSetAdd s x).Nodup := by
  unfold hashSetAdd
  split
  · exact h
  · rename_i hx
    simpa using h.concat hx

structure Graph (Node : Type) where
  ns : List Node
  es : List (Node × Node)
  source : Option Node
  nodup : ns.Nodup
  endpoints : forall e, e ∈ es -> e.1 ∈ ns ∧ e.2 ∈ ns

namespace Graph

def empty : Graph Node where
  ns := []
  es := []
  source := none
  nodup := List.nodup_nil
  endpoints := by simp

def addEndpoints (ns : List Node) (e : Node × Node) : List Node :=
  hashSetAdd (hashSetAdd ns e.1) e.2

theorem mem_foldl_addEndpoints {x : Node} (es : List (Node × Node)) (ns : List Node) :
    x ∈ es.foldl addEndpoints ns <-> x ∈ ns ∨ exists e, e ∈ es ∧ (x = e.1 ∨ x = e.2) := by
  induction es generalizing ns with
  | nil => simp
  | cons e es ih =>
    rw [List.foldl_cons, ih]
    simp [addEndpoints, or_assoc]

theorem foldl_addEndpoints_nodup (es : List (Node × Node)) {ns : List Node}
    (h : ns.Nodup) : (es.foldl addEndpoints ns).Nodup := by
  induction es generalizing ns with
  | nil => exact h
  | cons e es ih => exact ih (hashSetAdd_nodup (hashSetAdd_nodup h))

def ofEdges (es : List (Node × Node)) : Graph Node where
  ns := es.foldl addEndpoints []
  es := es
  source := none
  nodup := foldl_addEndpoints_nodup es List.nodup_nil
  endpoints := by
    intro e he
    constructor
    · exact (mem_foldl_addEndpoints es []).mpr (Or.inr ⟨e, he, Or.inl rfl⟩)
    · exact (mem_foldl_addEndpoints es []).mpr (Or.inr ⟨e, he, Or.inr rfl⟩)

def addSource (g : Graph Node) (x : Node) : Graph Node where
  ns := hashSetAdd g.ns x
  es := g.es
  source := some x
  nodup := hashSetAdd_nodup g.nodup
  endpoints := by
    intro e he
    have h := g.endpoints e he
    simp [h.1, h.2]

def addEdge (g : Graph Node) (source dest : Node) : Graph Node where
  ns := hashSetAdd (hashSetAdd g.ns source) dest
  es := hashSetAdd g.es (source, dest)
  source := g.source
  nodup := hashSetAdd_nodup (hashSetAdd_nodup g.nodup)
  endpoints := by
    intro e he
    rcases mem_hashSetAdd.mp he with hold | rfl
    · have h := g.endpoints e hold
      simp [h.1, h.2]
    · simp

def predecessors (g : Graph Node) (n : Node) : List Node :=
  (g.es.filter (fun e => e.2 = n)).map Prod.fst

def successors (g : Graph Node) (n : Node) : List Node :=
  (g.es.filter (fun e => e.1 = n)).map Prod.snd

def Edge (g : Graph Node) (x y : Node) : Prop :=
  (x, y) ∈ g.es

@[simp] theorem mem_predecessors {g : Graph Node} {n p : Node} :
    p ∈ g.predecessors n <-> g.Edge p n := by
  simp [predecessors, Edge]

@[simp] theorem mem_successors {g : Graph Node} {n s : Node} :
    s ∈ g.successors n <-> g.Edge n s := by
  simp [successors, Edge]

@[simp] theorem mem_ns_addSource {g : Graph Node} {x y : Node} :
    y ∈ (g.addSource x).ns <-> y ∈ g.ns ∨ y = x := by
  simp [addSource]

@[simp] theorem mem_ns_addEdge {g : Graph Node} {x y z : Node} :
    z ∈ (g.addEdge x y).ns <-> z ∈ g.ns ∨ z = x ∨ z = y := by
  simp [addEdge, or_assoc]

@[simp] theorem edge_addEdge {g : Graph Node} {x y u v : Node} :
    (g.addEdge x y).Edge u v <-> g.Edge u v ∨ (u = x ∧ v = y) := by
  simp [addEdge, Edge, Prod.ext_iff]

@[simp] theorem edge_addSource {g : Graph Node} {x u v : Node} :
    (g.addSource x).Edge u v <-> g.Edge u v :=
  Iff.rfl

omit [DecidableEq Node] in
@[simp] theorem not_edge_empty {u v : Node} :
    ¬ (empty : Graph Node).Edge u v := by
  simp [empty, Edge]

/-!
# Topological sorting

The roots are found in the numbering of the nodes, or from its end when the
sort is reversed.  A node already listed has the mark `-1`.
-/

def incomingEdges (g : Graph Node) (n : Node) : Int :=
  g.es.countP (fun e => e.2 = n)

def findRoot (g : Graph Node) (reversed : Bool) (incoming : Node -> Int) :
    Option Node :=
  if reversed then g.ns.reverse.find? (fun i => incoming i = 0)
  else g.ns.find? (fun i => incoming i = 0)

def decrementAll (incoming : Node -> Int) : List Node -> Node -> Int
  | [] => incoming
  | s :: rest =>
    decrementAll (Function.update incoming s (incoming s - 1)) rest

/-- `n` iterations of the main loop, each of which lists one node. -/
def tarjanLoop (g : Graph Node) (reversed : Bool) :
    Nat -> (Node -> Int) -> List Node -> Option (List Node)
  | 0, _, sorted => some sorted
  | n + 1, incoming, sorted =>
    match g.findRoot reversed incoming with
    | none => none
    | some root =>
      tarjanLoop g reversed n
        (decrementAll (Function.update incoming root (-1))
          (g.successors root))
        (sorted ++ [root])

def tarjanTopSort (g : Graph Node) (reversed : Bool) : Bool × List Node :=
  match g.tarjanLoop reversed g.ns.length g.incomingEdges [] with
  | none => (false, [])
  | some sorted => (true, sorted)

def topologicalSort (g : Graph Node) (reversed : Bool) : List Node :=
  let result := g.tarjanTopSort reversed
  if result.1 then result.2 else []

/-!
# Correctness of the sort
-/

def Acyclic (g : Graph Node) : Prop :=
  forall n, ¬ Relation.TransGen g.Edge n n

/-- Every node is preceded in the list by the sources of its edges. -/
def Ordered (g : Graph Node) (l : List Node) : Prop :=
  forall before n after, l = before ++ n :: after ->
    forall p, g.Edge p n -> p ∈ before

structure IsTopologicalOrder (g : Graph Node) (l : List Node) : Prop where
  nodup : l.Nodup
  mem_iff : forall n, n ∈ l <-> n ∈ g.ns
  ordered : g.Ordered l

/-- The number of edges into `n` whose source is not yet listed. -/
def pending (g : Graph Node) (sorted : List Node) (n : Node) : Nat :=
  g.es.countP (fun e => e.2 = n ∧ e.1 ∉ sorted)

structure SortInvariant (g : Graph Node) (incoming : Node -> Int)
    (sorted : List Node) : Prop where
  nodup : sorted.Nodup
  subset : forall n, n ∈ sorted -> n ∈ g.ns
  ordered : g.Ordered sorted
  marked : forall n, n ∈ sorted -> incoming n = -1
  counted : forall n, n ∉ sorted -> incoming n = g.pending sorted n

omit [DecidableEq Node] in
theorem Ordered.concat
    {g : Graph Node} {l : List Node} {n : Node}
    (hl : g.Ordered l) (hn : forall p, g.Edge p n -> p ∈ l) :
    g.Ordered (l ++ [n]) := by
  intro before m after heq p hp
  rcases List.eq_nil_or_concat after with rfl | ⟨rest, last, rfl⟩
  · have hsplit := List.append_inj' heq rfl
    have hm : m = n := by simpa using hsplit.2.symm
    rw [← hsplit.1]
    exact hn p (hm ▸ hp)
  · have hassoc : l ++ [n] = (before ++ m :: rest) ++ [last] := by
      simpa using heq
    exact hl before m rest (List.append_inj' hassoc rfl).1 p hp

theorem count_successors (g : Graph Node) (root n : Node) :
    (g.successors root).count n = g.es.count (root, n) := by
  unfold successors
  induction g.es with
  | nil => simp
  | cons e rest ih =>
    rcases e with ⟨x, y⟩
    by_cases hx : x = root
    · simp [hx, List.count_cons, ih, Prod.ext_iff]
    · simp [hx, ih, Prod.ext_iff]

theorem decrementAll_apply (incoming : Node -> Int) (ss : List Node) (n : Node) :
    decrementAll incoming ss n = incoming n - ss.count n := by
  induction ss generalizing incoming with
  | nil => simp [decrementAll]
  | cons s rest ih =>
    rw [decrementAll, ih, List.count_cons]
    by_cases hs : n = s
    · subst hs
      simp
      omega
    · have hs' : ¬ (s = n) := fun h => hs h.symm
      simp [Function.update_of_ne hs, hs']

theorem pending_concat (g : Graph Node) {sorted : List Node} {root : Node} (n : Node)
    (hroot : root ∉ sorted) :
    g.pending sorted n = g.pending (sorted ++ [root]) n + g.es.count (root, n) := by
  unfold pending
  induction g.es with
  | nil => simp
  | cons e rest ih =>
    rcases e with ⟨x, y⟩
    rw [List.countP_cons, List.countP_cons, List.count_cons, ih]
    by_cases hy : y = n
    · by_cases hx : x = root
      · subst hx
        simp [hy, hroot]
        omega
      · by_cases hmem : x ∈ sorted
        · simp [hy, hx, hmem]
        · simp [hy, hx, hmem]
          omega
    · simp [hy]

theorem pending_eq_zero {g : Graph Node} {sorted : List Node} {n : Node} :
    g.pending sorted n = 0 <-> forall p, g.Edge p n -> p ∈ sorted := by
  unfold pending Edge
  rw [List.countP_eq_zero]
  constructor
  · intro h p hp
    by_contra hnot
    exact h (p, n) hp (by simp [hnot])
  · rintro h ⟨x, y⟩ he
    simp only [decide_eq_true_eq, not_and, not_not]
    rintro rfl
    exact h x he

theorem SortInvariant.initial (g : Graph Node) :
    g.SortInvariant g.incomingEdges [] where
  nodup := List.nodup_nil
  subset := by simp
  ordered := by
    intro before n after h
    cases before <;> cases h
  marked := by simp
  counted := by
    intro n _
    simp [incomingEdges, pending]

theorem SortInvariant.step
    {g : Graph Node} {incoming : Node -> Int} {sorted : List Node}
    {root : Node} (hinv : g.SortInvariant incoming sorted) (hmem : root ∈ g.ns)
    (hzero : incoming root = 0) :
    g.SortInvariant (decrementAll (Function.update incoming root (-1)) (g.successors root))
      (sorted ++ [root]) := by
  have hfresh : root ∉ sorted := by
    intro h
    have := hinv.marked root h
    omega
  have hpreds : forall p, g.Edge p root -> p ∈ sorted := by
    have hcount := hinv.counted root hfresh
    exact pending_eq_zero.mp (by omega)
  have hnoedge : forall n, n ∈ sorted ++ [root] ->
      g.es.count (root, n) = 0 := by
    intro n hn
    rw [List.count_eq_zero]
    intro hedge
    rcases List.mem_append.mp hn with hold | hnew
    · rcases List.append_of_mem hold with ⟨before, after, hsplit⟩
      have := hinv.ordered before n after hsplit root hedge
      exact hfresh (by rw [hsplit]; simp [this])
    · rw [List.mem_singleton.mp hnew] at hedge
      exact hfresh (hpreds root hedge)
  constructor
  · simpa using hinv.nodup.concat hfresh
  · intro n hn
    rcases List.mem_append.mp hn with hold | hnew
    · exact hinv.subset n hold
    · rw [List.mem_singleton.mp hnew]
      exact hmem
  · exact hinv.ordered.concat hpreds
  · intro n hn
    rw [decrementAll_apply, count_successors, hnoedge n hn]
    rcases List.mem_append.mp hn with hold | hnew
    · have hne : n ≠ root := fun h => hfresh (h ▸ hold)
      simp [Function.update_of_ne hne, hinv.marked n hold]
    · rw [List.mem_singleton.mp hnew]
      simp
  · intro n hn
    have hne : n ≠ root := fun h => hn (by simp [h])
    have hold : n ∉ sorted := fun h => hn (by simp [h])
    rw [decrementAll_apply, count_successors, Function.update_of_ne hne,
      hinv.counted n hold, g.pending_concat n hfresh]
    omega

omit [DecidableEq Node] in
theorem findRoot_some
    {g : Graph Node} {reversed : Bool} {incoming : Node -> Int} {root : Node}
    (h : g.findRoot reversed incoming = some root) :
    root ∈ g.ns ∧ incoming root = 0 := by
  unfold findRoot at h
  split at h
  · exact ⟨List.mem_reverse.mp (List.mem_of_find?_eq_some h),
      by simpa using List.find?_some h⟩
  · exact ⟨List.mem_of_find?_eq_some h, by simpa using List.find?_some h⟩

omit [DecidableEq Node] in
theorem findRoot_none
    {g : Graph Node} {reversed : Bool} {incoming : Node -> Int}
    (h : g.findRoot reversed incoming = none) :
    forall n, n ∈ g.ns -> incoming n ≠ 0 := by
  intro n hn
  unfold findRoot at h
  split at h
  · simpa using List.find?_eq_none.mp h n (List.mem_reverse.mpr hn)
  · simpa using List.find?_eq_none.mp h n hn

theorem tarjanLoop_spec
    {g : Graph Node} {reversed : Bool} {n : Nat} {incoming : Node -> Int}
    {sorted l : List Node} (hinv : g.SortInvariant incoming sorted)
    (h : g.tarjanLoop reversed n incoming sorted = some l) :
    l.length = sorted.length + n ∧ exists incoming', g.SortInvariant incoming' l := by
  induction n generalizing incoming sorted with
  | zero =>
    cases h
    exact ⟨rfl, incoming, hinv⟩
  | succ n ih =>
    rw [tarjanLoop] at h
    split at h
    · cases h
    · rename_i root hroot
      have hfound := findRoot_some hroot
      have hrest := ih (hinv.step hfound.1 hfound.2) h
      refine ⟨?_, hrest.2⟩
      rw [hrest.1, List.length_append, List.length_singleton]
      omega

omit [DecidableEq Node] in
theorem Acyclic.wellFounded {g : Graph Node} (hg : g.Acyclic) :
    WellFounded g.Edge := by
  have hfin : Finite {n // n ∈ g.ns} := (List.finite_toSet g.ns).to_subtype
  let R : {n // n ∈ g.ns} -> {n // n ∈ g.ns} -> Prop := fun x y =>
    Relation.TransGen g.Edge x.1 y.1
  have htrans : IsTrans _ R := ⟨fun _ _ _ hxy hyz => hxy.trans hyz⟩
  have hirrefl : Std.Irrefl R := ⟨fun x h => hg x.1 h⟩
  have hR : WellFounded R := Finite.wellFounded_of_trans_of_irrefl R
  have hnode : forall n : {n // n ∈ g.ns}, Acc g.Edge n.1 := by
    intro n
    induction n using hR.induction with
    | _ n ih =>
      constructor
      intro p hp
      exact ih ⟨p, (g.endpoints _ hp).1⟩ (Relation.TransGen.single hp)
  constructor
  intro n
  constructor
  intro p hp
  exact hnode ⟨p, (g.endpoints _ hp).1⟩

omit [DecidableEq Node] in
theorem Acyclic.exists_last {g : Graph Node} (hg : g.Acyclic)
    {P : Node -> Prop} (h : exists n, n ∈ g.ns ∧ P n) :
    exists n, n ∈ g.ns ∧ P n ∧ forall m, g.Edge n m -> ¬ P m := by
  have hfin : Finite {n // n ∈ g.ns} := (List.finite_toSet g.ns).to_subtype
  let R : {n // n ∈ g.ns} -> {n // n ∈ g.ns} -> Prop := fun x y =>
    Relation.TransGen g.Edge y.1 x.1
  have htrans : IsTrans _ R := ⟨fun _ _ _ hxy hyz => hyz.trans hxy⟩
  have hirrefl : Std.Irrefl R := ⟨fun x h => hg x.1 h⟩
  have hR : WellFounded R := Finite.wellFounded_of_trans_of_irrefl R
  rcases h with ⟨n, hn, hP⟩
  rcases hR.has_min {n | P n.1} ⟨⟨n, hn⟩, hP⟩ with ⟨last, hlast, hmin⟩
  refine ⟨last.1, last.2, hlast, ?_⟩
  intro m hedge hm
  exact hmin ⟨m, (g.endpoints _ hedge).2⟩ hm (Relation.TransGen.single hedge)

theorem SortInvariant.exists_root
    {g : Graph Node} {incoming : Node -> Int} {sorted : List Node}
    (hg : g.Acyclic) (hinv : g.SortInvariant incoming sorted) (hlen : sorted.length < g.ns.length) :
    exists n, n ∈ g.ns ∧ incoming n = 0 := by
  have hleft : exists n, n ∈ g.ns ∧ n ∉ sorted := by
    by_contra hnone
    push Not at hnone
    have := (List.subperm_of_subset g.nodup hnone).length_le
    omega
  rcases hg.wellFounded.has_min {n | n ∈ g.ns ∧ n ∉ sorted} hleft with
    ⟨n, ⟨hns, hfresh⟩, hmin⟩
  refine ⟨n, hns, ?_⟩
  rw [hinv.counted n hfresh]
  have : g.pending sorted n = 0 := by
    rw [pending_eq_zero]
    intro p hp
    by_contra hnot
    exact hmin p ⟨(g.endpoints _ hp).1, hnot⟩ hp
  omega

theorem tarjanLoop_isSome
    {g : Graph Node} {reversed : Bool} {n : Nat} {incoming : Node -> Int}
    {sorted : List Node} (hg : g.Acyclic) (hinv : g.SortInvariant incoming sorted)
    (hlen : sorted.length + n = g.ns.length) :
    exists l, g.tarjanLoop reversed n incoming sorted = some l := by
  induction n generalizing incoming sorted with
  | zero => exact ⟨sorted, rfl⟩
  | succ n ih =>
    rw [tarjanLoop]
    split
    · rename_i hnone
      rcases hinv.exists_root hg (by omega) with ⟨m, hm, hzero⟩
      exact absurd hzero (findRoot_none hnone m hm)
    · rename_i root hroot
      have hfound := findRoot_some hroot
      apply ih (hinv.step hfound.1 hfound.2)
      rw [List.length_append, List.length_singleton]
      omega

theorem tarjanTopSort_acyclic {g : Graph Node} (reversed : Bool)
    (hg : g.Acyclic) : (g.tarjanTopSort reversed).1 = true := by
  have hsome : exists l,
      g.tarjanLoop reversed g.ns.length g.incomingEdges [] = some l :=
    tarjanLoop_isSome hg (SortInvariant.initial g) (by simp)
  rcases hsome with ⟨l, hl⟩
  simp [tarjanTopSort, hl]

theorem tarjanTopSort_order {g : Graph Node} {reversed : Bool}
    (h : (g.tarjanTopSort reversed).1 = true) :
    g.IsTopologicalOrder (g.tarjanTopSort reversed).2 := by
  cases hsorted : g.tarjanLoop reversed g.ns.length g.incomingEdges [] with
  | none => simp [tarjanTopSort, hsorted] at h
  | some sorted =>
    simp only [tarjanTopSort, hsorted]
    rcases tarjanLoop_spec (SortInvariant.initial g) hsorted with
      ⟨hlen, incoming, hinv⟩
    refine ⟨hinv.nodup, ?_, hinv.ordered⟩
    intro n
    refine ⟨hinv.subset n, ?_⟩
    have hperm : sorted.Subperm g.ns :=
      List.subperm_of_subset hinv.nodup hinv.subset
    have := hperm.perm_of_length_le (by simp [hlen])
    exact fun hn => this.mem_iff.mpr hn

theorem topologicalSort_order {g : Graph Node} (reversed : Bool)
    (hg : g.Acyclic) : g.IsTopologicalOrder (g.topologicalSort reversed) := by
  have h := tarjanTopSort_acyclic reversed hg
  simpa [topologicalSort, h] using tarjanTopSort_order h

omit [DecidableEq Node] in
theorem IsTopologicalOrder.acyclic {g : Graph Node} {l : List Node}
    (h : g.IsTopologicalOrder l) : g.Acyclic := by
  classical
  have hedge : forall p n, g.Edge p n -> l.idxOf p < l.idxOf n := by
    intro p n hpn
    have hmem : n ∈ l := (h.mem_iff n).mpr (g.endpoints _ hpn).2
    rcases List.append_of_mem hmem with ⟨before, after, hsplit⟩
    have hp : p ∈ before := h.ordered before n after hsplit p hpn
    have hfresh : n ∉ before := by
      have hnodup := h.nodup
      rw [hsplit, List.nodup_append] at hnodup
      intro hn
      exact hnodup.2.2 n hn n List.mem_cons_self rfl
    rw [hsplit, List.idxOf_append_of_mem hp, List.idxOf_append_of_notMem hfresh,
      List.idxOf_cons_self, Nat.add_zero]
    exact List.idxOf_lt_length_iff.mpr hp
  intro n hcycle
  have hpath : forall p m, Relation.TransGen g.Edge p m ->
      l.idxOf p < l.idxOf m := by
    intro p m hreach
    induction hreach with
    | single hstep => exact hedge _ _ hstep
    | tail hbefore hstep ih => exact Nat.lt_trans ih (hedge _ _ hstep)
  exact absurd (hpath n n hcycle) (Nat.lt_irrefl _)

theorem tarjanTopSort_acyclic_iff {g : Graph Node} (reversed : Bool) :
    (g.tarjanTopSort reversed).1 = true <-> g.Acyclic := by
  constructor
  · intro h
    exact (tarjanTopSort_order h).acyclic
  · exact tarjanTopSort_acyclic reversed

omit [DecidableEq Node] in
theorem IsTopologicalOrder.perm {g : Graph Node} {l : List Node}
    (h : g.IsTopologicalOrder l) : l.Perm g.ns := by
  rw [List.perm_ext_iff_of_nodup h.nodup g.nodup]
  exact h.mem_iff

/-- The verdict in both directions of the search, and the order that goes with it. -/
theorem tarjanTopSort_correct (g : Graph Node) (reversed : Bool) :
    ((g.tarjanTopSort reversed).1 = true <-> forall n, ¬ Relation.TransGen g.Edge n n) ∧
    ((g.tarjanTopSort reversed).1 = true -> (g.tarjanTopSort reversed).2.Perm g.ns ∧
      forall before n after, (g.tarjanTopSort reversed).2 = before ++ n :: after ->
          forall p, g.Edge p n -> p ∈ before) := by
  constructor
  · exact tarjanTopSort_acyclic_iff reversed
  · intro h
    have horder := tarjanTopSort_order h
    exact ⟨horder.perm, horder.ordered⟩

end Graph

end Boogie
