import Boogie.Graph.Graph

/-!
# The numbering of the nodes of a flow graph

A depth-first traversal with an explicit stack numbers the nodes when it leaves
them.  It marks a node as visited when it puts the node on the stack.
-/

namespace Boogie

namespace DomRelation

variable {Node : Type}

/--
The stack starts at its top, and the numbered nodes with number `1`.  The edges
along which nodes were put on the stack are kept for the proofs only.
-/
structure PostOrderState (Node : Type) where
  visited : List Node
  grey : List Node
  stack : List Node
  numbered : List Node
  tree : List (Node × Node)

def initial (n : Node) : PostOrderState Node where
  visited := [n]
  grey := []
  stack := [n]
  numbered := []
  tree := []

section Traversal

variable [DecidableEq Node]

def pushChild (curr : Node) (s : PostOrderState Node) (child : Node) :
    PostOrderState Node :=
  if child ∈ s.visited then s
  else
    { s with
      visited := child :: s.visited
      stack := child :: s.stack
      tree := (curr, child) :: s.tree }

/-- One iteration, which takes `curr` from the stack. -/
def visit (g : Graph Node) (curr : Node) (rest : List Node)
    (s : PostOrderState Node) : PostOrderState Node :=
  if curr ∈ s.grey then
    { s with stack := rest, numbered := s.numbered ++ [curr] }
  else
    (g.successors curr).foldl (pushChild curr)
      { s with grey := curr :: s.grey, stack := curr :: rest }

def visitLoop (g : Graph Node) :
    Nat -> PostOrderState Node -> Option (PostOrderState Node)
  | 0, _ => none
  | fuel + 1, s =>
    match s.stack with
    | [] => some s
    | curr :: rest => visitLoop g fuel (visit g curr rest s)

/-- Every node is taken from the stack twice. -/
def postOrderVisitIterative (g : Graph Node) (n : Node) :
    Option (PostOrderState Node) :=
  visitLoop g (2 * g.ns.length + 1) (initial n)

end Traversal

/-!
# One iteration
-/

def PostOrderState.line (s : PostOrderState Node) : List Node :=
  s.numbered ++ s.stack

/-- `x` stands before `y`. -/
def Precedes (l : List Node) (x y : Node) : Prop :=
  [x, y].Sublist l

structure Pushed (g : Graph Node) (curr : Node) (cs : List Node)
    (s s' : PostOrderState Node) : Prop where
  stack : s'.stack = cs ++ s.stack
  grey : s'.grey = s.grey
  numbered : s'.numbered = s.numbered
  visited : forall x, x ∈ s'.visited <-> x ∈ s.visited ∨ x ∈ cs
  tree : forall p c, (p, c) ∈ s'.tree <-> (p, c) ∈ s.tree ∨ (p = curr ∧ c ∈ cs)
  nodup : cs.Nodup
  fresh : forall c, c ∈ cs -> c ∉ s.visited

variable {g : Graph Node} {source curr x y : Node} {rest cs : List Node}
  {s s' : PostOrderState Node}

section Iteration

variable [DecidableEq Node]

theorem pushChildren (children : List Node) (s : PostOrderState Node)
    (hchildren : forall c, c ∈ children -> g.Edge curr c) :
    exists cs, Pushed g curr cs s (children.foldl (pushChild curr) s) ∧
      (forall c, c ∈ cs -> g.Edge curr c) ∧ forall c, c ∈ children -> c ∈ s.visited ∨ c ∈ cs := by
  induction children generalizing s with
  | nil =>
    exists []
    constructor
    · constructor <;> simp
    · simp
  | cons child children ih =>
    have hrest : forall c, c ∈ children -> g.Edge curr c :=
      fun c hc => hchildren c (List.mem_cons_of_mem child hc)
    rw [List.foldl_cons]
    by_cases hold : child ∈ s.visited
    · have hsame : pushChild curr s child = s := if_pos hold
      rw [hsame]
      rcases ih s hrest with ⟨cs, hpushed, hedges, hall⟩
      exists cs
      constructor
      · exact hpushed
      · constructor
        · exact hedges
        · intro c hc
          rcases List.mem_cons.mp hc with rfl | hc
          · exact Or.inl hold
          · exact hall c hc
    · let s₁ : PostOrderState Node :=
        { s with
          visited := child :: s.visited
          stack := child :: s.stack
          tree := (curr, child) :: s.tree }
      have hpush : pushChild curr s child = s₁ := if_neg hold
      rw [hpush]
      rcases ih s₁ hrest with ⟨cs, hpushed, hedges, hall⟩
      exists cs ++ [child]
      constructor
      · constructor
        · rw [hpushed.stack]
          simp [s₁]
        · exact hpushed.grey
        · exact hpushed.numbered
        · intro x
          rw [hpushed.visited]
          simp only [s₁, List.mem_cons, List.mem_append, List.not_mem_nil,
            or_false]
          tauto
        · intro p c
          rw [hpushed.tree]
          simp only [s₁, List.mem_cons, Prod.mk.injEq, List.mem_append,
            List.not_mem_nil, or_false]
          tauto
        · apply List.nodup_append.mpr
          constructor
          · exact hpushed.nodup
          · constructor
            · exact List.nodup_singleton child
            · rintro c hc c' hc' rfl
              apply hpushed.fresh c hc
              rw [List.mem_singleton.mp hc']
              exact List.mem_cons_self
        · intro c hc
          rcases List.mem_append.mp hc with hc | hc
          · intro hseen
            exact hpushed.fresh c hc (List.mem_cons_of_mem child hseen)
          · rw [List.mem_singleton.mp hc]
            exact hold
      · constructor
        · intro c hc
          rcases List.mem_append.mp hc with hc | hc
          · exact hedges c hc
          · rw [List.mem_singleton.mp hc]
            exact hchildren child List.mem_cons_self
        · intro c hc
          rw [List.mem_append, List.mem_singleton]
          rcases List.mem_cons.mp hc with rfl | hc
          · exact Or.inr (Or.inr rfl)
          · rcases hall c hc with hc | hc
            · rcases List.mem_cons.mp hc with rfl | hc
              · exact Or.inr (Or.inr rfl)
              · exact Or.inl hc
            · exact Or.inr (Or.inl hc)

theorem visit_cases (hstack : s.stack = curr :: rest) :
    (curr ∈ s.grey ∧ visit g curr rest s =
      { s with stack := rest, numbered := s.numbered ++ [curr] }) ∨ (curr ∉ s.grey ∧ exists cs,
      Pushed g curr cs { s with grey := curr :: s.grey } (visit g curr rest s) ∧
      (forall c, c ∈ cs -> g.Edge curr c) ∧ forall c, g.Edge curr c -> c ∈ s.visited ∨ c ∈ cs) := by
  by_cases hgrey : curr ∈ s.grey
  · left
    exact ⟨hgrey, if_pos hgrey⟩
  · right
    have hvisit : visit g curr rest s = (g.successors curr).foldl
        (pushChild curr) { s with grey := curr :: s.grey } := by
      unfold visit
      rw [if_neg hgrey, ← hstack]
    rcases pushChildren (g := g) (g.successors curr)
      { s with grey := curr :: s.grey } (fun c hc => Graph.mem_successors.mp hc)
      with ⟨cs, hpushed, hedges, hall⟩
    rw [hvisit]
    exact ⟨hgrey, cs, hpushed, hedges,
      fun c hc => hall c (Graph.mem_successors.mpr hc)⟩

end Iteration

/-!
# The invariant of the traversal
-/

def PostOrderState.Parent (s : PostOrderState Node) (p c : Node) : Prop :=
  (p, c) ∈ s.tree

structure Invariant (g : Graph Node) (source : Node)
    (s : PostOrderState Node) : Prop where
  nodup : s.line.Nodup
  grey_nodup : s.grey.Nodup
  visited : forall x, x ∈ s.visited <-> x ∈ s.line
  numbered : forall x, x ∈ s.numbered -> x ∈ s.grey
  grey : forall x, x ∈ s.grey -> x ∈ s.line
  reached : forall x, x ∈ s.line -> Relation.ReflTransGen g.Edge source x
  last : s.line.getLast? = some source
  tree : forall p c, s.Parent p c -> g.Edge p c ∧ Precedes s.line c p
  parent : forall x, x ∈ s.line -> x = source ∨ exists p, s.Parent p x
  closed : forall x, x ∈ s.grey -> forall y, g.Edge x y -> y ∈ s.line
  ancestors : forall above x below, s.stack = above ++ x :: below ->
    forall y, (y ∈ below ∧ y ∈ s.grey) <-> Relation.TransGen s.Parent y x

theorem Invariant.initial (g : Graph Node) (source : Node) :
    Invariant g source (initial source) := by
  have hline : (DomRelation.initial source).line = [source] := rfl
  constructor
  · simp [hline]
  · exact List.nodup_nil
  · intro x
    rw [hline]
    rfl
  · simp [DomRelation.initial]
  · simp [DomRelation.initial]
  · intro x hx
    rw [hline, List.mem_singleton] at hx
    rw [hx]
  · rw [hline]
    rfl
  · intro p c hparent
    cases hparent
  · intro x hx
    rw [hline, List.mem_singleton] at hx
    exact Or.inl hx
  · simp [DomRelation.initial]
  · intro above x below hsplit y
    constructor
    · intro h
      cases h.2
    · intro h
      cases Relation.TransGen.tail'_iff.mp h with
      | intro p hp => cases hp.2

theorem Precedes.mem_left {l : List Node} (h : Precedes l x y) : x ∈ l :=
  h.subset List.mem_cons_self

theorem Precedes.mem_right {l : List Node} (h : Precedes l x y) : y ∈ l :=
  h.subset (List.mem_cons_of_mem x List.mem_cons_self)

theorem Precedes.append {l l' : List Node} (hx : x ∈ l) (hy : y ∈ l') :
    Precedes (l ++ l') x y :=
  (List.singleton_sublist.mpr hx).append (List.singleton_sublist.mpr hy)

theorem Precedes.asymm {l : List Node} (hl : l.Nodup) (h : Precedes l x y) :
    ¬ Precedes l y x := by
  induction l with
  | nil => cases h
  | cons z l ih =>
    rcases List.nodup_cons.mp hl with ⟨hz, hrest⟩
    intro h'
    cases h with
    | cons _ h =>
      cases h' with
      | cons _ h' => exact ih hrest h h'
      | cons_cons _ h' => exact hz (Precedes.mem_right h)
    | cons_cons _ h =>
      cases h' with
      | cons _ h' => exact hz (Precedes.mem_right h')
      | cons_cons _ h' =>
        exact hz (List.singleton_sublist.mp h)

section Pushing

variable (hpushed : Pushed g curr cs { s with grey := curr :: s.grey } s')

include hpushed

theorem Pushed.line : s'.line = s.numbered ++ (cs ++ s.stack) := by
  unfold PostOrderState.line
  rw [hpushed.stack, hpushed.numbered]

theorem Pushed.line_sublist : s.line.Sublist s'.line := by
  rw [hpushed.line]
  exact (List.Sublist.refl _).append (List.sublist_append_right _ _)

theorem Pushed.mem_line : x ∈ s'.line <-> x ∈ s.line ∨ x ∈ cs := by
  rw [hpushed.line]
  unfold PostOrderState.line
  simp only [List.mem_append]
  tauto

theorem Pushed.ancestor_iff (htree : forall p c, s.Parent p c -> p ∈ s.visited) (hx : x ∉ cs) :
    Relation.TransGen s'.Parent y x <-> Relation.TransGen s.Parent y x := by
  have hstep : forall p c, c ∉ cs -> (s'.Parent p c <-> s.Parent p c) := by
    intro p c hc
    unfold PostOrderState.Parent
    rw [hpushed.tree]
    simp [hc]
  constructor
  · intro h
    induction h with
    | single h => exact Relation.TransGen.single ((hstep _ _ hx).mp h)
    | tail h hlast ih =>
      have hlast' := (hstep _ _ hx).mp hlast
      apply Relation.TransGen.tail (ih _) hlast'
      intro hmem
      exact hpushed.fresh _ hmem (htree _ _ hlast')
  · apply Relation.TransGen.mono
    intro p c h
    exact (hpushed.tree p c).mpr (Or.inl h)

end Pushing

theorem Invariant.number (h : Invariant g source s)
    (hstack : s.stack = curr :: rest) (hgrey : curr ∈ s.grey) :
    Invariant g source
      { s with stack := rest, numbered := s.numbered ++ [curr] } := by
  let s' : PostOrderState Node :=
    { s with stack := rest, numbered := s.numbered ++ [curr] }
  have hline : s'.line = s.line := by
    unfold PostOrderState.line
    rw [hstack]
    simp [s']
  have hparent : s'.Parent = s.Parent := rfl
  show Invariant g source s'
  constructor
  · rw [hline]
    exact h.nodup
  · exact h.grey_nodup
  · rw [hline]
    exact h.visited
  · intro x hx
    rcases List.mem_append.mp hx with hx | hx
    · exact h.numbered x hx
    · rw [List.mem_singleton.mp hx]
      exact hgrey
  · rw [hline]
    exact h.grey
  · rw [hline]
    exact h.reached
  · rw [hline]
    exact h.last
  · rw [hline]
    exact h.tree
  · rw [hline]
    exact h.parent
  · rw [hline]
    exact h.closed
  · intro above x below hsplit
    have hrest : rest = above ++ x :: below := hsplit
    exact h.ancestors (curr :: above) x below (by rw [hstack, hrest]; rfl)

theorem curr_mem_line (hstack : s.stack = curr :: rest) : curr ∈ s.line := by
  unfold PostOrderState.line
  simp [hstack]

section Push

variable (h : Invariant g source s)
  (hpushed : Pushed g curr cs { s with grey := curr :: s.grey } s')

include h hpushed

theorem notMem_children (hx : x ∈ s.line) : x ∉ cs :=
  fun hmem => hpushed.fresh x hmem ((h.visited x).mpr hx)

theorem push_nodup : s'.line.Nodup := by
  rw [hpushed.line, (List.perm_append_comm_assoc _ _ _).nodup_iff,
    List.nodup_append]
  constructor
  · exact hpushed.nodup
  · constructor
    · exact h.nodup
    · rintro c hc c' hc' rfl
      exact notMem_children h hpushed hc' hc

theorem push_ancestor_old (hx : x ∈ s.line) :
    Relation.TransGen s'.Parent y x <-> Relation.TransGen s.Parent y x := by
  apply hpushed.ancestor_iff
  · intro p c hparent
    exact (h.visited p).mpr (h.tree p c hparent).2.mem_right
  · exact notMem_children h hpushed hx

theorem push_parent_new {c : Node} (hc : c ∈ cs) :
    s'.Parent x c <-> x = curr := by
  unfold PostOrderState.Parent
  rw [hpushed.tree]
  constructor
  · rintro (hold | hnew)
    · exact absurd hc
        (notMem_children h hpushed (h.tree x c hold).2.mem_left)
    · exact hnew.1
  · intro hx
    exact Or.inr ⟨hx, hc⟩

theorem push_ancestors (hstack : s.stack = curr :: rest)
    (hwhite : curr ∉ s.grey) (above below : List Node) (hsplit : s'.stack = above ++ x :: below) :
    (y ∈ below ∧ y ∈ s'.grey) <-> Relation.TransGen s'.Parent y x := by
  have hnodup : (curr :: rest).Nodup := by
    rw [← hstack]
    exact (List.nodup_append.mp h.nodup).2.1
  have hcurr : curr ∉ rest := (List.nodup_cons.mp hnodup).1
  have hline := curr_mem_line hstack
  have hgrey : y ∈ s'.grey <-> y = curr ∨ y ∈ s.grey := by
    rw [hpushed.grey, List.mem_cons]
  rw [hgrey]
  rw [hpushed.stack] at hsplit
  have hold : forall above', s.stack = above' ++ x :: below ->
      ((y ∈ below ∧ (y = curr ∨ y ∈ s.grey)) <->
        Relation.TransGen s'.Parent y x) := by
    intro above' hsplit'
    have hx : x ∈ s.line := by
      unfold PostOrderState.line
      simp [hsplit']
    have hbelow : curr ∉ below := by
      rw [hstack] at hsplit'
      cases above' with
      | nil =>
        cases hsplit'
        exact hcurr
      | cons z above' =>
        injection hsplit' with _ htail
        intro hmem
        apply hcurr
        rw [htail]
        exact List.mem_append_right above' (List.mem_cons_of_mem x hmem)
    rw [push_ancestor_old h hpushed hx,
      ← h.ancestors above' x below hsplit' y]
    constructor
    · rintro ⟨hy, rfl | hmem⟩
      · exact absurd hy hbelow
      · exact ⟨hy, hmem⟩
    · intro hy
      exact ⟨hy.1, Or.inr hy.2⟩
  rcases List.append_eq_append_iff.mp hsplit with
    ⟨above', _, hsplit'⟩ | ⟨mid, hcs, hsplit'⟩
  · exact hold above' hsplit'
  · cases mid with
    | nil => exact hold [] hsplit'.symm
    | cons z mid =>
      injection hsplit' with hz hbelow
      subst hz
      have hx : x ∈ cs := by simp [hcs]
      have hmid : forall z, z ∈ mid -> z ∈ cs := by
        intro z hz
        simp [hcs, hz]
      have hstart := h.ancestors [] curr rest hstack y
      rw [hbelow, Relation.TransGen.tail'_iff]
      simp only [push_parent_new h hpushed hx, exists_eq_right]
      rw [Relation.reflTransGen_iff_eq_or_transGen,
        push_ancestor_old h hpushed hline, ← hstart]
      constructor
      · rintro ⟨hy, rfl | hmem⟩
        · exact Or.inl rfl
        · right
          rcases List.mem_append.mp hy with hy | hy
          · exact absurd (hmid y hy)
              (notMem_children h hpushed (h.grey y hmem))
          · change y ∈ s.stack at hy
            rw [hstack] at hy
            rcases List.mem_cons.mp hy with rfl | hy
            · exact absurd hmem hwhite
            · exact ⟨hy, hmem⟩
      · rintro (hy | ⟨hy, hmem⟩)
        · subst hy
          constructor
          · apply List.mem_append_right
            simp [hstack]
          · exact Or.inl rfl
        · constructor
          · apply List.mem_append_right
            simp [hstack, hy]
          · exact Or.inr hmem

theorem Invariant.push (hstack : s.stack = curr :: rest)
    (hwhite : curr ∉ s.grey) (hedges : forall c, c ∈ cs -> g.Edge curr c)
    (hall : forall c, g.Edge curr c -> c ∈ s.visited ∨ c ∈ cs) :
    Invariant g source s' := by
  have hcurr := curr_mem_line hstack
  constructor
  · exact push_nodup h hpushed
  · rw [hpushed.grey]
    exact List.nodup_cons.mpr ⟨hwhite, h.grey_nodup⟩
  · intro x
    rw [hpushed.visited, hpushed.mem_line, h.visited]
  · intro x hx
    rw [hpushed.numbered] at hx
    rw [hpushed.grey]
    exact List.mem_cons_of_mem curr (h.numbered x hx)
  · intro x hx
    rw [hpushed.grey] at hx
    rw [hpushed.mem_line]
    rcases List.mem_cons.mp hx with rfl | hx
    · exact Or.inl hcurr
    · exact Or.inl (h.grey x hx)
  · intro x hx
    rcases hpushed.mem_line.mp hx with hx | hx
    · exact h.reached x hx
    · exact (h.reached curr hcurr).tail (hedges x hx)
  · have hlast := h.last
    unfold PostOrderState.line at hlast
    rw [hpushed.line]
    rw [hstack] at hlast ⊢
    simpa using hlast
  · intro p c hparent
    rcases (hpushed.tree p c).mp hparent with hold | ⟨rfl, hc⟩
    · have hedge := h.tree p c hold
      exact ⟨hedge.1, hedge.2.trans hpushed.line_sublist⟩
    · constructor
      · exact hedges c hc
      · rw [hpushed.line, ← List.append_assoc]
        apply Precedes.append
        · exact List.mem_append_right _ hc
        · simp [hstack]
  · intro x hx
    rcases hpushed.mem_line.mp hx with hx | hx
    · rcases h.parent x hx with hsource | ⟨p, hp⟩
      · exact Or.inl hsource
      · exact Or.inr ⟨p, (hpushed.tree p x).mpr (Or.inl hp)⟩
    · exact Or.inr ⟨curr, (push_parent_new h hpushed hx).mpr rfl⟩
  · intro x hx y hedge
    rw [hpushed.mem_line]
    rw [hpushed.grey] at hx
    rcases List.mem_cons.mp hx with rfl | hx
    · rw [← h.visited]
      exact hall y hedge
    · exact Or.inl (h.closed x hx y hedge)
  · intro above x below hsplit y
    exact push_ancestors h hpushed hstack hwhite above below hsplit

end Push

variable [DecidableEq Node]

theorem Invariant.step (h : Invariant g source s) (hstack : s.stack = curr :: rest) :
    Invariant g source (visit g curr rest s) := by
  rcases visit_cases (g := g) hstack with
    ⟨hgrey, hvisit⟩ | ⟨hwhite, cs, hpushed, hedges, hall⟩
  · rw [hvisit]
    exact h.number hstack hgrey
  · exact Invariant.push h hpushed hstack hwhite hedges hall

/-!
# The whole traversal
-/

def Step (g : Graph Node) (s s' : PostOrderState Node) : Prop :=
  exists curr rest, s.stack = curr :: rest ∧ s' = visit g curr rest s

def Steps (g : Graph Node) :
    PostOrderState Node -> PostOrderState Node -> Prop :=
  Relation.ReflTransGen (Step g)

theorem Invariant.steps (h : Invariant g source s) (hsteps : Steps g s s') :
    Invariant g source s' := by
  induction hsteps with
  | refl => exact h
  | tail _ hstep ih =>
    rcases hstep with ⟨curr, rest, hstack, rfl⟩
    exact ih.step hstack

omit [DecidableEq Node] in
theorem Invariant.mem_ns (h : Invariant g source s) (hsource : source ∈ g.ns)
    (hx : x ∈ s.line) : x ∈ g.ns := by
  have hreached := h.reached x hx
  cases hreached with
  | refl => exact hsource
  | tail _ hedge => exact (g.endpoints _ hedge).2

theorem step_count (hstack : s.stack = curr :: rest) :
    (visit g curr rest s).numbered.length + (visit g curr rest s).grey.length =
      s.numbered.length + s.grey.length + 1 := by
  rcases visit_cases (g := g) hstack with
    ⟨_, hvisit⟩ | ⟨_, cs, hpushed, _, _⟩
  · rw [hvisit, List.length_append, List.length_singleton]
    exact Nat.add_right_comm _ _ _
  · rw [hpushed.numbered, hpushed.grey, List.length_cons]
    rfl

omit [DecidableEq Node] in
theorem Invariant.count_le (h : Invariant g source s) (hsource : source ∈ g.ns) :
    s.numbered.length + s.grey.length ≤ 2 * g.ns.length := by
  have hnumbered : s.numbered.length ≤ g.ns.length := by
    apply List.Subperm.length_le
    apply List.subperm_of_subset (List.nodup_append.mp h.nodup).1
    intro x hx
    exact h.mem_ns hsource (List.mem_append_left _ hx)
  have hgrey : s.grey.length ≤ g.ns.length := by
    apply List.Subperm.length_le
    apply List.subperm_of_subset h.grey_nodup
    intro x hx
    exact h.mem_ns hsource (h.grey x hx)
  rw [Nat.two_mul]
  exact Nat.add_le_add hnumbered hgrey

theorem visitLoop_some (fuel : Nat) (h : Invariant g source s) (hsource : source ∈ g.ns)
    (hfuel : 2 * g.ns.length < s.numbered.length + s.grey.length + fuel) :
    exists s', visitLoop g fuel s = some s' ∧ Steps g s s' ∧ s'.stack = [] := by
  induction fuel generalizing s with
  | zero =>
    have hcount := h.count_le hsource
    exact absurd hfuel (Nat.not_lt.mpr hcount)
  | succ fuel ih =>
    cases hstack : s.stack with
    | nil =>
      exists s
      constructor
      · rw [visitLoop, hstack]
      · exact ⟨Relation.ReflTransGen.refl, hstack⟩
    | cons curr rest =>
      have hmore : 2 * g.ns.length < (visit g curr rest s).numbered.length +
          (visit g curr rest s).grey.length + fuel := by
        rw [step_count hstack, Nat.add_assoc, Nat.add_comm 1]
        exact hfuel
      rcases ih (h.step hstack) hmore with ⟨s', hloop, hsteps, hempty⟩
      exists s'
      constructor
      · rw [visitLoop, hstack]
        exact hloop
      · constructor
        · exact Relation.ReflTransGen.head ⟨curr, rest, hstack, rfl⟩ hsteps
        · exact hempty

theorem postOrderVisitIterative_some (hsource : source ∈ g.ns) :
    exists s, postOrderVisitIterative g source = some s ∧
      Steps g (initial source) s ∧ s.stack = [] := by
  apply visitLoop_some _ (Invariant.initial g source) hsource
  show 2 * g.ns.length < 0 + 0 + (2 * g.ns.length + 1)
  rw [Nat.zero_add]
  exact Nat.lt_succ_self _

/-!
# The numbers
-/

/-- The nodes that can be reached are numbered once, the source last. -/
structure IsNumbering (g : Graph Node) (source : Node) (l : List Node) :
    Prop where
  nodup : l.Nodup
  mem_iff : forall x, x ∈ l <-> Relation.ReflTransGen g.Edge source x
  last : l.getLast? = some source

omit [DecidableEq Node] in
theorem Invariant.isNumbering (h : Invariant g source s)
    (hstack : s.stack = []) : IsNumbering g source s.numbered := by
  have hline : s.line = s.numbered := by
    unfold PostOrderState.line
    rw [hstack, List.append_nil]
  constructor
  · rw [← hline]
    exact h.nodup
  · intro x
    constructor
    · intro hx
      rw [← hline] at hx
      exact h.reached x hx
    · intro hreach
      induction hreach with
      | refl =>
        rw [← hline]
        exact List.mem_of_getLast? h.last
      | tail _ hedge ih =>
        rw [← hline]
        exact h.closed _ (h.numbered _ ih) _ hedge
  · rw [← hline]
    exact h.last

omit [DecidableEq Node] in
theorem Invariant.exists_parent (h : Invariant g source s)
    (hstack : s.stack = []) (hx : x ∈ s.numbered) (hne : x ≠ source) :
    exists p, g.Edge p x ∧ Precedes s.numbered x p := by
  have hline : s.line = s.numbered := by
    unfold PostOrderState.line
    rw [hstack, List.append_nil]
  rw [← hline] at hx ⊢
  rcases h.parent x hx with hsource | ⟨p, hp⟩
  · exact absurd hsource hne
  · exact ⟨p, h.tree p x hp⟩

end DomRelation

end Boogie
