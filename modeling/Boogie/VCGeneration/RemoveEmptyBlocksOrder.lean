import Boogie.VCGeneration.RemoveEmptyBlocksSound

/-!
# The order in which empty blocks are removed

The traversal is that of a graph, whose loop heads are not found when there are
none.  It marks a block when it puts it on the stack, so that a block may be
listed before its targets.  An empty block without a token then asks for
information that is not there yet.
-/

namespace Boogie

namespace VCGen

namespace RemoveEmptyBlocks

open BlockCoalescer (Heap successors)
open DomRelation (PostOrderState Invariant Precedes SettledFor Steps pushChild
  visit)

variable {Token : Type}

/-!
# The graph of the blocks
-/

theorem filter_flatMap_pairs {A B : Type} [DecidableEq A] (f : A -> List B)
    {as : List A} (has : as.Nodup) (a : A) :
    (as.flatMap (fun x => (f x).map (fun y => (x, y)))).filter (fun e => e.1 = a) =
      if a ∈ as then (f a).map (fun y => (a, y)) else [] := by
  induction as with
  | nil => rfl
  | cons x as ih =>
    rcases List.nodup_cons.mp has with ⟨hx, hrest⟩
    rw [List.flatMap_cons, List.filter_append, ih hrest]
    by_cases heq : x = a
    · subst heq
      have hall : ((f x).map (fun y => (x, y))).filter
          (fun e => e.1 = x) = (f x).map (fun y => (x, y)) := by
        rw [List.filter_eq_self]
        simp
      rw [hall, if_neg hx, if_pos List.mem_cons_self, List.append_nil]
    · have hnone : ((f x).map (fun y => (x, y))).filter
          (fun e => e.1 = a) = [] := by
        rw [List.filter_eq_nil_iff]
        simp [heq]
      rw [hnone, List.nil_append]
      simp [Ne.symm heq]

namespace PassiveDag

def graph (D : PassiveDag Token) : Graph Nat where
  ns := D.blocks
  es := D.blocks.flatMap
    (fun b => (successors D.heap b).map (fun s => (b, s)))
  source := some D.first
  nodup := D.distinct
  endpoints := by
    intro e he
    rcases List.mem_flatMap.mp he with ⟨b, hb, he⟩
    rcases List.mem_map.mp he with ⟨s, hs, heq⟩
    rw [← heq]
    exact ⟨hb, D.targets_mem b hb hs⟩

end PassiveDag

section Order

variable {D : PassiveDag Token} {b x y u v : Nat}

theorem successors_graph (hb : b ∈ D.blocks) :
    D.graph.successors b = successors D.heap b := by
  have hnodup : D.blocks.Nodup := D.distinct
  have hedges : D.graph.es = D.blocks.flatMap
      (fun b => (successors D.heap b).map (fun s => (b, s))) :=
    rfl
  rw [Graph.successors, hedges,
    filter_flatMap_pairs (successors D.heap) hnodup, if_pos hb, List.map_map]
  exact List.map_id _

theorem graph_edge : D.graph.Edge x y <-> D.Jump x y := by
  unfold Graph.Edge PassiveDag.graph PassiveDag.Jump
  simp

theorem first_mem (D : PassiveDag Token) : D.first ∈ D.graph.ns :=
  List.mem_cons_self

theorem graph_acyclic (D : PassiveDag Token) (x : Nat) :
    ¬ Relation.TransGen D.graph.Edge x x := by
  have hsame : D.graph.Edge = D.Jump := by
    funext x y
    exact propext graph_edge
  rw [hsame]
  exact D.acyclic x

/-!
# The condition
-/

def Unnamed (isValid : Token -> Bool) (D : PassiveDag Token) (u : Nat) : Prop :=
  (D.heap u).cmds = [] ∧ isValid (D.heap u).tok = false

/--
When an empty block without a token is taken from the stack for the first time,
none of its targets waits there.
-/
def NamesReady (isValid : Token -> Bool) (D : PassiveDag Token) : Prop :=
  forall s, Steps D.graph (DomRelation.initial D.first) s -> forall u rest,
    s.stack = u :: rest -> u ∉ s.grey -> Unnamed isValid D u ->
    forall v, v ∈ successors D.heap u -> v ∉ rest

def NamesKnown (isValid : Token -> Bool) (D : PassiveDag Token)
    (s : PostOrderState Nat) : Prop :=
  forall t, Steps D.graph s t -> forall u rest, t.stack = u :: rest ->
    u ∈ t.grey -> Unnamed isValid D u ->
    forall v, v ∈ successors D.heap u -> v ∈ t.numbered

section States

variable {isValid : Token -> Bool} {s s' : PostOrderState Nat}
  {curr : Nat} {rest : List Nat}

theorem invariant_of_steps (h : Steps D.graph (DomRelation.initial D.first) s) :
    Invariant D.graph D.first s :=
  (Invariant.initial D.graph D.first).steps h

theorem mem_blocks_of_line (h : Invariant D.graph D.first s) (hx : x ∈ s.line) : x ∈ D.blocks :=
  h.mem_ns (first_mem D) hx

theorem not_grey_of_jump (h : Invariant D.graph D.first s)
    (hstack : s.stack = curr :: rest) (hjump : D.Jump curr v) (hv : v ∈ rest) : v ∉ s.grey := by
  intro hgrey
  have hancestor := (h.ancestors [] curr rest hstack v).mp ⟨hv, hgrey⟩
  have hpath : Relation.TransGen D.graph.Edge v curr := by
    have hmono : forall p c, s.Parent p c -> D.graph.Edge p c :=
      fun p c hp => (h.tree p c hp).1
    exact Relation.TransGen.mono hmono _ _ hancestor
  exact graph_acyclic D v (hpath.tail (graph_edge.mpr hjump))

theorem ne_of_jump (hjump : D.Jump x y) : x ≠ y := by
  intro heq
  exact D.acyclic x (Relation.TransGen.single (heq ▸ hjump))

theorem namesKnown_of_ready (hready : NamesReady isValid D) :
    NamesKnown isValid D (DomRelation.initial D.first) := by
  have hsettled : forall s, Steps D.graph (DomRelation.initial D.first) s ->
      SettledFor D.graph (Unnamed isValid D) s := by
    intro s hsteps
    induction hsteps with
    | refl =>
      intro u _ hu
      cases hu
    | tail hbefore hstep ih =>
      rcases hstep with ⟨curr, rest, hstack, heq⟩
      rw [heq]
      apply ih.step (invariant_of_steps hbefore) hstack
      intro hunnamed hwhite v hedge hv
      exact absurd hv (hready _ hbefore curr rest hstack hwhite hunnamed v
        (graph_edge.mp hedge).2)
  intro t ht u rest hstack hgrey hunnamed v hv
  have hinv := invariant_of_steps ht
  have hu := mem_blocks_of_line hinv (hinv.grey u hgrey)
  rcases hsettled t ht u hunnamed hgrey v (graph_edge.mpr ⟨hu, hv⟩) with
    hbefore | hancestor
  · rcases List.mem_append.mp hbefore.mem_left with hnumbered | hwaiting
    · exact hnumbered
    · -- The block on top precedes everything else on the stack.
      rw [hstack] at hwaiting
      rcases List.mem_cons.mp hwaiting with heq | hrest
      · exact absurd heq.symm (ne_of_jump ⟨hu, hv⟩)
      · have hafter : Precedes t.line u v := by
          unfold PostOrderState.line
          rw [hstack, ← List.singleton_append, ← List.append_assoc]
          exact Precedes.append (by simp) hrest
        exact absurd hafter (hbefore.asymm hinv.nodup)
  · have hpath : Relation.ReflTransGen D.graph.Edge v u := by
      have hmono : forall p c, t.Parent p c -> D.graph.Edge p c :=
        fun p c hp => (hinv.tree p c hp).1
      exact Relation.ReflTransGen.mono hmono _ _ hancestor
    exact absurd (Relation.TransGen.head' (graph_edge.mpr ⟨hu, hv⟩) hpath)
      (graph_acyclic D u)

theorem exists_numbering (hsteps : Steps D.graph s s') (hbefore : u ∉ s.numbered)
    (hafter : u ∈ s'.numbered) :
    exists t rest, Steps D.graph s t ∧ t.stack = u :: rest ∧ u ∈ t.grey ∧ u ∉ t.numbered := by
  induction hsteps with
  | refl => exact absurd hafter hbefore
  | tail hsteps hstep ih =>
    rename_i t t'
    by_cases hold : u ∈ t.numbered
    · exact ih hold
    · rcases hstep with ⟨curr, rest, hstack, heq⟩
      rw [heq] at hafter
      rcases DomRelation.visit_cases (g := D.graph) hstack with
        ⟨hgrey, hvisit⟩ | ⟨_, cs, hpushed, _⟩
      · rw [hvisit] at hafter
        rcases List.mem_append.mp hafter with hafter | hafter
        · exact absurd hafter hold
        · rw [List.mem_singleton] at hafter
          subst hafter
          exact ⟨t, rest, hsteps, hstack, hgrey, hold⟩
      · rw [hpushed.numbered] at hafter
        exact absurd hafter hold

theorem ready_of_namesKnown (hknown : NamesKnown isValid D (DomRelation.initial D.first)) :
    NamesReady isValid D := by
  intro s hsteps u rest hstack hwhite hunnamed v hv hwaiting
  have hinv := invariant_of_steps hsteps
  have hline := DomRelation.curr_mem_line hstack
  have hu := mem_blocks_of_line hinv hline
  rcases DomRelation.postOrderVisitIterative_some (first_mem D) with
    ⟨last, _, hlast, hempty⟩
  have hrest : Steps D.graph s last := hsteps.to_last hlast hempty
  have hwrong : DomRelation.Wrong u v s := by
    constructor
    · unfold PostOrderState.line
      rw [hstack, ← List.singleton_append, ← List.append_assoc]
      exact Precedes.append (by simp) hwaiting
    · intro hancestor
      exact not_grey_of_jump hinv hstack ⟨hu, hv⟩ hwaiting
        ((hinv.ancestors [] u rest hstack v).mpr hancestor).2
  have hnumbered : u ∈ last.numbered := by
    have hmem := (hwrong.steps hinv hrest).order.mem_left
    unfold PostOrderState.line at hmem
    rw [hempty, List.append_nil] at hmem
    exact hmem
  have hnot : u ∉ s.numbered := fun hmem => hwhite (hinv.numbered u hmem)
  rcases exists_numbering hrest hnot hnumbered with
    ⟨t, rest', ht, hstack', hgrey, _⟩
  have hknown' := hknown t (hsteps.trans ht) u rest' hstack' hgrey hunnamed v hv
  have hbefore : Precedes t.line v u := by
    unfold PostOrderState.line
    apply Precedes.append hknown'
    rw [hstack']
    exact List.mem_cons_self
  exact hbefore.asymm (invariant_of_steps (hsteps.trans ht)).nodup
    (hwrong.steps hinv ht).order

end States

/-!
# The run
-/

section Run

variable {isValid : Token -> Bool} {st : VisitState} {curr : Nat}
  {rest : List Nat}

/-- Nothing is kept, and there is information about the blocks with a number. -/
structure Tracking (st : VisitState) : Prop where
  keep : st.keep = []
  keys : forall x, x ∈ st.renameInfo.keys <-> x ∈ st.numbered

theorem Tracking.initial (startBlock : Nat) :
    Tracking (initial startBlock) where
  keep := rfl
  keys := fun _ => Iff.rfl

theorem foldl_visitTarget (targets : List Nat) (st : VisitState)
    (h : forall s, s ∈ targets -> s ∈ st.grey -> s ∈ st.numbered) :
    targets.foldl (visitTarget curr) st =
      { st with
        toPostOrderState :=
          targets.foldl (pushChild curr) st.toPostOrderState } := by
  induction targets generalizing st with
  | nil => rfl
  | cons s targets ih =>
    have hfirst : visitTarget curr st s =
        { st with
          toPostOrderState := pushChild curr st.toPostOrderState s } := by
      unfold visitTarget
      by_cases hs : s ∈ st.visited
      · have hnot : ¬ (s ∈ st.grey ∧ s ∉ st.numbered) := fun hgrey =>
          hgrey.2 (h s List.mem_cons_self hgrey.1)
        rw [if_pos hs, if_neg hnot, pushChild, if_pos hs]
      · rw [if_neg hs]
    have hsame : (pushChild curr st.toPostOrderState s).grey = st.grey ∧
        (pushChild curr st.toPostOrderState s).numbered = st.numbered := by
      unfold pushChild
      split
      · exact ⟨rfl, rfl⟩
      · exact ⟨rfl, rfl⟩
    rw [List.foldl_cons, hfirst, ih]
    · rfl
    · intro x hx hgrey
      have hgrey' : x ∈ st.grey := hsame.1 ▸ hgrey
      have hmem := h x (List.mem_cons_of_mem s hx) hgrey'
      exact hsame.2.symm ▸ hmem

theorem visitBlock_white (h : Invariant D.graph D.first st.toPostOrderState)
    (hstack : st.stack = curr :: rest) (hwhite : curr ∉ st.grey) :
    visitBlock isValid D.heap D.first curr rest st = some { st with
        toPostOrderState :=
          visit D.graph curr rest st.toPostOrderState } := by
  have hcurr := mem_blocks_of_line h (DomRelation.curr_mem_line hstack)
  unfold visitBlock visit
  rw [if_neg hwhite, if_neg hwhite, foldl_visitTarget, successors_graph hcurr]
  intro s hs hgrey
  by_contra hnot
  rcases List.mem_cons.mp hgrey with heq | hgrey
  · exact ne_of_jump ⟨hcurr, hs⟩ heq.symm
  · -- A grey block without a number is below the top of the stack.
    have hline := h.grey s hgrey
    unfold PostOrderState.line at hline
    rw [hstack] at hline
    rcases List.mem_append.mp hline with hnumbered | hmem
    · exact hnot hnumbered
    · rcases List.mem_cons.mp hmem with heq | hrest
      · exact hwhite (heq ▸ hgrey)
      · exact not_grey_of_jump h hstack ⟨hcurr, hs⟩ hrest hgrey

theorem exists_addRenameInfo {renameInfo : Dictionary Nat (Option Nat)}
    {targets : List Nat} (h : forall s, s ∈ targets -> s ∈ renameInfo.keys) :
    exists infos, targets.foldlM (addRenameInfo [] renameInfo) [] = some infos := by
  have hrun : exists infos, targets.foldlM (addRenameInfo [] renameInfo) [] =
      some infos ∧ True := by
    apply Traversal.exists_foldlM _ trivial
    intro infos s hs _
    rcases Dictionary.mem_keys.mp (h s hs) with ⟨info, hlookup⟩
    unfold addRenameInfo
    rw [if_neg List.not_mem_nil, hlookup]
    exact ⟨_, rfl, trivial⟩
  rcases hrun with ⟨infos, hinfos, _⟩
  exact ⟨infos, hinfos⟩

theorem addRenameInfo_eq_none {renameInfo : Dictionary Nat (Option Nat)}
    {targets : List Nat} {s : Nat} (hs : s ∈ targets) (h : s ∉ renameInfo.keys) :
    targets.foldlM (addRenameInfo [] renameInfo) [] = none := by
  apply Traversal.foldlM_eq_none hs
  intro infos
  unfold addRenameInfo
  rw [if_neg List.not_mem_nil, Dictionary.tryGetValue_eq_none.mpr h]

theorem mem_numbered_of_first {s : PostOrderState Nat}
    (h : Invariant D.graph D.first s) (hstack : s.stack = D.first :: rest)
    (hgrey : D.first ∈ s.grey) (hv : v ∈ successors D.heap D.first) :
    v ∈ s.numbered := by
  have hjump : D.Jump D.first v := ⟨first_mem D, hv⟩
  have hline := h.closed D.first hgrey v (graph_edge.mpr hjump)
  have hlast := h.last
  have hnodup := h.nodup
  unfold PostOrderState.line at hline hlast hnodup
  rw [hstack] at hline hlast hnodup
  rcases List.mem_append.mp hline with hnumbered | hmem
  · exact hnumbered
  · rcases List.mem_cons.mp hmem with heq | hrest
    · exact absurd heq.symm (ne_of_jump hjump)
    · cases rest with
      | nil => cases hrest
      | cons r rest =>
        have hfirst : D.first ∈ r :: rest := by
          have hend : (r :: rest).getLast? = some D.first := by
            rw [← hlast, List.append_cons,
              List.getLast?_append_of_ne_nil _ (List.cons_ne_nil r rest)]
          exact List.mem_of_getLast? hend
        have htail := (List.nodup_append.mp hnodup).2.1
        exact absurd hfirst (List.nodup_cons.mp htail).1

theorem exists_renameInfoOf (htrack : Tracking st)
    (h : Invariant D.graph D.first st.toPostOrderState)
    (hstack : st.stack = curr :: rest) (hgrey : curr ∈ st.grey) (hknown : Unnamed isValid D curr ->
      forall v, v ∈ successors D.heap curr -> v ∈ st.numbered) :
    exists info, renameInfoOf isValid D.heap D.first st.keep st.renameInfo curr = some info := by
  have hkeys : ((D.heap curr).cmds = [] ∨ curr = D.first) ->
      isValid (D.heap curr).tok = false ->
      forall v, v ∈ successors D.heap curr ->
        v ∈ (st.renameInfo.set curr none).keys := by
    intro hasks htok v hv
    rw [Dictionary.mem_keys_set, htrack.keys]
    left
    rcases hasks with hempty | hfirst
    · exact hknown ⟨hempty, htok⟩ v hv
    · subst hfirst
      exact mem_numbered_of_first h hstack hgrey hv
  unfold renameInfoOf
  rw [htrack.keep]
  split
  · exact ⟨_, rfl⟩
  · by_cases hasks : (D.heap curr).cmds = [] ∨ curr = D.first
    · rw [if_pos hasks]
      by_cases htok : isValid (D.heap curr).tok = true
      · rw [if_pos htok]
        exact ⟨_, rfl⟩
      · rw [if_neg htok]
        rw [Bool.not_eq_true] at htok
        rcases exists_addRenameInfo (hkeys hasks htok) with ⟨infos, hinfos⟩
        rw [hinfos]
        split
        · rename_i hnone
          cases hnone
        · exact ⟨_, rfl⟩
        · exact ⟨_, rfl⟩
    · rw [if_neg hasks]
      exact ⟨_, rfl⟩

theorem renameInfoOf_eq_none (htrack : Tracking st)
    (hcurr : curr ∈ D.blocks) (hunnamed : Unnamed isValid D curr)
    (hv : v ∈ successors D.heap curr) (hnot : v ∉ st.numbered) :
    renameInfoOf isValid D.heap D.first st.keep st.renameInfo curr = none := by
  have hkey : v ∉ (st.renameInfo.set curr none).keys := by
    rw [Dictionary.mem_keys_set, htrack.keys, not_or]
    exact ⟨hnot, fun heq => ne_of_jump ⟨hcurr, hv⟩ heq.symm⟩
  unfold renameInfoOf
  rw [htrack.keep]
  split
  · rename_i hnil
    rw [hnil] at hv
    cases hv
  · rw [if_pos (Or.inl hunnamed.1), if_neg (by rw [hunnamed.2]; simp),
      addRenameInfo_eq_none hv hkey]

theorem visitBlock_grey (htrack : Tracking st) (h : Invariant D.graph D.first st.toPostOrderState)
    (hstack : st.stack = curr :: rest) (hgrey : curr ∈ st.grey) (hknown : Unnamed isValid D curr ->
      forall v, v ∈ successors D.heap curr -> v ∈ st.numbered) :
    exists st', visitBlock isValid D.heap D.first curr rest st = some st' ∧
      st'.toPostOrderState = visit D.graph curr rest st.toPostOrderState ∧ Tracking st' := by
  rcases exists_renameInfoOf htrack h hstack hgrey hknown with ⟨info, hinfo⟩
  unfold visitBlock
  rw [if_pos hgrey, hinfo]
  dsimp only
  apply Exists.intro
  constructor
  · rfl
  · constructor
    · unfold visit
      rw [if_pos hgrey]
    · constructor
      · exact htrack.keep
      · intro x
        rw [Dictionary.mem_keys_set, Dictionary.mem_keys_set, htrack.keys,
          List.mem_append, List.mem_singleton, or_assoc, or_self]

theorem exists_visitBlock (htrack : Tracking st) (h : Invariant D.graph D.first st.toPostOrderState)
    (hstack : st.stack = curr :: rest) (hknown : curr ∈ st.grey -> Unnamed isValid D curr ->
      forall v, v ∈ successors D.heap curr -> v ∈ st.numbered) :
    exists st', visitBlock isValid D.heap D.first curr rest st = some st' ∧
      st'.toPostOrderState = visit D.graph curr rest st.toPostOrderState ∧ Tracking st' := by
  by_cases hgrey : curr ∈ st.grey
  · exact visitBlock_grey htrack h hstack hgrey (hknown hgrey)
  · rw [visitBlock_white h hstack hgrey]
    apply Exists.intro
    constructor
    · rfl
    · constructor
      · rfl
      · constructor
        · exact htrack.keep
        · intro x
          rw [htrack.keys]
          rcases DomRelation.visit_cases (g := D.graph) hstack with
            ⟨hyes, _⟩ | ⟨_, cs, hpushed, _⟩
          · exact absurd hyes hgrey
          · exact (congrArg (x ∈ ·) hpushed.numbered.symm).to_iff

theorem NamesKnown.step {s : PostOrderState Nat}
    (h : NamesKnown isValid D s) (hstack : s.stack = curr :: rest) :
    NamesKnown isValid D (visit D.graph curr rest s) :=
  fun t ht => h t (ht.head ⟨curr, rest, hstack, rfl⟩)

theorem exists_visitBlocks (fuel : Nat) (htrack : Tracking st)
    (h : Invariant D.graph D.first st.toPostOrderState)
    (hknown : NamesKnown isValid D st.toPostOrderState) (hfuel : 2 * D.graph.ns.length <
      st.numbered.length + st.grey.length + fuel) :
    exists st', visitBlocks isValid D.heap D.first fuel st = some st' ∧
      Tracking st' ∧ Invariant D.graph D.first st'.toPostOrderState ∧ st'.stack = [] := by
  induction fuel generalizing st with
  | zero => exact absurd hfuel (Nat.not_lt.mpr (h.count_le (first_mem D)))
  | succ fuel ih =>
    cases hstack : st.stack with
    | nil =>
      exists st
      rw [visitBlocks, hstack]
      exact ⟨rfl, htrack, h, rfl⟩
    | cons curr rest =>
      rcases exists_visitBlock htrack h hstack
        (hknown _ Relation.ReflTransGen.refl curr rest hstack) with
        ⟨st₁, hfirst, hstate, htrack₁⟩
      rw [visitBlocks, hstack]
      dsimp only
      rw [hfirst]
      apply ih htrack₁
      · rw [hstate]
        exact h.step hstack
      · rw [hstate]
        exact hknown.step hstack
      · rw [hstate, DomRelation.step_count hstack, Nat.add_assoc,
          Nat.add_comm 1]
        exact hfuel

theorem namesKnown_of_visitBlocks (fuel : Nat) (htrack : Tracking st)
    (h : Invariant D.graph D.first st.toPostOrderState) {st' : VisitState}
    (hrun : visitBlocks isValid D.heap D.first fuel st = some st') :
    NamesKnown isValid D st.toPostOrderState := by
  induction fuel generalizing st with
  | zero => cases hrun
  | succ fuel ih =>
    cases hstack : st.stack with
    | nil =>
      intro t ht u rest ht'
      rcases Relation.ReflTransGen.cases_head ht with heq | ⟨_, hstep, _⟩
      · rw [← heq, hstack] at ht'
        cases ht'
      · rcases hstep with ⟨curr, rest, hstack', _⟩
        rw [hstack] at hstack'
        cases hstack'
    | cons curr rest =>
      have hcurr := mem_blocks_of_line h (DomRelation.curr_mem_line hstack)
      have hnow : curr ∈ st.grey -> Unnamed isValid D curr ->
          forall v, v ∈ successors D.heap curr -> v ∈ st.numbered := by
        intro hgrey hunnamed v hv
        by_contra hnot
        rw [visitBlocks, hstack] at hrun
        dsimp only at hrun
        rw [visitBlock, if_pos hgrey,
          renameInfoOf_eq_none htrack hcurr hunnamed hv hnot] at hrun
        cases hrun
      rcases exists_visitBlock htrack h hstack hnow with
        ⟨st₁, hfirst, hstate, htrack₁⟩
      rw [visitBlocks, hstack] at hrun
      dsimp only at hrun
      rw [hfirst] at hrun
      have hlater := ih htrack₁ (hstate ▸ h.step hstack) hrun
      intro t ht u rest' ht' hgrey hunnamed
      rcases Relation.ReflTransGen.cases_head ht with heq | ⟨s₁, hstep, hrest⟩
      · rw [← heq] at ht' hgrey ⊢
        rw [hstack] at ht'
        cases ht'
        exact hnow hgrey hunnamed
      · rcases hstep with ⟨curr', rest'', hstack', heq⟩
        rw [hstack] at hstack'
        cases hstack'
        rw [heq, ← hstate] at hrest
        exact hlater t hrest u rest' ht' hgrey hunnamed

end Run

/-!
# Blocks between

Before the call, blocks are added so that a block with several predecessors is
the only target of each of them.
-/

def Separated (D : PassiveDag Token) : Prop :=
  forall b p q, p ≠ q -> D.Jump p b -> D.Jump q b ->
    forall t, t ∈ successors D.heap p -> t = b

theorem Separated.namesReady (h : Separated D) (isValid : Token -> Bool) :
    NamesReady isValid D := by
  intro s hsteps u rest hstack hwhite _ v hv hwaiting
  have hinv := invariant_of_steps hsteps
  have hline := DomRelation.curr_mem_line hstack
  have hjump : D.Jump u v := ⟨mem_blocks_of_line hinv hline, hv⟩
  have hgrey := not_grey_of_jump hinv hstack hjump hwaiting
  have hvline : v ∈ s.line := by
    unfold PostOrderState.line
    rw [hstack]
    exact List.mem_append_right _ (List.mem_cons_of_mem u hwaiting)
  rcases hinv.parent v hvline with hfirst | ⟨p, hparent⟩
  · have hpath := hinv.reached u hline
    rw [← hfirst] at hpath
    exact graph_acyclic D v (Relation.TransGen.tail' hpath
      (graph_edge.mpr hjump))
  · -- The block that put `v` on the stack waits for it and for `u`.
    rcases List.append_of_mem hwaiting with ⟨above, below, hsplit⟩
    have hstack' : s.stack = (u :: above) ++ v :: below := by
      rw [hstack, hsplit]
      rfl
    have hp := (hinv.ancestors (u :: above) v below hstack' p).mpr
      (Relation.TransGen.single hparent)
    have hrest : p ∈ rest := by
      rw [hsplit]
      exact List.mem_append_right _ (List.mem_cons_of_mem v hp.1)
    have hancestor := (hinv.ancestors [] u rest hstack p).mp ⟨hrest, hp.2⟩
    rcases Relation.TransGen.head'_iff.mp hancestor with ⟨c, hchild, hpath⟩
    have hne : p ≠ u := fun heq => hwhite (heq ▸ hp.2)
    have hsame := h v p u hne (graph_edge.mp (hinv.tree p v hparent).1) hjump
      c (graph_edge.mp (hinv.tree p c hchild).1).2
    rw [hsame] at hpath
    rcases Relation.reflTransGen_iff_eq_or_transGen.mp hpath with heq | hproper
    · exact ne_of_jump hjump heq
    · exact hgrey ((hinv.ancestors [] u rest hstack v).mpr hproper).2

/-!
# The verification condition
-/

/-- Blocks are returned whose first one goes wrong in the same states. -/
def Preserves (isValid : Token -> Bool) (D : PassiveDag Token) : Prop :=
  exists bound, forall fuel, bound ≤ fuel -> exists heap,
    removeEmptyBlocksIterative isValid D.predecessors fuel D.heap D.blocks =
      some heap ∧
    forall (U : Type) [DecidableEq U] (C : Context U) (ρ : Env U),
      Safe C (D.program heap) D.first ρ <->
        Safe C (D.program D.heap) D.first ρ

theorem NamesReady.preserves {isValid : Token -> Bool}
    (h : NamesReady isValid D) : Preserves isValid D := by
  have hinv := Invariant.initial D.graph D.first
  exists 2 * D.graph.ns.length + 1
  intro fuel hfuel
  have hless : 2 * D.graph.ns.length <
      (initial D.first).numbered.length + (initial D.first).grey.length +
        fuel := by
    rw [Nat.add_comm]
    exact Nat.lt_add_right _ hfuel
  rcases exists_visitBlocks fuel (Tracking.initial D.first) hinv
    (namesKnown_of_ready h) hless with ⟨st, hrun, htrack, hinv', hempty⟩
  have hnumbered : st.toPostOrderState.line = st.numbered := by
    unfold PostOrderState.line
    rw [hempty, List.append_nil]
  have hfirst : D.first ∈ st.numbered := by
    rw [← hnumbered]
    exact List.mem_of_getLast? hinv'.last
  rcases Dictionary.mem_keys.mp ((htrack.keys D.first).mpr hfirst) with
    ⟨startInfo, hinfo⟩
  have hblocks : forall b, b ∈ st.numbered -> b ∈ D.blocks := by
    intro b hb
    exact mem_blocks_of_line hinv' (hnumbered.symm ▸ hb)
  rcases exists_foldlM_removeBlock isValid (hashSetAdd st.keep D.first)
    startInfo st.numbered hblocks (complete_refl D) with
    ⟨heap, hremove, hcomplete⟩
  exists renameStart isValid D.first startInfo heap
  constructor
  · unfold removeEmptyBlocksIterative PassiveDag.blocks
    dsimp only
    rw [hrun]
    dsimp only
    rw [hinfo]
    dsimp only
    rw [hremove]
  · intro U _ C ρ
    exact (hcomplete.renameStart isValid D.first startInfo).safe_iff

theorem namesReady_of_eq_some {isValid : Token -> Bool} {fuel : Nat}
    {heap : Heap Nat String Token Cmd}
    (hrun : removeEmptyBlocksIterative isValid D.predecessors fuel D.heap D.blocks = some heap) :
    NamesReady isValid D := by
  apply ready_of_namesKnown
  unfold removeEmptyBlocksIterative PassiveDag.blocks at hrun
  dsimp only at hrun
  split at hrun
  · cases hrun
  · rename_i st hvisit
    exact namesKnown_of_visitBlocks fuel (Tracking.initial D.first)
      (Invariant.initial D.graph D.first) hvisit

theorem Preserves.namesReady {isValid : Token -> Bool}
    (h : Preserves isValid D) : NamesReady isValid D := by
  rcases h with ⟨bound, hbound⟩
  rcases hbound bound (Nat.le_refl bound) with ⟨heap, hrun, _⟩
  exact namesReady_of_eq_some hrun

end Order

/--
The blocks are returned with an equivalent first block exactly when the
information of targets is there in time, as it always is after blocks were added
between.  Otherwise nothing is returned, however long the search goes on.
-/
theorem removeEmptyBlocksIterative_preserves_iff (isValid : Token -> Bool) (D : PassiveDag Token) :
    (Preserves isValid D <-> NamesReady isValid D) ∧ (Separated D -> Preserves isValid D) ∧
      (¬ NamesReady isValid D -> forall fuel,
        removeEmptyBlocksIterative isValid D.predecessors fuel D.heap D.blocks = none) := by
  refine ⟨⟨Preserves.namesReady, NamesReady.preserves⟩, ?_, ?_⟩
  · intro h
    exact (h.namesReady isValid).preserves
  · intro h fuel
    rw [Option.eq_none_iff_forall_not_mem]
    intro heap hrun
    exact h (namesReady_of_eq_some hrun)

/-!
# A target that waits

The first block jumps to the last one and to an empty one above it on the stack,
which jumps to the last one.
-/

def waitingHeap : Heap Nat String Unit Cmd
  | 0 => ⟨(), "start", [], some (.gotoCmd ["end", "empty"] (some [2, 1]))⟩
  | 1 => ⟨(), "empty", [], some (.gotoCmd ["end"] (some [2]))⟩
  | _ => ⟨(), "end", [], some .returnCmd⟩

theorem waitingHeap_lt {x y : Nat} (h : y ∈ successors waitingHeap x) :
    x < y := by
  match x, h with
  | 0, h =>
    have hy : y = 2 ∨ y = 1 := by
      simpa [successors, waitingHeap, BlockCoalescer.TransferCmd.targets]
        using h
    rcases hy with heq | heq
    · exact heq ▸ Nat.zero_lt_two
    · exact heq ▸ Nat.zero_lt_one
  | 1, h =>
    have hy : y = 2 := by
      simpa [successors, waitingHeap, BlockCoalescer.TransferCmd.targets]
        using h
    exact hy ▸ Nat.one_lt_two
  | _ + 2, h => cases h

def waitingDag : PassiveDag Unit where
  first := 0
  others := [1, 2]
  heap := waitingHeap
  distinct := by decide
  targets_mem := by decide
  predecessors := fun b =>
    [0, 1, 2].filter (fun p => b ∈ successors waitingHeap p)
  passive := by decide
  mem_predecessors := by
    intro b _ p
    rw [List.mem_filter, decide_eq_true_eq]
  acyclic := by
    intro b h
    have hlt : forall {x y}, Relation.TransGen (fun x y =>
        x ∈ [0, 1, 2] ∧ y ∈ successors waitingHeap x) x y -> x < y := by
      intro x y hpath
      induction hpath with
      | single hstep => exact waitingHeap_lt hstep.2
      | tail _ hstep ih => exact ih.trans (waitingHeap_lt hstep.2)
    exact Nat.lt_irrefl b (hlt h)

theorem waitingDag_not_preserves :
    ¬ Preserves (fun _ => false) waitingDag := by
  intro h
  have hstep : DomRelation.Step waitingDag.graph
      (DomRelation.initial waitingDag.first)
      (visit waitingDag.graph 0 [] (DomRelation.initial 0)) :=
    ⟨0, [], rfl, rfl⟩
  have hready := h.namesReady _ (Relation.ReflTransGen.single hstep) 1 [2, 0]
    (by decide) (by decide) ⟨rfl, rfl⟩ 2 (by decide)
  exact hready (by decide)

end RemoveEmptyBlocks

end VCGen

end Boogie
