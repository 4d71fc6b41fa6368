import Boogie.Predication.UniformityAnalyser

/-!
# Merged blocks stand for themselves

A block that is left has the command sequences that it had before.  So the first one
that is left has those of the entry block exactly when it had them before.
-/

namespace Boogie
namespace UniformityAnalyser

open Chains (EndsAt Linked)
open Implementation (IsPruned IsBlockGraph WellFormed)

/-!
# Single predecessors
-/

section Single

variable {uni : Option (Nat -> Bool)} {g : Graph Nat} {block pred : Nat}

/-- A merged block and its predecessor are the ends of the only edge between them. -/
structure OnlyEdge (g : Graph Nat) (pred block : Nat) : Prop where
  into : forall x, g.Edge x block <-> x = pred
  out : forall x, g.Edge pred x <-> x = block

theorem onlyEdge_of_mergesInto (h : mergesInto uni g block = some pred) :
    OnlyEdge g pred block := by
  unfold mergesInto at h
  cases hpreds : g.predecessors block with
  | nil =>
    rw [hpreds] at h
    cases h
  | cons p others =>
    cases others with
    | cons p' others =>
      rw [hpreds] at h
      cases h
    | nil =>
      rw [hpreds] at h
      dsimp only at h
      cases hsuccs : g.successors p with
      | nil =>
        rw [hsuccs] at h
        cases h
      | cons t others =>
        cases others with
        | cons t' others =>
          rw [hsuccs] at h
          cases h
        | nil =>
          rw [hsuccs] at h
          dsimp only at h
          by_cases hcond : t = block ∧ sameUniformity uni p block = true
          · rw [if_pos hcond, Option.some.injEq] at h
            subst h
            constructor
            · intro x
              rw [← Graph.mem_predecessors, hpreds, List.mem_singleton]
            · intro x
              rw [← Graph.mem_successors, hsuccs, List.mem_singleton, hcond.left]
          · rw [if_neg hcond] at h
            cases h

theorem mergesInto_injective {q q' x : Nat} (h : mergesInto uni g q = some x)
    (h' : mergesInto uni g q' = some x) : q = q' :=
  ((onlyEdge_of_mergesInto h').out q).mp (((onlyEdge_of_mergesInto h).out q).mpr rfl)

end Single

/-!
# Objects
-/

section Objects

variable {blocks : List Block} {x y : Nat}

theorem objects_of_mem (hnodup : (blocks.map Block.uniqueId).Nodup) {b : Block}
    (hb : b ∈ blocks) : objects blocks b.uniqueId = b := by
  have hsome : (blocks.find? (fun c => c.uniqueId = b.uniqueId)).isSome = true := by
    rw [List.find?_isSome]
    exact ⟨b, hb, decide_eq_true rfl⟩
  rcases Option.isSome_iff_exists.mp hsome with ⟨c, hc⟩
  have hid : c.uniqueId = b.uniqueId := by simpa using List.find?_some hc
  rw [objects, hc, Option.getD_some]
  exact List.inj_on_of_nodup_map hnodup (List.mem_of_find?_eq_some hc) hb hid

theorem jumps_iff (hnodup : (blocks.map Block.uniqueId).Nodup) :
    Jumps blocks x y <-> y ∈ (objects blocks x).labelTargets := by
  constructor
  · rintro ⟨b, hb, rfl, hy⟩
    rwa [objects_of_mem hnodup hb]
  · intro hy
    cases hfind : blocks.find? (fun b => b.uniqueId = x) with
    | none =>
      rw [objects, hfind] at hy
      cases hy
    | some b =>
      have hid : b.uniqueId = x := by simpa using List.find?_some hfind
      rw [objects, hfind, Option.getD_some] at hy
      exact ⟨b, List.mem_of_find?_eq_some hfind, hid, hy⟩

theorem merge_of_ne {heap : Heap} {pred block : Nat} (h : x ≠ pred) :
    merge heap pred block x = heap x :=
  Function.update_of_ne h ..

@[simp] theorem cmds_merge_self (heap : Heap) (pred block : Nat) :
    (merge heap pred block pred).cmds = (heap pred).cmds ++ (heap block).cmds := by
  rw [merge, Function.update_self]

@[simp] theorem transferCmd_merge_self (heap : Heap) (pred block : Nat) :
    (merge heap pred block pred).transferCmd = (heap block).transferCmd := by
  rw [merge, Function.update_self]

theorem chart_merge (heap : Heap) (pred block : Nat) :
    chart (merge heap pred block) = (chart heap).fuse pred block := by
  ext1 <;> funext x <;> rcases eq_or_ne x pred with rfl | hne
  · rw [Flowchart.cmds_fuse_self]
    exact cmds_merge_self ..
  · rw [Flowchart.cmds_fuse_of_ne hne]
    exact congrArg Block.cmds (merge_of_ne hne)
  · rw [Flowchart.next_fuse_self]
    exact congrArg TransferCmd.labelTargets (transferCmd_merge_self ..)
  · rw [Flowchart.next_fuse_of_ne hne]
    exact congrArg Block.labelTargets (merge_of_ne hne)
  · rw [Flowchart.exit_fuse_self]
    exact congrArg some (transferCmd_merge_self ..)
  · rw [Flowchart.exit_fuse_of_ne hne]
    exact congrArg (fun b => some b.transferCmd) (merge_of_ne hne)

end Objects

/-!
# The rounds
-/

section Rounds

variable {uni : Option (Nat -> Bool)} {impl' : Implementation} {g : Graph Nat} {source : Nat}

/-- What holds after the blocks `done` have been taken.  The transfer command of a block
is that of the last block that has been merged into it. -/
structure Merging (uni : Option (Nat -> Bool)) (impl' : Implementation) (g : Graph Nat)
    (done : List Nat) (s : State) (last : Nat -> Nat) : Prop where
  linked : Linked (mergesInto uni g) s.predMap last
  merged : forall b, s.predMap b ≠ none <-> b ∈ done ∧ mergesInto uni g b ≠ none
  blocks : s.blocks = impl'.blockIds.filter (fun b => (s.predMap b).isNone)
  transfer : forall r, s.predMap r = none ->
    (s.heap r).transferCmd = (objects impl'.blocks (last r)).transferCmd
  sequences : forall r, r ∈ g.ns -> s.predMap r = none ->
    commandSequences s.heap r = commandSequences (objects impl'.blocks) r

theorem merging_start :
    Merging uni impl' g []
      { heap := objects impl'.blocks, blocks := impl'.blockIds, predMap := fun _ => none } id where
  linked := Chains.linked_none
  merged := by simp
  blocks := by simp
  transfer := fun _ _ => rfl
  sequences := fun _ _ _ => rfl

variable {done : List Nat} {s : State} {last : Nat -> Nat} {block pred r : Nat}

theorem Merging.skip (h : Merging uni impl' g done s last)
    (hblock : mergesInto uni g block = none) :
    Merging uni impl' g (block :: done) s last where
  linked := h.linked
  merged := by
    intro b
    rw [h.merged, List.mem_cons]
    constructor
    · rintro ⟨hb, hmerges⟩
      exact ⟨Or.inr hb, hmerges⟩
    · rintro ⟨rfl | hb, hmerges⟩
      · exact absurd hblock hmerges
      · exact ⟨hb, hmerges⟩
  blocks := h.blocks
  transfer := h.transfer
  sequences := h.sequences

theorem Merging.predMap_none (h : Merging uni impl' g done s last) (hnew : block ∉ done) :
    s.predMap block = none := by
  by_contra hne
  exact hnew ((h.merged block).mp hne).left

theorem Merging.mem_next (hgraph : IsBlockGraph impl' g source) (hwf : impl'.WellFormed)
    (h : Merging uni impl' g done s last) (hr : s.predMap r = none) {t : Nat} :
    t ∈ (chart s.heap).next r <-> g.Edge (last r) t := by
  rw [hgraph.edges, jumps_iff hwf.nodup]
  change t ∈ (s.heap r).transferCmd.labelTargets <-> _
  rw [h.transfer r hr]
  rfl

theorem Merging.fusible (hgraph : IsBlockGraph impl' g source) (hwf : impl'.WellFormed)
    (h : Merging uni impl' g done s last) (hnew : block ∉ done) (hmem : block ∈ g.ns)
    (hpred : mergesInto uni g block = some pred) (hr : EndsAt s.predMap r pred) (hne : r ≠ block) :
    (chart s.heap).Fusible (fun x => x ∈ g.ns ∧ s.predMap x = none) r block := by
  have hnone := h.predMap_none hnew
  have hlast := h.linked.eq_last (fun _ _ _ => mergesInto_injective) hnone hpred hr
  have honly := onlyEdge_of_mergesInto hpred
  constructor
  · exact ⟨hmem, hnone⟩
  · exact hne.symm
  · intro t
    rw [h.mem_next hgraph hwf hr.end_none, ← hlast]
    exact honly.out t
  · rintro x ⟨_, hx⟩ hedge
    rw [h.mem_next hgraph hwf hx, honly.into] at hedge
    have hends := h.linked.last_ends x hx
    rw [hedge] at hends
    exact hends.unique hr
  · rintro x ⟨_, hx⟩ t hedge
    rw [h.mem_next hgraph hwf hx] at hedge
    constructor
    · exact (g.endpoints _ hedge).right
    · by_contra hmerged
      rcases Option.ne_none_iff_exists'.mp (h.linked.child t hmerged) with ⟨p, hp⟩
      have heq := ((onlyEdge_of_mergesInto hp).into (last x)).mp hedge
      exact hmerged (h.linked.last_free x hx t (heq ▸ hp))

theorem filter_update {ids : List Nat} (hnodup : ids.Nodup) (m : Nat -> Option Nat) (b p : Nat) :
    (ids.filter (fun x => (m x).isNone)).erase b =
      ids.filter (fun x => (Function.update m b (some p) x).isNone) := by
  rw [(hnodup.filter _).erase_eq_filter, List.filter_filter]
  apply List.filter_congr
  intro x _
  rcases eq_or_ne x b with rfl | hne
  · simp
  · simp [hne]

theorem Merging.merge (hgraph : IsBlockGraph impl' g source) (hwf : impl'.WellFormed)
    (h : Merging uni impl' g done s last) (hnew : block ∉ done) (hmem : block ∈ g.ns)
    (hpred : mergesInto uni g block = some pred) (hr : EndsAt s.predMap r pred) (hne : r ≠ block) :
    Merging uni impl' g (block :: done)
      { heap := UniformityAnalyser.merge s.heap r block
        blocks := s.blocks.erase block
        predMap := Function.update s.predMap block (some r) }
      (Function.update last r (last block)) := by
  have hnone := h.predMap_none hnew
  have hupdate : forall x, Function.update s.predMap block (some r) x = none ->
      x ≠ block ∧ s.predMap x = none := by
    intro x hx
    have hxb : x ≠ block := by
      rintro rfl
      rw [Function.update_self] at hx
      cases hx
    rw [Function.update_of_ne hxb] at hx
    exact ⟨hxb, hx⟩
  constructor
  · exact h.linked.update (fun _ _ _ => mergesInto_injective) hnone hpred hr hne
  · intro b
    dsimp only
    rw [List.mem_cons]
    rcases eq_or_ne b block with rfl | hb
    · rw [Function.update_self, hpred]
      simp
    · rw [Function.update_of_ne hb, h.merged]
      constructor
      · rintro ⟨hdone, hmerges⟩
        exact ⟨Or.inr hdone, hmerges⟩
      · rintro ⟨heq | hdone, hmerges⟩
        · exact absurd heq hb
        · exact ⟨hdone, hmerges⟩
  · rw [h.blocks]
    exact filter_update hwf.nodup s.predMap block r
  · intro x hx
    rcases hupdate x hx with ⟨_, hx⟩
    dsimp only
    rcases eq_or_ne x r with rfl | hxr
    · rw [Function.update_self, transferCmd_merge_self]
      exact h.transfer block hnone
    · rw [Function.update_of_ne hxr, merge_of_ne hxr]
      exact h.transfer x hx
  · intro x hxmem hx
    rcases hupdate x hx with ⟨hxb, hx⟩
    rw [← h.sequences x hxmem hx, commandSequences, commandSequences, executed, executed,
      chart_merge]
    exact (h.fusible hgraph hwf hnew hmem hpred hr hne).stopping_sequences_eq ⟨hxmem, hx⟩ hxb

theorem Merging.cycle (hgraph : IsBlockGraph impl' g source)
    (h : Merging uni impl' g done s last) (hnew : block ∉ done) (hmem : block ∈ g.ns)
    (hpred : mergesInto uni g block = some pred) (hr : EndsAt s.predMap block pred) {x : Nat}
    (hx : x ∈ g.ns) : mergesInto uni g x ≠ none ∧ EndsAt s.predMap block x := by
  have hnone := h.predMap_none hnew
  have hcycle : forall y, EndsAt s.predMap block y ->
      (exists z, mergesInto uni g y = some z ∧ EndsAt s.predMap block z) ∧
        exists z, mergesInto uni g z = some y ∧ EndsAt s.predMap block z :=
    fun y => h.linked.cycle (fun _ _ _ => mergesInto_injective) hnone hpred hr
  have hback : forall y z, g.Edge y z -> EndsAt s.predMap block z ->
      EndsAt s.predMap block y := by
    intro y z hedge hz
    rcases (hcycle z hz).left with ⟨p, hp, hends⟩
    rwa [((onlyEdge_of_mergesInto hp).into y).mp hedge]
  have hforth : forall y z, g.Edge y z -> EndsAt s.predMap block y ->
      EndsAt s.predMap block z := by
    intro y z hedge hy
    rcases (hcycle y hy).right with ⟨q, hq, hends⟩
    rwa [((onlyEdge_of_mergesInto hq).out z).mp hedge]
  have hinto : forall y, Relation.ReflTransGen g.Edge y block -> EndsAt s.predMap block y := by
    intro y hy
    induction hy using Relation.ReflTransGen.head_induction_on with
    | refl => exact .stop hnone
    | head hedge _ ih => exact hback _ _ hedge ih
  have hfrom : forall y, Relation.ReflTransGen g.Edge source y -> EndsAt s.predMap block y := by
    intro y hy
    induction hy with
    | refl => exact hinto source (hgraph.reach block hmem)
    | tail _ hedge ih => exact hforth _ _ hedge ih
  have hends := hfrom x (hgraph.reach x hx)
  rcases (hcycle x hends).left with ⟨z, hz, _⟩
  constructor
  · rw [hz]
    exact Option.some_ne_none z
  · exact hends

def Merged (uni : Option (Nat -> Bool)) (impl' : Implementation) (g : Graph Nat)
    (s : State) : Prop :=
  (exists done last, Merging uni impl' g done s last ∧ forall b, b ∈ g.ns -> b ∈ done) ∨
    s.blocks = [] ∧ forall b, b ∈ g.ns -> mergesInto uni g b ≠ none

theorem mergeBlock_spec (hgraph : IsBlockGraph impl' g source) (hwf : impl'.WellFormed)
    (h : Merging uni impl' g done s last) (hnew : block ∉ done) (hmem : block ∈ g.ns) :
    exists bound s', (forall fuel, bound ≤ fuel -> mergeBlock fuel uni g s block = some s') ∧
      ((exists last', Merging uni impl' g (block :: done) s' last') ∨
        s'.blocks = [] ∧ forall b, b ∈ g.ns ->
          mergesInto uni g b ≠ none ∧ (b = block ∨ b ∈ done)) := by
  cases hpred : mergesInto uni g block with
  | none =>
    exists 0, s
    constructor
    · intro fuel _
      rw [mergeBlock, hpred]
    · exact Or.inl ⟨last, h.skip hpred⟩
  | some pred =>
    rcases h.linked.ends pred with ⟨r, hr⟩
    rcases Chains.exists_follow hr with ⟨bound, hfollow⟩
    exists bound, { heap := merge s.heap r block
                    blocks := s.blocks.erase block
                    predMap := Function.update s.predMap block (some r) }
    constructor
    · intro fuel hfuel
      rw [mergeBlock, hpred]
      dsimp only
      rw [hfollow fuel hfuel, Option.map_some]
    · rcases eq_or_ne r block with rfl | hne
      · right
        have hcycle : forall b, b ∈ g.ns ->
            mergesInto uni g b ≠ none ∧ (b = r ∨ s.predMap b ≠ none) := by
          intro b hb
          rcases h.cycle hgraph hnew hmem hpred hr hb with ⟨hmerges, hends⟩
          constructor
          · exact hmerges
          · cases hlink : s.predMap b with
            | none => exact Or.inl (hends.of_none hlink).symm
            | some z => exact Or.inr (Option.some_ne_none z)
        constructor
        · dsimp only
          rw [h.blocks, filter_update hwf.nodup s.predMap r r, List.filter_eq_nil_iff]
          intro b hb hisNone
          rw [Option.isNone_iff_eq_none] at hisNone
          rcases eq_or_ne b r with rfl | hbr
          · rw [Function.update_self] at hisNone
            cases hisNone
          · rw [Function.update_of_ne hbr] at hisNone
            rcases (hcycle b ((hgraph.nodes b).mpr hb)).right with heq | hlinked
            · exact hbr heq
            · exact hlinked hisNone
        · intro b hb
          rcases hcycle b hb with ⟨hmerges, heq | hlinked⟩
          · exact ⟨hmerges, Or.inl heq⟩
          · exact ⟨hmerges, Or.inr ((h.merged b).mp hlinked).left⟩
      · left
        exact ⟨_, h.merge hgraph hwf hnew hmem hpred hr hne⟩

theorem mergeBlocks_spec (hgraph : IsBlockGraph impl' g source) (hwf : impl'.WellFormed)
    {rest : List Nat} (h : Merging uni impl' g done s last)
    (hnodup : rest.Nodup) (hnew : forall b, b ∈ rest -> b ∉ done)
    (hall : forall b, b ∈ g.ns <-> b ∈ done ∨ b ∈ rest) :
    exists bound s', (forall fuel, bound ≤ fuel -> mergeBlocks fuel uni g rest s = some s') ∧
      Merged uni impl' g s' := by
  induction rest generalizing done s last with
  | nil =>
    exists 0, s
    constructor
    · exact fun _ _ => rfl
    · left
      exists done, last
      constructor
      · exact h
      · intro b hb
        exact ((hall b).mp hb).resolve_right List.not_mem_nil
  | cons block rest ih =>
    have hblock := hnew block List.mem_cons_self
    have hmem := (hall block).mpr (Or.inr List.mem_cons_self)
    rw [List.nodup_cons] at hnodup
    rcases mergeBlock_spec hgraph hwf h hblock hmem with
      ⟨bound, s1, hstep, ⟨last1, hnext⟩ | ⟨hnil, hcycle⟩⟩
    · have hnew' : forall b, b ∈ rest -> b ∉ block :: done := by
        intro b hb hcons
        rcases List.mem_cons.mp hcons with rfl | hdone
        · exact hnodup.left hb
        · exact hnew b (List.mem_cons_of_mem _ hb) hdone
      have hall' : forall b, b ∈ g.ns <-> b ∈ block :: done ∨ b ∈ rest := by
        intro b
        rw [hall, List.mem_cons, List.mem_cons, or_left_comm, or_assoc]
      rcases ih hnext hnodup.right hnew' hall' with ⟨bound', s2, hrun, hmerged⟩
      exists bound + bound', s2
      constructor
      · intro fuel hfuel
        rw [mergeBlocks, hstep fuel (Nat.le_of_add_right_le hfuel), Option.bind_some]
        exact hrun fuel (Nat.le_of_add_left_le hfuel)
      · exact hmerged
    · have hrest : rest = [] := by
        rw [List.eq_nil_iff_forall_not_mem]
        intro b hb
        have hcons := List.mem_cons_of_mem block hb
        rcases (hcycle b ((hall b).mpr (Or.inr hcons))).right with rfl | hdone
        · exact hnodup.left hb
        · exact hnew b hcons hdone
      exists bound, s1
      constructor
      · intro fuel hfuel
        rw [mergeBlocks, hstep fuel hfuel, hrest]
        rfl
      · exact Or.inr ⟨hnil, fun b hb => (hcycle b hb).left⟩

end Rounds

/-!
# Pruning
-/

section Pruned

variable {impl impl' : Implementation} {prune : Bool} {x : Nat}

theorem pruned_of_not_any {b : Block} (h : b.cmds.any Cmd.isFalse = false) :
    b.pruned prune = b := by
  have hcond : ¬ (prune = true ∧ b.cmds.any Cmd.isFalse = true) := by
    intro hcond
    rw [h] at hcond
    exact Bool.noConfusion hcond.right
  unfold Block.pruned
  cases b.transferCmd with
  | gotoCmd labelTargets => exact if_neg hcond
  | returnCmd => rfl
  | returnExprCmd e => rfl

theorem agree_of_isPruned (hwf : impl.WellFormed) (h : IsPruned prune impl impl') :
    Flowchart.Agree (executed (objects impl'.blocks)) (executed (objects impl.blocks))
      (fun x => x ∈ impl'.blockIds) := by
  have hobjects : forall x, x ∈ impl'.blockIds ->
      objects impl'.blocks x = (objects impl.blocks x).pruned prune := by
    intro x hx
    rcases List.mem_map.mp hx with ⟨b', hb', rfl⟩
    rcases h.blocks b' hb' with ⟨b, hb, rfl⟩
    rw [objects_of_mem h.wellFormed.nodup hb', Implementation.uniqueId_pruned,
      objects_of_mem hwf.nodup hb]
  apply Flowchart.agree_stopping
  · intro x hx
    change (objects impl'.blocks x).cmds = (objects impl.blocks x).cmds
    rw [hobjects x hx, Implementation.cmds_pruned]
  · intro x hx hany
    change (objects impl'.blocks x).cmds.any Cmd.isFalse = false at hany
    rw [hobjects x hx, Implementation.cmds_pruned] at hany
    have heq := (hobjects x hx).trans (pruned_of_not_any hany)
    exact ⟨congrArg Block.labelTargets heq, congrArg (fun b : Block => some b.transferCmd) heq⟩
  · intro x hx t ht
    rcases List.mem_map.mp hx with ⟨b', hb', rfl⟩
    change t ∈ (objects impl'.blocks b'.uniqueId).labelTargets at ht
    rw [objects_of_mem h.wellFormed.nodup hb'] at ht
    exact h.wellFormed.targets b' hb' t ht

theorem commandSequences_of_isPruned (hwf : impl.WellFormed) (h : IsPruned prune impl impl')
    (hx : x ∈ impl'.blockIds) :
    commandSequences (objects impl'.blocks) x = commandSequences (objects impl.blocks) x :=
  (agree_of_isPruned hwf h).sequences_eq hx

end Pruned

/-!
# The entry block
-/

section Entry

variable {uni : Option (Nat -> Bool)} {impl impl' : Implementation} {prune : Bool}
  {g : Graph Nat} {s : State} {source : Nat}

theorem head_of_merged (hgraph : IsBlockGraph impl' g source) (h : Merged uni impl' g s) :
    s.blocks.head? = firstLeft uni g impl'.blockIds := by
  rw [firstLeft, ← List.head?_filter]
  rcases h with ⟨done, last, hmerging, hdone⟩ | ⟨hnil, hcycle⟩
  · rw [hmerging.blocks]
    congr 1
    apply List.filter_congr
    intro b hb
    have hiff := hmerging.merged b
    rw [and_iff_right (hdone b ((hgraph.nodes b).mpr hb)), not_iff_not] at hiff
    rw [Bool.eq_iff_iff, Option.isNone_iff_eq_none, Option.isNone_iff_eq_none]
    exact hiff
  · have hfilter : impl'.blockIds.filter (fun b => (mergesInto uni g b).isNone) = [] := by
      rw [List.filter_eq_nil_iff]
      intro b hb hisNone
      exact hcycle b ((hgraph.nodes b).mpr hb) (Option.isNone_iff_eq_none.mp hisNone)
    rw [hnil, hfilter]

theorem sequences_of_merged (h : Merged uni impl' g s) {first : Nat} (hmem : first ∈ g.ns)
    (hfirst : s.blocks.head? = some first) :
    commandSequences s.heap first = commandSequences (objects impl'.blocks) first := by
  rcases h with ⟨done, last, hmerging, _⟩ | ⟨hnil, _⟩
  · have hblock : first ∈ s.blocks := List.mem_of_head? hfirst
    rw [hmerging.blocks, List.mem_filter, Option.isNone_iff_eq_none] at hblock
    exact hmerging.sequences first hmem hblock.right
  · rw [hnil] at hfirst
    cases hfirst

theorem mergeBlocksIntoPredecessors_spec (hwf : impl.WellFormed)
    (hloops : exists bound, forall fuel, bound ≤ fuel ->
      impl.processLoops fuel prune = some (impl', g))
    {enumerate : List Nat -> List Nat} (henumerate : forall ns, (enumerate ns).Perm ns) :
    exists bound s, (forall fuel, bound ≤ fuel ->
        mergeBlocksIntoPredecessors fuel prune uni enumerate impl = some s) ∧
      s.blocks.head? = firstLeft uni g impl'.blockIds ∧
      forall first, firstLeft uni g impl'.blockIds = some first ->
        commandSequences s.heap first = commandSequences (objects impl.blocks) first := by
  rcases Implementation.exists_pruned_of_processLoops hwf hloops with
    ⟨hpruned, source, hgraph⟩
  rcases hloops with ⟨bound, hloops⟩
  rcases @mergeBlocks_spec uni _ _ _ _ _ _ hgraph hpruned.wellFormed _ merging_start
    ((henumerate g.ns).nodup_iff.mpr g.nodup) (fun _ _ => List.not_mem_nil)
    (by simp [(henumerate g.ns).mem_iff]) with ⟨bound', s, hrun, hmerged⟩
  have hhead := head_of_merged hgraph hmerged
  exists bound + bound', s
  constructor
  · intro fuel hfuel
    rw [mergeBlocksIntoPredecessors, hloops fuel (Nat.le_of_add_right_le hfuel),
      Option.bind_some]
    exact hrun fuel (Nat.le_of_add_left_le hfuel)
  · constructor
    · exact hhead
    · intro first hfirst
      have hmem : first ∈ impl'.blockIds := List.mem_of_find?_eq_some hfirst
      rw [sequences_of_merged hmerged ((hgraph.nodes first).mpr hmem) (hhead.trans hfirst),
        commandSequences_of_isPruned hwf hpruned hmem]

/-- It keeps an entry block and its command sequences when some block is left, and the
first one had those of the entry block before. -/
theorem mergeBlocksIntoPredecessors_keeps_iff (hwf : impl.WellFormed)
    (hloops : exists bound, forall fuel, bound ≤ fuel ->
      impl.processLoops fuel prune = some (impl', g))
    {enumerate : List Nat -> List Nat} (henumerate : forall ns, (enumerate ns).Perm ns) :
    exists bound s, (forall fuel, bound ≤ fuel ->
        mergeBlocksIntoPredecessors fuel prune uni enumerate impl = some s) ∧
      (KeepsSequences impl s <-> exists entry first, impl.blocks.head? = some entry ∧
          firstLeft uni g impl'.blockIds = some first ∧
          commandSequences (objects impl.blocks) first =
            commandSequences (objects impl.blocks) entry.uniqueId) := by
  rcases @mergeBlocksIntoPredecessors_spec uni _ _ _ _ hwf hloops _ henumerate with
    ⟨bound, s, hrun, hhead, hsequences⟩
  exists bound, s
  constructor
  · exact hrun
  · rw [KeepsSequences, hhead]
    constructor
    · intro ⟨entry, first, hentry, hfirst, heq⟩
      exact ⟨entry, first, hentry, hfirst, hsequences first hfirst ▸ heq⟩
    · intro ⟨entry, first, hentry, hfirst, heq⟩
      exact ⟨entry, first, hentry, hfirst, (hsequences first hfirst).trans heq⟩

end Entry

def loopAtEntry : Implementation where
  uniqueId := 0
  name := "p"
  blocks :=
    [{ uniqueId := 0, label := "head", cmds := [.commentCmd "head"],
       transferCmd := .gotoCmd [1, 2] },
      { uniqueId := 1, label := "body", cmds := [.commentCmd "body"],
        transferCmd := .gotoCmd [0] },
      { uniqueId := 2, label := "exit", cmds := [.commentCmd "exit"],
        transferCmd := .returnCmd }]
  skipVerification := false

theorem loopAtEntry_wellFormed : loopAtEntry.WellFormed where
  nodup := by decide
  nonempty := by decide
  targets := by decide

theorem loopAtEntry_nodup : [0, 1, 2].Nodup := by
  decide

def loopAtEntryGraph : Graph Nat where
  ns := [0, 1, 2]
  es := [(0, 1), (0, 2), (1, 0)]
  source := some 0
  nodup := loopAtEntry_nodup
  endpoints := by decide

def loopAtEntryPruned : Implementation :=
  { loopAtEntry with blocks := [0, 2, 1].map (objects loopAtEntry.blocks) }

theorem processLoops_loopAtEntry :
    exists bound, forall fuel, bound ≤ fuel ->
      loopAtEntry.processLoops fuel true = some (loopAtEntryPruned, loopAtEntryGraph) := by
  exists 60
  intro fuel hfuel
  rcases Nat.exists_eq_add_of_le' hfuel with ⟨n, rfl⟩
  rfl

theorem mergeBlocksIntoPredecessors_keeps_iff_loopAtEntry :
    exists bound s, (forall fuel, bound ≤ fuel ->
        mergeBlocksIntoPredecessors fuel true none List.reverse loopAtEntry = some s) ∧
      (KeepsSequences loopAtEntry s <-> exists entry first, loopAtEntry.blocks.head? = some entry ∧
          firstLeft none loopAtEntryGraph loopAtEntryPruned.blockIds = some first ∧
          commandSequences (objects loopAtEntry.blocks) first =
            commandSequences (objects loopAtEntry.blocks) entry.uniqueId) :=
  mergeBlocksIntoPredecessors_keeps_iff loopAtEntry_wellFormed processLoops_loopAtEntry
    List.reverse_perm

/-- The header has gone into the body, and the exit is the first block. -/
def loopAtEntryMerged : State where
  heap := merge (objects loopAtEntryPruned.blocks) 1 0
  blocks := [2, 1]
  predMap := Function.update (fun _ => none) 0 (some 1)

theorem merge_loopAtEntry (n : Nat) :
    mergeBlocksIntoPredecessors (n + 60) true none id loopAtEntry = some loopAtEntryMerged :=
  rfl

theorem reached_head {heap : Heap} {b : Nat} {c : Cmd} {rest : List Cmd}
    (hcmds : (executed heap).cmds b = c :: rest) :
    Executions.Behaviour.reached [c] ∈ commandSequences heap b := by
  exists (rest, b)
  rw [hcmds]
  exact Executions.Runs.single (o := some c) (Flowchart.Step.cmd c rest b)

theorem eq_of_reached {heap : Heap} {b : Nat} {c d : Cmd} {rest : List Cmd}
    (hcmds : (executed heap).cmds b = c :: rest)
    (h : Executions.Behaviour.reached [d] ∈ commandSequences heap b) : d = c := by
  rcases h with ⟨e, hruns⟩
  rw [hcmds] at hruns
  generalize hl : [d] = l at hruns
  cases hruns with
  | refl => cases hl
  | cons hstep _ =>
    cases hstep with
    | cmd _ _ _ => exact (List.cons.inj hl).left

theorem loopAtEntry_not_kept : ¬KeepsSequences loopAtEntry loopAtEntryMerged := by
  rintro ⟨entry, first, hentry, hfirst, heq⟩
  cases hentry
  cases hfirst
  have hhead : Executions.Behaviour.reached [Cmd.commentCmd "head"] ∈
      commandSequences (objects loopAtEntry.blocks) 0 := @reached_head _ _ _ [] rfl
  have hexit : Executions.Behaviour.reached [Cmd.commentCmd "head"] ∈
      commandSequences loopAtEntryMerged.heap 2 := by
    rw [heq]
    exact hhead
  have hsame : Cmd.commentCmd "head" = Cmd.commentCmd "exit" :=
    @eq_of_reached _ _ _ _ [] rfl hexit
  exact absurd hsame (by decide)

/-- The loop is merged into its body, and executions start at the exit. -/
theorem loopAtEntry_starts_at_exit :
    loopAtEntryMerged.blocks.head? = some 2 ∧
      ¬forall (impl impl' : Implementation) (prune : Bool) (g : Graph Nat)
        (enumerate : List Nat -> List Nat), impl.WellFormed ->
        (exists bound, forall fuel, bound ≤ fuel ->
          impl.processLoops fuel prune = some (impl', g)) -> (forall ns, (enumerate ns).Perm ns) ->
        exists bound s, (forall fuel, bound ≤ fuel ->
            mergeBlocksIntoPredecessors fuel prune none enumerate impl = some s) ∧
          KeepsSequences impl s := by
  constructor
  · rfl
  · intro h
    rcases h loopAtEntry loopAtEntryPruned true loopAtEntryGraph id loopAtEntry_wellFormed
      processLoops_loopAtEntry (fun ns => List.Perm.refl ns) with ⟨bound, s, hrun, hkeeps⟩
    have hmerged := hrun (bound + 60) (Nat.le_add_right ..)
    rw [merge_loopAtEntry, Option.some.injEq] at hmerged
    rw [← hmerged] at hkeeps
    exact loopAtEntry_not_kept hkeeps

end UniformityAnalyser
end Boogie
