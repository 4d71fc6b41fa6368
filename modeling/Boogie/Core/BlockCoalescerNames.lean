import Boogie.Core.BlockCoalescerMerge

/-!
# The label names of gotos

Gotos are kept with their names, and a block keeps its label, unless it has no
position in the program text and is merged with a block that has one.
-/

namespace Boogie
namespace BlockCoalescer

section Names

variable {BlockId Label Token Cmd : Type}

def LabelsAgree (heap : Heap BlockId Label Token Cmd) (blocks : List BlockId) : Prop :=
  forall b, b ∈ blocks -> forall names targets,
    (heap b).transferCmd = some (TransferCmd.gotoCmd names (some targets)) ->
      names = targets.map (fun t => (heap t).label)

/-- The block without a valid token has the token and the label of one of the
blocks, which has a valid token. -/
def Renamed (isValid : Token -> Bool) (original : Heap BlockId Label Token Cmd)
    (removed : BlockId -> Prop) (u : BlockId) (b : Block BlockId Label Token Cmd) : Prop :=
  isValid (original u).tok = false ∧
    exists r, removed r ∧ isValid (original r).tok = true ∧
      b.tok = (original r).tok ∧ b.label = (original r).label

/-- Each name is the label of its target, if that has not been renamed. -/
def LabelsKept (isValid : Token -> Bool) (original heap : Heap BlockId Label Token Cmd)
    (removed : BlockId -> Prop) (blocks : List BlockId) : Prop :=
  forall b, b ∈ blocks -> forall names targets,
    (heap b).transferCmd = some (TransferCmd.gotoCmd names (some targets)) ->
      List.Forall₂ (fun name t => name = (heap t).label ∨
        Renamed isValid original removed t (heap t)) names targets

variable {isValid : Token -> Bool} {original : Heap BlockId Label Token Cmd}

theorem Renamed.valid_token {removed : BlockId -> Prop} {u : BlockId}
    {b : Block BlockId Label Token Cmd} (h : Renamed isValid original removed u b) :
    isValid b.tok = true := by
  rcases h with ⟨_, r, _, hvalid, htok, _⟩
  rw [htok]
  exact hvalid

theorem Renamed.mono {removed removed' : BlockId -> Prop} {u : BlockId}
    {b : Block BlockId Label Token Cmd} (h : Renamed isValid original removed u b)
    (hsub : forall r, removed r -> removed' r) : Renamed isValid original removed' u b := by
  rcases h with ⟨hu, r, hr, hrest⟩
  exact ⟨hu, r, hsub r hr, hrest⟩

/-!
# The second search
-/

variable [DecidableEq BlockId] {impl : Implementation BlockId Label Token Cmd}
variable {s s' : State BlockId Label Token Cmd} {multiPredBlocks : Finset BlockId}

structure Named (isValid : Token -> Bool) (impl : Implementation BlockId Label Token Cmd)
    (s : State BlockId Label Token Cmd) : Prop where
  stack : forall v, v ∈ s.dfsStack -> v ∈ impl.blocks
  removed : forall v, v ∈ s.removedBlocks -> v ∈ impl.blocks
  transfer : forall u, u ∈ impl.blocks -> exists r, r ∈ impl.blocks ∧
    (s.heap u).transferCmd = (impl.heap r).transferCmd
  name : forall u, ((s.heap u).tok = (impl.heap u).tok ∧
      (s.heap u).label = (impl.heap u).label) ∨
    Renamed isValid impl.heap (fun r => r ∈ s.removedBlocks) u (s.heap u)

theorem coalesceStep_cases (h : coalesceStep isValid multiPredBlocks s = some s') :
    exists b rest, s.dfsStack = b :: rest ∧
      (s' = { s with dfsStack := rest } ∨
        s' = { s with
          dfsStack := (successors s.heap b).reverse ++ rest
          visitedBlocks := insert b s.visitedBlocks } ∨
        exists succ, successors s.heap b = [succ] ∧
          s' = { s with
            heap := merge isValid s.heap b succ
            dfsStack := b :: rest
            removedBlocks := insert succ s.removedBlocks }) := by
  unfold coalesceStep at h
  split at h
  · cases h
  · next b rest hstack =>
      refine ⟨b, rest, hstack, ?_⟩
      split at h
      · exact Or.inl (Option.some.inj h).symm
      · split at h
        · next succ hsucc =>
            split at h
            · rw [hsucc]
              exact Or.inr (Or.inl (Option.some.inj h).symm)
            · split at h
              · cases h
              · exact Or.inr (Or.inr ⟨succ, hsucc, (Option.some.inj h).symm⟩)
        · exact Or.inr (Or.inl (Option.some.inj h).symm)

omit [DecidableEq BlockId] in
theorem Named.targets_mem (hs : Named isValid impl s) {b t : BlockId}
    (hb : b ∈ impl.blocks) (ht : t ∈ successors s.heap b) : t ∈ impl.blocks := by
  rcases hs.transfer b hb with ⟨r, hr, hsame⟩
  rw [successors, hsame] at ht
  exact impl.targets_mem r hr ht

theorem Named.merge (hs : Named isValid impl s) {b succ : BlockId} (hb : b ∈ impl.blocks)
    (hsucc : successors s.heap b = [succ]) :
    Named isValid impl { s with
      heap := merge isValid s.heap b succ
      removedBlocks := insert succ s.removedBlocks } := by
  have hmem : succ ∈ impl.blocks :=
    hs.targets_mem hb (hsucc ▸ List.mem_singleton_self succ)
  refine ⟨hs.stack, ?_, ?_, ?_⟩
  · intro v hv
    rcases Finset.mem_insert.mp hv with rfl | hv
    · exact hmem
    · exact hs.removed v hv
  · intro u hu
    dsimp only
    by_cases hub : u = b
    · rw [hub, transferCmd_merge_self]
      exact hs.transfer succ hmem
    · rw [merge_of_ne hub]
      exact hs.transfer u hu
  · intro u
    have hmono : forall r, r ∈ s.removedBlocks -> r ∈ insert succ s.removedBlocks :=
      fun r hr => Finset.mem_insert_of_mem hr
    dsimp only
    by_cases hub : u = b
    · subst hub
      rw [merge_self, Block.merge]
      cases hrename : !isValid (s.heap u).tok && isValid (s.heap succ).tok with
      | false =>
        rcases hs.name u with hname | hname
        · exact Or.inl hname
        · exact Or.inr (hname.mono hmono)
      | true =>
        rw [Bool.and_eq_true, Bool.not_eq_true'] at hrename
        rcases hs.name u with ⟨htok, _⟩ | hname
        · rw [htok] at hrename
          refine Or.inr ⟨hrename.1, ?_⟩
          rcases hs.name succ with ⟨htok', hlabel'⟩ | ⟨_, r, hr, hvalid, htok', hlabel'⟩
          · exact ⟨succ, Finset.mem_insert_self _ _, htok' ▸ hrename.2, htok', hlabel'⟩
          · exact ⟨r, hmono r hr, hvalid, htok', hlabel'⟩
        · rw [hname.valid_token] at hrename
          cases hrename.1
    · rw [merge_of_ne hub]
      rcases hs.name u with hname | hname
      · exact Or.inl hname
      · exact Or.inr (hname.mono hmono)

theorem coalesceStep_named (h : coalesceStep isValid multiPredBlocks s = some s')
    (hs : Named isValid impl s) : Named isValid impl s' := by
  rcases coalesceStep_cases h with ⟨b, rest, hstack, hcases⟩
  have hb : b ∈ impl.blocks := hs.stack b (hstack ▸ List.mem_cons_self)
  have hrest : forall v, v ∈ rest -> v ∈ impl.blocks :=
    fun v hv => hs.stack v (hstack ▸ List.mem_cons_of_mem b hv)
  rcases hcases with rfl | rfl | ⟨succ, hsucc, rfl⟩
  · exact ⟨hrest, hs.removed, hs.transfer, hs.name⟩
  · refine ⟨?_, hs.removed, hs.transfer, hs.name⟩
    intro v hv
    rcases List.mem_append.mp hv with hv | hv
    · exact hs.targets_mem hb (List.mem_reverse.mp hv)
    · exact hrest v hv
  · rw [← hstack]
    exact hs.merge hb hsucc

omit [DecidableEq BlockId] in
theorem named_initial : Named isValid impl
    { heap := impl.heap
      dfsStack := [impl.first]
      visitedBlocks := ∅
      removedBlocks := ∅ } := by
  refine ⟨?_, by simp, fun u hu => ⟨u, hu, rfl⟩, fun u => Or.inl ⟨rfl, rfl⟩⟩
  intro v hv
  rw [List.mem_singleton.mp hv]
  exact List.mem_cons_self

theorem Named.labelsKept (hs : Named isValid impl s)
    (hagree : LabelsAgree impl.heap impl.blocks) :
    LabelsKept isValid impl.heap s.heap
      (fun r => r ∈ impl.blocks ∧ r ∉ newBlocks impl s) (newBlocks impl s) := by
  intro b hb names targets hgoto
  rcases hs.transfer b (List.mem_filter.mp hb).1 with ⟨r, hr, hsame⟩
  rw [hsame] at hgoto
  rw [hagree r hr names targets hgoto, List.forall₂_map_left_iff, List.forall₂_same]
  intro t _
  rcases hs.name t with ⟨_, hlabel⟩ | hname
  · exact Or.inl hlabel.symm
  · refine Or.inr (hname.mono ?_)
    intro u hu
    refine ⟨hs.removed u hu, ?_⟩
    intro hnew
    exact (of_decide_eq_true (List.mem_filter.mp hnew).2).2 hu

end Names

end BlockCoalescer
end Boogie
