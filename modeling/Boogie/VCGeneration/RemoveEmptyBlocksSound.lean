import Boogie.Foundation.TopologicalSort
import Boogie.Foundation.Traversal
import Boogie.VCGeneration.RemoveEmptyBlocks

/-!
# Removing empty blocks is sound

A goto to an empty block and the gotos to its targets can go wrong in the same
states.  While a block is removed its predecessors miss it, and everything else
that is added to a goto was reached from there before.
-/

namespace Boogie

namespace VCGen

namespace RemoveEmptyBlocks

open BlockCoalescer (Heap TransferCmd successors)

/-!
# Acyclic passive programs
-/

def isPassive : Cmd -> Bool
  | .assertCmd _ => true
  | .assumeCmd _ => true
  | _ => false

structure PassiveDag (Token : Type) extends
    BlockCoalescer.Implementation Nat String Token Cmd where
  predecessors : Nat -> List Nat
  passive : forall b, b ∈ first :: others -> forall c, c ∈ (heap b).cmds ->
    isPassive c = true
  mem_predecessors : forall b, b ∈ first :: others -> forall p,
    p ∈ predecessors b <-> p ∈ first :: others ∧ b ∈ successors heap p
  acyclic : forall b, ¬ Relation.TransGen
    (fun x y => x ∈ first :: others ∧ y ∈ successors heap x) b b

variable {Token : Type}

def toBlock (heap : Heap Nat String Token Cmd) (b : Nat) : Block where
  uniqueId := b
  label := (heap b).label
  cmds := (heap b).cmds
  transferCmd :=
    match (heap b).transferCmd with
    | some (.gotoCmd _ (some labelTargets)) => .gotoCmd labelTargets
    | _ => .returnCmd

theorem labelTargets_toBlock (heap : Heap Nat String Token Cmd) (b : Nat) :
    (toBlock heap b).labelTargets = successors heap b := by
  unfold Block.labelTargets toBlock successors
  rcases (heap b).transferCmd with _ | ⟨_ | ⟨labelNames, _ | targets⟩⟩
  · rfl
  · rfl
  · rfl
  · rfl

namespace PassiveDag

def blocks (D : PassiveDag Token) : List Nat :=
  D.first :: D.others

def Jump (D : PassiveDag Token) (x y : Nat) : Prop :=
  x ∈ D.blocks ∧ y ∈ successors D.heap x

def program (D : PassiveDag Token) (heap : Heap Nat String Token Cmd) :
    List Block :=
  D.blocks.map (toBlock heap)

end PassiveDag

section Removal

variable {D : PassiveDag Token} {heap : Heap Nat String Token Cmd}
  {b p t : Nat}

theorem Jump.mem (h : D.Jump p t) : t ∈ D.blocks :=
  D.targets_mem p h.1 h.2

theorem not_mem_predecessors (hb : b ∈ D.blocks) : b ∉ D.predecessors b := by
  intro hmem
  exact D.acyclic b (Relation.TransGen.single
    ((D.mem_predecessors b hb b).mp hmem))

/-!
# Missing targets
-/

/-- A set of blocks to which an empty block belongs if one of its targets does. -/
def Respects (D : PassiveDag Token) (W : Nat -> Prop) : Prop :=
  forall b, b ∈ D.blocks -> (D.heap b).cmds = [] ->
    (W b <-> exists t, t ∈ successors D.heap b ∧ W t)

def HasGoto (heap : Heap Nat String Token Cmd) (p : Nat) : Prop :=
  exists labelNames labelTargets,
    (heap p).transferCmd = some (.gotoCmd labelNames (some labelTargets))

structure Redirected (D : PassiveDag Token) (missing : Nat -> Nat -> Prop)
    (heap : Heap Nat String Token Cmd) : Prop where
  cmds : forall b, (heap b).cmds = (D.heap b).cmds
  gotos : forall b, HasGoto D.heap b -> HasGoto heap b
  targets : forall p, p ∈ D.blocks -> forall t, t ∈ successors heap p ->
    Relation.TransGen D.Jump p t
  same : forall W, Respects D W -> forall p, p ∈ D.blocks ->
    ((exists t, (t ∈ successors heap p ∨ missing p t) ∧ W t) <->
      exists t, t ∈ successors D.heap p ∧ W t)

def Complete (D : PassiveDag Token) (heap : Heap Nat String Token Cmd) : Prop :=
  Redirected D (fun _ _ => False) heap

theorem complete_refl (D : PassiveDag Token) : Complete D D.heap where
  cmds := fun b => rfl
  gotos := fun b h => h
  targets := fun p hp t ht => Relation.TransGen.single ⟨hp, ht⟩
  same := by
    intro W _ p _
    simp

theorem hasGoto_of_mem_successors (h : t ∈ successors heap p) :
    HasGoto heap p := by
  unfold successors at h
  rcases htransfer : (heap p).transferCmd with
    _ | ⟨_ | ⟨labelNames, _ | targets⟩⟩
  · rw [htransfer] at h
    cases h
  · rw [htransfer] at h
    cases h
  · rw [htransfer] at h
    cases h
  · exact ⟨labelNames, targets, htransfer⟩

theorem successors_setGoto (goto : List String × List Nat) (x : Nat) :
    successors (setGoto heap p goto) x = if x = p then goto.2 else successors heap x := by
  unfold successors setGoto
  by_cases hx : x = p
  · rw [if_pos hx, hx, Function.update_self]
    rfl
  · rw [if_neg hx, Function.update_of_ne hx]

theorem cmds_setGoto (goto : List String × List Nat) (x : Nat) :
    (setGoto heap p goto x).cmds = (heap x).cmds := by
  unfold setGoto
  by_cases hx : x = p
  · rw [hx, Function.update_self]
  · rw [Function.update_of_ne hx]

theorem HasGoto.setGoto (goto : List String × List Nat) {x : Nat}
    (h : HasGoto heap x) : HasGoto (setGoto heap p goto) x := by
  unfold HasGoto RemoveEmptyBlocks.setGoto
  by_cases hx : x = p
  · rw [hx, Function.update_self]
    exact ⟨_, _, rfl⟩
  · rw [Function.update_of_ne hx]
    exact h

theorem Redirected.setGoto {missing : Nat -> Nat -> Prop} (h : Redirected D missing heap)
    (goto : List String × List Nat)
    (hkeeps : forall t, t ∈ successors heap p -> t ∈ goto.2 ∨ missing p t)
    (htargets : forall t, t ∈ goto.2 -> Relation.TransGen D.Jump p t)
    (hnew : forall W, Respects D W -> forall t, t ∈ goto.2 -> W t ->
      exists t, (t ∈ successors heap p ∨ missing p t) ∧ W t) :
    Redirected D missing (setGoto heap p goto) where
  cmds := by
    intro x
    rw [cmds_setGoto, h.cmds]
  gotos := fun x hx => (h.gotos x hx).setGoto goto
  targets := by
    intro x hx t ht
    rw [successors_setGoto] at ht
    by_cases heq : x = p
    · rw [if_pos heq] at ht
      rw [heq]
      exact htargets t ht
    · rw [if_neg heq] at ht
      exact h.targets x hx t ht
  same := by
    intro W hW x hx
    rw [← h.same W hW x hx, successors_setGoto]
    by_cases heq : x = p
    · rw [if_pos heq, heq]
      constructor
      · intro ⟨t, ht, hWt⟩
        rcases ht with ht | ht
        · exact hnew W hW t ht hWt
        · exact ⟨t, Or.inr ht, hWt⟩
      · intro ⟨t, ht, hWt⟩
        rcases ht with ht | ht
        · exact ⟨t, hkeeps t ht, hWt⟩
        · exact ⟨t, Or.inr ht, hWt⟩
    · rw [if_neg heq]

theorem changeGoto_eq (change : List String × List Nat -> List String × List Nat)
    (h : HasGoto heap p) : exists labelNames, changeGoto change heap p =
        some (setGoto heap p (change (labelNames, successors heap p))) := by
  rcases h with ⟨labelNames, labelTargets, htransfer⟩
  exists labelNames
  unfold changeGoto successors
  rw [htransfer]
  rfl

theorem exists_foldlM_changeGoto {P : Heap Nat String Token Cmd -> Prop}
    (change : List String × List Nat -> List String × List Nat) (ps : List Nat)
    (hgoto : forall heap, P heap -> forall p, p ∈ ps -> HasGoto heap p)
    (hstep : forall heap p labelNames, P heap -> p ∈ ps ->
      P (setGoto heap p (change (labelNames, successors heap p))))
    (heap : Heap Nat String Token Cmd) (h : P heap) :
    exists heap', ps.foldlM (changeGoto change) heap = some heap' ∧ P heap' := by
  apply Traversal.exists_foldlM _ h
  intro heap p hp h
  rcases changeGoto_eq change (hgoto heap h p hp) with ⟨labelNames, hrun⟩
  exact ⟨_, hrun, hstep heap p labelNames h hp⟩

/-!
# The parts of a removal
-/

def Misses (D : PassiveDag Token) (b p t : Nat) : Prop :=
  p ∈ D.predecessors b ∧ t = b

theorem hasGoto_of_mem_predecessors {missing : Nat -> Nat -> Prop}
    (h : Redirected D missing heap) (hb : b ∈ D.blocks)
    (hp : p ∈ D.predecessors b) : HasGoto heap p :=
  h.gotos p (hasGoto_of_mem_successors ((D.mem_predecessors b hb p).mp hp).2)

theorem Complete.misses (h : Complete D heap) (hb : b ∈ D.blocks) :
    Redirected D (Misses D b) heap where
  cmds := h.cmds
  gotos := h.gotos
  targets := h.targets
  same := by
    intro W hW p hp
    rw [← h.same W hW p hp]
    constructor
    · intro ⟨t, ht, hWt⟩
      rcases ht with ht | ⟨hp, heq⟩
      · exact ⟨t, Or.inl ht, hWt⟩
      · apply (h.same W hW p _).mpr
        · exists b
          constructor
          · exact ((D.mem_predecessors b hb p).mp hp).2
          · exact heq ▸ hWt
        · assumption
    · intro ⟨t, ht, hWt⟩
      rcases ht with ht | hfalse
      · exact ⟨t, Or.inl ht, hWt⟩
      · exact hfalse.elim

theorem exists_removeTarget (h : Complete D heap) (hb : b ∈ D.blocks) (label : String) :
    exists heap', (D.predecessors b).foldlM (changeGoto (removeTarget b label)) heap = some heap' ∧
      Redirected D (Misses D b) heap' ∧ successors heap' b = successors heap b := by
  apply exists_foldlM_changeGoto (removeTarget b label) (D.predecessors b)
    (P := fun heap' => Redirected D (Misses D b) heap' ∧
      successors heap' b = successors heap b)
  · intro heap' h' p hp
    exact hasGoto_of_mem_predecessors h'.1 hb hp
  · intro heap' p labelNames h' hp
    constructor
    · apply h'.1.setGoto
      · intro t ht
        by_cases heq : t = b
        · exact Or.inr ⟨hp, heq⟩
        · exact Or.inl ((List.mem_erase_of_ne heq).mpr ht)
      · intro t ht
        exact h'.1.targets p ((D.mem_predecessors b hb p).mp hp).1 t
          (List.mem_of_mem_erase ht)
      · intro W _ t ht hWt
        exact ⟨t, Or.inl (List.mem_of_mem_erase ht), hWt⟩
    · rw [successors_setGoto, if_neg, h'.2]
      intro heq
      exact not_mem_predecessors hb (heq ▸ hp)
  · exact ⟨h.misses hb, rfl⟩

theorem Redirected.rename {missing : Nat -> Nat -> Prop}
    (h : Redirected D missing heap) (x : Nat) (tok : Token) (label : String) :
    Redirected D missing (Function.update heap x
      { heap x with tok := tok, label := label }) := by
  have hcmds : forall y, (Function.update heap x
      { heap x with tok := tok, label := label } y).cmds = (heap y).cmds := by
    intro y
    by_cases hy : y = x
    · rw [hy, Function.update_self]
    · rw [Function.update_of_ne hy]
  have htransfer : forall y, (Function.update heap x
      { heap x with tok := tok, label := label } y).transferCmd =
        (heap y).transferCmd := by
    intro y
    by_cases hy : y = x
    · rw [hy, Function.update_self]
    · rw [Function.update_of_ne hy]
  have hsuccessors : forall y, successors (Function.update heap x
      { heap x with tok := tok, label := label }) y = successors heap y := by
    intro y
    unfold successors
    rw [htransfer]
  constructor
  · intro y
    rw [hcmds, h.cmds]
  · intro y hy
    unfold HasGoto
    rw [htransfer]
    exact h.gotos y hy
  · intro p hp t ht
    rw [hsuccessors] at ht
    exact h.targets p hp t ht
  · intro W hW p hp
    rw [hsuccessors]
    exact h.same W hW p hp

theorem successors_rename (x : Nat) (tok : Token) (label : String) (y : Nat) :
    successors (Function.update heap x
      { heap x with tok := tok, label := label }) y = successors heap y := by
  unfold successors
  by_cases hy : y = x
  · rw [hy, Function.update_self]
  · rw [Function.update_of_ne hy]

theorem exists_moveTarget {missing : Nat -> Nat -> Prop} {s : Nat}
    (h : Redirected D missing heap) (hs : s ∈ D.blocks) (label newLabel : String) :
    exists heap', ((D.predecessors s).filter (fun p => p ≠ b)).foldlM
        (changeGoto (moveTarget s label newLabel)) heap = some heap' ∧ Redirected D missing heap' ∧
      successors heap' b = successors heap b := by
  apply exists_foldlM_changeGoto (moveTarget s label newLabel) _
    (P := fun heap' => Redirected D missing heap' ∧
      successors heap' b = successors heap b)
  · intro heap' h' p hp
    exact hasGoto_of_mem_predecessors h'.1 hs (List.mem_filter.mp hp).1
  · intro heap' p labelNames h' hp
    have hpred := (D.mem_predecessors s hs p).mp (List.mem_filter.mp hp).1
    have hmem : forall t, t ∈ (moveTarget s label newLabel
        (labelNames, successors heap' p)).2 <->
          t ∈ (successors heap' p).erase s ∨ t = s := by
      intro t
      rw [← List.mem_singleton]
      exact List.mem_append
    constructor
    · apply h'.1.setGoto
      · intro t ht
        left
        rw [hmem]
        by_cases heq : t = s
        · exact Or.inr heq
        · exact Or.inl ((List.mem_erase_of_ne heq).mpr ht)
      · intro t ht
        rcases (hmem t).mp ht with ht | heq
        · exact h'.1.targets p hpred.1 t (List.mem_of_mem_erase ht)
        · rw [heq]
          exact Relation.TransGen.single hpred
      · intro W hW t ht hWt
        rcases (hmem t).mp ht with ht | heq
        · exact ⟨t, Or.inl (List.mem_of_mem_erase ht), hWt⟩
        · apply (h'.1.same W hW p hpred.1).mpr
          exact ⟨s, hpred.2, heq ▸ hWt⟩
    · rw [successors_setGoto, if_neg, h'.2]
      intro heq
      simp [heq] at hp
  · exact ⟨h, rfl⟩

theorem exists_pushToken {missing : Nat -> Nat -> Prop}
    (isValid : Token -> Bool) (startInfo : Option Nat)
    (h : Redirected D missing heap) (hb : b ∈ D.blocks) :
    exists heap', pushToken isValid D.predecessors startInfo heap b
        (successors heap b) = some heap' ∧ Redirected D missing heap' ∧
      successors heap' b = successors heap b := by
  unfold pushToken
  split
  · rename_i s hsingle
    have hs : s ∈ D.blocks := by
      have hmem : s ∈ successors heap b := by
        rw [hsingle]
        exact List.mem_cons_self
      rcases Relation.TransGen.tail'_iff.mp (h.targets b hb s hmem) with
        ⟨_, _, hjump⟩
      exact Jump.mem hjump
    by_cases hpush : isValid (heap b).tok = true ∧ some b ≠ startInfo ∧
        isValid (heap s).tok = false
    · rw [if_pos hpush]
      rcases exists_moveTarget (b := b) h hs (heap s).label (heap b).label with
        ⟨heap', hrun, h', hsame⟩
      rw [hrun]
      dsimp only
      apply Exists.intro
      constructor
      · rfl
      · constructor
        · exact h'.rename s _ _
        · rw [successors_rename, hsame, hsingle]
    · rw [if_neg hpush]
      exact ⟨heap, rfl, h, rfl⟩
  · exact ⟨heap, rfl, h, rfl⟩

theorem mem_foldl_addTarget (ss : List (Nat × String)) (goto : List String × List Nat) :
    t ∈ (ss.foldl addTarget goto).2 <-> t ∈ goto.2 ∨ t ∈ ss.map Prod.fst := by
  induction ss generalizing goto with
  | nil => simp
  | cons s ss ih =>
    have hfirst : t ∈ (addTarget goto s).2 <-> t ∈ goto.2 ∨ t = s.1 := by
      unfold addTarget
      by_cases hs : s.1 ∈ goto.2
      · rw [if_pos hs]
        constructor
        · exact Or.inl
        · intro ht
          rcases ht with ht | heq
          · exact ht
          · exact heq ▸ hs
      · rw [if_neg hs, List.mem_append, List.mem_singleton]
    rw [List.foldl_cons, ih, hfirst, List.map_cons, List.mem_cons, or_assoc]

theorem exists_of_changeGoto
    {change : List String × List Nat -> List String × List Nat}
    {heap' : Heap Nat String Token Cmd} (h : changeGoto change heap p = some heap') : exists goto,
      heap' = setGoto heap p (change goto) := by
  unfold changeGoto at h
  split at h
  · exact ⟨_, (Option.some.inj h).symm⟩
  · cases h

theorem foldlM_changeGoto_all {Q : List Nat -> Prop}
    {change : List String × List Nat -> List String × List Nat}
    (hchange : forall goto, Q (change goto).2) {ps : List Nat}
    {heap' : Heap Nat String Token Cmd}
    (hrun : ps.foldlM (changeGoto change) heap = some heap') {x : Nat}
    (hx : x ∈ ps ∨ Q (successors heap x)) : Q (successors heap' x) := by
  induction ps generalizing heap with
  | nil =>
    cases hrun
    exact hx.resolve_left List.not_mem_nil
  | cons p ps ih =>
    rw [List.foldlM_cons] at hrun
    rcases Option.bind_eq_some_iff.mp hrun with ⟨heap₁, hfirst, hrest⟩
    rcases exists_of_changeGoto hfirst with ⟨goto, heq⟩
    apply ih hrest
    rw [heq, successors_setGoto]
    by_cases hxp : x = p
    · rw [if_pos hxp]
      exact Or.inr (hchange goto)
    · rw [if_neg hxp]
      rcases hx with hx | hx
      · exact Or.inl ((List.mem_cons.mp hx).resolve_left hxp)
      · exact Or.inr hx

theorem exists_addTargets (h : Redirected D (Misses D b) heap)
    (hb : b ∈ D.blocks) (hempty : (D.heap b).cmds = []) (label : Nat -> String) :
    exists heap', (D.predecessors b).foldlM (changeGoto (fun goto =>
          ((successors heap b).map (fun s => (s, label s))).foldl addTarget
            goto)) heap = some heap' ∧ Complete D heap' := by
  have hmem : forall goto t,
      t ∈ (((successors heap b).map (fun s => (s, label s))).foldl addTarget
        goto).2 <-> t ∈ goto.2 ∨ t ∈ successors heap b := by
    intro goto t
    rw [mem_foldl_addTarget, List.map_map]
    simp [Function.comp_def]
  -- The block itself leads where it led before all the time.
  have hself : forall W, Respects D W -> forall t, t ∈ successors heap b ->
      W t -> W b := by
    intro W hW t ht hWt
    rw [hW b hb hempty, ← h.same W hW b hb]
    exact ⟨t, Or.inl ht, hWt⟩
  have hkept : exists heap', (D.predecessors b).foldlM
      (changeGoto (fun goto =>
        ((successors heap b).map (fun s => (s, label s))).foldl addTarget
          goto)) heap = some heap' ∧
      Redirected D (Misses D b) heap' := by
    apply exists_foldlM_changeGoto _ _ (P := Redirected D (Misses D b))
    · intro heap' h' p hp
      exact hasGoto_of_mem_predecessors h' hb hp
    · intro heap' p labelNames h' hp
      have hpred := (D.mem_predecessors b hb p).mp hp
      apply h'.setGoto
      · intro t ht
        exact Or.inl ((hmem _ t).mpr (Or.inl ht))
      · intro t ht
        rcases (hmem _ t).mp ht with ht | ht
        · exact h'.targets p hpred.1 t ht
        · exact Relation.TransGen.head hpred (h.targets b hb t ht)
      · intro W hW t ht hWt
        rcases (hmem _ t).mp ht with ht | ht
        · exact ⟨t, Or.inl ht, hWt⟩
        · apply (h'.same W hW p hpred.1).mpr
          exact ⟨b, hpred.2, hself W hW t ht hWt⟩
    · exact h
  rcases hkept with ⟨heap', hrun, h'⟩
  exists heap'
  constructor
  · exact hrun
  · have hall : forall p, p ∈ D.predecessors b -> forall t,
        t ∈ successors heap b -> t ∈ successors heap' p := by
      intro p hp
      apply foldlM_changeGoto_all (Q := fun targets => forall t,
        t ∈ successors heap b -> t ∈ targets) _ hrun (Or.inl hp)
      intro goto t ht
      exact (hmem goto t).mpr (Or.inr ht)
    constructor
    · exact h'.cmds
    · exact h'.gotos
    · exact h'.targets
    · intro W hW p hp
      rw [← h'.same W hW p hp]
      constructor
      · intro ⟨t, ht, hWt⟩
        exact ⟨t, ht.imp_right False.elim, hWt⟩
      · intro ⟨t, ht, hWt⟩
        rcases ht with ht | ⟨hpred, heq⟩
        · exact ⟨t, Or.inl ht, hWt⟩
        · rw [heq, hW b hb hempty, ← h.same W hW b hb] at hWt
          rcases hWt with ⟨s, hs, hWs⟩
          rcases hs with hs | ⟨hcycle, _⟩
          · exact ⟨s, Or.inl (hall p hpred s hs), hWs⟩
          · exact absurd hcycle (not_mem_predecessors hb)

theorem Redirected.complete_of_nil (h : Redirected D (Misses D b) heap)
    (hb : b ∈ D.blocks) (hempty : (D.heap b).cmds = [])
    (hnil : successors heap b = []) : Complete D heap where
  cmds := h.cmds
  gotos := h.gotos
  targets := h.targets
  same := by
    intro W hW p hp
    rw [← h.same W hW p hp]
    constructor
    · intro ⟨t, ht, hWt⟩
      exact ⟨t, ht.imp_right False.elim, hWt⟩
    · intro ⟨t, ht, hWt⟩
      rcases ht with ht | ⟨_, heq⟩
      · exact ⟨t, Or.inl ht, hWt⟩
      · rw [heq, hW b hb hempty, ← h.same W hW b hb, hnil] at hWt
        rcases hWt with ⟨s, hs, _⟩
        rcases hs with hs | ⟨hcycle, _⟩
        · cases hs
        · exact absurd hcycle (not_mem_predecessors hb)

theorem exists_removeBlock (isValid : Token -> Bool) (keep : List Nat)
    (startInfo : Option Nat) (h : Complete D heap) (hb : b ∈ D.blocks) :
    exists heap', removeBlock isValid D.predecessors keep startInfo heap b =
        some heap' ∧ Complete D heap' := by
  unfold removeBlock
  by_cases hkeep : b ∈ keep ∨ (heap b).cmds ≠ []
  · rw [if_pos hkeep]
    exact ⟨heap, rfl, h⟩
  · rw [if_neg hkeep]
    rw [not_or, not_not, h.cmds] at hkeep
    rcases exists_removeTarget h hb (heap b).label with
      ⟨heap₁, hremove, h₁, _⟩
    rw [hremove]
    dsimp only
    split
    · rename_i hnil
      exact ⟨heap₁, rfl, h₁.complete_of_nil hb hkeep.2 hnil⟩
    · rcases exists_pushToken isValid startInfo h₁ hb with
        ⟨heap₂, hpush, h₂, hsame⟩
      rw [hpush]
      dsimp only
      rw [← hsame]
      exact exists_addTargets h₂ hb hkeep.2 (fun s => (heap₂ s).label)

theorem exists_foldlM_removeBlock (isValid : Token -> Bool) (keep : List Nat)
    (startInfo : Option Nat) (bs : List Nat)
    (hbs : forall b, b ∈ bs -> b ∈ D.blocks) (h : Complete D heap) :
    exists heap', bs.foldlM (removeBlock isValid D.predecessors keep startInfo) heap = some heap' ∧
      Complete D heap' := by
  apply Traversal.exists_foldlM _ h
  intro heap b hb h
  exact exists_removeBlock isValid keep startInfo h (hbs b hb)

theorem Complete.renameStart (isValid : Token -> Bool) (startBlock : Nat)
    (startInfo : Option Nat) (h : Complete D heap) :
    Complete D (renameStart isValid startBlock startInfo heap) := by
  unfold RemoveEmptyBlocks.renameStart
  split
  · split
    · exact h
    · exact h.rename startBlock _ _
  · exact h

end Removal

/-!
# Executions
-/

section Executions

variable {D : PassiveDag Token} {heap : Heap Nat String Token Cmd} {b : Nat}
  {U : Type} [DecidableEq U] {C : Context U} {ρ ρ' : Env U}

theorem mem_program {block : Block} : block ∈ D.program heap <->
    exists b, b ∈ D.blocks ∧ toBlock heap b = block :=
  List.mem_map

theorem Wrong.cases_toBlock (h : Wrong C (D.program heap) b ρ) :
    b ∈ D.blocks ∧ (CmdsFail C (heap b).cmds ρ ∨
      exists t ρ', CmdsRun C (heap b).cmds ρ ρ' ∧ t ∈ successors heap b ∧
        Wrong C (D.program heap) t ρ') := by
  rcases h.cases_block with ⟨block, hblock, hid, hcases⟩
  rcases mem_program.mp hblock with ⟨b', hb', heq⟩
  rw [← heq] at hid hcases
  have hsame : b' = b := hid
  rw [hsame] at hcases hb'
  rw [labelTargets_toBlock] at hcases
  exact ⟨hb', hcases⟩

theorem Wrong.ofCmds (hb : b ∈ D.blocks)
    (hfail : CmdsFail C (heap b).cmds ρ) : Wrong C (D.program heap) b ρ :=
  Boogie.Wrong.cmds (mem_program.mpr ⟨b, hb, rfl⟩) hfail

theorem Wrong.ofJump {t : Nat} (hb : b ∈ D.blocks)
    (hrun : CmdsRun C (heap b).cmds ρ ρ') (ht : t ∈ successors heap b)
    (h : Wrong C (D.program heap) t ρ') : Wrong C (D.program heap) b ρ := by
  rw [← labelTargets_toBlock] at ht
  exact Boogie.Wrong.jump (mem_program.mpr ⟨b, hb, rfl⟩) hrun ht h

theorem respects_wrong (ρ : Env U) :
    Respects D (fun b => Wrong C (D.program D.heap) b ρ) := by
  intro b hb hempty
  constructor
  · intro h
    rcases (Wrong.cases_toBlock h).2 with hfail | ⟨t, ρ', hrun, ht, hrest⟩
    · rw [hempty] at hfail
      cases hfail
    · rw [hempty] at hrun
      cases hrun
      exact ⟨t, ht, hrest⟩
  · intro ⟨t, ht, hrest⟩
    apply Wrong.ofJump hb _ ht hrest
    rw [hempty]
    exact CmdsRun.nil ρ

theorem wellFounded_jump (D : PassiveDag Token) :
    WellFounded (fun y x => D.Jump x y) := by
  have hdomain : forall y x, D.Jump x y -> y ∈ D.blocks :=
    fun _ _ h => Jump.mem h
  apply TopologicalSort.wellFounded_of_acyclic hdomain
  intro x h
  exact D.acyclic x (Relation.transGen_swap.mp h)

theorem Complete.wrong_iff (h : Complete D heap) :
    Wrong C (D.program heap) b ρ <-> Wrong C (D.program D.heap) b ρ := by
  have hsame : forall p ρ, p ∈ D.blocks ->
      ((exists t, t ∈ successors heap p ∧ Wrong C (D.program D.heap) t ρ) <->
        exists t, t ∈ successors D.heap p ∧
          Wrong C (D.program D.heap) t ρ) := by
    intro p ρ hp
    have hiff := h.same (fun t => Wrong C (D.program D.heap) t ρ)
      (respects_wrong ρ) p hp
    simpa only [or_false] using hiff
  constructor
  · intro hwrong
    generalize hprogram : D.program heap = blocks at hwrong
    induction hwrong with
    | cmds hb hfail =>
      rw [← hprogram] at hb
      rcases mem_program.mp hb with ⟨b, hb, heq⟩
      rw [← heq] at hfail ⊢
      apply Wrong.ofCmds hb
      rw [← h.cmds b]
      exact hfail
    | jump hb hrun ht _ ih =>
      rw [← hprogram] at hb
      rcases mem_program.mp hb with ⟨b, hb, heq⟩
      rw [← heq] at hrun ht ⊢
      rw [labelTargets_toBlock] at ht
      rcases (hsame b _ hb).mp ⟨_, ht, ih⟩ with ⟨t, ht, hrest⟩
      apply Wrong.ofJump hb _ ht hrest
      rw [← h.cmds b]
      exact hrun
  · intro hwrong
    -- The new gotos lead downwards in the old order.
    have hwf := (wellFounded_jump D).transGen
    induction b using hwf.induction generalizing ρ with
    | _ b ih =>
      rcases Wrong.cases_toBlock hwrong with
        ⟨hb, hfail | ⟨t, ρ', hrun, ht, hrest⟩⟩
      · apply Wrong.ofCmds hb
        rw [h.cmds]
        exact hfail
      · rcases (hsame b ρ' hb).mpr ⟨t, ht, hrest⟩ with ⟨s, hs, hrest⟩
        apply Wrong.ofJump hb _ hs
        · apply ih s _ hrest
          exact Relation.transGen_swap.mp (h.targets b hb s hs)
        · rw [h.cmds]
          exact hrun

theorem Complete.safe_iff (h : Complete D heap) :
    Safe C (D.program heap) b ρ <-> Safe C (D.program D.heap) b ρ :=
  not_congr h.wrong_iff

end Executions

end RemoveEmptyBlocks

end VCGen

end Boogie
