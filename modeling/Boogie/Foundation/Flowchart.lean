import Mathlib.Logic.Function.Basic
import Boogie.Foundation.Executions

/-!
# Flowcharts

A block has commands, the blocks that may follow it, and an exit where none does.
The executions of a flowchart stay the same when a block is fused with its only
successor, provided that nothing else leads there.
-/

@[ext] structure Flowchart (Id Cmd Exit : Type) where
  cmds : Id -> List Cmd
  next : Id -> List Id
  exit : Id -> Exit

namespace Flowchart

variable {Id Cmd Exit : Type}

abbrev Config (Id Cmd : Type) :=
  List Cmd × Id

inductive Step (F : Flowchart Id Cmd Exit) :
    Config Id Cmd -> Option Cmd -> Config Id Cmd -> Prop where
  | cmd (c : Cmd) (rest : List Cmd) (b : Id) : Step F (c :: rest, b) (some c) (rest, b)
  | goto {b target : Id} (h : target ∈ F.next b) :
      Step F ([], b) none (F.cmds target, target)

def Final (F : Flowchart Id Cmd Exit) (c : Config Id Cmd) (e : Exit) : Prop :=
  c.1 = [] ∧ F.next c.2 = [] ∧ F.exit c.2 = e

def system (F : Flowchart Id Cmd Exit) : Executions.System (Config Id Cmd) Cmd Exit where
  step := Step F
  final := Final F

def sequences (F : Flowchart Id Cmd Exit) (b : Id) : Set (Executions.Behaviour Cmd Exit) :=
  Executions.behaviours F.system (F.cmds b, b)

/-!
# Flowcharts that agree
-/

section Agree

variable {F F' : Flowchart Id Cmd Exit} {alive : Id -> Prop}

/-- The same blocks, up to the order and the repetition of what follows them. -/
structure Agree (F F' : Flowchart Id Cmd Exit) (alive : Id -> Prop) : Prop where
  cmds : forall x, alive x -> F.cmds x = F'.cmds x
  next : forall x, alive x -> forall t, t ∈ F.next x <-> t ∈ F'.next x
  exit : forall x, alive x -> F.exit x = F'.exit x
  closed : forall x, alive x -> forall t, t ∈ F.next x -> alive t

theorem Agree.symm (h : Agree F F' alive) : Agree F' F alive where
  cmds := fun x hx => (h.cmds x hx).symm
  next := fun x hx t => (h.next x hx t).symm
  exit := fun x hx => (h.exit x hx).symm
  closed := fun x hx t ht => h.closed x hx t ((h.next x hx t).mpr ht)

theorem Agree.simulates (h : Agree F F' alive) :
    Executions.Simulates F.system F'.system (fun c c' => c = c' ∧ alive c.2) (fun _ => 0) where
  step := by
    rintro c c' o d ⟨rfl, halive⟩ hstep
    left
    cases hstep with
    | cmd a rest b => exact ⟨_, Executions.Advances.single (Step.cmd a rest b), rfl, halive⟩
    | goto ht =>
      rename_i b t
      have halive' := h.closed b halive t ht
      rw [h.cmds t halive']
      exact ⟨_, Executions.Advances.single (Step.goto ((h.next b halive t).mp ht)), rfl,
        halive'⟩
  final := by
    rintro c c' e ⟨rfl, halive⟩ ⟨hrest, hnext, hexit⟩
    refine ⟨c, Executions.Runs.refl c, hrest, ?_, ?_⟩
    · rw [List.eq_nil_iff_forall_not_mem]
      intro t ht
      have hmem := (h.next c.2 halive t).mpr ht
      rw [hnext] at hmem
      cases hmem
    · rw [← h.exit c.2 halive]
      exact hexit

theorem Agree.sequences_subset (h : Agree F F' alive) {x : Id} (hx : alive x) :
    F.sequences x ⊆ F'.sequences x := by
  rw [sequences, sequences, ← h.cmds x hx]
  exact h.simulates.behaviours_subset ⟨rfl, hx⟩

theorem Agree.sequences_eq (h : Agree F F' alive) {x : Id} (hx : alive x) :
    F.sequences x = F'.sequences x :=
  Set.Subset.antisymm (h.sequences_subset hx) (h.symm.sequences_subset hx)

end Agree

/-!
# Fusing a block with its successor
-/

variable [DecidableEq Id]

def fuse (F : Flowchart Id Cmd Exit) (b succ : Id) : Flowchart Id Cmd Exit where
  cmds := Function.update F.cmds b (F.cmds b ++ F.cmds succ)
  next := Function.update F.next b (F.next succ)
  exit := Function.update F.exit b (F.exit succ)

/-- The block and its successor are the ends of the only edge between them, among
blocks that edges do not lead out of. -/
structure Fusible (F : Flowchart Id Cmd Exit) (alive : Id -> Prop) (b succ : Id) :
    Prop where
  mem_succ : alive succ
  ne : succ ≠ b
  next : forall t, t ∈ F.next b <-> t = succ
  only : forall x, alive x -> succ ∈ F.next x -> x = b
  closed : forall x, alive x -> forall t, t ∈ F.next x -> alive t

section Fuse

variable {F : Flowchart Id Cmd Exit} {alive : Id -> Prop} {b succ x : Id}

theorem cmds_fuse_self : (F.fuse b succ).cmds b = F.cmds b ++ F.cmds succ :=
  Function.update_self ..

theorem cmds_fuse_of_ne (h : x ≠ b) : (F.fuse b succ).cmds x = F.cmds x :=
  Function.update_of_ne h ..

theorem next_fuse_self : (F.fuse b succ).next b = F.next succ :=
  Function.update_self ..

theorem next_fuse_of_ne (h : x ≠ b) : (F.fuse b succ).next x = F.next x :=
  Function.update_of_ne h ..

theorem exit_fuse_self : (F.fuse b succ).exit b = F.exit succ :=
  Function.update_self ..

theorem exit_fuse_of_ne (h : x ≠ b) : (F.fuse b succ).exit x = F.exit x :=
  Function.update_of_ne h ..

/-- The configurations of the flowchart with fused blocks, and what they stand for. -/
inductive Related (F : Flowchart Id Cmd Exit) (alive : Id -> Prop) (b succ : Id) :
    Config Id Cmd -> Config Id Cmd -> Prop where
  | same {rest : List Cmd} {x : Id} (hx : alive x) (hb : x ≠ b) (hsucc : x ≠ succ) :
      Related F alive b succ (rest, x) (rest, x)
  | before {rest : List Cmd} : Related F alive b succ (rest, b) (rest ++ F.cmds succ, b)
  | inside {rest : List Cmd} : Related F alive b succ (rest, succ) (rest, b)

theorem Related.start (hx : alive x) (hsucc : x ≠ succ) :
    Related F alive b succ (F.cmds x, x) ((F.fuse b succ).cmds x, x) := by
  by_cases hb : x = b
  · subst hb
    rw [cmds_fuse_self]
    exact Related.before
  · rw [cmds_fuse_of_ne hb]
    exact Related.same hx hb hsucc

variable (h : Fusible F alive b succ)

include h

omit [DecidableEq Id] in
theorem Fusible.target_ne {t : Id} (hx : alive x) (hb : x ≠ b) (ht : t ∈ F.next x) :
    t ≠ succ :=
  fun heq => hb (h.only x hx (heq ▸ ht))

omit [DecidableEq Id] in
theorem Fusible.step : Step F (([], b) : Config Id Cmd) none (F.cmds succ, succ) :=
  Step.goto ((h.next succ).mpr rfl)

theorem Fusible.simulates :
    Executions.Simulates F.system (F.fuse b succ).system (Related F alive b succ)
      (fun c => if c.2 = b then 1 else 0) where
  step := by
    intro c c' o d hrel hstep
    cases hrel with
    | same hx hb hsucc =>
      left
      cases hstep with
      | cmd a rest _ =>
        exact ⟨_, Executions.Advances.single (Step.cmd a rest _),
          Related.same hx hb hsucc⟩
      | goto ht =>
        rename_i x t
        have ht' : t ∈ (F.fuse b succ).next x := by rwa [next_fuse_of_ne hb]
        exact ⟨_, Executions.Advances.single (Step.goto ht'),
          Related.start (h.closed x hx t ht) (h.target_ne hx hb ht)⟩
    | before =>
      cases hstep with
      | cmd a rest _ =>
        left
        exact ⟨_, Executions.Advances.single (Step.cmd a _ b), Related.before⟩
      | goto ht =>
        rename_i t
        right
        rw [h.next] at ht
        subst ht
        refine ⟨rfl, Related.inside, ?_⟩
        simp [h.ne]
    | inside =>
      left
      cases hstep with
      | cmd a rest _ =>
        exact ⟨_, Executions.Advances.single (Step.cmd a rest b), Related.inside⟩
      | goto ht =>
        rename_i t
        have ht' : t ∈ (F.fuse b succ).next b := by rwa [next_fuse_self]
        exact ⟨_, Executions.Advances.single (Step.goto ht'),
          Related.start (h.closed succ h.mem_succ t ht)
            (h.target_ne h.mem_succ h.ne ht)⟩
  final := by
    intro c c' e hrel ⟨hrest, hnext, hexit⟩
    cases hrel with
    | same hx hb hsucc =>
      refine ⟨_, Executions.Runs.refl _, hrest, ?_, ?_⟩
      · rw [next_fuse_of_ne hb]
        exact hnext
      · rw [exit_fuse_of_ne hb]
        exact hexit
    | before =>
      have hmem := (h.next succ).mpr rfl
      rw [hnext] at hmem
      cases hmem
    | inside =>
      refine ⟨_, Executions.Runs.refl _, hrest, ?_, ?_⟩
      · rw [next_fuse_self]
        exact hnext
      · rw [exit_fuse_self]
        exact hexit

theorem Fusible.simulated :
    Executions.Simulates (F.fuse b succ).system F.system
      (fun c' c => Related F alive b succ c c') (fun _ => 0) where
  step := by
    intro c' c o d' hrel hstep
    left
    have hback := h.step
    cases hrel with
    | same hx hb hsucc =>
      cases hstep with
      | cmd a rest _ =>
        exact ⟨_, Executions.Advances.single (Step.cmd a rest _),
          Related.same hx hb hsucc⟩
      | goto ht =>
        rename_i x t
        rw [next_fuse_of_ne hb] at ht
        exact ⟨_, Executions.Advances.single (Step.goto ht),
          Related.start (h.closed x hx t ht) (h.target_ne hx hb ht)⟩
    | before =>
      rename_i rest
      cases rest with
      | cons a rest =>
        cases hstep with
        | cmd _ _ _ =>
          exact ⟨_, Executions.Advances.single (Step.cmd a rest b), Related.before⟩
      | nil =>
        rw [List.nil_append] at hstep
        cases hcmds : F.cmds succ with
        | cons a rest =>
          rw [hcmds] at hstep hback
          cases hstep with
          | cmd _ _ _ =>
            have hruns := Executions.Runs.cons (S := F.system) hback
              (Executions.Runs.single (Step.cmd a rest succ))
            exact ⟨_, hruns, Related.inside⟩
        | nil =>
          rw [hcmds] at hstep hback
          cases hstep with
          | goto ht =>
            rename_i t
            rw [next_fuse_self] at ht
            exact ⟨_, ⟨_, hback, Executions.Runs.silent (Step.goto ht)⟩,
              Related.start (h.closed succ h.mem_succ t ht)
                (h.target_ne h.mem_succ h.ne ht)⟩
    | inside =>
      cases hstep with
      | cmd a rest _ =>
        exact ⟨_, Executions.Advances.single (Step.cmd a rest succ), Related.inside⟩
      | goto ht =>
        rename_i t
        rw [next_fuse_self] at ht
        exact ⟨_, Executions.Advances.single (Step.goto ht),
          Related.start (h.closed succ h.mem_succ t ht)
            (h.target_ne h.mem_succ h.ne ht)⟩
  final := by
    intro c' c e hrel ⟨hrest, hnext, hexit⟩
    cases hrel with
    | same hx hb hsucc =>
      rw [next_fuse_of_ne hb] at hnext
      rw [exit_fuse_of_ne hb] at hexit
      exact ⟨_, Executions.Runs.refl _, hrest, hnext, hexit⟩
    | before =>
      rename_i rest
      rcases List.append_eq_nil_iff.mp hrest with ⟨rfl, hcmds⟩
      rw [next_fuse_self] at hnext
      rw [exit_fuse_self] at hexit
      exact ⟨(F.cmds succ, succ), Executions.Runs.silent h.step, hcmds, hnext, hexit⟩
    | inside =>
      rw [next_fuse_self] at hnext
      rw [exit_fuse_self] at hexit
      exact ⟨_, Executions.Runs.refl _, hrest, hnext, hexit⟩

theorem Fusible.sequences_eq (hx : alive x) (hsucc : x ≠ succ) :
    (F.fuse b succ).sequences x = F.sequences x := by
  have hrel : Related F alive b succ (F.cmds x, x) ((F.fuse b succ).cmds x, x) :=
    Related.start hx hsucc
  apply Set.Subset.antisymm
  · exact h.simulated.behaviours_subset hrel
  · exact h.simulates.behaviours_subset hrel

end Fuse

/-!
# Commands that stop an execution
-/

def upTo (stops : Cmd -> Bool) : List Cmd -> List Cmd
  | [] => []
  | c :: cs => if stops c then [c] else c :: upTo stops cs

def stopping (stops : Cmd -> Bool) (stopped : Exit) (F : Flowchart Id Cmd Exit) :
    Flowchart Id Cmd Exit where
  cmds := fun x => upTo stops (F.cmds x)
  next := fun x => if (F.cmds x).any stops then [] else F.next x
  exit := fun x => if (F.cmds x).any stops then stopped else F.exit x

section Stop

variable {stops : Cmd -> Bool} {stopped : Exit} {F : Flowchart Id Cmd Exit}
  {alive : Id -> Prop} {b succ x : Id}

theorem upTo_append_of_any {cs ds : List Cmd} (h : cs.any stops = true) :
    upTo stops (cs ++ ds) = upTo stops cs := by
  induction cs with
  | nil => cases h
  | cons c cs ih =>
    rw [List.cons_append, upTo, upTo]
    split
    next => rfl
    next hc =>
      rw [List.any_cons, Bool.or_eq_true] at h
      rw [ih (h.resolve_left hc)]

theorem upTo_of_not_any {cs : List Cmd} (h : cs.any stops = false) : upTo stops cs = cs := by
  induction cs with
  | nil => rfl
  | cons c cs ih =>
    rw [List.any_cons, Bool.or_eq_false_iff] at h
    rw [upTo, h.left, ih h.right]
    rfl

theorem upTo_append_of_not_any {cs ds : List Cmd} (h : cs.any stops = false) :
    upTo stops (cs ++ ds) = cs ++ upTo stops ds := by
  induction cs with
  | nil => rfl
  | cons c cs ih =>
    rw [List.any_cons, Bool.or_eq_false_iff] at h
    rw [List.cons_append, upTo, h.left, ih h.right]
    rfl

theorem stopping_fuse_of_any (h : (F.cmds b).any stops = true) :
    (F.fuse b succ).stopping stops stopped = F.stopping stops stopped := by
  have hany : (F.cmds b ++ F.cmds succ).any stops = true := by
    rw [List.any_append, h, Bool.true_or]
  ext1 <;> funext x <;> rcases eq_or_ne x b with rfl | hne
  · simp only [stopping, cmds_fuse_self, upTo_append_of_any h]
  · simp only [stopping, cmds_fuse_of_ne hne]
  · simp only [stopping, cmds_fuse_self, hany, h, if_true]
  · simp only [stopping, cmds_fuse_of_ne hne, next_fuse_of_ne hne]
  · simp only [stopping, cmds_fuse_self, hany, h, if_true]
  · simp only [stopping, cmds_fuse_of_ne hne, exit_fuse_of_ne hne]

theorem stopping_fuse_of_not_any (h : (F.cmds b).any stops = false) :
    (F.fuse b succ).stopping stops stopped = (F.stopping stops stopped).fuse b succ := by
  have hany : (F.cmds b ++ F.cmds succ).any stops = (F.cmds succ).any stops := by
    rw [List.any_append, h, Bool.false_or]
  ext1 <;> funext x <;> rcases eq_or_ne x b with rfl | hne
  · rw [cmds_fuse_self]
    simp only [stopping, cmds_fuse_self, upTo_append_of_not_any h, upTo_of_not_any h]
  · rw [cmds_fuse_of_ne hne]
    simp only [stopping, cmds_fuse_of_ne hne]
  · rw [next_fuse_self]
    simp only [stopping, cmds_fuse_self, next_fuse_self, hany]
  · rw [next_fuse_of_ne hne]
    simp only [stopping, cmds_fuse_of_ne hne, next_fuse_of_ne hne]
  · rw [exit_fuse_self]
    simp only [stopping, cmds_fuse_self, exit_fuse_self, hany]
  · rw [exit_fuse_of_ne hne]
    simp only [stopping, cmds_fuse_of_ne hne, exit_fuse_of_ne hne]

omit [DecidableEq Id] in
theorem mem_next_stopping {t : Id} (h : t ∈ (F.stopping stops stopped).next x) :
    t ∈ F.next x := by
  simp only [stopping] at h
  split at h
  next => cases h
  next => exact h

omit [DecidableEq Id] in
theorem agree_stopping {F' : Flowchart Id Cmd Exit}
    (hcmds : forall x, alive x -> F.cmds x = F'.cmds x)
    (hsame : forall x, alive x -> (F.cmds x).any stops = false ->
      F.next x = F'.next x ∧ F.exit x = F'.exit x)
    (hclosed : forall x, alive x -> forall t, t ∈ F.next x -> alive t) :
    Agree (F.stopping stops stopped) (F'.stopping stops stopped) alive where
  cmds := by
    intro x hx
    simp only [stopping, hcmds x hx]
  next := by
    intro x hx t
    simp only [stopping, ← hcmds x hx]
    cases hany : (F.cmds x).any stops with
    | true => exact Iff.rfl
    | false => rw [(hsame x hx hany).left]
  exit := by
    intro x hx
    simp only [stopping, ← hcmds x hx]
    cases hany : (F.cmds x).any stops with
    | true => rfl
    | false => rw [(hsame x hx hany).right]
  closed := fun x hx t ht => hclosed x hx t (mem_next_stopping ht)

theorem Fusible.stopping_sequences_eq (h : Fusible F alive b succ) (hx : alive x)
    (hsucc : x ≠ succ) :
    ((F.fuse b succ).stopping stops stopped).sequences x =
      (F.stopping stops stopped).sequences x := by
  cases hany : (F.cmds b).any stops with
  | true => rw [stopping_fuse_of_any hany]
  | false =>
    have hfusible : Fusible (F.stopping stops stopped) alive b succ := by
      refine ⟨h.mem_succ, h.ne, ?_, ?_, ?_⟩
      · intro t
        simp only [stopping, hany]
        exact h.next t
      · intro y hy hmem
        exact h.only y hy (mem_next_stopping hmem)
      · intro y hy t ht
        exact h.closed y hy t (mem_next_stopping ht)
    rw [stopping_fuse_of_not_any hany]
    exact hfusible.sequences_eq hx hsucc

end Stop

end Flowchart
