import Boogie.VCGeneration.LetVCSound

/-!
# Failing paths in the control-flow encoding

When the formula of a program is false, the control-flow function follows an
execution from block to block and names the assertion it fails at.  The other
way round, the control-flow function of a failing execution, which names no
other command, makes the formula false.
-/

namespace Boogie

open Wlp

/-!
# Failing executions
-/

section Executions

variable {U : Type} [DecidableEq U]

/--
An execution of passive commands in which the assertions hold that are assumed
in what follows them.
-/
structure Passes (C : Context U) (assumed : AssertCmd -> Bool) (ρ : Env U)
    (cs : List Cmd) : Prop where
  run : CmdsRun C cs ρ ρ
  holds : forall ac, .assertCmd ac ∈ cs -> assumed ac = true ->
    C.Holds ρ ac.expr

inductive FailsAt (C : Context U) (assumed : AssertCmd -> Bool)
    (blocks : List Block) (ρ : Env U) (last : Block) (ac : AssertCmd) :
    Nat -> Prop where
  | here {before after : List Cmd} :
      last ∈ blocks -> last.cmds = before ++ .assertCmd ac :: after ->
      Passes C assumed ρ before -> ¬ C.Holds ρ ac.expr ->
      FailsAt C assumed blocks ρ last ac last.uniqueId
  | jump {b : Block} {target : Nat} :
      b ∈ blocks -> Passes C assumed ρ b.cmds -> target ∈ b.labelTargets ->
      FailsAt C assumed blocks ρ last ac target ->
      FailsAt C assumed blocks ρ last ac b.uniqueId

variable {C : Context U} {assumed : AssertCmd -> Bool}
  {o : CommandLineOptions} {ρ : Env U}
  {selects : Int -> Prop} {c : Cmd} {cs before after : List Cmd}
  {ac : AssertCmd} {N : Prop}

theorem Passes.nil : Passes C assumed ρ [] where
  run := CmdsRun.nil ρ
  holds := by
    intro ac hac
    cases hac

theorem Passes.assertCmd (h : Passes C assumed ρ cs)
    (hac : assumed ac = true -> C.Holds ρ ac.expr) :
    Passes C assumed ρ (.assertCmd ac :: cs) where
  run := CmdsRun.cons (CmdStep.assert ac ρ) h.run
  holds := by
    intro ac' hmem hsubsumes
    rcases List.mem_cons.mp hmem with heq | hrest
    · cases heq
      exact hac hsubsumes
    · exact h.holds ac' hrest hsubsumes

theorem Passes.assumeCmd {ac : AssumeCmd} (h : Passes C assumed ρ cs)
    (hac : C.Holds ρ ac.expr) : Passes C assumed ρ (.assumeCmd ac :: cs) where
  run := CmdsRun.cons (CmdStep.assume ac ρ hac) h.run
  holds := by
    intro ac' hmem
    rcases List.mem_cons.mp hmem with heq | hrest
    · cases heq
    · exact h.holds ac' hrest

theorem Passes.tail (h : Passes C assumed ρ (c :: cs)) (hc : c.passive = true) :
    Passes C assumed ρ cs where
  run := by
    cases h.run with
    | cons hstep hrest =>
      have hstate := hstep.passive_eq hc
      subst hstate
      exact hrest
  holds := fun ac hmem => h.holds ac (List.mem_cons_of_mem c hmem)

theorem Passes.not_correct (h : Passes C (subsumes o) ρ cs)
    (hp : forall c, c ∈ cs -> c.passive = true) (hN : ¬ N) :
    ¬ CmdsCorrect C ρ selects o (fun _ => false) cs N := by
  induction cs with
  | nil => exact hN
  | cons c cs ih =>
    have hrest := ih (h.tail (hp c List.mem_cons_self))
      (fun d hd => hp d (List.mem_cons_of_mem c hd))
    intro hcorrect
    cases c with
    | assertCmd ac =>
      exact hrest (hcorrect.2 (h.holds ac List.mem_cons_self))
    | assumeCmd ac =>
      have hac : C.Holds ρ ac.expr := by
        cases h.run with
        | cons hstep _ =>
          cases hstep with
          | assume _ _ hac => exact hac
      exact hrest (hcorrect (fun _ => hac))
    | assignCmd => simpa [Cmd.passive] using hp _ List.mem_cons_self
    | havocCmd => simpa [Cmd.passive] using hp _ List.mem_cons_self
    | callCmd => simpa [Cmd.passive] using hp _ List.mem_cons_self
    | commentCmd => simpa [Cmd.passive] using hp _ List.mem_cons_self

theorem cmdsCorrect_append {weak : AssumeCmd -> Bool} :
    CmdsCorrect C ρ selects o weak (before ++ cs) N = CmdsCorrect C ρ selects o weak before
        (CmdsCorrect C ρ selects o weak cs N) := by
  rw [CmdsCorrect, List.foldr_append]
  rfl

theorem Passes.not_correct_of_fails (h : Passes C (subsumes o) ρ before)
    (hp : forall c, c ∈ before -> c.passive = true)
    (hfalse : ¬ C.Holds ρ ac.expr) (hselected : selects (-(ac.uniqueId : Int))) :
    ¬ CmdsCorrect C ρ selects o (fun _ => false) (before ++ .assertCmd ac :: after) N := by
  rw [cmdsCorrect_append]
  apply h.not_correct hp
  intro hcorrect
  exact hfalse (hcorrect.1 hselected)

theorem fails_or_passes (hp : forall c, c ∈ cs -> c.passive = true)
    (h : ¬ CmdsCorrect C ρ selects o (fun _ => false) cs N) :
    (exists before ac after, cs = before ++ .assertCmd ac :: after ∧
        Passes C (subsumes o) ρ before ∧ ¬ C.Holds ρ ac.expr ∧ selects (-(ac.uniqueId : Int))) ∨
      (Passes C (subsumes o) ρ cs ∧ ¬ N) := by
  induction cs with
  | nil => exact Or.inr ⟨Passes.nil, h⟩
  | cons c cs ih =>
    have ihrest := ih (fun d hd => hp d (List.mem_cons_of_mem c hd))
    cases c with
    | assertCmd ac =>
      by_cases hhere :
          selects (-(ac.uniqueId : Int)) -> C.Holds ρ ac.expr
      · have hrest : ¬ ((subsumes o ac = true -> C.Holds ρ ac.expr) ->
            CmdsCorrect C ρ selects o (fun _ => false) cs N) :=
          fun hcorrect => h ⟨hhere, hcorrect⟩
        push Not at hrest
        rcases hrest with ⟨hac, hfalse⟩
        rcases ihrest hfalse with
          ⟨before, ac', after, hcs, hpasses, hac', hselected⟩ | ⟨hpasses, hN⟩
        · exact Or.inl ⟨.assertCmd ac :: before, ac', after, by rw [hcs]; rfl,
            hpasses.assertCmd hac, hac', hselected⟩
        · exact Or.inr ⟨hpasses.assertCmd hac, hN⟩
      · push Not at hhere
        rcases hhere with ⟨hselected, hfalse⟩
        exact Or.inl ⟨[], ac, cs, rfl, Passes.nil, hfalse, hselected⟩
    | assumeCmd ac =>
      have hrest : ¬ ((((false = true) -> selects (-(ac.uniqueId : Int))) ->
          C.Holds ρ ac.expr) ->
            CmdsCorrect C ρ selects o (fun _ => false) cs N) := h
      push Not at hrest
      rcases hrest with ⟨hac, hfalse⟩
      have hholds : C.Holds ρ ac.expr := hac (fun himp => by cases himp)
      rcases ihrest hfalse with
        ⟨before, ac', after, hcs, hpasses, hac', hselected⟩ | ⟨hpasses, hN⟩
      · exact Or.inl ⟨.assumeCmd ac :: before, ac', after, by rw [hcs]; rfl,
          hpasses.assumeCmd hholds, hac', hselected⟩
      · exact Or.inr ⟨hpasses.assumeCmd hholds, hN⟩
    | assignCmd => simpa [Cmd.passive] using hp _ List.mem_cons_self
    | havocCmd => simpa [Cmd.passive] using hp _ List.mem_cons_self
    | callCmd => simpa [Cmd.passive] using hp _ List.mem_cons_self
    | commentCmd => simpa [Cmd.passive] using hp _ List.mem_cons_self

end Executions

/-!
# Paths of the control-flow function
-/

inductive Follows (blocks : List Block) (cf : Int -> Int) :
    Nat -> List Nat -> Nat -> Prop where
  | stop (id : Nat) : Follows blocks cf id [] id
  | jump {id target last : Nat} {path : List Nat} :
      Jumps blocks id target -> cf id = (target : Int) ->
      Follows blocks cf target path last ->
      Follows blocks cf id (target :: path) last

namespace Follows

variable {blocks : List Block} {cf : Int -> Int} {id last : Nat}
  {path : List Nat}

theorem reaches (h : Follows blocks cf id path last) :
    forall x, x ∈ id :: path -> Relation.ReflTransGen (Jumps blocks) id x := by
  induction h with
  | stop id =>
    intro x hx
    rw [List.mem_singleton.mp hx]
  | jump hjump _ _ ih =>
    intro x hx
    rcases List.mem_cons.mp hx with rfl | hrest
    · exact Relation.ReflTransGen.refl
    · exact Relation.ReflTransGen.head hjump (ih x hrest)

theorem nodup (h : Follows blocks cf id path last) (hacyclic : Acyclic blocks) :
    (id :: path).Nodup := by
  induction h with
  | stop id => exact List.nodup_singleton id
  | jump hjump _ hrest ih =>
    rw [List.nodup_cons]
    constructor
    · intro hmem
      exact hacyclic _ (Relation.TransGen.head' hjump (hrest.reaches _ hmem))
    · exact ih

theorem mem_ids (h : Follows blocks cf id path last)
    (hclosed : forall source target, Jumps blocks source target ->
      target ∈ blocks.map Block.uniqueId) :
    forall x, x ∈ path -> x ∈ blocks.map Block.uniqueId := by
  induction h with
  | stop id =>
    intro x hx
    cases hx
  | jump hjump _ _ ih =>
    intro x hx
    rcases List.mem_cons.mp hx with rfl | hrest
    · exact hclosed _ _ hjump
    · exact ih x hrest

theorem getLast (h : Follows blocks cf id path last) :
    (id :: path).getLast? = some last := by
  induction h with
  | stop id => rfl
  | jump _ _ _ ih => rw [List.getLast?_cons_cons, ih]

end Follows

namespace PassiveProgram

variable {P : PassiveProgram}

theorem jumps_mem {source target : Nat} (h : Jumps P.blocks source target) :
    target ∈ P.blocks.map Block.uniqueId := by
  rcases h with ⟨b, hb, _, ht⟩
  rcases P.closed b hb target ht with ⟨b', hb', rfl⟩
  exact List.mem_map_of_mem hb'

theorem block_positive {b : Block} (hb : b ∈ P.blocks) : 0 < b.uniqueId :=
  P.positive b hb b.uniqueId List.mem_cons_self

theorem assert_positive {b : Block} {ac : AssertCmd} (hb : b ∈ P.blocks)
    (hac : .assertCmd ac ∈ b.cmds) : 0 < ac.uniqueId :=
  P.positive b hb ac.uniqueId (VCGen.uniqueId_mem_ids hac rfl)

theorem follows_length {cf : Int -> Int} {id last : Nat} {path : List Nat}
    (h : Follows P.blocks cf id path last) (hid : id ∈ P.blocks.map Block.uniqueId) :
    path.length < P.blocks.length := by
  have hsub : (id :: path) ⊆ P.blocks.map Block.uniqueId := by
    intro x hx
    rcases List.mem_cons.mp hx with rfl | hrest
    · exact hid
    · exact h.mem_ids (fun _ _ => jumps_mem) x hrest
  have hlength := ((h.nodup P.acyclic).subperm hsub).length_le
  rw [List.length_cons, List.length_map] at hlength
  exact hlength

end PassiveProgram

/-!
# Formulas and failing paths

The control-flow function is read at the constant `0`.
-/

namespace VCGen

section Paths

variable {o : CommandLineOptions} {labels : Bool} {P : PassiveProgram}
  {U : Type} [DecidableEq U] {C : Context U} {ρ : Env U} {id : Nat}
  {last : Block} {ac : AssertCmd}

abbrev controlFlowMode (labels : Bool) : Mode :=
  ⟨some (.intLit 0), labels⟩

abbrev BlockEquations (o : CommandLineOptions) (labels : Bool)
    (P : PassiveProgram) (C : Context U) (cf : Int -> Int -> Int) (ρ : Env U) :
    Nat -> (Nat -> Prop) -> Prop :=
  BlockEquation o (fun _ => false) (controlFlowMode labels) P.blocks C cf ρ

theorem exists_path {cf : Int -> Int -> Int} {p : Nat -> Prop}
    (hp : FixedPoint.IsSolution (BlockEquations o labels P C cf ρ) p) (hid : ¬ p id) :
    exists path last ac, Follows P.blocks (cf 0) id path last.uniqueId ∧
      last ∈ P.blocks ∧ .assertCmd ac ∈ last.cmds ∧ cf 0 last.uniqueId = -(ac.uniqueId : Int) ∧
      FailsAt C (subsumes o) P.blocks ρ last ac id := by
  induction id using P.jumps_wellFounded.induction with
  | _ id ih =>
    rw [hp id] at hid
    unfold BlockEquations BlockEquation at hid
    push Not at hid
    rcases hid with ⟨b, hb, rfl, hfalse⟩
    rcases fails_or_passes (P.passive b hb) hfalse with
      ⟨before, ac, after, hcmds, hpasses, hac, hselected⟩ | ⟨hpasses, hsuccs⟩
    · have hmem : .assertCmd ac ∈ b.cmds := by
        rw [hcmds]
        exact List.mem_append_right before List.mem_cons_self
      exact ⟨[], b, ac, Follows.stop b.uniqueId, hb, hmem, hselected,
        FailsAt.here hb hcmds hpasses hac⟩
    · unfold SuccessorsCorrect at hsuccs
      push Not at hsuccs
      rcases hsuccs with ⟨t, ht, hselected, hfalse⟩
      have hjump : Jumps P.blocks b.uniqueId t := ⟨b, hb, rfl, ht⟩
      rcases ih t hjump hfalse with
        ⟨path, last, ac, hpath, hlast, hac, hstop, hfails⟩
      exact ⟨t :: path, last, ac, Follows.jump hjump hselected hpath, hlast,
        hac, hstop, FailsAt.jump hb hpasses ht hfails⟩

theorem FailsAt.reaches (h : FailsAt C (subsumes o) P.blocks ρ last ac id) :
    Relation.ReflTransGen (Jumps P.blocks) id last.uniqueId := by
  induction h with
  | here => exact Relation.ReflTransGen.refl
  | jump hb _ ht _ ih => exact Relation.ReflTransGen.head ⟨_, hb, rfl, ht⟩ ih

/-- The values of a control-flow function that follows a failing execution. -/
structure Selection (P : PassiveProgram) (o : CommandLineOptions)
    (labels : Bool) (C : Context U) (ρ : Env U) (last : Block)
    (ac : AssertCmd) (id : Nat) (f : Nat -> Int) : Prop where
  nonnegative : forall i, i ≠ last.uniqueId -> 0 ≤ f i
  stops : f last.uniqueId = -(ac.uniqueId : Int)
  falsifies : forall cf : Int -> Int -> Int,
    (forall i : Nat, Relation.ReflTransGen (Jumps P.blocks) id i ->
      cf 0 i = f i) ->
    forall p, FixedPoint.IsSolution (BlockEquations o labels P C cf ρ) p ->
      ¬ p id

theorem exists_selection_here {before after : List Cmd} (hlast : last ∈ P.blocks)
    (hcmds : last.cmds = before ++ .assertCmd ac :: after)
    (hpasses : Passes C (subsumes o) ρ before) (hac : ¬ C.Holds ρ ac.expr) :
    Selection P o labels C ρ last ac last.uniqueId
      (Function.update (fun _ => 0) last.uniqueId (-(ac.uniqueId : Int))) where
  nonnegative := by
    intro i hi
    rw [Function.update_of_ne hi]
  stops := Function.update_self ..
  falsifies := by
    intro cf hcf p hp hcorrect
    have hselected : cf 0 last.uniqueId = -(ac.uniqueId : Int) := by
      rw [hcf last.uniqueId Relation.ReflTransGen.refl, Function.update_self]
    have heq := (hp last.uniqueId).mp hcorrect last hlast rfl
    have hbefore : forall c, c ∈ before -> c.passive = true := by
      intro c hc
      apply P.passive last hlast c
      rw [hcmds]
      exact List.mem_append_left _ hc
    unfold commandsMeaning at heq
    rw [hcmds] at heq
    exact hpasses.not_correct_of_fails hbefore hac hselected heq

theorem Selection.jump {b : Block} {target : Nat} {f : Nat -> Int}
    (h : Selection P o labels C ρ last ac target f)
    (hreaches : Relation.ReflTransGen (Jumps P.blocks) target last.uniqueId)
    (hb : b ∈ P.blocks) (hpasses : Passes C (subsumes o) ρ b.cmds) (ht : target ∈ b.labelTargets) :
    Selection P o labels C ρ last ac b.uniqueId (Function.update f b.uniqueId (target : Int)) := by
  have hjump : Jumps P.blocks b.uniqueId target := ⟨b, hb, rfl, ht⟩
  have hne : forall i, Relation.ReflTransGen (Jumps P.blocks) target i ->
      i ≠ b.uniqueId := by
    intro i hi heq
    rw [heq] at hi
    exact P.acyclic _ (Relation.TransGen.head' hjump hi)
  constructor
  · intro i hi
    by_cases hib : i = b.uniqueId
    · rw [hib, Function.update_self]
      exact Int.natCast_nonneg target
    · rw [Function.update_of_ne hib]
      exact h.nonnegative i hi
  · rw [Function.update_of_ne (hne last.uniqueId hreaches)]
    exact h.stops
  · intro cf hcf p hp hcorrect
    have hselected : cf 0 b.uniqueId = (target : Int) := by
      rw [hcf b.uniqueId Relation.ReflTransGen.refl, Function.update_self]
    have hrest : forall i : Nat,
        Relation.ReflTransGen (Jumps P.blocks) target i -> cf 0 i = f i := by
      intro i hi
      rw [hcf i (Relation.ReflTransGen.head hjump hi),
        Function.update_of_ne (hne i hi)]
    have hfalse : ¬ SuccessorsCorrect (controlFlowMode labels) cf ρ b p :=
      fun hsuccs => h.falsifies cf hrest p hp (hsuccs target ht hselected)
    have heq := (hp b.uniqueId).mp hcorrect b hb rfl
    exact hpasses.not_correct (P.passive b hb) hfalse heq

variable (labels) in
theorem exists_selection (h : FailsAt C (subsumes o) P.blocks ρ last ac id) :
    exists f, Selection P o labels C ρ last ac id f := by
  induction h with
  | here hlast hcmds hpasses hac =>
    exact ⟨_, exists_selection_here hlast hcmds hpasses hac⟩
  | jump hb hpasses ht hrest ih =>
    rcases ih with ⟨f, hf⟩
    exact ⟨_, hf.jump (FailsAt.reaches hrest) hb hpasses ht⟩

end Paths

end VCGen

end Boogie
