import Boogie.VCGeneration.LetVC

/-!
# Formulas and executions

The formula generated for a passive program holds for all control-flow
functions exactly when no execution finds an assertion false.  The formula of
the generator for inferred predicates with control flow does not use the
assumptions it guards, so it speaks about the program without them.
-/

namespace Boogie

section Passive

variable {U : Type} [DecidableEq U] {C : Context U} {ρ ρ' : Env U}

theorem CmdStep.passive_eq {c : Cmd} (h : CmdStep C c ρ ρ') (hp : c.passive = true) : ρ' = ρ := by
  cases h with
  | assert => rfl
  | assume => rfl
  | assign => simp [Cmd.passive] at hp
  | havoc => simp [Cmd.passive] at hp
  | call => simp [Cmd.passive] at hp
  | comment => rfl

theorem CmdsRun.passive_eq {cs : List Cmd} (h : CmdsRun C cs ρ ρ')
    (hp : forall c, c ∈ cs -> c.passive = true) : ρ' = ρ := by
  induction h with
  | nil => rfl
  | cons hstep _ ih =>
    have hhead := hstep.passive_eq (hp _ (by simp))
    rw [ih (fun c hc => hp c (by simp [hc])), hhead]

end Passive

def PassiveProgram.Correct (P : PassiveProgram) : Prop :=
  forall {U : Type} [DecidableEq U] (C : Context U) (ρ : Env U),
    Safe C P.blocks P.start.uniqueId ρ

def VCExpr.Valid (vc : VCExpr) : Prop :=
  forall {U : Type} [DecidableEq U] (M : VCInterp U) (η : VCEnv U),
    vc.Holds M η

namespace VCGen

open Wlp

/-!
# Removing assumptions
-/

/-- The commands that stay when the assumptions in `weak` are removed. -/
def kept (weak : AssumeCmd -> Bool) : Cmd -> Bool
  | .assumeCmd ac => !weak ac
  | _ => true

def dropAssumes (weak : AssumeCmd -> Bool) (b : Block) : Block :=
  { b with cmds := b.cmds.filter (kept weak) }

@[simp] theorem kept_false : kept (fun _ => false) = fun _ => true := by
  funext c
  cases c <;> rfl

theorem dropAssumes_false (b : Block) :
    dropAssumes (fun _ => false) b = b := by
  simp [dropAssumes]

section Commands

variable {U : Type} [DecidableEq U] {C : Context U} {ρ ρ' : Env U}
  {o : CommandLineOptions} {weak : AssumeCmd -> Bool}
  {selects : Int -> Prop} {cs : List Cmd}

theorem fails_or_runs {N : Prop} (hp : forall c, c ∈ cs -> c.passive = true)
    (h : ¬ CmdsCorrect C ρ selects o weak cs N) :
    CmdsFail C (cs.filter (kept weak)) ρ ∨ (CmdsRun C (cs.filter (kept weak)) ρ ρ ∧ ¬ N) := by
  induction cs with
  | nil => exact Or.inr ⟨CmdsRun.nil ρ, h⟩
  | cons c cs ih =>
    have ihrest := ih (fun d hd => hp d (by simp [hd]))
    cases c with
    | assertCmd ac =>
      simp only [List.filter_cons, kept, if_true]
      by_cases hac : C.Holds ρ ac.expr
      · have hrest : ¬ CmdsCorrect C ρ selects o weak cs N := by
          intro hcorrect
          exact h ⟨fun _ => hac, fun _ => hcorrect⟩
        rcases ihrest hrest with hfail | ⟨hrun, hN⟩
        · exact Or.inl (CmdsFail.later (CmdStep.assert ac ρ) hfail)
        · exact Or.inr ⟨CmdsRun.cons (CmdStep.assert ac ρ) hrun, hN⟩
      · exact Or.inl (CmdsFail.here hac)
    | assumeCmd ac =>
      have hrest : ¬ CmdsCorrect C ρ selects o weak cs N :=
        fun hcorrect => h (fun _ => hcorrect)
      cases hweak : weak ac with
      | true => simpa [kept, hweak] using ihrest hrest
      | false =>
        have hac : C.Holds ρ ac.expr := by
          by_contra hnot
          exact h (fun himp => absurd (himp (by simp [hweak])) hnot)
        have hstep := CmdStep.assume ac ρ hac
        simp only [List.filter_cons, kept, hweak, Bool.not_false, if_true]
        rcases ihrest hrest with hfail | ⟨hrun, hN⟩
        · exact Or.inl (CmdsFail.later hstep hfail)
        · exact Or.inr ⟨CmdsRun.cons hstep hrun, hN⟩
    | assignCmd => simpa [Cmd.passive] using hp _ (List.mem_cons_self)
    | havocCmd => simpa [Cmd.passive] using hp _ (List.mem_cons_self)
    | callCmd => simpa [Cmd.passive] using hp _ (List.mem_cons_self)
    | commentCmd => simpa [Cmd.passive] using hp _ (List.mem_cons_self)

theorem CmdsRun.filter_kept (hp : forall c, c ∈ cs -> c.passive = true) (h : CmdsRun C cs ρ ρ') :
    CmdsRun C (cs.filter (kept weak)) ρ ρ' := by
  induction h with
  | nil ρ => exact CmdsRun.nil ρ
  | cons hstep hrest ih =>
    rename_i c cs ρ₁ ρ₂ ρ₃
    have ihrest := ih (fun d hd => hp d (by simp [hd]))
    cases hkept : kept weak c with
    | true =>
      rw [List.filter_cons_of_pos hkept]
      exact CmdsRun.cons hstep ihrest
    | false =>
      rw [List.filter_cons_of_neg (by simp [hkept])]
      rwa [hstep.passive_eq (hp c (by simp))] at ihrest

theorem CmdsFail.filter_kept (hp : forall c, c ∈ cs -> c.passive = true) (h : CmdsFail C cs ρ) :
    CmdsFail C (cs.filter (kept weak)) ρ := by
  induction h with
  | here hfail =>
    rename_i c cs ρ
    have hkept : kept weak c = true := by
      cases c <;> first | rfl | cases hfail
    rw [List.filter_cons_of_pos hkept]
    exact CmdsFail.here hfail
  | later hstep hrest ih =>
    rename_i c cs ρ₁ ρ₂
    have ihrest := ih (fun d hd => hp d (by simp [hd]))
    cases hkept : kept weak c with
    | true =>
      rw [List.filter_cons_of_pos hkept]
      exact CmdsFail.later hstep ihrest
    | false =>
      rw [List.filter_cons_of_neg (by simp [hkept])]
      rwa [hstep.passive_eq (hp c (by simp))] at ihrest

def Unselected (selects : Int -> Prop) (weak : AssumeCmd -> Bool)
    (cs : List Cmd) : Prop :=
  forall ac, .assumeCmd ac ∈ cs -> weak ac = true ->
    ¬ selects (-(ac.uniqueId : Int))

theorem Unselected.tail {c : Cmd} (h : Unselected selects weak (c :: cs)) :
    Unselected selects weak cs :=
  fun ac hmem hweak => h ac (by simp [hmem]) hweak

theorem not_correct_of_run {N : Prop} (hp : forall c, c ∈ cs -> c.passive = true)
    (hrun : CmdsRun C (cs.filter (kept weak)) ρ ρ') (hok : ¬ CmdsFail C (cs.filter (kept weak)) ρ)
    (hunselected : Unselected selects weak cs) (hN : ¬ N) :
    ¬ CmdsCorrect C ρ selects o weak cs N := by
  induction cs with
  | nil => exact hN
  | cons c cs ih =>
    have hp' : forall d, d ∈ cs -> d.passive = true :=
      fun d hd => hp d (by simp [hd])
    cases c with
    | assertCmd ac =>
      simp only [List.filter_cons, kept, if_true] at hrun hok
      have hac : C.Holds ρ ac.expr := by
        by_contra hnot
        exact hok (CmdsFail.here hnot)
      cases hrun with
      | cons hstep hrest =>
        cases hstep with
        | assert =>
          have hrestok : ¬ CmdsFail C (cs.filter (kept weak)) ρ :=
            fun hfail =>
              hok (CmdsFail.later (CmdStep.assert ac ρ) hfail)
          intro hcorrect
          exact ih hp' hrest hrestok hunselected.tail
            (hcorrect.2 (fun _ => hac))
    | assumeCmd ac =>
      cases hweak : weak ac with
      | true =>
        simp only [List.filter_cons, kept, hweak, Bool.not_true,
          Bool.false_eq_true, if_false] at hrun hok
        intro hcorrect
        have hnot := hunselected ac (by simp) hweak
        exact ih hp' hrun hok hunselected.tail
          (hcorrect (fun himp => absurd (himp hweak) hnot))
      | false =>
        simp only [List.filter_cons, kept, hweak, Bool.not_false,
          if_true] at hrun hok
        cases hrun with
        | cons hstep hrest =>
          cases hstep with
          | assume _ _ hac =>
            have hrestok : ¬ CmdsFail C (cs.filter (kept weak)) ρ :=
              fun hfail =>
                hok (CmdsFail.later (CmdStep.assume ac ρ hac) hfail)
            intro hcorrect
            exact ih hp' hrest hrestok hunselected.tail
              (hcorrect (fun _ => hac))
    | assignCmd => simpa [Cmd.passive] using hp _ (List.mem_cons_self)
    | havocCmd => simpa [Cmd.passive] using hp _ (List.mem_cons_self)
    | callCmd => simpa [Cmd.passive] using hp _ (List.mem_cons_self)
    | commentCmd => simpa [Cmd.passive] using hp _ (List.mem_cons_self)

theorem exists_first_failure (hp : forall c, c ∈ cs -> c.passive = true)
    (hfail : CmdsFail C (cs.filter (kept weak)) ρ) :
    exists ac, .assertCmd ac ∈ cs ∧ forall selects : Int -> Prop, selects (-(ac.uniqueId : Int)) ->
        Unselected selects weak cs -> forall N, ¬ CmdsCorrect C ρ selects o weak cs N := by
  induction cs with
  | nil => cases hfail
  | cons c cs ih =>
    have hp' : forall d, d ∈ cs -> d.passive = true :=
      fun d hd => hp d (by simp [hd])
    cases c with
    | assertCmd ac =>
      by_cases hac : C.Holds ρ ac.expr
      · simp only [List.filter_cons, kept, if_true] at hfail
        cases hfail with
        | here hnot => exact absurd hac hnot
        | later hstep hrest =>
          cases hstep with
          | assert =>
            rcases ih hp' hrest with ⟨ac', hmem, hfalse⟩
            refine ⟨ac', by simp [hmem], ?_⟩
            intro selects hsel hunselected N hcorrect
            exact hfalse selects hsel hunselected.tail N
              (hcorrect.2 (fun _ => hac))
      · refine ⟨ac, by simp, ?_⟩
        intro selects hsel _ N hcorrect
        exact hac (hcorrect.1 hsel)
    | assumeCmd ac =>
      cases hweak : weak ac with
      | true =>
        simp only [List.filter_cons, kept, hweak, Bool.not_true,
          Bool.false_eq_true, if_false] at hfail
        rcases ih hp' hfail with ⟨ac', hmem, hfalse⟩
        refine ⟨ac', by simp [hmem], ?_⟩
        intro selects hsel hunselected N hcorrect
        have hnot := hunselected ac (by simp) hweak
        exact hfalse selects hsel hunselected.tail N
          (hcorrect (fun himp => absurd (himp hweak) hnot))
      | false =>
        simp only [List.filter_cons, kept, hweak, Bool.not_false,
          if_true] at hfail
        cases hfail with
        | here hnot => cases hnot
        | later hstep hrest =>
          cases hstep with
          | assume _ _ hac =>
            rcases ih hp' hrest with ⟨ac', hmem, hfalse⟩
            refine ⟨ac', by simp [hmem], ?_⟩
            intro selects hsel hunselected N hcorrect
            exact hfalse selects hsel hunselected.tail N
              (hcorrect (fun _ => hac))
    | assignCmd => simpa [Cmd.passive] using hp _ (List.mem_cons_self)
    | havocCmd => simpa [Cmd.passive] using hp _ (List.mem_cons_self)
    | callCmd => simpa [Cmd.passive] using hp _ (List.mem_cons_self)
    | commentCmd => simpa [Cmd.passive] using hp _ (List.mem_cons_self)

end Commands

/-!
# Whole programs
-/

section Programs

variable {o : CommandLineOptions} {weak : AssumeCmd -> Bool} {m : Mode}
  {P : PassiveProgram}

/-- The executions of the program without the assumptions in `weak`. -/
def WrongWithout {U : Type} [DecidableEq U] (weak : AssumeCmd -> Bool)
    (P : PassiveProgram) (C : Context U) (id : Nat) (ρ : Env U) : Prop :=
  Wrong C (P.blocks.map (dropAssumes weak)) id ρ

theorem wrong_of_not_correct
    {U : Type} [DecidableEq U] {C : Context U} {cf : Int -> Int -> Int}
    {ρ : Env U} {p : Nat -> Prop}
    (hp : FixedPoint.IsSolution (BlockEquation o weak m P.blocks C cf ρ) p) :
    forall id, ¬ p id -> WrongWithout weak P C id ρ := by
  intro id
  induction id using P.jumps_wellFounded.induction with
  | _ id ih =>
    intro hid
    rw [hp id] at hid
    unfold BlockEquation at hid
    push Not at hid
    rcases hid with ⟨b, hb, rfl, hfalse⟩
    have hmem : dropAssumes weak b ∈ P.blocks.map (dropAssumes weak) :=
      List.mem_map_of_mem hb
    rcases fails_or_runs (P.passive b hb) hfalse with hfail | ⟨hrun, hsuccs⟩
    · exact Wrong.cmds (b := dropAssumes weak b) hmem hfail
    · unfold SuccessorsCorrect at hsuccs
      push Not at hsuccs
      rcases hsuccs with ⟨t, ht, _, hfalse⟩
      exact Wrong.jump (b := dropAssumes weak b) hmem hrun ht (ih t ⟨b, hb, rfl, ht⟩ hfalse)

theorem selects_intro {U : Type} {cf : Int -> Int -> Int} {ρ : Env U}
    {cfv : Option VCExpr} {b : Nat} {outcome : Int}
    (h : forall e, cfv = some e -> cf (controlFlowValue ρ e) b = outcome) :
    Selects cf ρ cfv b outcome := by
  cases cfv with
  | none => trivial
  | some e => exact h e rfl

theorem unselected_intro {U : Type} {cf : Int -> Int -> Int} {ρ : Env U}
    {b : Block} {outcome : Int} (hweak : forall ac, weak ac = true ->
      m.controlFlowVariableExpr.isSome = true) (h : forall e, m.controlFlowVariableExpr = some e ->
      cf (controlFlowValue ρ e) b.uniqueId = outcome) (hother : forall ac, .assumeCmd ac ∈ b.cmds ->
      -(ac.uniqueId : Int) ≠ outcome) :
    Unselected (Selects cf ρ m.controlFlowVariableExpr b.uniqueId) weak b.cmds := by
  intro ac hmem hac hsel
  rcases Option.isSome_iff_exists.mp (hweak ac hac) with ⟨e, he⟩
  rw [he] at hsel
  exact hother ac hmem (hsel.symm.trans (h e he))

theorem uniqueId_mem_ids {b : Block} {c : Cmd} {id : Nat}
    (hc : c ∈ b.cmds) (hid : c.uniqueId? = some id) : id ∈ b.ids :=
  List.mem_cons_of_mem _ (List.mem_filterMap.mpr ⟨c, hc, hid⟩)

theorem eq_of_uniqueId_nodup {cs : List Cmd} {c d : Cmd} {id : Nat}
    (h : (cs.filterMap Cmd.uniqueId?).Nodup) (hc : c ∈ cs) (hd : d ∈ cs)
    (hcid : c.uniqueId? = some id) (hdid : d.uniqueId? = some id) : c = d := by
  induction cs with
  | nil => cases hc
  | cons e cs ih =>
    have hmem : forall x, x ∈ cs -> x.uniqueId? = some id ->
        id ∈ cs.filterMap Cmd.uniqueId? :=
      fun x hx hid => List.mem_filterMap.mpr ⟨x, hx, hid⟩
    have htail : (cs.filterMap Cmd.uniqueId?).Nodup :=
      h.sublist ((List.sublist_cons_self e cs).filterMap _)
    rcases List.mem_cons.mp hc with rfl | hc'
    · rcases List.mem_cons.mp hd with rfl | hd'
      · rfl
      · rw [List.filterMap_cons_some hcid, List.nodup_cons] at h
        exact absurd (hmem d hd' hdid) h.1
    · rcases List.mem_cons.mp hd with rfl | hd'
      · rw [List.filterMap_cons_some hdid, List.nodup_cons] at h
        exact absurd (hmem c hc' hcid) h.1
      · exact ih htail hc' hd'

theorem assert_ne_assume {b : Block} (hb : b ∈ P.blocks) {c : AssertCmd}
    {a : AssumeCmd} (hc : .assertCmd c ∈ b.cmds) (ha : .assumeCmd a ∈ b.cmds) :
    c.uniqueId ≠ a.uniqueId := by
  have hids : b.ids.Nodup := by
    have := List.nodup_flatMap.mp P.distinct
    exact this.1 b hb
  have hcmds : (b.cmds.filterMap Cmd.uniqueId?).Nodup :=
    (List.nodup_cons.mp hids).2
  intro heq
  have hsame : Cmd.assertCmd c = Cmd.assumeCmd a :=
    eq_of_uniqueId_nodup hcmds hc ha rfl (by simp [Cmd.uniqueId?, heq])
  cases hsame

/--
A failing execution gives a control-flow function, fixed on the blocks the
execution can reach, that makes the formula of its first block false.
-/
theorem exists_control_flow
    {U : Type} [DecidableEq U] {C : Context U} {id : Nat} {ρ : Env U}
    (hweak : forall ac, weak ac = true -> m.controlFlowVariableExpr.isSome = true)
    (h : WrongWithout weak P C id ρ) :
    exists f : Nat -> Int, forall cf : Int -> Int -> Int,
      (forall e, m.controlFlowVariableExpr = some e ->
        forall i : Nat, Relation.ReflTransGen (Jumps P.blocks) id i ->
          cf (controlFlowValue ρ e) i = f i) -> forall p, FixedPoint.IsSolution
          (BlockEquation o weak m P.blocks C cf ρ) p -> ¬ p id := by
  have hfailing : forall b, b ∈ P.blocks -> forall ρ : Env U,
      CmdsFail C (dropAssumes weak b).cmds ρ ->
      exists f : Nat -> Int, forall cf : Int -> Int -> Int,
        (forall e, m.controlFlowVariableExpr = some e ->
          forall i : Nat, Relation.ReflTransGen (Jumps P.blocks) b.uniqueId i ->
            cf (controlFlowValue ρ e) i = f i) ->
        forall p, FixedPoint.IsSolution
          (BlockEquation o weak m P.blocks C cf ρ) p -> ¬ p b.uniqueId := by
    intro b hb ρ hfail
    rcases exists_first_failure (P.passive b hb) hfail with ⟨ac, hac, hfalse⟩
    refine ⟨fun _ => -(ac.uniqueId : Int), ?_⟩
    intro cf hcf p hp hcorrect
    have hself : forall e, m.controlFlowVariableExpr = some e ->
        cf (controlFlowValue ρ e) b.uniqueId = -(ac.uniqueId : Int) :=
      fun e he => hcf e he b.uniqueId Relation.ReflTransGen.refl
    have heq := (hp b.uniqueId).mp hcorrect b hb rfl
    refine hfalse _ (selects_intro hself) (unselected_intro hweak hself ?_) _
      heq
    intro a ha hsame
    have hne := assert_ne_assume hb hac ha
    omega
  induction h with
  | cmds hmem hfail =>
    rcases List.mem_map.mp hmem with ⟨b, hb, rfl⟩
    exact hfailing b hb _ hfail
  | jump hmem hrun ht hwrong ih =>
    rename_i target ρ₁ ρ₂
    rcases List.mem_map.mp hmem with ⟨b, hb, rfl⟩
    have hkept : forall c, c ∈ (dropAssumes weak b).cmds ->
        c.passive = true :=
      fun c hc => P.passive b hb c (List.mem_of_mem_filter hc)
    have hstate : ρ₂ = ρ₁ := hrun.passive_eq hkept
    subst hstate
    by_cases hfail : CmdsFail C (dropAssumes weak b).cmds ρ₂
    · exact hfailing b hb ρ₂ hfail
    have hjump : Jumps P.blocks b.uniqueId target := ⟨b, hb, rfl, ht⟩
    rcases ih with ⟨f, hf⟩
    refine ⟨Function.update f b.uniqueId target, ?_⟩
    intro cf hcf p hp hcorrect
    have hself : forall e, m.controlFlowVariableExpr = some e ->
        cf (controlFlowValue ρ₂ e) b.uniqueId = (target : Int) := by
      intro e he
      simpa using hcf e he b.uniqueId Relation.ReflTransGen.refl
    have hrest : forall e, m.controlFlowVariableExpr = some e ->
        forall i : Nat, Relation.ReflTransGen (Jumps P.blocks) target i ->
          cf (controlFlowValue ρ₂ e) i = f i := by
      intro e he i hi
      have hne : i ≠ b.uniqueId := by
        rintro rfl
        exact P.acyclic _ (Relation.TransGen.head' hjump hi)
      have := hcf e he i (Relation.ReflTransGen.head hjump hi)
      rwa [Function.update_of_ne hne] at this
    have hpositive : 0 < target := by
      rcases P.closed b hb target ht with ⟨b', hb', rfl⟩
      exact P.positive b' hb' b'.uniqueId (by simp [Block.ids])
    have hfalse : ¬ SuccessorsCorrect m cf ρ₂ b p := by
      intro hsuccs
      exact hf cf hrest p hp (hsuccs target ht (selects_intro hself))
    have heq := (hp b.uniqueId).mp hcorrect b hb rfl
    refine not_correct_of_run (P.passive b hb) hrun hfail
      (unselected_intro hweak hself ?_) hfalse heq
    intro a _ hsame
    omega

/--
A formula that says what the equations of a program say holds for all
control-flow functions exactly when the program without the guarded
assumptions is safe.  The value at zero, which numbers no block, can be fixed.
-/
theorem holds_from_iff_safe {vc : VCExpr} {U : Type} [DecidableEq U]
    {C : Context U} {η : VCEnv U} (entry : Int) (hweak : forall ac, weak ac = true ->
      m.controlFlowVariableExpr.isSome = true)
    (hvc : forall (cf : Int -> Int -> Int) (p : Nat -> Prop),
      FixedPoint.IsSolution (BlockEquation o weak m P.blocks C cf η.state) p ->
        (vc.Holds (vcInterp C cf) η <-> p P.start.uniqueId)) :
    (forall cf, cf 0 0 = entry -> vc.Holds (vcInterp C cf) η) <->
      ¬ WrongWithout weak P C P.start.uniqueId η.state := by
  have hsolution : forall cf, exists p,
      FixedPoint.IsSolution (BlockEquation o weak m P.blocks C cf η.state) p :=
    fun cf => FixedPoint.exists_solution P.jumps_wellFounded
      (blockEquation_local o weak m P C cf η.state)
  have hpositive : forall i, Relation.ReflTransGen (Jumps P.blocks)
      P.start.uniqueId i -> 0 < i := by
    intro i hi
    cases hi with
    | refl =>
      exact P.positive P.start List.mem_cons_self _ (by simp [Block.ids])
    | tail _ hjump =>
      rcases hjump with ⟨b, hb, _, ht⟩
      rcases P.closed b hb i ht with ⟨b', hb', rfl⟩
      exact P.positive b' hb' b'.uniqueId (by simp [Block.ids])
  constructor
  · intro hall hwrong
    rcases exists_control_flow (o := o) hweak hwrong with ⟨f, hf⟩
    let cf : Int -> Int -> Int := fun _ i => if i = 0 then entry else f i.toNat
    rcases hsolution cf with ⟨p, hp⟩
    refine hf cf ?_ p hp ((hvc cf p hp).mp (hall cf (by simp [cf])))
    intro e _ i hi
    have hne : i ≠ 0 := Nat.ne_of_gt (hpositive i hi)
    simp [cf, hne]
  · intro hsafe cf _
    rcases hsolution cf with ⟨p, hp⟩
    rw [hvc cf p hp]
    by_contra hfalse
    exact hsafe (wrong_of_not_correct hp _ hfalse)

theorem holds_iff_safe {vc : VCExpr} {U : Type} [DecidableEq U]
    {C : Context U} {η : VCEnv U} (hweak : forall ac, weak ac = true ->
      m.controlFlowVariableExpr.isSome = true)
    (hvc : forall (cf : Int -> Int -> Int) (p : Nat -> Prop),
      FixedPoint.IsSolution (BlockEquation o weak m P.blocks C cf η.state) p ->
        (vc.Holds (vcInterp C cf) η <-> p P.start.uniqueId)) :
    (forall cf, vc.Holds (vcInterp C cf) η) <->
      ¬ WrongWithout weak P C P.start.uniqueId η.state := by
  constructor
  · intro hall
    exact (holds_from_iff_safe 0 hweak hvc).mp (fun cf _ => hall cf)
  · intro hsafe cf
    exact (holds_from_iff_safe (cf 0 0) hweak hvc).mpr hsafe cf rfl

theorem wrongWithout_false {U : Type} [DecidableEq U] {C : Context U}
    {id : Nat} {ρ : Env U} :
    WrongWithout (fun _ => false) P C id ρ <-> Wrong C P.blocks id ρ := by
  have hmap : P.blocks.map (dropAssumes (fun _ => false)) = P.blocks := by
    simp [funext dropAssumes_false]
  rw [WrongWithout, hmap]

/--
The plain generator, for one interpretation, one initial state and, where the
query fixes it, one value of the control-flow function at zero.
-/
theorem letVCIterative_holds_iff (o : CommandLineOptions) (P : PassiveProgram)
    (controlFlowVariableExpr : Option VCExpr)
    (label2absy : Option (Nat -> Option Absy)) (isPositiveContext : Bool)
    (hm : (Mode.mk controlFlowVariableExpr label2absy.isSome).Ready o) :
    exists vc labels n, letVCIterative o P.blocks controlFlowVariableExpr label2absy
          isPositiveContext = some (vc, labels, n) ∧
        forall {U : Type} [DecidableEq U] (C : Context U) (η : VCEnv U),
          ((forall cf, vc.Holds (vcInterp C cf) η) <-> Safe C P.blocks P.start.uniqueId η.state) ∧
          forall entry : Int, (forall cf, cf 0 0 = entry -> vc.Holds (vcInterp C cf) η) <->
              Safe C P.blocks P.start.uniqueId η.state := by
  have hblock : forall b, b ∈ P.blocks ->
      Generates (Mode.mk controlFlowVariableExpr label2absy.isSome)
        (Wlp.block o b)
        (commandsMeaning o (fun _ => false)
          (Mode.mk controlFlowVariableExpr label2absy.isSome) b b.cmds) :=
    fun b hb => blockOf_generates (fun c hc => cmd_generates hm hc)
      (P.passive b hb)
  rcases letVCIterativeOf_spec isPositiveContext P hm hblock rfl with
    ⟨vc, labels, n, hvc, hmeaning⟩
  refine ⟨vc, labels, n, hvc, ?_⟩
  intro U _ C η
  constructor
  · rw [holds_iff_safe (by simp) (fun cf p hp => hmeaning C cf η p hp),
      wrongWithout_false, Safe]
  · intro entry
    rw [holds_from_iff_safe entry (by simp)
      (fun cf p hp => hmeaning C cf η p hp), wrongWithout_false, Safe]

theorem pLetVCIterative_holds_iff (o : CommandLineOptions) (P : PassiveProgram)
    (constantsAssumed : Option (List String)) (controlFlowVariableExpr : Option VCExpr)
    (label2absy : Option (Nat -> Option Absy)) (isPositiveContext : Bool)
    (hm : (Mode.mk controlFlowVariableExpr label2absy.isSome).PReady o) :
    exists vc labels n, pLetVCIterative o P.blocks constantsAssumed controlFlowVariableExpr
          label2absy isPositiveContext = some (vc, labels, n) ∧
        forall {U : Type} [DecidableEq U] (C : Context U) (η : VCEnv U),
          ((forall cf, vc.Holds (vcInterp C cf) η) <->
            ¬ WrongWithout (guarded controlFlowVariableExpr constantsAssumed) P
              C P.start.uniqueId η.state) ∧ forall entry : Int,
            (forall cf, cf 0 0 = entry -> vc.Holds (vcInterp C cf) η) <->
              ¬ WrongWithout (guarded controlFlowVariableExpr constantsAssumed)
                P C P.start.uniqueId η.state := by
  have hblock : forall b, b ∈ P.blocks ->
      Generates (Mode.mk controlFlowVariableExpr label2absy.isSome)
        (Wlp.pBlock o constantsAssumed b)
        (commandsMeaning o (guarded controlFlowVariableExpr constantsAssumed)
          (Mode.mk controlFlowVariableExpr label2absy.isSome) b b.cmds) :=
    fun b hb => blockOf_generates (fun c hc => pCmd_generates hm hc)
      (P.passive b hb)
  rcases letVCIterativeOf_spec isPositiveContext P hm.ready hblock rfl with
    ⟨vc, labels, n, hvc, hmeaning⟩
  have hweak : forall ac,
      guarded controlFlowVariableExpr constantsAssumed ac = true ->
        controlFlowVariableExpr.isSome = true := by
    intro ac hac
    cases controlFlowVariableExpr with
    | none => simp [guarded] at hac
    | some e => rfl
  refine ⟨vc, labels, n, hvc, ?_⟩
  intro U _ C η
  constructor
  · exact holds_iff_safe hweak (fun cf p hp => hmeaning C cf η p hp)
  · intro entry
    exact holds_from_iff_safe entry hweak (fun cf p hp => hmeaning C cf η p hp)

end Programs

/-!
# Validity
-/

def CorrectWithout (weak : AssumeCmd -> Bool) (P : PassiveProgram) : Prop :=
  forall {U : Type} [DecidableEq U] (C : Context U) (ρ : Env U),
    ¬ WrongWithout weak P C P.start.uniqueId ρ

theorem valid_iff {vc : VCExpr}
    {Q : forall {U : Type} [DecidableEq U], Context U -> Env U -> Prop}
    (h : forall {U : Type} [DecidableEq U] (C : Context U) (η : VCEnv U),
      (forall cf, vc.Holds (vcInterp C cf) η) <-> Q C η.state) :
    vc.Valid <-> forall {U : Type} [DecidableEq U] (C : Context U) (ρ : Env U), Q C ρ := by
  constructor
  · intro hvalid U _ C ρ
    have hη := h C (VCEnv.withState (fun _ => .bool false) ρ)
    exact hη.mp (fun cf => hvalid (vcInterp C cf) _)
  · intro hall U _ M η
    let C := Context.withoutCalls M.toInterp η.state
    exact (h C η).mpr (hall C η.state) M.controlFlow

theorem CorrectWithout.correct {weak : AssumeCmd -> Bool} {P : PassiveProgram}
    (h : CorrectWithout weak P) : P.Correct := by
  have hwithout : forall {U : Type} [DecidableEq U] (C : Context U) (id : Nat)
      (ρ : Env U), Wrong C P.blocks id ρ -> WrongWithout weak P C id ρ := by
    intro U _ C id ρ hwrong
    induction hwrong with
    | cmds hb hfail =>
      rename_i b ρ
      exact Wrong.cmds (b := dropAssumes weak b) (List.mem_map_of_mem hb)
        (CmdsFail.filter_kept (P.passive b hb) hfail)
    | jump hb hrun ht hrest ih =>
      rename_i b t ρ₁ ρ₂
      exact Wrong.jump (b := dropAssumes weak b) (List.mem_map_of_mem hb)
        (CmdsRun.filter_kept (P.passive b hb) hrun) ht ih
  intro U _ C ρ hwrong
  exact h C ρ (hwithout C _ ρ hwrong)

theorem correctWithout_false {P : PassiveProgram} :
    CorrectWithout (fun _ => false) P <-> P.Correct := by
  constructor
  · intro h U _ C ρ hwrong
    exact h C ρ (wrongWithout_false.mpr hwrong)
  · intro h U _ C ρ hwrong
    exact h C ρ (wrongWithout_false.mp hwrong)

/-!
# An assumed call

A correct program whose only assertion needs its assumption.
-/

theorem acyclic_of_forward {blocks : List Block}
    (h : forall b, b ∈ blocks -> forall t, t ∈ b.labelTargets -> b.uniqueId < t) :
    Acyclic blocks := by
  have hpath : forall u v, Relation.TransGen (Jumps blocks) u v -> u < v := by
    intro u v hpath
    induction hpath with
    | single hjump =>
      rcases hjump with ⟨b, hb, rfl, ht⟩
      exact h b hb _ ht
    | tail _ hjump ih =>
      rcases hjump with ⟨b, hb, rfl, ht⟩
      exact ih.trans (h b hb _ ht)
  exact fun b hb => Nat.lt_irrefl b (hpath b b hb)

def callOfX : Expr :=
  .nary (.functionCall "f") [.ident (.localVariable ⟨"x", .int⟩)]

/-- The block `assume f(x); assert f(x); return`. -/
def assumedCallBlock : Block where
  uniqueId := 1
  label := "start"
  cmds :=
    [.assumeCmd { uniqueId := 2, expr := callOfX, attributes := [] },
      .assertCmd
        { uniqueId := 3
          expr := callOfX
          attributes := []
          kind := .assertCmd
          origExpr := none }]
  transferCmd := .returnCmd

def assumedCall : PassiveProgram where
  start := assumedCallBlock
  rest := []
  passive := by decide
  transfers := by simp [assumedCallBlock]
  closed := by
    simp [Block.labelTargets, TransferCmd.labelTargets, assumedCallBlock]
  acyclic := acyclic_of_forward (by decide)
  distinct := by decide
  positive := by decide

theorem assumedCall_correct : assumedCall.Correct := by
  intro U _ C ρ hwrong
  rcases hwrong.cases_block with ⟨b, hb, _, hcase⟩
  have hblock : b = assumedCallBlock := List.mem_singleton.mp hb
  subst hblock
  rcases hcase with hfail | ⟨t, ρ', _, ht, _⟩
  · cases hfail with
    | here h => exact h
    | later hstep hrest =>
      cases hstep with
      | assume _ _ hassumed =>
        cases hrest with
        | here h => exact h hassumed
        | later _ hnil => cases hnil
  · simp [Block.labelTargets, TransferCmd.labelTargets, assumedCallBlock] at ht

def falseContext : Context Unit where
  interp :=
    { sort := fun _ => ""
      func := fun _ _ => .bool false
      select := fun _ => .bool false
      store := fun _ => .bool false }
  oldState := fun _ => .bool false
  whereExpr := fun _ => none
  call := fun _ _ _ => False
  callFails := fun _ _ => False

theorem falseContext_not_holds :
    ¬ falseContext.Holds (fun _ => .bool false) callOfX := by
  simp [Context.Holds, Expr.Holds, callOfX, Interp.apply, falseContext]

theorem assumedCall_not_correctWithout :
    ¬ CorrectWithout (guarded (some (.intLit 0)) (some ["f"])) assumedCall := by
  intro h
  apply h falseContext (fun _ => .bool false)
  refine Wrong.cmds (b := dropAssumes _ assumedCallBlock)
    (List.mem_map_of_mem (List.mem_singleton.mpr rfl)) ?_
  exact CmdsFail.here falseContext_not_holds

/-!
# Soundness and completeness
-/

/--
The formula of a passive program is valid exactly when the program is correct,
with labels, with a control-flow variable or with both; and for each single
interpretation and initial state, the formula holds for all control-flow
functions exactly when no execution finds an assertion false.
-/
theorem letVCIterative_sound_and_complete (o : CommandLineOptions) (P : PassiveProgram)
    (controlFlowVariableExpr : Option VCExpr)
    (label2absy : Option (Nat -> Option Absy)) (isPositiveContext : Bool)
    (hm : (Mode.mk controlFlowVariableExpr label2absy.isSome).Ready o) :
    exists vc labels n, letVCIterative o P.blocks controlFlowVariableExpr label2absy
          isPositiveContext = some (vc, labels, n) ∧ (vc.Valid <-> P.Correct) ∧
        forall {U : Type} [DecidableEq U] (C : Context U) (η : VCEnv U),
          (forall cf, vc.Holds (vcInterp C cf) η) <-> Safe C P.blocks P.start.uniqueId η.state := by
  rcases letVCIterative_holds_iff o P controlFlowVariableExpr label2absy
    isPositiveContext hm with ⟨vc, labels, n, hvc, hmeaning⟩
  exact ⟨vc, labels, n, hvc, valid_iff (fun C η => (hmeaning C η).1),
    fun C η => (hmeaning C η).1⟩

/-- The options of a run without command-line arguments. -/
def defaultOptions : CommandLineOptions where
  useSubsumption := .always
  vcVariety := .dagIterative
  stratifiedInlining := 0

theorem defaultOptions_vcVariety : defaultOptions.vcVariety = .dagIterative := rfl

theorem controlFlowMode_pReady :
    (Mode.mk (some (.intLit 0)) true).PReady defaultOptions where
  notDoomed := by decide
  controlFlow := by
    intro e he
    cases he
    rfl
  labels := rfl
  noInlining := rfl

def blockOf (uniqueId : Nat) (cmds : List Cmd) (labelTargets : List Nat) : Block where
  uniqueId := uniqueId
  label := "L" ++ toString uniqueId
  cmds := cmds
  transferCmd := .gotoCmd labelTargets

def joinBlock : Block where
  uniqueId := 4
  label := "join"
  cmds :=
    [.assertCmd
      { uniqueId := 6
        expr := callOfX
        attributes := []
        kind := .assertCmd
        origExpr := none }]
  transferCmd := .returnCmd

/-- `f(x)` is assumed on one of the two ways to `assert f(x)`. -/
def branching : PassiveProgram where
  start := blockOf 1 [] [2, 3]
  rest :=
    [blockOf 2 [.assumeCmd { uniqueId := 5, expr := callOfX, attributes := [] }] [4],
      blockOf 3 [] [4], joinBlock]
  passive := by decide
  transfers := by simp [blockOf, joinBlock]
  closed := by decide
  acyclic := acyclic_of_forward (by decide)
  distinct := by decide
  positive := by decide

theorem branching_wrong {U : Type} [DecidableEq U] {C : Context U} {ρ : Env U}
    (h : ¬ C.Holds ρ callOfX) : Wrong C branching.blocks branching.start.uniqueId ρ := by
  have hjoin : Wrong C branching.blocks joinBlock.uniqueId ρ :=
    Wrong.cmds (by decide) (CmdsFail.here h)
  have helse : Wrong C branching.blocks (blockOf 3 [] [4]).uniqueId ρ :=
    Wrong.jump (by decide) (CmdsRun.nil ρ) (by decide) hjoin
  exact Wrong.jump (b := blockOf 1 [] [2, 3]) (by decide) (CmdsRun.nil ρ) (by decide) helse

/-- The assertion behind the join needs the assumption on both ways. -/
theorem letVCIterative_sound_and_complete_branching :
    exists vc labels n, letVCIterative defaultOptions branching.blocks (some (.intLit 0))
          (some (fun _ => none)) true = some (vc, labels, n) ∧ ¬ vc.Valid ∧
        forall {U : Type} [DecidableEq U] (C : Context U) (η : VCEnv U),
          (forall cf, vc.Holds (vcInterp C cf) η) -> C.Holds η.state callOfX := by
  rcases letVCIterative_sound_and_complete defaultOptions branching
    (some (.intLit 0)) (some (fun _ => none)) true controlFlowMode_pReady.ready with
    ⟨vc, labels, n, hvc, hvalid, hsafe⟩
  refine ⟨vc, labels, n, hvc, ?_, ?_⟩
  · intro h
    exact hvalid.mp h falseContext (fun _ => .bool false)
      (branching_wrong falseContext_not_holds)
  · intro U _ C η hholds
    by_contra hnot
    exact (hsafe C η).mp hholds (branching_wrong hnot)

/-!
# The generator for inferred predicates

With a control-flow variable this generator asks for the failure of an
assumption before it grants the assumption, so its formula is that of the
program without the assumptions.
-/

/--
The two generators agree on a program exactly when there is no control-flow
variable or the correctness of the program does not rest on the assumptions
that call a function to be inferred.
-/
theorem pLetVCIterative_agrees_iff (o : CommandLineOptions) (P : PassiveProgram)
    (constantsAssumed : Option (List String)) (controlFlowVariableExpr : Option VCExpr)
    (label2absy : Option (Nat -> Option Absy)) (isPositiveContext : Bool)
    (hm : (Mode.mk controlFlowVariableExpr label2absy.isSome).PReady o) :
    exists vc labels n pvc plabels pn, letVCIterative o P.blocks controlFlowVariableExpr label2absy
          isPositiveContext = some (vc, labels, n) ∧
        pLetVCIterative o P.blocks constantsAssumed controlFlowVariableExpr
          label2absy isPositiveContext = some (pvc, plabels, pn) ∧ ((pvc.Valid <-> vc.Valid) <->
          (controlFlowVariableExpr = none ∨ (P.Correct -> CorrectWithout
                (guarded controlFlowVariableExpr constantsAssumed) P))) := by
  rcases letVCIterative_holds_iff o P controlFlowVariableExpr label2absy
    isPositiveContext hm.ready with ⟨vc, labels, n, hvc, hmeaning⟩
  rcases pLetVCIterative_holds_iff o P constantsAssumed
    controlFlowVariableExpr label2absy isPositiveContext hm with
    ⟨pvc, plabels, pn, hpvc, hpmeaning⟩
  refine ⟨vc, labels, n, pvc, plabels, pn, hvc, hpvc, ?_⟩
  have hvalid : vc.Valid <-> P.Correct :=
    valid_iff (fun C η => (hmeaning C η).1)
  have hpvalid : pvc.Valid <-> CorrectWithout
      (guarded controlFlowVariableExpr constantsAssumed) P :=
    valid_iff (fun C η => (hpmeaning C η).1)
  rw [hvalid, hpvalid]
  cases controlFlowVariableExpr with
  | none =>
    have hnone : guarded none constantsAssumed = fun _ => false := rfl
    simp [hnone, correctWithout_false]
  | some e =>
    constructor
    · intro h
      exact Or.inr h.mpr
    · rintro (h | h)
      · cases h
      · exact ⟨CorrectWithout.correct, h⟩

theorem pLetVCIterative_agrees_iff_assumedCall :
    exists vc labels n pvc plabels pn,
      letVCIterative defaultOptions assumedCall.blocks (some (.intLit 0))
          (some (fun _ => none)) true = some (vc, labels, n) ∧
        pLetVCIterative defaultOptions assumedCall.blocks (some ["f"])
          (some (.intLit 0)) (some (fun _ => none)) true = some (pvc, plabels, pn) ∧
        ((pvc.Valid <-> vc.Valid) <-> (some (VCExpr.intLit 0) = none ∨ (assumedCall.Correct ->
              CorrectWithout (guarded (some (.intLit 0)) (some ["f"])) assumedCall))) :=
  pLetVCIterative_agrees_iff defaultOptions assumedCall (some ["f"])
    (some (.intLit 0)) (some (fun _ => none)) true controlFlowMode_pReady

/-- For `assume f(x); assert f(x)` only the plain formula is valid. -/
theorem pLetVCIterative_disagrees_assumedCall :
    exists vc labels n pvc plabels pn,
      letVCIterative defaultOptions assumedCall.blocks (some (.intLit 0))
          (some (fun _ => none)) true = some (vc, labels, n) ∧
        pLetVCIterative defaultOptions assumedCall.blocks (some ["f"])
          (some (.intLit 0)) (some (fun _ => none)) true = some (pvc, plabels, pn) ∧
        vc.Valid ∧ ¬ pvc.Valid := by
  rcases letVCIterative_holds_iff defaultOptions assumedCall
    (some (.intLit 0)) (some (fun _ => none)) true
    controlFlowMode_pReady.ready with ⟨vc, labels, n, hvc, hmeaning⟩
  rcases pLetVCIterative_holds_iff defaultOptions assumedCall (some ["f"])
    (some (.intLit 0)) (some (fun _ => none)) true
    controlFlowMode_pReady with ⟨pvc, plabels, pn, hpvc, hpmeaning⟩
  refine ⟨vc, labels, n, pvc, plabels, pn, hvc, hpvc, ?_, ?_⟩
  · exact (valid_iff (fun C η => (hmeaning C η).1)).mpr assumedCall_correct
  · intro hvalid
    have hpvalid : pvc.Valid <->
        CorrectWithout (guarded (some (.intLit 0)) (some ["f"])) assumedCall :=
      valid_iff (fun C η => (hpmeaning C η).1)
    exact assumedCall_not_correctWithout (hpvalid.mp hvalid)

end VCGen

end Boogie
