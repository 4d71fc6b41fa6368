import Boogie.Houdini.BuildWorkList
import Boogie.Houdini.WorklistInvariant

/-!
# Soundness of the worklist

An implementation that is not on the worklist and whose recorded outcome is
`Correct` has a valid formula under the current assignment, so that on exit
every implementation reported correct is.
-/

namespace Boogie

namespace Houdini

variable {H : Houdini} {prover : Prover H} {s s₀ : HoudiniState}
  {assignment : Variable -> Bool}

def WorklistInvariant (H : Houdini) (s : HoudiniState) : Prop :=
  forall impl session, H.houdiniSession impl = some session ->
    impl ∉ s.workQueue.queue -> s.RecordedCorrect impl ->
      ValidUnder H session s.assignment

def ReportsSound (H : Houdini) (s : HoudiniState) : Prop :=
  forall impl session, H.houdiniSession impl = some session ->
    s.RecordedCorrect impl -> ValidUnder H session s.assignment

theorem Invariant.worklistInvariant (h : Invariant H s) :
    WorklistInvariant H s :=
  fun impl session hsession hnot hcorrect =>
    h.base.valid impl session hsession ⟨hnot, hcorrect⟩

theorem Invariant.reportsSound (h : Invariant H s)
    (hreturned : s.control = .returned) : ReportsSound H s := by
  intro impl session hsession hcorrect
  have hqueue := h.control
  rw [hreturned] at hqueue
  have hempty : s.workQueue.queue = [] := hqueue
  exact h.base.valid impl session hsession ⟨by simp [hempty], hcorrect⟩

theorem Initial.invariant (hnames : H.DistinctNames)
    (h : H.Initial assignment s) : Invariant H s := by
  have hwrong : forall impl, ¬ s.RecordedCorrect impl := by
    intro impl hcorrect
    simp [HoudiniState.RecordedCorrect, h.outcomes] at hcorrect
  constructor
  · constructor
    · intro impl session hsession hblack
      rw [h.blackList] at hblack
      rcases List.mem_map.mp hblack with ⟨failing, hfailing, hname⟩
      rcases List.mem_filter.mp hfailing with ⟨hmem, hnone⟩
      have himpl : impl ∈ H.callGraph.ns :=
        Program.mem_buildCallGraph_ns.mpr (mem_callGraph_of_session hsession)
      have hsame := hnames failing impl hmem himpl hname
      rw [hsame, hsession] at hnone
      cases hnone
    · intro _
      exact h.cores
    · intro impl session _ hsettled
      exact absurd hsettled.correct (hwrong impl)
  · rw [h.control]
    intro _ impl session _ _ hcorrect
    exact absurd hcorrect (hwrong impl)

theorem Reaches.invariant (hp : H.program.CandidatesGuard)
    (hnames : H.DistinctNames) (hsound : prover.Sound)
    (hunstaged : H.options.useUnsatCoreForContractInfer = true ->
      forall v, v ∈ H.houdiniConstants -> H.Unstaged v) (hinit : H.Initial assignment s₀)
    (hreach : H.Reaches prover (NothingStale H) s₀ s) : Invariant H s := by
  induction hreach with
  | refl => exact hinit.invariant hnames
  | tail _ hstep ih =>
    rcases hstep with ⟨event, hok, hstep⟩
    exact ih.step hp hnames hsound hunstaged hok hstep

/-!
# Runs with a deciding prover
-/

def NoStages (H : Houdini) : Prop :=
  forall c, c ∈ H.program.constants -> c.stageActive = -1 ∧ c.stageComplete = -1

theorem NoStages.unstaged (h : H.NoStages) (v : Variable) : H.Unstaged v :=
  fun c hc _ => h c hc

theorem NoStages.getAssignment (h : H.NoStages) (assignment : Variable -> Bool) :
    H.getAssignmentWithStages assignment =
      some (H.coreAssignment assignment H.houdiniConstants) := by
  have hstaged : forall completed, H.withStages completed assignment =
      H.coreAssignment assignment H.houdiniConstants := by
    intro completed
    funext v
    rw [withStages_unstaged (h.unstaged v), coreAssignment]
    by_cases hv : v ∈ H.houdiniConstants
    · cases hval : assignment v <;> simp [hv]
    · simp [hv]
  unfold getAssignmentWithStages
  cases H.completedStages with
  | some completed => simp only [hstaged]
  | none =>
    have hall : H.program.constants.all
        (fun c => c.stageComplete = -1) = true := by
      apply List.all_eq_true.mpr
      intro c hc
      simp [(h c hc).2]
    simp only [hall, if_true, hstaged]

theorem Invariant.nothingStale {event : Event} {s' : HoudiniState}
    (hsound : prover.Sound) (hdecides : prover.Decides)
    (hstages : H.options.useUnsatCoreForContractInfer = true -> H.NoStages)
    (h : Invariant H s) (hstep : Step H prover s event s') :
    NothingStale H s event := by
  cases hstep with
  | verify hcontrol hsession hget hanswer =>
    rename_i impl session staged answer
    intro _ hvalid hinvalid
    rcases hdecides.answer session staged answer hanswer with hv | hi
    · exact absurd hv hvalid
    · exact absurd hi hinvalid
  | flush hcontrol =>
    intro hverify
    rw [hcontrol] at hverify
    cases hverify
  | unsatCore hcontrol hsession hcore =>
    rename_i impl session outcome core
    rcases hdecides.core session _ outcome core hcore with hv | hi
    · exact hv
    · subst hi
      have hcurrent := h.control
      rw [hcontrol] at hcurrent
      rcases hcurrent with ⟨_, hoption, hvalid⟩
      have hget := (hstages hoption).getAssignment s.assignment
      exact absurd (hvalid session hsession _ hget)
        (hsound.noCore session s.assignment core hcore)
  | _ => trivial

/-!
# Starting a run
-/

theorem houdiniSession_of_vcgen {impl : Implementation}
    {P : PassifiedImpl H.program impl} (hmem : impl ∈ H.program.verified)
    (hvcgen : H.vcgen impl = some P) :
    exists session, H.houdiniSession impl = some session ∧ session.passified = P := by
  rcases HoudiniSession.create_isSome (o := H.options) P with
    ⟨session, hsession, hpassified⟩
  have hns : impl ∈ H.callGraph.ns := Program.mem_buildCallGraph_ns.mpr hmem
  refine ⟨session, ?_, hpassified⟩
  simp only [houdiniSession, if_pos hns, hvcgen]
  exact hsession

theorem houdiniSession_isSome {impl : Implementation} :
    (H.houdiniSession impl).isSome = true <->
      impl ∈ H.program.verified ∧ (H.vcgen impl).isSome = true := by
  constructor
  · intro h
    rcases Option.isSome_iff_exists.mp h with ⟨session, hsession⟩
    refine ⟨mem_callGraph_of_session hsession, ?_⟩
    unfold houdiniSession at hsession
    split at hsession
    · split at hsession
      · rename_i P hP
        rw [hP]
        rfl
      · cases hsession
    · cases hsession
  · intro ⟨hmem, hvcgen⟩
    rcases Option.isSome_iff_exists.mp hvcgen with ⟨P, hP⟩
    rcases houdiniSession_of_vcgen hmem hP with ⟨session, hsession, _⟩
    rw [hsession]
    rfl

/-- The start with a given order of the worklist and all candidates true. -/
def start (H : Houdini) (queue : List Implementation) (nodup : queue.Nodup) :
    HoudiniState where
  workQueue := ⟨queue, nodup⟩
  blackList := H.vcgenFailures.map Implementation.name
  assignment := fun _ => true
  implementationOutcomes := fun _ => none
  unsatCoreSet := fun _ => none
  control := .outerLoop

theorem start_initial {queue : List Implementation} {nodup : queue.Nodup}
    (h : forall impl, impl ∈ queue <-> impl ∈ H.program.verified ∧ (H.vcgen impl).isSome = true) :
    H.Initial (fun _ => true) (H.start queue nodup) where
  control := rfl
  workQueue := fun impl => (h impl).trans houdiniSession_isSome.symm
  blackList := rfl
  assignment := rfl
  outcomes := rfl
  cores := rfl

def passiveAssert (id : Nat) (e : Expr) : AssertCmd where
  uniqueId := id
  expr := e
  attributes := []
  kind := .assertCmd
  origExpr := some e

def defaultHoudiniOptions : HoudiniOptions where
  clo := VCGen.defaultOptions
  useLabels := true
  useUnsatCoreForContractInfer := false
  houdiniUseCrossDependencies := false
  dagIterative := VCGen.defaultOptions_vcVariety

/-!
# A caller and a callee

The callee relies on a candidate precondition, which the caller has to
establish.
-/

section CallerAndCallee

def candidate : Constant where
  ident := ⟨"c", .bool⟩
  attributes := [⟨"existential", [.expr (.literal (.bool true))]⟩]

def guarded (e : Expr) : Expr :=
  Expr.imp (.ident candidate.variable) e

def parameter (name : String) : Expr :=
  .ident (.formal ⟨name, .bool⟩)

def calleeBlock : Block where
  uniqueId := 2
  label := "start"
  cmds := [.assertCmd (passiveAssert 3 (parameter "q"))]
  transferCmd := .returnCmd

/-- `implementation A(q: bool) { assert q; }` -/
def callee : Implementation where
  uniqueId := 1
  name := "A"
  blocks := [calleeBlock]
  skipVerification := false

def callerBlock : Block where
  uniqueId := 5
  label := "start"
  cmds := [.callCmd ⟨"A", [.trueExpr], []⟩]
  transferCmd := .returnCmd

/-- `implementation B() { call A(true); }` -/
def caller : Implementation where
  uniqueId := 4
  name := "B"
  blocks := [callerBlock]
  skipVerification := false

/-- `procedure A(q: bool); requires c ==> q;` and `procedure B();` -/
def callProgram : Program where
  constants := [candidate]
  axioms := []
  procedures :=
    [⟨"A", [⟨false, guarded (parameter "q")⟩], []⟩, ⟨"B", [], []⟩]
  implementations := [callee, caller]

def calleePassiveBlock : Block where
  uniqueId := 2
  label := "start"
  cmds :=
    [.assumeCmd
        { uniqueId := 6, expr := guarded (parameter "q"), attributes := [] },
      .assertCmd (passiveAssert 3 (parameter "q"))]
  transferCmd := .returnCmd

def requiresAssert : AssertCmd where
  uniqueId := 7
  expr := guarded .trueExpr
  attributes := []
  kind := .assertRequiresCmd "A" (guarded (parameter "q"))
  origExpr := some (guarded .trueExpr)

def callerPassiveBlock : Block where
  uniqueId := 5
  label := "start"
  cmds := [.assertCmd requiresAssert]
  transferCmd := .returnCmd

theorem mem_callProgram_constants {c : Variable} :
    c ∈ callProgram.houdiniConstants <-> c = candidate.variable := by
  have h : callProgram.houdiniConstants = [candidate.variable] := by decide
  rw [h, List.mem_singleton]

theorem parameter_mentions {name : String} {x : Variable} :
    (parameter name).Mentions x <-> x = .formal ⟨name, .bool⟩ := by
  constructor
  · intro h
    cases h
    rfl
  · rintro rfl
    exact Expr.Mentions.ident

theorem guarded_mentions {e : Expr} {x : Variable} :
    (guarded e).Mentions x <-> x = candidate.variable ∨ e.Mentions x := by
  constructor
  · intro h
    cases h with
    | nary ha hx =>
      simp only [List.mem_cons, List.not_mem_nil, or_false] at ha
      rcases ha with rfl | rfl
      · cases hx
        exact Or.inl rfl
      · exact Or.inr hx
  · rintro (rfl | h)
    · exact Expr.Mentions.nary (by simp) Expr.Mentions.ident
    · exact Expr.Mentions.nary (by simp) h

theorem guarded_matchCandidate {e : Expr} :
    callProgram.matchCandidate (guarded e) = some candidate.variable := by
  have h : callProgram.houdiniConstants = [candidate.variable] := by decide
  simp [Program.matchCandidate, h, guarded, Expr.imp, Expr.binary,
    Houdini.matchCandidate, Constant.variable, Variable.isConstant]

theorem callProgram_annotates {e : Expr} {site : Site} (h : callProgram.Annotates e site) :
    (site = .requiresOf "A" ∧ e = guarded (parameter "q")) ∨
      (site = .bodyOf callee ∧ e = parameter "q") := by
  cases site with
  | requiresOf proc =>
    rcases h with ⟨decl, hdecl, rfl, r, hr, rfl⟩
    simp only [callProgram, List.mem_cons, List.not_mem_nil, or_false] at hdecl
    rcases hdecl with rfl | rfl
    · rw [List.mem_singleton.mp hr]
      exact Or.inl ⟨rfl, rfl⟩
    · cases hr
  | ensuresOf proc =>
    rcases h with ⟨decl, hdecl, rfl, r, hr, rfl⟩
    simp only [callProgram, List.mem_cons, List.not_mem_nil, or_false] at hdecl
    rcases hdecl with rfl | rfl <;> cases hr
  | bodyOf impl =>
    rcases h with ⟨himpl, b, hb, cmd, hcmd, he⟩
    simp only [callProgram, List.mem_cons, List.not_mem_nil, or_false] at himpl
    rcases himpl with rfl | rfl
    · rw [List.mem_singleton.mp hb] at hcmd
      rw [List.mem_singleton.mp hcmd] at he
      cases he
      exact Or.inr ⟨rfl, rfl⟩
    · rw [List.mem_singleton.mp hb] at hcmd
      rw [List.mem_singleton.mp hcmd] at he
      cases he

theorem callProgram_resolves {e : Expr}
    (h : forall x, e.Mentions x -> x.isConstant = true -> x = candidate.variable) :
    callProgram.Resolves e := by
  intro c hc x hx hconst _
  rw [mem_callProgram_constants] at hc
  rw [hc]
  exact h x hx hconst

theorem parameter_resolves {name : String} : callProgram.Resolves (parameter name) := by
  apply callProgram_resolves
  intro x hx hconst
  rw [parameter_mentions] at hx
  rw [hx] at hconst
  cases hconst

theorem guarded_resolves {e : Expr} (h : callProgram.Resolves e) :
    callProgram.Resolves (guarded e) := by
  intro c hc x hx hconst hname
  rcases guarded_mentions.mp hx with hx | hx
  · rw [mem_callProgram_constants] at hc
    rw [hx, hc]
  · exact h c hc x hx hconst hname

theorem trueExpr_resolves : callProgram.Resolves .trueExpr := by
  intro c hc x hx
  cases hx

theorem not_parameter_mentions {name : String} :
    ¬ (parameter name).Mentions candidate.variable := by
  rw [parameter_mentions]
  intro h
  cases h

theorem callProgram_guard : callProgram.CandidatesGuard where
  guarded := by
    intro e site h c hc hmem
    rw [mem_callProgram_constants] at hc
    subst hc
    rcases callProgram_annotates h with ⟨_, rfl⟩ | ⟨_, rfl⟩
    · exact guarded_matchCandidate
    · exact absurd hmem not_parameter_mentions
  single := by
    intro c hc e e' site site' h h' hmem hmem'
    rw [mem_callProgram_constants] at hc
    subst hc
    rcases callProgram_annotates h with ⟨rfl, rfl⟩ | ⟨rfl, rfl⟩
    · rcases callProgram_annotates h' with ⟨rfl, rfl⟩ | ⟨rfl, rfl⟩
      · rfl
      · exact absurd hmem' not_parameter_mentions
    · exact absurd hmem not_parameter_mentions
  resolved := by
    intro e site h
    rcases callProgram_annotates h with ⟨_, rfl⟩ | ⟨_, rfl⟩
    · exact guarded_resolves parameter_resolves
    · exact parameter_resolves
  axioms := by
    intro c hc e he
    cases he

theorem requires_annotates :
    callProgram.Annotates (guarded (parameter "q")) (.requiresOf "A") :=
  ⟨_, List.mem_cons_self, rfl, _, List.mem_cons_self, rfl⟩

def calleePassive : PassifiedImpl callProgram callee where
  passive := PassiveProgram.single calleePassiveBlock (by decide) rfl
    (by decide) (by decide)
  resolves := by
    intro cmd hcmd e he
    have hcases : cmd ∈ calleePassiveBlock.cmds := by
      simpa [PassiveProgram.cmds, PassiveProgram.blocks,
        PassiveProgram.single] using hcmd
    simp only [calleePassiveBlock, List.mem_cons, List.not_mem_nil,
      or_false] at hcases
    rcases hcases with rfl | rfl
    · cases he
      exact guarded_resolves parameter_resolves
    · cases he
      exact parameter_resolves
  asserts := by
    intro ac hac
    have hac' : ac = passiveAssert 3 (parameter "q") := by
      simpa [PassiveProgram.cmds, PassiveProgram.blocks, PassiveProgram.single,
        calleePassiveBlock] using hac
    subst hac'
    refine ⟨.bodyOf callee, parameter "q", rfl, rfl, ?_, ?_⟩
    · exact ⟨by simp [callProgram], calleeBlock, by simp [callee], _,
        List.mem_singleton.mpr rfl, rfl⟩
    · exact ⟨fun c hc => Iff.rfl, rfl⟩
  assumes := by
    intro ac hac c hc hmem
    have hac' : ac =
        { uniqueId := 6, expr := guarded (parameter "q"), attributes := [] } := by
      simpa [PassiveProgram.cmds, PassiveProgram.blocks, PassiveProgram.single,
        calleePassiveBlock] using hac
    subst hac'
    exact ⟨.requiresOf "A", guarded (parameter "q"), rfl, requires_annotates,
      fun c hc => Iff.rfl, rfl⟩

def callerPassive : PassifiedImpl callProgram caller where
  passive := PassiveProgram.single callerPassiveBlock (by decide) rfl
    (by decide) (by decide)
  resolves := by
    intro cmd hcmd e he
    have hcmd' : cmd = .assertCmd requiresAssert := by
      simpa [PassiveProgram.cmds, PassiveProgram.blocks, PassiveProgram.single,
        callerPassiveBlock] using hcmd
    subst hcmd'
    cases he
    exact guarded_resolves trueExpr_resolves
  asserts := by
    intro ac hac
    have hac' : ac = requiresAssert := by
      simpa [PassiveProgram.cmds, PassiveProgram.blocks, PassiveProgram.single,
        callerPassiveBlock] using hac
    subst hac'
    refine ⟨.requiresOf "A", guarded (parameter "q"), rfl, ?_,
      requires_annotates, ?_, ?_⟩
    · show "A" ∈ caller.callees
      decide
    · intro c hc
      rw [mem_callProgram_constants] at hc
      subst hc
      simp only [requiresAssert, guarded_mentions, true_or]
    · simp only [requiresAssert, guarded_matchCandidate]
  assumes := by
    intro ac hac
    simp [PassiveProgram.cmds, PassiveProgram.blocks, PassiveProgram.single,
      callerPassiveBlock] at hac

def callerAndCallee : Houdini where
  program := callProgram
  options := defaultHoudiniOptions
  vcgen := fun impl =>
    if h : impl = callee then some (h ▸ calleePassive)
    else if h : impl = caller then some (h ▸ callerPassive)
    else none
  crossDependencies := fun _ => []
  stage := 0
  completedStages := none

theorem callerAndCallee_noStages : callerAndCallee.NoStages := by
  intro c hc
  rw [List.mem_singleton.mp hc]
  decide

theorem callerAndCallee_verified :
    callerAndCallee.program.verified = [callee, caller] := by
  decide

theorem callerAndCallee_distinctNames : callerAndCallee.DistinctNames := by
  intro impl impl' himpl himpl' hname
  rw [callGraph, Program.mem_buildCallGraph_ns, callerAndCallee_verified]
    at himpl himpl'
  simp only [List.mem_cons, List.not_mem_nil, or_false] at himpl himpl'
  rcases himpl with rfl | rfl
  · rcases himpl' with rfl | rfl
    · rfl
    · simp [callee, caller] at hname
  · rcases himpl' with rfl | rfl
    · simp [callee, caller] at hname
    · rfl

theorem callerAndCallee_initial {queue : List Implementation}
    {nodup : queue.Nodup} (h : forall impl, impl ∈ queue <-> impl = callee ∨ impl = caller) :
    callerAndCallee.Initial (fun _ => true) (callerAndCallee.start queue nodup) := by
  apply start_initial
  intro impl
  rw [callerAndCallee_verified, h]
  simp only [List.mem_cons, List.not_mem_nil, or_false]
  constructor
  · rintro (rfl | rfl)
    · exact ⟨Or.inl rfl, rfl⟩
    · exact ⟨Or.inr rfl, rfl⟩
  · exact fun h => h.1

theorem callerAndCallee_assignment (assignment : Variable -> Bool) :
    callerAndCallee.coreAssignment assignment callerAndCallee.houdiniConstants
      candidate.variable = some (assignment candidate.variable) := by
  have hc : candidate.variable ∈ callerAndCallee.houdiniConstants :=
    mem_callProgram_constants.mpr rfl
  unfold coreAssignment
  cases h : assignment candidate.variable <;> simp [hc]

theorem holds_guarded {U : Type} [DecidableEq U] {C : Context U} {ρ : Env U}
    {e : Expr} :
    C.Holds ρ (guarded e) <-> ((ρ candidate.variable).truth = true -> C.Holds ρ e) := by
  cases h : (ρ candidate.variable).truth <;>
    simp [Context.Holds, Expr.Holds, guarded, Expr.imp, Expr.binary,
      Interp.apply, BinaryOperator.apply, h]

theorem calleePassive_verified {assignment : Variable -> Option Bool}
    (h : assignment candidate.variable = some true) :
    callProgram.Verified calleePassive.passive assignment := by
  intro U _ C ρ _ hagrees hwrong
  have hc : (ρ candidate.variable).truth = true :=
    hagrees candidate.variable (by simp [callProgram]) true h
  rcases hwrong.cases_block with ⟨b, hb, _, hcase⟩
  have hblock : b = calleePassiveBlock := List.mem_singleton.mp hb
  subst hblock
  rcases hcase with hfail | ⟨t, ρ', _, ht, _⟩
  · cases hfail with
    | here h => exact h
    | later hstep hrest =>
      cases hstep with
      | assume _ _ hassumed =>
        cases hrest with
        | here h => exact h (holds_guarded.mp hassumed hc)
        | later _ hnil => cases hnil
  · simp [Block.labelTargets, TransferCmd.labelTargets,
      calleePassiveBlock] at ht

theorem calleePassive_not_verified {assignment : Variable -> Option Bool}
    (h : assignment candidate.variable = some false) :
    ¬ callProgram.Verified calleePassive.passive assignment := by
  intro hverified
  let ρ : Env Unit := fun _ => .bool false
  apply hverified Unit VCGen.falseContext ρ
  · intro e he
    cases he
  · intro c hc b hb
    have hc' : c = candidate.variable := List.mem_singleton.mp hc
    subst hc'
    rw [h] at hb
    cases hb
    rfl
  · refine Wrong.cmds (b := calleePassiveBlock)
      (List.mem_singleton.mpr rfl) ?_
    refine CmdsFail.later (CmdStep.assume _ ρ ?_) (CmdsFail.here ?_)
    · apply holds_guarded.mpr
      intro htrue
      cases htrue
    · simp [CmdFails, Context.Holds, Expr.Holds, passiveAssert, parameter, ρ]

theorem callerPassive_verified {assignment : Variable -> Option Bool} :
    callProgram.Verified callerPassive.passive assignment := by
  by_contra hnot
  rcases Program.not_verified_iff.mp hnot with ⟨ac, hac, U, hU, C, ρ, _, _, hfalse⟩
  cases List.mem_singleton.mp hac
  apply hfalse.not_holds
  apply holds_guarded.mpr
  intro _
  exact Expr.holds_trueExpr

theorem callerAndCallee_buildWorkList :
    callerAndCallee.buildWorkList.queue = [callee, caller] := by
  decide

theorem callee_session : exists session,
    callerAndCallee.houdiniSession callee = some session ∧ session.passified = calleePassive :=
  houdiniSession_of_vcgen (by decide) rfl

theorem caller_session : exists session,
    callerAndCallee.houdiniSession caller = some session ∧ session.passified = callerPassive :=
  houdiniSession_of_vcgen (by decide) rfl

theorem callee_caller_nodup : [callee, caller].Nodup := by
  decide

def calleeDone : HoudiniState :=
  (updateHoudiniOutcome callProgram callee ⟨.valid, []⟩
    ((callerAndCallee.start [callee, caller] callee_caller_nodup).goto
      (.verifyCurrent callee))).dequeue.goto .outerLoop

theorem calleeDone_reached (mayGiveUp : Prop)
    {ok : HoudiniState -> Event -> Prop} (hinternal : forall s, ok s .internal)
    (hvalid : forall s, ok s (.answered callee ⟨.valid, []⟩)) :
    callerAndCallee.Reaches (callerAndCallee.rightAnswers mayGiveUp) ok
      (callerAndCallee.start [callee, caller] (by decide)) calleeDone := by
  rcases callee_session with ⟨session, hsession, hpassified⟩
  let s₀ := callerAndCallee.start [callee, caller] (by decide)
  let s₁ := s₀.goto (.verifyCurrent callee)
  have hstep₁ : Step callerAndCallee (callerAndCallee.rightAnswers mayGiveUp)
      s₀ .internal s₁ :=
    Step.peek rfl rfl
  have hanswer : useAnswer callerAndCallee session ⟨.valid, []⟩ s₁ =
      calleeDone := rfl
  have hstep₂ : Step callerAndCallee (callerAndCallee.rightAnswers mayGiveUp)
      s₁ (.answered callee ⟨.valid, []⟩) calleeDone := by
    rw [← hanswer]
    apply Step.verify rfl hsession
      (callerAndCallee_noStages.getAssignment s₁.assignment)
    show callerAndCallee.program.Valid _
    rw [session.vc_valid_iff, hpassified]
    exact calleePassive_verified (callerAndCallee_assignment _)
  exact (Relation.ReflTransGen.refl.tail ⟨_, hinternal _, hstep₁⟩).tail
    ⟨_, hvalid _, hstep₂⟩

def callerReturned : HoudiniState :=
  ((updateHoudiniOutcome callProgram caller ⟨.valid, []⟩
    (calleeDone.goto (.verifyCurrent caller))).dequeue.goto .outerLoop).goto .returned

theorem callerReturned_reached (mayGiveUp : Prop)
    {ok : HoudiniState -> Event -> Prop} (hinternal : forall s, ok s .internal)
    (hvalid : forall s impl, ok s (.answered impl ⟨.valid, []⟩)) :
    callerAndCallee.Reaches (callerAndCallee.rightAnswers mayGiveUp) ok
      (callerAndCallee.start [callee, caller] (by decide)) callerReturned := by
  rcases caller_session with ⟨session, hsession, hpassified⟩
  let s₁ := calleeDone.goto (.verifyCurrent caller)
  let s₂ := (updateHoudiniOutcome callProgram caller ⟨.valid, []⟩ s₁).dequeue.goto .outerLoop
  have hstep₁ : Step callerAndCallee (callerAndCallee.rightAnswers mayGiveUp)
      calleeDone .internal s₁ :=
    Step.peek rfl rfl
  have hanswer : useAnswer callerAndCallee session ⟨.valid, []⟩ s₁ = s₂ := rfl
  have hstep₂ : Step callerAndCallee (callerAndCallee.rightAnswers mayGiveUp)
      s₁ (.answered caller ⟨.valid, []⟩) s₂ := by
    rw [← hanswer]
    apply Step.verify rfl hsession
      (callerAndCallee_noStages.getAssignment s₁.assignment)
    show callerAndCallee.program.Valid _
    rw [session.vc_valid_iff, hpassified]
    exact callerPassive_verified
  have hstep₃ : Step callerAndCallee (callerAndCallee.rightAnswers mayGiveUp)
      s₂ .internal callerReturned :=
    Step.finish rfl rfl
  have hdone := calleeDone_reached mayGiveUp hinternal (fun s => hvalid s _)
  exact ((hdone.tail ⟨_, hinternal _, hstep₁⟩).tail ⟨_, hvalid _ _, hstep₂⟩).tail
    ⟨_, hinternal _, hstep₃⟩

end CallerAndCallee

/-!
# Soundness
-/

/--
In every run with a prover that decides each query, the worklist invariant
holds in each state reached, and the implementations reported correct on exit
are; provided that the implementations have different names and no constant is
staged when unsat cores are used.
-/
theorem worklist_sound (hp : H.program.CandidatesGuard)
    (hsound : prover.Sound) (hdecides : prover.Decides) (hnames : H.DistinctNames)
    (hstages : H.options.useUnsatCoreForContractInfer = true -> H.NoStages)
    (hinit : H.Initial assignment s₀) (hreach : H.Reaches prover (fun _ _ => True) s₀ s) :
    WorklistInvariant H s ∧ (s.control = .returned -> ReportsSound H s) := by
  have hinvariant : Invariant H s := by
    induction hreach with
    | refl => exact hinit.invariant hnames
    | tail _ hstep ih =>
      rcases hstep with ⟨event, _, hstep⟩
      exact ih.step hp hnames hsound
        (fun hoption v _ => (hstages hoption).unstaged v)
        (ih.nothingStale hsound hdecides hstages hstep) hstep
  exact ⟨hinvariant.worklistInvariant, hinvariant.reportsSound⟩

/-- At the end of a run the invariant speaks about both implementations. -/
theorem worklist_sound_callerReturned :
    callerReturned.workQueue.queue = [] ∧ callerReturned.RecordedCorrect callee ∧
      callerReturned.RecordedCorrect caller ∧ callerReturned.control = .returned ∧
      (WorklistInvariant callerAndCallee callerReturned ∧
        (callerReturned.control = .returned -> ReportsSound callerAndCallee callerReturned)) := by
  refine ⟨rfl, ⟨_, rfl, rfl⟩, ⟨_, rfl, rfl⟩, rfl, ?_⟩
  exact worklist_sound callProgram_guard (rightAnswers_sound _ False)
    (rightAnswers_decides _) callerAndCallee_distinctNames
    (fun hoption => absurd hoption (by decide))
    (callerAndCallee_initial (by simp))
    (callerReturned_reached False (fun _ => trivial) (fun _ _ => trivial))

/-!
# Two implementations of one procedure

Outcomes are recorded under the name of an implementation, which is that of its
procedure: the outcome of a second implementation replaces the first.
-/

section SameName

def failingBlock : Block where
  uniqueId := 2
  label := "start"
  cmds := [.assertCmd (passiveAssert 3 Expr.falseExpr)]
  transferCmd := .returnCmd

def emptyBlock : Block where
  uniqueId := 5
  label := "start"
  cmds := []
  transferCmd := .returnCmd

/-- `implementation A() { assert false; }` -/
def failingImpl : Implementation where
  uniqueId := 1
  name := "A"
  blocks := [failingBlock]
  skipVerification := false

/-- `implementation A() { }` -/
def emptyImpl : Implementation where
  uniqueId := 4
  name := "A"
  blocks := [emptyBlock]
  skipVerification := false

def sameNameProgram : Program where
  constants := []
  axioms := []
  procedures := [⟨"A", [], []⟩]
  implementations := [emptyImpl, failingImpl]

theorem sameNameProgram_constants : sameNameProgram.houdiniConstants = [] :=
  rfl

theorem sameNameProgram_guard : sameNameProgram.CandidatesGuard where
  guarded := by
    intro e site _ c hc
    simp [sameNameProgram_constants] at hc
  single := by
    intro c hc
    simp [sameNameProgram_constants] at hc
  resolved := by
    intro e site _ c hc
    simp [sameNameProgram_constants] at hc
  axioms := by
    intro c hc
    simp [sameNameProgram_constants] at hc

def failingPassive : PassifiedImpl sameNameProgram failingImpl where
  passive := PassiveProgram.single failingBlock (by decide) rfl (by decide)
    (by decide)
  resolves := by
    intro cmd _ e _ c hc
    simp [sameNameProgram_constants] at hc
  asserts := by
    intro ac hac
    have hac' : ac = passiveAssert 3 Expr.falseExpr := by
      simpa [PassiveProgram.cmds, PassiveProgram.blocks, PassiveProgram.single,
        failingBlock] using hac
    subst hac'
    refine ⟨.bodyOf failingImpl, Expr.falseExpr, rfl, rfl, ?_, ?_⟩
    · exact ⟨by simp [sameNameProgram], failingBlock, by simp [failingImpl], _,
        List.mem_singleton.mpr rfl, rfl⟩
    · exact ⟨fun c hc => Iff.rfl, rfl⟩
  assumes := by
    intro ac _ c hc
    simp [sameNameProgram_constants] at hc

def emptyPassive : PassifiedImpl sameNameProgram emptyImpl where
  passive := PassiveProgram.single emptyBlock (by decide) rfl (by decide)
    (by decide)
  resolves := by
    intro cmd _ e _ c hc
    simp [sameNameProgram_constants] at hc
  asserts := by
    intro ac hac
    simp [PassiveProgram.cmds, PassiveProgram.blocks, PassiveProgram.single,
      emptyBlock] at hac
  assumes := by
    intro ac _ c hc
    simp [sameNameProgram_constants] at hc

def sameName : Houdini where
  program := sameNameProgram
  options := defaultHoudiniOptions
  vcgen := fun impl =>
    if h : impl = failingImpl then some (h ▸ failingPassive)
    else if h : impl = emptyImpl then some (h ▸ emptyPassive)
    else none
  crossDependencies := fun _ => []
  stage := 0
  completedStages := none

theorem sameName_buildWorkList :
    sameName.buildWorkList.queue = [failingImpl, emptyImpl] := by
  decide

theorem sameName_initial :
    sameName.Initial (fun _ => true) (sameName.start [failingImpl, emptyImpl] (by decide)) := by
  apply start_initial
  intro impl
  have hverified : sameName.program.verified = [emptyImpl, failingImpl] := by
    decide
  rw [hverified, List.Perm.mem_iff (List.Perm.swap emptyImpl failingImpl [])]
  constructor
  · intro hmem
    refine ⟨hmem, ?_⟩
    rcases List.mem_cons.mp hmem with rfl | hmem
    · rfl
    · rw [List.mem_singleton.mp hmem]
      rfl
  · exact fun h => h.1

theorem failingPassive_refutes (assignment : Variable -> Option Bool) :
    sameNameProgram.Refutes failingPassive.passive assignment (passiveAssert 3 Expr.falseExpr) := by
  refine ⟨Unit, inferInstance, VCGen.falseContext, fun _ => .bool false, ?_, ?_, ?_⟩
  · intro e he
    cases he
  · intro c hc
    cases hc
  · have hfalse : ¬ VCGen.falseContext.Holds (fun _ => .bool false)
        (passiveAssert 3 Expr.falseExpr).expr := by
      simp [Context.Holds, Expr.Holds, passiveAssert, Expr.falseExpr,
        Literal.value]
    exact Falsifies.cmds (b := failingBlock) (List.mem_singleton.mpr rfl)
      (List.nil_append _).symm (CmdsRun.nil _) hfalse

theorem emptyPassive_verified (assignment : Variable -> Option Bool) :
    sameNameProgram.Verified emptyPassive.passive assignment := by
  by_contra hnot
  rcases Program.not_verified_iff.mp hnot with ⟨ac, hac, _⟩
  cases hac

/--
The inference can report the procedure correct although the formula of one
implementation, `assert false`, is not valid.
-/
theorem sameName_unsound :
    sameName.program.CandidatesGuard ∧ (sameName.rightAnswers False).Sound ∧
      (sameName.rightAnswers False).Decides ∧ exists s₀ s, sameName.Initial (fun _ => true) s₀ ∧
        s₀.workQueue.queue = sameName.buildWorkList.queue ∧
        sameName.Reaches (sameName.rightAnswers False) (fun _ _ => True) s₀ s ∧
        s.control = .returned ∧ s.RecordedCorrect failingImpl ∧ ¬ WorklistInvariant sameName s := by
  refine ⟨sameNameProgram_guard, rightAnswers_sound _ _,
    rightAnswers_decides _, ?_⟩
  have hfailing : exists session,
      sameName.houdiniSession failingImpl = some session ∧
        session.passified = failingPassive :=
    houdiniSession_of_vcgen (by decide) rfl
  have hempty : exists session,
      sameName.houdiniSession emptyImpl = some session ∧
        session.passified = emptyPassive :=
    houdiniSession_of_vcgen (by decide) rfl
  rcases hfailing with ⟨failing, hfailing, hfailingPassive⟩
  rcases hempty with ⟨empty, hempty, hemptyPassive⟩
  let error := assertCmdToCounterexample (passiveAssert 3 Expr.falseExpr)
  let s₀ := sameName.start [failingImpl, emptyImpl] (by decide)
  let s₁ := s₀.goto (.verifyCurrent failingImpl)
  let s₂ := (updateHoudiniOutcome sameName.program failingImpl
    ⟨.invalid, [error]⟩ s₁).dequeue.goto .flushWorkList
  let s₃ := (updateHoudiniOutcome sameName.program emptyImpl ⟨.valid, []⟩
    s₂).dequeue
  have hget : sameName.getAssignmentWithStages (fun _ => true) =
      some (sameName.withStages [] (fun _ => true)) := rfl
  have hinvalid : useAnswer sameName failing ⟨.invalid, [error]⟩ s₁ = s₂ := rfl
  have hstep₁ : Step sameName (sameName.rightAnswers False) s₀ .internal s₁ :=
    Step.peek rfl rfl
  have hstep₂ : Step sameName (sameName.rightAnswers False) s₁
      (.answered failingImpl ⟨.invalid, [error]⟩) s₂ := by
    rw [← hinvalid]
    apply Step.verify rfl hfailing hget
    refine ⟨by simp, ?_⟩
    intro e he
    rw [List.mem_singleton.mp he, hfailingPassive]
    exact ⟨passiveAssert 3 Expr.falseExpr, List.mem_singleton.mpr rfl, rfl,
      failingPassive_refutes _⟩
  have hstep₃ : Step sameName (sameName.rightAnswers False) s₂
      (.answered emptyImpl ⟨.valid, []⟩) s₃ := by
    apply Step.flush rfl rfl hempty hget
    show sameName.program.Valid _
    rw [empty.vc_valid_iff, hemptyPassive]
    exact emptyPassive_verified _
  have hstep₄ : Step sameName (sameName.rightAnswers False) s₃ .internal
      (s₃.goto .outerLoop) :=
    Step.flushed rfl rfl
  have hstep₅ : Step sameName (sameName.rightAnswers False)
      (s₃.goto .outerLoop) .internal ((s₃.goto .outerLoop).goto .returned) :=
    Step.finish rfl rfl
  have hcorrect : ((s₃.goto .outerLoop).goto .returned).RecordedCorrect
      failingImpl :=
    ⟨_, rfl, rfl⟩
  refine ⟨s₀, _, sameName_initial, sameName_buildWorkList.symm,
    ((((Relation.ReflTransGen.refl.tail ⟨_, trivial, hstep₁⟩).tail
      ⟨_, trivial, hstep₂⟩).tail ⟨_, trivial, hstep₃⟩).tail
      ⟨_, trivial, hstep₄⟩).tail ⟨_, trivial, hstep₅⟩, rfl, hcorrect, ?_⟩
  intro hsound
  have hnot : failingImpl ∉
      ((s₃.goto .outerLoop).goto .returned).workQueue.queue := by
    show failingImpl ∉ []
    simp
  have hvalid := hsound failingImpl failing hfailing hnot hcorrect _ hget
  rw [failing.vc_valid_iff, hfailingPassive] at hvalid
  exact Program.not_verified_iff.mpr
    ⟨_, List.mem_singleton.mpr rfl, failingPassive_refutes _⟩ hvalid

end SameName

end Houdini

end Boogie
