import Boogie.Houdini.SearchInvariant
import Mathlib.Data.Prod.Lex
import Mathlib.Order.WellFounded

/-!
# The greatest inductive set

A run that meets no error other than those of candidates ends, and the
candidates left are the greatest inductive subset of the initial ones, so the
order of the worklist and the counterexamples do not matter.
-/

namespace Boogie

namespace Houdini

variable {H : Houdini} {prover : Prover H} {s s' s₀ : HoudiniState}
  {initial : Variable -> Bool} {impl : Implementation}

/-!
# A measure of runs

The candidates that are true and not about to be removed come first.  They do
not get more, and a refutation makes them fewer.  While errors are processed
their number counts; otherwise the length of the worklist does.
-/

def refutedConstants (p : Program) (impl : Implementation)
    (errors : List Counterexample) : List Variable :=
  errors.filterMap (fun error =>
    ( extractRefutedAnnotation p impl error).map RefutedAnnotation.constant)

def pendingConstants (p : Program) : Control -> List Variable
  | .refuting impl errors _ => refutedConstants p impl errors
  | .updatingAssignment impl r errors =>
    r.constant :: refutedConstants p impl errors
  | _ => []

def remaining (H : Houdini) (s : HoudiniState) : Finset Variable :=
  H.houdiniConstants.toFinset.filter (fun v =>
    s.assignment v = true ∧ v ∉ pendingConstants H.program s.control)

def phase : Control -> Nat
  | .refuting _ errors _ => 2 * errors.length + 1
  | .updatingAssignment _ _ errors => 2 * errors.length + 2
  | _ => 0

def place (s : HoudiniState) : Nat :=
  match s.control with
  | .outerLoop => 4 * s.workQueue.queue.length + 1
  | .verifyCurrent _ => 4 * s.workQueue.queue.length
  | .updatingUnsatCore _ => 4 * s.workQueue.queue.length - 1
  | _ => 0

def measure (H : Houdini) (s : HoudiniState) : Nat ×ₗ Nat ×ₗ Nat :=
  toLex ((remaining H s).card, toLex (phase s.control, place s))

theorem measure_lt_of_place (hremaining : remaining H s' = remaining H s)
    (hphase : phase s'.control = phase s.control)
    (hplace : place s' < place s) : measure H s' < measure H s := by
  rw [measure, measure, hremaining, hphase]
  simp [Prod.Lex.toLex_lt_toLex, hplace]

theorem measure_lt_of_phase (hremaining : remaining H s' = remaining H s)
    (hphase : phase s'.control < phase s.control) :
    measure H s' < measure H s := by
  rw [measure, measure, hremaining]
  simp [Prod.Lex.toLex_lt_toLex, hphase]

theorem measure_lt_of_remaining (h : remaining H s' ⊂ remaining H s) :
    measure H s' < measure H s := by
  simp [measure, Prod.Lex.toLex_lt_toLex, Finset.card_lt_card h]

theorem remaining_congr (hassignment : s'.assignment = s.assignment)
    (hpending : pendingConstants H.program s'.control = pendingConstants H.program s.control) :
    remaining H s' = remaining H s := by
  rw [remaining, remaining, hassignment, hpending]

theorem remaining_ssubset {c : Variable} (hassignment : s'.assignment = s.assignment)
    (hnone : pendingConstants H.program s.control = [])
    (hc : c ∈ H.houdiniConstants) (htrue : s.assignment c = true)
    (hpending : c ∈ pendingConstants H.program s'.control) :
    remaining H s' ⊂ remaining H s := by
  rw [Finset.ssubset_iff_of_subset]
  · refine ⟨c, ?_, ?_⟩
    · simp [remaining, hc, htrue, hnone]
    · simp [remaining, hpending]
  · intro v hv
    simp only [remaining, hassignment, Finset.mem_filter] at hv
    simp [remaining, List.mem_toFinset.mp hv.1, hv.2.1, hnone]

theorem measure_useAnswer_lt
    {session : HoudiniSession H.options H.program impl}
    {staged : Variable -> Option Bool} {answer : Answer}
    (hregular : H.Regular) (hsound : prover.Sound) (hdecides : prover.Decides)
    (hcontrol : s.control = .verifyCurrent impl) (hsession : H.houdiniSession impl = some session)
    (hget : H.getAssignmentWithStages s.assignment = some staged)
    (hanswer : prover.answers session staged answer)
    (hok : nonCandidateErrors H.program impl answer = []) (hworking : Working H s impl) :
    measure H (useAnswer H session answer s) < measure H s := by
  rcases hworking.head with ⟨impls, hqueue⟩
  have hplace : place s = 4 * (impls.length + 1) := by
    simp [place, hcontrol, hqueue]
  have hpending : pendingConstants H.program s.control = [] := by
    rw [hcontrol]
    rfl
  unfold useAnswer
  simp only [hok, ne_eq, not_true_eq_false, if_false]
  rcases hdecides.answer session staged answer hanswer with houtcome | houtcome
  · simp only [houtcome]
    split
    · apply measure_lt_of_place
      · apply remaining_congr
        · rfl
        · exact hpending.symm
      · rw [hcontrol]
        rfl
      · show 4 * s.workQueue.queue.length - 1 < place s
        rw [hplace, hqueue, List.length_cons]
        omega
    · apply measure_lt_of_place
      · apply remaining_congr
        · rfl
        · exact hpending.symm
      · rw [hcontrol]
        rfl
      · show 4 * s.workQueue.queue.tail.length + 1 < place s
        rw [hplace, hqueue, List.tail_cons]
        omega
  · rcases hsound.invalid session staged answer hanswer houtcome with
      ⟨hnonempty, herrors⟩
    rcases List.exists_mem_of_ne_nil _ hnonempty with ⟨error, herror⟩
    rcases herrors error herror with ⟨ac, hac, rfl, hrefutes⟩
    simp only [nonCandidateErrors, houtcome, List.filter_eq_nil_iff] at hok
    have hsome := hok _ herror
    rw [Option.isNone_iff_eq_none] at hsome
    rcases Option.ne_none_iff_exists'.mp hsome with ⟨r, hr⟩
    have hguard := matchCandidate_of_extract hac hr
    have hfails : H.FailsUnder (H.trueCandidates s.assignment) (impl, ac) :=
      ⟨session, staged, hsession, hac,
        getAssignment_trueCandidates.trans hget, hrefutes⟩
    have htrue : r.constant ∈ H.trueCandidates s.assignment :=
      hfails.guard_mem hregular.unstaged hguard
    simp only [houtcome]
    apply measure_lt_of_remaining
    apply remaining_ssubset (c := r.constant)
    · rfl
    · exact hpending
    · exact htrue.1
    · exact htrue.2
    · exact List.mem_filterMap.mpr ⟨_, herror, by rw [hr]; rfl⟩

theorem measure_refuteNext_lt {error : Counterexample}
    {errors : List Counterexample} {dequeue : Bool} (hregular : H.Regular)
    (hcontrol : s.control = .refuting impl (error :: errors) dequeue) :
    measure H (refuteNext H impl error errors dequeue s) < measure H s := by
  cases hr : extractRefutedAnnotation H.program impl error with
  | none =>
    have hnext : refuteNext H impl error errors dequeue s =
        s.goto (.refuting impl errors dequeue) := by
      simp [refuteNext, hr]
    rw [hnext]
    apply measure_lt_of_phase
    · apply remaining_congr
      · rfl
      · rw [hcontrol]
        simp [HoudiniState.goto, pendingConstants, refutedConstants, hr]
    · rw [hcontrol]
      simp [HoudiniState.goto, phase]
  | some r =>
    rcases hregular.findImplementationsToEnqueue (s := s) r with
      ⟨found, hfound, _⟩
    have hnext : refuteNext H impl error errors dequeue s =
        (found.foldl enqueueUnlessBlackListed s).goto
          (.updatingAssignment impl r errors) := by
      simp [refuteNext, hr, addRelatedToWorkList, hfound]
    rw [hnext]
    apply measure_lt_of_phase
    · apply remaining_congr
      · exact (foldl_enqueue_spec found s).1.assignment
      · rw [hcontrol]
        simp [HoudiniState.goto, pendingConstants, refutedConstants, hr]
    · rw [hcontrol]
      simp only [HoudiniState.goto, phase, List.length_cons]
      omega

theorem measure_updateAssignment_lt {r : RefutedAnnotation}
    {errors : List Counterexample} (hcontrol : s.control = .updatingAssignment impl r errors) :
    measure H ((s.falsify r.constant).goto (.refuting impl errors false)) < measure H s := by
  apply measure_lt_of_phase
  · ext v
    simp only [remaining, HoudiniState.goto, HoudiniState.falsify, hcontrol,
      pendingConstants, Finset.mem_filter, List.mem_cons]
    by_cases hv : v = r.constant <;> simp [hv]
  · rw [hcontrol]
    simp [HoudiniState.goto, phase]

theorem SearchInvariant.measure_lt {event : Event} (hregular : H.Regular)
    (hsound : prover.Sound) (hdecides : prover.Decides)
    (hok : CandidateErrorsOnly H event) (hstep : Step H prover s event s')
    (h : SearchInvariant H initial s) : measure H s' < measure H s := by
  have hcurrent := h.control
  cases hstep with
  | peek hcontrol hqueue =>
    apply measure_lt_of_place
    · exact remaining_congr rfl (by rw [hcontrol]; rfl)
    · rw [hcontrol]
      rfl
    · simp [place, HoudiniState.goto, hcontrol]
  | finish hcontrol hqueue =>
    apply measure_lt_of_place
    · exact remaining_congr rfl (by rw [hcontrol]; rfl)
    · rw [hcontrol]
      rfl
    · simp [place, HoudiniState.goto, hcontrol]
  | verify hcontrol hsession hget hanswer =>
    rw [hcontrol] at hcurrent
    exact measure_useAnswer_lt hregular hsound hdecides hcontrol hsession
      hget hanswer hok hcurrent
  | verifyNull hcontrol hnull =>
    rw [hcontrol] at hcurrent
    rcases hcurrent.head with ⟨impls, hqueue⟩
    apply measure_lt_of_place
    · exact remaining_congr rfl (by rw [hcontrol]; rfl)
    · rw [hcontrol]
      rfl
    · simp [place, HoudiniState.goto, hcontrol, hqueue]
  | unsatCore hcontrol hsession hcore =>
    rw [hcontrol] at hcurrent
    rcases hcurrent.1.head with ⟨impls, hqueue⟩
    apply measure_lt_of_place
    · exact remaining_congr rfl (by rw [hcontrol]; rfl)
    · rw [hcontrol]
      rfl
    · have hplace : place s = 4 * (impls.length + 1) - 1 := by
        simp [place, hcontrol, hqueue]
      show 4 * s.workQueue.queue.tail.length + 1 < place s
      rw [hplace, hqueue, List.tail_cons]
      omega
  | refute hcontrol => exact measure_refuteNext_lt hregular hcontrol
  | updateAssignment hcontrol => exact measure_updateAssignment_lt hcontrol
  | verifyAgain hcontrol =>
    apply measure_lt_of_phase
    · exact remaining_congr rfl (by rw [hcontrol]; rfl)
    · rw [hcontrol]
      simp [HoudiniState.goto, phase]
  | leave hcontrol =>
    rw [hcontrol] at hcurrent
    exact absurd rfl (hcurrent.2.2 rfl)
  | flush hcontrol =>
    rw [hcontrol] at hcurrent
    exact hcurrent.elim
  | flushNull hcontrol =>
    rw [hcontrol] at hcurrent
    exact hcurrent.elim
  | flushed hcontrol =>
    rw [hcontrol] at hcurrent
    exact hcurrent.elim

/-!
# Runs
-/

theorem SearchInvariant.exists_step (hregular : H.Regular)
    (hanswers : prover.Answers) (h : SearchInvariant H initial s)
    (hreturned : s.control ≠ .returned) :
    exists event s', Step H prover s event s' := by
  have hcurrent := h.control
  have hsessionOf : forall impl, (exists impls,
      s.workQueue.queue = impl :: impls) ->
        exists session, H.houdiniSession impl = some session := by
    intro impl ⟨impls, hqueue⟩
    exact hregular.session (h.queued impl (by simp [hqueue]))
  cases hcontrol : s.control with
  | outerLoop =>
    cases hqueue : s.workQueue.queue with
    | nil => exact ⟨_, _, Step.finish hcontrol hqueue⟩
    | cons impl impls => exact ⟨_, _, Step.peek hcontrol hqueue⟩
  | verifyCurrent impl =>
    rw [hcontrol] at hcurrent
    rcases hsessionOf impl hcurrent.head with ⟨session, hsession⟩
    rcases hregular.getAssignment s.assignment with ⟨staged, hget⟩
    rcases hanswers.answer session staged with ⟨answer, hanswer⟩
    exact ⟨_, _, Step.verify hcontrol hsession hget hanswer⟩
  | refuting impl errors dequeue =>
    cases errors with
    | cons error errors => exact ⟨_, _, Step.refute hcontrol⟩
    | nil =>
      cases dequeue with
      | true => exact ⟨_, _, Step.leave hcontrol⟩
      | false => exact ⟨_, _, Step.verifyAgain hcontrol⟩
  | updatingAssignment impl r errors =>
    exact ⟨_, _, Step.updateAssignment hcontrol⟩
  | updatingUnsatCore impl =>
    rw [hcontrol] at hcurrent
    rcases hsessionOf impl hcurrent.1.head with ⟨session, hsession⟩
    rcases hanswers.core session s.assignment with ⟨outcome, core, hcore⟩
    exact ⟨_, _, Step.unsatCore hcontrol hsession hcore⟩
  | returned => exact absurd hcontrol hreturned
  | flushWorkList =>
    rw [hcontrol] at hcurrent
    exact hcurrent.elim
  | nullReference =>
    rw [hcontrol] at hcurrent
    exact hcurrent.elim

theorem SearchInvariant.isGreatest (hp : H.program.CandidatesGuard)
    (hregular : H.Regular) (h : SearchInvariant H initial s) (hreturned : s.control = .returned) :
    IsGreatest {S | S ⊆ H.trueCandidates initial ∧ H.InductiveSet S}
      (H.trueCandidates s.assignment) := by
  have hcurrent := h.control
  rw [hreturned] at hcurrent
  have hinductive : H.InductiveSet (H.trueCandidates s.assignment) := by
    intro impl session hsession staged hget
    rw [getAssignment_trueCandidates] at hget
    exact (hcurrent.2 impl session hsession (by simp [hcurrent.1])
      trivial).validUnder staged hget
  have hgreatest := Refutation.System.isGreatest
    (M := H.refutation hp hregular.unstaged)
    (refutation_inductive.mpr hinductive) h.shrunk
    (fun S hsub hS => h.kept S hsub (refutation_inductive.mp hS))
  simpa only [refutation_inductive] using hgreatest

theorem Reaches.searchInvariant (hp : H.program.CandidatesGuard)
    (hregular : H.Regular) (hsound : prover.Sound) (hdecides : prover.Decides)
    (hinit : H.Initial initial s₀)
    (hreach : H.Reaches prover (fun _ => CandidateErrorsOnly H) s₀ s) :
    SearchInvariant H initial s := by
  induction hreach with
  | refl => exact hinit.searchInvariant hregular
  | tail _ hstep ih =>
    rcases hstep with ⟨event, hok, hstep⟩
    exact ih.step hp hregular hsound hdecides hok hstep

/--
For a regular program and a prover that decides and answers each query, no run
that meets only errors of candidates goes on forever or gets stuck; throughout
the run every inductive subset of the initial candidates stays true; and the
candidates left on exit are the greatest such subset, whatever the order of the
worklist and the answers of the prover.
-/
theorem houdini_greatest_inductive (hp : H.program.CandidatesGuard)
    (hsound : prover.Sound) (hdecides : prover.Decides)
    (hanswers : prover.Answers) (hregular : H.Regular) (hinit : H.Initial initial s₀) :
    (¬ exists run : Nat -> HoudiniState, run 0 = s₀ ∧
      forall n, exists event, CandidateErrorsOnly H event ∧
        Step H prover (run n) event (run (n + 1))) ∧
    forall s, H.Reaches prover (fun _ => CandidateErrorsOnly H) s₀ s ->
      (s.control ≠ .returned -> exists event s', Step H prover s event s') ∧
      (forall S, S ⊆ H.trueCandidates initial -> H.InductiveSet S ->
        S ⊆ H.trueCandidates s.assignment) ∧ (s.control = .returned ->
        IsGreatest {S | S ⊆ H.trueCandidates initial ∧ H.InductiveSet S}
            (H.trueCandidates s.assignment) ∧ forall (prover' : Prover H) (t₀ t : HoudiniState),
            prover'.Sound -> prover'.Decides -> H.Initial initial t₀ ->
            H.Reaches prover' (fun _ => CandidateErrorsOnly H) t₀ t -> t.control = .returned ->
              H.trueCandidates t.assignment = H.trueCandidates s.assignment) := by
  constructor
  · rintro ⟨run, hstart, hrun⟩
    have hreach : forall n,
        H.Reaches prover (fun _ => CandidateErrorsOnly H) s₀ (run n) := by
      intro n
      induction n with
      | zero =>
        rw [hstart]
        exact Relation.ReflTransGen.refl
      | succ n ih => exact Relation.ReflTransGen.tail ih (hrun n)
    rcases WellFounded.not_rel_apply_succ (r := (· < ·))
      (fun n => measure H (run n)) with ⟨n, hn⟩
    rcases hrun n with ⟨event, hok, hstep⟩
    have hinvariant :=
      Reaches.searchInvariant hp hregular hsound hdecides hinit (hreach n)
    exact hn (hinvariant.measure_lt hregular hsound hdecides hok hstep)
  · intro s hreach
    have hinvariant :=
      Reaches.searchInvariant hp hregular hsound hdecides hinit hreach
    refine ⟨hinvariant.exists_step hregular hanswers, hinvariant.kept, ?_⟩
    intro hreturned
    have hgreatest := hinvariant.isGreatest hp hregular hreturned
    refine ⟨hgreatest, ?_⟩
    intro prover' t₀ t hsound' hdecides' hinit' hreach' hreturned'
    have hinvariant' :=
      Reaches.searchInvariant hp hregular hsound' hdecides' hinit' hreach'
    exact (hinvariant'.isGreatest hp hregular hreturned').unique hgreatest

theorem callerAndCallee_regular : callerAndCallee.Regular where
  generated := by
    intro impl himpl
    rw [callerAndCallee_verified] at himpl
    rcases List.mem_cons.mp himpl with rfl | himpl
    · rfl
    · rw [List.mem_singleton.mp himpl]
      rfl
  unstaged := fun v _ => callerAndCallee_noStages.unstaged v
  stages := fun _ c hc => (callerAndCallee_noStages c hc).2
  cores := fun _ => callerAndCallee_noStages
  dependencies := fun hoption => absurd hoption (by decide)

/-- At the end of a run in which both implementations verify, the candidate is left. -/
theorem houdini_greatest_inductive_callerReturned :
    callerReturned.control = .returned ∧
      IsGreatest {S | S ⊆ callerAndCallee.trueCandidates (fun _ => true) ∧
          callerAndCallee.InductiveSet S}
        (callerAndCallee.trueCandidates callerReturned.assignment) := by
  have hinit : callerAndCallee.Initial (fun _ => true)
      (callerAndCallee.start [callee, caller] (by decide)) :=
    callerAndCallee_initial (by simp)
  have hruns := (houdini_greatest_inductive callProgram_guard
    (rightAnswers_sound _ False) (rightAnswers_decides _)
    (rightAnswers_answers _ _) callerAndCallee_regular hinit).2
  have hreached : callerAndCallee.Reaches (callerAndCallee.rightAnswers False)
      (fun _ => CandidateErrorsOnly callerAndCallee)
      (callerAndCallee.start [callee, caller] (by decide)) callerReturned :=
    callerReturned_reached False (fun _ => trivial) (fun _ _ => rfl)
  exact ⟨rfl, ((hruns callerReturned hreached).2.2 rfl).1⟩

/-!
# An implementation without a formula

When a postcondition is refuted, the sessions of all callers are looked up.  A
caller whose formula could not be generated has none, and the inference fails
there although such a caller is never put on the worklist.
-/

section CallerWithoutFormula

/-- `implementation P() { }` -/
def ensuringImpl : Implementation where
  uniqueId := 4
  name := "P"
  blocks := [emptyBlock]
  skipVerification := false

def irreducibleBlocks : List Block :=
  [⟨7, "start", [], .gotoCmd [8, 9]⟩,
    ⟨8, "left", [.callCmd ⟨"P", [], []⟩], .gotoCmd [9]⟩,
    ⟨9, "right", [], .gotoCmd [8]⟩]

/-- `implementation X()`, which calls `P` in an irreducible loop. -/
def irreducibleImpl : Implementation where
  uniqueId := 6
  name := "X"
  blocks := irreducibleBlocks
  skipVerification := false

/-- `procedure P(); ensures c ==> false;` and `procedure X();` -/
def ensuresProgram : Program where
  constants := [candidate]
  axioms := []
  procedures :=
    [⟨"P", [], [⟨false, guarded Expr.falseExpr⟩]⟩, ⟨"X", [], []⟩]
  implementations := [ensuringImpl, irreducibleImpl]

def ensuresAssert : AssertCmd where
  uniqueId := 3
  expr := guarded Expr.falseExpr
  attributes := []
  kind := .assertEnsuresCmd (guarded Expr.falseExpr)
  origExpr := some (guarded Expr.falseExpr)

def ensuringPassiveBlock : Block where
  uniqueId := 5
  label := "start"
  cmds := [.assertCmd ensuresAssert]
  transferCmd := .returnCmd

theorem mem_ensuresProgram_constants {c : Variable} :
    c ∈ ensuresProgram.houdiniConstants <-> c = candidate.variable := by
  have h : ensuresProgram.houdiniConstants = [candidate.variable] := by decide
  rw [h, List.mem_singleton]

theorem ensures_matchCandidate :
    ensuresProgram.matchCandidate (guarded Expr.falseExpr) = some candidate.variable := by
  decide

theorem ensuresProgram_annotates {e : Expr} {site : Site} (h : ensuresProgram.Annotates e site) :
    site = .ensuresOf "P" ∧ e = guarded Expr.falseExpr := by
  cases site with
  | requiresOf proc =>
    rcases h with ⟨decl, hdecl, rfl, r, hr, rfl⟩
    simp only [ensuresProgram, List.mem_cons, List.not_mem_nil, or_false]
      at hdecl
    rcases hdecl with rfl | rfl <;> cases hr
  | ensuresOf proc =>
    rcases h with ⟨decl, hdecl, rfl, r, hr, rfl⟩
    simp only [ensuresProgram, List.mem_cons, List.not_mem_nil, or_false]
      at hdecl
    rcases hdecl with rfl | rfl
    · rw [List.mem_singleton.mp hr]
      exact ⟨rfl, rfl⟩
    · cases hr
  | bodyOf impl =>
    rcases h with ⟨himpl, b, hb, cmd, hcmd, he⟩
    simp only [ensuresProgram, List.mem_cons, List.not_mem_nil, or_false]
      at himpl
    rcases himpl with rfl | rfl
    · rw [List.mem_singleton.mp hb] at hcmd
      cases hcmd
    · simp only [irreducibleImpl, irreducibleBlocks, List.mem_cons,
        List.not_mem_nil, or_false] at hb
      rcases hb with rfl | rfl | rfl
      · cases hcmd
      · rw [List.mem_singleton.mp hcmd] at he
        cases he
      · cases hcmd

theorem ensures_mentions {x : Variable}
    (h : (guarded Expr.falseExpr).Mentions x) : x = candidate.variable := by
  rcases guarded_mentions.mp h with h | h
  · exact h
  · cases h

theorem ensures_resolves :
    ensuresProgram.Resolves (guarded Expr.falseExpr) := by
  intro c hc x hx _ _
  rw [ensures_mentions hx, mem_ensuresProgram_constants.mp hc]

theorem ensuresProgram_guard : ensuresProgram.CandidatesGuard where
  guarded := by
    intro e site h c hc _
    rw [(ensuresProgram_annotates h).2, ensures_matchCandidate,
      mem_ensuresProgram_constants.mp hc]
  single := by
    intro c _ e e' site site' h h' _ _
    rw [(ensuresProgram_annotates h).1, (ensuresProgram_annotates h').1]
  resolved := by
    intro e site h
    rw [(ensuresProgram_annotates h).2]
    exact ensures_resolves
  axioms := by
    intro c _ e he
    cases he

def ensuringPassive : PassifiedImpl ensuresProgram ensuringImpl where
  passive := PassiveProgram.single ensuringPassiveBlock (by decide) rfl
    (by decide) (by decide)
  resolves := by
    intro cmd hcmd e he
    rw [List.mem_singleton.mp hcmd] at he
    cases he
    exact ensures_resolves
  asserts := by
    intro ac hac
    cases List.mem_singleton.mp hac
    refine ⟨.ensuresOf "P", guarded Expr.falseExpr, rfl, rfl, ?_, ?_⟩
    · exact ⟨_, List.mem_cons_self, rfl, _, List.mem_cons_self, rfl⟩
    · exact ⟨fun c hc => Iff.rfl, rfl⟩
  assumes := by
    intro ac hac
    cases List.mem_singleton.mp hac

def callerWithoutFormula : Houdini where
  program := ensuresProgram
  options := defaultHoudiniOptions
  vcgen := fun impl =>
    if h : impl = ensuringImpl then some (h ▸ ensuringPassive) else none
  crossDependencies := fun _ => []
  stage := 0
  completedStages := none

theorem callerWithoutFormula_initial :
    callerWithoutFormula.Initial (fun _ => true)
      (callerWithoutFormula.start [ensuringImpl] (by decide)) := by
  apply start_initial
  intro impl
  have hverified : callerWithoutFormula.program.verified =
      [ensuringImpl, irreducibleImpl] := by
    decide
  rw [hverified, List.mem_singleton]
  constructor
  · rintro rfl
    exact ⟨List.mem_cons_self, rfl⟩
  · intro ⟨himpl, hvcgen⟩
    rcases List.mem_cons.mp himpl with rfl | himpl
    · rfl
    · cases List.mem_singleton.mp himpl
      cases hvcgen

theorem ensuringPassive_refutes {assignment : Variable -> Option Bool}
    (h : assignment candidate.variable = some true) :
    ensuresProgram.Refutes ensuringPassive.passive assignment ensuresAssert := by
  refine ⟨Unit, inferInstance, VCGen.falseContext, fun _ => .bool true, ?_, ?_, ?_⟩
  · intro e he
    cases he
  · intro c hc b hb
    have hc' : c = candidate.variable := List.mem_singleton.mp hc
    subst hc'
    rw [h] at hb
    cases hb
    rfl
  · have hfalse : ¬ VCGen.falseContext.Holds (fun _ => .bool true) ensuresAssert.expr := by
      intro hholds
      have hconsequent := holds_guarded.mp hholds rfl
      simp [Context.Holds, Expr.Holds, Expr.falseExpr,
        Literal.value] at hconsequent
    exact Falsifies.cmds (b := ensuringPassiveBlock)
      (List.mem_singleton.mpr rfl) (List.nil_append _).symm (CmdsRun.nil _)
      hfalse

/--
A run with a right prover, in which every error is that of a candidate, can
fail with a candidate true that is in no inductive set.
-/
theorem callerWithoutFormula_fails :
    callerWithoutFormula.program.CandidatesGuard ∧ (callerWithoutFormula.rightAnswers False).Sound ∧
      (callerWithoutFormula.rightAnswers False).Decides ∧
      (callerWithoutFormula.rightAnswers False).Answers ∧
      exists s₀ s, callerWithoutFormula.Initial (fun _ => true) s₀ ∧
        callerWithoutFormula.Reaches (callerWithoutFormula.rightAnswers False)
          (fun _ => CandidateErrorsOnly callerWithoutFormula) s₀ s ∧ s.control = .nullReference ∧
        ¬ callerWithoutFormula.InductiveSet (callerWithoutFormula.trueCandidates s.assignment) := by
  refine ⟨ensuresProgram_guard, rightAnswers_sound _ _,
    rightAnswers_decides _, rightAnswers_answers _ _, ?_⟩
  have hensuring : exists session,
      callerWithoutFormula.houdiniSession ensuringImpl = some session ∧
        session.passified = ensuringPassive :=
    houdiniSession_of_vcgen (by decide) rfl
  rcases hensuring with ⟨session, hsession, hpassified⟩
  let error := assertCmdToCounterexample ensuresAssert
  let s₀ := callerWithoutFormula.start [ensuringImpl] (by decide)
  let s₁ := s₀.goto (.verifyCurrent ensuringImpl)
  let s₂ := (updateHoudiniOutcome ensuresProgram ensuringImpl
    ⟨.invalid, [error]⟩ s₁).goto (.refuting ensuringImpl [error] true)
  let s₃ := s₂.goto .nullReference
  have hget : callerWithoutFormula.getAssignmentWithStages (fun _ => true) =
      some (callerWithoutFormula.withStages [] (fun _ => true)) := rfl
  have htrue : callerWithoutFormula.withStages [] (fun _ => true)
      candidate.variable = some true := by
    decide
  have hrefutes := ensuringPassive_refutes htrue
  have hinvalid : useAnswer callerWithoutFormula session
      ⟨.invalid, [error]⟩ s₁ = s₂ := rfl
  have hnull : refuteNext callerWithoutFormula ensuringImpl error [] true
      s₂ = s₃ := by
    rfl
  have hstep₁ : Step callerWithoutFormula
      (callerWithoutFormula.rightAnswers False) s₀ .internal s₁ :=
    Step.peek rfl rfl
  have hstep₂ : Step callerWithoutFormula
      (callerWithoutFormula.rightAnswers False) s₁
      (.answered ensuringImpl ⟨.invalid, [error]⟩) s₂ := by
    rw [← hinvalid]
    apply Step.verify rfl hsession hget
    refine ⟨by simp, ?_⟩
    intro e he
    rw [List.mem_singleton.mp he, hpassified]
    exact ⟨ensuresAssert, List.mem_singleton.mpr rfl, rfl, hrefutes⟩
  have hstep₃ : Step callerWithoutFormula
      (callerWithoutFormula.rightAnswers False) s₂ .internal s₃ := by
    rw [← hnull]
    exact Step.refute rfl
  have hinternal : CandidateErrorsOnly callerWithoutFormula .internal := trivial
  have hanswered : CandidateErrorsOnly callerWithoutFormula
      (.answered ensuringImpl ⟨.invalid, [error]⟩) := rfl
  refine ⟨s₀, s₃, callerWithoutFormula_initial,
    ((Relation.ReflTransGen.refl.tail ⟨_, hinternal, hstep₁⟩).tail
      ⟨_, hanswered, hstep₂⟩).tail ⟨_, hinternal, hstep₃⟩, rfl, ?_⟩
  intro hinductive
  have hvalid := hinductive ensuringImpl session hsession _
    (getAssignment_trueCandidates.trans hget)
  rw [session.vc_valid_iff, hpassified] at hvalid
  exact Program.not_verified_iff.mpr
    ⟨_, List.mem_singleton.mpr rfl, hrefutes⟩ hvalid

end CallerWithoutFormula

end Houdini

end Boogie
