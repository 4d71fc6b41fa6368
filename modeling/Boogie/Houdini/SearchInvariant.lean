import Boogie.Houdini.InductiveSets
import Boogie.Houdini.WorklistSound

/-!
# The search for the greatest inductive set

In a run that meets no error of another kind the candidates that are removed
are in no inductive set, and what is off the worklist is stable.
-/

namespace Boogie

namespace Houdini

variable {H : Houdini} {prover : Prover H} {s s' : HoudiniState}
  {initial : Variable -> Bool} {impl other : Implementation}

/-!
# Regular programs
-/

/--
Every implementation to verify has a formula, no candidate is staged, and the
options that look at stages and dependencies find what they need.
-/
structure Regular (H : Houdini) : Prop where
  generated : forall impl, impl ∈ H.program.verified ->
    (H.vcgen impl).isSome = true
  unstaged : forall v, v ∈ H.houdiniConstants -> H.Unstaged v
  stages : H.completedStages = none ->
    forall c, c ∈ H.program.constants -> c.stageComplete = -1
  cores : H.options.useUnsatCoreForContractInfer = true -> H.NoStages
  dependencies : H.options.houdiniUseCrossDependencies = true ->
    forall name impl, impl ∈ H.crossDependencies name ->
      impl ∈ H.program.verified

theorem Regular.session (h : H.Regular) (hmem : impl ∈ H.program.verified) :
    exists session, H.houdiniSession impl = some session :=
  Option.isSome_iff_exists.mp
    (houdiniSession_isSome.mpr ⟨hmem, h.generated impl hmem⟩)

theorem Regular.getAssignment (h : H.Regular) (assignment : Variable -> Bool) :
    exists staged, H.getAssignmentWithStages assignment = some staged := by
  unfold getAssignmentWithStages
  cases hcompleted : H.completedStages with
  | some completed => exact ⟨_, rfl⟩
  | none =>
    have hall : H.program.constants.all
        (fun c => c.stageComplete = -1) = true := by
      apply List.all_eq_true.mpr
      intro c hc
      simp [h.stages hcompleted c hc]
    simp only [hall, if_true]
    exact ⟨_, rfl⟩

theorem Regular.inCore (h : H.Regular) {v : Variable}
    {test : Implementation -> Bool} {impls : List Implementation}
    (hmem : forall impl, impl ∈ impls -> impl ∈ H.program.verified) :
    exists found, inCore H s v test impls = some found ∧
      forall impl, impl ∈ found -> impl ∈ H.program.verified := by
  induction impls with
  | nil => exact ⟨[], rfl, by simp⟩
  | cons impl impls ih =>
    rcases ih (fun i hi => hmem i (by simp [hi])) with
      ⟨found, hfound, hverified⟩
    have himpl := hmem impl (by simp)
    unfold Houdini.inCore
    split
    · rcases h.session himpl with ⟨session, hsession⟩
      rw [hsession, hfound]
      refine ⟨_, rfl, ?_⟩
      intro other hother
      split at hother
      · rcases List.mem_cons.mp hother with rfl | hother
        · exact himpl
        · exact hverified other hother
      · exact hverified other hother
    · exact ⟨found, hfound, hverified⟩

theorem Regular.findImplementationsToEnqueue (h : H.Regular) (r : RefutedAnnotation) :
    exists found, findImplementationsToEnqueue H s r = some found ∧
      forall impl, impl ∈ found -> impl ∈ H.program.verified := by
  unfold Houdini.findImplementationsToEnqueue
  split
  · apply h.inCore
    intro impl himpl
    exact (Program.buildCallGraph_edge.mp (Graph.mem_successors.mp himpl)).2.1
  · apply h.inCore
    intro impl himpl
    exact (Program.buildCallGraph_edge.mp (Graph.mem_predecessors.mp himpl)).1
  · split
    · rename_i hoption
      exact h.inCore (h.dependencies hoption _)
    · exact ⟨[], rfl, by simp⟩

/-!
# The invariant of the search
-/

def Doomed (H : Houdini) (initial : Variable -> Bool) (v : Variable) : Prop :=
  forall S, S ⊆ H.trueCandidates initial -> H.InductiveSet S -> v ∉ S

def RefutedErrors (H : Houdini) (initial : Variable -> Bool)
    (impl : Implementation) (errors : List Counterexample) : Prop :=
  forall error, error ∈ errors -> exists session ac r,
    H.houdiniSession impl = some session ∧
      .assertCmd ac ∈ session.passified.passive.cmds ∧
      error = assertCmdToCounterexample ac ∧
      extractRefutedAnnotation H.program impl error = some r ∧
      H.Doomed initial r.constant

/-- `impl` is being verified and the others off the worklist are stable. -/
structure Working (H : Houdini) (s : HoudiniState) (impl : Implementation) :
    Prop where
  head : exists impls, s.workQueue.queue = impl :: impls
  stable : StableOff H s (fun _ => True)

def SearchOk (H : Houdini) (initial : Variable -> Bool) (s : HoudiniState) :
    Control -> Prop
  | .outerLoop => StableOff H s (fun _ => True)
  | .verifyCurrent impl => Working H s impl
  | .refuting impl errors dequeue => Working H s impl ∧
      RefutedErrors H initial impl errors ∧ (dequeue = true -> errors ≠ [])
  | .updatingAssignment impl r errors => Working H s impl ∧
      RefutedErrors H initial impl errors ∧
      r.constant ∈ H.houdiniConstants ∧ H.Doomed initial r.constant ∧
      UnusedOff H s (fun _ => True) r.constant
  | .updatingUnsatCore impl => Working H s impl ∧
      H.options.useUnsatCoreForContractInfer = true ∧
      forall session, H.houdiniSession impl = some session ->
        ValidUnder H session s.assignment
  | .returned => s.workQueue.queue = [] ∧ StableOff H s (fun _ => True)
  | .flushWorkList => False
  | .nullReference => False

structure SearchInvariant (H : Houdini) (initial : Variable -> Bool)
    (s : HoudiniState) : Prop where
  blackList : s.blackList = []
  noCores : H.options.useUnsatCoreForContractInfer = false ->
    s.unsatCoreSet = fun _ => none
  queued : forall impl, impl ∈ s.workQueue.queue -> impl ∈ H.program.verified
  kept : forall S, S ⊆ H.trueCandidates initial -> H.InductiveSet S ->
    S ⊆ H.trueCandidates s.assignment
  shrunk : H.trueCandidates s.assignment ⊆ H.trueCandidates initial
  control : SearchOk H initial s s.control

def CandidateErrorsOnly (H : Houdini) : Event -> Prop
  | .answered impl answer => nonCandidateErrors H.program impl answer = []
  | _ => True

theorem doomed_of_refutes (hp : H.program.CandidatesGuard)
    (hunstaged : forall v, v ∈ H.houdiniConstants -> H.Unstaged v)
    {session : HoudiniSession H.options H.program impl}
    {staged : Variable -> Option Bool} {ac : AssertCmd} {c : Variable}
    (hkept : forall S, S ⊆ H.trueCandidates initial -> H.InductiveSet S ->
      S ⊆ H.trueCandidates s.assignment) (hsession : H.houdiniSession impl = some session)
    (hac : .assertCmd ac ∈ session.passified.passive.cmds)
    (hget : H.getAssignmentWithStages s.assignment = some staged)
    (hrefutes : H.program.Refutes session.passified.passive staged ac)
    (hguard : H.program.matchCandidate ac.expr = some c) :
    H.Doomed initial c := by
  intro S hsub hS
  have hfails : H.FailsUnder (H.trueCandidates s.assignment) (impl, ac) :=
    ⟨session, staged, hsession, hac,
      getAssignment_trueCandidates.trans hget, hrefutes⟩
  exact Refutation.System.Inductive.not_mem
    (M := H.refutation hp hunstaged) (refutation_inductive.mpr hS)
    (hkept S hsub hS) hfails hguard

theorem matchCandidate_of_extract
    {session : HoudiniSession H.options H.program impl} {ac : AssertCmd}
    {r : RefutedAnnotation} (hac : .assertCmd ac ∈ session.passified.passive.cmds)
    (hr : extractRefutedAnnotation H.program impl (assertCmdToCounterexample ac) = some r) :
    H.program.matchCandidate ac.expr = some r.constant := by
  rcases extract_annotation hr with ⟨site, source, hmade, hmatch, _⟩
  rcases session.passified.asserts ac hac with
    ⟨site', source', hmade', _, _, hsame⟩
  rw [hmade] at hmade'
  cases hmade'
  rw [hsame.matched, hmatch]

theorem Initial.searchInvariant (h : H.Initial initial s)
    (hregular : H.Regular) : SearchInvariant H initial s where
  blackList := by
    rw [h.blackList]
    have hnone : H.vcgenFailures = [] := by
      apply List.filter_eq_nil_iff.mpr
      intro impl himpl
      rcases hregular.session (Program.mem_buildCallGraph_ns.mp himpl) with
        ⟨session, hsession⟩
      simp [hsession]
    rw [hnone]
    rfl
  noCores := fun _ => h.cores
  queued := by
    intro impl himpl
    exact (houdiniSession_isSome.mp ((h.workQueue impl).mp himpl)).1
  kept := by
    intro S hsub _
    rwa [h.assignment]
  shrunk := by rw [h.assignment]
  control := by
    rw [h.control]
    intro impl session hsession hnot _
    exact absurd ((h.workQueue impl).mpr (by rw [hsession]; rfl)) hnot

/-!
# Steps
-/

theorem SearchInvariant.goto {control : Control} (h : SearchInvariant H initial s)
    (hcontrol : SearchOk H initial (s.goto control) control) :
    SearchInvariant H initial (s.goto control) where
  blackList := h.blackList
  noCores := h.noCores
  queued := h.queued
  kept := h.kept
  shrunk := h.shrunk
  control := hcontrol

theorem Working.goto {control : Control} (h : Working H s impl) :
    Working H (s.goto control) impl :=
  ⟨h.head, h.stable.goto⟩

theorem SearchInvariant.dequeue_goto (h : SearchInvariant H initial s)
    {control : Control} (hcontrol : SearchOk H initial (s.dequeue.goto control) control) :
    SearchInvariant H initial (s.dequeue.goto control) where
  blackList := h.blackList
  noCores := h.noCores
  queued := fun other hother => h.queued other (List.mem_of_mem_tail hother)
  kept := h.kept
  shrunk := h.shrunk
  control := hcontrol

theorem SearchInvariant.update (answer : Answer)
    (h : SearchInvariant H initial s) (hworking : Working H s impl)
    (hcontrol : s.control = .verifyCurrent impl) :
    SearchInvariant H initial (updateHoudiniOutcome H.program impl answer s) ∧
      Working H (updateHoudiniOutcome H.program impl answer s) impl := by
  have hstable : StableOff H (updateHoudiniOutcome H.program impl answer s)
      (fun _ => True) := by
    intro other session hsession hnot hwho
    exact (hworking.stable other session hsession hnot hwho).congr rfl rfl
  refine ⟨⟨h.blackList, h.noCores, h.queued, h.kept, h.shrunk, ?_⟩,
    hworking.head, hstable⟩
  show SearchOk H initial _ s.control
  rw [hcontrol]
  exact ⟨hworking.head, hstable⟩

theorem SearchInvariant.useAnswer
    {session : HoudiniSession H.options H.program impl}
    {staged : Variable -> Option Bool} {answer : Answer}
    (hp : H.program.CandidatesGuard) (hregular : H.Regular)
    (hsound : prover.Sound) (hdecides : prover.Decides) (hcontrol : s.control = .verifyCurrent impl)
    (hsession : H.houdiniSession impl = some session)
    (hget : H.getAssignmentWithStages s.assignment = some staged)
    (hanswer : prover.answers session staged answer)
    (hok : nonCandidateErrors H.program impl answer = []) (h : SearchInvariant H initial s) :
    SearchInvariant H initial (useAnswer H session answer s) := by
  have hworking := h.control
  rw [hcontrol] at hworking
  have hupdate := h.update answer hworking hcontrol
  rcases hworking.head with ⟨impls, hqueue⟩
  unfold Houdini.useAnswer
  simp only [hok, ne_eq, not_true_eq_false, if_false]
  rcases hdecides.answer session staged answer hanswer with houtcome | houtcome
  · have hvalid : forall session', H.houdiniSession impl = some session' ->
        ValidUnder H session' s.assignment := by
      intro session' hsession' staged' hget'
      rw [hsession] at hsession'
      cases hsession'
      rw [hget] at hget'
      cases hget'
      exact hsound.valid session staged answer hanswer houtcome
    simp only [houtcome]
    split
    · rename_i hoption
      exact hupdate.1.goto ⟨hupdate.2.goto, hoption, hvalid⟩
    · rename_i hoption
      have hnone := hupdate.1.noCores (by simpa using hoption)
      apply hupdate.1.dequeue_goto
      apply StableOff.goto
      apply hupdate.2.stable.dequeue hqueue
      intro session' hsession' _
      exact stable_of_no_core (congrFun hnone impl) (hvalid session' hsession')
  · rcases hsound.invalid session staged answer hanswer houtcome with
      ⟨hnonempty, herrors⟩
    simp only [houtcome]
    refine hupdate.1.goto ⟨hupdate.2.goto, ?_, fun _ => hnonempty⟩
    intro error herror
    rcases herrors error herror with ⟨ac, hac, rfl, hrefutes⟩
    simp only [nonCandidateErrors, houtcome, List.filter_eq_nil_iff] at hok
    have hsome := hok _ herror
    rw [Option.isNone_iff_eq_none] at hsome
    rcases Option.ne_none_iff_exists'.mp hsome with ⟨r, hr⟩
    exact ⟨session, ac, r, hsession, hac, rfl, hr,
      doomed_of_refutes hp hregular.unstaged h.kept hsession hac hget hrefutes
        (matchCandidate_of_extract hac hr)⟩

theorem SearchInvariant.refuteNext {error : Counterexample}
    {errors : List Counterexample} {dequeue : Bool}
    (hp : H.program.CandidatesGuard) (hregular : H.Regular)
    (hcontrol : s.control = .refuting impl (error :: errors) dequeue)
    (h : SearchInvariant H initial s) :
    SearchInvariant H initial (refuteNext H impl error errors dequeue s) := by
  have hcurrent := h.control
  rw [hcontrol] at hcurrent
  rcases hcurrent with ⟨hworking, herrors, _⟩
  rcases hworking.head with ⟨impls, hqueue⟩
  rcases herrors error (by simp) with
    ⟨session, ac, r, hsession, hac, rfl, hr, hdoomed⟩
  rcases hregular.findImplementationsToEnqueue (s := s) r with
    ⟨found, hfound, hverified⟩
  have hspec := foldl_enqueue_spec found s
  have hsame := hspec.1
  have hconstant : r.constant ∈ H.houdiniConstants :=
    (Program.name_of_matchCandidate (matchCandidate_of_extract hac hr)).2
  unfold Houdini.refuteNext
  simp only [hr, addRelatedToWorkList, hfound]
  have hqueued : forall other,
      other ∈ (found.foldl enqueueUnlessBlackListed s).workQueue.queue ->
        other ∈ H.program.verified := by
    intro other hother
    rcases mem_of_mem_foldl_enqueue hother with hmem | hmem
    · exact h.queued other hmem
    · exact hverified other hmem
  have hunused : UnusedOff H (found.foldl enqueueUnlessBlackListed s)
      (fun _ => True) r.constant := by
    intro other session' hsession' hnot _ hdepends
    rcases mem_findImplementationsToEnqueue hp
      (mem_callGraph_of_session hsession) hsession' hac hr hfound
      (hdepends.of_cores hsame.cores) with ⟨_, rfl⟩ | ⟨_, hmem⟩
    · exact hnot (hsame.subset other (by simp [hqueue]))
    · exact hnot (hspec.2 other hmem (by simp [h.blackList]))
  refine ⟨?_, ?_, hqueued, ?_, ?_, ?_⟩
  · exact hsame.blackList.trans h.blackList
  · intro hoption
    exact hsame.cores.trans (h.noCores hoption)
  · intro S hsub hS
    show S ⊆ H.trueCandidates (found.foldl enqueueUnlessBlackListed s).assignment
    rw [hsame.assignment]
    exact h.kept S hsub hS
  · show H.trueCandidates (found.foldl enqueueUnlessBlackListed s).assignment ⊆ _
    rw [hsame.assignment]
    exact h.shrunk
  · exact ⟨⟨hsame.head impl impls hqueue, (hworking.stable.enqueue hsame).goto⟩,
      fun e he => herrors e (List.mem_cons_of_mem _ he), hconstant, hdoomed,
      hunused⟩

theorem trueCandidates_falsify {v : Variable} :
    H.trueCandidates (s.falsify v).assignment = H.trueCandidates s.assignment \ {v} := by
  ext w
  simp only [Set.mem_sdiff, Set.mem_singleton_iff, mem_trueCandidates,
    HoudiniState.falsify]
  by_cases hw : w = v <;> simp [hw]

theorem SearchInvariant.updateAssignment {r : RefutedAnnotation}
    {errors : List Counterexample} (hp : H.program.CandidatesGuard)
    (hcontrol : s.control = .updatingAssignment impl r errors) (h : SearchInvariant H initial s) :
    SearchInvariant H initial ((s.falsify r.constant).goto (.refuting impl errors false)) := by
  have hcurrent := h.control
  rw [hcontrol] at hcurrent
  rcases hcurrent with ⟨hworking, herrors, hconstant, hdoomed, hunused⟩
  refine ⟨h.blackList, h.noCores, h.queued, ?_, ?_, ?_⟩
  · intro S hsub hS
    show S ⊆ H.trueCandidates (s.falsify r.constant).assignment
    rw [trueCandidates_falsify]
    exact Refutation.subset_remove (h.kept S hsub hS) (hdoomed S hsub hS)
  · show H.trueCandidates (s.falsify r.constant).assignment ⊆ _
    rw [trueCandidates_falsify]
    exact Set.sdiff_subset.trans h.shrunk
  · exact ⟨⟨hworking.head,
      (hworking.stable.falsify hp hconstant (fun _ => hunused)).goto⟩, herrors,
      by simp⟩

theorem SearchInvariant.unsatCore
    {session : HoudiniSession H.options H.program impl}
    {outcome : ProverInterface.Outcome} {core : List Variable}
    (hregular : H.Regular) (hsound : prover.Sound) (hdecides : prover.Decides)
    (hcontrol : s.control = .updatingUnsatCore impl)
    (hsession : H.houdiniSession impl = some session)
    (hcore : prover.cores session s.assignment outcome core) (h : SearchInvariant H initial s) :
    SearchInvariant H initial ((updateUnsatCore impl outcome core s).dequeue.goto .outerLoop) := by
  have hcurrent := h.control
  rw [hcontrol] at hcurrent
  rcases hcurrent with ⟨hworking, hoption, hvalid⟩
  rcases hworking.head with ⟨impls, hqueue⟩
  have houtcome : outcome = .valid := by
    rcases hdecides.core session _ outcome core hcore with hv | hi
    · exact hv
    · subst hi
      have hget := (hregular.cores hoption).getAssignment s.assignment
      exact absurd (hvalid session hsession _ hget)
        (hsound.noCore session s.assignment core hcore)
  subst houtcome
  let s₁ := updateUnsatCore impl .valid core s
  have hqueue₁ : s₁.workQueue.queue = impl :: impls := hqueue
  have hset : s₁.unsatCoreSet impl = some core := by
    simp [s₁, updateUnsatCore, HoudiniState.setUnsatCore]
  have hstable₁ : StableOff H s₁ (fun _ => True) :=
    hworking.stable.setUnsatCore (by simp [hqueue])
  refine ⟨h.blackList, ?_, ?_, h.kept, h.shrunk, ?_⟩
  · intro hno
    rw [hoption] at hno
    cases hno
  · exact fun other hother => h.queued other (List.mem_of_mem_tail hother)
  · apply StableOff.goto
    apply hstable₁.dequeue hqueue₁
    intro session' hsession' _
    rw [hsession] at hsession'
    cases hsession'
    exact stable_of_core hregular.unstaged hset
      (hsound.core session _ core hcore)

theorem SearchInvariant.step {event : Event} (hp : H.program.CandidatesGuard)
    (hregular : H.Regular) (hsound : prover.Sound) (hdecides : prover.Decides)
    (hok : CandidateErrorsOnly H event) (hstep : Step H prover s event s')
    (h : SearchInvariant H initial s) : SearchInvariant H initial s' := by
  have hcurrent := h.control
  cases hstep with
  | peek hcontrol hqueue =>
    rw [hcontrol] at hcurrent
    exact h.goto ⟨⟨_, hqueue⟩, StableOff.goto hcurrent⟩
  | finish hcontrol hqueue =>
    rw [hcontrol] at hcurrent
    exact h.goto ⟨hqueue, StableOff.goto hcurrent⟩
  | verify hcontrol hsession hget hanswer =>
    exact h.useAnswer hp hregular hsound hdecides hcontrol hsession hget
      hanswer hok
  | verifyNull hcontrol hnull =>
    rename_i impl
    rw [hcontrol] at hcurrent
    rcases hcurrent.head with ⟨impls, hqueue⟩
    rcases hregular.session (h.queued impl (by simp [hqueue])) with
      ⟨session, hsession⟩
    rcases hregular.getAssignment s.assignment with ⟨staged, hget⟩
    rcases hnull with hnull | hnull
    · rw [hsession] at hnull
      cases hnull
    · rw [hget] at hnull
      cases hnull
  | unsatCore hcontrol hsession hcore =>
    exact h.unsatCore hregular hsound hdecides hcontrol hsession hcore
  | refute hcontrol => exact h.refuteNext hp hregular hcontrol
  | updateAssignment hcontrol => exact h.updateAssignment hp hcontrol
  | verifyAgain hcontrol =>
    rw [hcontrol] at hcurrent
    exact h.goto hcurrent.1.goto
  | leave hcontrol =>
    rw [hcontrol] at hcurrent
    exact absurd rfl (hcurrent.2.2 rfl)
  | flush hcontrol =>
    rw [hcontrol] at hcurrent
    exact hcurrent.elim
  | flushNull hcontrol =>
    rw [hcontrol] at hcurrent
    exact hcurrent.elim
  | flushed hcontrol =>
    rw [hcontrol] at hcurrent
    exact hcurrent.elim

end Houdini

end Boogie
