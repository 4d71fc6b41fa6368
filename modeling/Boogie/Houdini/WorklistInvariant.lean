import Boogie.Houdini.Stability

/-!
# Invariants of the worklist

What holds at each place of the inference, and the steps that keep it.
-/

namespace Boogie

namespace Houdini

variable {H : Houdini} {prover : Prover H} {s s' : HoudiniState}
  {impl other : Implementation}

/-!
# The invariant

`Base` does not look at the program counter; `ControlOk` says what holds at
each place.  While candidates can still be removed, the formulas of settled
implementations have to be stable, not only valid.
-/

def HoudiniState.RecordedCorrect (s : HoudiniState) (impl : Implementation) :
    Prop :=
  exists o, s.implementationOutcomes impl.name = some o ∧ o.outcome = .correct

structure Settled (s : HoudiniState) (impl : Implementation) : Prop where
  dequeued : impl ∉ s.workQueue.queue
  correct : s.RecordedCorrect impl

structure Base (H : Houdini) (s : HoudiniState) : Prop where
  blackListed : forall impl session, H.houdiniSession impl = some session ->
    impl.name ∈ s.blackList ->
      impl ∉ s.workQueue.queue ∧ ¬ s.RecordedCorrect impl
  noCores : H.options.useUnsatCoreForContractInfer = false ->
    s.unsatCoreSet = fun _ => none
  valid : forall impl session, H.houdiniSession impl = some session ->
    Settled s impl -> ValidUnder H session s.assignment

abbrev AllStable (H : Houdini) (s : HoudiniState) : Prop :=
  StableOff H s s.RecordedCorrect

abbrev NobodyDependsOn (H : Houdini) (s : HoudiniState) (v : Variable) :
    Prop :=
  UnusedOff H s s.RecordedCorrect v

def ErrorsOf (H : Houdini) (impl : Implementation)
    (errors : List Counterexample) : Prop :=
  forall error, error ∈ errors ->
    forall session, H.houdiniSession impl = some session ->
      exists ac, .assertCmd ac ∈ session.passified.passive.cmds ∧
        error = assertCmdToCounterexample ac

structure Verifying (H : Houdini) (s : HoudiniState) (impl : Implementation) :
    Prop where
  head : exists impls, s.workQueue.queue = impl :: impls
  stable : AllStable H s

def ControlOk (H : Houdini) (s : HoudiniState) : Control -> Prop
  | .outerLoop => s.workQueue.queue ≠ [] -> AllStable H s
  | .verifyCurrent impl => Verifying H s impl
  | .refuting impl errors _ => Verifying H s impl ∧ ErrorsOf H impl errors ∧
      ¬ s.RecordedCorrect impl ∧ exists session, H.houdiniSession impl =
        some session
  | .updatingAssignment impl r errors => Verifying H s impl ∧
      ErrorsOf H impl errors ∧ ¬ s.RecordedCorrect impl ∧
      (exists session, H.houdiniSession impl = some session) ∧
      r.constant ∈ H.houdiniConstants ∧ NobodyDependsOn H s r.constant
  | .updatingUnsatCore impl => Verifying H s impl ∧
      H.options.useUnsatCoreForContractInfer = true ∧
      forall session, H.houdiniSession impl = some session ->
        ValidUnder H session s.assignment
  | .returned => s.workQueue.queue = []
  | .flushWorkList => True
  | .nullReference => True

structure Invariant (H : Houdini) (s : HoudiniState) : Prop where
  base : Base H s
  control : ControlOk H s s.control

def DistinctNames (H : Houdini) : Prop :=
  forall impl impl', impl ∈ H.callGraph.ns -> impl' ∈ H.callGraph.ns ->
    impl.name = impl'.name -> impl = impl'

theorem DistinctNames.eq (hnames : H.DistinctNames)
    {session : HoudiniSession H.options H.program impl}
    {session' : HoudiniSession H.options H.program other} (h : H.houdiniSession impl = some session)
    (h' : H.houdiniSession other = some session')
    (hname : impl.name = other.name) : impl = other := by
  apply hnames impl other _ _ hname
  · exact Program.mem_buildCallGraph_ns.mpr (mem_callGraph_of_session h)
  · exact Program.mem_buildCallGraph_ns.mpr (mem_callGraph_of_session h')

/-!
# What single updates do to settled implementations
-/

section Updates

variable {answer : Answer}

theorem recordedCorrect_update_of_ne (h : other.name ≠ impl.name) :
    (updateHoudiniOutcome H.program impl answer s).RecordedCorrect other <->
      s.RecordedCorrect other := by
  simp [HoudiniState.RecordedCorrect, updateHoudiniOutcome,
    HoudiniState.recordOutcome, h]

theorem recordedCorrect_update_self :
    (updateHoudiniOutcome H.program impl answer s).RecordedCorrect impl <->
      answer.outcome = .valid := by
  cases houtcome : answer.outcome <;>
    simp [HoudiniState.RecordedCorrect, updateHoudiniOutcome,
      HoudiniState.recordOutcome, proverInterfaceOutcomeToConditionGenerationOutcome,
      houtcome]

theorem settled_of_update {session : HoudiniSession H.options H.program impl}
    {session' : HoudiniSession H.options H.program other} (hnames : H.DistinctNames)
    (hsession : H.houdiniSession impl = some session)
    (hsession' : H.houdiniSession other = some session') (hmem : impl ∈ s.workQueue.queue)
    (h : Settled (updateHoudiniOutcome H.program impl answer s) other) :
    Settled s other := by
  have hother : other ≠ impl := by
    rintro rfl
    exact h.dequeued hmem
  have hname : other.name ≠ impl.name :=
    fun hname => hother (hnames.eq hsession' hsession hname)
  exact ⟨h.dequeued, (recordedCorrect_update_of_ne hname).mp h.correct⟩

theorem Base.update {session : HoudiniSession H.options H.program impl}
    (hnames : H.DistinctNames) (hsession : H.houdiniSession impl = some session)
    (hmem : impl ∈ s.workQueue.queue) (h : Base H s) :
    Base H (updateHoudiniOutcome H.program impl answer s) where
  blackListed := by
    intro other session' hsession' hblack
    have hold := h.blackListed other session' hsession' hblack
    refine ⟨hold.1, ?_⟩
    intro hcorrect
    have hsettled := settled_of_update hnames hsession hsession' hmem
      ⟨hold.1, hcorrect⟩
    exact hold.2 hsettled.correct
  noCores := h.noCores
  valid := by
    intro other session' hsession' hsettled
    exact h.valid other session' hsession'
      (settled_of_update hnames hsession hsession' hmem hsettled)

theorem AllStable.update {session : HoudiniSession H.options H.program impl}
    (hnames : H.DistinctNames) (hsession : H.houdiniSession impl = some session)
    (hmem : impl ∈ s.workQueue.queue) (h : AllStable H s) :
    AllStable H (updateHoudiniOutcome H.program impl answer s) := by
  intro other session' hsession' hnot hcorrect
  have hold := settled_of_update hnames hsession hsession' hmem
    ⟨hnot, hcorrect⟩
  exact (h other session' hsession' hold.dequeued hold.correct).congr rfl rfl

theorem not_mem_dequeue_of_head {impls : List Implementation}
    (hqueue : s.workQueue.queue = impl :: impls) :
    impl ∉ s.dequeue.workQueue.queue := by
  have hnodup := s.workQueue.nodup
  rw [hqueue] at hnodup
  show impl ∉ s.workQueue.queue.tail
  rw [hqueue]
  exact (List.nodup_cons.mp hnodup).1

theorem Base.dequeue {impls : List Implementation} (h : Base H s)
    (hqueue : s.workQueue.queue = impl :: impls)
    (hvalid : forall session, H.houdiniSession impl = some session ->
      s.RecordedCorrect impl -> ValidUnder H session s.assignment) :
    Base H s.dequeue where
  blackListed := by
    intro other session hsession hblack
    have hold := h.blackListed other session hsession hblack
    exact ⟨fun hmem => hold.1 (List.mem_of_mem_tail hmem), hold.2⟩
  noCores := h.noCores
  valid := by
    intro other session hsession hsettled
    by_cases hother : other = impl
    · subst hother
      exact hvalid session hsession hsettled.correct
    · exact h.valid other session hsession
        ⟨mem_of_mem_dequeue hqueue hother hsettled.dequeued, hsettled.correct⟩

theorem Base.falsify {v : Variable} (h : Base H s)
    (hstable : AllStable H (s.falsify v)) : Base H (s.falsify v) where
  blackListed := h.blackListed
  noCores := h.noCores
  valid := fun other session hsession hsettled =>
    (hstable other session hsession hsettled.dequeued
      hsettled.correct).validUnder

theorem falsify_all {vs : List Variable} (hp : H.program.CandidatesGuard)
    (hvs : forall v, v ∈ vs -> v ∈ H.houdiniConstants)
    (hnobody : forall v, v ∈ vs -> s.assignment v = true -> NobodyDependsOn H s v)
    (hbase : Base H s) (hstable : AllStable H s) :
    Base H (vs.foldl HoudiniState.falsify s) ∧ AllStable H (vs.foldl HoudiniState.falsify s) := by
  induction vs generalizing s with
  | nil => exact ⟨hbase, hstable⟩
  | cons v vs ih =>
    have hfirst : AllStable H (s.falsify v) :=
      hstable.falsify hp (hvs v (by simp)) (hnobody v (by simp))
    refine ih (fun w hw => hvs w (by simp [hw])) ?_ (hbase.falsify hfirst)
      hfirst
    intro w hw htrue
    have hwtrue : s.assignment w = true := by
      by_contra hfalse
      simp [HoudiniState.falsify, Function.update_apply, hfalse] at htrue
    exact hnobody w (by simp [hw]) hwtrue

theorem falsify_all_same (vs : List Variable) (s : HoudiniState) :
    (vs.foldl HoudiniState.falsify s).workQueue = s.workQueue ∧
      (vs.foldl HoudiniState.falsify s).implementationOutcomes = s.implementationOutcomes := by
  induction vs generalizing s with
  | nil => exact ⟨rfl, rfl⟩
  | cons v vs ih => exact ih (s.falsify v)

theorem Base.addToBlackList {session : HoudiniSession H.options H.program impl}
    (hnames : H.DistinctNames) (hsession : H.houdiniSession impl = some session)
    (hnot : impl ∉ s.workQueue.queue) (hwrong : ¬ s.RecordedCorrect impl)
    (h : Base H s) : Base H (s.addToBlackList impl.name) where
  blackListed := by
    intro other session' hsession' hblack
    rcases mem_hashSetAdd.mp hblack with hblack | hname
    · exact h.blackListed other session' hsession' hblack
    · have hother := hnames.eq hsession' hsession hname
      subst hother
      exact ⟨hnot, hwrong⟩
  noCores := h.noCores
  valid := fun other session hsession hsettled =>
    h.valid other session hsession ⟨hsettled.dequeued, hsettled.correct⟩

theorem AllStable.addToBlackList {name : String} (h : AllStable H s) :
    AllStable H (s.addToBlackList name) := by
  intro other session hsession hnot hcorrect
  exact (h other session hsession hnot hcorrect).congr rfl rfl

theorem giveUp_dequeue {session : HoudiniSession H.options H.program impl}
    {impls : List Implementation} {vs : List Variable}
    (hp : H.program.CandidatesGuard) (hnames : H.DistinctNames)
    (hsession : H.houdiniSession impl = some session) (hqueue : s.workQueue.queue = impl :: impls)
    (hwrong : ¬ s.RecordedCorrect impl) (hvs : forall v, v ∈ vs -> v ∈ H.houdiniConstants)
    (hnobody : forall v, v ∈ vs -> s.assignment v = true -> NobodyDependsOn H s v)
    (hbase : Base H s) (hstable : AllStable H s) :
    Base H (giveUp vs impl s).dequeue ∧ AllStable H (giveUp vs impl s).dequeue := by
  have hremoved := falsify_all hp hvs hnobody hbase hstable
  have hsame := falsify_all_same vs s
  let s₂ := vs.foldl HoudiniState.falsify s
  have hqueue₂ : s₂.workQueue.queue = impl :: impls := by
    rw [hsame.1]
    exact hqueue
  have hwrong₂ : ¬ s₂.RecordedCorrect impl := by
    unfold HoudiniState.RecordedCorrect
    rw [hsame.2]
    exact hwrong
  have hbase₃ : Base H s₂.dequeue := hremoved.1.dequeue hqueue₂
    (fun _ _ hcorrect => absurd hcorrect hwrong₂)
  have hstable₃ : AllStable H s₂.dequeue := hremoved.2.dequeue hqueue₂
    (fun _ _ hcorrect => absurd hcorrect hwrong₂)
  constructor
  · exact hbase₃.addToBlackList hnames hsession
      (not_mem_dequeue_of_head hqueue₂) hwrong₂
  · exact hstable₃.addToBlackList

theorem OnlyEnqueued.settled (h : OnlyEnqueued s s')
    (hsettled : Settled s' impl) : Settled s impl := by
  constructor
  · intro hmem
    exact hsettled.dequeued (h.subset impl hmem)
  · have hcorrect := hsettled.correct
    unfold HoudiniState.RecordedCorrect at hcorrect
    rwa [h.outcomes] at hcorrect

theorem Base.enqueue (h : Base H s) (hsame : OnlyEnqueued s s') :
    Base H s' where
  blackListed := by
    intro impl session hsession hblack
    rw [hsame.blackList] at hblack
    have hold := h.blackListed impl session hsession hblack
    constructor
    · intro hmem
      rcases hsame.added impl hmem with hmem | hname
      · exact hold.1 hmem
      · exact hname hblack
    · unfold HoudiniState.RecordedCorrect
      rw [hsame.outcomes]
      exact hold.2
  noCores := by
    intro hoption
    rw [hsame.cores]
    exact h.noCores hoption
  valid := by
    intro impl session hsession hsettled
    rw [hsame.assignment]
    exact h.valid impl session hsession (hsame.settled hsettled)

theorem AllStable.enqueue (h : AllStable H s) (hsame : OnlyEnqueued s s') :
    AllStable H s' := by
  have hrecorded : s'.RecordedCorrect = s.RecordedCorrect := by
    unfold HoudiniState.RecordedCorrect
    rw [hsame.outcomes]
  show StableOff H s' s'.RecordedCorrect
  rw [hrecorded]
  exact StableOff.enqueue h hsame

theorem Settled.of_goto {control : Control} (h : Settled (s.goto control) impl) :
    Settled s impl :=
  ⟨h.dequeued, h.correct⟩

theorem Base.goto {control : Control} (h : Base H s) :
    Base H (s.goto control) where
  blackListed := h.blackListed
  noCores := h.noCores
  valid := fun impl session hsession hsettled =>
    h.valid impl session hsession hsettled.of_goto

end Updates

/-!
# Steps
-/

/--
What a step needs to keep the worklist sound: an unsat core is found where one
is asked for, and an implementation that is given up takes only candidates
along on which no settled implementation depends.
-/
def NothingStale (H : Houdini) (s : HoudiniState) : Event -> Prop
  | .internal => True
  | .answered impl answer =>
    s.control = .verifyCurrent impl -> answer.outcome ≠ .valid ->
    answer.outcome ≠ .invalid ->
    forall session, H.houdiniSession impl = some session ->
    forall v, v ∈ session.passified.houdiniAssertConstants ->
      s.assignment v = true -> NobodyDependsOn H s v
  | .coreAnswered _ outcome => outcome = .valid

theorem NothingStale.of_verify {answer : Answer}
    {session : HoudiniSession H.options H.program impl}
    (h : NothingStale H s (.answered impl answer)) (hcontrol : s.control = .verifyCurrent impl)
    (hsession : H.houdiniSession impl = some session)
    (hvalid : answer.outcome ≠ .valid) (hinvalid : answer.outcome ≠ .invalid)
    {v : Variable} (hv : v ∈ session.passified.houdiniAssertConstants)
    (htrue : s.assignment v = true) : NobodyDependsOn H s v :=
  h hcontrol hvalid hinvalid session hsession v hv htrue

theorem Invariant.useAnswer {session : HoudiniSession H.options H.program impl}
    {staged : Variable -> Option Bool} {answer : Answer}
    (hp : H.program.CandidatesGuard) (hnames : H.DistinctNames)
    (hsound : prover.Sound) (hcontrol : s.control = .verifyCurrent impl)
    (hsession : H.houdiniSession impl = some session)
    (hget : H.getAssignmentWithStages s.assignment = some staged)
    (hanswer : prover.answers session staged answer)
    (hok : NothingStale H s (.answered impl answer))
    (h : Invariant H s) : Invariant H (useAnswer H session answer s) := by
  have hcurrent := h.control
  rw [hcontrol] at hcurrent
  rcases hcurrent.head with ⟨impls, hqueue⟩
  have hmem : impl ∈ s.workQueue.queue := by simp [hqueue]
  let s₁ := updateHoudiniOutcome H.program impl answer s
  have hqueue₁ : s₁.workQueue.queue = impl :: impls := hqueue
  have hbase : Base H s₁ := h.base.update hnames hsession hmem
  have hstable : AllStable H s₁ := hcurrent.stable.update hnames hsession hmem
  have hcorrect : s₁.RecordedCorrect impl -> answer.outcome = .valid :=
    recordedCorrect_update_self.mp
  have hvalid : answer.outcome = .valid ->
      forall session, H.houdiniSession impl = some session ->
        ValidUnder H session s₁.assignment := by
    intro houtcome session' hsession' staged' hstaged'
    rw [hsession] at hsession'
    cases hsession'
    have hget' : H.getAssignmentWithStages s.assignment = some staged' :=
      hstaged'
    rw [hget] at hget'
    cases hget'
    exact hsound.valid session staged answer hanswer houtcome
  have hdequeue : Base H s₁.dequeue :=
    hbase.dequeue hqueue₁
      (fun session hsession hc => hvalid (hcorrect hc) session hsession)
  have hverifying : Verifying H s₁ impl := ⟨⟨impls, hqueue₁⟩, hstable⟩
  unfold Houdini.useAnswer
  simp only
  split
  · exact ⟨hdequeue.goto, trivial⟩
  · rename_i hcandidates
    cases houtcome : answer.outcome with
    | valid =>
      simp only
      split
      · rename_i hoption
        exact ⟨hbase.goto, ⟨hverifying.head, hstable.goto⟩, hoption,
          hvalid houtcome⟩
      · rename_i hoption
        have hnone : s₁.unsatCoreSet = fun _ => none :=
          hbase.noCores (by simpa using hoption)
        have hleft : AllStable H s₁.dequeue :=
          hstable.dequeue hqueue₁ (fun session hsession hc =>
            stable_of_no_core (congrFun hnone impl)
              (hvalid (hcorrect hc) session hsession))
        exact ⟨hdequeue.goto, fun _ => hleft.goto⟩
    | invalid =>
      have hwrong : ¬ s₁.RecordedCorrect impl := by
        intro hc
        have := hcorrect hc
        rw [houtcome] at this
        cases this
      have herrors : ErrorsOf H impl answer.errors := by
        intro error herror session' hsession'
        rw [hsession] at hsession'
        cases hsession'
        rcases (hsound.invalid session staged answer hanswer houtcome).2 error
          herror with ⟨ac, hac, heq, _⟩
        exact ⟨ac, hac, heq⟩
      exact ⟨hbase.goto, ⟨hverifying.head, hstable.goto⟩, herrors, hwrong,
        session, hsession⟩
    | _ =>
      have hwrong : ¬ s₁.RecordedCorrect impl := by
        intro hc
        have := hcorrect hc
        rw [houtcome] at this
        cases this
      have hvs : forall v, v ∈ session.passified.houdiniAssertConstants ->
          v ∈ H.houdiniConstants := by
        intro v hv
        rcases PassifiedImpl.mem_houdiniAssertConstants.mp hv with
          ⟨ac, _, hmatch⟩
        exact (Program.name_of_matchCandidate hmatch).2
      have hnobody : forall v,
          v ∈ session.passified.houdiniAssertConstants ->
          s₁.assignment v = true -> NobodyDependsOn H s₁ v := by
        intro v hv htrue other session' hsession' hnot hcorrect
        have hold := settled_of_update hnames hsession hsession' hmem
          ⟨hnot, hcorrect⟩
        exact hok.of_verify hcontrol hsession (by simp [houtcome])
          (by simp [houtcome]) hv htrue other session' hsession'
          hold.dequeued hold.correct
      have hleft := giveUp_dequeue hp hnames hsession hqueue₁ hwrong hvs
        hnobody hbase hstable
      exact ⟨hleft.1.goto, fun _ => hleft.2.goto⟩

theorem Invariant.refuteNext {error : Counterexample}
    {errors : List Counterexample} {dequeue : Bool} (hp : H.program.CandidatesGuard)
    (hcontrol : s.control = .refuting impl (error :: errors) dequeue) (h : Invariant H s) :
    Invariant H (refuteNext H impl error errors dequeue s) := by
  have hcurrent := h.control
  rw [hcontrol] at hcurrent
  rcases hcurrent with ⟨hverifying, herrors, hwrong, session, hsession⟩
  have hrest : ErrorsOf H impl errors :=
    fun e he => herrors e (List.mem_cons_of_mem _ he)
  rcases hverifying.head with ⟨impls, hqueue⟩
  unfold Houdini.refuteNext
  split
  · exact ⟨h.base.goto, ⟨hverifying.head, hverifying.stable.goto⟩, hrest,
      hwrong, session, hsession⟩
  · rename_i r hr
    split
    · rename_i s₁ hadd
      unfold addRelatedToWorkList at hadd
      split at hadd
      · rename_i found hfound
        cases hadd
        have hspec := foldl_enqueue_spec found s
        have hsame := hspec.1
        rcases herrors error (by simp) session hsession with ⟨ac, hac, rfl⟩
        have hconstant : r.constant ∈ H.houdiniConstants := by
          rcases extract_annotation hr with ⟨_, _, _, hmatch, _⟩
          exact (Program.name_of_matchCandidate hmatch).2
        have hstable := hverifying.stable.enqueue hsame
        have hhead := hsame.head impl impls hqueue
        have hwrong₁ : ¬ (found.foldl enqueueUnlessBlackListed
            s).RecordedCorrect impl := by
          unfold HoudiniState.RecordedCorrect
          rw [hsame.outcomes]
          exact hwrong
        have hnobody : NobodyDependsOn H
            (found.foldl enqueueUnlessBlackListed s) r.constant := by
          intro other session' hsession' hnot hcorrect hdepends
          have hold := hsame.settled ⟨hnot, hcorrect⟩
          rcases mem_findImplementationsToEnqueue hp
            (mem_callGraph_of_session hsession) hsession' hac hr hfound
            (hdepends.of_cores hsame.cores) with ⟨_, rfl⟩ | ⟨_, hfoundMem⟩
          · exact hold.dequeued (by simp [hqueue])
          · by_cases hblack : other.name ∈ s.blackList
            · exact (h.base.blackListed other session' hsession' hblack).2
                hold.correct
            · exact hnot (hspec.2 other hfoundMem hblack)
        exact ⟨(h.base.enqueue hsame).goto, ⟨hhead, hstable.goto⟩, hrest,
          hwrong₁, ⟨session, hsession⟩, hconstant, hnobody⟩
      · cases hadd
    · exact ⟨h.base.goto, trivial⟩

theorem Invariant.updateAssignment {r : RefutedAnnotation}
    {errors : List Counterexample} (hp : H.program.CandidatesGuard)
    (hcontrol : s.control = .updatingAssignment impl r errors) (h : Invariant H s) :
    Invariant H ((s.falsify r.constant).goto (.refuting impl errors false)) := by
  have hcurrent := h.control
  rw [hcontrol] at hcurrent
  rcases hcurrent with
    ⟨hverifying, herrors, hwrong, hsession, hconstant, hnobody⟩
  have hstable := hverifying.stable.falsify hp hconstant (fun _ => hnobody)
  exact ⟨(h.base.falsify hstable).goto, ⟨hverifying.head, hstable.goto⟩,
    herrors, hwrong, hsession⟩

theorem Invariant.unsatCore {session : HoudiniSession H.options H.program impl}
    {core : List Variable} (hsound : prover.Sound)
    (hunstaged : H.options.useUnsatCoreForContractInfer = true ->
      forall v, v ∈ H.houdiniConstants -> H.Unstaged v)
    (hcontrol : s.control = .updatingUnsatCore impl)
    (hsession : H.houdiniSession impl = some session)
    (hcore : prover.cores session s.assignment .valid core) (h : Invariant H s) :
    Invariant H ((updateUnsatCore impl .valid core s).dequeue.goto .outerLoop) := by
  have hcurrent := h.control
  rw [hcontrol] at hcurrent
  rcases hcurrent with ⟨hverifying, hoption, hvalid⟩
  rcases hverifying.head with ⟨impls, hqueue⟩
  let s₁ := updateUnsatCore impl .valid core s
  have hqueue₁ : s₁.workQueue.queue = impl :: impls := hqueue
  have hset : s₁.unsatCoreSet impl = some core := by
    simp [s₁, updateUnsatCore, HoudiniState.setUnsatCore]
  have hstable₁ : AllStable H s₁ :=
    hverifying.stable.setUnsatCore (by simp [hqueue])
  have hbase₁ : Base H s₁ :=
    { blackListed := h.base.blackListed
      noCores := by
        intro hno
        rw [hoption] at hno
        cases hno
      valid := fun other session' hsession' hsettled =>
        h.base.valid other session' hsession'
          ⟨hsettled.dequeued, hsettled.correct⟩ }
  have hleft : AllStable H s₁.dequeue := by
    apply hstable₁.dequeue hqueue₁
    intro session' hsession' _
    rw [hsession] at hsession'
    cases hsession'
    exact stable_of_core (hunstaged hoption) hset (hsound.core session _ core hcore)
  have hbase : Base H s₁.dequeue :=
    hbase₁.dequeue hqueue₁ (fun session' hsession' _ => hvalid session' hsession')
  exact ⟨hbase.goto, fun _ => hleft.goto⟩

theorem Invariant.flush {session : HoudiniSession H.options H.program impl}
    {impls : List Implementation} {staged : Variable -> Option Bool}
    {answer : Answer} (hnames : H.DistinctNames) (hsound : prover.Sound)
    (hcontrol : s.control = .flushWorkList) (hqueue : s.workQueue.queue = impl :: impls)
    (hsession : H.houdiniSession impl = some session)
    (hget : H.getAssignmentWithStages s.assignment = some staged)
    (hanswer : prover.answers session staged answer) (h : Invariant H s) :
    Invariant H (updateHoudiniOutcome H.program impl answer s).dequeue := by
  let s₁ := updateHoudiniOutcome H.program impl answer s
  have hqueue₁ : s₁.workQueue.queue = impl :: impls := hqueue
  have hbase : Base H s₁ :=
    h.base.update hnames hsession (by simp [hqueue])
  refine ⟨hbase.dequeue hqueue₁ ?_, ?_⟩
  · intro session' hsession' hcorrect staged' hstaged'
    rw [hsession] at hsession'
    cases hsession'
    have hget' : H.getAssignmentWithStages s.assignment = some staged' :=
      hstaged'
    rw [hget] at hget'
    cases hget'
    exact hsound.valid session staged answer hanswer
      (recordedCorrect_update_self.mp hcorrect)
  · show ControlOk H _ s.control
    rw [hcontrol]
    trivial

theorem Invariant.step {event : Event} (hp : H.program.CandidatesGuard)
    (hnames : H.DistinctNames) (hsound : prover.Sound)
    (hunstaged : H.options.useUnsatCoreForContractInfer = true ->
      forall v, v ∈ H.houdiniConstants -> H.Unstaged v)
    (hok : NothingStale H s event) (hstep : Step H prover s event s')
    (h : Invariant H s) : Invariant H s' := by
  have hcurrent := h.control
  cases hstep with
  | peek hcontrol hqueue =>
    rw [hcontrol] at hcurrent
    have hstable := hcurrent (by simp [hqueue])
    exact ⟨h.base.goto, ⟨_, hqueue⟩, hstable.goto⟩
  | finish hcontrol hqueue => exact ⟨h.base.goto, hqueue⟩
  | verify hcontrol hsession hget hanswer =>
    exact h.useAnswer hp hnames hsound hcontrol hsession hget hanswer hok
  | verifyNull hcontrol _ => exact ⟨h.base.goto, trivial⟩
  | unsatCore hcontrol hsession hcore =>
    rename_i impl session outcome core
    have houtcome : outcome = .valid := hok
    subst houtcome
    exact h.unsatCore hsound hunstaged hcontrol hsession hcore
  | refute hcontrol => exact h.refuteNext hp hcontrol
  | updateAssignment hcontrol => exact h.updateAssignment hp hcontrol
  | verifyAgain hcontrol =>
    rw [hcontrol] at hcurrent
    rcases hcurrent with ⟨hverifying, _⟩
    exact ⟨h.base.goto, hverifying.head, hverifying.stable.goto⟩
  | leave hcontrol =>
    rw [hcontrol] at hcurrent
    rcases hcurrent with ⟨hverifying, _, hwrong, _⟩
    rcases hverifying.head with ⟨impls, hqueue⟩
    have hbase := h.base.dequeue hqueue
      (fun _ _ hcorrect => absurd hcorrect hwrong)
    have hstable := hverifying.stable.dequeue hqueue
      (fun _ _ hcorrect => absurd hcorrect hwrong)
    exact ⟨hbase.goto, fun _ => hstable.goto⟩
  | flush hcontrol hqueue hsession hget hanswer =>
    exact h.flush hnames hsound hcontrol hqueue hsession hget hanswer
  | flushNull hcontrol hqueue _ => exact ⟨h.base.goto, trivial⟩
  | flushed hcontrol hqueue =>
    exact ⟨h.base.goto, fun hne => absurd hqueue hne⟩

end Houdini

end Boogie
