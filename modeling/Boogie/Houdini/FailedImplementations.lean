import Boogie.Houdini.GreatestInductive

/-!
# Implementations without a formula

When no formula can be generated for an implementation it has no session, stays
off the worklist and is blacklisted.  Refutations look up sessions of callers,
callees and dependent implementations all the same, and what the implementation
asserts stays a candidate.
-/

namespace Boogie

/-!
# Asserted candidates
-/

namespace Program

def bodyCandidates (p : Program) (impl : Implementation) : List Variable :=
  impl.blocks.flatMap (fun b => b.cmds.filterMap (fun c =>
    match c with
    | .assertCmd ac => p.matchCandidate ac.expr
    | _ => none))

def requiresCandidates (p : Program) (impl : Implementation) : List Variable :=
  (p.procedures.filter (fun proc => proc.name ∈ impl.callees)).flatMap
    (fun proc => (proc.requires.filter (fun r => !r.free)).filterMap
      (fun r => p.matchCandidate r.condition))

def ensuresCandidates (p : Program) (impl : Implementation) : List Variable :=
  (p.procedures.filter (fun proc => proc.name = impl.name)).flatMap
    (fun proc => (proc.ensures.filter (fun e => !e.free)).filterMap
      (fun e => p.matchCandidate e.condition))

def assertedCandidates (p : Program) (impl : Implementation) : List Variable :=
  p.bodyCandidates impl ++ p.requiresCandidates impl ++
    p.ensuresCandidates impl

end Program

namespace Houdini

/-!
# Corrupted runs
-/

def MissingSession (H : Houdini) (s : HoudiniState) : Prop :=
  match s.control with
  | .verifyCurrent impl => H.houdiniSession impl = none
  | .updatingUnsatCore impl => H.houdiniSession impl = none
  | .flushWorkList => exists impl impls, s.workQueue.queue = impl :: impls ∧
      H.houdiniSession impl = none
  | .refuting impl (error :: _) _ => exists r,
      extractRefutedAnnotation H.program impl error = some r ∧
        findImplementationsToEnqueue H s r = none
  | _ => False

/-- A candidate that is asserted in a failed implementation is reported. -/
def ReportsUnchecked (H : Houdini) (s : HoudiniState) : Prop :=
  s.control = .returned ∧ exists impl c, impl ∈ H.vcgenFailures ∧
    c ∈ H.program.assertedCandidates impl ∧ s.assignment c = true

def Prover.ReportsAssertions {H : Houdini} (prover : Prover H) : Prop :=
  forall {impl : Implementation}
    (session : HoudiniSession H.options H.program impl) assignment answer,
    prover.answers session assignment answer ->
      forall error, error ∈ answer.errors ->
        exists ac, .assertCmd ac ∈ session.passified.passive.cmds ∧
          error = assertCmdToCounterexample ac

/-- No run is corrupted by the implementations without a formula. -/
def FailuresHarmless (H : Houdini) (initial : Variable -> Bool) : Prop :=
  forall prover : Prover H, prover.ReportsAssertions -> forall s₀ s,
    H.Initial initial s₀ -> H.Reaches prover (fun _ _ => True) s₀ s ->
      ¬ MissingSession H s ∧ ¬ ReportsUnchecked H s

/-!
# Lookups
-/

def lookups (H : Houdini) (r : RefutedAnnotation) : List Implementation :=
  match r.kind with
  | .requires => (H.callGraph.successors r.refutationSite).filter
      (fun callee => some callee.name = r.calleeProc)
  | .ensures => H.callGraph.predecessors r.refutationSite
  | .assert =>
    if H.options.houdiniUseCrossDependencies then
      H.crossDependencies r.constant.name
    else []

/-- No assertion of a formula leads to a lookup that fails. -/
def LookupsSucceed (H : Houdini) : Prop :=
  forall impl session ac r other, H.houdiniSession impl = some session ->
    .assertCmd ac ∈ session.passified.passive.cmds ->
    extractRefutedAnnotation H.program impl (assertCmdToCounterexample ac) =
      some r ->
    other ∈ H.lookups r -> (H.houdiniSession other).isSome = true

def StagesGiven (H : Houdini) : Prop :=
  H.completedStages.isSome = true ∨
    H.program.constants.all (fun c => c.stageComplete = -1) = true

/-- What keeps the implementations without a formula apart from a run. -/
structure FailuresApart (H : Houdini) (initial : Variable -> Bool) : Prop where
  lookups : H.StagesGiven -> H.LookupsSucceed
  asserted : (H.StagesGiven ∨ forall impl, H.houdiniSession impl = none) ->
    forall impl c, impl ∈ H.vcgenFailures ->
      c ∈ H.program.assertedCandidates impl -> initial c = false

section Lookups

variable {H : Houdini} {s : HoudiniState} {v : Variable}
  {test : Implementation -> Bool} {impls : List Implementation}

theorem inCore_eq_none :
    inCore H s v test impls = none <->
      exists impl, impl ∈ impls.filter test ∧ H.houdiniSession impl = none := by
  induction impls with
  | nil => simp [inCore]
  | cons impl impls ih =>
    unfold inCore
    by_cases htest : test impl = true
    · rw [if_pos htest, List.filter_cons_of_pos htest]
      simp only [List.mem_cons, exists_eq_or_imp, ← ih]
      cases hsession : H.houdiniSession impl with
      | none => simp
      | some session =>
        cases hrest : inCore H s v test impls with
        | none => simp
        | some found => simp
    · rw [if_neg htest, List.filter_cons_of_neg htest]
      exact ih

theorem findImplementationsToEnqueue_eq_none {r : RefutedAnnotation} :
    findImplementationsToEnqueue H s r = none <->
      exists impl, impl ∈ H.lookups r ∧ H.houdiniSession impl = none := by
  unfold findImplementationsToEnqueue lookups
  cases r.kind with
  | requires => exact inCore_eq_none
  | ensures =>
    simp only
    rw [inCore_eq_none, List.filter_true]
  | assert =>
    simp only
    split
    · rw [inCore_eq_none, List.filter_true]
    · simp

theorem session_of_found {r : RefutedAnnotation} {found : List Implementation}
    {impl : Implementation} (h : findImplementationsToEnqueue H s r = some found)
    (himpl : impl ∈ found) : (H.houdiniSession impl).isSome = true := by
  have hlookups : impl ∈ H.lookups r := by
    unfold findImplementationsToEnqueue at h
    unfold lookups
    cases hkind : r.kind with
    | requires =>
      simp only [hkind] at h ⊢
      have hmem := (mem_inCore h).mp himpl
      exact List.mem_filter.mpr ⟨hmem.1, hmem.2.1⟩
    | ensures =>
      simp only [hkind] at h ⊢
      exact ((mem_inCore h).mp himpl).1
    | assert =>
      simp only [hkind] at h ⊢
      split at h
      · rename_i hoption
        rw [if_pos hoption]
        exact ((mem_inCore h).mp himpl).1
      · cases h
        cases himpl
  by_contra hnone
  rw [Bool.not_eq_true, Option.isSome_eq_false_iff,
    Option.isNone_iff_eq_none] at hnone
  have hfails : findImplementationsToEnqueue H s r = none :=
    findImplementationsToEnqueue_eq_none.mpr ⟨impl, hlookups, hnone⟩
  rw [hfails] at h
  cases h

theorem getAssignmentWithStages_isSome {assignment : Variable -> Bool} :
    (H.getAssignmentWithStages assignment).isSome = true <-> H.StagesGiven := by
  unfold getAssignmentWithStages StagesGiven
  cases H.completedStages with
  | some completedStages => simp
  | none =>
    simp only [Option.isSome_none, Bool.false_eq_true, false_or]
    split
    · rename_i hall
      exact ⟨fun _ => hall, fun _ => rfl⟩
    · rename_i hall
      constructor
      · intro h
        cases h
      · intro h
        exact absurd h hall

end Lookups

/-!
# The invariant

As long as no query can be made the worklist stays as it is.
-/

def Unqueried (s : HoudiniState) : Control -> Prop
  | .outerLoop => True
  | .verifyCurrent _ => True
  | .nullReference => True
  | .returned => s.workQueue.queue = []
  | _ => False

def PendingErrors (H : Houdini) : Control -> Prop
  | .refuting impl errors _ => ErrorsOf H impl errors
  | .updatingAssignment impl _ errors => ErrorsOf H impl errors
  | _ => True

structure Apart (H : Houdini) (initial : Variable -> Bool)
    (s : HoudiniState) : Prop where
  queue : forall impl, impl ∈ s.workQueue.queue ->
    (H.houdiniSession impl).isSome = true
  current : forall impl, s.control.current = some impl ->
    (H.houdiniSession impl).isSome = true
  errors : PendingErrors H s.control
  assignment : forall v, s.assignment v = true -> initial v = true
  unqueried : ¬ H.StagesGiven -> Unqueried s s.control ∧
    forall impl, (H.houdiniSession impl).isSome = true ->
      impl ∈ s.workQueue.queue

section Steps

variable {H : Houdini} {prover : Prover H} {initial : Variable -> Bool}
  {s s' : HoudiniState} {impl : Implementation}

theorem Initial.apart (h : H.Initial initial s) : Apart H initial s where
  queue := fun impl himpl => (h.workQueue impl).mp himpl
  current := by
    intro impl himpl
    rw [h.control] at himpl
    cases himpl
  errors := by
    rw [h.control]
    trivial
  assignment := by
    intro v hv
    rw [h.assignment] at hv
    exact hv
  unqueried := by
    intro _
    constructor
    · rw [h.control]
      trivial
    · exact fun impl himpl => (h.workQueue impl).mpr himpl

theorem Apart.queried (h : Apart H initial s) (hstages : H.StagesGiven)
    (hqueue : forall impl, impl ∈ s'.workQueue.queue ->
      impl ∈ s.workQueue.queue ∨ (H.houdiniSession impl).isSome = true)
    (hcurrent : forall impl, s'.control.current = some impl ->
      (H.houdiniSession impl).isSome = true) (herrors : PendingErrors H s'.control)
    (hassignment : forall v, s'.assignment v = true -> s.assignment v = true) :
    Apart H initial s' where
  queue := by
    intro impl himpl
    rcases hqueue impl himpl with hold | hnew
    · exact h.queue impl hold
    · exact hnew
  current := hcurrent
  errors := herrors
  assignment := fun v hv => h.assignment v (hassignment v hv)
  unqueried := fun hnot => absurd hstages hnot

theorem Apart.stagesGiven (h : Apart H initial s)
    (hcontrol : ¬ Unqueried s s.control) : H.StagesGiven := by
  by_contra hnot
  exact hcontrol (h.unqueried hnot).1

theorem falsify_le {v c : Variable} (h : (s.falsify c).assignment v = true) :
    s.assignment v = true := by
  by_cases hv : v = c
  · simp [HoudiniState.falsify, hv] at h
  · simpa [HoudiniState.falsify, Function.update_of_ne hv] using h

theorem giveUp_le {constants : List Variable} {v : Variable}
    (h : (giveUp constants impl s).assignment v = true) :
    s.assignment v = true := by
  have hfold : (constants.foldl HoudiniState.falsify s).assignment v = true :=
    h
  exact (falsify_all_assignment.mp hfold).1

theorem falsify_all_workQueue {vs : List Variable} :
    (vs.foldl HoudiniState.falsify s).workQueue = s.workQueue := by
  induction vs generalizing s with
  | nil => rfl
  | cons v vs ih =>
    have hrest := ih (s := s.falsify v)
    exact hrest

theorem giveUp_workQueue {constants : List Variable} :
    (giveUp constants impl s).workQueue = s.workQueue :=
  falsify_all_workQueue

theorem Apart.useAnswer {session : HoudiniSession H.options H.program impl}
    {answer : Answer} (h : Apart H initial s) (hstages : H.StagesGiven)
    (hsession : H.houdiniSession impl = some session)
    (herrors : forall error, error ∈ answer.errors ->
      exists ac, .assertCmd ac ∈ session.passified.passive.cmds ∧
        error = assertCmdToCounterexample ac) :
    Apart H initial (useAnswer H session answer s) := by
  have hsome : (H.houdiniSession impl).isSome = true := by
    rw [hsession]
    rfl
  have hcurrent : forall other, some impl = some other ->
      (H.houdiniSession other).isSome = true := by
    intro other heq
    cases heq
    exact hsome
  unfold Houdini.useAnswer
  simp only
  split
  · exact h.queried hstages
      (fun other hother => Or.inl (List.mem_of_mem_tail hother))
      (fun other hother => by cases hother) trivial (fun v hv => hv)
  · split
    · split
      · exact h.queried hstages (fun other hother => Or.inl hother) hcurrent
          trivial (fun v hv => hv)
      · exact h.queried hstages
          (fun other hother => Or.inl (List.mem_of_mem_tail hother))
          (fun other hother => by cases hother) trivial (fun v hv => hv)
    · have hpending : PendingErrors H (.refuting impl answer.errors true) := by
        intro error herror session' hsession'
        rw [hsession] at hsession'
        cases hsession'
        exact herrors error herror
      exact h.queried hstages (fun other hother => Or.inl hother) hcurrent
        hpending (fun v hv => hv)
    · apply h.queried hstages
      · intro other hother
        have hmem : other ∈ (giveUp session.passified.houdiniAssertConstants
            impl (updateHoudiniOutcome H.program impl answer
              s)).workQueue.queue.tail := hother
        rw [giveUp_workQueue] at hmem
        exact Or.inl (List.mem_of_mem_tail hmem)
      · intro other hother
        cases hother
      · trivial
      · intro v hv
        have hgiven : (giveUp session.passified.houdiniAssertConstants impl
            (updateHoudiniOutcome H.program impl answer s)).assignment v =
              true := hv
        have hold : (updateHoudiniOutcome H.program impl answer
            s).assignment v = true := giveUp_le hgiven
        exact hold

theorem Apart.refuteNext {error : Counterexample}
    {errors : List Counterexample} {dequeue : Bool} (h : Apart H initial s)
    (hstages : H.StagesGiven) (hcontrol : s.control = .refuting impl (error :: errors) dequeue) :
    Apart H initial (refuteNext H impl error errors dequeue s) := by
  have hsome := h.current impl (by rw [hcontrol]; rfl)
  have hcurrent : forall other, some impl = some other ->
      (H.houdiniSession other).isSome = true := by
    intro other heq
    cases heq
    exact hsome
  have hpending := h.errors
  rw [hcontrol] at hpending
  have hrest : ErrorsOf H impl errors :=
    fun e he => hpending e (List.mem_cons_of_mem error he)
  unfold Houdini.refuteNext
  split
  · exact h.queried hstages (fun other hother => Or.inl hother) hcurrent hrest
      (fun v hv => hv)
  · rename_i r hr
    cases hadd : addRelatedToWorkList H r s with
    | none =>
      exact h.queried hstages (fun other hother => Or.inl hother)
        (fun other hother => by cases hother) trivial (fun v hv => hv)
    | some s' =>
      unfold addRelatedToWorkList at hadd
      split at hadd
      · rename_i found hfound
        cases hadd
        apply h.queried hstages
        · intro other hother
          rcases mem_of_mem_foldl_enqueue hother with hold | hnew
          · exact Or.inl hold
          · exact Or.inr (session_of_found hfound hnew)
        · exact hcurrent
        · exact hrest
        · intro v hv
          have hsame := (foldl_enqueue_spec found s).1.assignment
          have hv' : (found.foldl enqueueUnlessBlackListed s).assignment v =
              true := hv
          rwa [hsame] at hv'
      · cases hadd

theorem Step.apart {event : Event} (hreports : prover.ReportsAssertions)
    (h : Apart H initial s) (hstep : Step H prover s event s') :
    Apart H initial s' := by
  cases hstep with
  | peek hcontrol hqueue =>
    rename_i impl impls
    have hsome : (H.houdiniSession impl).isSome = true := by
      apply h.queue
      rw [hqueue]
      exact List.mem_cons_self
    constructor
    · exact h.queue
    · intro other heq
      cases heq
      exact hsome
    · trivial
    · exact h.assignment
    · exact fun hnot => ⟨trivial, (h.unqueried hnot).2⟩
  | finish hcontrol hqueue =>
    constructor
    · exact h.queue
    · intro other heq
      cases heq
    · trivial
    · exact h.assignment
    · exact fun hnot => ⟨hqueue, (h.unqueried hnot).2⟩
  | verify hcontrol hsession hassignment hanswer =>
    have hstages : H.StagesGiven := by
      apply getAssignmentWithStages_isSome.mp
      rw [hassignment]
      rfl
    exact h.useAnswer hstages hsession (hreports _ _ _ hanswer)
  | verifyNull hcontrol hnull =>
    constructor
    · exact h.queue
    · intro other heq
      cases heq
    · trivial
    · exact h.assignment
    · exact fun hnot => ⟨trivial, (h.unqueried hnot).2⟩
  | unsatCore hcontrol hsession hcore =>
    have hstages := h.stagesGiven (by rw [hcontrol]; exact fun hf => hf)
    exact h.queried hstages
      (fun other hother => Or.inl (List.mem_of_mem_tail hother))
      (fun other hother => by cases hother) trivial (fun v hv => hv)
  | refute hcontrol =>
    have hstages := h.stagesGiven (by rw [hcontrol]; exact fun hf => hf)
    exact h.refuteNext hstages hcontrol
  | updateAssignment hcontrol =>
    have hstages := h.stagesGiven (by rw [hcontrol]; exact fun hf => hf)
    have hpending := h.errors
    rw [hcontrol] at hpending
    have hcurrent := h.current
    rw [hcontrol] at hcurrent
    exact h.queried hstages (fun other hother => Or.inl hother) hcurrent
      hpending (fun v hv => falsify_le hv)
  | verifyAgain hcontrol =>
    have hstages := h.stagesGiven (by rw [hcontrol]; exact fun hf => hf)
    have hcurrent := h.current
    rw [hcontrol] at hcurrent
    exact h.queried hstages (fun other hother => Or.inl hother) hcurrent
      trivial (fun v hv => hv)
  | leave hcontrol =>
    have hstages := h.stagesGiven (by rw [hcontrol]; exact fun hf => hf)
    exact h.queried hstages
      (fun other hother => Or.inl (List.mem_of_mem_tail hother))
      (fun other hother => by cases hother) trivial (fun v hv => hv)
  | flush hcontrol hqueue hsession hassignment hanswer =>
    have hstages := h.stagesGiven (by rw [hcontrol]; exact fun hf => hf)
    apply h.queried hstages
    · exact fun other hother => Or.inl (List.mem_of_mem_tail hother)
    · intro other hother
      have hnone : s.control.current = some other := hother
      exact h.current other hnone
    · exact h.errors
    · exact fun v hv => hv
  | flushNull hcontrol hqueue hnull =>
    have hstages := h.stagesGiven (by rw [hcontrol]; exact fun hf => hf)
    exact h.queried hstages (fun other hother => Or.inl hother)
      (fun other hother => by cases hother) trivial (fun v hv => hv)
  | flushed hcontrol hqueue =>
    have hstages := h.stagesGiven (by rw [hcontrol]; exact fun hf => hf)
    exact h.queried hstages (fun other hother => Or.inl hother)
      (fun other hother => by cases hother) trivial (fun v hv => hv)

theorem Reaches.apart {s₀ : HoudiniState} (hreports : prover.ReportsAssertions)
    (h₀ : Apart H initial s₀)
    (h : H.Reaches prover (fun _ _ => True) s₀ s) : Apart H initial s := by
  induction h with
  | refl => exact h₀
  | tail _ hstep ih =>
    rcases hstep with ⟨event, _, hstep⟩
    exact hstep.apart hreports ih

/-!
# Harmless failures
-/

theorem Apart.not_missingSession (hapart : H.StagesGiven -> H.LookupsSucceed)
    (h : Apart H initial s) : ¬ MissingSession H s := by
  intro hmissing
  unfold MissingSession at hmissing
  split at hmissing
  · rename_i impl hcontrol
    have hsome := h.current impl (by rw [hcontrol]; rfl)
    rw [hmissing] at hsome
    cases hsome
  · rename_i impl hcontrol
    have hsome := h.current impl (by rw [hcontrol]; rfl)
    rw [hmissing] at hsome
    cases hsome
  · rcases hmissing with ⟨impl, impls, hqueue, hnone⟩
    have hsome := h.queue impl (by rw [hqueue]; exact List.mem_cons_self)
    rw [hnone] at hsome
    cases hsome
  · rename_i impl error errors dequeue hcontrol
    rcases hmissing with ⟨r, hr, hnone⟩
    have hstages := h.stagesGiven (by rw [hcontrol]; exact fun hf => hf)
    have hsome := h.current impl (by rw [hcontrol]; rfl)
    rcases Option.isSome_iff_exists.mp hsome with ⟨session, hsession⟩
    have hpending := h.errors
    rw [hcontrol] at hpending
    rcases hpending error List.mem_cons_self session hsession with
      ⟨ac, hac, rfl⟩
    rcases findImplementationsToEnqueue_eq_none.mp hnone with
      ⟨other, hother, hmissing⟩
    have hfound := hapart hstages impl session ac r other hsession hac hr hother
    rw [hmissing] at hfound
    cases hfound
  · exact hmissing

theorem Apart.not_reportsUnchecked (hapart : H.FailuresApart initial)
    (h : Apart H initial s) : ¬ ReportsUnchecked H s := by
  intro ⟨hreturned, impl, c, himpl, hc, htrue⟩
  have hasked : H.StagesGiven ∨ forall impl, H.houdiniSession impl = none := by
    by_cases hstages : H.StagesGiven
    · exact Or.inl hstages
    · right
      have hunqueried := h.unqueried hstages
      rw [hreturned] at hunqueried
      intro impl
      by_contra hsome
      have hmem := hunqueried.2 impl (Option.isSome_iff_ne_none.mpr hsome)
      have hempty : s.workQueue.queue = [] := hunqueried.1
      rw [hempty] at hmem
      cases hmem
  have hfalse := hapart.asserted hasked impl c himpl hc
  rw [h.assignment c htrue] at hfalse
  cases hfalse

end Steps

/-!
# Corrupted runs exist
-/

/-- The prover that may give every answer about the assertions of a formula. -/
def anyAssertions (H : Houdini) : Prover H where
  answers := fun session _ answer => forall error, error ∈ answer.errors ->
    exists ac, .assertCmd ac ∈ session.passified.passive.cmds ∧
      error = assertCmdToCounterexample ac
  cores := fun _ _ _ _ => True

theorem anyAssertions_reports (H : Houdini) :
    H.anyAssertions.ReportsAssertions :=
  fun _ _ _ hanswer => hanswer

def startFrom (H : Houdini) (initial : Variable -> Bool)
    (queue : List Implementation) (nodup : queue.Nodup) : HoudiniState :=
  { H.start queue nodup with assignment := initial }

section Runs

variable {H : Houdini} {initial : Variable -> Bool} {s : HoudiniState}
  {impl : Implementation}

theorem startFrom_initial {queue : List Implementation} {nodup : queue.Nodup}
    (h : forall impl, impl ∈ queue <-> (H.houdiniSession impl).isSome = true) :
    H.Initial initial (H.startFrom initial queue nodup) where
  control := rfl
  workQueue := h
  blackList := rfl
  assignment := rfl
  outcomes := rfl
  cores := rfl

theorem exists_sessions (H : Houdini) :
    exists queue : List Implementation, queue.Nodup ∧ forall impl,
      impl ∈ queue <-> (H.houdiniSession impl).isSome = true := by
  refine ⟨(H.program.verified.filter
    (fun impl => (H.houdiniSession impl).isSome)).dedup, List.nodup_dedup _, ?_⟩
  intro impl
  rw [List.mem_dedup, List.mem_filter]
  constructor
  · exact fun h => h.2
  · intro h
    exact ⟨(houdiniSession_isSome.mp h).1, h⟩

theorem exists_sessions_head (h : (H.houdiniSession impl).isSome = true) :
    exists impls : List Implementation, (impl :: impls).Nodup ∧ forall other,
      other ∈ impl :: impls <-> (H.houdiniSession other).isSome = true := by
  rcases H.exists_sessions with ⟨queue, hnodup, hmem⟩
  refine ⟨queue.erase impl, ?_, ?_⟩
  · rw [List.nodup_cons]
    exact ⟨hnodup.not_mem_erase, hnodup.erase impl⟩
  · intro other
    rw [← hmem other, List.mem_cons]
    by_cases hother : other = impl
    · rw [hother]
      exact ⟨fun _ => (hmem impl).mpr h, fun _ => Or.inl rfl⟩
    · simp [hother, hnodup.mem_erase_iff]

theorem refuting_of_answer {session : HoudiniSession H.options H.program impl}
    {error : Counterexample} {r : RefutedAnnotation}
    (hr : extractRefutedAnnotation H.program impl error = some r) :
    (useAnswer H session ⟨.invalid, [error]⟩ s).control = .refuting impl [error] true := by
  have hnone : nonCandidateErrors H.program impl ⟨.invalid, [error]⟩ = [] := by
    simp [nonCandidateErrors, hr]
  unfold useAnswer
  simp only [hnone, ne_eq, not_true_eq_false, if_false]
  rfl

theorem exists_missingSession {session : HoudiniSession H.options H.program impl}
    {ac : AssertCmd} {r : RefutedAnnotation} {other : Implementation}
    (initial : Variable -> Bool) (hstages : H.StagesGiven)
    (hsession : H.houdiniSession impl = some session)
    (hac : .assertCmd ac ∈ session.passified.passive.cmds)
    (hr : extractRefutedAnnotation H.program impl (assertCmdToCounterexample ac) = some r)
    (hother : other ∈ H.lookups r) (hnone : H.houdiniSession other = none) :
    exists s₀ s, H.Initial initial s₀ ∧ H.Reaches H.anyAssertions (fun _ _ => True) s₀ s ∧
      MissingSession H s := by
  have hsome : (H.houdiniSession impl).isSome = true := by
    rw [hsession]
    rfl
  rcases exists_sessions_head hsome with ⟨impls, hnodup, hmem⟩
  let error := assertCmdToCounterexample ac
  let s₀ := H.startFrom initial (impl :: impls) hnodup
  let s₁ := s₀.goto (.verifyCurrent impl)
  let s₂ := useAnswer H session ⟨.invalid, [error]⟩ s₁
  have hgiven : (H.getAssignmentWithStages initial).isSome = true :=
    getAssignmentWithStages_isSome.mpr hstages
  rcases Option.isSome_iff_exists.mp hgiven with ⟨staged, hstaged⟩
  have hanswer : H.anyAssertions.answers session staged
      ⟨.invalid, [error]⟩ := by
    intro e he
    exact ⟨ac, hac, List.mem_singleton.mp he⟩
  have hstep₁ : Step H H.anyAssertions s₀ .internal s₁ := Step.peek rfl rfl
  have hstep₂ : Step H H.anyAssertions s₁ (.answered impl ⟨.invalid, [error]⟩)
      s₂ := Step.verify rfl hsession hstaged hanswer
  have hcontrol : s₂.control = .refuting impl [error] true :=
    refuting_of_answer hr
  have hmissing : MissingSession H s₂ := by
    unfold MissingSession
    rw [hcontrol]
    exact ⟨r, hr, findImplementationsToEnqueue_eq_none.mpr
      ⟨other, hother, hnone⟩⟩
  exact ⟨s₀, s₂, startFrom_initial hmem,
    (Relation.ReflTransGen.refl.tail ⟨_, trivial, hstep₁⟩).tail
      ⟨_, trivial, hstep₂⟩, hmissing⟩

theorem exists_verified {impls : List Implementation}
    (hstages : H.StagesGiven) (hcontrol : s.control = .outerLoop)
    (hqueue : s.workQueue.queue = impl :: impls) (hsome : (H.houdiniSession impl).isSome = true) :
    exists s', H.Reaches H.anyAssertions (fun _ _ => True) s s' ∧
      s'.control = .outerLoop ∧ s'.workQueue.queue = impls ∧ s'.assignment = s.assignment := by
  rcases Option.isSome_iff_exists.mp hsome with ⟨session, hsession⟩
  have hgiven : (H.getAssignmentWithStages s.assignment).isSome = true :=
    getAssignmentWithStages_isSome.mpr hstages
  rcases Option.isSome_iff_exists.mp hgiven with ⟨staged, hstaged⟩
  let s₁ := s.goto (.verifyCurrent impl)
  let s₂ := useAnswer H session ⟨.valid, []⟩ s₁
  have hanswer : H.anyAssertions.answers session staged ⟨.valid, []⟩ := by
    intro e he
    cases he
  have hstep₁ : Step H H.anyAssertions s .internal s₁ :=
    Step.peek hcontrol hqueue
  have hstep₂ : Step H H.anyAssertions s₁ (.answered impl ⟨.valid, []⟩) s₂ :=
    Step.verify rfl hsession hstaged hanswer
  have hreaches : H.Reaches H.anyAssertions (fun _ _ => True) s s₂ :=
    (Relation.ReflTransGen.refl.tail ⟨_, trivial, hstep₁⟩).tail
      ⟨_, trivial, hstep₂⟩
  have htail : forall t : HoudiniState, t.workQueue = s.workQueue ->
      t.dequeue.workQueue.queue = impls := by
    intro t ht
    show t.workQueue.queue.tail = impls
    rw [ht, hqueue, List.tail_cons]
  cases hcores : H.options.useUnsatCoreForContractInfer with
  | false =>
    have hs₂ : s₂ = (updateHoudiniOutcome H.program impl ⟨.valid, []⟩
        s₁).dequeue.goto .outerLoop := by
      simp [s₂, useAnswer, nonCandidateErrors, hcores]
    refine ⟨s₂, hreaches, ?_, ?_, ?_⟩
    · rw [hs₂]
      rfl
    · rw [hs₂]
      exact htail _ rfl
    · rw [hs₂]
      rfl
  | true =>
    have hs₂ : s₂ = (updateHoudiniOutcome H.program impl ⟨.valid, []⟩
        s₁).goto (.updatingUnsatCore impl) := by
      simp [s₂, useAnswer, nonCandidateErrors, hcores]
    let s₃ := (updateUnsatCore impl .valid [] s₂).dequeue.goto .outerLoop
    have hstep₃ : Step H H.anyAssertions s₂ (.coreAnswered impl .valid) s₃ :=
      Step.unsatCore (by rw [hs₂]; rfl) hsession trivial
    refine ⟨s₃, hreaches.tail ⟨_, trivial, hstep₃⟩, rfl, ?_, ?_⟩
    · have hsame : (updateUnsatCore impl .valid [] s₂).workQueue =
          s.workQueue := by
        rw [hs₂]
        rfl
      exact htail _ hsame
    · have hsame : s₃.assignment = s₂.assignment := rfl
      rw [hsame, hs₂]
      rfl

theorem exists_returned (hstages : H.StagesGiven) (hcontrol : s.control = .outerLoop)
    (hsome : forall impl, impl ∈ s.workQueue.queue -> (H.houdiniSession impl).isSome = true) :
    exists s', H.Reaches H.anyAssertions (fun _ _ => True) s s' ∧
      s'.control = .returned ∧ s'.assignment = s.assignment := by
  generalize hqueue : s.workQueue.queue = queue at hsome
  induction queue generalizing s with
  | nil =>
    have hstep : Step H H.anyAssertions s .internal (s.goto .returned) :=
      Step.finish hcontrol hqueue
    exact ⟨_, Relation.ReflTransGen.single ⟨_, trivial, hstep⟩, rfl, rfl⟩
  | cons impl impls ih =>
    rcases exists_verified hstages hcontrol hqueue
      (hsome impl List.mem_cons_self) with
      ⟨s₁, hreaches, hcontrol₁, hqueue₁, hassignment⟩
    rcases ih hcontrol₁ hqueue₁
      (fun other hother => hsome other (List.mem_cons_of_mem impl hother)) with
      ⟨s', hrest, hreturned, hsame⟩
    exact ⟨s', hreaches.trans hrest, hreturned, hsame.trans hassignment⟩

theorem exists_reportsUnchecked {c : Variable} (initial : Variable -> Bool)
    (hasked : H.StagesGiven ∨ forall impl, H.houdiniSession impl = none)
    (himpl : impl ∈ H.vcgenFailures)
    (hc : c ∈ H.program.assertedCandidates impl) (htrue : initial c = true) :
    exists s₀ s, H.Initial initial s₀ ∧ H.Reaches H.anyAssertions (fun _ _ => True) s₀ s ∧
      ReportsUnchecked H s := by
  rcases H.exists_sessions with ⟨queue, hnodup, hmem⟩
  let s₀ := H.startFrom initial queue hnodup
  have hreturned : exists s, H.Reaches H.anyAssertions (fun _ _ => True) s₀ s ∧
      s.control = .returned ∧ s.assignment = initial := by
    rcases hasked with hstages | hnone
    · exact exists_returned hstages rfl (fun other => (hmem other).mp)
    · have hempty : queue = [] := by
        apply List.eq_nil_iff_forall_not_mem.mpr
        intro other hother
        have hsome := (hmem other).mp hother
        rw [hnone other] at hsome
        cases hsome
      have hstep : Step H H.anyAssertions s₀ .internal (s₀.goto .returned) :=
        Step.finish rfl hempty
      exact ⟨_, Relation.ReflTransGen.single ⟨_, trivial, hstep⟩, rfl, rfl⟩
  rcases hreturned with ⟨s, hreaches, hcontrol, hassignment⟩
  refine ⟨s₀, s, startFrom_initial hmem, hreaches, hcontrol, impl, c, himpl, hc,
    ?_⟩
  rw [hassignment]
  exact htrue

end Runs

/--
Implementations without a formula are harmless exactly when no assertion leads to
a lookup of their sessions and no candidate that they assert is true at first.
-/
theorem failuresHarmless_iff (H : Houdini) (initial : Variable -> Bool) :
    FailuresHarmless H initial <-> FailuresApart H initial := by
  constructor
  · intro h
    constructor
    · intro hstages impl session ac r other hsession hac hr hother
      by_contra hmissing
      have hnone : H.houdiniSession other = none := by
        simpa using hmissing
      rcases exists_missingSession initial hstages hsession hac hr hother hnone
        with ⟨s₀, s, hinitial, hreaches, hfails⟩
      exact (h _ H.anyAssertions_reports s₀ s hinitial hreaches).1 hfails
    · intro hasked impl c himpl hc
      by_contra htrue
      rw [Bool.not_eq_false] at htrue
      rcases exists_reportsUnchecked initial hasked himpl hc htrue with
        ⟨s₀, s, hinitial, hreaches, hreports⟩
      exact (h _ H.anyAssertions_reports s₀ s hinitial hreaches).2 hreports
  · intro hapart prover hreports s₀ s hinitial hreaches
    have hinv := Reaches.apart hreports hinitial.apart hreaches
    exact ⟨hinv.not_missingSession hapart.lookups,
      hinv.not_reportsUnchecked hapart⟩

/-!
# A caller and a procedure without a formula
-/

/-- `implementation X()`, which is an irreducible loop. -/
def irreducibleLoop : Implementation where
  uniqueId := 6
  name := "X"
  blocks :=
    [⟨7, "start", [], .gotoCmd [8, 9]⟩, ⟨8, "left", [], .gotoCmd [9]⟩,
      ⟨9, "right", [], .gotoCmd [8]⟩]
  skipVerification := false

/-- `procedure X(); ensures c ==> false;`, for which no formula is generated. -/
def loopWithoutFormula : Houdini where
  program :=
    { constants := [candidate]
      axioms := []
      procedures := [⟨"X", [], [⟨false, guarded Expr.falseExpr⟩]⟩]
      implementations := [irreducibleLoop] }
  options := defaultHoudiniOptions
  vcgen := fun _ => none
  crossDependencies := fun _ => []
  stage := 0
  completedStages := none

/-- The caller's session is missing, and the postcondition is not checked. -/
theorem callerWithoutFormula_harmful :
    ¬ FailuresHarmless callerWithoutFormula (fun _ => true) ∧
      ¬ FailuresHarmless loopWithoutFormula (fun _ => true) := by
  constructor
  · intro h
    have hensuring : exists session,
        callerWithoutFormula.houdiniSession ensuringImpl = some session ∧
          session.passified = ensuringPassive :=
      houdiniSession_of_vcgen (by decide) rfl
    rcases hensuring with ⟨session, hsession, hpassified⟩
    have hac : .assertCmd ensuresAssert ∈ session.passified.passive.cmds := by
      rw [hpassified]
      exact List.mem_singleton.mpr rfl
    have hnone : callerWithoutFormula.houdiniSession irreducibleImpl = none :=
      rfl
    have hcaller : irreducibleImpl ∈ callerWithoutFormula.lookups
        ⟨candidate.variable, .ensures, none, ensuringImpl⟩ := by
      decide
    rcases exists_missingSession (fun _ => true) (Or.inr rfl) hsession hac rfl
      hcaller hnone with ⟨s₀, s, hinitial, hreaches, hmissing⟩
    exact (h _ (anyAssertions_reports _) s₀ s hinitial hreaches).1 hmissing
  · intro h
    have hfailed : irreducibleLoop ∈ loopWithoutFormula.vcgenFailures := by
      decide
    have hasserted : candidate.variable ∈
        loopWithoutFormula.program.assertedCandidates irreducibleLoop := by
      decide
    rcases exists_reportsUnchecked (fun _ => true) (Or.inl (Or.inr rfl)) hfailed
      hasserted rfl with ⟨s₀, s, hinitial, hreaches, hreports⟩
    exact (h _ (anyAssertions_reports _) s₀ s hinitial hreaches).2 hreports

end Houdini

end Boogie
