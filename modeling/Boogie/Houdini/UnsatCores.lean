import Boogie.Houdini.GreatestInductive

/-!
# Unsat cores

After a successful query a second query looks for the candidates that were
needed.  When it is not answered `Valid` the core is empty, as if none were.
-/

namespace Boogie

namespace Houdini

variable {H : Houdini} {prover : Prover H} {s s' s₀ : HoudiniState}
  {initial : Variable -> Bool} {impl : Implementation}

/-!
# Updating a core
-/

/-- The query before the query for a core was answered `Valid`. -/
def CoreJustified (H : Houdini) (s : HoudiniState) : Prop :=
  forall impl, s.control = .updatingUnsatCore impl ->
    forall session, H.houdiniSession impl = some session ->
      ValidUnder H session s.assignment

theorem Step.coreJustified {event : Event} (hsound : prover.Sound)
    (hstep : Step H prover s event s') : CoreJustified H s' := by
  intro current hcontrol' session hsession
  cases hstep with
  | verify hcontrol hsession' hget hanswer =>
    rename_i impl session' staged answer
    unfold useAnswer at hcontrol' ⊢
    split at hcontrol'
    · cases hcontrol'
    · rename_i hnone
      split at hcontrol'
      · rename_i hvalid
        split at hcontrol'
        · rename_i hoption
          cases hcontrol'
          rw [hsession] at hsession'
          cases hsession'
          simp only [hnone, hoption, if_true]
          intro staged' hget'
          have hsame : H.getAssignmentWithStages s.assignment =
            some staged' := hget'
          rw [hget] at hsame
          cases hsame
          exact hsound.valid session staged answer hanswer hvalid
        · cases hcontrol'
      · cases hcontrol'
      · cases hcontrol'
  | refute hcontrol =>
    rename_i impl error errors dequeue
    unfold refuteNext at hcontrol'
    split at hcontrol'
    · cases hcontrol'
    · split at hcontrol' <;> cases hcontrol'
  | flush hcontrol =>
    have hsame : s.control = .updatingUnsatCore current := hcontrol'
    rw [hcontrol] at hsame
    cases hsame
  | _ => cases hcontrol'

theorem Reaches.coreJustified (hsound : prover.Sound) (hinit : H.Initial initial s₀)
    (hreach : H.Reaches prover (fun _ _ => True) s₀ s) :
    CoreJustified H s := by
  induction hreach with
  | refl =>
    intro impl hcontrol
    rw [hinit.control] at hcontrol
    cases hcontrol
  | tail _ hstep _ =>
    rcases hstep with ⟨event, _, hstep⟩
    exact hstep.coreJustified hsound

/-- The formula is valid for whatever part of the true candidates is left. -/
def NeedsNoCandidate (H : Houdini) (s : HoudiniState)
    (session : HoudiniSession H.options H.program impl) : Prop :=
  forall assignment : Variable -> Bool,
    (forall v, v ∈ H.houdiniConstants -> s.assignment v = false ->
      assignment v = false) -> ValidUnder H session assignment

/--
After a query for a core the formula is valid whatever becomes of the
candidates that `InUnsatCore` no longer reports, exactly when the query was
answered `Valid` or the formula needs no candidate at all.
-/
theorem updateUnsatCore_stable_iff (hsound : prover.Sound)
    (hunstaged : forall v, v ∈ H.houdiniConstants -> H.Unstaged v)
    {outcome : ProverInterface.Outcome}
    {session : HoudiniSession H.options H.program impl} (hinit : H.Initial initial s₀)
    (hreach : H.Reaches prover (fun _ _ => True) s₀ s)
    (hstep : Step H prover s (.coreAnswered impl outcome) s')
    (hsession : H.houdiniSession impl = some session) :
    ValidUnder H session s'.assignment ∧ (Stable H s' session <->
        outcome = .valid ∨ NeedsNoCandidate H s session) := by
  cases hstep with
  | unsatCore hcontrol hsession' hcore =>
    rw [hsession] at hsession'
    cases hsession'
    rename_i core
    have hvalid := Reaches.coreJustified hsound hinit hreach impl hcontrol
      session hsession
    refine ⟨hvalid, ?_⟩
    have hset : ((updateUnsatCore impl outcome core s).dequeue.goto
        .outerLoop).unsatCoreSet impl =
          some (if outcome = .valid then core else []) := by
      simp [updateUnsatCore, HoudiniState.setUnsatCore,
        HoudiniState.dequeue, HoudiniState.goto]
    by_cases houtcome : outcome = .valid
    · subst houtcome
      constructor
      · exact fun _ => Or.inl rfl
      · intro _
        apply stable_of_core hunstaged hset
        exact hsound.core session _ core hcore
    · rw [if_neg houtcome] at hset
      constructor
      · intro hstable
        right
        intro assignment hremoved
        apply hstable assignment
        refine ⟨?_, hremoved⟩
        intro v _ _ hreported
        simp [HoudiniState.inUnsatCore, hset] at hreported
      · rintro (h | hneedless)
        · exact absurd h houtcome
        · intro assignment hcovers
          exact hneedless assignment hcovers.removed

/-!
# A query for a core without an answer
-/

def withUnsatCores (H : Houdini) (use : Bool) : Houdini :=
  { H with
    options := { H.options with useUnsatCoreForContractInfer := use } }

section CalleeCore

def calleeWithCores : Houdini :=
  callerAndCallee.withUnsatCores true

def calleeAnswered : HoudiniState :=
  (updateHoudiniOutcome callProgram callee ⟨.valid, []⟩
    ((calleeWithCores.start [callee, caller] callee_caller_nodup).goto
      (.verifyCurrent callee))).goto (.updatingUnsatCore callee)

theorem calleeWithCores_noStages : calleeWithCores.NoStages :=
  callerAndCallee_noStages

theorem calleeWithCores_session : exists session,
    calleeWithCores.houdiniSession callee = some session ∧ session.passified = calleePassive :=
  houdiniSession_of_vcgen (by decide) rfl

theorem calleeWithCores_initial : calleeWithCores.Initial (fun _ => true)
    (calleeWithCores.start [callee, caller] (by decide)) := by
  apply start_initial
  intro impl
  have hverified : calleeWithCores.program.verified = [callee, caller] :=
    callerAndCallee_verified
  rw [hverified]
  constructor
  · intro hmem
    refine ⟨hmem, ?_⟩
    rcases List.mem_cons.mp hmem with rfl | hmem
    · rfl
    · rw [List.mem_singleton.mp hmem]
      rfl
  · exact fun h => h.1

theorem calleeAnswered_reached :
    calleeWithCores.Reaches (calleeWithCores.rightAnswers True)
      (fun _ _ => True) (calleeWithCores.start [callee, caller] (by decide)) calleeAnswered := by
  rcases calleeWithCores_session with ⟨session, hsession, hpassified⟩
  let s₀ := calleeWithCores.start [callee, caller] (by decide)
  let s₁ := s₀.goto (.verifyCurrent callee)
  have hstep₁ : Step calleeWithCores (calleeWithCores.rightAnswers True)
      s₀ .internal s₁ :=
    Step.peek rfl rfl
  have hanswer : useAnswer calleeWithCores session ⟨.valid, []⟩ s₁ =
      calleeAnswered := rfl
  have hstep₂ : Step calleeWithCores (calleeWithCores.rightAnswers True)
      s₁ (.answered callee ⟨.valid, []⟩) calleeAnswered := by
    rw [← hanswer]
    apply Step.verify rfl hsession
      (calleeWithCores_noStages.getAssignment s₁.assignment)
    show calleeWithCores.program.Valid _
    rw [session.vc_valid_iff, hpassified]
    exact calleePassive_verified (callerAndCallee_assignment _)
  exact (Relation.ReflTransGen.refl.tail ⟨_, trivial, hstep₁⟩).tail
    ⟨_, trivial, hstep₂⟩

def calleeCoreTimedOut : HoudiniState :=
  (updateUnsatCore callee .timeOut [] calleeAnswered).dequeue.goto .outerLoop

theorem calleeCoreTimedOut_step :
    Step calleeWithCores (calleeWithCores.rightAnswers True) calleeAnswered
      (.coreAnswered callee .timeOut) calleeCoreTimedOut := by
  rcases calleeWithCores_session with ⟨session, hsession, _⟩
  have hcore : (calleeWithCores.rightAnswers True).cores session
      calleeAnswered.assignment .timeOut [] := trivial
  exact Step.unsatCore rfl hsession hcore

theorem updateUnsatCore_stable_iff_timedOut : exists session,
    calleeWithCores.houdiniSession callee = some session ∧
      ValidUnder calleeWithCores session calleeCoreTimedOut.assignment ∧
      (Stable calleeWithCores calleeCoreTimedOut session <->
        ProverInterface.Outcome.timeOut = .valid ∨
          NeedsNoCandidate calleeWithCores calleeAnswered session) := by
  rcases calleeWithCores_session with ⟨session, hsession, _⟩
  refine ⟨session, hsession, ?_⟩
  exact updateUnsatCore_stable_iff (rightAnswers_sound _ True)
    (fun v _ => calleeWithCores_noStages.unstaged v) calleeWithCores_initial
    calleeAnswered_reached calleeCoreTimedOut_step hsession

/--
After the query for its core has timed out the callee no longer depends on the
candidate, which is still true and which its formula needs.
-/
theorem calleeCoreTimedOut_forgets :
    (calleeWithCores.rightAnswers True).Sound ∧
      exists s₀ s s' session, calleeWithCores.Initial (fun _ => true) s₀ ∧
        calleeWithCores.Reaches (calleeWithCores.rightAnswers True) (fun _ _ => True) s₀ s ∧
        Step calleeWithCores (calleeWithCores.rightAnswers True) s
          (.coreAnswered callee .timeOut) s' ∧
        calleeWithCores.houdiniSession callee = some session ∧
        s'.assignment candidate.variable = true ∧ s'.inUnsatCore callee candidate.variable = false ∧
        ValidUnder calleeWithCores session s'.assignment ∧ ¬ ValidUnder calleeWithCores session
          (Function.update s'.assignment candidate.variable false) := by
  refine ⟨rightAnswers_sound _ _, ?_⟩
  rcases calleeWithCores_session with ⟨session, hsession, hpassified⟩
  refine ⟨_, calleeAnswered, calleeCoreTimedOut, session,
    calleeWithCores_initial, calleeAnswered_reached, calleeCoreTimedOut_step,
    hsession, rfl, ?_, ?_, ?_⟩
  · simp [calleeCoreTimedOut, updateUnsatCore, HoudiniState.inUnsatCore,
      HoudiniState.setUnsatCore, HoudiniState.dequeue, HoudiniState.goto]
  · intro staged hget
    rw [calleeWithCores_noStages.getAssignment] at hget
    cases hget
    rw [session.vc_valid_iff, hpassified]
    exact calleePassive_verified (callerAndCallee_assignment _)
  · intro hvalid
    have hremoved := hvalid _ (calleeWithCores_noStages.getAssignment _)
    rw [session.vc_valid_iff, hpassified] at hremoved
    refine calleePassive_not_verified ?_ hremoved
    have hvalue := callerAndCallee_assignment
      (Function.update calleeCoreTimedOut.assignment candidate.variable false)
    rwa [Function.update_self] at hvalue

end CalleeCore

end Houdini

end Boogie
