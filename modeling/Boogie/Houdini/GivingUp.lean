import Boogie.Houdini.WorklistSound

/-!
# Implementations that are given up

An implementation whose query ends without a decision takes the candidates it
asserts along.  Nothing is put back on the worklist then, so the invariant
needs that these candidates were not used.
-/

namespace Boogie

namespace Houdini

variable {H : Houdini} {prover : Prover H} {s s₀ : HoudiniState}
  {assignment : Variable -> Bool}

/--
In every run in which an implementation that is given up takes along only
candidates that no settled implementation depends on, the worklist invariant
holds in each state reached, and the implementations reported correct on exit
are.
-/
theorem worklist_sound_of_nothingStale (hp : H.program.CandidatesGuard) (hsound : prover.Sound)
    (hnames : H.DistinctNames) (hunstaged : H.options.useUnsatCoreForContractInfer = true ->
      forall v, v ∈ H.houdiniConstants -> H.Unstaged v) (hinit : H.Initial assignment s₀)
    (hreach : H.Reaches prover (NothingStale H) s₀ s) :
    WorklistInvariant H s ∧ (s.control = .returned -> ReportsSound H s) := by
  have hinvariant := Reaches.invariant hp hnames hsound hunstaged hinit hreach
  exact ⟨hinvariant.worklistInvariant, hinvariant.reportsSound⟩

theorem callerPassive_assertConstants :
    callerPassive.houdiniAssertConstants = [candidate.variable] := by
  decide

theorem calleePassive_assertConstants :
    calleePassive.houdiniAssertConstants = [] := by
  decide

def calleeGivenUp : HoudiniState :=
  (giveUp [] callee (updateHoudiniOutcome callProgram callee ⟨.timeOut, []⟩
    ((callerAndCallee.start [callee, caller] (by decide)).goto
      (.verifyCurrent callee)))).dequeue.goto .outerLoop

def callerGivenUp : HoudiniState :=
  ((giveUp [candidate.variable] caller (updateHoudiniOutcome callProgram caller
    ⟨.timeOut, []⟩ (calleeGivenUp.goto (.verifyCurrent caller)))).dequeue.goto
      .outerLoop).goto .returned

theorem callerGivenUp_reached :
    callerAndCallee.Reaches (callerAndCallee.rightAnswers True) (NothingStale callerAndCallee)
      (callerAndCallee.start [callee, caller] (by decide)) callerGivenUp := by
  rcases callee_session with ⟨session, hcallee, hcalleePassive⟩
  rcases caller_session with ⟨session', hcaller, hcallerPassive⟩
  let s₀ := callerAndCallee.start [callee, caller] (by decide)
  let s₁ := s₀.goto (.verifyCurrent callee)
  let t₁ := calleeGivenUp.goto (.verifyCurrent caller)
  let t₂ := (giveUp [candidate.variable] caller (updateHoudiniOutcome callProgram
    caller ⟨.timeOut, []⟩ t₁)).dequeue.goto .outerLoop
  have hstep₁ : Step callerAndCallee (callerAndCallee.rightAnswers True)
      s₀ .internal s₁ :=
    Step.peek rfl rfl
  have hanswer : useAnswer callerAndCallee session ⟨.timeOut, []⟩ s₁ =
      calleeGivenUp := by
    rw [calleeGivenUp, ← calleePassive_assertConstants, ← hcalleePassive]
    rfl
  have hstep₂ : Step callerAndCallee (callerAndCallee.rightAnswers True)
      s₁ (.answered callee ⟨.timeOut, []⟩) calleeGivenUp := by
    rw [← hanswer]
    exact Step.verify rfl hcallee
      (callerAndCallee_noStages.getAssignment s₁.assignment) trivial
  have hstep₃ : Step callerAndCallee (callerAndCallee.rightAnswers True)
      calleeGivenUp .internal t₁ :=
    Step.peek rfl rfl
  have hanswer' : useAnswer callerAndCallee session' ⟨.timeOut, []⟩ t₁ = t₂ := by
    simp only [t₂]
    rw [← callerPassive_assertConstants, ← hcallerPassive]
    rfl
  have hstep₄ : Step callerAndCallee (callerAndCallee.rightAnswers True)
      t₁ (.answered caller ⟨.timeOut, []⟩) t₂ := by
    rw [← hanswer']
    exact Step.verify rfl hcaller
      (callerAndCallee_noStages.getAssignment t₁.assignment) trivial
  have hstep₅ : Step callerAndCallee (callerAndCallee.rightAnswers True)
      t₂ .internal callerGivenUp :=
    Step.finish rfl rfl
  -- no implementation has been recorded correct when one is given up
  have hok₁ : NothingStale callerAndCallee s₁ (.answered callee ⟨.timeOut, []⟩) := by
    intro _ _ _ _ _ _ _ _ other _ _ _ hcorrect
    rcases hcorrect with ⟨o, ho, _⟩
    cases ho
  have hok₂ : NothingStale callerAndCallee t₁ (.answered caller ⟨.timeOut, []⟩) := by
    intro _ _ _ _ _ _ _ _ other _ _ _ hcorrect
    rcases hcorrect with ⟨o, ho, hvalid⟩
    have hoption : Function.update (fun _ => none) "A" (some ⟨.timedOut, []⟩) other.name =
        some o := ho
    by_cases hname : other.name = "A"
    · rw [hname, Function.update_self] at hoption
      cases hoption
      cases hvalid
    · rw [Function.update_of_ne hname] at hoption
      cases hoption
  have hinternal : forall s, NothingStale callerAndCallee s .internal :=
    fun _ => trivial
  exact ((((Relation.ReflTransGen.refl.tail ⟨_, hinternal _, hstep₁⟩).tail
    ⟨_, hok₁, hstep₂⟩).tail ⟨_, hinternal _, hstep₃⟩).tail
    ⟨_, hok₂, hstep₄⟩).tail ⟨_, hinternal _, hstep₅⟩

theorem worklist_sound_callerGivenUp :
    callerGivenUp.assignment candidate.variable = false ∧ callerGivenUp.control = .returned ∧
      (WorklistInvariant callerAndCallee callerGivenUp ∧ (callerGivenUp.control = .returned ->
          ReportsSound callerAndCallee callerGivenUp)) := by
  refine ⟨?_, rfl, ?_⟩
  · simp [callerGivenUp, giveUp, HoudiniState.falsify, HoudiniState.addToBlackList,
      HoudiniState.dequeue, HoudiniState.goto]
  · exact worklist_sound_of_nothingStale callProgram_guard
      (rightAnswers_sound _ True) callerAndCallee_distinctNames
      (fun hoption => absurd hoption (by decide))
      (callerAndCallee_initial (by simp)) callerGivenUp_reached

/--
When the caller is given up after the callee has verified, the callee is
reported correct although its formula is not valid without the candidate.
-/
theorem callerAndCallee_unsound :
    callerAndCallee.program.CandidatesGuard ∧ (callerAndCallee.rightAnswers True).Sound ∧
      callerAndCallee.DistinctNames ∧ exists s₀ s, callerAndCallee.Initial (fun _ => true) s₀ ∧
        s₀.workQueue.queue = callerAndCallee.buildWorkList.queue ∧
        callerAndCallee.Reaches (callerAndCallee.rightAnswers True) (fun _ _ => True) s₀ s ∧
        s.control = .returned ∧ s.RecordedCorrect callee ∧
        ¬ WorklistInvariant callerAndCallee s := by
  refine ⟨callProgram_guard, rightAnswers_sound _ _,
    callerAndCallee_distinctNames, ?_⟩
  rcases callee_session with ⟨session, hcallee, hcalleePassive⟩
  rcases caller_session with ⟨session', hcaller, hcallerPassive⟩
  let s₁ := calleeDone.goto (.verifyCurrent caller)
  let s₂ := (giveUp [candidate.variable] caller
    (updateHoudiniOutcome callProgram caller ⟨.timeOut, []⟩
      s₁)).dequeue.goto .outerLoop
  let s₃ := s₂.goto .returned
  have hstep₁ : Step callerAndCallee (callerAndCallee.rightAnswers True)
      calleeDone .internal s₁ :=
    Step.peek rfl rfl
  have hanswer : useAnswer callerAndCallee session' ⟨.timeOut, []⟩ s₁ = s₂ := by
    simp only [s₂]
    rw [← callerPassive_assertConstants, ← hcallerPassive]
    rfl
  have hstep₂ : Step callerAndCallee (callerAndCallee.rightAnswers True)
      s₁ (.answered caller ⟨.timeOut, []⟩) s₂ := by
    rw [← hanswer]
    exact Step.verify rfl hcaller
      (callerAndCallee_noStages.getAssignment s₁.assignment) trivial
  have hstep₃ : Step callerAndCallee (callerAndCallee.rightAnswers True)
      s₂ .internal s₃ :=
    Step.finish rfl rfl
  have hcorrect : s₃.RecordedCorrect callee := ⟨_, rfl, rfl⟩
  refine ⟨_, s₃, callerAndCallee_initial (by simp), callerAndCallee_buildWorkList.symm,
    (((calleeDone_reached True (fun _ => trivial) (fun _ => trivial)).tail
      ⟨_, trivial, hstep₁⟩).tail ⟨_, trivial, hstep₂⟩).tail
      ⟨_, trivial, hstep₃⟩, rfl, hcorrect, ?_⟩
  intro hinvariant
  have hnot : callee ∉ s₃.workQueue.queue := by
    show callee ∉ []
    simp
  have hvalid := hinvariant callee session hcallee hnot hcorrect _
    (callerAndCallee_noStages.getAssignment s₃.assignment)
  rw [session.vc_valid_iff, hcalleePassive] at hvalid
  have hremoved : s₃.assignment candidate.variable = false := by
    simp [s₃, s₂, giveUp, HoudiniState.falsify, HoudiniState.addToBlackList,
      HoudiniState.dequeue, HoudiniState.goto]
  refine calleePassive_not_verified ?_ hvalid
  rw [callerAndCallee_assignment, hremoved]

end Houdini

end Boogie
