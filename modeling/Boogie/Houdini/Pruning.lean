import Boogie.Houdini.BuildWorkList
import Boogie.Houdini.UnsatCores

/-!
# Pruning with unsat cores

A refuted candidate outside the core of an implementation does not put it back
on the worklist.
-/

namespace Boogie

namespace Houdini

variable {H : Houdini} {prover : Prover H} {s s' s₀ : HoudiniState}
  {initial : Variable -> Bool} {impl : Implementation}

/-!
# Cores of earlier queries

A core was found for an older assignment.  The candidates that were false then
are still false, so the core remains a justification until one of its own
candidates is removed.
-/

def CoreFound : HoudiniState -> Event -> Prop
  | _, .coreAnswered _ outcome => outcome = .valid
  | _, _ => True

def CoresSuffice (H : Houdini) (s : HoudiniState) : Prop :=
  forall impl session core, H.houdiniSession impl = some session ->
    s.unsatCoreSet impl = some core ->
    forall assignment : Variable -> Bool,
      (forall v, v ∈ core -> v ∈ H.houdiniConstants -> assignment v = true) ->
      (forall v, v ∈ H.houdiniConstants -> s.assignment v = false ->
        assignment v = false) ->
      ValidUnder H session assignment

structure Shrinks (s s' : HoudiniState) : Prop where
  removed : forall v, s.assignment v = false -> s'.assignment v = false
  cores : s'.unsatCoreSet = s.unsatCoreSet

theorem falsify_removed {v w : Variable} (h : s.assignment w = false) :
    (s.falsify v).assignment w = false := by
  by_cases hw : w = v
  · simp [HoudiniState.falsify, hw]
  · simpa [HoudiniState.falsify, hw] using h

theorem foldl_falsify_shrinks (vs : List Variable) (s : HoudiniState) :
    Shrinks s (vs.foldl HoudiniState.falsify s) := by
  induction vs generalizing s with
  | nil => exact ⟨fun _ h => h, rfl⟩
  | cons v vs ih =>
    have hrest := ih (s.falsify v)
    exact ⟨fun w hw => hrest.removed w (falsify_removed hw), hrest.cores⟩

theorem useAnswer_shrinks
    {session : HoudiniSession H.options H.program impl} {answer : Answer} :
    Shrinks s (useAnswer H session answer s) := by
  have hgiveUp := foldl_falsify_shrinks
    session.passified.houdiniAssertConstants
    (updateHoudiniOutcome H.program impl answer s)
  unfold useAnswer
  simp only
  split
  · exact ⟨fun _ h => h, rfl⟩
  · split
    · split <;> exact ⟨fun _ h => h, rfl⟩
    · exact ⟨fun _ h => h, rfl⟩
    · exact ⟨hgiveUp.removed, hgiveUp.cores⟩

theorem refuteNext_shrinks {error : Counterexample}
    {errors : List Counterexample} {dequeue : Bool} :
    Shrinks s (refuteNext H impl error errors dequeue s) := by
  unfold refuteNext
  split
  · exact ⟨fun _ h => h, rfl⟩
  · split
    · rename_i hrelated
      unfold addRelatedToWorkList at hrelated
      split at hrelated
      · rename_i found _
        cases hrelated
        have hsame := (foldl_enqueue_spec found s).1
        refine ⟨fun v hv => ?_, hsame.cores⟩
        show (found.foldl enqueueUnlessBlackListed s).assignment v = false
        rwa [hsame.assignment]
      · cases hrelated
    · exact ⟨fun _ h => h, rfl⟩

theorem Step.shrinks {event : Event} (hstep : Step H prover s event s') :
    Shrinks s s' ∨ exists impl session outcome core, event = .coreAnswered impl outcome ∧
        H.houdiniSession impl = some session ∧ prover.cores session s.assignment outcome core ∧
        s'.assignment = s.assignment ∧ s'.unsatCoreSet = Function.update s.unsatCoreSet impl
          (some (if outcome = .valid then core else [])) := by
  cases hstep with
  | verify => exact Or.inl useAnswer_shrinks
  | unsatCore _ hsession hcore =>
    exact Or.inr ⟨_, _, _, _, rfl, hsession, hcore, rfl, rfl⟩
  | refute => exact Or.inl refuteNext_shrinks
  | updateAssignment => exact Or.inl ⟨fun _ h => falsify_removed h, rfl⟩
  | _ => exact Or.inl ⟨fun _ h => h, rfl⟩

theorem CoresSuffice.shrinks (hshrinks : Shrinks s s')
    (h : CoresSuffice H s) : CoresSuffice H s' := by
  intro impl session core hsession hset assignment hkept hremoved
  rw [hshrinks.cores] at hset
  apply h impl session core hsession hset assignment hkept
  intro v hv hfalse
  exact hremoved v hv (hshrinks.removed v hfalse)

theorem CoresSuffice.step {event : Event} (hsound : prover.Sound)
    (hunstaged : forall v, v ∈ H.houdiniConstants -> H.Unstaged v)
    (hfound : CoreFound s event) (hstep : Step H prover s event s')
    (h : CoresSuffice H s) : CoresSuffice H s' := by
  rcases hstep.shrinks with hshrinks |
    ⟨current, session, outcome, core, rfl, hsession, hcore, hassignment, hset⟩
  · exact h.shrinks hshrinks
  · have houtcome : outcome = .valid := hfound
    subst houtcome
    intro impl session' core' hsession' hset' assignment hkept hremoved
    rw [hassignment] at hremoved
    rw [hset] at hset'
    by_cases himpl : impl = current
    · subst himpl
      have hsame : session = session' :=
        Option.some.inj (hsession.symm.trans hsession')
      subst hsame
      simp only [Function.update_self, if_true, Option.some.injEq] at hset'
      subst hset'
      have hself : (updateUnsatCore impl .valid core s).unsatCoreSet impl =
          some core := by
        simp [updateUnsatCore, HoudiniState.setUnsatCore]
      have hstable : Stable H (updateUnsatCore impl .valid core s) session :=
        stable_of_core hunstaged hself (hsound.core session _ core hcore)
      apply hstable assignment
      refine ⟨?_, hremoved⟩
      intro v hv _ hreported
      apply hkept v _ hv
      simpa [HoudiniState.inUnsatCore, updateUnsatCore,
        HoudiniState.setUnsatCore] using hreported
    · rw [Function.update_of_ne himpl] at hset'
      exact h impl session' core' hsession' hset' assignment hkept hremoved

theorem Reaches.coresSuffice (hsound : prover.Sound)
    (hunstaged : forall v, v ∈ H.houdiniConstants -> H.Unstaged v) (hinit : H.Initial initial s₀)
    (hreach : H.Reaches prover CoreFound s₀ s) : CoresSuffice H s := by
  induction hreach with
  | refl =>
    intro impl session core _ hset
    rw [hinit.cores] at hset
    cases hset
  | tail _ hstep ih =>
    rcases hstep with ⟨event, hfound, hstep⟩
    exact ih.step hsound hunstaged hfound hstep

theorem CoresSuffice.validUnder {core : List Variable}
    {session : HoudiniSession H.options H.program impl}
    (h : CoresSuffice H s) (hsession : H.houdiniSession impl = some session)
    (hset : s.unsatCoreSet impl = some core) :
    ValidUnder H session s.assignment ∨
      exists v, v ∈ core ∧ v ∈ H.houdiniConstants ∧ s.assignment v = false := by
  by_cases hlost : exists v, v ∈ core ∧ v ∈ H.houdiniConstants ∧
      s.assignment v = false
  · exact Or.inr hlost
  · left
    apply h impl session core hsession hset s.assignment
    · intro v hv hconstant
      by_contra hfalse
      exact hlost ⟨v, hv, hconstant, by simpa using hfalse⟩
    · exact fun _ _ hfalse => hfalse

/-!
# Runs with and without cores
-/

theorem passified_of_session
    {session : HoudiniSession H.options H.program impl} (h : H.houdiniSession impl = some session) :
    impl ∈ H.callGraph.ns ∧ H.vcgen impl = some session.passified := by
  unfold houdiniSession at h
  split at h
  · rename_i hmem
    split at h
    · rename_i P hP
      refine ⟨hmem, ?_⟩
      rcases HoudiniSession.create_isSome (o := H.options) P with
        ⟨session', hsession', hpassified⟩
      rw [h] at hsession'
      cases hsession'
      rw [hP, hpassified]
    · cases h
  · cases h

theorem inductiveSet_iff {S : Set Variable} :
    H.InductiveSet S <-> forall impl, impl ∈ H.callGraph.ns -> forall P, H.vcgen impl = some P ->
      forall staged, H.getAssignmentWithStages (assignmentOf S) = some staged ->
        H.program.Verified P.passive staged := by
  constructor
  · intro h impl hmem P hP staged hget
    rcases houdiniSession_of_vcgen (Program.mem_buildCallGraph_ns.mp hmem) hP
      with ⟨session, hsession, hpassified⟩
    have hvalid := h impl session hsession staged hget
    rwa [session.vc_valid_iff, hpassified] at hvalid
  · intro h impl session hsession staged hget
    rw [session.vc_valid_iff]
    have hmade := passified_of_session hsession
    exact h impl hmade.1 session.passified hmade.2 staged hget

theorem inductiveSet_withUnsatCores {use : Bool} {S : Set Variable} :
    (H.withUnsatCores use).InductiveSet S <-> H.InductiveSet S := by
  rw [inductiveSet_iff, inductiveSet_iff]
  exact Iff.rfl

theorem Regular.withoutUnsatCores (h : H.Regular) :
    (H.withUnsatCores false).Regular where
  generated := h.generated
  unstaged := h.unstaged
  stages := h.stages
  cores := fun hoption => absurd hoption (by simp [Houdini.withUnsatCores])
  dependencies := h.dependencies

/-!
# Outcomes
-/

def correctOutcome : VCGenOutcome where
  outcome := .correct
  errors := []

structure Reported (H : Houdini) (s : HoudiniState) : Prop where
  done : forall impl, impl ∈ H.program.verified ->
    (exists other, other ∈ s.workQueue.queue ∧ other.name = impl.name) ∨
      s.implementationOutcomes impl.name = some correctOutcome
  core : forall impl, s.control = .updatingUnsatCore impl ->
    s.implementationOutcomes impl.name = some correctOutcome

theorem Initial.reported (hregular : H.Regular) (h : H.Initial initial s) :
    Reported H s where
  done := by
    intro impl himpl
    left
    refine ⟨impl, ?_, rfl⟩
    rw [h.workQueue, houdiniSession_isSome]
    exact ⟨himpl, hregular.generated impl himpl⟩
  core := by
    intro impl hcontrol
    rw [h.control] at hcontrol
    cases hcontrol

theorem Reported.same (h : Reported H s) (hqueue : forall impl, impl ∈ s.workQueue.queue ->
      impl ∈ s'.workQueue.queue) (houtcomes : s'.implementationOutcomes = s.implementationOutcomes)
    (hcontrol : forall impl, s'.control ≠ .updatingUnsatCore impl) :
    Reported H s' where
  done := by
    intro impl himpl
    rw [houtcomes]
    rcases h.done impl himpl with ⟨other, hother, hname⟩ | hcorrect
    · exact Or.inl ⟨other, hqueue other hother, hname⟩
    · exact Or.inr hcorrect
  core := fun impl hupdating => absurd hupdating (hcontrol impl)

theorem Reported.dequeue {impls : List Implementation} (h : Reported H s)
    (hqueue : s.workQueue.queue = impl :: impls)
    (hcorrect : s.implementationOutcomes impl.name = some correctOutcome) :
    Reported H (s.dequeue.goto .outerLoop) where
  done := by
    intro current hcurrent
    rcases h.done current hcurrent with ⟨other, hother, hname⟩ | hdone
    · rw [hqueue] at hother
      rcases List.mem_cons.mp hother with rfl | hother
      · right
        rw [← hname]
        exact hcorrect
      · left
        refine ⟨other, ?_, hname⟩
        show other ∈ s.workQueue.queue.tail
        rw [hqueue]
        exact hother
    · exact Or.inr hdone
  core := fun _ hupdating => nomatch hupdating

theorem Reported.update {impls : List Implementation} (answer : Answer)
    (h : Reported H s) (hqueue : s.workQueue.queue = impl :: impls)
    (hcontrol : s.control = .verifyCurrent impl) :
    Reported H (updateHoudiniOutcome H.program impl answer s) where
  done := by
    intro current hcurrent
    by_cases hname : current.name = impl.name
    · left
      refine ⟨impl, ?_, hname.symm⟩
      show impl ∈ s.workQueue.queue
      rw [hqueue]
      exact List.mem_cons_self
    · rcases h.done current hcurrent with hqueued | hdone
      · exact Or.inl hqueued
      · right
        simpa [updateHoudiniOutcome, HoudiniState.recordOutcome, hname]
          using hdone
  core := by
    intro current hupdating
    have hsame : s.control = .updatingUnsatCore current := hupdating
    rw [hcontrol] at hsame
    cases hsame

theorem Reported.useAnswer
    {session : HoudiniSession H.options H.program impl}
    {staged : Variable -> Option Bool} {answer : Answer}
    {impls : List Implementation} (hdecides : prover.Decides)
    (hcontrol : s.control = .verifyCurrent impl) (hqueue : s.workQueue.queue = impl :: impls)
    (hanswer : prover.answers session staged answer)
    (hok : nonCandidateErrors H.program impl answer = [])
    (h : Reported H s) : Reported H (useAnswer H session answer s) := by
  have hupdate := h.update answer hqueue hcontrol
  unfold Houdini.useAnswer
  simp only [hok, ne_eq, not_true_eq_false, if_false]
  rcases hdecides.answer session staged answer hanswer with houtcome | houtcome
  · have hcorrect : (updateHoudiniOutcome H.program impl answer
        s).implementationOutcomes impl.name = some correctOutcome := by
      simp [updateHoudiniOutcome, HoudiniState.recordOutcome, houtcome, hok,
        proverInterfaceOutcomeToConditionGenerationOutcome, correctOutcome]
    simp only [houtcome]
    split
    · refine ⟨hupdate.done, ?_⟩
      intro current hupdating
      cases hupdating
      exact hcorrect
    · exact hupdate.dequeue hqueue hcorrect
  · simp only [houtcome]
    exact hupdate.same (fun _ himpl => himpl) rfl (fun _ h => by cases h)

theorem Reported.step {event : Event} (hdecides : prover.Decides)
    (hok : CandidateErrorsOnly H event) (hsearch : SearchInvariant H initial s)
    (hstep : Step H prover s event s') (h : Reported H s) :
    Reported H s' := by
  have hcurrent := hsearch.control
  cases hstep with
  | verify hcontrol hsession hget hanswer =>
    rw [hcontrol] at hcurrent
    rcases hcurrent.head with ⟨impls, hqueue⟩
    exact h.useAnswer hdecides hcontrol hqueue hanswer hok
  | unsatCore hcontrol hsession hcore =>
    rename_i impl session outcome core
    rw [hcontrol] at hcurrent
    rcases hcurrent.1.head with ⟨impls, hqueue⟩
    have hset : Reported H (updateUnsatCore impl outcome core s) :=
      ⟨h.done, h.core⟩
    exact hset.dequeue hqueue (h.core _ hcontrol)
  | refute hcontrol =>
    rename_i impl error errors dequeue
    unfold refuteNext
    split
    · exact h.same (fun _ himpl => himpl) rfl (fun _ h => nomatch h)
    · split
      · rename_i r _ s₁ hrelated
        unfold addRelatedToWorkList at hrelated
        split at hrelated
        · rename_i found hfound
          cases hrelated
          have hsame := (foldl_enqueue_spec found s).1
          exact h.same hsame.subset hsame.outcomes (fun _ h => nomatch h)
        · cases hrelated
      · exact h.same (fun _ himpl => himpl) rfl (fun _ h => nomatch h)
  | leave hcontrol =>
    rw [hcontrol] at hcurrent
    exact absurd rfl (hcurrent.2.2 rfl)
  | flush hcontrol =>
    rw [hcontrol] at hcurrent
    exact hcurrent.elim
  | _ => exact h.same (fun _ himpl => himpl) rfl (fun _ h => nomatch h)

theorem Reaches.reported (hp : H.program.CandidatesGuard)
    (hregular : H.Regular) (hsound : prover.Sound) (hdecides : prover.Decides)
    (hinit : H.Initial initial s₀)
    (hreach : H.Reaches prover (fun _ => CandidateErrorsOnly H) s₀ s) :
    Reported H s := by
  induction hreach with
  | refl => exact hinit.reported hregular
  | tail hreach hstep ih =>
    rcases hstep with ⟨event, hok, hstep⟩
    have hsearch :=
      Reaches.searchInvariant hp hregular hsound hdecides hinit hreach
    exact ih.step hdecides hok hsearch hstep

theorem Reported.correct_of_empty (h : Reported H s)
    (hempty : s.workQueue.queue = []) (himpl : impl ∈ H.program.verified) :
    s.implementationOutcomes impl.name = some correctOutcome := by
  rcases h.done impl himpl with ⟨other, hother, _⟩ | hcorrect
  · rw [hempty] at hother
    cases hother
  · exact hcorrect

/--
Pruning with unsat cores loses nothing.  If every query for a core is answered
`Valid`, then whatever else happens, the formula of an implementation with a
core is valid until one of the candidates of this core is removed; the worklist
invariant holds in every run that leaves nothing stale; and if the queries are
decided and only candidates fail, the candidates left and the outcomes are
those of any run without unsat cores.
-/
theorem unsatCores_lossless (hp : H.program.CandidatesGuard) (hsound : prover.Sound)
    (hunstaged : forall v, v ∈ H.houdiniConstants -> H.Unstaged v) (hinit : H.Initial initial s₀) :
    (forall s, H.Reaches prover CoreFound s₀ s ->
      forall impl session core, H.houdiniSession impl = some session ->
        s.unsatCoreSet impl = some core -> ValidUnder H session s.assignment ∨
          exists v, v ∈ core ∧ v ∈ H.houdiniConstants ∧ s.assignment v = false) ∧
    (H.DistinctNames -> forall s, H.Reaches prover (NothingStale H) s₀ s -> WorklistInvariant H s) ∧
    (H.Regular -> prover.Decides ->
      forall s, H.Reaches prover (fun _ => CandidateErrorsOnly H) s₀ s -> s.control = .returned ->
      forall (prover' : Prover (H.withUnsatCores false)) (t₀ t : HoudiniState),
        prover'.Sound -> prover'.Decides -> (H.withUnsatCores false).Initial initial t₀ ->
        (H.withUnsatCores false).Reaches prover'
          (fun _ => CandidateErrorsOnly (H.withUnsatCores false)) t₀ t -> t.control = .returned ->
          H.trueCandidates s.assignment = H.trueCandidates t.assignment ∧
            forall impl, impl ∈ H.program.verified -> s.implementationOutcomes impl.name =
                t.implementationOutcomes impl.name) := by
  refine ⟨?_, ?_, ?_⟩
  · intro s hreach impl session core hsession hset
    have hsuffice := Reaches.coresSuffice hsound hunstaged hinit hreach
    exact hsuffice.validUnder hsession hset
  · intro hnames s hreach
    have hinvariant :=
      Reaches.invariant hp hnames hsound (fun _ => hunstaged) hinit hreach
    exact hinvariant.worklistInvariant
  · intro hregular hdecides s hreach hreturned prover' t₀ t hsound' hdecides'
      hinit' hreach' hreturned'
    have hregular' := hregular.withoutUnsatCores
    have hsearch :=
      Reaches.searchInvariant hp hregular hsound hdecides hinit hreach
    have hsearch' := Reaches.searchInvariant (H := H.withUnsatCores false) hp
      hregular' hsound' hdecides' hinit' hreach'
    constructor
    · have hgreatest := hsearch.isGreatest hp hregular hreturned
      have hgreatest' : IsGreatest
          {S | S ⊆ H.trueCandidates initial ∧
            (H.withUnsatCores false).InductiveSet S}
          (H.trueCandidates t.assignment) :=
        SearchInvariant.isGreatest (H := H.withUnsatCores false) hp hregular'
          hsearch' hreturned'
      simp only [inductiveSet_withUnsatCores] at hgreatest'
      exact hgreatest.unique hgreatest'
    · intro impl himpl
      have hqueue := hsearch.control
      rw [hreturned] at hqueue
      have hqueue' := hsearch'.control
      rw [hreturned'] at hqueue'
      have hreported :=
        Reaches.reported hp hregular hsound hdecides hinit hreach
      have hreported' := Reaches.reported (H := H.withUnsatCores false) hp
        hregular' hsound' hdecides' hinit' hreach'
      rw [hreported.correct_of_empty hqueue.1 himpl,
        hreported'.correct_of_empty hqueue'.1 himpl]

/-!
# A caller that needs no candidate

The caller `X` assumes the postcondition of `P` but its formula is valid
without.  `P` calls `X`, so the two are one component of the call graph, and the
worklist starts with `X`.  With cores `X` is verified once; without it is verified
again when the postcondition is refuted.
-/

section IdleCaller

def idleCallerBlock : Block where
  uniqueId := 7
  label := "start"
  cmds := [.callCmd ⟨"P", [], []⟩]
  transferCmd := .returnCmd

/-- `implementation X() { call P(); }` -/
def idleCaller : Implementation where
  uniqueId := 6
  name := "X"
  blocks := [idleCallerBlock]
  skipVerification := false

def recursiveBlock : Block where
  uniqueId := 5
  label := "start"
  cmds := [.callCmd ⟨"X", [], []⟩]
  transferCmd := .returnCmd

/-- `implementation P() { call X(); }` -/
def recursiveImpl : Implementation where
  uniqueId := 4
  name := "P"
  blocks := [recursiveBlock]
  skipVerification := false

/-- `procedure P(); ensures c ==> false;` and `procedure X();` -/
def pruneProgram : Program where
  constants := [candidate]
  axioms := []
  procedures := ensuresProgram.procedures
  implementations := [idleCaller, recursiveImpl]

def idleAssume : AssumeCmd where
  uniqueId := 8
  expr := guarded Expr.falseExpr
  attributes := []

def idleCallerPassiveBlock : Block where
  uniqueId := 7
  label := "start"
  cmds := [.assumeCmd idleAssume]
  transferCmd := .returnCmd

theorem pruneProgram_verified :
    pruneProgram.verified = [idleCaller, recursiveImpl] := by
  decide

theorem pruneProgram_annotates {e : Expr} {site : Site} (h : pruneProgram.Annotates e site) :
    site = .ensuresOf "P" ∧ e = guarded Expr.falseExpr := by
  cases site with
  | requiresOf proc =>
    have h' : ensuresProgram.Annotates e (.requiresOf proc) := h
    exact ensuresProgram_annotates h'
  | ensuresOf proc =>
    have h' : ensuresProgram.Annotates e (.ensuresOf proc) := h
    exact ensuresProgram_annotates h'
  | bodyOf impl =>
    rcases h with ⟨himpl, b, hb, cmd, hcmd, he⟩
    simp only [pruneProgram, List.mem_cons, List.not_mem_nil, or_false]
      at himpl
    rcases himpl with rfl | rfl
    · rw [List.mem_singleton.mp hb] at hcmd
      rw [List.mem_singleton.mp hcmd] at he
      cases he
    · rw [List.mem_singleton.mp hb] at hcmd
      rw [List.mem_singleton.mp hcmd] at he
      cases he

theorem pruneProgram_resolves :
    pruneProgram.Resolves (guarded Expr.falseExpr) :=
  ensures_resolves

theorem pruneProgram_guard : pruneProgram.CandidatesGuard where
  guarded := by
    intro e site h c hc _
    rw [(pruneProgram_annotates h).2, mem_ensuresProgram_constants.mp hc]
    exact ensures_matchCandidate
  single := by
    intro c _ e e' site site' h h' _ _
    rw [(pruneProgram_annotates h).1, (pruneProgram_annotates h').1]
  resolved := by
    intro e site h
    rw [(pruneProgram_annotates h).2]
    exact pruneProgram_resolves
  axioms := by
    intro c _ e he
    cases he

theorem prune_annotates :
    pruneProgram.Annotates (guarded Expr.falseExpr) (.ensuresOf "P") :=
  ⟨_, List.mem_cons_self, rfl, _, List.mem_cons_self, rfl⟩

def prunePassive : PassifiedImpl pruneProgram recursiveImpl where
  passive := ensuringPassive.passive
  resolves := ensuringPassive.resolves
  asserts := by
    intro ac hac
    cases List.mem_singleton.mp hac
    exact ⟨.ensuresOf "P", guarded Expr.falseExpr, rfl, rfl, prune_annotates,
      fun c hc => Iff.rfl, rfl⟩
  assumes := by
    intro ac hac
    cases List.mem_singleton.mp hac

def idlePassive : PassifiedImpl pruneProgram idleCaller where
  passive := PassiveProgram.single idleCallerPassiveBlock (by decide) rfl
    (by decide) (by decide)
  resolves := by
    intro cmd hcmd e he
    rw [List.mem_singleton.mp hcmd] at he
    cases he
    exact pruneProgram_resolves
  asserts := by
    intro ac hac
    cases List.mem_singleton.mp hac
  assumes := by
    intro ac hac c hc hmem
    cases List.mem_singleton.mp hac
    refine ⟨.ensuresOf "P", guarded Expr.falseExpr, ?_, prune_annotates,
      fun c hc => Iff.rfl, rfl⟩
    show "P" ∈ idleCaller.callees
    decide

def pruning (use : Bool) : Houdini where
  program := pruneProgram
  options :=
    { defaultHoudiniOptions with useUnsatCoreForContractInfer := use }
  vcgen := fun impl =>
    if h : impl = idleCaller then some (h ▸ idlePassive)
    else if h : impl = recursiveImpl then some (h ▸ prunePassive)
    else none
  crossDependencies := fun _ => []
  stage := 0
  completedStages := none

theorem pruning_noStages (use : Bool) : (pruning use).NoStages := by
  intro c hc
  rw [List.mem_singleton.mp hc]
  decide

theorem pruning_regular (use : Bool) : (pruning use).Regular where
  generated := by
    intro impl himpl
    have himpl' : impl ∈ [idleCaller, recursiveImpl] :=
      pruneProgram_verified ▸ himpl
    rcases List.mem_cons.mp himpl' with rfl | himpl'
    · rfl
    · rw [List.mem_singleton.mp himpl']
      rfl
  unstaged := fun v _ => (pruning_noStages use).unstaged v
  stages := fun _ c hc => (pruning_noStages use c hc).2
  cores := fun _ => pruning_noStages use
  dependencies := fun hoption => absurd hoption (by simp [pruning,
    defaultHoudiniOptions])

theorem pruning_distinctNames (use : Bool) : (pruning use).DistinctNames := by
  intro impl impl' himpl himpl' hname
  have hmem : impl ∈ [idleCaller, recursiveImpl] :=
    pruneProgram_verified ▸ Program.mem_buildCallGraph_ns.mp himpl
  have hmem' : impl' ∈ [idleCaller, recursiveImpl] :=
    pruneProgram_verified ▸ Program.mem_buildCallGraph_ns.mp himpl'
  simp only [List.mem_cons, List.not_mem_nil, or_false] at hmem hmem'
  rcases hmem with rfl | rfl <;> rcases hmem' with rfl | rfl
  · rfl
  · simp [idleCaller, recursiveImpl] at hname
  · simp [idleCaller, recursiveImpl] at hname
  · rfl

def pruningStart (use : Bool) : HoudiniState :=
  (pruning use).start [idleCaller, recursiveImpl] (by decide)

theorem pruningStart_workQueue (use : Bool) :
    (pruningStart use).workQueue.queue = (pruning use).buildWorkList.queue := by
  cases use <;> decide

theorem pruning_initial (use : Bool) :
    (pruning use).Initial (fun _ => true) (pruningStart use) := by
  apply start_initial
  intro impl
  have hverified : (pruning use).program.verified =
      [idleCaller, recursiveImpl] :=
    pruneProgram_verified
  rw [hverified]
  constructor
  · intro hmem
    refine ⟨hmem, ?_⟩
    rcases List.mem_cons.mp hmem with rfl | hmem
    · rfl
    · rw [List.mem_singleton.mp hmem]
      rfl
  · exact fun h => h.1

theorem pruning_idleSession (use : Bool) : exists session,
    (pruning use).houdiniSession idleCaller = some session ∧ session.passified = idlePassive := by
  apply houdiniSession_of_vcgen _ rfl
  show idleCaller ∈ pruneProgram.verified
  decide

theorem pruning_ensuringSession (use : Bool) : exists session,
    (pruning use).houdiniSession recursiveImpl = some session ∧
      session.passified = prunePassive := by
  apply houdiniSession_of_vcgen _ rfl
  show recursiveImpl ∈ pruneProgram.verified
  decide

theorem idlePassive_verified (assignment : Variable -> Option Bool) :
    pruneProgram.Verified idlePassive.passive assignment := by
  by_contra hnot
  rcases Program.not_verified_iff.mp hnot with ⟨ac, hac, _⟩
  cases List.mem_singleton.mp hac

theorem prunePassive_verified {assignment : Variable -> Option Bool}
    (h : assignment candidate.variable = some false) :
    pruneProgram.Verified prunePassive.passive assignment := by
  by_contra hnot
  rcases Program.not_verified_iff.mp hnot with
    ⟨ac, hac, U, hU, C, ρ, _, hagrees, hfalse⟩
  cases List.mem_singleton.mp hac
  apply hfalse.not_holds
  apply holds_guarded.mpr
  intro htrue
  have hvalue := hagrees candidate.variable (List.mem_singleton.mpr rfl) false h
  rw [hvalue] at htrue
  cases htrue

theorem prunePassive_refutes {assignment : Variable -> Option Bool}
    (h : assignment candidate.variable = some true) :
    pruneProgram.Refutes prunePassive.passive assignment ensuresAssert :=
  ensuringPassive_refutes h

theorem pruning_value (use : Bool) (assignment : Variable -> Bool) :
    (pruning use).coreAssignment assignment (pruning use).houdiniConstants
      candidate.variable = some (assignment candidate.variable) := by
  have hc : candidate.variable ∈ (pruning use).houdiniConstants :=
    mem_ensuresProgram_constants.mpr rfl
  unfold coreAssignment
  cases h : assignment candidate.variable <;> simp [hc]

def ensuringError : Counterexample :=
  assertCmdToCounterexample ensuresAssert

def ensuringRefuted : RefutedAnnotation where
  constant := candidate.variable
  kind := .ensures
  calleeProc := none
  refutationSite := recursiveImpl

def afterRefutation (found : List Implementation) (s : HoudiniState) :
    HoudiniState :=
  ((((found.foldl enqueueUnlessBlackListed
    ((updateHoudiniOutcome pruneProgram recursiveImpl
      ⟨.invalid, [ensuringError]⟩ (s.goto (.verifyCurrent recursiveImpl))).goto
        (.refuting recursiveImpl [ensuringError] true))).goto
      (.updatingAssignment recursiveImpl ensuringRefuted [])).falsify
      candidate.variable).goto (.refuting recursiveImpl [] false)).goto
    (.verifyCurrent recursiveImpl)

theorem afterRefutation_reached (use : Bool) (mayGiveUp : Prop)
    (found : List Implementation) {ok : HoudiniState -> Event -> Prop}
    {impls : List Implementation} {s : HoudiniState} (hinternal : forall s, ok s .internal)
    (hinvalid : forall s, ok s (.answered recursiveImpl ⟨.invalid, [ensuringError]⟩))
    (hcontrol : s.control = .outerLoop) (hqueue : s.workQueue.queue = recursiveImpl :: impls)
    (htrue : s.assignment candidate.variable = true) (hfound : found =
      if s.inUnsatCore idleCaller candidate.variable then [idleCaller]
      else []) :
    (pruning use).Reaches ((pruning use).rightAnswers mayGiveUp) ok s
      (afterRefutation found s) := by
  rcases pruning_ensuringSession use with ⟨session, hsession, hpassified⟩
  rcases pruning_idleSession use with ⟨idleSession, hidle, _⟩
  let s₁ := s.goto (.verifyCurrent recursiveImpl)
  let s₂ := (updateHoudiniOutcome pruneProgram recursiveImpl
    ⟨.invalid, [ensuringError]⟩ s₁).goto
      (.refuting recursiveImpl [ensuringError] true)
  let s₃ := (found.foldl enqueueUnlessBlackListed s₂).goto
    (.updatingAssignment recursiveImpl ensuringRefuted [])
  let s₄ := (s₃.falsify candidate.variable).goto
    (.refuting recursiveImpl [] false)
  have hstep₁ : Step (pruning use) ((pruning use).rightAnswers mayGiveUp)
      s .internal s₁ :=
    Step.peek hcontrol hqueue
  have hanswer : useAnswer (pruning use) session
      ⟨.invalid, [ensuringError]⟩ s₁ = s₂ := rfl
  have hstep₂ : Step (pruning use) ((pruning use).rightAnswers mayGiveUp)
      s₁ (.answered recursiveImpl ⟨.invalid, [ensuringError]⟩) s₂ := by
    rw [← hanswer]
    apply Step.verify rfl hsession
      ((pruning_noStages use).getAssignment s₁.assignment)
    refine ⟨by simp, ?_⟩
    intro e he
    rw [List.mem_singleton.mp he, hpassified]
    refine ⟨ensuresAssert, List.mem_singleton.mpr rfl, rfl, ?_⟩
    apply prunePassive_refutes
    rw [pruning_value]
    exact congrArg some htrue
  have hfind : findImplementationsToEnqueue (pruning use) s₂ ensuringRefuted =
      some found := by
    have hpredecessors : (pruning use).callGraph.predecessors recursiveImpl =
        [idleCaller] := by
      show pruneProgram.buildCallGraph.predecessors recursiveImpl = _
      decide
    show inCore (pruning use) s₂ candidate.variable (fun _ => true)
      ((pruning use).callGraph.predecessors recursiveImpl) = _
    rw [hpredecessors, hfound]
    simp only [inCore, if_true, hidle]
    rfl
  have hrefute : refuteNext (pruning use) recursiveImpl ensuringError [] true
      s₂ = s₃ := by
    have hextract : extractRefutedAnnotation (pruning use).program recursiveImpl
        ensuringError = some ensuringRefuted := by
      show extractRefutedAnnotation pruneProgram recursiveImpl _ = _
      decide
    simp only [refuteNext, hextract, addRelatedToWorkList, hfind]
    rfl
  have hstep₃ : Step (pruning use) ((pruning use).rightAnswers mayGiveUp)
      s₂ .internal s₃ := by
    rw [← hrefute]
    exact Step.refute rfl
  have hstep₄ : Step (pruning use) ((pruning use).rightAnswers mayGiveUp)
      s₃ .internal s₄ :=
    Step.updateAssignment (r := ensuringRefuted) rfl
  have hstep₅ : Step (pruning use) ((pruning use).rightAnswers mayGiveUp)
      s₄ .internal (afterRefutation found s) :=
    Step.verifyAgain rfl
  exact ((((Relation.ReflTransGen.refl.tail ⟨_, hinternal _, hstep₁⟩).tail
    ⟨_, hinvalid _, hstep₂⟩).tail ⟨_, hinternal _, hstep₃⟩).tail
    ⟨_, hinternal _, hstep₄⟩).tail ⟨_, hinternal _, hstep₅⟩

def idleDone : HoudiniState :=
  (updateUnsatCore idleCaller .valid []
    ((updateHoudiniOutcome pruneProgram idleCaller ⟨.valid, []⟩
      ((pruningStart true).goto (.verifyCurrent idleCaller))).goto
        (.updatingUnsatCore idleCaller))).dequeue.goto .outerLoop

def prunedReturned : HoudiniState :=
  ((updateUnsatCore recursiveImpl .valid []
    ((updateHoudiniOutcome pruneProgram recursiveImpl ⟨.valid, []⟩
      (afterRefutation [] idleDone)).goto
        (.updatingUnsatCore recursiveImpl))).dequeue.goto .outerLoop).goto
    .returned

def idleAgain : HoudiniState :=
  ((updateHoudiniOutcome pruneProgram recursiveImpl ⟨.valid, []⟩
    (afterRefutation [idleCaller]
      ((updateHoudiniOutcome pruneProgram idleCaller ⟨.valid, []⟩
        ((pruningStart false).goto
          (.verifyCurrent idleCaller))).dequeue.goto .outerLoop))).dequeue.goto
    .outerLoop).goto (.verifyCurrent idleCaller)

theorem prunedReturned_reached {mayGiveUp : Prop}
    {ok : HoudiniState -> Event -> Prop} (hinternal : forall s, ok s .internal)
    (hvalid : forall s impl, ok s (.answered impl ⟨.valid, []⟩)) (hinvalid : forall s,
      ok s (.answered recursiveImpl ⟨.invalid, [ensuringError]⟩))
    (hcore : forall s impl, ok s (.coreAnswered impl .valid)) :
    (pruning true).Reaches ((pruning true).rightAnswers mayGiveUp) ok
      (pruningStart true) prunedReturned := by
  rcases pruning_idleSession true with ⟨idle, hidle, hidlePassive⟩
  rcases pruning_ensuringSession true with
    ⟨ensuring, hensuring, hensuringPassive⟩
  let s₁ := (pruningStart true).goto (.verifyCurrent idleCaller)
  let s₂ := (updateHoudiniOutcome pruneProgram idleCaller ⟨.valid, []⟩
    s₁).goto (.updatingUnsatCore idleCaller)
  let t₀ := afterRefutation [] idleDone
  let t₁ := (updateHoudiniOutcome pruneProgram recursiveImpl ⟨.valid, []⟩
    t₀).goto (.updatingUnsatCore recursiveImpl)
  let t₂ := (updateUnsatCore recursiveImpl .valid [] t₁).dequeue.goto .outerLoop
  have hstep₁ : Step (pruning true) ((pruning true).rightAnswers mayGiveUp)
      (pruningStart true) .internal s₁ :=
    Step.peek rfl rfl
  have hstep₂ : Step (pruning true) ((pruning true).rightAnswers mayGiveUp)
      s₁ (.answered idleCaller ⟨.valid, []⟩) s₂ := by
    have hanswer : useAnswer (pruning true) idle ⟨.valid, []⟩ s₁ = s₂ := rfl
    rw [← hanswer]
    apply Step.verify rfl hidle
      ((pruning_noStages true).getAssignment s₁.assignment)
    show (pruning true).program.Valid _
    rw [idle.vc_valid_iff, hidlePassive]
    exact idlePassive_verified _
  have hstep₃ : Step (pruning true) ((pruning true).rightAnswers mayGiveUp)
      s₂ (.coreAnswered idleCaller .valid) idleDone := by
    apply Step.unsatCore rfl hidle
    show (pruning true).program.Valid _
    rw [idle.vc_valid_iff, hidlePassive]
    exact idlePassive_verified _
  have hreaches := afterRefutation_reached true mayGiveUp [] hinternal hinvalid
    (s := idleDone) rfl rfl rfl rfl
  have hremoved : t₀.assignment candidate.variable = false := by
    simp [t₀, afterRefutation, HoudiniState.falsify, HoudiniState.goto]
  have hstep₄ : Step (pruning true) ((pruning true).rightAnswers mayGiveUp)
      t₀ (.answered recursiveImpl ⟨.valid, []⟩) t₁ := by
    have hanswer : useAnswer (pruning true) ensuring ⟨.valid, []⟩ t₀ = t₁ := rfl
    rw [← hanswer]
    apply Step.verify rfl hensuring
      ((pruning_noStages true).getAssignment t₀.assignment)
    show (pruning true).program.Valid _
    rw [ensuring.vc_valid_iff, hensuringPassive]
    apply prunePassive_verified
    rw [pruning_value, hremoved]
  have hstep₅ : Step (pruning true) ((pruning true).rightAnswers mayGiveUp)
      t₁ (.coreAnswered recursiveImpl .valid) t₂ := by
    apply Step.unsatCore rfl hensuring
    show (pruning true).program.Valid _
    rw [ensuring.vc_valid_iff, hensuringPassive]
    apply prunePassive_verified
    have hc : candidate.variable ∈ (pruning true).houdiniConstants :=
      mem_ensuresProgram_constants.mpr rfl
    have hfalse : t₁.assignment candidate.variable = false := hremoved
    simp [coreAssignment, hc, hfalse]
  have hstep₆ : Step (pruning true) ((pruning true).rightAnswers mayGiveUp)
      t₂ .internal prunedReturned :=
    Step.finish rfl rfl
  have hstart : (pruning true).Reaches ((pruning true).rightAnswers mayGiveUp)
      ok (pruningStart true) idleDone :=
    ((Relation.ReflTransGen.refl.tail ⟨_, hinternal _, hstep₁⟩).tail
      ⟨_, hvalid _ _, hstep₂⟩).tail ⟨_, hcore _ _, hstep₃⟩
  exact (((hstart.trans hreaches).tail ⟨_, hvalid _ _, hstep₄⟩).tail
    ⟨_, hcore _ _, hstep₅⟩).tail ⟨_, hinternal _, hstep₆⟩

theorem idleAgain_reached {mayGiveUp : Prop}
    {ok : HoudiniState -> Event -> Prop} (hinternal : forall s, ok s .internal)
    (hvalid : forall s impl, ok s (.answered impl ⟨.valid, []⟩)) (hinvalid : forall s,
      ok s (.answered recursiveImpl ⟨.invalid, [ensuringError]⟩)) :
    (pruning false).Reaches ((pruning false).rightAnswers mayGiveUp) ok
      (pruningStart false) idleAgain := by
  rcases pruning_idleSession false with ⟨idle, hidle, hidlePassive⟩
  rcases pruning_ensuringSession false with
    ⟨ensuring, hensuring, hensuringPassive⟩
  let s₁ := (pruningStart false).goto (.verifyCurrent idleCaller)
  let s₂ := (updateHoudiniOutcome pruneProgram idleCaller ⟨.valid, []⟩
    s₁).dequeue.goto .outerLoop
  let t₀ := afterRefutation [idleCaller] s₂
  let t₁ := (updateHoudiniOutcome pruneProgram recursiveImpl ⟨.valid, []⟩
    t₀).dequeue.goto .outerLoop
  have hstep₁ : Step (pruning false) ((pruning false).rightAnswers mayGiveUp)
      (pruningStart false) .internal s₁ :=
    Step.peek rfl rfl
  have hstep₂ : Step (pruning false) ((pruning false).rightAnswers mayGiveUp)
      s₁ (.answered idleCaller ⟨.valid, []⟩) s₂ := by
    have hanswer : useAnswer (pruning false) idle ⟨.valid, []⟩ s₁ = s₂ := rfl
    rw [← hanswer]
    apply Step.verify rfl hidle
      ((pruning_noStages false).getAssignment s₁.assignment)
    show (pruning false).program.Valid _
    rw [idle.vc_valid_iff, hidlePassive]
    exact idlePassive_verified _
  have hreaches := afterRefutation_reached false mayGiveUp [idleCaller]
    hinternal hinvalid (s := s₂) rfl rfl rfl rfl
  have hstep₃ : Step (pruning false) ((pruning false).rightAnswers mayGiveUp)
      t₀ (.answered recursiveImpl ⟨.valid, []⟩) t₁ := by
    have hanswer : useAnswer (pruning false) ensuring ⟨.valid, []⟩ t₀ = t₁ :=
      rfl
    rw [← hanswer]
    apply Step.verify rfl hensuring
      ((pruning_noStages false).getAssignment t₀.assignment)
    show (pruning false).program.Valid _
    rw [ensuring.vc_valid_iff, hensuringPassive]
    apply prunePassive_verified
    rw [pruning_value]
    simp [t₀, afterRefutation, HoudiniState.falsify, HoudiniState.goto]
  have hstep₄ : Step (pruning false) ((pruning false).rightAnswers mayGiveUp)
      t₁ .internal idleAgain := by
    have hqueue : t₁.workQueue.queue = [idleCaller] := rfl
    exact Step.peek rfl hqueue
  exact ((((Relation.ReflTransGen.refl.tail ⟨_, hinternal _, hstep₁⟩).tail
    ⟨_, hvalid _ _, hstep₂⟩).trans hreaches).tail
    ⟨_, hvalid _ _, hstep₃⟩).tail ⟨_, hinternal _, hstep₄⟩

theorem prunedReturned_outcome :
    prunedReturned.implementationOutcomes "X" = some correctOutcome := by
  rfl

def idleVerifiedAgain : HoudiniState :=
  ((updateHoudiniOutcome pruneProgram idleCaller ⟨.valid, []⟩
    idleAgain).dequeue.goto .outerLoop).goto .returned

def idleGivenUp : HoudiniState :=
  ((giveUp [] idleCaller
    (updateHoudiniOutcome pruneProgram idleCaller ⟨.timeOut, []⟩
      idleAgain)).dequeue.goto .outerLoop).goto .returned

theorem idleVerifiedAgain_reached :
    (pruning false).Reaches ((pruning false).rightAnswers False)
      (fun _ => CandidateErrorsOnly (pruning false)) (pruningStart false) idleVerifiedAgain := by
  rcases pruning_idleSession false with ⟨idle, hidle, hidlePassive⟩
  have hstep : Step (pruning false) ((pruning false).rightAnswers False)
      idleAgain (.answered idleCaller ⟨.valid, []⟩)
      (useAnswer (pruning false) idle ⟨.valid, []⟩ idleAgain) := by
    apply Step.verify rfl hidle
      ((pruning_noStages false).getAssignment idleAgain.assignment)
    show (pruning false).program.Valid _
    rw [idle.vc_valid_iff, hidlePassive]
    exact idlePassive_verified _
  have hfinish : Step (pruning false) ((pruning false).rightAnswers False)
      (useAnswer (pruning false) idle ⟨.valid, []⟩ idleAgain) .internal
      idleVerifiedAgain :=
    Step.finish rfl rfl
  have hok : CandidateErrorsOnly (pruning false)
      (.answered idleCaller ⟨.valid, []⟩) := rfl
  have hreach : (pruning false).Reaches ((pruning false).rightAnswers False)
      (fun _ => CandidateErrorsOnly (pruning false)) (pruningStart false)
      idleAgain :=
    idleAgain_reached (fun _ => trivial) (fun _ _ => rfl) (fun _ => rfl)
  have hinternal : CandidateErrorsOnly (pruning false) .internal := trivial
  exact (hreach.tail ⟨_, hok, hstep⟩).tail ⟨_, hinternal, hfinish⟩

theorem idlePassive_assertConstants :
    idlePassive.houdiniAssertConstants = [] := by
  decide

theorem idleGivenUp_reached :
    (pruning false).Reaches ((pruning false).rightAnswers True)
      (fun _ _ => True) (pruningStart false) idleGivenUp := by
  rcases pruning_idleSession false with ⟨idle, hidle, hidlePassive⟩
  let t := (giveUp [] idleCaller (updateHoudiniOutcome pruneProgram idleCaller
    ⟨.timeOut, []⟩ idleAgain)).dequeue.goto .outerLoop
  have hanswer : useAnswer (pruning false) idle ⟨.timeOut, []⟩ idleAgain =
      t := by
    simp only [t]
    rw [← idlePassive_assertConstants, ← hidlePassive]
    rfl
  have hstep : Step (pruning false) ((pruning false).rightAnswers True)
      idleAgain (.answered idleCaller ⟨.timeOut, []⟩) t := by
    rw [← hanswer]
    exact Step.verify rfl hidle
      ((pruning_noStages false).getAssignment idleAgain.assignment) trivial
  have hfinish : Step (pruning false) ((pruning false).rightAnswers True)
      t .internal idleGivenUp :=
    Step.finish rfl rfl
  exact ((idleAgain_reached (fun _ => trivial) (fun _ _ => trivial)
    (fun _ => trivial)).tail ⟨_, trivial, hstep⟩).tail ⟨_, trivial, hfinish⟩

theorem unsatCores_lossless_prunedReturned :
    WorklistInvariant (pruning true) prunedReturned ∧
      (pruning true).trueCandidates prunedReturned.assignment =
        (pruning true).trueCandidates idleVerifiedAgain.assignment ∧
      exists session, (pruning true).houdiniSession idleCaller = some session ∧
        (ValidUnder (pruning true) session prunedReturned.assignment ∨
          exists v, v ∈ ([] : List Variable) ∧ v ∈ (pruning true).houdiniConstants ∧
            prunedReturned.assignment v = false) := by
  have h := unsatCores_lossless pruneProgram_guard
    (rightAnswers_sound (pruning true) False)
    (fun v _ => (pruning_noStages true).unstaged v) (pruning_initial true)
  have hcores : (pruning true).Reaches ((pruning true).rightAnswers False)
      CoreFound (pruningStart true) prunedReturned :=
    prunedReturned_reached (fun _ => trivial) (fun _ _ => trivial)
      (fun _ => trivial) (fun _ _ => rfl)
  have hfresh : (pruning true).Reaches ((pruning true).rightAnswers False)
      (NothingStale (pruning true)) (pruningStart true) prunedReturned :=
    prunedReturned_reached (fun _ => trivial)
      (fun _ _ _ hvalid => absurd rfl hvalid)
      (fun _ _ _ hinvalid => absurd rfl hinvalid) (fun _ _ => rfl)
  have hcandidates : (pruning true).Reaches
      ((pruning true).rightAnswers False)
      (fun _ => CandidateErrorsOnly (pruning true)) (pruningStart true)
      prunedReturned :=
    prunedReturned_reached (fun _ => trivial) (fun _ _ => rfl) (fun _ => rfl)
      (fun _ _ => trivial)
  rcases pruning_idleSession true with ⟨session, hsession, _⟩
  have hcore : prunedReturned.unsatCoreSet idleCaller = some [] := by
    decide
  refine ⟨h.2.1 (pruning_distinctNames true) _ hfresh, ?_, session, hsession,
    h.1 _ hcores idleCaller session [] hsession hcore⟩
  exact (h.2.2 (pruning_regular true) (rightAnswers_decides _) _ hcandidates rfl
    ((pruning false).rightAnswers False) (pruningStart false)
    idleVerifiedAgain (rightAnswers_sound _ _) (rightAnswers_decides _)
    (pruning_initial false) idleVerifiedAgain_reached rfl).1

/--
With cores `X` is reported correct; without, the prover is asked about `X`
again and may give up.
-/
theorem pruning_changes_outcome :
    pruneProgram.CandidatesGuard ∧ (pruning true).NoStages ∧
      (pruning true).withUnsatCores false = pruning false ∧
      ((pruning true).rightAnswers True).Sound ∧ ((pruning false).rightAnswers True).Sound ∧
      exists s₀ s t₀ t, (pruning true).Initial (fun _ => true) s₀ ∧
        s₀.workQueue.queue = (pruning true).buildWorkList.queue ∧
        (pruning true).Reaches ((pruning true).rightAnswers True) CoreFound s₀ s ∧
        s.control = .returned ∧ (pruning false).Initial (fun _ => true) t₀ ∧
        t₀.workQueue.queue = (pruning false).buildWorkList.queue ∧
        (pruning false).Reaches ((pruning false).rightAnswers True) (fun _ _ => True) t₀ t ∧
        t.control = .returned ∧ s.implementationOutcomes "X" ≠ t.implementationOutcomes "X" := by
  refine ⟨pruneProgram_guard, pruning_noStages true, rfl,
    rightAnswers_sound _ _, rightAnswers_sound _ _, pruningStart true,
    prunedReturned, pruningStart false, idleGivenUp, pruning_initial true,
    pruningStart_workQueue true, ?_, rfl, pruning_initial false,
    pruningStart_workQueue false, idleGivenUp_reached, rfl, ?_⟩
  · exact prunedReturned_reached (fun _ => trivial) (fun _ _ => trivial)
      (fun _ => trivial) (fun _ _ => rfl)
  · have hgivenUp : idleGivenUp.implementationOutcomes "X" =
        some ⟨.timedOut, []⟩ := rfl
    rw [prunedReturned_outcome, hgivenUp]
    decide

end IdleCaller

end Houdini

end Boogie
