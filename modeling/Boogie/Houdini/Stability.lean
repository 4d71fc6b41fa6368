import Boogie.Houdini.Houdini

/-!
# Stable formulas

A formula that has verified stays valid as long as the candidates it was
verified with stay; and the implementations that lose a candidate are among
those that are put back on the worklist.
-/

namespace Boogie

namespace Houdini

variable {H : Houdini} {prover : Prover H} {s s' : HoudiniState}
  {impl other : Implementation}

/-!
# Assignments
-/

def Unstaged (H : Houdini) (v : Variable) : Prop :=
  forall c, c ∈ H.program.constants -> c.variable = v ->
    c.stageActive = -1 ∧ c.stageComplete = -1

theorem withStages_unstaged {completed : List Int}
    {assignment : Variable -> Bool} {v : Variable} (hv : H.Unstaged v) :
    H.withStages completed assignment v =
      if v ∈ H.houdiniConstants then some (assignment v) else none := by
  have hnone : H.program.constants.reverse.findSome? (fun c =>
      if c.variable = v then c.stageValue H.stage completed else none) =
        none := by
    apply List.findSome?_eq_none_iff.mpr
    intro c hc
    split
    · rename_i hvar
      have hstage := hv c (List.mem_reverse.mp hc) hvar
      simp [Constant.stageValue, hstage.1, hstage.2]
    · rfl
  simp only [withStages, hnone]

theorem withStages_cases (H : Houdini) (completed : List Int) (v : Variable) :
    (forall assignment, H.withStages completed assignment v =
      if v ∈ H.houdiniConstants then some (assignment v) else none) ∨
    forall assignment assignment' : Variable -> Bool, H.withStages completed assignment v =
        H.withStages completed assignment' v := by
  cases h : H.program.constants.reverse.findSome? (fun c =>
      if c.variable = v then c.stageValue H.stage completed else none) with
  | none =>
    left
    intro assignment
    simp only [withStages, h]
  | some b =>
    right
    intro assignment assignment'
    simp only [withStages, h]

theorem getAssignmentWithStages_eq {assignment : Variable -> Bool}
    {staged : Variable -> Option Bool} (h : H.getAssignmentWithStages assignment = some staged) :
    exists completed, forall assignment', H.getAssignmentWithStages assignment' =
        some (H.withStages completed assignment') := by
  unfold getAssignmentWithStages at h ⊢
  cases hcompleted : H.completedStages with
  | some completed => exact ⟨completed, fun _ => rfl⟩
  | none =>
    simp only [hcompleted] at h
    split at h
    · rename_i hall
      exact ⟨[], fun _ => by simp only [if_pos hall]⟩
    · cases h

theorem withStages_congr {completed : List Int}
    {assignment assignment' : Variable -> Bool}
    (h : forall v, v ∈ H.houdiniConstants -> assignment v = assignment' v) :
    H.withStages completed assignment = H.withStages completed assignment' := by
  funext v
  rcases withStages_cases H completed v with hfree | hfixed
  · rw [hfree, hfree]
    split
    · rename_i hv
      rw [h v hv]
    · rfl
  · exact hfixed assignment assignment'

theorem lowers_withStages {completed : List Int}
    {high low : Variable -> Bool}
    (hle : forall v, v ∈ H.houdiniConstants -> low v = true -> high v = true) :
    Lowers H.program (fun v => H.withStages completed high v ≠ H.withStages completed low v)
      (H.withStages completed high) (H.withStages completed low) := by
  have hdiffers : forall v,
      H.withStages completed high v ≠ H.withStages completed low v ->
        v ∈ H.houdiniConstants ∧
        H.withStages completed high v = some true ∧
        H.withStages completed low v = some false := by
    intro v hne
    rcases withStages_cases H completed v with hfree | hfixed
    · rw [hfree, hfree] at hne ⊢
      by_cases hv : v ∈ H.houdiniConstants
      · simp only [if_pos hv] at hne ⊢
        cases hlow : low v with
        | true => simp [hlow, hle v hv hlow] at hne
        | false =>
          cases hhigh : high v with
          | true => exact ⟨hv, rfl, rfl⟩
          | false => simp [hlow, hhigh] at hne
      · simp [hv] at hne
    · exact absurd (hfixed high low) hne
  exact
    { candidates := fun v hv => (hdiffers v hv).1
      high_true := fun v hv => (hdiffers v hv).2.1
      low_false := fun v hv => (hdiffers v hv).2.2
      same := fun v hv => not_not.mp hv }

theorem assigned_of_withStages_ne {completed : List Int}
    {assignment assignment' : Variable -> Bool} {v : Variable}
    (h : H.withStages completed assignment v ≠ H.withStages completed assignment' v) :
    v ∈ H.houdiniConstants ∧ assignment v ≠ assignment' v := by
  rcases withStages_cases H completed v with hfree | hfixed
  · rw [hfree, hfree] at h
    by_cases hv : v ∈ H.houdiniConstants
    · refine ⟨hv, ?_⟩
      intro heq
      simp [hv, heq] at h
    · simp [hv] at h
  · exact absurd (hfixed _ _) h

/-!
# Stability
-/

def ValidUnder (H : Houdini) {impl : Implementation}
    (session : HoudiniSession H.options H.program impl)
    (assignment : Variable -> Bool) : Prop :=
  forall staged, H.getAssignmentWithStages assignment = some staged ->
    H.program.Valid (session.vc staged)

/-- The implementation may have used the candidate `v` to verify. -/
def DependsOn (s : HoudiniState) {o : HoudiniOptions} {p : Program}
    {impl : Implementation} (session : HoudiniSession o p impl)
    (v : Variable) : Prop :=
  v ∈ session.passified.houdiniAssumeConstants ∧ s.inUnsatCore impl v = true

theorem DependsOn.of_cores {s s' : HoudiniState} {o : HoudiniOptions} {p : Program}
    {impl : Implementation} {session : HoudiniSession o p impl} {v : Variable}
    (h : DependsOn s' session v) (hcores : s'.unsatCoreSet = s.unsatCoreSet) :
    DependsOn s session v := by
  refine ⟨h.1, ?_⟩
  have hcore := h.2
  unfold HoudiniState.inUnsatCore at hcore ⊢
  rwa [hcores] at hcore

/--
The assignments that an unsat core covers: the candidates of the core that are
true and the candidates that are false stay as they are.
-/
structure Covers (H : Houdini) (s : HoudiniState) (impl : Implementation)
    (assignment : Variable -> Bool) : Prop where
  kept : forall v, v ∈ H.houdiniConstants -> s.assignment v = true ->
    s.inUnsatCore impl v = true -> assignment v = true
  removed : forall v, v ∈ H.houdiniConstants -> s.assignment v = false ->
    assignment v = false

/-- The formula is valid whatever becomes of the candidates outside the core. -/
def Stable (H : Houdini) (s : HoudiniState) {impl : Implementation}
    (session : HoudiniSession H.options H.program impl) : Prop :=
  forall assignment, Covers H s impl assignment ->
    ValidUnder H session assignment

theorem Stable.validUnder
    {session : HoudiniSession H.options H.program impl}
    (h : Stable H s session) : ValidUnder H session s.assignment :=
  h s.assignment ⟨fun _ _ hv _ => hv, fun _ _ hv => hv⟩

theorem Stable.congr {session : HoudiniSession H.options H.program impl}
    (h : Stable H s session) (hassignment : s'.assignment = s.assignment)
    (hcores : s'.unsatCoreSet impl = s.unsatCoreSet impl) :
    Stable H s' session := by
  intro assignment hcovers
  apply h assignment
  constructor
  · intro v hv htrue hcore
    apply hcovers.kept v hv
    · rwa [hassignment]
    · unfold HoudiniState.inUnsatCore
      rwa [hcores]
  · intro v hv hfalse
    apply hcovers.removed v hv
    rwa [hassignment]

theorem stable_of_no_core {session : HoudiniSession H.options H.program impl}
    (hcore : s.unsatCoreSet impl = none)
    (h : ValidUnder H session s.assignment) : Stable H s session := by
  intro assignment hcovers staged hstaged
  have hsame : forall v, v ∈ H.houdiniConstants ->
      assignment v = s.assignment v := by
    intro v hv
    cases hval : s.assignment v with
    | true =>
      exact hcovers.kept v hv hval (by simp [HoudiniState.inUnsatCore, hcore])
    | false => exact hcovers.removed v hv hval
  rcases getAssignmentWithStages_eq hstaged with ⟨completed, hget⟩
  rw [hget, withStages_congr hsame, ← hget] at hstaged
  exact h staged hstaged

theorem stable_of_core {session : HoudiniSession H.options H.program impl}
    {core : List Variable} (hunstaged : forall v, v ∈ H.houdiniConstants -> H.Unstaged v)
    (hcore : s.unsatCoreSet impl = some core)
    (h : H.program.Valid (session.vc (H.coreAssignment s.assignment core))) :
    Stable H s session := by
  intro assignment hcovers staged hstaged
  rcases getAssignmentWithStages_eq hstaged with ⟨completed, hget⟩
  rw [hget] at hstaged
  cases hstaged
  rw [session.vc_valid_iff] at h ⊢
  intro U _ C ρ haxioms hagrees
  apply h U C ρ haxioms
  intro v hv b hb
  unfold coreAssignment at hb
  split at hb
  · rename_i hcand
    apply hagrees v hv b
    rw [withStages_unstaged (hunstaged v hcand), if_pos hcand]
    split at hb
    · rename_i htrue
      split at hb
      · rename_i hin
        cases hb
        rw [hcovers.kept v hcand htrue
          (by simpa [HoudiniState.inUnsatCore, hcore] using hin)]
      · cases hb
    · rename_i hfalse
      cases hb
      rw [hcovers.removed v hcand (by simpa using hfalse)]
  · cases hb

/-!
# Removing a candidate
-/

theorem validUnder_falsify {session : HoudiniSession H.options H.program impl}
    {assignment : Variable -> Bool} {v : Variable} (hp : H.program.CandidatesGuard)
    (hassume : v ∉ session.passified.houdiniAssumeConstants)
    (htrue : assignment v = true) (h : ValidUnder H session assignment) :
    ValidUnder H session (Function.update assignment v false) := by
  intro staged hstaged
  rcases getAssignmentWithStages_eq hstaged with ⟨completed, hget⟩
  rw [hget] at hstaged
  cases hstaged
  have hvalid := h _ (hget assignment)
  rw [session.vc_valid_iff] at hvalid ⊢
  have hle : forall w, w ∈ H.houdiniConstants ->
      Function.update assignment v false w = true -> assignment w = true := by
    intro w _ hw
    by_cases hne : w = v
    · rw [hne, htrue]
    · rwa [Function.update_of_ne hne] at hw
  have hlowers := @lowers_withStages H completed _ _ hle
  apply hlowers.verified hp _ hvalid
  intro w hw
  have hne := (assigned_of_withStages_ne hw).2
  by_cases hsame : w = v
  · rwa [hsame]
  · exact absurd (Function.update_of_ne hsame _ _).symm hne

theorem falsify_of_false {v : Variable} (h : s.assignment v = false) :
    s.falsify v = s := by
  unfold HoudiniState.falsify
  rw [← h, Function.update_eq_self]

theorem Stable.falsify {session : HoudiniSession H.options H.program impl}
    {v : Variable} (hp : H.program.CandidatesGuard) (hv : v ∈ H.houdiniConstants)
    (hdepends : s.assignment v = true -> ¬ DependsOn s session v)
    (h : Stable H s session) : Stable H (s.falsify v) session := by
  cases hval : s.assignment v with
  | false => rwa [falsify_of_false hval]
  | true =>
    intro assignment hcovers
    have hfalse : assignment v = false :=
      hcovers.removed v hv (by simp [HoudiniState.falsify])
    have hsame : forall w, w ≠ v ->
        (s.falsify v).assignment w = s.assignment w :=
      fun w hw => by simp [HoudiniState.falsify, hw]
    by_cases hassume : v ∈ session.passified.houdiniAssumeConstants
    · have hcore : s.inUnsatCore impl v ≠ true :=
        fun hin => hdepends hval ⟨hassume, hin⟩
      apply h
      constructor
      · intro w hw hwtrue hwcore
        have hne : w ≠ v := by
          rintro rfl
          exact hcore hwcore
        exact hcovers.kept w hw ((hsame w hne).trans hwtrue) hwcore
      · intro w hw hwfalse
        have hne : w ≠ v := by
          rintro rfl
          rw [hval] at hwfalse
          cases hwfalse
        exact hcovers.removed w hw ((hsame w hne).trans hwfalse)
    · have hraised : Covers H s impl (Function.update assignment v true) := by
        constructor
        · intro w hw hwtrue hwcore
          by_cases hne : w = v
          · rw [hne, Function.update_self]
          · rw [Function.update_of_ne hne]
            exact hcovers.kept w hw ((hsame w hne).trans hwtrue) hwcore
        · intro w hw hwfalse
          have hne : w ≠ v := by
            rintro rfl
            rw [hval] at hwfalse
            cases hwfalse
          rw [Function.update_of_ne hne]
          exact hcovers.removed w hw ((hsame w hne).trans hwfalse)
      have hlow := validUnder_falsify hp hassume
        (Function.update_self v true assignment) (h _ hraised)
      rwa [Function.update_idem, ← hfalse, Function.update_eq_self] at hlow

theorem falsify_all_assignment {vs : List Variable} {v : Variable} :
    (vs.foldl HoudiniState.falsify s).assignment v = true <-> s.assignment v = true ∧ v ∉ vs := by
  induction vs generalizing s with
  | nil => simp
  | cons w vs ih =>
    rw [List.foldl_cons, ih, List.mem_cons]
    by_cases hv : v = w
    · simp [hv, HoudiniState.falsify]
    · simp [hv, HoudiniState.falsify]

theorem falsify_all_cores (vs : List Variable) (s : HoudiniState) :
    (vs.foldl HoudiniState.falsify s).unsatCoreSet = s.unsatCoreSet := by
  induction vs generalizing s with
  | nil => rfl
  | cons v vs ih => exact ih (s.falsify v)

theorem Stable.falsify_all {session : HoudiniSession H.options H.program impl}
    {vs : List Variable} (hp : H.program.CandidatesGuard)
    (hvs : forall v, v ∈ vs -> v ∈ H.houdiniConstants)
    (hdepends : forall v, v ∈ vs -> s.assignment v = true -> ¬ DependsOn s session v)
    (h : Stable H s session) :
    Stable H (vs.foldl HoudiniState.falsify s) session := by
  induction vs generalizing s with
  | nil => exact h
  | cons v vs ih =>
    have hfirst : Stable H (s.falsify v) session :=
      h.falsify hp (hvs v (by simp)) (hdepends v (by simp))
    apply ih (fun w hw => hvs w (by simp [hw])) _ hfirst
    intro w hw htrue
    have hold : s.assignment w = true := by
      by_contra hfalse
      simp [HoudiniState.falsify, Function.update_apply, hfalse] at htrue
    exact hdepends w (by simp [hw]) hold

/-!
# Putting implementations back
-/

theorem mem_inCore {v : Variable} {test : Implementation -> Bool}
    {impls found : List Implementation} (h : inCore H s v test impls = some found) :
    other ∈ found <-> other ∈ impls ∧ test other = true ∧ s.inUnsatCore other v = true := by
  induction impls generalizing found with
  | nil =>
    cases h
    simp
  | cons impl impls ih =>
    unfold inCore at h
    split at h
    · rename_i htest
      split at h
      · rename_i session rest _ hrest
        cases h
        cases hcore : s.inUnsatCore impl v with
        | true =>
          simp only [if_true, List.mem_cons, ih hrest]
          constructor
          · intro hmem
            rcases hmem with rfl | ⟨hmem, htest', hcore'⟩
            · exact ⟨Or.inl rfl, htest, hcore⟩
            · exact ⟨Or.inr hmem, htest', hcore'⟩
          · rintro ⟨hmem, htest', hcore'⟩
            rcases hmem with rfl | hmem
            · exact Or.inl rfl
            · exact Or.inr ⟨hmem, htest', hcore'⟩
        | false =>
          simp only [Bool.false_eq_true, if_false, List.mem_cons, ih hrest]
          constructor
          · rintro ⟨hmem, htest', hcore'⟩
            exact ⟨Or.inr hmem, htest', hcore'⟩
          · rintro ⟨hmem, htest', hcore'⟩
            rcases hmem with rfl | hmem
            · rw [hcore] at hcore'
              cases hcore'
            · exact ⟨hmem, htest', hcore'⟩
      · cases h
    · rename_i htest
      rw [ih h, List.mem_cons]
      constructor
      · rintro ⟨hmem, htest', hcore'⟩
        exact ⟨Or.inr hmem, htest', hcore'⟩
      · rintro ⟨hmem, htest', hcore'⟩
        rcases hmem with rfl | hmem
        · exact absurd htest' htest
        · exact ⟨hmem, htest', hcore'⟩

structure OnlyEnqueued (s s' : HoudiniState) : Prop where
  blackList : s'.blackList = s.blackList
  assignment : s'.assignment = s.assignment
  outcomes : s'.implementationOutcomes = s.implementationOutcomes
  cores : s'.unsatCoreSet = s.unsatCoreSet
  head : forall impl impls, s.workQueue.queue = impl :: impls ->
    exists impls', s'.workQueue.queue = impl :: impls'
  subset : forall impl, impl ∈ s.workQueue.queue -> impl ∈ s'.workQueue.queue
  added : forall impl, impl ∈ s'.workQueue.queue ->
    impl ∈ s.workQueue.queue ∨ impl.name ∉ s.blackList

theorem OnlyEnqueued.refl (s : HoudiniState) : OnlyEnqueued s s :=
  ⟨rfl, rfl, rfl, rfl, fun _ impls h => ⟨impls, h⟩, fun _ h => h,
    fun _ h => Or.inl h⟩

theorem OnlyEnqueued.trans {s₁ s₂ s₃ : HoudiniState} (h : OnlyEnqueued s₁ s₂)
    (h' : OnlyEnqueued s₂ s₃) : OnlyEnqueued s₁ s₃ where
  blackList := h'.blackList.trans h.blackList
  assignment := h'.assignment.trans h.assignment
  outcomes := h'.outcomes.trans h.outcomes
  cores := h'.cores.trans h.cores
  head := by
    intro impl impls hqueue
    rcases h.head impl impls hqueue with ⟨impls₂, hqueue₂⟩
    exact h'.head impl impls₂ hqueue₂
  subset := fun impl hmem => h'.subset impl (h.subset impl hmem)
  added := by
    intro impl hmem
    rcases h'.added impl hmem with hmem₂ | hname
    · exact h.added impl hmem₂
    · rw [h.blackList] at hname
      exact Or.inr hname

theorem enqueueUnlessBlackListed_spec (s : HoudiniState) (impl : Implementation) :
    OnlyEnqueued s (enqueueUnlessBlackListed s impl) ∧ (impl.name ∉ s.blackList ->
        impl ∈ (enqueueUnlessBlackListed s impl).workQueue.queue) := by
  unfold enqueueUnlessBlackListed
  split
  · rename_i hblack
    exact ⟨OnlyEnqueued.refl s, fun hnot => absurd hblack hnot⟩
  · constructor
    · refine ⟨rfl, rfl, rfl, rfl, ?_, ?_, ?_⟩
      · intro head impls hqueue
        show exists impls', hashSetAdd s.workQueue.queue impl = head :: impls'
        rw [hqueue]
        unfold hashSetAdd
        split
        · exact ⟨impls, rfl⟩
        · exact ⟨impls ++ [impl], rfl⟩
      · intro other hother
        exact mem_hashSetAdd.mpr (Or.inl hother)
      · intro other hother
        rcases mem_hashSetAdd.mp hother with hmem | rfl
        · exact Or.inl hmem
        · rename_i hblack
          exact Or.inr hblack
    · intro _
      exact mem_hashSetAdd.mpr (Or.inr rfl)

theorem foldl_enqueue_spec (impls : List Implementation) (s : HoudiniState) :
    OnlyEnqueued s (impls.foldl enqueueUnlessBlackListed s) ∧
      forall impl, impl ∈ impls -> impl.name ∉ s.blackList ->
        impl ∈ (impls.foldl enqueueUnlessBlackListed s).workQueue.queue := by
  induction impls generalizing s with
  | nil => exact ⟨OnlyEnqueued.refl s, by simp⟩
  | cons impl impls ih =>
    have hfirst := enqueueUnlessBlackListed_spec s impl
    have hrest := ih (enqueueUnlessBlackListed s impl)
    refine ⟨hfirst.1.trans hrest.1, ?_⟩
    intro other hother hname
    rcases List.mem_cons.mp hother with rfl | hmem
    · exact hrest.1.subset other (hfirst.2 hname)
    · apply hrest.2 other hmem
      rwa [hfirst.1.blackList]

theorem mem_of_mem_foldl_enqueue {impls : List Implementation} (h : other ∈
      (impls.foldl enqueueUnlessBlackListed s).workQueue.queue) :
    other ∈ s.workQueue.queue ∨ other ∈ impls := by
  induction impls generalizing s with
  | nil => exact Or.inl h
  | cons impl impls ih =>
    rcases ih h with hmem | hmem
    · unfold enqueueUnlessBlackListed at hmem
      split at hmem
      · exact Or.inl hmem
      · rcases mem_hashSetAdd.mp hmem with hmem | rfl
        · exact Or.inl hmem
        · exact Or.inr List.mem_cons_self
    · exact Or.inr (List.mem_cons_of_mem _ hmem)

theorem mem_callGraph_of_session
    {session : HoudiniSession H.options H.program impl}
    (h : H.houdiniSession impl = some session) : impl ∈ H.program.verified := by
  unfold houdiniSession at h
  split at h
  · rename_i hmem
    exact Program.mem_buildCallGraph_ns.mp hmem
  · cases h

theorem extract_annotation {p : Program} {ac : AssertCmd}
    {r : RefutedAnnotation} (h : extractRefutedAnnotation p impl (assertCmdToCounterexample ac) =
      some r) :
    exists site source, ac.annotation impl = some (site, source) ∧
      p.matchCandidate source = some r.constant ∧ r.refutationSite = impl ∧ match site with
      | .requiresOf proc => r.kind = .requires ∧ r.calleeProc = some proc
      | .ensuresOf _ => r.kind = .ensures
      | .bodyOf _ => r.kind = .assert := by
  unfold assertCmdToCounterexample at h
  cases hkind : ac.kind with
  | assertRequiresCmd callee condition =>
    simp only [hkind, extractRefutedAnnotation, Option.map_eq_some_iff] at h
    rcases h with ⟨c, hmatch, rfl⟩
    exact ⟨.requiresOf callee, condition, by simp [AssertCmd.annotation, hkind],
      hmatch, rfl, rfl, rfl⟩
  | assertEnsuresCmd condition =>
    simp only [hkind, extractRefutedAnnotation, Option.map_eq_some_iff] at h
    rcases h with ⟨c, hmatch, rfl⟩
    exact ⟨.ensuresOf impl.name, condition,
      by simp [AssertCmd.annotation, hkind], hmatch, rfl, rfl⟩
  | _ =>
    simp only [hkind, extractRefutedAnnotation] at h
    split at h
    · rename_i e horig
      rcases Option.map_eq_some_iff.mp h with ⟨c, hmatch, rfl⟩
      exact ⟨.bodyOf impl, e, by simp [AssertCmd.annotation, hkind, horig],
        hmatch, rfl, rfl⟩
    · cases h

theorem site_of_assumed {p : Program} {P : PassifiedImpl p impl}
    {P' : PassifiedImpl p other} {ac : AssertCmd} {r : RefutedAnnotation}
    (hp : p.CandidatesGuard) (hac : .assertCmd ac ∈ P.passive.cmds)
    (hr : extractRefutedAnnotation p impl (assertCmdToCounterexample ac) = some r)
    (hassume : r.constant ∈ P'.houdiniAssumeConstants) :
    exists site, impl.Checks site ∧ other.Assumes site ∧ r.refutationSite = impl ∧ match site with
      | .requiresOf proc => r.kind = .requires ∧ r.calleeProc = some proc
      | .ensuresOf _ => r.kind = .ensures
      | .bodyOf _ => r.kind = .assert := by
  rcases extract_annotation hr with
    ⟨site, source, hmade, hmatch, hsite, hkind⟩
  rcases P.asserts ac hac with
    ⟨site₁, source₁, hmade₁, hchecks, hsource, hsame⟩
  rw [hmade] at hmade₁
  cases hmade₁
  have hc : r.constant ∈ p.houdiniConstants :=
    (Program.name_of_matchCandidate hmatch).2
  have hmem : source.Mentions r.constant :=
    (hp.resolved source site hsource).mentions hmatch
  rcases (P'.mentions_iff_assume hp hc).mp hassume with ⟨ac', hac', hmem'⟩
  rcases P'.assumes ac' hac' r.constant hc hmem' with
    ⟨site', source', hassumes, hsource', hsame'⟩
  have hsites : site = site' :=
    hp.single r.constant hc source source' site site' hsource hsource' hmem
      ((hsame'.mentions _ hc).mp hmem')
  subst hsites
  exact ⟨site, hchecks, hassumes, hsite, hkind⟩

/--
An implementation that depends on the constant of a refuted annotation is among
those to put back, unless the annotation is an assertion of its own body.
-/
theorem mem_findImplementationsToEnqueue {P : PassifiedImpl H.program impl}
    {session' : HoudiniSession H.options H.program other} {ac : AssertCmd}
    {r : RefutedAnnotation} {found : List Implementation}
    (hp : H.program.CandidatesGuard) (himpl : impl ∈ H.program.verified)
    (hsession' : H.houdiniSession other = some session') (hac : .assertCmd ac ∈ P.passive.cmds)
    (hr : extractRefutedAnnotation H.program impl (assertCmdToCounterexample ac) = some r)
    (hfound : findImplementationsToEnqueue H s r = some found)
    (hdepends : DependsOn s session' r.constant) :
    (r.kind = .assert ∧ other = impl) ∨ (r.kind ≠ .assert ∧ other ∈ found) := by
  rcases site_of_assumed hp hac hr hdepends.1 with
    ⟨site, hchecks, hassumes, hsite, hkind⟩
  have hother := mem_callGraph_of_session hsession'
  unfold findImplementationsToEnqueue at hfound
  cases site with
  | requiresOf proc =>
    right
    rw [hkind.1] at hfound ⊢
    rw [mem_inCore hfound]
    refine ⟨by simp, ?_, ?_, hdepends.2⟩
    · rw [Graph.mem_successors, callGraph, Program.buildCallGraph_edge, hsite]
      exact ⟨himpl, hother, by rw [← hassumes]; exact hchecks⟩
    · rw [hkind.2, hassumes]
      simp
  | ensuresOf proc =>
    right
    rw [hkind] at hfound ⊢
    rw [mem_inCore hfound]
    refine ⟨by simp, ?_, rfl, hdepends.2⟩
    rw [Graph.mem_predecessors, callGraph, Program.buildCallGraph_edge, hsite]
    exact ⟨hother, himpl, by rw [← hchecks]; exact hassumes⟩
  | bodyOf body =>
    left
    refine ⟨hkind, ?_⟩
    rw [← hassumes]
    exact hchecks

theorem eq_of_assumed_assert {p : Program} {P : PassifiedImpl p impl}
    {P' : PassifiedImpl p other} {ac : AssertCmd} {r : RefutedAnnotation}
    (hp : p.CandidatesGuard) (hac : .assertCmd ac ∈ P.passive.cmds)
    (hr : extractRefutedAnnotation p impl (assertCmdToCounterexample ac) = some r)
    (hkind : r.kind = .assert)
    (hassume : r.constant ∈ P'.houdiniAssumeConstants) : other = impl := by
  rcases site_of_assumed hp hac hr hassume with
    ⟨site, hchecks, hassumes, _, hsite⟩
  cases site with
  | requiresOf proc =>
    rw [hkind] at hsite
    cases hsite.1
  | ensuresOf proc =>
    rw [hkind] at hsite
    cases hsite
  | bodyOf body =>
    rw [← hassumes]
    exact hchecks

/-!
# Implementations off the worklist

The implementations off the worklist that satisfy `who` are stable.  What the
predicate says is left to the invariants.
-/

section Off

variable {who : Implementation -> Prop}

def StableOff (H : Houdini) (s : HoudiniState) (who : Implementation -> Prop) :
    Prop :=
  forall impl session, H.houdiniSession impl = some session ->
    impl ∉ s.workQueue.queue -> who impl -> Stable H s session

def UnusedOff (H : Houdini) (s : HoudiniState) (who : Implementation -> Prop)
    (v : Variable) : Prop :=
  forall impl session, H.houdiniSession impl = some session ->
    impl ∉ s.workQueue.queue -> who impl -> ¬ DependsOn s session v

theorem StableOff.goto {control : Control} (h : StableOff H s who) :
    StableOff H (s.goto control) who := by
  intro impl session hsession hnot hwho
  exact (h impl session hsession hnot hwho).congr rfl rfl

theorem mem_of_mem_dequeue {impls : List Implementation}
    (hqueue : s.workQueue.queue = impl :: impls) (hother : other ≠ impl)
    (hnot : other ∉ s.dequeue.workQueue.queue) :
    other ∉ s.workQueue.queue := by
  have htail : other ∉ s.workQueue.queue.tail := hnot
  rw [hqueue] at htail ⊢
  simp only [List.tail_cons] at htail
  simp [hother, htail]

theorem StableOff.dequeue {impls : List Implementation}
    (h : StableOff H s who) (hqueue : s.workQueue.queue = impl :: impls)
    (hstable : forall session, H.houdiniSession impl = some session ->
      who impl -> Stable H s session) :
    StableOff H s.dequeue who := by
  intro other session hsession hnot hwho
  by_cases hother : other = impl
  · subst hother
    exact (hstable session hsession hwho).congr rfl rfl
  · exact (h other session hsession
      (mem_of_mem_dequeue hqueue hother hnot) hwho).congr rfl rfl

theorem StableOff.falsify {v : Variable} (hp : H.program.CandidatesGuard)
    (hv : v ∈ H.houdiniConstants) (hunused : s.assignment v = true -> UnusedOff H s who v)
    (h : StableOff H s who) : StableOff H (s.falsify v) who := by
  intro other session hsession hnot hwho
  exact (h other session hsession hnot hwho).falsify hp hv
    (fun htrue => hunused htrue other session hsession hnot hwho)

theorem StableOff.enqueue (h : StableOff H s who)
    (hsame : OnlyEnqueued s s') : StableOff H s' who := by
  intro impl session hsession hnot hwho
  exact (h impl session hsession (fun hmem => hnot (hsame.subset impl hmem))
    hwho).congr hsame.assignment (congrFun hsame.cores impl)

theorem StableOff.setUnsatCore {core : List Variable}
    (hmem : impl ∈ s.workQueue.queue) (h : StableOff H s who) :
    StableOff H (s.setUnsatCore impl core) who := by
  intro other session hsession hnot hwho
  have hother : other ≠ impl := by
    rintro rfl
    exact hnot hmem
  have hcores : (s.setUnsatCore impl core).unsatCoreSet other =
      s.unsatCoreSet other := by
    simp [HoudiniState.setUnsatCore, hother]
  exact (h other session hsession hnot hwho).congr rfl hcores

end Off

end Houdini

end Boogie
