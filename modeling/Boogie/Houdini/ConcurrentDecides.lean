import Boogie.Houdini.ConcurrentSound

/-!
# Concurrent Houdini with deciding provers

When every query is decided, candidates are only removed with their refutation
in the table.  An entry was refuted with at most the candidates of the earlier
entries removed, so that the site of an assertion cannot still be settled when
the assertion is imported.
-/

namespace Boogie

open Houdini

namespace ConcurrentHoudini

variable {H : Houdini} {s s' : HoudiniState} {impl other : Implementation}
  {shared : SharedAnnotations} {initial : Variable -> Bool}

/-!
# Refutations under other assignments
-/

/--
A refutation persists when no candidate is assumed that was not, and the
candidate of the assertion is still there.
-/
theorem refutes_of_assumes_le {P : PassifiedImpl H.program impl}
    {ac : AssertCmd} {completed : List Int}
    {assignment assignment' : Variable -> Bool} (hp : H.program.CandidatesGuard)
    (hle : forall v, v ∈ P.houdiniAssumeConstants -> assignment' v = true -> assignment v = true)
    (hac : .assertCmd ac ∈ P.passive.cmds)
    (hguard : forall v, H.program.matchCandidate ac.expr = some v -> assignment' v = true)
    (h : H.program.Refutes P.passive (H.withStages completed assignment) ac) :
    H.program.Refutes P.passive (H.withStages completed assignment') ac := by
  let joined : Variable -> Bool := fun v => assignment v || assignment' v
  have hraises := @lowers_withStages H completed joined assignment
    (fun v _ hv => by simp [joined, hv])
  have hlowers := @lowers_withStages H completed joined assignment'
    (fun v _ hv => by simp [joined, hv])
  have hjoined : H.program.Refutes P.passive (H.withStages completed joined)
      ac := by
    apply hraises.refutes_raised hp _ hac h
    intro v hv hassume
    apply (assigned_of_withStages_ne hv).2
    cases hvalue : assignment' v with
    | true => simp [joined, hle v hassume hvalue]
    | false => simp [joined, hvalue]
  apply hlowers.refutes hp _ hjoined
  intro v hv hmem
  have hc := hlowers.candidates v hv
  have hvalue := hguard v (P.guarded hp hac rfl v hc hmem)
  apply (assigned_of_withStages_ne hv).2
  simp [joined, hvalue]

/-!
# What explains a removed candidate
-/

def ErrorsRefuted (H : Houdini) (s : HoudiniState) (impl : Implementation)
    (errors : List Counterexample) : Prop :=
  exists assignment staged, H.getAssignmentWithStages assignment = some staged ∧
    (forall v, s.assignment v = true -> assignment v = true) ∧
    forall error, error ∈ errors -> forall session,
      H.houdiniSession impl = some session ->
      exists ac, .assertCmd ac ∈ session.passified.passive.cmds ∧
        error = assertCmdToCounterexample ac ∧
        H.program.Refutes session.passified.passive staged ac

def ControlExplained (H : Houdini) (keys : List String) (s : HoudiniState) :
    Control -> Prop
  | .refuting impl errors _ => ErrorsRefuted H s impl errors
  | .updatingAssignment impl r errors =>
    ErrorsRefuted H s impl errors ∧ r.constant.name ∈ keys
  | _ => True

/-- Candidates are false from the start or because of an entry of the table. -/
structure Explained (H : Houdini) (keys : List String)
    (initial : Variable -> Bool) (s : HoudiniState) : Prop where
  removed : forall v, v ∈ H.houdiniConstants -> s.assignment v = false ->
    v.name ∈ keys ∨ initial v = false
  initially : forall v, initial v = false -> s.assignment v = false
  control : ControlExplained H keys s s.control

/--
An entry for an assertion was refuted with only candidates removed that were
false from the start or have an earlier entry.
-/
def Justified (H : Houdini) (initial : Variable -> Bool)
    (before : List String) (r : RefutedAnnotation) : Prop :=
  r.kind = .assert -> exists session ac assignment staged,
    H.houdiniSession r.refutationSite = some session ∧
    .assertCmd ac ∈ session.passified.passive.cmds ∧
    extractRefutedAnnotation H.program r.refutationSite
      (assertCmdToCounterexample ac) = some r ∧
    H.getAssignmentWithStages assignment = some staged ∧
    H.program.Refutes session.passified.passive staged ac ∧
    forall v, v ∈ H.houdiniConstants -> assignment v = false ->
      v.name ∈ before ∨ initial v = false

structure TableJustified (H : Houdini) (initial : Variable -> Bool)
    (shared : SharedAnnotations) : Prop where
  nodup : shared.keys.Nodup
  named : forall key r, (key, r) ∈ shared -> r.constant.name = key
  entries : forall before key r after, shared = before ++ (key, r) :: after ->
    Justified H initial (SharedAnnotations.keys before) r

theorem keys_append (before after : SharedAnnotations) :
    SharedAnnotations.keys (before ++ after) =
      SharedAnnotations.keys before ++ SharedAnnotations.keys after := by
  simp [SharedAnnotations.keys]

theorem lookup_of_mem {key : String} {r : RefutedAnnotation}
    (hnodup : shared.keys.Nodup) (h : (key, r) ∈ shared) :
    shared.lookup key = some r := by
  rcases List.append_of_mem h with ⟨before, after, rfl⟩
  rw [List.lookup_eq_some_iff]
  refine ⟨before, after, rfl, ?_⟩
  intro entry hentry
  rw [keys_append, List.nodup_append] at hnodup
  have hne := hnodup.2.2 entry.1 (List.mem_map_of_mem hentry) key
    (by simp [SharedAnnotations.keys])
  simpa using Ne.symm hne

theorem TableJustified.tryAdd {r : RefutedAnnotation} (h : TableJustified H initial shared)
    (hr : Justified H initial shared.keys r) :
    TableJustified H initial (shared.tryAdd r) := by
  unfold SharedAnnotations.tryAdd
  split
  · exact h
  · rename_i hnew
    refine ⟨?_, ?_, ?_⟩
    · rw [keys_append, List.nodup_append]
      refine ⟨h.nodup, by simp [SharedAnnotations.keys], ?_⟩
      intro key hkey key' hkey'
      have hlast : key' = r.constant.name := by
        simpa [SharedAnnotations.keys] using hkey'
      rintro rfl
      rw [hlast] at hkey
      exact hnew hkey
    · intro key r' hmem
      rcases List.mem_append.mp hmem with hmem | hmem
      · exact h.named key r' hmem
      · cases List.mem_singleton.mp hmem
        rfl
    · intro before key r' after hsplit
      rcases List.append_eq_append_iff.mp hsplit with
        ⟨rest, hbefore, hrest⟩ | ⟨rest, hshared, hrest⟩
      · cases rest with
        | nil =>
          simp only [List.nil_append, List.cons.injEq] at hrest
          simp only [List.append_nil] at hbefore
          cases hrest.1
          rw [hbefore]
          exact hr
        | cons first rest => simp at hrest
      · cases rest with
        | nil =>
          simp only [List.nil_append, List.cons.injEq] at hrest
          simp only [List.append_nil] at hshared
          cases hrest.1
          rw [← hshared]
          exact hr
        | cons first rest =>
          simp only [List.cons_append, List.cons.injEq] at hrest
          rw [← hrest.1] at hshared
          exact h.entries before key r' rest hshared

theorem mem_keys_tryAdd {r : RefutedAnnotation} {key : String} :
    key ∈ (shared.tryAdd r).keys <-> key ∈ shared.keys ∨ key = r.constant.name := by
  unfold SharedAnnotations.tryAdd
  split
  · rename_i hold
    constructor
    · exact Or.inl
    · intro h
      rcases h with h | rfl
      · exact h
      · exact hold
  · simp [SharedAnnotations.keys]

theorem keys_subset_publish (p : Program) {key : String}
    (h : key ∈ shared.keys) : key ∈ (publish p s shared).keys := by
  unfold publish
  split
  · split
    · exact mem_keys_tryAdd.mpr (Or.inl h)
    · exact h
  · exact h

/-!
# No site is left behind

A settled implementation that relies on candidates to import relies on an
entry that comes first.  Without the candidates of the entries before it the
implementation is still correct, but that is how the entry was refuted.
-/

def candidatesOf (H : Houdini) (keys : List String) : List Variable :=
  H.houdiniConstants.filter (fun v => v.name ∈ keys)

theorem mem_candidatesOf {keys : List String} {v : Variable} :
    v ∈ candidatesOf H keys <-> v ∈ H.houdiniConstants ∧ v.name ∈ keys := by
  simp [candidatesOf]

theorem mem_of_assumed {p : Program} {P : PassifiedImpl p impl} {v : Variable}
    (h : v ∈ P.houdiniAssumeConstants) : v ∈ p.houdiniConstants := by
  rcases PassifiedImpl.mem_houdiniAssumeConstants.mp h with ⟨_, _, hmatch⟩
  exact (Program.name_of_matchCandidate hmatch).2

theorem matchCandidate_of_extract {p : Program} {P : PassifiedImpl p impl}
    {ac : AssertCmd} {r : RefutedAnnotation} (hac : .assertCmd ac ∈ P.passive.cmds)
    (hr : extractRefutedAnnotation p impl (assertCmdToCounterexample ac) =
      some r) : p.matchCandidate ac.expr = some r.constant := by
  rcases extract_annotation hr with ⟨_, _, hmade, hmatch, _⟩
  rcases P.asserts ac hac with ⟨_, _, hmade', _, _, hsame⟩
  rw [hmade] at hmade'
  cases hmade'
  rw [hsame.matched]
  exact hmatch

theorem Justified.not_stable {before : List String} {r : RefutedAnnotation}
    {session : HoudiniSession H.options H.program r.refutationSite} (hp : H.program.CandidatesGuard)
    (hinitial : forall v, initial v = false -> s.assignment v = false)
    (hsession : H.houdiniSession r.refutationSite = some session)
    (hkind : r.kind = .assert) (htrue : s.assignment r.constant = true)
    (hnew : r.constant.name ∉ before) (h : Justified H initial before r) :
    ¬ Stable H ((candidatesOf H before).foldl HoudiniState.falsify s) session := by
  intro hstable
  rcases h hkind with
    ⟨session', ac, assignment, staged, hsession', hac, hr, hget, hrefutes,
      hexplained⟩
  rw [hsession] at hsession'
  cases hsession'
  rcases getAssignmentWithStages_eq hget with ⟨completed, hstaged⟩
  rw [hstaged] at hget
  cases hget
  have hvalid := hstable.validUnder _ (hstaged _)
  rw [session.vc_valid_iff] at hvalid
  apply Program.not_verified_iff.mpr _ hvalid
  refine ⟨ac, hac, refutes_of_assumes_le hp ?_ hac ?_ hrefutes⟩
  · intro v hv hvtrue
    by_contra hfalse
    have hc := mem_of_assumed hv
    rw [falsify_all_assignment] at hvtrue
    rcases hexplained v hc (by simpa using hfalse) with hname | hfirst
    · exact hvtrue.2 (mem_candidatesOf.mpr ⟨hc, hname⟩)
    · rw [hinitial v hfirst] at hvtrue
      cases hvtrue.1
  · intro v hmatch
    rw [matchCandidate_of_extract hac hr] at hmatch
    cases hmatch
    rw [falsify_all_assignment]
    exact ⟨htrue, fun hin => hnew (mem_candidatesOf.mp hin).2⟩

theorem exists_first_relied {key : String} {r : RefutedAnnotation}
    {relied : RefutedAnnotation -> Prop} (hmem : (key, r) ∈ shared) (h : relied r) :
    exists before key₁ r₁ after, shared = before ++ (key₁, r₁) :: after ∧
      relied r₁ ∧ forall key₂ r₂, (key₂, r₂) ∈ before -> ¬ relied r₂ := by
  classical
  cases hfind : shared.find? (fun entry => relied entry.2) with
  | none =>
    have hnone := List.find?_eq_none.mp hfind (key, r) hmem
    simp [h] at hnone
  | some entry =>
    rcases List.find?_eq_some_iff_append.mp hfind with
      ⟨hrelied, before, after, hsplit, hbefore⟩
    refine ⟨before, entry.1, entry.2, after, hsplit, by simpa using hrelied,
      ?_⟩
    intro key₂ r₂ hmem₂
    simpa using hbefore (key₂, r₂) hmem₂

theorem sitesFresh_of_justified (hp : H.program.CandidatesGuard)
    (hconstants : H.program.DistinctCandidates) (hentries : forall key r, (key, r) ∈ shared ->
      r.constant ∈ H.houdiniConstants) (htable : TableJustified H initial shared)
    (hinitial : forall v, initial v = false -> s.assignment v = false)
    (hstable : AllStable H s) : SitesFresh H shared s := by
  intro key r hlookup hkind htrue session hsession hsettled hdepends
  by_contra hnone
  push Not at hnone
  have hmem : (key, r) ∈ shared := by
    rcases List.lookup_eq_some_iff.mp hlookup with ⟨_, _, rfl, _⟩
    simp
  have hfirst := @exists_first_relied shared key r
    (fun r' => s.assignment r'.constant = true ∧
      DependsOn s session r'.constant) hmem ⟨htrue, hdepends⟩
  rcases hfirst with
    ⟨before, key₁, r₁, after, hsplit, ⟨htrue₁, hdepends₁⟩, hbefore⟩
  have hmem₁ : (key₁, r₁) ∈ shared := by simp [hsplit]
  have hkind₁ : r₁.kind = .assert := by
    by_contra hother
    exact hnone key₁ r₁ (lookup_of_mem htable.nodup hmem₁) hother htrue₁
      hdepends₁
  have hjustified := htable.entries before key₁ r₁ after hsplit
  have hsite : r.refutationSite = r₁.refutationSite := by
    rcases hjustified hkind₁ with ⟨_, ac, _, _, _, hac, hr, _⟩
    exact eq_of_assumed_assert hp hac hr hkind₁ hdepends₁.1
  have hunused : forall v,
      v ∈ candidatesOf H (SharedAnnotations.keys before) ->
        s.assignment v = true -> ¬ DependsOn s session v := by
    intro v hv hvtrue hvdepends
    rcases mem_candidatesOf.mp hv with ⟨hc, hkey⟩
    rcases List.mem_map.mp hkey with ⟨⟨key₂, r₂⟩, hmem₂, hname₂⟩
    have hin : (key₂, r₂) ∈ shared := by simp [hsplit, hmem₂]
    have hsame : r₂.constant = v := by
      apply hconstants r₂.constant v (hentries key₂ r₂ hin) hc
      rw [htable.named key₂ r₂ hin]
      exact hname₂
    subst hsame
    exact hbefore key₂ r₂ hmem₂ ⟨hvtrue, hvdepends⟩
  have hnew : r₁.constant.name ∉ SharedAnnotations.keys before := by
    intro hin
    have hnodup := htable.nodup
    rw [hsplit, keys_append, List.nodup_append] at hnodup
    exact hnodup.2.2 _ hin key₁ (by simp [SharedAnnotations.keys])
      (htable.named key₁ r₁ hmem₁)
  have hremoved := (hstable _ session hsession hsettled.dequeued
    hsettled.correct).falsify_all hp (fun v hv => (mem_candidatesOf.mp hv).1)
    hunused
  rcases r with ⟨c, kind, calleeProc, site⟩
  simp only at hsite hsession hremoved
  subst hsite
  exact hjustified.not_stable hp hinitial hsession hkind₁ htrue₁ hnew hremoved

/-!
# Steps with a deciding prover
-/

section Steps

variable {prover : Prover H} {event : Event}

theorem ErrorsRefuted.congr {errors errors' : List Counterexample}
    (h : ErrorsRefuted H s impl errors) (hassignment : s'.assignment = s.assignment)
    (hsub : forall error, error ∈ errors' -> error ∈ errors) :
    ErrorsRefuted H s' impl errors' := by
  rcases h with ⟨assignment, staged, hget, hle, herrors⟩
  refine ⟨assignment, staged, hget, ?_,
    fun error herror => herrors error (hsub error herror)⟩
  rwa [hassignment]

theorem Explained.moved {keys : List String} {control : Control} (h : Explained H keys initial s)
    (hassignment : s'.assignment = s.assignment) (hcontrol : s'.control = control)
    (hquiet : forall s, ControlExplained H keys s control) :
    Explained H keys initial s' := by
  refine ⟨?_, ?_, ?_⟩
  · rw [hassignment]
    exact h.removed
  · rw [hassignment]
    exact h.initially
  · rw [hcontrol]
    exact hquiet s'

theorem Explained.useAnswer {keys : List String}
    {session : HoudiniSession H.options H.program impl}
    {staged : Variable -> Option Bool} {answer : Answer}
    (hsound : prover.Sound) (hdecides : prover.Decides)
    (hsession : H.houdiniSession impl = some session)
    (hget : H.getAssignmentWithStages s.assignment = some staged)
    (hanswer : prover.answers session staged answer) (h : Explained H keys initial s) :
    Explained H keys initial (useAnswer H session answer s) := by
  unfold Houdini.useAnswer
  simp only
  split
  · exact h.moved rfl rfl (fun _ => trivial)
  · rcases hdecides.answer session staged answer hanswer with hvalid | hinvalid
    · simp only [hvalid]
      split
      · exact h.moved rfl rfl (fun _ => trivial)
      · exact h.moved rfl rfl (fun _ => trivial)
    · simp only [hinvalid]
      refine ⟨h.removed, h.initially, s.assignment, staged, hget,
        fun _ hv => hv, ?_⟩
      intro error herror session' hsession'
      rw [hsession] at hsession'
      cases hsession'
      exact (hsound.invalid session staged answer hanswer hinvalid).2 error
        herror

theorem Explained.refuteNext {error : Counterexample}
    {errors : List Counterexample} {dequeue : Bool}
    (hcontrol : s.control = .refuting impl (error :: errors) dequeue)
    (h : Explained H shared.keys initial s) :
    Explained H (publish H.program s shared).keys initial
      (refuteNext H impl error errors dequeue s) := by
  have herrors : ErrorsRefuted H s impl (error :: errors) := by
    have := h.control
    rwa [hcontrol] at this
  have hrest : forall e, e ∈ errors -> e ∈ error :: errors :=
    fun e he => List.mem_cons_of_mem error he
  unfold Houdini.refuteNext publish
  simp only [hcontrol]
  cases hr : extractRefutedAnnotation H.program impl error with
  | none =>
    simp only
    exact ⟨h.removed, h.initially, herrors.congr rfl hrest⟩
  | some r =>
    simp only
    have hremoved : forall v, v ∈ H.houdiniConstants ->
        s.assignment v = false ->
          v.name ∈ (shared.tryAdd r).keys ∨ initial v = false := by
      intro v hv hfalse
      rcases h.removed v hv hfalse with hname | hfirst
      · exact Or.inl (mem_keys_tryAdd.mpr (Or.inl hname))
      · exact Or.inr hfirst
    split
    · rename_i s₁ hadd
      unfold addRelatedToWorkList at hadd
      split at hadd
      · rename_i found hfound
        cases hadd
        have hsame := (foldl_enqueue_spec found s).1
        refine ⟨?_, ?_, herrors.congr hsame.assignment hrest,
          mem_keys_tryAdd.mpr (Or.inr rfl)⟩
        · show forall v, v ∈ H.houdiniConstants ->
            (found.foldl enqueueUnlessBlackListed s).assignment v = false -> _
          rw [hsame.assignment]
          exact hremoved
        · show forall v, initial v = false ->
            (found.foldl enqueueUnlessBlackListed s).assignment v = false
          rw [hsame.assignment]
          exact h.initially
      · cases hadd
    · exact ⟨hremoved, h.initially, trivial⟩

theorem Explained.updateAssignment {keys : List String}
    {r : RefutedAnnotation} {errors : List Counterexample}
    (hcontrol : s.control = .updatingAssignment impl r errors) (h : Explained H keys initial s) :
    Explained H keys initial ((s.falsify r.constant).goto (.refuting impl errors false)) := by
  have hcurrent := h.control
  rw [hcontrol] at hcurrent
  rcases hcurrent with ⟨⟨assignment, staged, hget, hle, herrors⟩, hname⟩
  have hkept : forall v, (s.falsify r.constant).assignment v = true ->
      s.assignment v = true := by
    intro v hv
    by_contra hfalse
    simp [HoudiniState.falsify, Function.update_apply, hfalse] at hv
  refine ⟨?_, ?_, assignment, staged, hget, fun v hv => hle v (hkept v hv),
    herrors⟩
  · intro v hv hfalse
    by_cases hsame : v = r.constant
    · rw [hsame]
      exact Or.inl hname
    · apply h.removed v hv
      have hvalue : Function.update s.assignment r.constant false v = false :=
        hfalse
      rwa [Function.update_of_ne hsame] at hvalue
  · intro v hv
    have hfalse := h.initially v hv
    show Function.update s.assignment r.constant false v = false
    simp [Function.update_apply, hfalse]

theorem publish_of_not_refuting (p : Program) (h : forall impl error errors dequeue,
      s.control ≠ .refuting impl (error :: errors) dequeue) :
    publish p s shared = shared := by
  unfold publish
  split
  · rename_i hcontrol
    exact absurd hcontrol (h _ _ _ _)
  · rfl

theorem Explained.step (hsound : prover.Sound) (hdecides : prover.Decides)
    (hstep : Houdini.Step H prover s event s') (h : Explained H shared.keys initial s) :
    Explained H (publish H.program s shared).keys initial s' := by
  have hkeep : (forall impl error errors dequeue,
      s.control ≠ .refuting impl (error :: errors) dequeue) ->
      Explained H shared.keys initial s' ->
      Explained H (publish H.program s shared).keys initial s' := by
    intro hother hnew
    rwa [publish_of_not_refuting H.program hother]
  cases hstep with
  | refute hcontrol => exact h.refuteNext hcontrol
  | peek hcontrol _ =>
    apply hkeep (by simp [hcontrol])
    exact h.moved rfl rfl (fun _ => trivial)
  | verify hcontrol hsession hget hanswer =>
    apply hkeep (by simp [hcontrol])
    exact h.useAnswer hsound hdecides hsession hget hanswer
  | updateAssignment hcontrol =>
    apply hkeep (by simp [hcontrol])
    exact h.updateAssignment hcontrol
  | verifyAgain hcontrol =>
    apply hkeep (by simp [hcontrol])
    exact h.moved rfl rfl (fun _ => trivial)
  | flush hcontrol _ _ _ _ =>
    apply hkeep (by simp [hcontrol])
    exact h.moved rfl hcontrol (fun _ => trivial)
  | finish hcontrol _ =>
    apply hkeep (by simp [hcontrol])
    exact h.moved rfl rfl (fun _ => trivial)
  | verifyNull hcontrol _ =>
    apply hkeep (by simp [hcontrol])
    exact h.moved rfl rfl (fun _ => trivial)
  | unsatCore hcontrol _ _ =>
    apply hkeep (by simp [hcontrol])
    exact h.moved rfl rfl (fun _ => trivial)
  | leave hcontrol =>
    apply hkeep (by simp [hcontrol])
    exact h.moved rfl rfl (fun _ => trivial)
  | flushNull hcontrol _ _ =>
    apply hkeep (by simp [hcontrol])
    exact h.moved rfl rfl (fun _ => trivial)
  | flushed hcontrol _ =>
    apply hkeep (by simp [hcontrol])
    exact h.moved rfl rfl (fun _ => trivial)

theorem TableJustified.publish (htable : TableJustified H initial shared)
    (hinv : Invariant H s) (h : Explained H shared.keys initial s) :
    TableJustified H initial (publish H.program s shared) := by
  unfold ConcurrentHoudini.publish
  split
  · rename_i impl error errors dequeue hcontrol
    split
    · rename_i r hr
      apply htable.tryAdd
      intro hkind
      have hcurrent := hinv.control
      rw [hcontrol] at hcurrent
      rcases hcurrent with ⟨_, _, _, session, hsession⟩
      have hexplained := h.control
      rw [hcontrol] at hexplained
      rcases hexplained with ⟨assignment, staged, hget, hle, herrors⟩
      rcases herrors error (by simp) session hsession with
        ⟨ac, hac, rfl, hrefutes⟩
      rcases extract_annotation hr with ⟨_, _, _, _, hsite, _⟩
      subst hsite
      refine ⟨session, ac, assignment, staged, hsession, hac, hr, hget,
        hrefutes, ?_⟩
      intro v hv hfalse
      apply h.removed v hv
      by_contra htrue
      rw [hle v (by simpa using htrue)] at hfalse
      cases hfalse
    · exact htable
  · exact htable

theorem Imported.explained {s₁ : HoudiniState} {keys : List String}
    {control : Control} (himported : Imported H shared keys s s')
    (hkeys : forall key, key ∈ keys -> key ∈ shared.keys)
    (hassignment : s₁.assignment = s'.assignment) (hcontrol : s₁.control = control)
    (hquiet : forall s, ControlExplained H shared.keys s control)
    (h : Explained H shared.keys initial s) :
    Explained H shared.keys initial s₁ := by
  refine ⟨?_, ?_, ?_⟩
  · intro v hv hfalse
    by_cases hname : v.name ∈ keys
    · exact Or.inl (hkeys _ hname)
    · apply h.removed v hv
      by_contra htrue
      have hkept := (himported.assignment v).mpr
        ⟨by simpa using htrue, fun hin => hname hin.2⟩
      rw [← hassignment, hfalse] at hkept
      cases hkept
  · intro v hfirst
    have hfalse := h.initially v hfirst
    rw [hassignment]
    by_contra htrue
    have hold := (himported.assignment v).mp (by simpa using htrue)
    rw [hfalse] at hold
    cases hold.1
  · rw [hcontrol]
    exact hquiet s₁

end Steps

/-!
# Runs with deciding provers

The instances are copies of one another and start with the same candidates.
-/

section Runs

variable {Id : Type} [DecidableEq Id] {K : ConcurrentHoudini Id}
  {prover : forall id, Prover (K.houdini id)} {σ₀ σ σ' : State Id} {id : Id}
  {action : Action}

structure Alike (K : ConcurrentHoudini Id) (initial : Variable -> Bool) :
    Prop where
  houdini : forall id id', K.houdini id = K.houdini id'
  initialAssignment : forall id, K.initialAssignment id = initial

structure DecidedInvariant (K : ConcurrentHoudini Id)
    (initial : Variable -> Bool) (σ : State Id) : Prop where
  run : K.RunInvariant σ
  table : forall id, TableJustified (K.houdini id) initial
    σ.refutedSharedAnnotations
  starting : forall id rest assignment,
    σ.instances id = .starting rest assignment ->
      (forall v, assignment v = false ->
        v.name ∈ σ.refutedSharedAnnotations.keys ∨ initial v = false) ∧
      forall v, initial v = false -> assignment v = false
  running : forall id s, σ.instances id = .running s ->
    Explained (K.houdini id) σ.refutedSharedAnnotations.keys initial s

omit [DecidableEq Id] in
theorem Initial.decidedInvariant (h : Initial σ) :
    DecidedInvariant K initial σ where
  run := h.runInvariant
  table := by
    intro id
    rw [h.shared]
    exact ⟨List.nodup_nil, by simp, by simp⟩
  starting := by
    intro id rest assignment hs
    rw [h.created id] at hs
    cases hs
  running := by
    intro id s hs
    rw [h.created id] at hs
    cases hs

theorem Explained.mono {keys keys' : List String} (hsub : forall key, key ∈ keys -> key ∈ keys')
    (h : Explained H keys initial s) : Explained H keys' initial s where
  removed := by
    intro v hv hfalse
    rcases h.removed v hv hfalse with hname | hfirst
    · exact Or.inl (hsub _ hname)
    · exact Or.inr hfirst
  initially := h.initially
  control := by
    have hcontrol := h.control
    cases hplace : s.control with
    | refuting impl errors dequeue => rwa [hplace] at hcontrol
    | updatingAssignment impl r errors =>
      rw [hplace] at hcontrol
      exact ⟨hcontrol.1, hsub _ hcontrol.2⟩
    | _ => trivial

theorem DecidedInvariant.set {i : Instance} (h : DecidedInvariant K initial σ)
    (hrun : K.RunInvariant (σ.set id i))
    (hstarting : forall rest assignment, i = .starting rest assignment ->
      (forall v, assignment v = false ->
        v.name ∈ σ.refutedSharedAnnotations.keys ∨ initial v = false) ∧
      forall v, initial v = false -> assignment v = false) (hrunning : forall s, i = .running s ->
      Explained (K.houdini id) σ.refutedSharedAnnotations.keys initial s) :
    DecidedInvariant K initial (σ.set id i) where
  run := hrun
  table := h.table
  starting := by
    intro id' rest assignment hs
    by_cases hid : id' = id
    · subst hid
      simp only [State.set, Function.update_self] at hs
      exact hstarting rest assignment hs
    · simp only [State.set, Function.update_of_ne hid] at hs
      exact h.starting id' rest assignment hs
  running := by
    intro id' s hs
    by_cases hid : id' = id
    · subst hid
      simp only [State.set, Function.update_self] at hs
      exact hrunning s hs
    · simp only [State.set, Function.update_of_ne hid] at hs
      exact h.running id' s hs

theorem DecidedInvariant.nothingStale (hp : K.program.CandidatesGuard)
    (hsound : forall id, (prover id).Sound) (hdecides : forall id, (prover id).Decides)
    (hconstants : K.program.DistinctCandidates)
    (hstages : K.options.useUnsatCoreForContractInfer = true -> forall id, (K.houdini id).NoStages)
    (hstep : Step K prover σ id action σ')
    (h : DecidedInvariant K initial σ) : K.NothingStale σ id action := by
  have hfresh : forall s impl dequeue, σ.instances id = .running s ->
      s.control = .refuting impl [] dequeue ->
      SitesFresh (K.houdini id) σ.refutedSharedAnnotations s := by
    intro s impl dequeue hrunning hcontrol
    have hcurrent := (h.run.instances id s hrunning).control
    rw [hcontrol] at hcurrent
    have hentries : forall key r, (key, r) ∈ σ.refutedSharedAnnotations ->
        r.constant ∈ (K.houdini id).houdiniConstants := by
      intro key r hmem
      exact (h.run.published key r
        (lookup_of_mem (h.table id).nodup hmem)).constant_mem
    have hp' : (K.houdini id).program.CandidatesGuard := hp
    exact sitesFresh_of_justified hp' hconstants hentries (h.table id)
      (h.running id s hrunning).initially hcurrent.1.stable
  cases hstep with
  | begin => trivial
  | check => trivial
  | enter => trivial
  | inference hrunning _ hstep =>
    intro s hs
    rw [hrunning] at hs
    cases hs
    exact (h.run.instances id _ hrunning).nothingStale (hsound id)
      (hdecides id) (fun hoption => hstages hoption id) hstep
  | exchange hrunning hcontrol _ _ =>
    intro s hs
    rw [hrunning] at hs
    cases hs
    exact hfresh _ _ _ hrunning hcontrol
  | exchangeFails hrunning hcontrol _ _ =>
    intro s hs
    rw [hrunning] at hs
    cases hs
    exact hfresh _ _ _ hrunning hcontrol

theorem DecidedInvariant.step (hsound : forall id, (prover id).Sound)
    (hdecides : forall id, (prover id).Decides)
    (hconstants : K.program.DistinctCandidates) (halike : Alike K initial)
    (hrun : K.RunInvariant σ') (hstep : Step K prover σ id action σ')
    (h : DecidedInvariant K initial σ) : DecidedInvariant K initial σ' := by
  cases hstep with
  | begin _ =>
    apply h.set hrun _ (by simp)
    intro rest assignment hs
    cases hs
    rw [halike.initialAssignment id]
    exact ⟨fun v hv => Or.inr hv, fun v hv => hv⟩
  | check hstarting =>
    rename_i v vs assignment
    have hold := h.starting id _ _ hstarting
    apply h.set hrun _ (by simp)
    intro rest assignment' hs
    cases hs
    split
    · rename_i hname
      constructor
      · intro w hw
        by_cases hsame : w = v
        · rw [hsame]
          exact Or.inl hname
        · rw [Function.update_of_ne hsame] at hw
          exact hold.1 w hw
      · intro w hw
        simp [Function.update_apply, hold.2 w hw]
    · exact hold
  | enter hstarting hinit =>
    have hold := h.starting id _ _ hstarting
    apply h.set hrun (by simp)
    intro s hs
    cases hs
    refine ⟨?_, ?_, ?_⟩
    · rw [hinit.assignment]
      exact fun v _ hv => hold.1 v hv
    · rw [hinit.assignment]
      exact hold.2
    · rw [hinit.control]
      trivial
  | inference hrunning hquiet hstep =>
    rename_i s s' event
    have hold := h.running id s hrunning
    have hinv := h.run.instances id s hrunning
    have hgrow : forall key, key ∈ σ.refutedSharedAnnotations.keys ->
        key ∈ (publish K.program s σ.refutedSharedAnnotations).keys :=
      fun key hkey => keys_subset_publish K.program hkey
    refine ⟨hrun, ?_, ?_, ?_⟩
    · intro id'
      rw [halike.houdini id' id]
      exact (h.table id).publish hinv hold
    · intro id' rest assignment hs
      by_cases hid : id' = id
      · subst hid
        simp at hs
      · simp only [Function.update_of_ne hid] at hs
        have hother := h.starting id' rest assignment hs
        refine ⟨?_, hother.2⟩
        intro v hv
        rcases hother.1 v hv with hname | hfirst
        · exact Or.inl (hgrow _ hname)
        · exact Or.inr hfirst
    · intro id' s₁ hs
      by_cases hid : id' = id
      · subst hid
        simp only [Function.update_self] at hs
        cases hs
        exact hold.step (hsound id') (hdecides id') hstep
      · simp only [Function.update_of_ne hid] at hs
        exact (h.running id' s₁ hs).mono hgrow
  | exchange hrunning hcontrol hkeys hexchange =>
    have hold := h.running id _ hrunning
    have himported := exchange_imported hconstants hexchange
    have hsub : forall key, key ∈ _ ->
        key ∈ σ.refutedSharedAnnotations.keys :=
      fun key hkey => hkeys.mem_iff.mp hkey
    apply h.set hrun (by simp)
    intro s₁ hs
    cases hs
    unfold leaveOrVerifyAgain
    split
    · exact himported.explained hsub rfl rfl (fun _ => trivial) hold
    · exact himported.explained hsub rfl rfl (fun _ => trivial) hold
  | exchangeFails => exact h.set hrun (by simp) (by simp)

/--
With provers that decide each query, copies of one inference that start with
the same candidates keep the worklist invariant in every run.
-/
theorem concurrent_worklist_sound_of_decides {s : HoudiniState}
    (hp : K.program.CandidatesGuard) (hsound : forall id, (prover id).Sound)
    (hdecides : forall id, (prover id).Decides) (hnames : K.program.DistinctImplementations)
    (hconstants : K.program.DistinctCandidates)
    (hstages : K.options.useUnsatCoreForContractInfer = true -> forall id, (K.houdini id).NoStages)
    (halike : Alike K initial) (hinit : Initial σ₀)
    (hreach : K.Reaches prover (fun _ _ _ => True) σ₀ σ) (hrunning : σ.instances id = .running s) :
    WorklistInvariant (K.houdini id) s ∧
      (s.control = .returned -> ReportsSound (K.houdini id) s) := by
  have h : DecidedInvariant K initial σ := by
    clear hrunning
    induction hreach with
    | refl => exact hinit.decidedInvariant
    | tail _ hstep ih =>
      rcases hstep with ⟨id, action, _, hstep⟩
      have hok := ih.nothingStale hp hsound hdecides hconstants hstages hstep
      have hrun := ih.run.step hp hsound hnames hconstants
        (fun hoption id v _ => (hstages hoption id).unstaged v) hok hstep
      exact ih.step hsound hdecides hconstants halike hrun hstep
  have hinvariant := h.run.instances id s hrunning
  exact ⟨hinvariant.worklistInvariant, hinvariant.reportsSound⟩

end Runs

end ConcurrentHoudini

end Boogie
