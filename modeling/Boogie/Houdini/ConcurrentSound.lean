import Boogie.Houdini.BuildWorkList
import Boogie.Houdini.ConcurrentHoudini
import Boogie.Houdini.CandidateChecks

/-!
# Soundness of concurrent Houdini

An exchange keeps the worklist invariant of an instance when no site of an
imported assertion is left behind: the exchange puts callers and callees back
on the worklist, but not the site itself.
-/

namespace Boogie

open Houdini

namespace ConcurrentHoudini

variable {H : Houdini} {s s' : HoudiniState} {impl : Implementation}
  {shared : SharedAnnotations} {keys : List String}

/-!
# What keeps an exchange sound

An entry was made from an assertion of a verification condition.  The site of
an assertion is not put back when the entry is imported, so that it must not
rely on the candidate any more.
-/

section Exchange

variable {Id : Type} {K : ConcurrentHoudini Id} {id : Id}

structure Published (K : ConcurrentHoudini Id) (key : String)
    (r : RefutedAnnotation) : Prop where
  name : r.constant.name = key
  refuted : exists id session ac,
    (K.houdini id).houdiniSession r.refutationSite = some session ∧
    .assertCmd ac ∈ session.passified.passive.cmds ∧
    extractRefutedAnnotation K.program r.refutationSite
      (assertCmdToCounterexample ac) = some r

def AllPublished (K : ConcurrentHoudini Id) (shared : SharedAnnotations) :
    Prop :=
  forall key r, shared.lookup key = some r -> K.Published key r

/--
No settled site of an assertion to import relies on its candidate, unless it
relies on a pre- or postcondition to import, which puts it back.
-/
def SitesFresh (H : Houdini) (shared : SharedAnnotations) (s : HoudiniState) :
    Prop :=
  forall key r, shared.lookup key = some r -> r.kind = .assert ->
    s.assignment r.constant = true ->
    forall session, H.houdiniSession r.refutationSite = some session ->
      Settled s r.refutationSite -> DependsOn s session r.constant ->
      exists key' r', shared.lookup key' = some r' ∧ r'.kind ≠ .assert ∧
        s.assignment r'.constant = true ∧ DependsOn s session r'.constant

theorem Published.constant_mem {key : String} {r : RefutedAnnotation}
    (h : K.Published key r) : r.constant ∈ K.program.houdiniConstants := by
  rcases h.refuted with ⟨_, _, _, _, _, hr⟩
  rcases extract_annotation hr with ⟨_, _, _, hmatch, _⟩
  exact (Program.name_of_matchCandidate hmatch).2

theorem Published.built {key : String} {r r' : RefutedAnnotation}
    (hnames : K.program.DistinctImplementations) (h : K.Published key r)
    (hbuild : buildRefuted K.program r r.constant = some r') : r' = r := by
  rcases h.refuted with ⟨id, session, ac, hsession, _, hr⟩
  have hverified : r.refutationSite ∈ K.program.verified :=
    mem_callGraph_of_session hsession
  exact buildRefuted_eq hnames (List.mem_of_mem_filter hverified) hr rfl hbuild

theorem Published.related {key : String} {r : RefutedAnnotation}
    {other : Implementation} {found : List Implementation}
    {session : HoudiniSession K.options K.program other}
    (hp : K.program.CandidatesGuard) (h : K.Published key r)
    (hsession : (K.houdini id).houdiniSession other = some session)
    (hfound : findImplementationsToEnqueue (K.houdini id) s r = some found)
    (hdepends : DependsOn s session r.constant) :
    (r.kind = .assert ∧ other = r.refutationSite) ∨ (r.kind ≠ .assert ∧ other ∈ found) := by
  rcases h.refuted with ⟨id', session', ac, hsession', hac, hr⟩
  have hverified : r.refutationSite ∈ K.program.verified :=
    mem_callGraph_of_session hsession'
  have hp' : (K.houdini id).program.CandidatesGuard := hp
  exact mem_findImplementationsToEnqueue hp' hverified hsession hac hr hfound
    hdepends

theorem Imported.not_dependsOn {other : Implementation}
    {session : HoudiniSession K.options K.program other} (hp : K.program.CandidatesGuard)
    (hnames : K.program.DistinctImplementations) (hconstants : K.program.DistinctCandidates)
    (hpublished : K.AllPublished shared) (hkeys : forall key, key ∈ keys <-> key ∈ shared.keys)
    (hfresh : SitesFresh (K.houdini id) shared s) (hbase : Base (K.houdini id) s)
    (h : Imported (K.houdini id) shared keys s s')
    (hsession : (K.houdini id).houdiniSession other = some session)
    (hsettled : Settled s' other) {v : Variable}
    (hv : v ∈ K.program.houdiniConstants) (hname : v.name ∈ keys)
    (htrue : s.assignment v = true) : ¬ DependsOn s session v := by
  have hold : Settled s other :=
    ⟨fun hmem => hsettled.dequeued (h.enqueued.subset other hmem), by
      have hcorrect := hsettled.correct
      unfold HoudiniState.RecordedCorrect at hcorrect ⊢
      rwa [h.enqueued.outcomes] at hcorrect⟩
  -- what a dependent imports is an assertion of its own body
  have hown : forall w r, shared.lookup w.name = some r -> r.constant = w ->
      w.name ∈ keys -> s.assignment w = true -> DependsOn s session w ->
        r.kind = .assert ∧ other = r.refutationSite := by
    intro w r hlookup hw hmem hwtrue hdepends
    have hentry := hpublished w.name r hlookup
    subst hw
    rcases h.related r.constant hentry.constant_mem hmem hwtrue with
      ⟨r₁, r', found, hlookup₁, hbuild, hfound, hqueued⟩
    rw [hlookup] at hlookup₁
    cases hlookup₁
    have hsame : r' = r := hentry.built hnames hbuild
    rw [hsame] at hfound
    rcases hentry.related hp hsession hfound hdepends with hassert | hput
    · exact hassert
    · have hblack : other.name ∉ s.blackList := fun hblack =>
        (hbase.blackListed other session hsession hblack).2 hold.correct
      exact absurd (hqueued other hput.2 hblack) hsettled.dequeued
  intro hdepends
  rcases h.related v hv hname htrue with ⟨r, _, _, hlookup, _⟩
  have hentry := hpublished v.name r hlookup
  have hr : r.constant = v :=
    hconstants r.constant v hentry.constant_mem hv hentry.name
  rcases hown v r hlookup hr hname htrue hdepends with ⟨hkind, hsite⟩
  subst hsite
  subst hr
  rcases hfresh _ r hlookup hkind htrue session hsession hold hdepends with
    ⟨key', r', hlookup', hkind', htrue', hdepends'⟩
  have hname' := (hpublished key' r' hlookup').name
  subst hname'
  exact hkind' (hown r'.constant r' hlookup' rfl
    ((hkeys _).mpr (mem_of_lookup hlookup')) htrue' hdepends').1

theorem Imported.allStable (hp : K.program.CandidatesGuard)
    (hnames : K.program.DistinctImplementations) (hconstants : K.program.DistinctCandidates)
    (hpublished : K.AllPublished shared) (hkeys : forall key, key ∈ keys <-> key ∈ shared.keys)
    (hfresh : SitesFresh (K.houdini id) shared s) (hbase : Base (K.houdini id) s)
    (hstable : AllStable (K.houdini id) s) (h : Imported (K.houdini id) shared keys s s') :
    AllStable (K.houdini id) s' := by
  intro other session hsession hnot hcorrect
  let vs := K.program.houdiniConstants.filter (fun v => v.name ∈ keys)
  have hvs : forall v, v ∈ vs <->
      v ∈ K.program.houdiniConstants ∧ v.name ∈ keys := by
    intro v
    simp [vs]
  have hunused : forall v, v ∈ vs -> s.assignment v = true ->
      ¬ DependsOn s session v := by
    intro v hv htrue
    exact h.not_dependsOn hp hnames hconstants hpublished hkeys hfresh hbase
      hsession ⟨hnot, hcorrect⟩ ((hvs v).mp hv).1 ((hvs v).mp hv).2 htrue
  have hold : Stable (K.houdini id) s session := by
    apply hstable other session hsession
    · exact fun hmem => hnot (h.enqueued.subset other hmem)
    · unfold HoudiniState.RecordedCorrect at hcorrect ⊢
      rwa [h.enqueued.outcomes] at hcorrect
  have hremoved : Stable (K.houdini id) (vs.foldl HoudiniState.falsify s)
      session :=
    hold.falsify_all hp (fun v hv => ((hvs v).mp hv).1) hunused
  apply hremoved.congr
  · funext v
    rw [Bool.eq_iff_iff, falsify_all_assignment, h.assignment v, hvs]
    exact Iff.rfl
  · rw [falsify_all_cores]
    exact congrFun h.enqueued.cores other

theorem Imported.base (h : Imported H shared keys s s') (hbase : Base H s)
    (hstable : AllStable H s') : Base H s' where
  blackListed := by
    intro other session hsession hblack
    rw [h.enqueued.blackList] at hblack
    have hold := hbase.blackListed other session hsession hblack
    constructor
    · intro hmem
      rcases h.enqueued.added other hmem with hmem | hname
      · exact hold.1 hmem
      · exact hname hblack
    · unfold HoudiniState.RecordedCorrect
      rw [h.enqueued.outcomes]
      exact hold.2
  noCores := by
    intro hoption
    rw [h.enqueued.cores]
    exact hbase.noCores hoption
  valid := fun other session hsession hsettled =>
    (hstable other session hsession hsettled.dequeued
      hsettled.correct).validUnder

theorem leaveOrVerifyAgain_invariant {dequeue : Bool}
    (hverifying : Verifying H s impl) (hbase : Base H s) (hwrong : ¬ s.RecordedCorrect impl) :
    Invariant H (leaveOrVerifyAgain impl dequeue s) := by
  unfold leaveOrVerifyAgain
  split
  · rcases hverifying.head with ⟨impls, hqueue⟩
    have hbase' := hbase.dequeue hqueue
      (fun _ _ hcorrect => absurd hcorrect hwrong)
    have hstable' := hverifying.stable.dequeue hqueue
      (fun _ _ hcorrect => absurd hcorrect hwrong)
    exact ⟨hbase'.goto, fun _ => hstable'.goto⟩
  · exact ⟨hbase.goto, hverifying.head, hverifying.stable.goto⟩

theorem exchange_invariant {dequeue dequeue' : Bool}
    {count count' : Nat} (hp : K.program.CandidatesGuard)
    (hnames : K.program.DistinctImplementations) (hconstants : K.program.DistinctCandidates)
    (hpublished : K.AllPublished shared) (hkeys : keys.Perm shared.keys)
    (hfresh : SitesFresh (K.houdini id) shared s) (hcontrol : s.control = .refuting impl [] dequeue)
    (hexchange : exchangeRefutedAnnotations (K.houdini id) shared keys s count = some (s', count'))
    (h : Invariant (K.houdini id) s) :
    Invariant (K.houdini id) (leaveOrVerifyAgain impl dequeue' s') := by
  have hcurrent := h.control
  rw [hcontrol] at hcurrent
  rcases hcurrent with ⟨hverifying, _, hwrong, _⟩
  have himported := exchange_imported hconstants hexchange
  have hstable := himported.allStable hp hnames hconstants hpublished
    (fun key => hkeys.mem_iff) hfresh h.base hverifying.stable
  have hwrong' : ¬ s'.RecordedCorrect impl := by
    unfold HoudiniState.RecordedCorrect
    rw [himported.enqueued.outcomes]
    exact hwrong
  rcases hverifying.head with ⟨impls, hqueue⟩
  apply leaveOrVerifyAgain_invariant _ (himported.base h.base hstable) hwrong'
  exact ⟨himported.enqueued.head impl impls hqueue, hstable⟩

end Exchange

/-!
# Runs
-/

section Runs

variable {Id : Type} [DecidableEq Id] {K : ConcurrentHoudini Id}
  {prover : forall id, Prover (K.houdini id)} {σ₀ σ σ' : State Id} {id : Id}

/--
What a step needs: an inference leaves nothing stale by itself, and an exchange
leaves no site behind.
-/
def NothingStale (K : ConcurrentHoudini Id) (σ : State Id) (id : Id) :
    Action -> Prop
  | .start => True
  | .inference event => forall s, σ.instances id = .running s ->
      Houdini.NothingStale (K.houdini id) s event
  | .exchange => forall s, σ.instances id = .running s ->
      SitesFresh (K.houdini id) σ.refutedSharedAnnotations s

structure RunInvariant (K : ConcurrentHoudini Id) (σ : State Id) : Prop where
  published : K.AllPublished σ.refutedSharedAnnotations
  instances : forall id s, σ.instances id = .running s ->
    Invariant (K.houdini id) s

omit [DecidableEq Id] in
theorem Initial.runInvariant (h : Initial σ) : K.RunInvariant σ where
  published := by
    intro key r hlookup
    rw [h.shared] at hlookup
    cases hlookup
  instances := by
    intro id s hs
    rw [h.created id] at hs
    cases hs

theorem RunInvariant.set {i : Instance} (h : K.RunInvariant σ)
    (hi : forall s, i = .running s -> Invariant (K.houdini id) s) :
    K.RunInvariant (σ.set id i) where
  published := h.published
  instances := by
    intro id' s hs
    by_cases hid : id' = id
    · subst hid
      simp only [State.set, Function.update_self] at hs
      exact hi s hs
    · simp only [State.set, Function.update_of_ne hid] at hs
      exact h.instances id' s hs

omit [DecidableEq Id] in
theorem AllPublished.publish (hpublished : K.AllPublished shared) (h : Invariant (K.houdini id) s) :
    K.AllPublished (publish K.program s shared) := by
  unfold ConcurrentHoudini.publish
  split
  · rename_i impl error errors dequeue hcontrol
    split
    · rename_i r hr
      intro key r' hlookup
      rcases lookup_tryAdd hlookup with hold | ⟨rfl, rfl, _⟩
      · exact hpublished key r' hold
      · have hcurrent := h.control
        rw [hcontrol] at hcurrent
        rcases hcurrent with ⟨_, herrors, _, session, hsession⟩
        rcases herrors error (by simp) session hsession with ⟨ac, hac, rfl⟩
        rcases extract_annotation hr with ⟨_, _, _, _, hsite, _⟩
        subst hsite
        exact ⟨rfl, id, session, ac, hsession, hac, hr⟩
    · exact hpublished
  · exact hpublished

theorem RunInvariant.step {action : Action} (hp : K.program.CandidatesGuard)
    (hsound : forall id, (prover id).Sound) (hnames : K.program.DistinctImplementations)
    (hconstants : K.program.DistinctCandidates)
    (hunstaged : K.options.useUnsatCoreForContractInfer = true ->
      forall id v, v ∈ K.program.houdiniConstants -> (K.houdini id).Unstaged v)
    (hok : K.NothingStale σ id action) (hstep : Step K prover σ id action σ')
    (h : K.RunInvariant σ) : K.RunInvariant σ' := by
  have hdistinct : (K.houdini id).DistinctNames :=
    Program.DistinctImplementations.names hnames
  cases hstep with
  | begin => exact h.set (by simp)
  | check => exact h.set (by simp)
  | enter _ hinit =>
    apply h.set
    intro s hs
    cases hs
    exact hinit.invariant hdistinct
  | inference hrunning _ hstep =>
    have hold := h.instances id _ hrunning
    have hnew := hold.step hp hdistinct (hsound id)
      (fun hoption => hunstaged hoption id) (hok _ hrunning) hstep
    refine ⟨h.published.publish hold, ?_⟩
    exact (h.set (by rintro s ⟨⟩; exact hnew)).instances
  | exchange hrunning hcontrol hkeys hexchange =>
    have hold := h.instances id _ hrunning
    apply h.set
    intro s hs
    cases hs
    exact exchange_invariant hp hnames hconstants h.published hkeys
      (hok _ hrunning) hcontrol hexchange hold
  | exchangeFails => exact h.set (by simp)

theorem Reaches.runInvariant (hp : K.program.CandidatesGuard)
    (hsound : forall id, (prover id).Sound) (hnames : K.program.DistinctImplementations)
    (hconstants : K.program.DistinctCandidates)
    (hunstaged : K.options.useUnsatCoreForContractInfer = true ->
      forall id v, v ∈ K.program.houdiniConstants -> (K.houdini id).Unstaged v)
    (hinit : Initial σ₀) (hreach : K.Reaches prover K.NothingStale σ₀ σ) :
    K.RunInvariant σ := by
  induction hreach with
  | refl => exact hinit.runInvariant
  | tail _ hstep ih =>
    rcases hstep with ⟨id, action, hok, hstep⟩
    exact ih.step hp hsound hnames hconstants hunstaged hok hstep

/--
In every run of the instances whose steps leave nothing stale, each instance
keeps the worklist invariant, and when it returns, what it reports correct is
correct under its own assignment.
-/
theorem concurrent_worklist_sound {s : HoudiniState}
    (hp : K.program.CandidatesGuard) (hsound : forall id, (prover id).Sound)
    (hnames : K.program.DistinctImplementations) (hconstants : K.program.DistinctCandidates)
    (hunstaged : K.options.useUnsatCoreForContractInfer = true ->
      forall id v, v ∈ K.program.houdiniConstants -> (K.houdini id).Unstaged v)
    (hinit : Initial σ₀) (hreach : K.Reaches prover K.NothingStale σ₀ σ)
    (hrunning : σ.instances id = .running s) :
    WorklistInvariant (K.houdini id) s ∧
      (s.control = .returned -> ReportsSound (K.houdini id) s) := by
  have h := hreach.runInvariant hp hsound hnames hconstants hunstaged hinit
  have hinvariant := h.instances id s hrunning
  exact ⟨hinvariant.worklistInvariant, hinvariant.reportsSound⟩

end Runs

/-!
# Candidates removed in silence

An instance that gives up removes the candidates of an implementation without
an entry in the table.  Without them it refutes an assertion of which another
instance has verified the site.
-/

section Silence

def existential (name : String) : Constant where
  ident := ⟨name, .bool⟩
  attributes := [⟨"existential", [.expr (.literal (.bool true))]⟩]

def guardedBy (c : Constant) (e : Expr) : Expr :=
  Expr.imp (.ident c.variable) e

def cy : Constant := existential "cy"

def cz : Constant := existential "cz"

def cw : Constant := existential "cw"

def assertsP : AssertCmd :=
  passiveAssert 3 (guardedBy cz (parameter "p"))

def assertsQ : AssertCmd :=
  passiveAssert 5 (parameter "q")

def siteCmds : List Cmd :=
  [.assertCmd assertsP,
    .assumeCmd
      { uniqueId := 4, expr := guardedBy cz (parameter "q"), attributes := [] },
    .assertCmd assertsQ]

/--
`implementation A(p: bool, q: bool) { assert cz ==> p; assume cz ==> q;
assert q; call R(); }`
-/
def siteImpl : Implementation where
  uniqueId := 1
  name := "A"
  blocks := [⟨2, "start", siteCmds ++ [.callCmd ⟨"R", [], []⟩], .returnCmd⟩]
  skipVerification := false

/-- `implementation R() { call A(true, true); }` -/
def relayImpl : Implementation where
  uniqueId := 11
  name := "R"
  blocks := [⟨12, "start", [.callCmd ⟨"A", [.trueExpr, .trueExpr], []⟩], .returnCmd⟩]
  skipVerification := false

def assertsNothing : AssertCmd :=
  passiveAssert 8 (guardedBy cw .falseExpr)

/-- `implementation B() { call A(true, true); assert cw ==> false; }` -/
def callingImpl : Implementation where
  uniqueId := 6
  name := "B"
  blocks :=
    [{ uniqueId := 7
       label := "start"
       cmds :=
         [.callCmd ⟨"A", [.trueExpr, .trueExpr], []⟩, .assertCmd assertsNothing]
       transferCmd := .returnCmd }]
  skipVerification := false

/-- `procedure A(p: bool, q: bool); requires cy ==> p;` -/
def silentProgram : Program where
  constants := [cy, cz, cw]
  axioms := []
  procedures :=
    [⟨"A", [⟨false, guardedBy cy (parameter "p")⟩], []⟩, ⟨"R", [], []⟩, ⟨"B", [], []⟩]
  implementations := [relayImpl, siteImpl, callingImpl]

theorem silentProgram_guard : silentProgram.CandidatesGuard := by
  decide

def sitePassiveBlock : Block where
  uniqueId := 2
  label := "start"
  cmds :=
    .assumeCmd
      { uniqueId := 9, expr := guardedBy cy (parameter "p"), attributes := [] } ::
        siteCmds
  transferCmd := .returnCmd

def sitePassive : PassifiedImpl silentProgram siteImpl :=
  PassifiedImpl.ofPassive _ _
    (PassiveProgram.single sitePassiveBlock (by decide) rfl (by decide)
      (by decide))
    (by decide)

def requiresTrue (uniqueId : Nat) : AssertCmd where
  uniqueId := uniqueId
  expr := guardedBy cy .trueExpr
  attributes := []
  kind := .assertRequiresCmd "A" (guardedBy cy (parameter "p"))
  origExpr := some (guardedBy cy .trueExpr)

def relayPassiveBlock : Block where
  uniqueId := 12
  label := "start"
  cmds := [.assertCmd (requiresTrue 13)]
  transferCmd := .returnCmd

def relayPassive : PassifiedImpl silentProgram relayImpl :=
  PassifiedImpl.ofPassive _ _
    (PassiveProgram.single relayPassiveBlock (by decide) rfl (by decide)
      (by decide))
    (by decide)

def callingPassiveBlock : Block where
  uniqueId := 7
  label := "start"
  cmds := [.assertCmd (requiresTrue 10), .assertCmd assertsNothing]
  transferCmd := .returnCmd

def callingPassive : PassifiedImpl silentProgram callingImpl :=
  PassifiedImpl.ofPassive _ _
    (PassiveProgram.single callingPassiveBlock (by decide) rfl (by decide)
      (by decide))
    (by decide)

def silent : Houdini where
  program := silentProgram
  options := defaultHoudiniOptions
  vcgen := fun impl =>
    if h : impl = siteImpl then some (h ▸ sitePassive)
    else if h : impl = callingImpl then some (h ▸ callingPassive)
    else if h : impl = relayImpl then some (h ▸ relayPassive)
    else none
  crossDependencies := fun _ => []
  stage := 0
  completedStages := none

def twoSilent : ConcurrentHoudini Bool where
  program := silentProgram
  options := defaultHoudiniOptions
  vcgen := fun _ => silent.vcgen
  crossDependencies := fun _ => []
  stage := fun _ => 0
  completedStages := fun _ => none
  initialAssignment := fun _ _ => true

theorem silent_verified :
    silent.program.verified = [relayImpl, siteImpl, callingImpl] := by
  decide

theorem silent_buildWorkList :
    silent.buildWorkList.queue = [relayImpl, siteImpl, callingImpl] := by
  decide

theorem twoSilent_implementations :
    twoSilent.program.DistinctImplementations := by
  intro impl impl' himpl himpl'
  have hdistinct : forall impl, impl ∈ [relayImpl, siteImpl, callingImpl] ->
      forall impl', impl' ∈ [relayImpl, siteImpl, callingImpl] ->
        impl.name = impl'.name -> impl = impl' := by
    decide
  exact hdistinct impl himpl impl' himpl'

theorem silent_constants :
    silent.houdiniConstants = [cy.variable, cz.variable, cw.variable] := by
  decide

theorem twoSilent_candidates : twoSilent.program.DistinctCandidates := by
  have hnames : forall v, v ∈ silent.houdiniConstants ->
      forall v', v' ∈ silent.houdiniConstants -> v.name = v'.name -> v = v' := by
    decide
  intro v v' hv hv'
  exact hnames v hv v' hv'

theorem silent_noStages : silent.NoStages := by
  have hstages : forall c, c ∈ [cy, cz, cw] ->
      c.stageActive = -1 ∧ c.stageComplete = -1 := by
    decide
  exact hstages

def silentStart : HoudiniState :=
  silent.start [relayImpl, siteImpl, callingImpl] (by decide)

theorem silent_initial : silent.Initial (fun _ => true) silentStart := by
  apply start_initial
  intro impl
  rw [silent_verified]
  simp only [List.mem_cons, List.not_mem_nil, or_false]
  constructor
  · intro himpl
    refine ⟨himpl, ?_⟩
    rcases himpl with rfl | rfl | rfl <;> rfl
  · exact fun himpl => himpl.1

/-!
The formulas of the two implementations.
-/

theorem holds_guardedBy {U : Type} [DecidableEq U] {C : Context U} {ρ : Env U}
    {c : Constant} {e : Expr} :
    C.Holds ρ (guardedBy c e) <-> ((ρ c.variable).truth = true -> C.Holds ρ e) := by
  cases h : (ρ c.variable).truth <;>
    simp [Context.Holds, Expr.Holds, guardedBy, Expr.imp, Expr.binary,
      Interp.apply, BinaryOperator.apply, h]

theorem holds_parameter {U : Type} [DecidableEq U] {C : Context U} {ρ : Env U}
    {name : String} :
    C.Holds ρ (parameter name) <-> (ρ (.formal ⟨name, .bool⟩)).truth = true := by
  simp [Context.Holds, Expr.Holds, parameter]

def flags (names : List String) : Env Unit :=
  fun x => .bool (names.contains x.name)

def plainContext : Context Unit where
  interp :=
    { sort := fun _ => ""
      func := fun _ _ => .bool false
      select := fun _ => .bool false
      store := fun _ => .bool false }
  oldState := flags []
  whereExpr := fun _ => none
  call := fun _ _ _ => False
  callFails := fun _ _ => False

structure Values (assignment : Variable -> Option Bool) (y z w : Bool) :
    Prop where
  y : assignment cy.variable = some y
  z : assignment cz.variable = some z
  w : assignment cw.variable = some w

theorem silent_values (assignment : Variable -> Bool) :
    Values (silent.coreAssignment assignment silent.houdiniConstants)
      (assignment cy.variable) (assignment cz.variable) (assignment cw.variable) := by
  have hvalue : forall v, v ∈ silent.houdiniConstants ->
      silent.coreAssignment assignment silent.houdiniConstants v =
        some (assignment v) := by
    intro v hv
    unfold coreAssignment
    cases h : assignment v <;> simp [hv]
  rw [silent_constants] at hvalue ⊢
  exact ⟨hvalue _ (by simp), hvalue _ (by simp), hvalue _ (by simp)⟩

section Formulas

variable {assignment : Variable -> Option Bool} {y z w : Bool}
  {names : List String}

theorem Values.agrees (h : Values assignment y z w)
    (hy : names.contains "cy" = y) (hz : names.contains "cz" = z) (hw : names.contains "cw" = w) :
    silentProgram.Agrees assignment (flags names) := by
  intro c hc b hb
  have hmem : c ∈ [cy.variable, cz.variable, cw.variable] := hc
  simp only [List.mem_cons, List.not_mem_nil, or_false] at hmem
  rcases hmem with rfl | rfl | rfl
  · rw [h.y] at hb
    exact hy.trans (Option.some.inj hb)
  · rw [h.z] at hb
    exact hz.trans (Option.some.inj hb)
  · rw [h.w] at hb
    exact hw.trans (Option.some.inj hb)

theorem sitePassive_verified (h : Values assignment true true w) :
    silentProgram.Verified sitePassive.passive assignment := by
  intro U _ C ρ _ hagrees hwrong
  have hy : (ρ cy.variable).truth = true :=
    hagrees cy.variable List.mem_cons_self true h.y
  have hz : (ρ cz.variable).truth = true :=
    hagrees cz.variable (List.mem_cons_of_mem _ List.mem_cons_self) true h.z
  have hfail : CmdsFail C sitePassiveBlock.cmds ρ := (wrong_single rfl).mp hwrong
  simp only [sitePassiveBlock, siteCmds, assertsP, assertsQ, passiveAssert,
    cmdsFail_assume, cmdsFail_assert, not_cmdsFail_nil, holds_guardedBy,
    holds_parameter, hy, hz, forall_const, or_false] at hfail
  rcases hfail with ⟨hp, hnot | ⟨hq, hnot⟩⟩
  · exact hnot hp
  · exact hnot hq

theorem sitePassive_not_verified (h : Values assignment true false false) :
    ¬ silentProgram.Verified sitePassive.passive assignment := by
  intro hverified
  apply hverified Unit plainContext (flags ["cy", "p"])
  · intro e he
    cases he
  · exact h.agrees (by decide) (by decide) (by decide)
  · apply (wrong_single (b := sitePassiveBlock) rfl).mpr
    simp [sitePassiveBlock, siteCmds, assertsP, assertsQ, passiveAssert,
      holds_guardedBy, holds_parameter, flags, cy, cz, existential,
      Constant.variable, Variable.name, Variable.ident]

theorem sitePassive_refutes (h : Values assignment false true true) :
    silentProgram.Refutes sitePassive.passive assignment assertsP := by
  refine ⟨Unit, inferInstance, plainContext, flags ["cz", "cw"], ?_, ?_, ?_⟩
  · intro e he
    cases he
  · exact h.agrees (by decide) (by decide) (by decide)
  · have hrun : CmdsRun plainContext
        [.assumeCmd
          { uniqueId := 9, expr := guardedBy cy (parameter "p"),
            attributes := [] }] (flags ["cz", "cw"]) (flags ["cz", "cw"]) := by
      apply cmdsRun_of_assumed (by decide)
      intro a ha
      cases List.mem_singleton.mp ha
      simp [holds_guardedBy, flags, cy, existential, Constant.variable,
        Variable.name, Variable.ident]
    refine Falsifies.cmds (b := sitePassiveBlock) List.mem_cons_self rfl hrun ?_
    simp [assertsP, passiveAssert, holds_guardedBy, holds_parameter, flags, cz,
      existential, Constant.variable, Variable.name, Variable.ident]

theorem relayPassive_verified :
    silentProgram.Verified relayPassive.passive assignment := by
  intro U _ C ρ _ _ hwrong
  have hfail : CmdsFail C relayPassiveBlock.cmds ρ :=
    (wrong_single rfl).mp hwrong
  have htrue : C.Holds ρ .trueExpr := Expr.holds_trueExpr
  simp [relayPassiveBlock, requiresTrue, holds_guardedBy, htrue] at hfail

theorem callingPassive_verified (h : Values assignment y z false) :
    silentProgram.Verified callingPassive.passive assignment := by
  intro U _ C ρ _ hagrees hwrong
  have hw : (ρ cw.variable).truth = false :=
    hagrees cw.variable (by simp [silentProgram]) false h.w
  have hfail : CmdsFail C callingPassiveBlock.cmds ρ :=
    (wrong_single rfl).mp hwrong
  have htrue : C.Holds ρ .trueExpr := Expr.holds_trueExpr
  simp [callingPassiveBlock, requiresTrue, assertsNothing, passiveAssert,
    holds_guardedBy, hw, htrue] at hfail

theorem callingPassive_refutes (h : Values assignment true true true) :
    silentProgram.Refutes callingPassive.passive assignment assertsNothing := by
  refine ⟨Unit, inferInstance, plainContext, flags ["cy", "cz", "cw"], ?_, ?_,
    ?_⟩
  · intro e he
    cases he
  · exact h.agrees (by decide) (by decide) (by decide)
  · have hrun : CmdsRun plainContext [.assertCmd (requiresTrue 10)]
        (flags ["cy", "cz", "cw"]) (flags ["cy", "cz", "cw"]) :=
      cmdsRun_of_assumed (by decide) (by simp)
    refine Falsifies.cmds (b := callingPassiveBlock) List.mem_cons_self rfl hrun
      ?_
    have hfalse : ¬ plainContext.Holds (flags ["cy", "cz", "cw"])
        .falseExpr := Expr.not_holds_falseExpr
    simp [assertsNothing, passiveAssert, holds_guardedBy, hfalse, flags, cw,
      existential, Constant.variable, Variable.name, Variable.ident]

end Formulas

/-!
The run: the second instance gives up `R` and refutes `cz` in `A`; the first
has verified `A` and imports `cz` while it works on `B`.
-/

def pair (shared : SharedAnnotations) (first second : Instance) :
    State Bool where
  refutedSharedAnnotations := shared
  instances := fun id => if id = true then first else second

section Pair

variable {shared shared' : SharedAnnotations} {first first' second : Instance}
  {s s' : HoudiniState}

theorem set_first :
    (pair shared first second).set true first' = pair shared first' second := by
  unfold State.set pair
  congr 1
  funext id
  cases id <;> rfl

theorem set_second {second' : Instance} :
    (pair shared first second).set false second' = pair shared first second' := by
  unfold State.set pair
  congr 1
  funext id
  cases id <;> rfl

/-- Some steps of the two instances with a prover that may give up. -/
abbrev Runs (ok : State Bool -> Bool -> Action -> Prop) :
    State Bool -> State Bool -> Prop :=
  twoSilent.Reaches (fun _ => silent.rightAnswers True) ok

variable {ok : State Bool -> Bool -> Action -> Prop}

theorem first_starts (hok : forall σ, ok σ true .start) :
    Runs ok (pair [] .created second) (pair [] (.running silentStart) second) := by
  have hbegin : Step twoSilent (fun _ => silent.rightAnswers True)
      (pair [] .created second) true .start
      ((pair [] .created second).set true
        (.starting [] (fun _ => true))) :=
    Step.begin rfl
  have henter : Step twoSilent (fun _ => silent.rightAnswers True)
      (pair [] (.starting [] (fun _ => true)) second) true .start
      ((pair [] (.starting [] (fun _ => true)) second).set true
        (.running silentStart)) :=
    Step.enter rfl silent_initial
  rw [set_first] at hbegin henter
  exact (Relation.ReflTransGen.refl.tail ⟨true, _, hok _, hbegin⟩).tail
    ⟨true, _, hok _, henter⟩

theorem second_starts (hok : forall σ, ok σ false .start) :
    Runs ok (pair [] first .created) (pair [] first (.running silentStart)) := by
  have hbegin : Step twoSilent (fun _ => silent.rightAnswers True)
      (pair [] first .created) false .start
      ((pair [] first .created).set false (.starting [] (fun _ => true))) :=
    Step.begin rfl
  have henter : Step twoSilent (fun _ => silent.rightAnswers True)
      (pair [] first (.starting [] (fun _ => true))) false .start
      ((pair [] first (.starting [] (fun _ => true))).set false
        (.running silentStart)) :=
    Step.enter rfl silent_initial
  rw [set_second] at hbegin henter
  exact (Relation.ReflTransGen.refl.tail ⟨false, _, hok _, hbegin⟩).tail
    ⟨false, _, hok _, henter⟩

theorem first_infers {event : Event}
    (hok : ok (pair shared (.running s) second) true (.inference event)) (hquiet : ¬ Exchanges s)
    (hshared : publish silentProgram s shared = shared')
    (hstep : Houdini.Step silent (silent.rightAnswers True) s event s') :
    Runs ok (pair shared (.running s) second) (pair shared' (.running s') second) := by
  have hinfer : Step twoSilent (fun _ => silent.rightAnswers True)
      (pair shared (.running s) second) true (.inference event)
      ((pair shared' (.running s) second).set true (.running s')) := by
    subst hshared
    exact Step.inference rfl hquiet hstep
  rw [set_first] at hinfer
  exact Relation.ReflTransGen.refl.tail ⟨true, _, hok, hinfer⟩

theorem second_infers {event : Event}
    (hok : ok (pair shared first (.running s)) false (.inference event)) (hquiet : ¬ Exchanges s)
    (hshared : publish silentProgram s shared = shared')
    (hstep : Houdini.Step silent (silent.rightAnswers True) s event s') :
    Runs ok (pair shared first (.running s)) (pair shared' first (.running s')) := by
  have hinfer : Step twoSilent (fun _ => silent.rightAnswers True)
      (pair shared first (.running s)) false (.inference event)
      ((pair shared' first (.running s)).set false (.running s')) := by
    subst hshared
    exact Step.inference rfl hquiet hstep
  rw [set_second] at hinfer
  exact Relation.ReflTransGen.refl.tail ⟨false, _, hok, hinfer⟩

theorem not_exchanges (h : forall impl dequeue,
    s.control ≠ .refuting impl [] dequeue) : ¬ Exchanges s := by
  intro ⟨impl, dequeue, hcontrol⟩
  exact h impl dequeue hcontrol

end Pair

theorem silent_siteSession : exists session, silent.houdiniSession siteImpl = some session ∧
      session.passified = sitePassive :=
  houdiniSession_of_vcgen (by decide) rfl

theorem silent_relaySession : exists session, silent.houdiniSession relayImpl = some session ∧
      session.passified = relayPassive :=
  houdiniSession_of_vcgen (by decide) rfl

theorem silent_callingSession : exists session, silent.houdiniSession callingImpl = some session ∧
      session.passified = callingPassive :=
  houdiniSession_of_vcgen (by decide) rfl

def zRefuted : RefutedAnnotation where
  constant := cz.variable
  kind := .assert
  calleeProc := none
  refutationSite := siteImpl

def wRefuted : RefutedAnnotation where
  constant := cw.variable
  kind := .assert
  calleeProc := none
  refutationSite := callingImpl

def zTable : SharedAnnotations :=
  [("cz", zRefuted)]

def bothTable : SharedAnnotations :=
  [("cz", zRefuted), ("cw", wRefuted)]

theorem relayPassive_assertConstants :
    relayPassive.houdiniAssertConstants = [cy.variable] := by
  decide

theorem second_publishes {first : Instance} : exists t, Runs (fun _ _ _ => True)
      (pair [] first (.running silentStart))
      (pair zTable first (.running t)) := by
  rcases silent_siteSession with ⟨site, hsite, hsitePassive⟩
  rcases silent_relaySession with ⟨relay, hrelay, hrelayPassive⟩
  let error := assertCmdToCounterexample assertsP
  let t₀ := silentStart
  let t₁ := t₀.goto (.verifyCurrent relayImpl)
  let t₂ := (giveUp [cy.variable] relayImpl
    (updateHoudiniOutcome silentProgram relayImpl ⟨.timeOut, []⟩
      t₁)).dequeue.goto .outerLoop
  let t₃ := t₂.goto (.verifyCurrent siteImpl)
  let t₄ := (updateHoudiniOutcome silentProgram siteImpl ⟨.invalid, [error]⟩
    t₃).goto (.refuting siteImpl [error] true)
  let t₅ := t₄.goto (.updatingAssignment siteImpl zRefuted [])
  have hstep₁ : Houdini.Step silent (silent.rightAnswers True) t₀ .internal t₁ :=
    Step.peek rfl rfl
  have hgiveUp : useAnswer silent relay ⟨.timeOut, []⟩ t₁ = t₂ := by
    simp only [t₂]
    rw [← relayPassive_assertConstants, ← hrelayPassive]
    rfl
  have hstep₂ : Houdini.Step silent (silent.rightAnswers True) t₁
      (.answered relayImpl ⟨.timeOut, []⟩) t₂ := by
    rw [← hgiveUp]
    exact Step.verify rfl hrelay (silent_noStages.getAssignment t₁.assignment)
      trivial
  have hstep₃ : Houdini.Step silent (silent.rightAnswers True) t₂ .internal t₃ :=
    Step.peek rfl rfl
  have hinvalid : useAnswer silent site ⟨.invalid, [error]⟩ t₃ = t₄ := rfl
  have hstep₄ : Houdini.Step silent (silent.rightAnswers True) t₃
      (.answered siteImpl ⟨.invalid, [error]⟩) t₄ := by
    rw [← hinvalid]
    apply Step.verify rfl hsite (silent_noStages.getAssignment t₃.assignment)
    refine ⟨by simp, ?_⟩
    intro e he
    rw [List.mem_singleton.mp he, hsitePassive]
    refine ⟨assertsP, by decide, rfl, sitePassive_refutes ?_⟩
    exact silent_values t₃.assignment
  have hrefute : refuteNext silent siteImpl error [] true t₄ = t₅ := rfl
  have hstep₅ : Houdini.Step silent (silent.rightAnswers True) t₄ .internal
      t₅ := by
    rw [← hrefute]
    exact Step.refute rfl
  have hrun₁ := @second_infers [] [] first _ _ (fun _ _ _ => True) _ trivial
    (not_exchanges (by simp [t₀, silentStart, start])) rfl hstep₁
  have hrun₂ := @second_infers [] [] first _ _ (fun _ _ _ => True) _ trivial
    (not_exchanges (by simp [t₁, HoudiniState.goto])) rfl hstep₂
  have hrun₃ := @second_infers [] [] first _ _ (fun _ _ _ => True) _ trivial
    (not_exchanges (by simp [t₂, HoudiniState.goto])) rfl hstep₃
  have hrun₄ := @second_infers [] [] first _ _ (fun _ _ _ => True) _ trivial
    (not_exchanges (by simp [t₃, HoudiniState.goto])) rfl hstep₄
  have hrun₅ := @second_infers [] zTable first _ _ (fun _ _ _ => True) _ trivial
    (not_exchanges (by simp [t₄, HoudiniState.goto])) rfl hstep₅
  exact ⟨t₅, (((hrun₁.trans hrun₂).trans hrun₃).trans hrun₄).trans hrun₅⟩

def verified (impl : Implementation) (s : HoudiniState) : HoudiniState :=
  (updateHoudiniOutcome silentProgram impl ⟨.valid, []⟩
    (s.goto (.verifyCurrent impl))).dequeue.goto .outerLoop

/-- The first instance has verified `R` and `A` and goes on with `B`. -/
def siteDone : HoudiniState :=
  verified siteImpl (verified relayImpl silentStart)

theorem first_verifies {shared : SharedAnnotations} {second : Instance}
    {ok : State Bool -> Bool -> Action -> Prop} {s : HoudiniState} {impl : Implementation}
    {impls : List Implementation} {P : PassifiedImpl silentProgram impl}
    (hinternal : forall σ, ok σ true (.inference .internal))
    (hvalid : forall σ, ok σ true (.inference (.answered impl ⟨.valid, []⟩)))
    (hcontrol : s.control = .outerLoop) (hqueue : s.workQueue.queue = impl :: impls)
    (hsession : exists session, silent.houdiniSession impl = some session ∧
      session.passified = P)
    (hverified : silentProgram.Verified P.passive
      (silent.coreAssignment s.assignment silent.houdiniConstants)) :
    Runs ok (pair shared (.running s) second)
      (pair shared (.running (verified impl s)) second) := by
  rcases hsession with ⟨session, hsession, hpassified⟩
  let s₁ := s.goto (.verifyCurrent impl)
  have hstep₁ : Houdini.Step silent (silent.rightAnswers True) s .internal s₁ :=
    Step.peek hcontrol hqueue
  have hanswer : useAnswer silent session ⟨.valid, []⟩ s₁ = verified impl s := rfl
  have hstep₂ : Houdini.Step silent (silent.rightAnswers True) s₁
      (.answered impl ⟨.valid, []⟩) (verified impl s) := by
    rw [← hanswer]
    apply Step.verify rfl hsession (silent_noStages.getAssignment s₁.assignment)
    show silent.program.Valid _
    rw [session.vc_valid_iff, hpassified]
    exact hverified
  have hrun₁ := @first_infers shared shared second _ _ ok _ (hinternal _)
    (not_exchanges (by simp [hcontrol])) (by simp [publish, hcontrol]) hstep₁
  have hrun₂ := @first_infers shared shared second _ _ ok _ (hvalid _)
    (not_exchanges (by simp [s₁, HoudiniState.goto])) rfl hstep₂
  exact hrun₁.trans hrun₂

theorem first_siteDone {shared : SharedAnnotations} {second : Instance}
    {ok : State Bool -> Bool -> Action -> Prop}
    (hinternal : forall σ, ok σ true (.inference .internal))
    (hvalid : forall σ impl, ok σ true (.inference (.answered impl ⟨.valid, []⟩))) :
    Runs ok (pair shared (.running silentStart) second)
      (pair shared (.running siteDone) second) := by
  have hrelay := @first_verifies shared second ok silentStart _ _ _ hinternal
    (fun σ => hvalid σ _) rfl rfl silent_relaySession relayPassive_verified
  have hsite := @first_verifies shared second ok (verified relayImpl silentStart) _ _ _
    hinternal (fun σ => hvalid σ _) rfl rfl silent_siteSession
    (sitePassive_verified (silent_values _))
  exact hrelay.trans hsite

def imported : HoudiniState :=
  let error := assertCmdToCounterexample assertsNothing
  ((((updateHoudiniOutcome silentProgram callingImpl ⟨.invalid, [error]⟩
    (siteDone.goto (.verifyCurrent callingImpl))).falsify
      cw.variable).falsify cz.variable).goto (.verifyCurrent callingImpl))

theorem first_imports {second : Instance} :
    Runs (fun _ _ _ => True) (pair zTable (.running siteDone) second)
      (pair bothTable (.running imported) second) := by
  rcases silent_callingSession with ⟨calling, hcalling, hcallingPassive⟩
  let error := assertCmdToCounterexample assertsNothing
  let s₁ := siteDone.goto (.verifyCurrent callingImpl)
  let s₂ := (updateHoudiniOutcome silentProgram callingImpl
    ⟨.invalid, [error]⟩ s₁).goto (.refuting callingImpl [error] true)
  let s₃ := s₂.goto (.updatingAssignment callingImpl wRefuted [])
  let s₄ := (s₃.falsify cw.variable).goto (.refuting callingImpl [] false)
  have hstep₁ : Houdini.Step silent (silent.rightAnswers True) siteDone
      .internal s₁ :=
    Step.peek rfl rfl
  have hinvalid : useAnswer silent calling ⟨.invalid, [error]⟩ s₁ = s₂ := rfl
  have hstep₂ : Houdini.Step silent (silent.rightAnswers True) s₁
      (.answered callingImpl ⟨.invalid, [error]⟩) s₂ := by
    rw [← hinvalid]
    apply Step.verify rfl hcalling
      (silent_noStages.getAssignment s₁.assignment)
    refine ⟨by simp, ?_⟩
    intro e he
    rw [List.mem_singleton.mp he, hcallingPassive]
    refine ⟨assertsNothing, by decide, rfl, callingPassive_refutes ?_⟩
    exact silent_values s₁.assignment
  have hrefute : refuteNext silent callingImpl error [] true s₂ = s₃ := rfl
  have hstep₃ : Houdini.Step silent (silent.rightAnswers True) s₂ .internal
      s₃ := by
    rw [← hrefute]
    exact Step.refute rfl
  have hstep₄ : Houdini.Step silent (silent.rightAnswers True) s₃ .internal
      s₄ :=
    Step.updateAssignment (r := wRefuted) rfl
  have hexchange : exchangeRefutedAnnotations silent bothTable
      ["cz", "cw"] s₄ 0 = some (s₄.falsify cz.variable, 1) := rfl
  have hagain : leaveOrVerifyAgain callingImpl (false && 1 == 0)
      (s₄.falsify cz.variable) = imported := rfl
  have himport : Step twoSilent (fun _ => silent.rightAnswers True)
      (pair bothTable (.running s₄) second) true .exchange
      ((pair bothTable (.running s₄) second).set true (.running imported)) := by
    rw [← hagain]
    exact Step.exchange rfl rfl (List.Perm.refl _) hexchange
  rw [set_first] at himport
  have hrun₁ := @first_infers zTable zTable second _ _ (fun _ _ _ => True) _
    trivial (not_exchanges (by simp [siteDone, verified, HoudiniState.goto])) rfl hstep₁
  have hrun₂ := @first_infers zTable zTable second _ _ (fun _ _ _ => True) _
    trivial (not_exchanges (by simp [s₁, HoudiniState.goto])) rfl hstep₂
  have hrun₃ := @first_infers zTable bothTable second _ _ (fun _ _ _ => True) _
    trivial (not_exchanges (by simp [s₂, HoudiniState.goto])) rfl hstep₃
  have hrun₄ := @first_infers bothTable bothTable second _ _
    (fun _ _ _ => True) _ trivial
    (not_exchanges (by simp [s₃, HoudiniState.goto])) rfl hstep₄
  exact (((hrun₁.trans hrun₂).trans hrun₃).trans hrun₄).tail
    ⟨true, _, trivial, himport⟩

/-- `B` verifies without `cw`, and the first instance returns. -/
def silentReturned : HoudiniState :=
  ((updateHoudiniOutcome silentProgram callingImpl ⟨.valid, []⟩
    imported).dequeue.goto .outerLoop).goto .returned

theorem first_returns {shared : SharedAnnotations} {second : Instance} :
    Runs (fun _ _ _ => True) (pair shared (.running imported) second)
      (pair shared (.running silentReturned) second) := by
  rcases silent_callingSession with ⟨calling, hcalling, hcallingPassive⟩
  let s₁ := (updateHoudiniOutcome silentProgram callingImpl ⟨.valid, []⟩
    imported).dequeue.goto .outerLoop
  have hanswer : useAnswer silent calling ⟨.valid, []⟩ imported = s₁ := rfl
  have hstep₁ : Houdini.Step silent (silent.rightAnswers True) imported
      (.answered callingImpl ⟨.valid, []⟩) s₁ := by
    rw [← hanswer]
    apply Step.verify rfl hcalling
      (silent_noStages.getAssignment imported.assignment)
    show silent.program.Valid _
    rw [calling.vc_valid_iff, hcallingPassive]
    exact callingPassive_verified (silent_values imported.assignment)
  have hstep₂ : Houdini.Step silent (silent.rightAnswers True) s₁ .internal
      silentReturned :=
    Step.finish rfl rfl
  have hrun₁ := @first_infers shared shared second _ _ (fun _ _ _ => True) _
    trivial (not_exchanges (by simp [imported, HoudiniState.goto])) rfl hstep₁
  have hrun₂ := @first_infers shared shared second _ _ (fun _ _ _ => True) _
    trivial (not_exchanges (by simp [s₁, HoudiniState.goto])) rfl hstep₂
  exact hrun₁.trans hrun₂

theorem pair_initial : Initial (pair [] .created .created) where
  shared := rfl
  created := by
    intro id
    cases id <;> rfl

/--
The first instance reports `A` correct, although without `cz`, which it has
imported, the formula of `A` is not valid.
-/
theorem twoSilent_unsound :
    twoSilent.program.CandidatesGuard ∧ (silent.rightAnswers True).Sound ∧
      twoSilent.program.DistinctImplementations ∧ twoSilent.program.DistinctCandidates ∧
      exists σ₀ σ₁ σ s, Initial σ₀ ∧ twoSilent.Reaches (fun _ => silent.rightAnswers True)
          (fun _ _ _ => True) σ₀ σ₁ ∧
        (forall id, exists s₁, σ₁.instances id = .running s₁ ∧
          s₁.workQueue.queue = (twoSilent.houdini id).buildWorkList.queue) ∧
        twoSilent.Reaches (fun _ => silent.rightAnswers True) (fun _ _ _ => True) σ₁ σ ∧
        σ.instances true = .running s ∧ s.control = .returned ∧ s.RecordedCorrect siteImpl ∧
        ¬ WorklistInvariant (twoSilent.houdini true) s := by
  refine ⟨silentProgram_guard, rightAnswers_sound _ _,
    twoSilent_implementations, twoSilent_candidates, ?_⟩
  rcases @second_publishes (.running silentStart) with ⟨t, hpublishes⟩
  have hfirst := @first_starts .created (fun _ _ _ => True) (fun _ => trivial)
  have hsecond := @second_starts (.running silentStart) (fun _ _ _ => True)
    (fun _ => trivial)
  have hrun := ((hpublishes.trans
    (first_siteDone (fun _ => trivial) (fun _ _ => trivial))).trans
    first_imports).trans first_returns
  have hcorrect : silentReturned.RecordedCorrect siteImpl := ⟨_, rfl, rfl⟩
  have hstarted : forall id, exists s₁,
      (pair [] (.running silentStart) (.running silentStart)).instances id = .running s₁ ∧
        s₁.workQueue.queue = (twoSilent.houdini id).buildWorkList.queue := by
    intro id
    exists silentStart
    constructor
    · cases id <;> rfl
    · exact silent_buildWorkList.symm
  refine ⟨_, _, _, silentReturned, pair_initial, hfirst.trans hsecond, hstarted, hrun, rfl,
    rfl, hcorrect, ?_⟩
  intro hinvariant
  rcases silent_siteSession with ⟨site, hsite, hsitePassive⟩
  have hnot : siteImpl ∉ silentReturned.workQueue.queue := by
    show siteImpl ∉ []
    simp
  have hinvariant' : WorklistInvariant silent silentReturned := hinvariant
  have hvalid := hinvariant' siteImpl site hsite hnot hcorrect _
    (silent_noStages.getAssignment silentReturned.assignment)
  rw [site.vc_valid_iff, hsitePassive] at hvalid
  exact sitePassive_not_verified (silent_values silentReturned.assignment)
    hvalid

/-- While the first instance works on `B`, the invariant speaks about `A`. -/
theorem concurrent_worklist_sound_siteDone :
    siteDone.RecordedCorrect siteImpl ∧ siteImpl ∉ siteDone.workQueue.queue ∧
      (WorklistInvariant (twoSilent.houdini true) siteDone ∧ (siteDone.control = .returned ->
          ReportsSound (twoSilent.houdini true) siteDone)) := by
  refine ⟨⟨_, rfl, rfl⟩, ?_, ?_⟩
  · show siteImpl ∉ [callingImpl]
    decide
  · have hstart := @first_starts .created twoSilent.NothingStale (fun _ => trivial)
    have hdone : Runs twoSilent.NothingStale _
        (pair [] (.running siteDone) .created) :=
      hstart.trans (first_siteDone (fun _ _ _ => trivial)
        (fun _ _ _ _ _ hvalid => absurd rfl hvalid))
    exact concurrent_worklist_sound silentProgram_guard
      (fun _ => rightAnswers_sound _ True) twoSilent_implementations
      twoSilent_candidates (fun hoption => absurd hoption (by decide))
      pair_initial hdone rfl

end Silence

end ConcurrentHoudini

end Boogie
