import Boogie.Houdini.AcceptedPoints
import Boogie.Houdini.Recording

/-!
# Progress of the ICE loop

Every batch of counterexamples adds a sample that the current models of the
functions do not satisfy.  As long as no sample is relabelled, all models that
were tried before stay excluded.
-/

namespace Boogie

namespace MLHoudini

open MLHoudiniCounterexampleCollector

/-!
# Models that a batch excludes
-/

def Cex.Excludes (fs : ExistentialFunctions)
    (function2Value : String -> C5Domain) (cex : Cex) : Prop :=
  cex.lhs = [] ∨
    exists d, cex.kept = some d ∧ AcceptsPoint fs function2Value d

def Progressive (fs : ExistentialFunctions)
    (function2Value : String -> C5Domain) (cexs : List Cex) : Prop :=
  exists cex, cex ∈ cexs ∧ ¬ cex.IsReal ∧
    (cex.IsImplication -> forall other, other ∈ cexs ->
      other.IsReal ∨ other.IsImplication) ∧
    cex.Excludes fs function2Value

def Differ (fs : ExistentialFunctions) (models models' : String -> C5Domain) :
    Prop :=
  exists d, ¬ (AcceptsPoint fs models d <-> AcceptsPoint fs models' d)

theorem Differ.of_satisfies {fs : ExistentialFunctions}
    {models models' : String -> C5Domain} {s : C5Samples} (h : Satisfies (AcceptsPoint fs models) s)
    (h' : ¬ Satisfies (AcceptsPoint fs models') s) :
    Differ fs models models' := by
  by_contra hsame
  apply h'
  have haccepts : AcceptsPoint fs models' = AcceptsPoint fs models := by
    funext d
    by_contra hne
    exact hsame ⟨d, fun hiff => hne (propext hiff.symm)⟩
  rw [haccepts]
  exact h

section Excluded

variable {H : MLHoudini} {impl : String} {function2Value : String -> C5Domain}
  {cexs : List Cex}

theorem RecordedIn.not_satisfies {cex : Cex} {samples : C5Samples} (h : RecordedIn cex samples)
    (huniform : UniformModels H.existentialFunctions function2Value)
    (hgenuine : SimplyGenuine H impl function2Value cex) (hreal : ¬ cex.IsReal)
    (hexcludes : cex.Excludes H.existentialFunctions function2Value) :
    ¬ Satisfies (AcceptsPoint H.existentialFunctions function2Value) samples := by
  intro hsatisfies
  have hasserted : forall e, cex.asserted = some e ->
      ¬ AcceptsPoint H.existentialFunctions function2Value e := by
    intro e he
    rcases hgenuine.asserted huniform with hrhs | ⟨call, hrhs, hnot⟩
    · rw [Cex.asserted, hrhs] at he
      cases he
    · apply hnot
      rw [Cex.asserted, hrhs] at he
      exact he
  by_cases hlhs : cex.lhs = []
  · have hrhs : cex.rhs ≠ [] := fun hrhs => hreal ⟨hlhs, hrhs⟩
    rcases h.positive hlhs hrhs with ⟨d, hd, hclass⟩
    exact hasserted d hd.2 (hsatisfies.positive d hclass)
  · rcases hexcludes with hnil | ⟨d, hkept, haccepts⟩
    · exact hlhs hnil
    · by_cases hrhs : cex.rhs = []
      · rcases h.negative hlhs hrhs with ⟨e, he, hclass⟩
        have heq := Option.some.inj (hkept.symm.trans he.2.2)
        subst heq
        exact hsatisfies.negative d hclass haccepts
      · rcases h.implication ⟨hlhs, hrhs⟩ with
          ⟨d', e, i, j, hd', he, hi, hj, ht⟩
        have heq := Option.some.inj (hkept.symm.trans hd')
        subst heq
        exact hasserted e he (hsatisfies.implication d e i j hi hj ht haccepts)

theorem Progressive.not_satisfies {s samples added : SampleState}
    {collector : MLHoudiniCounterexampleCollector}
    (h : Progressive H.existentialFunctions function2Value cexs)
    (huniform : UniformModels H.existentialFunctions function2Value)
    (hgenuine : forall cex, cex ∈ cexs -> SimplyGenuine H impl function2Value cex)
    (hcompatible : Compatible s.samples cexs) (hindexed : Indexed s.samples)
    (hcollect : collect cexs s = some (collector, samples))
    (hadd : addImplications collector samples = some added) :
    ¬ Satisfies (AcceptsPoint H.existentialFunctions function2Value) added.samples := by
  rcases h with ⟨cex, hcex, hreal, honly, hexcludes⟩
  rcases collect_addImplications hcompatible hindexed hcollect hadd with
    ⟨_, _, hrecorded⟩
  exact (hrecorded cex hcex honly).not_satisfies huniform (hgenuine cex hcex)
    hreal hexcludes

end Excluded

/-!
# Runs
-/

def Running (s : LearnState) : Prop :=
  forall outcome errors, s.control ≠ .returned outcome errors

/--
The counterexamples are genuine, and the learner finds models that satisfy the
samples.
-/
def Guided (H : MLHoudini) (s : LearnState) (event : LearnEvent)
    (s' : LearnState) : Prop :=
  match event with
  | .internal => True
  | .answered impl _ _ cexs =>
    (forall cex, cex ∈ cexs ->
      SimplyGenuine H impl s.function2Value cex) ∧
    (Running s' ->
      Satisfies (AcceptsPoint H.existentialFunctions s'.function2Value)
        s'.samples.samples)

/--
No sample of the batch relabels a point, and one of them is a sample that the
models do not satisfy.
-/
structure Refuting (H : MLHoudini) (s : LearnState) (cexs : List Cex) :
    Prop where
  compatible : Compatible s.samples.samples cexs
  progressive : (exists cex, cex ∈ cexs ∧ cex.IsReal) ∨
    Progressive H.existentialFunctions s.function2Value cexs

def AnswersRefute (H : MLHoudini) (s : LearnState) : LearnEvent -> Prop
  | .internal => True
  | .answered _ _ _ cexs => cexs = [] ∨ Refuting H s cexs

inductive Tries (H : MLHoudini) (prover : Prover)
    (ok : LearnState -> LearnEvent -> LearnState -> Prop) :
    List (String -> C5Domain) -> LearnState -> Prop where
  | initial : Tries H prover ok [H.initialModels] H.initial
  | keep {history : List (String -> C5Domain)} {s s' : LearnState}
      {event : LearnEvent} :
      Tries H prover ok history s -> Step H prover s event s' ->
      ok s event s' -> s'.function2Value = s.function2Value ->
      Tries H prover ok history s'
  | change {history : List (String -> C5Domain)} {s s' : LearnState}
      {event : LearnEvent} :
      Tries H prover ok history s -> Step H prover s event s' ->
      ok s event s' -> s'.function2Value ≠ s.function2Value ->
      Tries H prover ok (s'.function2Value :: history) s'

section Run

variable {H : MLHoudini} {prover : Prover} {s s' : LearnState}

theorem useAnswer_samples {impl : String} {i : Nat}
    {outcome : ProverInterface.Outcome} {cexs : List Cex}
    {tree : Option C5TreeNode} (h : H.useAnswer impl i outcome cexs tree s = some s') :
    exists collector samples, collect cexs s.samples = some (collector, samples) ∧
      ((s'.function2Value = s.function2Value ∧ s'.samples = samples ∧ (cexs = [] ∨ ¬ Running s')) ∨
        (cexs ≠ [] ∧ collector.realErrors = [] ∧ exists funcsChanged,
          addImplications collector samples = some s'.samples ∧ H.learn tree s.function2Value =
            some (s'.function2Value, funcsChanged) ∧ (Running s' <-> funcsChanged ≠ []))) := by
  have hreturned : forall {t : LearnState} {outcome : ProverInterface.Outcome}
      {errors : List Cex}, ¬ Running (t.returnOutcome outcome errors) :=
    fun hrunning => hrunning _ _ rfl
  unfold useAnswer at h
  rcases Option.bind_eq_some_iff.mp h with
    ⟨⟨collector, samples⟩, hcollect, h⟩
  refine ⟨collector, samples, hcollect, ?_⟩
  dsimp only at h
  by_cases hgaveUp : outcome = .timeOut ∨ outcome = .outOfMemory
  · rw [if_pos hgaveUp] at h
    cases h
    exact Or.inl ⟨rfl, rfl, Or.inr hreturned⟩
  · rw [if_neg hgaveUp] at h
    by_cases hnone : cexs = []
    · rw [if_pos hnone] at h
      cases h
      left
      unfold nextRound
      split
      · exact ⟨rfl, rfl, Or.inl hnone⟩
      · exact ⟨rfl, rfl, Or.inl hnone⟩
    · rw [if_neg hnone] at h
      unfold useCounterexamples at h
      by_cases hreal : collector.realErrors ≠ []
      · rw [if_pos hreal] at h
        cases h
        exact Or.inl ⟨rfl, rfl, Or.inr hreturned⟩
      · rw [if_neg hreal] at h
        push Not at hreal
        rcases Option.bind_eq_some_iff.mp h with ⟨added, hadded, h⟩
        rcases Option.bind_eq_some_iff.mp h with
          ⟨⟨models, funcsChanged⟩, hlearn, h⟩
        right
        refine ⟨hnone, hreal, funcsChanged, ?_⟩
        by_cases hchanged : funcsChanged = []
        · simp only [if_pos hchanged] at h
          cases h
          exact ⟨hadded, hlearn, fun hrunning => absurd hrunning hreturned,
            fun hne => absurd hchanged hne⟩
        · simp only [if_neg hchanged] at h
          cases h
          refine ⟨hadded, hlearn, fun _ => hchanged, ?_⟩
          intro _ outcome errors hcontrol
          cases hcontrol

structure ProgressInvariant (H : MLHoudini)
    (history : List (String -> C5Domain)) (s : LearnState) : Prop where
  uniform : UniformModels H.existentialFunctions s.function2Value
  indexed : Indexed s.samples.samples
  satisfied : Running s ->
    Satisfies (AcceptsPoint H.existentialFunctions s.function2Value)
      s.samples.samples
  last : exists older, history = s.function2Value :: older ∧
    forall models, models ∈ older ->
      ¬ Satisfies (AcceptsPoint H.existentialFunctions models)
        s.samples.samples
  distinct : history.Pairwise (Differ H.existentialFunctions)

theorem initial_progressInvariant (H : MLHoudini) :
    ProgressInvariant H [H.initialModels] H.initial where
  uniform := initialModels_uniform H
  indexed := by
    intro d c hc
    cases hc
  satisfied := fun _ =>
    { positive := by
        intro d hd
        cases hd
      negative := by
        intro d hd
        cases hd
      implication := by
        intro d e i j hd
        cases hd }
  last := ⟨[], rfl, by simp⟩
  distinct := by simp

theorem realErrors_of_isReal {cexs : List Cex}
    {collector : MLHoudiniCounterexampleCollector} {samples t : SampleState}
    {cex : Cex} (hcompatible : Compatible t.samples cexs)
    (hindexed : Indexed t.samples) (hcex : cex ∈ cexs) (hreal : cex.IsReal)
    (hcollect : collect cexs t = some (collector, samples)) :
    collector.realErrors ≠ [] := by
  have hcollected := foldlM_onCounterexample (s := t.clearImplications)
    hcompatible hindexed hcollect
  rw [hcollected.realErrors]
  apply List.ne_nil_of_mem (a := cex)
  exact List.mem_append_right _
    (List.mem_filter.mpr ⟨hcex, by simpa using hreal⟩)

structure Advances (H : MLHoudini) (s s' : LearnState) : Prop where
  uniform : UniformModels H.existentialFunctions s'.function2Value
  indexed : Indexed s'.samples.samples
  growth : Extends s.samples.samples s'.samples.samples
  satisfied : Running s' ->
    Satisfies (AcceptsPoint H.existentialFunctions s'.function2Value)
      s'.samples.samples
  excludes : s'.function2Value ≠ s.function2Value ->
    Running s' ∧ ¬ Satisfies
      (AcceptsPoint H.existentialFunctions s.function2Value)
        s'.samples.samples

theorem Step.advances {event : LearnEvent}
    {history : List (String -> C5Domain)} (hinvariant : ProgressInvariant H history s)
    (hstep : Step H prover s event s') (hguided : Guided H s event s')
    (hrefutes : AnswersRefute H s event) : Advances H s s' := by
  cases hstep with
  | dequeue hcontrol hfirst =>
    have hrunning : Running s := by
      intro outcome errors hreturned
      rw [hcontrol] at hreturned
      cases hreturned
    exact ⟨hinvariant.uniform, hinvariant.indexed, Extends.refl _,
      fun _ => hinvariant.satisfied hrunning, fun hne => absurd rfl hne⟩
  | finish hcontrol hempty =>
    exact ⟨hinvariant.uniform, hinvariant.indexed, Extends.refl _,
      fun hrunning => absurd rfl (hrunning _ _),
      fun hne => absurd rfl hne⟩
  | query hcontrol hvc hanswer huse =>
    rename_i impl i finalVC outcome cexs tree
    rcases useAnswer_samples huse with ⟨collector, samples, hcollect, hcase⟩
    rcases hcase with ⟨hmodels, hsamples, hempty⟩ |
      ⟨hnonempty, hnoReal, funcsChanged, hadded, hlearn, hrunning⟩
    · have hbatch : Extends s.samples.samples samples.samples ∧
          Indexed samples.samples := by
        rcases hrefutes with rfl | hrefutes
        · cases hcollect
          exact ⟨Extends.refl _, hinvariant.indexed⟩
        · have hcollected :=
            foldlM_onCounterexample (s := s.samples.clearImplications)
              hrefutes.compatible hinvariant.indexed hcollect
          exact ⟨hcollected.growth, hcollected.indexed⟩
      constructor
      · rw [hmodels]
        exact hinvariant.uniform
      · rw [hsamples]
        exact hbatch.2
      · rw [hsamples]
        exact hbatch.1
      · exact hguided.2
      · exact fun hne => absurd hmodels hne
    · have hrefutes := hrefutes.resolve_left hnonempty
      rcases collect_addImplications hrefutes.compatible hinvariant.indexed
        hcollect hadded with ⟨hgrowth, hindexed, _⟩
      constructor
      · exact hinvariant.uniform.learn hlearn
      · exact hindexed
      · exact hgrowth
      · exact hguided.2
      · intro hne
        constructor
        · apply hrunning.mpr
          intro hunchanged
          apply hne
          funext f
          apply learn_unchanged hlearn
          rw [hunchanged]
          exact List.not_mem_nil
        · rcases hrefutes.progressive with ⟨cex, hcex, hreal⟩ | hprogressive
          · exact absurd hnoReal (realErrors_of_isReal hrefutes.compatible
              hinvariant.indexed hcex hreal hcollect)
          · exact hprogressive.not_satisfies hinvariant.uniform hguided.1
              hrefutes.compatible hinvariant.indexed hcollect hadded

theorem Advances.keep {history : List (String -> C5Domain)}
    (hinvariant : ProgressInvariant H history s) (h : Advances H s s')
    (hmodels : s'.function2Value = s.function2Value) :
    ProgressInvariant H history s' where
  uniform := h.uniform
  indexed := h.indexed
  satisfied := h.satisfied
  last := by
    rcases hinvariant.last with ⟨older, hhistory, hexcluded⟩
    rw [hmodels]
    refine ⟨older, hhistory, ?_⟩
    intro models hmem hsatisfies
    exact hexcluded models hmem (hsatisfies.of_extends h.growth)
  distinct := hinvariant.distinct

theorem Advances.change {history : List (String -> C5Domain)}
    (hinvariant : ProgressInvariant H history s) (h : Advances H s s')
    (hmodels : s'.function2Value ≠ s.function2Value) :
    ProgressInvariant H (s'.function2Value :: history) s' := by
  rcases h.excludes hmodels with ⟨hrunning, hexcludes⟩
  rcases hinvariant.last with ⟨older, hhistory, hexcluded⟩
  have hall : forall models, models ∈ history ->
      ¬ Satisfies (AcceptsPoint H.existentialFunctions models)
        s'.samples.samples := by
    intro models hmem
    rw [hhistory] at hmem
    rcases List.mem_cons.mp hmem with rfl | hmem
    · exact hexcludes
    · intro hsatisfies
      exact hexcluded models hmem (hsatisfies.of_extends h.growth)
  constructor
  · exact h.uniform
  · exact h.indexed
  · exact h.satisfied
  · exact ⟨history, rfl, hall⟩
  · apply List.Pairwise.cons _ hinvariant.distinct
    intro models hmem
    exact Differ.of_satisfies (h.satisfied hrunning) (hall models hmem)

theorem Tries.invariant {history : List (String -> C5Domain)}
    (hrun : Tries H prover (fun s event s' =>
      Guided H s event s' ∧ AnswersRefute H s event) history s) :
    ProgressInvariant H history s := by
  induction hrun with
  | initial => exact initial_progressInvariant H
  | keep _ hstep hok hmodels ih =>
    exact (hstep.advances ih hok.1 hok.2).keep ih hmodels
  | change _ hstep hok hmodels ih =>
    exact (hstep.advances ih hok.1 hok.2).change ih hmodels

end Run

/--
While every batch of counterexamples refutes the models, no models are tried
twice.  Another batch that does leaves samples that the current models do not
satisfy, so that a consistent learner has to change one of them.
-/
theorem learnInv_progress (H : MLHoudini) {prover : Prover}
    {history : List (String -> C5Domain)} {s : LearnState} (hrun : Tries H prover (fun s event s' =>
      Guided H s event s' ∧ AnswersRefute H s event) history s) :
    history.Pairwise (Differ H.existentialFunctions) ∧ forall impl cexs collector samples added,
      (forall cex, cex ∈ cexs -> SimplyGenuine H impl s.function2Value cex) -> Refuting H s cexs ->
      collect cexs s.samples = some (collector, samples) -> collector.realErrors = [] ->
      addImplications collector samples = some added ->
      ¬ Satisfies (AcceptsPoint H.existentialFunctions s.function2Value) added.samples ∧
        forall tree models funcsChanged,
          H.learn tree s.function2Value = some (models, funcsChanged) ->
          Satisfies (AcceptsPoint H.existentialFunctions models) added.samples ->
          funcsChanged ≠ [] ∧ forall older, older ∈ history ->
            Differ H.existentialFunctions models older := by
  have hinvariant := hrun.invariant
  refine ⟨hinvariant.distinct, ?_⟩
  intro impl cexs collector samples added hgenuine hrefuting hcollect hnoReal
    hadded
  have hprogressive : Progressive H.existentialFunctions s.function2Value
      cexs := by
    rcases hrefuting.progressive with ⟨cex, hcex, hreal⟩ | hprogressive
    · exact absurd hnoReal (realErrors_of_isReal hrefuting.compatible
        hinvariant.indexed hcex hreal hcollect)
    · exact hprogressive
  have hexcludes := hprogressive.not_satisfies hinvariant.uniform hgenuine
    hrefuting.compatible hinvariant.indexed hcollect hadded
  rcases collect_addImplications hrefuting.compatible hinvariant.indexed
    hcollect hadded with ⟨hgrowth, _, _⟩
  refine ⟨hexcludes, ?_⟩
  intro tree models funcsChanged hlearn hsatisfies
  constructor
  · intro hunchanged
    apply hexcludes
    have hsame : models = s.function2Value := by
      funext f
      apply learn_unchanged hlearn
      rw [hunchanged]
      exact List.not_mem_nil
    rw [← hsame]
    exact hsatisfies
  · intro older holder
    apply Differ.of_satisfies hsatisfies
    rcases hinvariant.last with ⟨rest, hhistory, hexcluded⟩
    rw [hhistory] at holder
    rcases List.mem_cons.mp holder with rfl | holder
    · exact hexcludes
    · intro hold
      exact hexcluded older holder (hold.of_extends hgrowth)

/-!
# A point with two classes
-/

section Relabelling

def assertsF : AssertCmd where
  uniqueId := 2
  expr := constantCall "AbsHoudiniConstant0"
  attributes := []
  kind := .assertCmd
  origExpr := none

def assumesF : AssumeCmd where
  uniqueId := 3
  expr := constantCall "AbsHoudiniConstant1"
  attributes := []

def assertsFalse : AssertCmd where
  uniqueId := 4
  expr := .falseExpr
  attributes := []
  kind := .assertCmd
  origExpr := none

/-- `assert f(x); assume f(x); assert false` -/
def assertAssumeBlock : Block where
  uniqueId := 1
  label := "start"
  cmds := [.assertCmd assertsF, .assumeCmd assumesF, .assertCmd assertsFalse]
  transferCmd := .returnCmd

def assertAssume : PassiveProgram :=
  PassiveProgram.single assertAssumeBlock (by decide) rfl (by decide)
    (by decide)

theorem callUses_nodup : ([callUse "AbsHoudiniConstant0",
    callUse "AbsHoudiniConstant1"].map FunctionUse.controlVar).Nodup := by
  decide

def relabels : MLHoudini where
  options := iceOptions
  program := noDeclarations
  existentialFunctions := ⟨[predicateOfX], predicateOfX_distinct⟩
  name2Impl := ["main"]
  distinct := onlyMain_nodup
  genVC := fun _ => GeneratedVC.create iceOptions noDeclarations assertAssume
    [callUse "AbsHoudiniConstant0", callUse "AbsHoudiniConstant1"] ["f"] ["f"]
    (by
      intro tup htup
      simp only [List.mem_cons, List.not_mem_nil, or_false] at htup
      rcases htup with rfl | rfl
      · exact Or.inl List.mem_cons_self
      · exact Or.inl List.mem_cons_self)
    callUses_nodup
    (by decide)
    (noDeclarations_fresh _)
  impl2Priority := fun _ => 0

def boolModels (b : Bool) : String -> C5Domain :=
  Function.update relabels.initialModels "f" ⟨["x"], .literal (.bool b)⟩

theorem boolModels_true : boolModels true = relabels.initialModels :=
  Function.update_eq_self _ _

theorem update_boolModels (b b' : Bool) :
    Function.update (boolModels b) "f" ⟨["x"], .literal (.bool b')⟩ = boolModels b' :=
  Function.update_idem _ _ _

def boolInterp (b : Bool) : Interp Unit where
  sort := fun _ => ""
  func := fun _ _ => .bool b
  select := fun _ => .bool false
  store := fun _ => .bool false

def boolContext (b : Bool) : Context Unit where
  interp := boolInterp b
  oldState := fun _ => .int 0
  whereExpr := fun _ => none
  call := fun _ _ _ => False
  callFails := fun _ _ => False

def zeroState : Env Unit :=
  fun _ => .int 0

def zeroModel : ErrorModel where
  getValue := fun _ => .integer 0
  boundValues := fun _ => none

theorem mem_relabels_functionsUsed {tup : FunctionUse}
    (h : tup ∈ (relabels.genVC "main").functionsUsed) :
    exists controlVar, tup = callUse controlVar := by
  rcases List.mem_cons.mp h with rfl | h
  · exact ⟨_, rfl⟩
  · exact ⟨_, List.mem_singleton.mp h⟩

theorem boolModels_defined (b : Bool) (controlVar : String) :
    (callUse controlVar).Defined (boolModels b) (boolInterp b) zeroState zeroState := by
  refine ⟨.literal (.bool b), rfl, ?_⟩
  intro ρ _
  rw [Expr.eval_literal]
  rfl

/-- A failing execution of `relabels` from the state that is zero. -/
def zeroCounterexample (b : Bool) (ac : AssertCmd)
    (assumedCmds : List AssumeCmd)
    (traces : Traces (boolContext b) assertAssume.blocks ac 1 assumedCmds
      zeroState) :
    Counterexample relabels "main" (boolModels b) where
  U := Unit
  decidable := inferInstance
  context := boolContext b
  state := zeroState
  failingAssert := ac
  assumedCmds := assumedCmds
  model := zeroModel
  traces := traces
  axiomsHold := by
    intro e he
    cases he
  defined := by
    intro tup htup
    rcases mem_relabels_functionsUsed htup with ⟨controlVar, rfl⟩
    exact boolModels_defined b controlVar
  typed := by
    intro tup htup _
    rcases mem_relabels_functionsUsed htup with ⟨controlVar, rfl⟩
    refine ⟨predicateOfX, List.mem_singleton.mpr rfl, rfl, rfl, ?_⟩
    intro x hx
    rw [List.mem_singleton.mp hx]
    exact trivial
  values := by
    intro tup htup _ a ha
    rcases mem_relabels_functionsUsed htup with ⟨controlVar, rfl⟩
    rw [List.mem_singleton.mp ha]
    rfl

def zeroPoint : DataPoint :=
  ⟨[0], "f"⟩

def negativeCex : Cex :=
  ⟨[("f", [.integer 0])], []⟩

def positiveCex : Cex :=
  ⟨[], [("f", [.integer 0])]⟩

theorem holds_constantCall (b : Bool) (controlVar : String) :
    (boolContext b).Holds zeroState (constantCall controlVar) <-> b = true := by
  simp [Context.Holds, Expr.Holds, constantCall, Interp.apply, boolContext,
    boolInterp]

theorem negativeCex_genuine :
    SimplyGenuine relabels "main" (boolModels true) negativeCex := by
  have htraces : Traces (boolContext true) assertAssume.blocks assertsFalse 1
      [assumesF] zeroState := by
    have hrun : CmdsRun (boolContext true)
        [.assertCmd assertsF, .assumeCmd assumesF] zeroState zeroState := by
      have hassumed := (holds_constantCall true "AbsHoudiniConstant1").mpr rfl
      exact CmdsRun.cons (CmdStep.assert assertsF zeroState)
        (CmdsRun.cons (CmdStep.assume assumesF zeroState hassumed)
          (CmdsRun.nil zeroState))
    have hfalse : ¬ (boolContext true).Holds zeroState assertsFalse.expr := by
      simp [Context.Holds, assertsFalse]
    exact Traces.cmds (b := assertAssumeBlock) (List.mem_singleton.mpr rfl)
      rfl hrun hfalse
  refine ⟨zeroCounterexample true _ _ htraces, Or.inr ?_, rfl⟩
  intro tup _ hcall
  cases hcall

theorem positiveCex_genuine :
    SimplyGenuine relabels "main" (boolModels false) positiveCex := by
  have htraces : Traces (boolContext false) assertAssume.blocks assertsF 1
      [] zeroState := by
    have hfalse : ¬ (boolContext false).Holds zeroState assertsF.expr := by
      intro hholds
      have htrue := (holds_constantCall false _).mp hholds
      cases htrue
    exact Traces.cmds (b := assertAssumeBlock) (List.mem_singleton.mpr rfl)
      rfl (CmdsRun.nil zeroState) hfalse
  refine ⟨zeroCounterexample false _ _ htraces, Or.inl ?_, rfl⟩
  exact ⟨callUse "AbsHoudiniConstant0", List.mem_cons_self, rfl, rfl⟩

def leafTree (classification : String) : C5TreeNode :=
  .node "$func" 0 [.leaf classification]

def roundState (b : Bool) (samples : C5Samples) : LearnState where
  control := .bounds "main" 0
  worklist := []
  function2Value := boolModels b
  samples := ⟨samples, []⟩

def worklistState (b : Bool) (samples : C5Samples) : LearnState where
  control := .worklist
  worklist := ["main"]
  function2Value := boolModels b
  samples := ⟨samples, []⟩

def afterNegative : C5Samples :=
  C5Samples.empty.addSample zeroPoint negative

def afterPositive : C5Samples :=
  afterNegative.addSample zeroPoint positive

theorem relabels_dequeue (prover : Prover) (b : Bool) (samples : C5Samples) :
    Step relabels prover (worklistState b samples) .internal (roundState b samples) := by
  apply Step.dequeue rfl
  constructor
  · exact List.mem_cons_self
  · intro other _
    exact Nat.le_refl _

theorem relabels_finalVC (b : Bool) (bound : Int) :
    exists finalVC, (relabels.genVC "main").finalVC (boolModels b) bound = some finalVC := by
  apply GeneratedVC.finalVC_isSome
  · intro tup htup
    rcases mem_relabels_functionsUsed htup with ⟨controlVar, rfl⟩
    exact ⟨.literal (.bool b), rfl, rfl⟩
  · intro tup htup a ha
    rcases mem_relabels_functionsUsed htup with ⟨controlVar, rfl⟩
    rw [List.mem_singleton.mp ha]
    rfl

def anyAnswer : Prover where
  answers := fun _ _ _ => True

theorem relabels_negative :
    Step relabels anyAnswer (roundState true C5Samples.empty)
      (.answered "main" 0 .invalid [negativeCex]) (worklistState false afterNegative) := by
  rcases relabels_finalVC true (bound 0) with ⟨finalVC, hvc⟩
  have huse : relabels.useAnswer "main" 0 .invalid [negativeCex]
      (some (leafTree "False")) (roundState true C5Samples.empty) =
        some (worklistState false afterNegative) := by
    rw [worklistState, ← update_boolModels true false]
    rfl
  exact Step.query rfl hvc trivial huse

theorem relabels_positive :
    Step relabels anyAnswer (roundState false afterNegative)
      (.answered "main" 0 .invalid [positiveCex]) (worklistState true afterPositive) := by
  rcases relabels_finalVC false (bound 0) with ⟨finalVC, hvc⟩
  have huse : relabels.useAnswer "main" 0 .invalid [positiveCex]
      (some (leafTree "True")) (roundState false afterNegative) =
        some (worklistState true afterPositive) := by
    rw [worklistState, ← update_boolModels false true]
    rfl
  exact Step.query rfl hvc trivial huse

theorem not_acceptsPoint_false (d : DataPoint) :
    ¬ AcceptsPoint relabels.existentialFunctions (boolModels false) d := by
  intro ⟨F, hF, _, hmodel⟩
  rw [List.mem_singleton.mp hF] at hmodel
  rcases hmodel with ⟨actuals, σ, _, _, hholds⟩
  have hvalue : (Expr.literal (.bool false)).eval unitInterp σ σ =
      .bool false := Expr.eval_literal _ _ _ _
  rw [Expr.Holds, show (boolModels false predicateOfX.name).model =
    .literal (.bool false) from rfl, hvalue] at hholds
  cases hholds

theorem acceptsPoint_zero :
    AcceptsPoint relabels.existentialFunctions (boolModels true) zeroPoint := by
  refine ⟨predicateOfX, List.mem_singleton.mpr rfl, rfl, ?_⟩
  refine ⟨[(⟨"x", .int⟩, .int 0)], fun _ => .int 0, ⟨rfl, ?_, ?_⟩, rfl, ?_⟩
  · intro x hx
    rw [List.mem_singleton.mp hx]
    exact trivial
  · intro x hx
    rw [List.mem_singleton.mp hx]
  · rw [Expr.Holds, show (boolModels true predicateOfX.name).model =
      .literal (.bool true) from rfl, Expr.eval_literal]
    rfl

theorem afterNegative_class {d : DataPoint} {c : Nat}
    (h : afterNegative.samplePointToClassAttr d = some c) :
    d = zeroPoint ∧ c = negative := by
  rw [afterNegative, addSample_class] at h
  by_cases hd : d = zeroPoint
  · rw [hd, Function.update_self] at h
    exact ⟨hd, (Option.some.inj h).symm⟩
  · rw [Function.update_of_ne hd] at h
    cases h

theorem afterPositive_class {d : DataPoint} {c : Nat}
    (h : afterPositive.samplePointToClassAttr d = some c) :
    d = zeroPoint ∧ c = positive := by
  rw [afterPositive, addSample_class] at h
  by_cases hd : d = zeroPoint
  · rw [hd, Function.update_self] at h
    exact ⟨hd, (Option.some.inj h).symm⟩
  · rw [Function.update_of_ne hd] at h
    exact absurd (afterNegative_class h).1 hd

theorem relabels_negative_guided :
    Guided relabels (roundState true C5Samples.empty) (.answered "main" 0 .invalid [negativeCex])
      (worklistState false afterNegative) := by
  constructor
  · intro cex hcex
    rw [List.mem_singleton.mp hcex]
    exact negativeCex_genuine
  · intro _
    constructor
    · intro d hd
      have hclass := (afterNegative_class hd).2
      cases hclass
    · exact fun d _ => not_acceptsPoint_false d
    · intro d e i j _ _ _ haccepts
      exact absurd haccepts (not_acceptsPoint_false d)

theorem relabels_positive_guided :
    Guided relabels (roundState false afterNegative) (.answered "main" 0 .invalid [positiveCex])
      (worklistState true afterPositive) := by
  constructor
  · intro cex hcex
    rw [List.mem_singleton.mp hcex]
    exact positiveCex_genuine
  · intro _
    constructor
    · intro d hd
      rw [(afterPositive_class hd).1]
      exact acceptsPoint_zero
    · intro d hd
      have hclass := (afterPositive_class hd).2
      cases hclass
    · intro d e i j _ _ ht
      cases ht

theorem relabels_initial :
    relabels.initial = worklistState true C5Samples.empty := by
  rw [worklistState, boolModels_true]
  rfl

theorem boolModels_ne : boolModels false ≠ boolModels true := by
  intro heq
  have hmodel := congrArg C5Domain.model (congrFun heq "f")
  cases hmodel

theorem relabels_excludes :
    negativeCex.Excludes relabels.existentialFunctions (boolModels true) :=
  Or.inr ⟨zeroPoint, rfl, acceptsPoint_zero⟩

theorem relabels_refuting :
    Refuting relabels (roundState true C5Samples.empty) [negativeCex] := by
  have hreal : ¬ negativeCex.IsReal := by decide
  have himplication : ¬ negativeCex.IsImplication := by decide
  constructor
  · constructor
    · intro cex hcex d hpos
      rw [List.mem_singleton.mp hcex] at hpos
      cases hpos.1
    · intro cex _ d _ hclass
      cases hclass
    · intro cex cex' hcex _ d hpos
      rw [List.mem_singleton.mp hcex] at hpos
      cases hpos.1
  · right
    exact ⟨negativeCex, List.mem_singleton.mpr rfl, hreal,
      fun h => absurd h himplication, relabels_excludes⟩

theorem relabels_first_try :
    Tries relabels anyAnswer (fun s event s' =>
      Guided relabels s event s' ∧ AnswersRefute relabels s event)
      [boolModels false, boolModels true] (worklistState false afterNegative) := by
  have hstart : Tries relabels anyAnswer (fun s event s' =>
      Guided relabels s event s' ∧ AnswersRefute relabels s event)
        [relabels.initialModels] relabels.initial := Tries.initial
  rw [relabels_initial, ← boolModels_true] at hstart
  have hdequeue := hstart.keep
    (relabels_dequeue anyAnswer true C5Samples.empty) ⟨trivial, trivial⟩ rfl
  exact hdequeue.change relabels_negative
    ⟨relabels_negative_guided, Or.inr relabels_refuting⟩ boolModels_ne

theorem learnInv_progress_relabels :
    exists history s, Tries relabels anyAnswer (fun s event s' =>
        Guided relabels s event s' ∧ AnswersRefute relabels s event)
        history s ∧ history.length = 2 ∧ history.Pairwise (Differ relabels.existentialFunctions) :=
  ⟨_, _, relabels_first_try, rfl,
    (learnInv_progress relabels relabels_first_try).1⟩

/--
The point of a negative sample becomes that of a positive one, and the learner
is back at the first models.
-/
theorem relabels_tried_twice :
    exists history s, Tries relabels anyAnswer (Guided relabels) history s ∧
      Running s ∧ history = [boolModels true, boolModels false, boolModels true] := by
  have hstart : Tries relabels anyAnswer (Guided relabels)
      [relabels.initialModels] relabels.initial := Tries.initial
  rw [relabels_initial, ← boolModels_true] at hstart
  have hdequeue := hstart.keep
    (relabels_dequeue anyAnswer true C5Samples.empty) trivial rfl
  have hnegative := hdequeue.change relabels_negative relabels_negative_guided
    boolModels_ne
  have hdequeue' := hnegative.keep
    (relabels_dequeue anyAnswer false afterNegative) trivial rfl
  have hpositive := hdequeue'.change relabels_positive relabels_positive_guided
    boolModels_ne.symm
  refine ⟨_, _, hpositive, ?_, rfl⟩
  intro outcome errors hcontrol
  cases hcontrol

end Relabelling

end MLHoudini

end Boogie
