import Boogie.Houdini.GenVCSound
import Boogie.Houdini.MLHoudini

/-!
# Soundness of the verdict

An implementation off the worklist has been verified under models that have not
changed for its functions since.  A verdict of the last round is one about all
integers only where falsified formulas have counterexamples within its bound.
-/

namespace Boogie

namespace MLHoudini

/-!
# Models that do not change
-/

theorem C5Domain.constructModelOf_unchanged {d d' : C5Domain}
    {node : C5TreeNode} {attr2Expr : String -> Option Expr}
    (h : d.constructModelOf node attr2Expr = some (d', false)) : d' = d := by
  unfold constructModelOf at h
  split at h
  · rename_i finalformula stack hformula
    simp only [Option.some.injEq, Prod.mk.injEq, Bool.not_eq_false',
      ExtendsExpr.equalityComparer, decide_eq_true_eq] at h
    rw [← h.1, h.2]
  · cases h

theorem C5Domain.constructModel_unchanged {d d' : C5Domain}
    {funcName : String} {root : C5TreeNode}
    {attribute2Expr : String -> Option (String -> Option Expr)}
    {functionID : String -> Option Nat}
    (h : d.constructModel funcName root attribute2Expr functionID = some (d', false)) : d' = d := by
  unfold constructModel at h
  rcases Option.bind_eq_some_iff.mp h with ⟨attr2Expr, _, h⟩
  rcases Option.bind_eq_some_iff.mp h with ⟨id, _, h⟩
  split at h
  · rcases Option.bind_eq_some_iff.mp h with ⟨node, _, h⟩
    exact constructModelOf_unchanged h
  · cases h

theorem constructModels_unchanged {fs : ExistentialFunctions}
    {root : C5TreeNode} {functions : List ExistentialFunction}
    {function2Value function2Value' : String -> C5Domain}
    {funcsChanged : List String} (h : constructModels fs root functions function2Value =
      some (function2Value', funcsChanged))
    {f : String} (hf : f ∉ funcsChanged) :
    function2Value' f = function2Value f := by
  induction functions generalizing function2Value funcsChanged with
  | nil =>
    cases h
    rfl
  | cons F functions ih =>
    rw [constructModels] at h
    rcases Option.bind_eq_some_iff.mp h with ⟨⟨d, changed⟩, hd, h⟩
    rcases Option.bind_eq_some_iff.mp h with ⟨⟨models, rest⟩, hrest, h⟩
    cases h
    have hmodel : function2Value' f =
        Function.update function2Value F.name d f := by
      apply ih hrest
      intro hmem
      apply hf
      split
      · exact List.mem_cons_of_mem _ hmem
      · exact hmem
    rw [hmodel]
    by_cases hname : f = F.name
    · subst hname
      rw [Function.update_self]
      cases changed with
      | true => exact absurd List.mem_cons_self hf
      | false => exact C5Domain.constructModel_unchanged hd
    · rw [Function.update_of_ne hname]

theorem learn_unchanged {H : MLHoudini} {tree : Option C5TreeNode}
    {function2Value function2Value' : String -> C5Domain}
    {funcsChanged : List String}
    (h : H.learn tree function2Value = some (function2Value', funcsChanged))
    {f : String} (hf : f ∉ funcsChanged) :
    function2Value' f = function2Value f := by
  cases tree with
  | some root => exact constructModels_unchanged h hf
  | none =>
    cases h
    rfl

/-!
# The invariant
-/

section Run

variable {H : MLHoudini} {prover : Prover} {s s' : LearnState}

def Verified (H : MLHoudini) (function2Value : String -> C5Domain)
    (impl : String) : Prop :=
  exists vc, (H.genVC impl).vc function2Value = some vc ∧ H.program.Valid vc

def Pending (s : LearnState) (impl : String) : Prop :=
  impl ∈ s.worklist ∨ exists i, s.control = .bounds impl i

/-- The loop has ended with another outcome than `Valid`. -/
def Failed (s : LearnState) : Prop :=
  exists outcome errors, s.control = .returned outcome errors ∧
    outcome ≠ .correct

structure LearnInvariant (H : MLHoudini) (s : LearnState) : Prop where
  verified : ¬ Failed s -> forall impl, impl ∈ H.name2Impl ->
    Pending s impl ∨ Verified H s.function2Value impl
  finished : forall outcome errors, s.control = .returned outcome errors ->
    outcome = .correct -> s.worklist = []

theorem LearnInvariant.of_failed (h : Failed s) : LearnInvariant H s where
  verified := fun hnot => absurd h hnot
  finished := by
    rcases h with ⟨outcome, errors, hcontrol, hne⟩
    intro outcome' errors' hcontrol' hcorrect
    rw [hcontrol] at hcontrol'
    cases hcontrol'
    exact absurd hcorrect hne

theorem LearnInvariant.of_running
    (hcontrol : forall outcome errors, s.control ≠ .returned outcome errors)
    (h : forall impl, impl ∈ H.name2Impl -> Pending s impl ∨ Verified H s.function2Value impl) :
    LearnInvariant H s where
  verified := fun _ => h
  finished := fun outcome errors hreturned =>
    absurd hreturned (hcontrol outcome errors)

theorem initial_invariant (H : MLHoudini) : LearnInvariant H H.initial :=
  LearnInvariant.of_running (by
    intro outcome errors hcontrol
    cases hcontrol) (fun _ himpl => Or.inl (Or.inl himpl))

theorem verified_of_not_mem_deps {impl current : String}
    {tree : Option C5TreeNode} {models models' : String -> C5Domain}
    {funcsChanged : List String} (himpl : impl ∈ H.name2Impl)
    (hlearn : H.learn tree models = some (models', funcsChanged))
    (hdeps : impl ∉ H.deps current funcsChanged)
    (h : Verified H models impl) : Verified H models' impl := by
  have hcongr : (H.genVC impl).vc models' = (H.genVC impl).vc models := by
    apply (H.genVC impl).vc_congr
    intro tup htup
    apply learn_unchanged hlearn
    intro hchanged
    apply hdeps
    apply List.mem_cons_of_mem
    apply List.mem_flatMap.mpr
    refine ⟨tup.function, hchanged, List.mem_append.mpr ?_⟩
    rcases (H.genVC impl).found tup htup with hfound | hfound
    · exact Or.inl (by simp [function2implAssumed, himpl, hfound])
    · exact Or.inr (by simp [function2implAsserted, himpl, hfound])
  rcases h with ⟨vc, hvc, hvalid⟩
  exact ⟨vc, hcongr.trans hvc, hvalid⟩

theorem useAnswer_cases {impl : String} {i : Nat}
    {outcome : ProverInterface.Outcome} {cexs : List Cex}
    {tree : Option C5TreeNode} (h : H.useAnswer impl i outcome cexs tree s = some s') :
    Failed s' ∨ (cexs = [] ∧ outcome ≠ .timeOut ∧ outcome ≠ .outOfMemory ∧
        exists samples, s' = nextRound impl i (s.setSamples samples)) ∨
      exists samples models funcsChanged,
        H.learn tree s.function2Value = some (models, funcsChanged) ∧
        s' = ((((s.setSamples samples).setModels models).enqueue
          (H.deps impl funcsChanged)).goto .worklist) := by
  have hfailed : forall {outcome : ProverInterface.Outcome} {errors : List Cex}
      {t : LearnState}, outcome ≠ .valid ->
      Failed (t.returnOutcome outcome errors) := by
    intro outcome errors t hne
    refine ⟨_, _, rfl, ?_⟩
    cases outcome <;> simp_all [proverInterfaceOutcomeToConditionGenerationOutcome]
  unfold useAnswer at h
  rcases Option.bind_eq_some_iff.mp h with ⟨⟨collector, samples⟩, _, h⟩
  dsimp only at h
  split at h
  · rename_i hgaveUp
    cases h
    left
    apply hfailed
    rintro rfl
    rcases hgaveUp with h | h <;> cases h
  · rename_i hgaveUp
    push Not at hgaveUp
    split at h
    · rename_i hnone
      cases h
      exact Or.inr (Or.inl ⟨hnone, hgaveUp.1, hgaveUp.2, samples, rfl⟩)
    · unfold useCounterexamples at h
      split at h
      · cases h
        exact Or.inl (hfailed (by decide))
      · rcases Option.bind_eq_some_iff.mp h with ⟨added, _, h⟩
        rcases Option.bind_eq_some_iff.mp h with
          ⟨⟨models, funcsChanged⟩, hlearn, h⟩
        dsimp only at h
        split at h
        · cases h
          exact Or.inl (hfailed (by decide))
        · cases h
          exact Or.inr (Or.inr ⟨added, models, funcsChanged, hlearn, rfl⟩)

/-!
# The last round
-/

def lastBound : Int :=
  bound bounds4cex.length

theorem bound_of_last {i : Nat} (h : ¬ i < bounds4cex.length) :
    bound i = lastBound := by
  simp [lastBound, bound, List.getD_eq_getElem?_getD, Nat.not_lt.mp h]

/--
A formula that is not valid under the models is false in some model of the
axioms in which all integer arguments of calls are within the last bound.
-/
def SmallCountermodels (H : MLHoudini) (impl : String)
    (function2Value : String -> C5Domain) : Prop :=
  forall vc, (H.genVC impl).vc function2Value = some vc ->
    ¬ H.program.Valid vc ->
      exists (U : Type) (_ : DecidableEq U) (M : VCInterp U) (η : VCEnv U),
        H.program.AxiomsHold M.toInterp η.state ∧ ¬ vc.Holds M η ∧
        forall tup, tup ∈ (H.genVC impl).functionsUsed ->
          tup.Within lastBound M.toInterp η.state η.state

/-- Nothing is missed when the last round finds no counterexample. -/
def Conclusive (H : MLHoudini) (s : LearnState) : LearnEvent -> Prop
  | .internal => True
  | .answered impl i outcome cexs =>
    ¬ i < bounds4cex.length -> cexs = [] ->
      outcome ≠ .invalid ∧ outcome ≠ .undetermined ∧
        H.SmallCountermodels impl s.function2Value

theorem Conclusive.verified {impl : String} {i : Nat} {finalVC : VCExpr}
    {outcome : ProverInterface.Outcome} (hprover : prover.Sound H.program)
    (hvc : (H.genVC impl).finalVC s.function2Value (bound i) = some finalVC)
    (hanswer : prover.answers finalVC outcome [])
    (hgaveUp : outcome ≠ .timeOut ∧ outcome ≠ .outOfMemory) (hlast : ¬ i < bounds4cex.length)
    (h : Conclusive H s (.answered impl i outcome [])) :
    Verified H s.function2Value impl := by
  rcases h hlast rfl with ⟨hinvalid, hundetermined, hsmall⟩
  have hvalid : outcome = .valid := by
    cases outcome <;> simp_all
  subst hvalid
  have hfinal := hprover finalVC [] hanswer
  rw [bound_of_last hlast] at hvc
  rcases (H.genVC impl).finalVC_some hvc with ⟨vc, hvc', hmeaning⟩
  refine ⟨vc, hvc', ?_⟩
  by_contra hnot
  rcases hsmall vc hvc' hnot with ⟨U, _, M, η, haxioms, hfalse, hwithin⟩
  exact hfalse ((hmeaning M η η.state).mp (hfinal U M η haxioms) hwithin)

/-!
# Steps and runs
-/

theorem Step.invariant {event : LearnEvent} (hprover : prover.Sound H.program)
    (hok : Conclusive H s event) (hinv : LearnInvariant H s)
    (hstep : Step H prover s event s') : LearnInvariant H s' := by
  have hrunning : forall {control : LearnControl}, s.control = control ->
      (forall outcome errors, control ≠ .returned outcome errors) ->
      forall impl, impl ∈ H.name2Impl ->
        Pending s impl ∨ Verified H s.function2Value impl := by
    intro control hcontrol hne
    apply hinv.verified
    rintro ⟨outcome, errors, hreturned, _⟩
    exact hne outcome errors (hcontrol.symm.trans hreturned)
  cases hstep with
  | dequeue hcontrol hfirst =>
    rename_i impl
    apply LearnInvariant.of_running
    · intro outcome errors hreturned
      cases hreturned
    · intro other hother
      rcases hrunning hcontrol (by simp) other hother with
        (hmem | ⟨i, hround⟩) | hverified
      · left
        by_cases hne : other = impl
        · exact Or.inr ⟨0, by rw [hne]; rfl⟩
        · exact Or.inl (List.mem_filter.mpr ⟨hmem, by simpa using hne⟩)
      · rw [hcontrol] at hround
        cases hround
      · exact Or.inr hverified
  | finish hcontrol hempty =>
    constructor
    · intro _ other hother
      rcases hrunning hcontrol (by simp) other hother with
        (hmem | ⟨i, hround⟩) | hverified
      · rw [hempty] at hmem
        cases hmem
      · rw [hcontrol] at hround
        cases hround
      · exact Or.inr hverified
    · intro _ _ _ _
      exact hempty
  | query hcontrol hvc hanswer huse =>
    rename_i impl i finalVC outcome cexs tree
    have hothers : forall other, other ∈ H.name2Impl ->
        other ∈ s.worklist ∨ other = impl ∨
          Verified H s.function2Value other := by
      intro other hother
      rcases hrunning hcontrol (by simp) other hother with
        (hmem | ⟨j, hround⟩) | hverified
      · exact Or.inl hmem
      · rw [hcontrol] at hround
        cases hround
        exact Or.inr (Or.inl rfl)
      · exact Or.inr (Or.inr hverified)
    rcases useAnswer_cases huse with hfailed | hround | hlearned
    · exact LearnInvariant.of_failed hfailed
    · rcases hround with ⟨rfl, htimeOut, houtOfMemory, samples, rfl⟩
      unfold nextRound
      split
      · apply LearnInvariant.of_running
        · intro outcome errors hreturned
          cases hreturned
        · intro other hother
          rcases hothers other hother with hmem | rfl | hverified
          · exact Or.inl (Or.inl hmem)
          · exact Or.inl (Or.inr ⟨_, rfl⟩)
          · exact Or.inr hverified
      · rename_i hlast
        apply LearnInvariant.of_running
        · intro outcome errors hreturned
          cases hreturned
        · intro other hother
          rcases hothers other hother with hmem | rfl | hverified
          · exact Or.inl (Or.inl hmem)
          · right
            exact hok.verified hprover hvc hanswer
              ⟨htimeOut, houtOfMemory⟩ hlast
          · exact Or.inr hverified
    · rcases hlearned with ⟨samples, models, funcsChanged, hlearn, rfl⟩
      apply LearnInvariant.of_running
      · intro outcome errors hreturned
        cases hreturned
      · intro other hother
        by_cases hdeps : other ∈ H.deps impl funcsChanged
        · exact Or.inl (Or.inl (List.mem_union_iff.mpr (Or.inl hdeps)))
        · rcases hothers other hother with hmem | rfl | hverified
          · exact Or.inl (Or.inl (List.mem_union_iff.mpr (Or.inr hmem)))
          · exact absurd List.mem_cons_self hdeps
          · exact Or.inr
              (verified_of_not_mem_deps hother hlearn hdeps hverified)

theorem Reaches.invariant (hprover : prover.Sound H.program)
    (h : Reaches H prover H.Conclusive s s') (hinv : LearnInvariant H s) :
    LearnInvariant H s' := by
  induction h with
  | refl => exact hinv
  | tail _ hstep ih =>
    rcases hstep with ⟨event, hok, hstep⟩
    exact hstep.invariant hprover hok ih

/--
When the loop returns `Valid`, the formula of every implementation is valid
under the final models, provided that the last rounds were conclusive.
-/
theorem learnInv_sound (H : MLHoudini) {prover : Prover}
    (hprover : prover.Sound H.program) {s : LearnState} {errors : List Cex}
    (hrun : Reaches H prover H.Conclusive H.initial s)
    (hreturned : s.control = .returned .correct errors) :
    forall impl, impl ∈ H.name2Impl -> exists vc, (H.genVC impl).vc s.function2Value = some vc ∧
        H.program.Valid vc := by
  intro impl himpl
  have hinv := Reaches.invariant hprover hrun (initial_invariant H)
  have hnot : ¬ Failed s := by
    rintro ⟨outcome, errors', hcontrol, hne⟩
    rw [hreturned] at hcontrol
    cases hcontrol
    exact hne rfl
  rcases hinv.verified hnot impl himpl with (hmem | ⟨i, hround⟩) | hverified
  · rw [hinv.finished _ _ hreturned rfl] at hmem
    cases hmem
  · rw [hreturned] at hround
    cases hround
  · exact hverified

end Run

/-!
# A bound that is not enough

The program `assume f(x); assert x <= 1000000` has no counterexample within the
last bound while the model of `f` is true.
-/

section Examples

/-- The prover that says `Valid` for valid formulas and nothing else. -/
def validOnly (p : Program) : Prover where
  answers := fun vc outcome cexs =>
    outcome = .valid ∧ cexs = [] ∧ p.Valid vc

theorem validOnly_sound (p : Program) : (validOnly p).Sound p :=
  fun _ _ h => h.2.2

theorem reaches_valid {H : MLHoudini} {impl : String}
    (ok : LearnState -> LearnEvent -> Prop) (hname : H.name2Impl = [impl])
    (hinternal : forall s, ok s .internal) (hok : forall s, s.function2Value = H.initialModels ->
      forall i, ok s (.answered impl i .valid [])) (hrounds : forall i, exists finalVC,
      (H.genVC impl).finalVC H.initialModels (bound i) = some finalVC ∧ H.program.Valid finalVC) :
    exists s, Reaches H (validOnly H.program) ok H.initial s ∧ s.control = .returned .correct [] ∧
      s.function2Value = H.initialModels := by
  let start : LearnState := (H.initial.dequeue impl).goto (.bounds impl 0)
  have hempty : (H.initial.dequeue impl).worklist = [] := by
    simp [LearnState.dequeue, initial, hname]
  have hround : forall i, Step H (validOnly H.program)
      (start.goto (.bounds impl i)) (.answered impl i .valid [])
      (nextRound impl i (start.goto (.bounds impl i))) := by
    intro i
    rcases hrounds i with ⟨finalVC, hvc, hvalid⟩
    have huse : H.useAnswer impl i .valid [] none
        (start.goto (.bounds impl i)) =
          some (nextRound impl i (start.goto (.bounds impl i))) := rfl
    exact Step.query rfl hvc ⟨rfl, rfl, hvalid⟩ huse
  have hfirst : Step H (validOnly H.program) H.initial .internal start := by
    apply Step.dequeue rfl
    simp [IsFirst, initial, hname]
  have hsteps : Reaches H (validOnly H.program) ok H.initial
      (start.goto .worklist) := by
    have h0 := Relation.ReflTransGen.single
      (r := fun s s' => exists event, ok s event ∧
        Step H (validOnly H.program) s event s')
      ⟨_, hinternal _, hfirst⟩
    have h1 := h0.tail ⟨_, hok _ rfl 0, hround 0⟩
    have h2 := h1.tail ⟨_, hok _ rfl 1, hround 1⟩
    have h3 := h2.tail ⟨_, hok _ rfl 2, hround 2⟩
    exact h3.tail ⟨_, hok _ rfl 3, hround 3⟩
  exact ⟨_, hsteps.tail ⟨_, hinternal _, Step.finish rfl hempty⟩, rfl, rfl⟩

theorem parameterX_types (p : TypedIdent) (hp : p ∈ [⟨"x", .int⟩]) :
    p.type = .bool ∨ p.type = .int := by
  rw [List.mem_singleton.mp hp]
  exact Or.inr rfl

theorem predicateOfX_plain : PlainName "f" := by
  decide

def predicateOfX : ExistentialFunction where
  name := "f"
  inParams := [⟨"x", .int⟩]
  types := parameterX_types
  distinct := by decide
  plain := predicateOfX_plain
  plainParams := by decide

theorem predicateOfX_distinct :
    ([predicateOfX].map ExistentialFunction.name).Nodup := by
  decide

theorem onlyMain_nodup : ["main"].Nodup := by
  decide

def actualX : Expr :=
  .ident (.localVariable ⟨"x", .int⟩)

def callUse (controlVar : String) : FunctionUse where
  function := "f"
  controlVar := controlVar
  inParams := []
  exprVars := [(.int, actualX)]

def constantCall (controlVar : String) : Expr :=
  .nary (.functionCall controlVar) []

theorem constantCall_passive (controlVar : String) :
    (constantCall controlVar).passive = true :=
  rfl

def noDeclarations : Program where
  constants := []
  axioms := []
  procedures := []
  implementations := []

def iceOptions : IceOptions where
  clo := VCGen.defaultOptions
  useLabels := true
  dagIterative := VCGen.defaultOptions_vcVariety
  noInlining := rfl

theorem noDeclarations_fresh (uses : List FunctionUse) (tup : FunctionUse)
    (_ : tup ∈ uses) (e : Expr) (he : e ∈ noDeclarations.axioms) :
    tup.controlVar ∉ collectFunctions e := by
  cases he

/-- One implementation `assume f(x); assert e`. -/
def assumesCall (e : Expr) (he : e.passive = true)
    (functionsUsed : List FunctionUse) (functionsAsserted : List String)
    (huses : forall tup, tup ∈ functionsUsed ->
      exists controlVar, tup = callUse controlVar)
    (hdistinct : (functionsUsed.map FunctionUse.controlVar).Nodup) :
    MLHoudini where
  options := iceOptions
  program := noDeclarations
  existentialFunctions := ⟨[predicateOfX], predicateOfX_distinct⟩
  name2Impl := ["main"]
  distinct := onlyMain_nodup
  genVC := fun _ => GeneratedVC.create iceOptions noDeclarations
    (assumeAssert (constantCall "AbsHoudiniConstant0") e
      (constantCall_passive _) he)
    functionsUsed ["f"] functionsAsserted
    (by
      intro tup htup
      rcases huses tup htup with ⟨controlVar, rfl⟩
      exact Or.inl List.mem_cons_self)
    hdistinct
    (by
      intro tup _ use huse a ha
      rcases huses use huse with ⟨controlVar, rfl⟩
      rw [List.mem_singleton.mp ha]
      simp [actualX, collectFunctions])
    (noDeclarations_fresh functionsUsed)
  impl2Priority := fun _ => 0

section AssumesCall

variable {e : Expr} {he : e.passive = true} {uses : List FunctionUse}
  {functionsAsserted : List String}
  {huses : forall tup, tup ∈ uses -> exists controlVar,
    tup = callUse controlVar}
  {hdistinct : (uses.map FunctionUse.controlVar).Nodup}

theorem callUse_defined {controlVar : String} {U : Type} [DecidableEq U]
    {I : Interp U} {ρ₀ ρ : Env U} :
    (callUse controlVar).Defined
        (assumesCall e he uses functionsAsserted huses hdistinct).initialModels I ρ₀ ρ <->
      I.func controlVar [] = .bool true := by
  constructor
  · rintro ⟨value, hvalue, hdefined⟩
    cases hvalue
    exact (hdefined ρ ⟨fun _ _ => rfl, by simp [callUse]⟩).trans
      (Expr.eval_literal I ρ₀ ρ _)
  · intro htrue
    refine ⟨.trueExpr, rfl, ?_⟩
    intro ρ' _
    rw [FunctionUse.controlVar, callUse] at *
    simpa [Expr.trueExpr, Literal.value] using htrue

theorem assumesCall_safe {U : Type} [DecidableEq U] {C : Context U}
    {ρ : Env U} (h : C.Holds ρ (constantCall "AbsHoudiniConstant0") -> C.Holds ρ e) :
    ¬ VCGen.WrongWithout ((assumesCall e he uses functionsAsserted huses hdistinct).genVC
        "main").weak (assumeAssert (constantCall "AbsHoudiniConstant0") e
      (constantCall_passive _) he) C (assumeAssert (constantCall "AbsHoudiniConstant0") e
        (constantCall_passive _) he).start.uniqueId ρ := by
  rw [show ((assumesCall e he uses functionsAsserted huses hdistinct).genVC
    "main").weak = fun _ => false from rfl, VCGen.wrongWithout_false,
    wrong_assumeAssert]
  exact fun hwrong => hwrong.2 (h hwrong.1)

theorem assumesCall_finalVC (bound : Int) :
    exists finalVC, ((assumesCall e he uses functionsAsserted huses hdistinct).genVC
        "main").finalVC (assumesCall e he uses functionsAsserted huses
          hdistinct).initialModels bound = some finalVC := by
  apply GeneratedVC.finalVC_isSome
  · intro tup htup
    rcases huses tup htup with ⟨controlVar, rfl⟩
    exact ⟨.trueExpr, rfl, rfl⟩
  · intro tup htup a ha
    rcases huses tup htup with ⟨controlVar, rfl⟩
    rw [List.mem_singleton.mp ha]
    rfl

end AssumesCall

/-- `assume f(x); assert f(x)` -/
def assertsCall : MLHoudini :=
  assumesCall (constantCall "AbsHoudiniConstant1") (constantCall_passive _)
    [callUse "AbsHoudiniConstant0", callUse "AbsHoudiniConstant1"] ["f"]
    (by simp) (by decide)

theorem assertsCall_valid {vc : VCExpr}
    (h : (assertsCall.genVC "main").vc assertsCall.initialModels = some vc) :
    noDeclarations.Valid vc := by
  apply (GeneratedVC.vc_valid_iff _ h).mpr
  intro U _ C ρ _ hdefined
  apply assumesCall_safe
  intro _
  have htrue := callUse_defined.mp
    (hdefined (callUse "AbsHoudiniConstant1")
      (List.mem_cons_of_mem _ List.mem_cons_self))
  simp [Context.Holds, Expr.Holds, constantCall, Interp.apply, htrue]

/-- The loop verifies `assume f(x); assert f(x)`. -/
theorem learnInv_sound_assertsCall :
    exists s, Reaches assertsCall (validOnly noDeclarations)
        assertsCall.Conclusive assertsCall.initial s ∧ s.control = .returned .correct [] ∧
      forall impl, impl ∈ assertsCall.name2Impl ->
        exists vc, (assertsCall.genVC impl).vc s.function2Value = some vc ∧
          noDeclarations.Valid vc := by
  have hrounds : forall i, exists finalVC, (assertsCall.genVC "main").finalVC
      assertsCall.initialModels (bound i) = some finalVC ∧
        assertsCall.program.Valid finalVC := by
    intro i
    rcases assumesCall_finalVC (bound i) with ⟨finalVC, hfinal⟩
    refine ⟨finalVC, hfinal, ?_⟩
    rcases GeneratedVC.finalVC_some _ hfinal with ⟨vc, hvc, hmeaning⟩
    intro U _ M η haxioms
    exact (hmeaning M η η.state).mpr
      (fun _ => assertsCall_valid hvc U M η haxioms)
  have hok : forall s : LearnState,
      s.function2Value = assertsCall.initialModels ->
        forall i, assertsCall.Conclusive s (.answered "main" i .valid []) := by
    intro s hmodels i _ _
    refine ⟨by decide, by decide, ?_⟩
    rw [hmodels]
    intro vc hvc hinvalid
    exact absurd (assertsCall_valid hvc) hinvalid
  rcases reaches_valid assertsCall.Conclusive rfl (fun _ => trivial)
    hok hrounds with ⟨s, hrun, hreturned, _⟩
  exact ⟨s, hrun, hreturned,
    learnInv_sound assertsCall (validOnly_sound _) hrun hreturned⟩

/-- `assume f(x); assert x <= 1000000` -/
def assertsBound : MLHoudini :=
  assumesCall (.le actualX (.intLiteral 1000000)) (by decide)
    [callUse "AbsHoudiniConstant0"] [] (by simp) (by decide)

theorem bound_le (i : Nat) : bound i ≤ 1000000 := by
  match i with
  | 0 => decide
  | 1 => decide
  | 2 => decide
  | i + 3 => exact Int.le_refl _

theorem assertsBound_finalVC_valid {i : Nat} {finalVC : VCExpr}
    (h : (assertsBound.genVC "main").finalVC assertsBound.initialModels
      (bound i) = some finalVC) : noDeclarations.Valid finalVC := by
  rcases GeneratedVC.finalVC_some _ h with ⟨vc, hvc, hmeaning⟩
  intro U _ M η _
  apply (hmeaning M η η.state).mpr
  intro hwithin
  apply (GeneratedVC.vc_holds _ η.state hvc).mpr
  intro _
  apply GeneratedVC.vcexpr_holds
  intro C hinterp _
  apply assumesCall_safe
  intro _
  have hx := (hwithin (callUse "AbsHoudiniConstant0") List.mem_cons_self
    (.int, actualX) List.mem_cons_self rfl).1
  rw [Context.Holds, Expr.holds_le, hinterp]
  simp only [actualX, Expr.eval_ident] at hx ⊢
  exact Int.le_trans hx (bound_le i)

theorem assertsBound_not_valid {vc : VCExpr}
    (h : (assertsBound.genVC "main").vc assertsBound.initialModels =
      some vc) : ¬ noDeclarations.Valid vc := by
  intro hvalid
  let C : Context Unit :=
    { interp :=
        { sort := fun _ => ""
          func := fun _ _ => .bool true
          select := fun _ => .bool false
          store := fun _ => .bool false }
      oldState := fun _ => .int 1000001
      whereExpr := fun _ => none
      call := fun _ _ _ => False
      callFails := fun _ _ => False }
  apply (GeneratedVC.vc_valid_iff _ h).mp hvalid C (fun _ => .int 1000001)
  · intro e he
    cases he
  · intro tup htup
    rw [List.mem_singleton.mp htup]
    exact callUse_defined.mpr rfl
  · rw [show (assertsBound.genVC "main").weak = fun _ => false from rfl,
      VCGen.wrongWithout_false]
    apply (wrong_assumeAssert (constantCall_passive _) (by decide)).mpr
    constructor
    · simp [Context.Holds, Expr.Holds, constantCall, Interp.apply, C]
    · rw [Context.Holds, Expr.holds_le]
      simp [actualX]

/--
The loop returns `Valid` although the formula of the implementation is not
valid under the final models, and every answer of the prover was right.
-/
theorem assertsBound_unsound :
    exists (prover : Prover) (s : LearnState), prover.Sound noDeclarations ∧
      Reaches assertsBound prover (fun _ _ => True) assertsBound.initial s ∧
      s.control = .returned .correct [] ∧
      exists vc, (assertsBound.genVC "main").vc s.function2Value = some vc ∧
        ¬ noDeclarations.Valid vc := by
  have hrounds : forall i, exists finalVC, (assertsBound.genVC "main").finalVC
      assertsBound.initialModels (bound i) = some finalVC ∧
        assertsBound.program.Valid finalVC := by
    intro i
    rcases assumesCall_finalVC (bound i) with ⟨finalVC, hfinal⟩
    exact ⟨finalVC, hfinal, assertsBound_finalVC_valid hfinal⟩
  rcases reaches_valid (fun _ _ => True) rfl (fun _ => trivial)
    (fun _ _ _ => trivial) hrounds with ⟨s, hrun, hreturned, hmodels⟩
  refine ⟨validOnly noDeclarations, s, validOnly_sound _, hrun, hreturned, ?_⟩
  rcases hrounds 0 with ⟨finalVC, hfinal, _⟩
  rcases GeneratedVC.finalVC_some _ hfinal with ⟨vc, hvc, _⟩
  rw [hmodels]
  exact ⟨vc, hvc, assertsBound_not_valid hvc⟩

end Examples

end MLHoudini

end Boogie
