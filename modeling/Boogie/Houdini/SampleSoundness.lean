import Boogie.Houdini.Interpretations
import Boogie.Houdini.Progress

/-!
# Soundness of samples

The calls of a counterexample form a clause that every adequate interpretation
satisfies: where all assumed calls are true, an asserted one is.  A sample keeps
one assumed and one asserted call of the clause.
-/

namespace Boogie

namespace MLHoudini

/-!
# Calls under an interpretation
-/

def elementNumber (m : Model.Element) : Option Int :=
  (m.value (U := Unit)).map encode

def Interpretation.Accepts (g : Interpretation) (call : CallState) : Prop :=
  exists ns, call.2.mapM elementNumber = some ns ∧ g ⟨ns, call.1⟩ = true

theorem elementNumber_of_value {U : Type} {m : Model.Element} {v : Value U}
    (h : m.value = some v) : elementNumber m = some (encode v) := by
  unfold Model.Element.value at h
  split at h
  · cases h
    rfl
  · cases h
    rfl
  · cases h
    rfl
  · cases h
    rfl
  · cases h

theorem mapM_elementNumber {U : Type} {ms : List Model.Element}
    {vs : List (Value U)} (h : ms.mapM Model.Element.value = some vs) :
    ms.mapM elementNumber = some (vs.map encode) := by
  induction ms generalizing vs with
  | nil =>
    cases h
    rfl
  | cons m ms ih =>
    simp only [List.mapM_cons, Option.pure_def, Option.bind_eq_bind,
      Option.bind_eq_some_iff, Option.some.injEq] at h
    rcases h with ⟨v, hv, rest, hrest, rfl⟩
    simp [List.mapM_cons, elementNumber_of_value hv, ih hrest]

theorem Interpretation.accepts_iff {g : Interpretation} {call : CallState}
    {U : Type} {vs : List (Value U)} (h : call.2.mapM Model.Element.value = some vs) :
    g.Accepts call <-> g ⟨vs.map encode, call.1⟩ = true := by
  rw [Interpretation.Accepts, mapM_elementNumber h]
  simp

theorem Interpretation.accepts_dataPoint {g : Interpretation} {call : CallState}
    {d : DataPoint} (h : call.dataPoint = some d) :
    g.Accepts call <-> g d = true := by
  rcases dataPoint_value (U := Unit) h with ⟨vs, hvs, hvalue⟩
  have hname : d.functionName = call.1 := by
    rcases Option.map_eq_some_iff.mp h with ⟨value, _, rfl⟩
    rfl
  rw [Interpretation.accepts_iff hvs, ← hvalue, ← hname]

/-!
# The clause of a counterexample
-/

theorem Traces.transfer {U : Type} [DecidableEq U] {C C' : Context U}
    {P : PassiveProgram} {ac : AssertCmd} {id : Nat}
    {assumedCmds : List AssumeCmd} {ρ : Env U} (h : Traces C P.blocks ac id assumedCmds ρ)
    (hassume : forall a, a ∈ assumedCmds -> C.Holds ρ a.expr -> C'.Holds ρ a.expr)
    (hassert : ¬ C'.Holds ρ ac.expr) : Wrong C' P.blocks id ρ := by
  have hmem : forall {cs : List Cmd} {a : AssumeCmd}, .assumeCmd a ∈ cs ->
      a ∈ assumesOf cs :=
    fun hcs => List.mem_filterMap.mpr ⟨_, hcs, rfl⟩
  induction h with
  | cmds hb hcmds hrun hfalse =>
    rename_i b before after ρ ρ'
    have hp : forall c, c ∈ before -> c.passive = true := by
      intro c hc
      apply P.passive b hb c
      rw [hcmds]
      exact List.mem_append_left _ hc
    have hrun' := hrun.transfer hp (fun a ha => hassume a (hmem ha))
    apply Wrong.cmds hb
    rw [hcmds]
    exact CmdsFail.of_split hrun' hassert
  | jump hb hrun ht hrest ih =>
    rename_i b target assumedCmds ρ₁ ρ₂
    have hstate := hrun.passive_eq (P.passive b hb)
    subst hstate
    have hrun' := hrun.transfer (P.passive b hb)
      (fun a ha => hassume a (List.mem_append_left _ (hmem ha)))
    exact Wrong.jump hb hrun' ht
      (ih (fun a ha => hassume a (List.mem_append_right _ ha)) hassert)

theorem wrongWithout_of_wrong {U : Type} [DecidableEq U] {C : Context U}
    {P : PassiveProgram} {weak : AssumeCmd -> Bool} {id : Nat} {ρ : Env U}
    (h : Wrong C P.blocks id ρ) : VCGen.WrongWithout weak P C id ρ := by
  induction h with
  | cmds hb hfail =>
    rename_i b ρ
    exact Wrong.cmds (b := VCGen.dropAssumes weak b) (List.mem_map_of_mem hb)
      (VCGen.CmdsFail.filter_kept (P.passive b hb) hfail)
  | jump hb hrun ht hrest ih =>
    rename_i b target ρ₁ ρ₂
    exact Wrong.jump (b := VCGen.dropAssumes weak b) (List.mem_map_of_mem hb)
      (VCGen.CmdsRun.filter_kept (P.passive b hb) hrun) ht ih

theorem Adequate.not_wrong {H : MLHoudini} {g : Interpretation}
    (hg : Adequate H g) {impl : String} (himpl : impl ∈ H.name2Impl)
    {U : Type} [DecidableEq U] {C : Context U} {ρ : Env U}
    (haxioms : H.program.AxiomsHold C.interp ρ)
    (hinterprets : forall tup, tup ∈ (H.genVC impl).functionsUsed ->
      tup.Interprets g C.interp C.oldState ρ) :
    ¬ Wrong C (H.genVC impl).passive.blocks (H.genVC impl).passive.start.uniqueId ρ := by
  intro hwrong
  let η : VCEnv U := VCEnv.withState (fun _ => .bool false) ρ
  exact ((H.genVC impl).vcexpr_iff C η).mp
    (hg impl himpl C η haxioms hinterprets) (wrongWithout_of_wrong hwrong)

namespace Counterexample

variable {H : MLHoudini} {impl : String} {function2Value : String -> C5Domain}

/--
In the assumed conditions and in the asserted one the calls stand outside
quantifiers and not under negations.
-/
structure Positive (error : Counterexample H impl function2Value) : Prop where
  assumed : forall a, a ∈ error.assumedCmds ->
    Polar (H.genVC impl).functionsUsed true a.expr
  asserted : Polar (H.genVC impl).functionsUsed true error.failingAssert.expr

theorem call_holds_reinterpret (error : Counterexample H impl function2Value)
    (g : Interpretation) {tup : FunctionUse} (htup : tup ∈ (H.genVC impl).functionsUsed)
    (hparams : tup.inParams = []) :
    tup.call.Holds (reinterpret (H.genVC impl).functionsUsed g error.context.interp
          error.context.oldState error.state) error.context.oldState error.state <->
      g.Accepts (tup.function, tup.args.map error.model.getValue) := by
  have hstate : rebind error.state tup.inParams [] = error.state := by
    rw [hparams]
    rfl
  rw [Interpretation.accepts_iff (error.mapM_value htup hparams),
    List.map_map, FunctionUse.call, Expr.Holds, Expr.eval_nary, List.map_nil,
    Interp.apply, reinterpret_func (H.genVC impl).distinct htup, hstate]
  exact Iff.rfl

theorem clause (error : Counterexample H impl function2Value)
    (hpositive : error.Positive) (himpl : impl ∈ H.name2Impl)
    {g : Interpretation} (hg : Adequate H g)
    (hassumed : forall call, call ∈ error.cex.lhs -> g.Accepts call) :
    exists call, call ∈ error.cex.rhs ∧ g.Accepts call := by
  by_contra hnone
  let G := H.genVC impl
  let I' := reinterpret G.functionsUsed g error.context.interp
    error.context.oldState error.state
  let C' : Context error.U := { error.context with interp := I' }
  have hagrees : error.context.interp.AgreesOff
      (G.functionsUsed.map FunctionUse.controlVar) I' := reinterpret_agreesOff
  apply hg.not_wrong himpl (C := C') (ρ := error.state)
  · intro e he
    have hsame : e.eval I' error.state error.state =
        e.eval error.context.interp error.state error.state := by
      apply Expr.eval_agreesOff hagrees
      intro name hname hmem
      rcases List.mem_map.mp hmem with ⟨tup, htup, rfl⟩
      exact G.freshAxioms tup htup e he hname
    show e.Holds I' error.state error.state
    rw [Expr.Holds, hsame]
    exact error.axiomsHold e he
  · intro tup htup
    exact reinterpret_interprets G.distinct G.fresh htup
  · apply error.traces.transfer
    · intro a ha
      have hpolar := hpositive.assumed a ha
      apply hpolar.transfer hagrees
      intro tup htup hcall _
      apply (error.call_holds_reinterpret g htup
        (hpolar.collected G.distinct htup hcall).1).mpr
      apply hassumed
      exact List.mem_flatMap.mpr
        ⟨a, ha, hpolar.mem_extractCalls G.distinct htup hcall error.model⟩
    · have hfalse := error.traces.falsifies.not_holds
      have hpolar := hpositive.asserted
      intro hholds
      apply hfalse
      apply hpolar.transfer hagrees.symm _ hholds
      intro tup htup hcall htrue
      exfalso
      apply hnone
      refine ⟨_, hpolar.mem_extractCalls G.distinct htup hcall error.model, ?_⟩
      exact (error.call_holds_reinterpret g htup
        (hpolar.collected G.distinct htup hcall).1).mp htrue

end Counterexample

/-!
# Samples
-/

structure Interpretation.Fits (g : Interpretation) (cex : Cex) : Prop where
  assumed : forall call, call ∈ cex.lhs.dropLast -> g.Accepts call
  asserted : forall call, call ∈ cex.rhs.drop 1 -> ¬ g.Accepts call

theorem Interpretation.Fits.of_length {g : Interpretation} {cex : Cex}
    (hlhs : cex.lhs.length ≤ 1) (hrhs : cex.rhs.length ≤ 1) : g.Fits cex where
  assumed := by
    intro call hcall
    have hempty : cex.lhs.dropLast = [] := by
      apply List.length_eq_zero_iff.mp
      rw [List.length_dropLast]
      omega
    rw [hempty] at hcall
    cases hcall
  asserted := by
    intro call hcall
    rw [List.drop_eq_nil_of_le hrhs] at hcall
    cases hcall

abbrev Interpretation.Satisfies (g : Interpretation) (s : C5Samples) : Prop :=
  MLHoudini.Satisfies (fun d => g d = true) s

theorem lastOnly_head (lhs : List CallState) :
    (lastOnly lhs)[0]? = lhs.getLast? := by
  rw [List.getLast?_eq_getElem?]
  unfold lastOnly
  split
  · rw [List.getElem?_drop]
    rfl
  · rename_i hlength
    have hzero : lhs.length - 1 = 0 := by omega
    rw [hzero]

section Samples

variable {g : Interpretation} {s s' : C5Samples} {cex : Cex} {d e : DataPoint}

theorem addSample_index_cases {classAttr i : Nat}
    (h : (s.addSample d classAttr).samplePointToIndex e = some i) :
    s.samplePointToIndex e = some i ∨ i = s.dataPointsIndex := by
  unfold C5Samples.addSample at h
  split at h
  · exact Or.inl h
  · by_cases he : e = d
    · right
      have hnew : Function.update s.samplePointToIndex d
          (some s.dataPointsIndex) e = some i := h
      rw [he, Function.update_self] at hnew
      exact (Option.some.inj hnew).symm
    · left
      exact (Function.update_of_ne he _ _).symm.trans h

theorem Interpretation.Satisfies.implication_addSample (h : g.Satisfies s)
    {classAttr i j : Nat} {d' e' : DataPoint}
    (hi : (s.addSample d classAttr).samplePointToIndex d' = some i)
    (hj : (s.addSample d classAttr).samplePointToIndex e' = some j)
    (ht : (i, j) ∈ (s.addSample d classAttr).implications)
    (haccepts : g d' = true) : g e' = true := by
  rw [addSample_implications] at ht
  have hrefers := s.refers _ ht
  have hi' := (addSample_index_cases hi).resolve_right
    (Nat.ne_of_lt hrefers.1)
  have hj' := (addSample_index_cases hj).resolve_right
    (Nat.ne_of_lt hrefers.2)
  exact h.implication d' e' i j hi' hj' ht haccepts

theorem Interpretation.Satisfies.addSample (h : g.Satisfies s)
    {classAttr : Nat} (hpositive : classAttr = positive -> g d = true)
    (hnegative : classAttr = negative -> ¬ g d = true) :
    g.Satisfies (s.addSample d classAttr) where
  positive := by
    intro e he
    rw [addSample_class] at he
    by_cases heq : e = d
    · subst heq
      rw [Function.update_self] at he
      exact hpositive (Option.some.inj he)
    · rw [Function.update_of_ne heq] at he
      exact h.positive e he
  negative := by
    intro e he
    rw [addSample_class] at he
    by_cases heq : e = d
    · subst heq
      rw [Function.update_self] at he
      exact hnegative (Option.some.inj he)
    · rw [Function.update_of_ne heq] at he
      exact h.negative e he
  implication := fun _ _ _ _ hi hj ht => h.implication_addSample hi hj ht

theorem Interpretation.Satisfies.addUnknown (h : g.Satisfies s) :
    g.Satisfies (s.addUnknown d) := by
  unfold C5Samples.addUnknown
  cases hd : s.samplePointToIndex d with
  | some i => exact h
  | none =>
    have hsample : (s.addPoint d).setClass d unknown =
        s.addSample d unknown := by
      rw [C5Samples.addSample, hd]
    simp only [hsample]
    exact h.addSample (by simp [unknown, positive])
      (by simp [unknown, negative])

theorem Interpretation.Satisfies.addImplication (h : g.Satisfies s)
    (himp : g d = true -> g e = true) :
    g.Satisfies (s.addImplication d e) := by
  unfold C5Samples.addImplication
  split
  · rename_i i j hi hj
    refine ⟨h.positive, h.negative, ?_⟩
    intro d' e' i' j' hi' hj' ht haccepts
    rcases List.mem_append.mp ht with ht | ht
    · exact h.implication d' e' i' j' hi' hj' ht haccepts
    · cases List.mem_singleton.mp ht
      have hdsame := s.injective d' d i hi' hi
      have hesame := s.injective e' e j hj' hj
      subst hdsame
      subst hesame
      exact himp haccepts
  · exact h

theorem Interpretation.Satisfies.addCounterExample (h : g.Satisfies s)
    (hclause : (forall call, call ∈ cex.lhs -> g.Accepts call) ->
      exists call, call ∈ cex.rhs ∧ g.Accepts call)
    (hfits : g.Fits cex) (hadd : addCounterExample cex s = some s') :
    g.Satisfies s' := by
  have hassumed : forall {call : CallState} {d : DataPoint},
      (lastOnly cex.lhs)[0]? = some call -> call.dataPoint = some d ->
      g d = true -> exists call, call ∈ cex.rhs ∧ g.Accepts call := by
    intro call d hcall hd haccepts
    apply hclause
    rw [lastOnly_head] at hcall
    rcases List.getLast?_eq_some_iff.mp hcall with ⟨before, hbefore⟩
    intro other hother
    rw [hbefore] at hother
    rcases List.mem_append.mp hother with hother | hother
    · apply hfits.assumed
      rw [hbefore, List.dropLast_concat]
      exact hother
    · rw [List.mem_singleton.mp hother]
      exact (Interpretation.accepts_dataPoint hd).mpr haccepts
  have hasserted : forall {call : CallState} {d : DataPoint},
      cex.rhs[0]? = some call -> call.dataPoint = some d ->
      (exists call, call ∈ cex.rhs ∧ g.Accepts call) -> g d = true := by
    intro call d hcall hd htrue
    rcases htrue with ⟨other, hother, haccepts⟩
    cases hrhs : cex.rhs with
    | nil =>
      rw [hrhs] at hother
      cases hother
    | cons first rest =>
      rw [hrhs] at hcall hother
      cases hcall
      rcases List.mem_cons.mp hother with rfl | hrest
      · exact (Interpretation.accepts_dataPoint hd).mp haccepts
      · refine absurd haccepts (hfits.asserted other ?_)
        rw [hrhs]
        exact hrest
  unfold MLHoudini.addCounterExample recordCexForC5 at hadd
  split at hadd
  · rename_i hlhs
    rcases Option.bind_eq_some_iff.mp hadd with ⟨call, hcall, hadd⟩
    rcases Option.bind_eq_some_iff.mp hadd with ⟨d, hd, hadd⟩
    cases hadd
    apply h.addSample
    · intro _
      apply hasserted hcall hd
      apply hclause
      rw [List.length_eq_zero_iff.mp hlhs]
      simp
    · intro hne
      cases hne
  · split at hadd
    · rename_i _ hrhs
      rcases Option.bind_eq_some_iff.mp hadd with ⟨call, hcall, hadd⟩
      rcases Option.bind_eq_some_iff.mp hadd with ⟨d, hd, hadd⟩
      cases hadd
      apply h.addSample
      · intro hne
        cases hne
      · intro _ haccepts
        rcases hassumed hcall hd haccepts with ⟨other, hother, _⟩
        rw [List.length_eq_zero_iff.mp hrhs] at hother
        cases hother
    · rcases Option.bind_eq_some_iff.mp hadd with ⟨call, hcall, hadd⟩
      rcases Option.bind_eq_some_iff.mp hadd with ⟨d, hd, hadd⟩
      rcases Option.bind_eq_some_iff.mp hadd with ⟨call', hcall', hadd⟩
      rcases Option.bind_eq_some_iff.mp hadd with ⟨e, he, hadd⟩
      simp only [if_true] at hadd
      cases hadd
      apply h.addUnknown.addUnknown.addImplication
      intro haccepts
      exact hasserted hcall' he (hassumed hcall hd haccepts)

end Samples

/-!
# Sequences of counterexamples
-/

/-- The samples after any sequence of recordings of such counterexamples. -/
inductive Records (ok : Cex -> Prop) : SampleState -> Prop where
  | empty : Records ok ⟨C5Samples.empty, []⟩
  | handle {s s' : SampleState} {cex : Cex} {kind : ErrorKind} :
      Records ok s -> ok cex -> handleCounterExample cex s = some (kind, s') ->
      Records ok s'
  | add {s : SampleState} {samples : C5Samples} {cex : Cex} :
      Records ok s -> cex ∈ s.implicationCounterExamples ->
      addCounterExample cex s.samples = some samples ->
      Records ok { s with samples := samples }
  | clear {s : SampleState} : Records ok s -> Records ok s.clearImplications

theorem Records.mono {ok ok' : Cex -> Prop} {s : SampleState}
    (h : Records ok s) (hok : forall cex, ok cex -> ok' cex) :
    Records ok' s := by
  induction h with
  | empty => exact Records.empty
  | handle _ hcex hhandle ih => exact Records.handle ih (hok _ hcex) hhandle
  | add _ hwaiting hadd ih => exact Records.add ih hwaiting hadd
  | clear _ ih => exact Records.clear ih

def PositivelyGenuine (H : MLHoudini) (cex : Cex) : Prop :=
  exists impl, impl ∈ H.name2Impl ∧
    exists (function2Value : String -> C5Domain)
      (error : Counterexample H impl function2Value),
      error.Positive ∧ error.cex = cex

theorem PositivelyGenuine.clause {H : MLHoudini} {cex : Cex}
    (h : PositivelyGenuine H cex) {g : Interpretation} (hg : Adequate H g)
    (hassumed : forall call, call ∈ cex.lhs -> g.Accepts call) :
    exists call, call ∈ cex.rhs ∧ g.Accepts call := by
  rcases h with ⟨impl, himpl, function2Value, error, hpositive, rfl⟩
  exact error.clause hpositive himpl hg hassumed

theorem Records.satisfies {g : Interpretation} {ok : Cex -> Prop}
    {s : SampleState} (h : Records ok s) (hok : forall cex, ok cex -> g.Fits cex ∧
      ((forall call, call ∈ cex.lhs -> g.Accepts call) ->
        exists call, call ∈ cex.rhs ∧ g.Accepts call)) :
    g.Satisfies s.samples ∧ forall cex, cex ∈ s.implicationCounterExamples -> ok cex := by
  induction h with
  | empty =>
    constructor
    · constructor
      · intro d hd
        cases hd
      · intro d hd
        cases hd
      · intro d e i j hi
        cases hi
    · intro cex hcex
      cases hcex
  | handle hrecords hcex hhandle ih =>
    rename_i s s' cex kind
    by_cases hreal : cex.IsReal
    · rw [handleCounterExample_real hreal] at hhandle
      cases hhandle
      exact ih
    · by_cases himplication : cex.IsImplication
      · rw [handleCounterExample_implication himplication] at hhandle
        cases hhandle
        refine ⟨ih.1, ?_⟩
        intro other hother
        rcases List.mem_append.mp hother with hother | hother
        · exact ih.2 other hother
        · rw [List.mem_singleton.mp hother]
          exact hcex
      · rw [handleCounterExample_conjecture hreal himplication] at hhandle
        rcases Option.map_eq_some_iff.mp hhandle with ⟨samples, hadd, heq⟩
        cases heq
        exact ⟨ih.1.addCounterExample (hok cex hcex).2 (hok cex hcex).1 hadd,
          ih.2⟩
  | add hrecords hwaiting hadd ih =>
    rename_i s samples cex
    have hcex := ih.2 cex hwaiting
    exact ⟨ih.1.addCounterExample (hok cex hcex).2 (hok cex hcex).1 hadd,
      ih.2⟩
  | clear _ ih =>
    refine ⟨ih.1, ?_⟩
    intro cex hcex
    cases hcex

/--
Every adequate interpretation satisfies the samples of counterexamples with at
most one assumed and one asserted call, and those of any counterexamples whose
dropped calls make no difference under it.
-/
theorem samples_sound (H : MLHoudini) :
    (forall s, Records (fun cex => PositivelyGenuine H cex ∧
        cex.lhs.length ≤ 1 ∧ cex.rhs.length ≤ 1) s ->
      forall g, Adequate H g -> g.Satisfies s.samples) ∧ forall g, Adequate H g -> forall s,
      Records (fun cex => PositivelyGenuine H cex ∧ g.Fits cex) s -> g.Satisfies s.samples := by
  have hfits : forall g, Adequate H g -> forall s,
      Records (fun cex => PositivelyGenuine H cex ∧ g.Fits cex) s ->
      g.Satisfies s.samples := by
    intro g hg s hrecords
    exact (hrecords.satisfies
      (fun cex hcex => ⟨hcex.2, hcex.1.clause hg⟩)).1
  refine ⟨?_, hfits⟩
  intro s hrecords g hg
  apply hfits g hg s
  apply hrecords.mono
  intro cex hcex
  exact ⟨hcex.1, Interpretation.Fits.of_length hcex.2.1 hcex.2.2⟩

/-!
# Samples that are too strong
-/

section TooStrong

/-- Some genuine counterexample leaves a sample that is adequately violated. -/
def Unsound (H : MLHoudini) : Prop :=
  exists (impl : String) (function2Value : String -> C5Domain) (cex : Cex)
    (g : Interpretation) (samples : C5Samples),
    impl ∈ H.name2Impl ∧ Genuine H impl function2Value cex ∧ Adequate H g ∧
      addCounterExample cex C5Samples.empty = some samples ∧
      ¬ g.Satisfies samples

/-- One implementation `assume e1; assert e2` with calls of `f`. -/
def oneCheck (e1 e2 : Expr) (h1 : e1.passive = true) (h2 : e2.passive = true)
    (uses : List FunctionUse)
    (hf : forall tup, tup ∈ uses -> tup.function = "f")
    (hdistinct : (uses.map FunctionUse.controlVar).Nodup)
    (hfresh : forall tup, tup ∈ uses -> forall use, use ∈ uses ->
      forall a, a ∈ use.args -> tup.controlVar ∉ collectFunctions a) :
    MLHoudini where
  options := iceOptions
  program := noDeclarations
  existentialFunctions := ⟨[predicateOfX], predicateOfX_distinct⟩
  name2Impl := ["main"]
  distinct := onlyMain_nodup
  genVC := fun _ => GeneratedVC.create iceOptions noDeclarations
    (assumeAssert e1 e2 h1 h2) uses ["f"] ["f"]
    (by
      intro tup htup
      rw [hf tup htup]
      exact Or.inl List.mem_cons_self)
    hdistinct hfresh
    (noDeclarations_fresh uses)
  impl2Priority := fun _ => 0

section OneCheck

variable {e1 e2 : Expr} {h1 : e1.passive = true} {h2 : e2.passive = true}
  {uses : List FunctionUse}
  {hf : forall tup, tup ∈ uses -> tup.function = "f"}
  {hdistinct : (uses.map FunctionUse.controlVar).Nodup}
  {hfresh : forall tup, tup ∈ uses -> forall use, use ∈ uses ->
    forall a, a ∈ use.args -> tup.controlVar ∉ collectFunctions a}
  {g : Interpretation}

theorem oneCheck_adequate (h : forall {U : Type} [DecidableEq U] (C : Context U) (ρ : Env U),
      (forall tup, tup ∈ uses -> tup.Interprets g C.interp C.oldState ρ) ->
      C.Holds ρ e1 -> C.Holds ρ e2) :
    Adequate (oneCheck e1 e2 h1 h2 uses hf hdistinct hfresh) g := by
  intro impl _ U _ C η _ hinterprets
  apply (GeneratedVC.vcexpr_iff _ C η).mpr
  rw [show ((oneCheck e1 e2 h1 h2 uses hf hdistinct hfresh).genVC impl).weak =
    fun _ => false from rfl, VCGen.wrongWithout_false]
  intro hwrong
  have hfalse := (wrong_assumeAssert h1 h2).mp hwrong
  exact hfalse.2 (h C η.state hinterprets hfalse.1)

def constantModels (b : Bool) : String -> C5Domain :=
  fun _ => ⟨["x"], .literal (.bool b)⟩

theorem constantModels_defined (b : Bool) {tup : FunctionUse} :
    tup.Defined (constantModels b) (boolInterp b) zeroState zeroState := by
  refine ⟨.literal (.bool b), rfl, ?_⟩
  intro ρ _
  rw [Expr.eval_literal]
  rfl

def useAt (controlVar : String) (n : Int) : FunctionUse where
  function := "f"
  controlVar := controlVar
  inParams := []
  exprVars := [(.int, .literal (.int n))]

def literalModel : ErrorModel where
  getValue := fun e =>
    match e with
    | .literal (.int n) => .integer n
    | _ => .integer 0
  boundValues := fun _ => some [.integer 0]

theorem oneCheck_fails (b : Bool) (huses : forall tup, tup ∈ uses -> tup.inParams = [] ->
      exists controlVar n, tup = useAt controlVar n) (hassumed : (boolContext b).Holds zeroState e1)
    (hfalse : ¬ (boolContext b).Holds zeroState e2) :
    exists error : Counterexample (oneCheck e1 e2 h1 h2 uses hf hdistinct hfresh) "main"
        (constantModels b), error.cex = ⟨extractCalls uses literalModel e1 ++ [],
        extractCalls uses literalModel e2⟩ ∧ (forall a, a ∈ error.assumedCmds -> a.expr = e1) ∧
      error.failingAssert.expr = e2 := by
  let assumes : AssumeCmd := { uniqueId := 2, expr := e1, attributes := [] }
  let asserts : AssertCmd :=
    { uniqueId := 3
      expr := e2
      attributes := []
      kind := .assertCmd
      origExpr := none }
  have hrun : CmdsRun (boolContext b) [.assumeCmd assumes] zeroState
      zeroState :=
    CmdsRun.cons (CmdStep.assume assumes zeroState hassumed)
      (CmdsRun.nil zeroState)
  have htraces : Traces (boolContext b) (assumeAssert e1 e2 h1 h2).blocks
      asserts 1 [assumes] zeroState :=
    Traces.cmds (b := assumeAssertBlock e1 e2) (List.mem_singleton.mpr rfl)
      rfl hrun hfalse
  refine ⟨{
      U := Unit
      decidable := inferInstance
      context := boolContext b
      state := zeroState
      failingAssert := asserts
      assumedCmds := [assumes]
      model := literalModel
      traces := htraces
      axiomsHold := ?_
      defined := fun tup _ => constantModels_defined b
      typed := ?_
      values := ?_ }, rfl, ?_, rfl⟩
  · intro e he
    cases he
  · intro tup htup hparams
    rcases huses tup htup hparams with ⟨controlVar, n, rfl⟩
    refine ⟨predicateOfX, List.mem_singleton.mpr rfl, rfl, rfl, ?_⟩
    intro x hx
    rw [List.mem_singleton.mp hx, Expr.eval_literal]
    exact trivial
  · intro tup htup hparams a ha
    rcases huses tup htup hparams with ⟨controlVar, n, rfl⟩
    rw [List.mem_singleton.mp ha, Expr.eval_literal]
    rfl
  · intro a ha
    rw [List.mem_singleton.mp ha]

theorem oneCheck_genuine (b : Bool) (huses : forall tup, tup ∈ uses -> tup.inParams = [] ->
      exists controlVar n, tup = useAt controlVar n) (hassumed : (boolContext b).Holds zeroState e1)
    (hfalse : ¬ (boolContext b).Holds zeroState e2) :
    Genuine (oneCheck e1 e2 h1 h2 uses hf hdistinct hfresh) "main" (constantModels b)
      ⟨extractCalls uses literalModel e1 ++ [], extractCalls uses literalModel e2⟩ := by
  rcases oneCheck_fails b huses hassumed hfalse with ⟨error, hcex, _⟩
  exact ⟨error, hcex⟩

end OneCheck

theorem useAt_interprets {U : Type} [DecidableEq U] {g : Interpretation}
    {I : Interp U} {ρ₀ ρ : Env U} {controlVar : String} {n : Int}
    (h : (useAt controlVar n).Interprets g I ρ₀ ρ) :
    I.func controlVar [] = .bool (g ⟨[n], "f"⟩) := by
  have hself := h ρ ⟨fun _ _ => rfl, by simp [useAt]⟩
  simpa [useAt, FunctionUse.point, FunctionUse.args, Literal.value, encode]
    using hself

theorem holds_call {U : Type} [DecidableEq U] {C : Context U} {ρ : Env U}
    {controlVar : String} {b : Bool} (h : C.interp.func controlVar [] = .bool b) :
    C.Holds ρ (constantCall controlVar) <-> b = true := by
  simp [Context.Holds, Expr.Holds, constantCall, Interp.apply, h]

def onlyOne : Interpretation :=
  fun d => decide (d.value = [1])

/-- `assume f(0) && f(1); assert false` -/
def severalAssumed : MLHoudini :=
  oneCheck (.binary .and (constantCall "c0") (constantCall "c1")) .falseExpr
    rfl rfl [useAt "c0" 0, useAt "c1" 1] (by decide) (by decide) (by decide)

/-- `assert f(0) || f(1)` -/
def severalAsserted : MLHoudini :=
  oneCheck .trueExpr (.binary .or (constantCall "c0") (constantCall "c1"))
    rfl rfl [useAt "c0" 0, useAt "c1" 1] (by decide) (by decide) (by decide)

/-- `assume !f(0); assert false` -/
def negatedAssumed : MLHoudini :=
  oneCheck (.unary .not (constantCall "c0")) .falseExpr
    rfl rfl [useAt "c0" 0] (by decide) (by decide) (by decide)

def boundI : Variable :=
  .boundVariable ⟨"i", .int⟩

/-- `assert (exists i: int :: f(i))` -/
def quantifiedAsserted : MLHoudini :=
  oneCheck .trueExpr
    (.quantifier .ex [boundI] (.nary (.functionCall "c0") [.ident boundI]))
    rfl rfl
    [{ function := "f"
       controlVar := "c0"
       inParams := [boundI]
       exprVars := [(.int, .ident boundI)] }]
    (by decide) (by decide) (by decide)

theorem severalAssumed_unsound : Unsound severalAssumed := by
  refine ⟨"main", constantModels true, _, onlyOne, _, List.mem_cons_self,
    oneCheck_genuine true ?_ ?_ ?_, oneCheck_adequate ?_, rfl, ?_⟩
  · intro tup htup _
    rcases List.mem_cons.mp htup with rfl | htup
    · exact ⟨_, _, rfl⟩
    · exact ⟨_, _, List.mem_singleton.mp htup⟩
  · rw [Context.Holds, holds_binary_and]
    exact ⟨(holds_call rfl).mpr rfl, (holds_call rfl).mpr rfl⟩
  · exact Expr.not_holds_falseExpr
  · intro U _ C ρ hinterprets hassumed
    have hzero := useAt_interprets
      (hinterprets (useAt "c0" 0) List.mem_cons_self)
    rw [Context.Holds, holds_binary_and] at hassumed
    have htrue := (holds_call hzero).mp hassumed.1
    cases htrue
  · intro hsatisfies
    exact hsatisfies.negative ⟨[1], "f"⟩ rfl rfl

theorem severalAsserted_unsound : Unsound severalAsserted := by
  refine ⟨"main", constantModels false, _, onlyOne, _, List.mem_cons_self,
    oneCheck_genuine false ?_ Expr.holds_trueExpr ?_, oneCheck_adequate ?_, rfl,
    ?_⟩
  · intro tup htup _
    rcases List.mem_cons.mp htup with rfl | htup
    · exact ⟨_, _, rfl⟩
    · exact ⟨_, _, List.mem_singleton.mp htup⟩
  · rw [Context.Holds, holds_binary_or]
    intro hholds
    rcases hholds with hholds | hholds
    · cases (holds_call rfl).mp hholds
    · cases (holds_call rfl).mp hholds
  · intro U _ C ρ hinterprets _
    have hone := useAt_interprets (hinterprets (useAt "c1" 1)
      (List.mem_cons_of_mem _ List.mem_cons_self))
    rw [Context.Holds, holds_binary_or]
    exact Or.inr ((holds_call hone).mpr rfl)
  · intro hsatisfies
    have htrue := hsatisfies.positive ⟨[0], "f"⟩ rfl
    cases htrue

theorem negatedAssumed_unsound : Unsound negatedAssumed := by
  refine ⟨"main", constantModels false, _, fun _ => true, _, List.mem_cons_self,
    oneCheck_genuine false ?_ ?_ Expr.not_holds_falseExpr, oneCheck_adequate ?_,
    rfl, ?_⟩
  · intro tup htup _
    exact ⟨_, _, List.mem_singleton.mp htup⟩
  · rw [Context.Holds, holds_unary_not]
    intro hholds
    cases (holds_call rfl).mp hholds
  · intro U _ C ρ hinterprets hassumed
    have hzero := useAt_interprets
      (hinterprets (useAt "c0" 0) List.mem_cons_self)
    rw [Context.Holds, holds_unary_not] at hassumed
    exact absurd ((holds_call hzero).mpr rfl) hassumed
  · intro hsatisfies
    exact hsatisfies.negative ⟨[0], "f"⟩ rfl rfl

theorem quantifiedAsserted_unsound : Unsound quantifiedAsserted := by
  refine ⟨"main", constantModels false, _, onlyOne, _, List.mem_cons_self,
    oneCheck_genuine false ?_ Expr.holds_trueExpr ?_, oneCheck_adequate ?_, rfl,
    ?_⟩
  · intro tup htup hparams
    rw [List.mem_singleton.mp htup] at hparams
    cases hparams
  · intro hholds
    rcases (Expr.eval_ex _ _ _ _ _).mp hholds with ⟨ρ', _, hbody⟩
    rw [Expr.Holds, Expr.eval_nary] at hbody
    cases hbody
  · intro U _ C ρ hinterprets _
    apply (Expr.eval_ex _ _ _ _ _).mpr
    let ρ' : Env U := Function.update ρ boundI (.int 1)
    have hrebinds : ρ'.Rebinds C.interp ρ [boundI] := by
      constructor
      · intro x hx
        exact Function.update_of_ne (fun h => hx (List.mem_singleton.mpr h)) _ _
      · intro x hx
        rw [List.mem_singleton.mp hx]
        show C.interp.HasType (Function.update ρ boundI (.int 1) boundI) _
        rw [Function.update_self]
        exact trivial
    refine ⟨ρ', hrebinds, ?_⟩
    have hone := hinterprets _ List.mem_cons_self ρ' hrebinds
    have hvalue : ρ' boundI = .int 1 := Function.update_self _ _ _
    simp only [FunctionUse.point, FunctionUse.args, List.map_cons,
      List.map_nil, Expr.eval_ident, hvalue] at hone
    rw [Expr.Holds, Expr.eval_nary, List.map_cons, List.map_nil,
      Expr.eval_ident, hvalue, Interp.apply, hone]
    rfl
  · intro hsatisfies
    have htrue := hsatisfies.positive ⟨[0], "f"⟩ rfl
    cases htrue

/-- `assume f(0); assert false` -/
def oneAssumed : MLHoudini :=
  oneCheck (constantCall "c0") .falseExpr rfl rfl [useAt "c0" 0] (by decide)
    (by decide) (by decide)

theorem oneAssumed_positivelyGenuine :
    PositivelyGenuine oneAssumed negativeCex := by
  have hassumed : (boolContext true).Holds zeroState (constantCall "c0") :=
    (holds_call rfl).mpr rfl
  have huses : forall tup, tup ∈ [useAt "c0" 0] -> tup.inParams = [] ->
      exists controlVar n, tup = useAt controlVar n :=
    fun tup htup _ => ⟨_, _, List.mem_singleton.mp htup⟩
  have hfails : exists error : Counterexample oneAssumed "main"
        (constantModels true), error.cex = negativeCex ∧
      (forall a, a ∈ error.assumedCmds -> a.expr = constantCall "c0") ∧
      error.failingAssert.expr = .falseExpr :=
    oneCheck_fails true huses hassumed Expr.not_holds_falseExpr
  rcases hfails with ⟨error, hcex, hassumes, hasserts⟩
  refine ⟨"main", List.mem_cons_self, constantModels true, error, ⟨?_, ?_⟩,
    hcex⟩
  · intro a ha
    rw [hassumes a ha]
    exact @Polar.call _ (useAt "c0" 0) List.mem_cons_self rfl
  · rw [hasserts]
    apply Polar.free
    intro tup _ hmem
    cases hmem

theorem oneAssumed_adequate : Adequate oneAssumed onlyOne := by
  apply oneCheck_adequate
  intro U _ C ρ hinterprets hassumed
  have hzero := useAt_interprets
    (hinterprets (useAt "c0" 0) List.mem_cons_self)
  cases (holds_call hzero).mp hassumed

/-- The counterexample of `assume f(0) && f(1); assert false`. -/
def severalCex : Cex :=
  ⟨[("f", [.integer 0]), ("f", [.integer 1])], []⟩

def onePoint : DataPoint :=
  ⟨[1], "f"⟩

def onlyZero : Interpretation :=
  fun d => decide (d.value = [0])

theorem severalAssumed_positivelyGenuine :
    PositivelyGenuine severalAssumed severalCex := by
  have huses : forall tup, tup ∈ [useAt "c0" 0, useAt "c1" 1] -> tup.inParams = [] ->
      exists controlVar n, tup = useAt controlVar n := by
    intro tup htup _
    rcases List.mem_cons.mp htup with rfl | htup
    · exact ⟨_, _, rfl⟩
    · exact ⟨_, _, List.mem_singleton.mp htup⟩
  have hassumed : (boolContext true).Holds zeroState
      (.binary .and (constantCall "c0") (constantCall "c1")) := by
    rw [Context.Holds, holds_binary_and]
    exact ⟨(holds_call rfl).mpr rfl, (holds_call rfl).mpr rfl⟩
  have hfails : exists error : Counterexample severalAssumed "main"
        (constantModels true), error.cex = severalCex ∧
      (forall a, a ∈ error.assumedCmds ->
        a.expr = .binary .and (constantCall "c0") (constantCall "c1")) ∧
      error.failingAssert.expr = .falseExpr :=
    oneCheck_fails true huses hassumed Expr.not_holds_falseExpr
  rcases hfails with ⟨error, hcex, hassumes, hasserts⟩
  refine ⟨"main", List.mem_cons_self, constantModels true, error, ⟨?_, ?_⟩, hcex⟩
  · intro a ha
    rw [hassumes a ha]
    exact Polar.and (@Polar.call _ (useAt "c0" 0) List.mem_cons_self rfl)
      (@Polar.call _ (useAt "c1" 1) (List.mem_cons_of_mem _ List.mem_cons_self) rfl)
  · rw [hasserts]
    apply Polar.free
    intro tup _ hmem
    cases hmem

theorem severalAssumed_adequate : Adequate severalAssumed onlyZero := by
  apply oneCheck_adequate
  intro U _ C ρ hinterprets hassumed
  have hone := useAt_interprets
    (hinterprets (useAt "c1" 1) (List.mem_cons_of_mem _ List.mem_cons_self))
  rw [Context.Holds, holds_binary_and] at hassumed
  cases (holds_call hone).mp hassumed.2

/-- The negative samples of `assume f(0); assert false`, and of
`assume f(0) && f(1); assert false`, which drops the call `f(0)`. -/
theorem samples_sound_oneAssumed :
    (exists s : SampleState, s.samples.samplePointToClassAttr zeroPoint = some negative ∧
      Adequate oneAssumed onlyOne ∧ onlyOne.Satisfies s.samples) ∧
    exists s : SampleState, s.samples.samplePointToClassAttr onePoint = some negative ∧
      s.samples.samplePointToClassAttr zeroPoint = none ∧
      Adequate severalAssumed onlyZero ∧ onlyZero.Satisfies s.samples := by
  constructor
  · have hhandle : handleCounterExample negativeCex ⟨C5Samples.empty, []⟩ =
        some (.conjecture, ⟨afterNegative, []⟩) := rfl
    have hrecords : Records (fun cex => PositivelyGenuine oneAssumed cex ∧
        cex.lhs.length ≤ 1 ∧ cex.rhs.length ≤ 1) ⟨afterNegative, []⟩ :=
      Records.handle Records.empty
        ⟨oneAssumed_positivelyGenuine, by decide, by decide⟩ hhandle
    exact ⟨_, rfl, oneAssumed_adequate,
      (samples_sound oneAssumed).1 _ hrecords onlyOne oneAssumed_adequate⟩
  · have hhandle : handleCounterExample severalCex ⟨C5Samples.empty, []⟩ =
        some (.conjecture, ⟨C5Samples.empty.addSample onePoint negative, []⟩) := rfl
    have hfits : onlyZero.Fits severalCex := by
      constructor
      · intro call hcall
        rw [List.mem_singleton.mp hcall]
        exact ⟨[0], rfl, rfl⟩
      · intro call hcall
        cases hcall
    have hrecords : Records (fun cex => PositivelyGenuine severalAssumed cex ∧
        onlyZero.Fits cex) ⟨C5Samples.empty.addSample onePoint negative, []⟩ :=
      Records.handle Records.empty ⟨severalAssumed_positivelyGenuine, hfits⟩ hhandle
    exact ⟨_, rfl, rfl, severalAssumed_adequate,
      (samples_sound severalAssumed).2 onlyZero severalAssumed_adequate _ hrecords⟩

/--
A sample drops calls when several are assumed or asserted, ignores negations
and stands for one of the values under a quantifier.
-/
theorem samples_unsound :
    Unsound severalAssumed ∧ Unsound severalAsserted ∧
      Unsound negatedAssumed ∧ Unsound quantifiedAsserted :=
  ⟨severalAssumed_unsound, severalAsserted_unsound, negatedAssumed_unsound,
    quantifiedAsserted_unsound⟩

end TooStrong

end MLHoudini

end Boogie
