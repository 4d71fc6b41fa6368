import Boogie.Houdini.C5DomainSound
import Boogie.Houdini.ExtractState
import Boogie.Houdini.MLHoudiniSound

/-!
# Data points that a model accepts

A model of an existential function says for every data point whether the
function holds there.  A call in a counterexample is true exactly when the
model accepts the data point that is extracted for it.
-/

namespace Boogie

namespace MLHoudini

/-!
# Points that a model accepts
-/

def unitInterp : Interp Unit where
  sort := fun _ => ""
  func := fun _ _ => .bool false
  select := fun _ => .bool false
  store := fun _ => .bool false

def C5Domain.Accepts (F : ExistentialFunction) (d : C5Domain)
    (point : List Int) : Prop :=
  exists (actuals : List (TypedIdent × Value Unit)) (σ : Env Unit),
    Assigned unitInterp F actuals σ ∧
      point = actuals.map (fun x => encode x.2) ∧
      d.model.Holds unitInterp σ σ

/-- Only the encoded values of the parameters matter to the model. -/
structure C5Domain.Uniform (F : ExistentialFunction) (d : C5Domain) :
    Prop where
  vars : d.vars = F.paramNames
  replaceable : ExtendsExpr.Replaceable F.paramNames d.model
  holds_iff : forall {U : Type} [DecidableEq U] {I : Interp U} {σ₀ σ : Env U}
    {actuals : List (TypedIdent × Value U)}, Assigned I F actuals σ ->
      (d.model.Holds I σ₀ σ <->
        d.Accepts F (actuals.map (fun x => encode x.2)))

section Uniform

variable {U : Type} [DecidableEq U]

def unitValue : Value U -> Value Unit
  | .bool b => .bool b
  | .int n => .int n
  | .other _ => .bool false

def unitLiteral : Value Unit -> Expr
  | .bool b => .literal (.bool b)
  | .int n => .literal (.int n)
  | .other _ => .falseExpr

omit [DecidableEq U] in
theorem hasType_unitValue {I : Interp U} {v : Value U} {type : Ty}
    (htype : type = .bool ∨ type = .int) (h : I.HasType v type) :
    unitInterp.HasType (unitValue v) type ∧ encode (unitValue v) = encode v ∧
      forall ρ₀ ρ : Env Unit, (unitLiteral (unitValue v)).eval unitInterp ρ₀ ρ = unitValue v := by
  rcases htype with rfl | rfl
  · rcases hasType_bool h with ⟨b, rfl⟩
    exact ⟨trivial, rfl, fun _ _ => Expr.eval_literal _ _ _ _⟩
  · rcases hasType_int h with ⟨n, rfl⟩
    exact ⟨trivial, rfl, fun _ _ => Expr.eval_literal _ _ _ _⟩

omit [DecidableEq U] in
theorem Assigned.exists_unit {I : Interp U} {F : ExistentialFunction}
    {actuals : List (TypedIdent × Value U)} {σ : Env U} (h : Assigned I F actuals σ) :
    exists (actuals' : List (TypedIdent × Value Unit)) (σ' : Env Unit),
      Assigned unitInterp F actuals' σ' ∧ actuals'.map (fun x => encode x.2) =
          actuals.map (fun x => encode x.2) := by
  have htypes : forall x, x ∈ actuals -> x.1.type = .bool ∨ x.1.type = .int := by
    intro x hx
    apply F.types
    rw [h.formals]
    exact List.mem_map_of_mem hx
  have hunit := fun x hx => hasType_unitValue (htypes x hx) (h.typed x hx)
  let actuals' := actuals.map (fun x => (x.1, unitValue x.2))
  have hformals : F.inParams = actuals'.map Prod.fst := by
    simp only [actuals', List.map_map, Function.comp_def]
    exact h.formals
  have htyped : forall x, x ∈ actuals' ->
      unitInterp.HasType x.2 x.1.type := by
    intro x hx
    rcases List.mem_map.mp hx with ⟨y, hy, rfl⟩
    exact (hunit y hy).1
  let ρ : Env Unit := fun _ => .bool false
  have hargs : (actuals'.map (fun x => unitLiteral x.2)).map
      (fun a => a.eval unitInterp ρ ρ) = actuals'.map Prod.snd := by
    simp only [actuals', List.map_map, Function.comp_def]
    apply List.map_congr_left
    intro x hx
    exact (hunit x hx).2.2 ρ ρ
  refine ⟨actuals', _, assigned_instantiation hformals htyped hargs, ?_⟩
  simp only [actuals', List.map_map, Function.comp_def]
  apply List.map_congr_left
  intro x hx
  exact (hunit x hx).2.1

end Uniform

theorem C5Domain.uniform_of_holds_iff {F : ExistentialFunction} {d : C5Domain}
    (hvars : d.vars = F.paramNames) (hreplaceable : ExtendsExpr.Replaceable F.paramNames d.model)
    {P : List Int -> Prop} (h : forall {U : Type} [DecidableEq U] {I : Interp U} {σ₀ σ : Env U}
      {actuals : List (TypedIdent × Value U)}, Assigned I F actuals σ ->
        (d.model.Holds I σ₀ σ <-> P (actuals.map (fun x => encode x.2)))) :
    d.Uniform F where
  vars := hvars
  replaceable := hreplaceable
  holds_iff := by
    intro U _ I σ₀ σ actuals hassigned
    rw [h hassigned]
    constructor
    · intro hP
      rcases hassigned.exists_unit with ⟨actuals', σ', hassigned', hencode⟩
      refine ⟨actuals', σ', hassigned', hencode.symm, ?_⟩
      rw [h hassigned', hencode]
      exact hP
    · intro ⟨actuals', σ', hassigned', hencode, hholds⟩
      rw [hencode]
      exact (h hassigned').mp hholds

theorem C5Domain.new_uniform (F : ExistentialFunction) :
    (C5Domain.new F.inParams).Uniform F :=
  C5Domain.uniform_of_holds_iff rfl (ExtendsExpr.Replaceable.literal _)
    (P := fun _ => True) (by
      intro U _ I σ₀ σ actuals _
      simp [C5Domain.new])

theorem wellFormed_of_constructBoogieExpr {F : ExistentialFunction}
    (tree : C5TreeNode) (stack : List Expr)
    {result : List (List Expr) × List Expr}
    (h : tree.constructBoogieExpr F.attr2Expr stack = some result) :
    tree.WellFormed F := by
  fun_induction C5TreeNode.constructBoogieExpr F.attr2Expr tree stack
    generalizing result with
  | case1 => exact C5TreeNode.WellFormed.leaf _
  | case2 => exact C5TreeNode.WellFormed.leaf _
  | case3 attr cut left right stack ihleft ihright =>
    rcases Option.bind_eq_some_iff.mp h with ⟨e, he, h⟩
    rcases Option.bind_eq_some_iff.mp h with ⟨decision, hdecision, h⟩
    rcases Option.bind_eq_some_iff.mp h with ⟨⟨fl, sl⟩, hl, h⟩
    rcases Option.bind_eq_some_iff.mp h with ⟨⟨fr, sr⟩, hr, _⟩
    apply C5TreeNode.WellFormed.node he _ (ihleft decision hl)
      (ihright decision sl hr)
    intro htype
    rw [decisionExpr, htype] at hdecision
    by_contra hcut
    simp only [if_neg hcut] at hdecision
    cases hdecision
  | case4 => cases h

theorem C5Domain.Uniform.constructModel {fs : ExistentialFunctions}
    {F : ExistentialFunction} (hF : F ∈ fs.functions) {d d' : C5Domain}
    {root : C5TreeNode} {changed : Bool} (hd : d.Uniform F)
    (h : d.constructModel F.name root fs.attribute2Expr fs.functionID =
      some (d', changed)) : d'.Uniform F := by
  rcases List.getElem?_of_mem hF with ⟨i, hi⟩
  rw [C5Domain.constructModel] at h
  rcases Option.bind_eq_some_iff.mp h with ⟨attr2Expr, hdictionary, h⟩
  rw [(fs.lookup hi).1] at hdictionary
  cases hdictionary
  rcases Option.bind_eq_some_iff.mp h with ⟨id, _, h⟩
  cases root with
  | leaf classification => cases h
  | node attr cut children =>
    rcases Option.bind_eq_some_iff.mp h with ⟨tree, _, h⟩
    have htree : tree.WellFormed F := by
      have hconstruct := h
      unfold C5Domain.constructModelOf at hconstruct
      split at hconstruct
      · rename_i formulas stack hformulas
        exact wellFormed_of_constructBoogieExpr tree _ hformulas
      · cases hconstruct
    rcases C5Domain.constructModelOf_spec htree d with
      ⟨d'', changed', hd'', hvars, hreplaceable, hmeaning⟩
    rw [hd''] at h
    cases h
    exact C5Domain.uniform_of_holds_iff (hvars.trans hd.vars) hreplaceable
      (P := fun point => tree.Positive (F.attributeVector point)) hmeaning

def UniformModels (fs : ExistentialFunctions)
    (function2Value : String -> C5Domain) : Prop :=
  forall F, F ∈ fs.functions -> (function2Value F.name).Uniform F

theorem UniformModels.constructModels {fs : ExistentialFunctions}
    {root : C5TreeNode} {functions : List ExistentialFunction}
    {function2Value function2Value' : String -> C5Domain}
    {funcsChanged : List String} (hfunctions : forall F, F ∈ functions -> F ∈ fs.functions)
    (huniform : UniformModels fs function2Value)
    (h : MLHoudini.constructModels fs root functions function2Value =
      some (function2Value', funcsChanged)) :
    UniformModels fs function2Value' := by
  induction functions generalizing function2Value funcsChanged with
  | nil =>
    cases h
    exact huniform
  | cons G functions ih =>
    rw [MLHoudini.constructModels] at h
    rcases Option.bind_eq_some_iff.mp h with ⟨⟨d, changed⟩, hd, h⟩
    rcases Option.bind_eq_some_iff.mp h with ⟨⟨models, rest⟩, hrest, h⟩
    cases h
    have hG : G ∈ fs.functions := hfunctions G List.mem_cons_self
    apply ih (fun F hF => hfunctions F (List.mem_cons_of_mem G hF)) _ hrest
    intro F hF
    by_cases hname : F.name = G.name
    · rw [hname, Function.update_self]
      rw [List.inj_on_of_nodup_map fs.distinct hF hG hname]
      exact (huniform G hG).constructModel hG hd
    · rw [Function.update_of_ne hname]
      exact huniform F hF

theorem UniformModels.learn {H : MLHoudini} {tree : Option C5TreeNode}
    {function2Value function2Value' : String -> C5Domain}
    {funcsChanged : List String} (huniform : UniformModels H.existentialFunctions function2Value)
    (h : H.learn tree function2Value = some (function2Value', funcsChanged)) :
    UniformModels H.existentialFunctions function2Value' := by
  cases tree with
  | some root => exact huniform.constructModels (fun _ hF => hF) h
  | none =>
    cases h
    exact huniform

theorem initialModels_uniform (H : MLHoudini) :
    UniformModels H.existentialFunctions H.initialModels := by
  intro F hF
  unfold initialModels
  cases hfind : H.existentialFunctions.functions.find?
      (fun G => G.name = F.name) with
  | none =>
    have hnot := List.find?_eq_none.mp hfind F hF
    simp at hnot
  | some G =>
    have hname := List.find?_some hfind
    rw [decide_eq_true_eq] at hname
    rw [List.inj_on_of_nodup_map H.existentialFunctions.distinct
      (List.mem_of_find?_eq_some hfind) hF hname]
    exact C5Domain.new_uniform F

/-!
# Calls that a counterexample asserts
-/

def AcceptsPoint (fs : ExistentialFunctions)
    (function2Value : String -> C5Domain) (d : DataPoint) : Prop :=
  exists F, F ∈ fs.functions ∧ F.name = d.functionName ∧
    (function2Value F.name).Accepts F d.value

theorem extractCalls_of_none {uses : List FunctionUse} {model : ErrorModel}
    {e : Expr} (h : forall tup, tup ∈ uses -> tup.controlVar ∉ collectFunctions e) :
    extractCalls uses model e = [] := by
  have hnone : forall t, t ∈ functionCollector none e ->
      constant2FuncCall uses t.1 = none := by
    intro t ht
    apply List.find?_eq_none.mpr
    intro tup htup hname
    rw [decide_eq_true_eq] at hname
    apply h tup htup
    rw [hname, ← functionCollector_fst none e]
    exact List.mem_map_of_mem ht
  unfold extractCalls
  rw [List.append_eq_nil_iff, List.filterMap_eq_nil_iff,
    List.filterMap_eq_nil_iff]
  constructor
  · intro t ht
    rw [hnone t (List.mem_filter.mp ht).1]
    rfl
  · intro t ht
    rw [hnone t (List.mem_filter.mp ht).1]
    rfl

theorem constant2FuncCall_eq {uses : List FunctionUse}
    (hdistinct : (uses.map FunctionUse.controlVar).Nodup) {tup : FunctionUse}
    (htup : tup ∈ uses) : constant2FuncCall uses tup.controlVar = some tup := by
  unfold constant2FuncCall
  cases hfind : uses.find? (fun use => use.controlVar = tup.controlVar) with
  | none =>
    have hnot := List.find?_eq_none.mp hfind tup htup
    simp at hnot
  | some use =>
    have hname := List.find?_some hfind
    rw [decide_eq_true_eq] at hname
    rw [List.inj_on_of_nodup_map hdistinct (List.mem_of_find?_eq_some hfind)
      htup hname]

theorem extractCalls_call {uses : List FunctionUse} {model : ErrorModel}
    (hdistinct : (uses.map FunctionUse.controlVar).Nodup) {tup : FunctionUse} (htup : tup ∈ uses) :
    extractCalls uses model (.nary (.functionCall tup.controlVar) []) =
      [(tup.function, tup.args.map model.getValue)] := by
  simp [extractCalls, functionCollector, functionCollectorOfArgs, dependsOn,
    constant2FuncCall_eq hdistinct htup]

section Calls

variable {H : MLHoudini} {impl : String} {function2Value : String -> C5Domain}

theorem Counterexample.mapM_value (error : Counterexample H impl function2Value) {tup : FunctionUse}
    (htup : tup ∈ (H.genVC impl).functionsUsed) (hparams : tup.inParams = []) :
    (tup.args.map error.model.getValue).mapM (Model.Element.value (U := error.U)) =
      some (tup.args.map (fun a =>
        a.eval error.context.interp error.context.oldState error.state)) := by
  have hall : forall args : List Expr, (forall a, a ∈ args -> a ∈ tup.args) ->
      (args.map error.model.getValue).mapM
        (Model.Element.value (U := error.U)) =
          some (args.map (fun a => a.eval error.context.interp
            error.context.oldState error.state)) := by
    intro args
    induction args with
    | nil => exact fun _ => rfl
    | cons a args ih =>
      intro hargs
      have ha := error.values tup htup hparams a (hargs a (by simp))
      have hrest := ih (fun b hb => hargs b (List.mem_cons_of_mem a hb))
      simp [List.mapM_cons, ha, hrest]
  exact hall tup.args (fun _ ha => ha)

theorem Counterexample.point_value
    (error : Counterexample H impl function2Value) {tup : FunctionUse}
    (htup : tup ∈ (H.genVC impl).functionsUsed) (hparams : tup.inParams = [])
    {d : DataPoint} (hd : CallState.dataPoint
      (tup.function, tup.args.map error.model.getValue) = some d) :
    d.functionName = tup.function ∧ d.value = tup.args.map (fun a => encode
        (a.eval error.context.interp error.context.oldState error.state)) := by
  have hname : d.functionName = tup.function := by
    rcases Option.map_eq_some_iff.mp hd with ⟨value, _, rfl⟩
    rfl
  rcases dataPoint_value (U := error.U) hd with ⟨vs, hvs, hvalue⟩
  rw [error.mapM_value htup hparams] at hvs
  cases hvs
  refine ⟨hname, ?_⟩
  rw [hvalue, List.map_map]
  rfl

theorem Counterexample.call_iff (error : Counterexample H impl function2Value)
    (huniform : UniformModels H.existentialFunctions function2Value)
    {tup : FunctionUse} (htup : tup ∈ (H.genVC impl).functionsUsed)
    (hparams : tup.inParams = []) {d : DataPoint} (hd : CallState.dataPoint
      (tup.function, tup.args.map error.model.getValue) = some d) :
    error.context.Holds error.state (.nary (.functionCall tup.controlVar) []) <->
      AcceptsPoint H.existentialFunctions function2Value d := by
  rcases error.point_value htup hparams hd with ⟨hname, hvalue⟩
  rcases error.typed tup htup hparams with ⟨F, hF, hFname, hlength, htyped⟩
  let I := error.context.interp
  let ρ₀ := error.context.oldState
  have hmodel := huniform F hF
  -- the formal parameters get the values of the arguments
  rcases exists_assigned hlength htyped with ⟨actuals, hassigned, hpoint⟩
  have haccepts : AcceptsPoint H.existentialFunctions function2Value d <->
      (function2Value F.name).Accepts F d.value := by
    constructor
    · intro ⟨G, hG, hGname, hacc⟩
      have hsame : G = F := List.inj_on_of_nodup_map
        H.existentialFunctions.distinct hG hF
        (hGname.trans (hname.trans hFname.symm))
      rwa [hsame] at hacc
    · exact fun hacc => ⟨F, hF, hFname.trans hname.symm, hacc⟩
  rcases error.defined tup htup with ⟨value, hgamma, hdefined⟩
  have hcall := hdefined error.state
    ⟨fun _ _ => rfl, by rw [hparams]; simp⟩
  rw [hparams] at hcall
  rw [haccepts, hvalue, hpoint, ← @C5Domain.Uniform.holds_iff _ _ hmodel error.U _ I ρ₀
    _ _ hassigned]
  rw [C5Domain.gamma, ← hFname, hmodel.vars] at hgamma
  have heval : value.eval I ρ₀ error.state =
      (function2Value F.name).model.eval I ρ₀
        (ExtendsExpr.instantiation I ρ₀ error.state F.paramNames tup.args) :=
    ExtendsExpr.eval_replace hgamma
  rw [Context.Holds, Expr.Holds, Expr.Holds, Expr.eval_nary, ← heval]
  exact iff_of_eq (congrArg (fun v => Value.truth v = true) hcall)

theorem SimplyGenuine.asserted (huniform : UniformModels H.existentialFunctions function2Value)
    {cex : Cex} (h : SimplyGenuine H impl function2Value cex) :
    cex.rhs = [] ∨ exists call, cex.rhs = [call] ∧ forall d, call.dataPoint = some d ->
        ¬ AcceptsPoint H.existentialFunctions function2Value d := by
  rcases h with ⟨error, hsimple, rfl⟩
  have hfalse := error.traces.falsifies.not_holds
  rcases hsimple with ⟨tup, htup, hparams, hexpr⟩ | hnone
  · right
    have hrhs : error.cex.rhs =
        [(tup.function, tup.args.map error.model.getValue)] := by
      show extractCalls _ _ error.failingAssert.expr = _
      rw [hexpr]
      exact extractCalls_call (H.genVC impl).distinct htup
    refine ⟨_, hrhs, ?_⟩
    intro d hd haccepts
    rw [hexpr] at hfalse
    exact hfalse ((error.call_iff huniform htup hparams hd).mpr haccepts)
  · left
    exact extractCalls_of_none hnone

end Calls

end MLHoudini

end Boogie
