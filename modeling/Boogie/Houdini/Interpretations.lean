import Boogie.Houdini.AcceptedPoints

/-!
# Interpretations of existential functions

An interpretation says for every data point whether the function holds there.
It is adequate when the formulas of all implementations are valid under it.
-/

namespace Boogie

/-!
# Other readings of some functions
-/

structure Interp.AgreesOff {U : Type} (names : List String) (I I' : Interp U) :
    Prop where
  sort : I'.sort = I.sort
  select : I'.select = I.select
  store : I'.store = I.store
  func : forall name, name ∉ names -> I'.func name = I.func name

section AgreesOff

variable {U : Type} [DecidableEq U] {names : List String} {I I' : Interp U}

omit [DecidableEq U] in
theorem Interp.AgreesOff.symm (h : I.AgreesOff names I') :
    I'.AgreesOff names I :=
  ⟨h.sort.symm, h.select.symm, h.store.symm,
    fun name hname => (h.func name hname).symm⟩

omit [DecidableEq U] in
theorem Interp.AgreesOff.rebinds (h : I.AgreesOff names I') {ρ ρ' : Env U}
    {xs : List Variable} : ρ'.Rebinds I' ρ xs <-> ρ'.Rebinds I ρ xs := by
  have htype : forall (v : Value U) (t : Ty),
      I'.HasType v t <-> I.HasType v t := by
    intro v t
    cases v with
    | other u =>
      cases t with
      | other name => rw [Interp.HasType, Interp.HasType, h.sort]
      | _ => exact Iff.rfl
    | _ => cases t <;> exact Iff.rfl
  simp only [Env.Rebinds, htype]

theorem Interp.AgreesOff.apply (h : I.AgreesOff names I') {f : Fun}
    (hf : forall name, f = .functionCall name -> name ∉ names)
    (vs : List (Value U)) : I'.apply f vs = I.apply f vs := by
  unfold Interp.apply
  split
  · rfl
  · rfl
  · rename_i name
    rw [h.func _ (hf _ rfl)]
  · rw [h.select]
  · rw [h.store]
  · rfl
  · rfl

theorem mem_collectFunctionsOfArgs {name : String} {args : List Expr} :
    name ∈ collectFunctionsOfArgs args <-> exists a, a ∈ args ∧ name ∈ collectFunctions a := by
  induction args with
  | nil => simp [collectFunctionsOfArgs]
  | cons a args ih => simp [collectFunctionsOfArgs, ih]

theorem Expr.eval_agreesOff (h : I.AgreesOff names I') {e : Expr}
    (hcalls : forall name, name ∈ collectFunctions e -> name ∉ names)
    (ρ₀ ρ : Env U) : e.eval I' ρ₀ ρ = e.eval I ρ₀ ρ := by
  induction e generalizing ρ with
  | literal l => simp
  | ident x => simp
  | old e ih =>
    rw [eval_old, eval_old]
    exact ih hcalls _
  | nary f args ih =>
    have hargs : args.map (fun a => a.eval I' ρ₀ ρ) =
        args.map (fun a => a.eval I ρ₀ ρ) := by
      apply List.map_congr_left
      intro a ha
      apply ih a ha
      intro name hname
      apply hcalls
      have hmem := mem_collectFunctionsOfArgs.mpr ⟨a, ha, hname⟩
      cases f with
      | functionCall callee =>
        rw [collectFunctions]
        exact List.mem_cons_of_mem _ hmem
      | _ => exact hmem
    rw [eval_nary, eval_nary, hargs]
    apply h.apply
    intro callee hcallee
    subst hcallee
    apply hcalls
    rw [collectFunctions]
    exact List.mem_cons_self
  | quantifier q xs body ih =>
    have hbody : forall ρ' : Env U,
        body.Holds I' ρ₀ ρ' <-> body.Holds I ρ₀ ρ' := by
      intro ρ'
      rw [Holds, Holds, ih hcalls]
    rw [eval_quantifier I' ρ₀ ρ, eval_quantifier I ρ₀ ρ]
    congr 1
    rw [Bool.eq_iff_iff]
    cases q with
    | all =>
      rw [eval_all, eval_all]
      simp only [h.rebinds, hbody]
    | ex =>
      rw [eval_ex, eval_ex]
      simp only [h.rebinds, hbody]

end AgreesOff

namespace MLHoudini

/-!
# Adequate interpretations
-/

abbrev Interpretation := DataPoint -> Bool

section Interprets

variable {U : Type} [DecidableEq U]

noncomputable def FunctionUse.point (I : Interp U) (ρ₀ ρ : Env U)
    (tup : FunctionUse) : DataPoint :=
  ⟨tup.args.map (fun a => encode (a.eval I ρ₀ ρ)), tup.function⟩

def FunctionUse.Interprets (g : Interpretation) (I : Interp U) (ρ₀ ρ : Env U)
    (tup : FunctionUse) : Prop :=
  forall ρ' : Env U, ρ'.Rebinds I ρ tup.inParams ->
    I.func tup.controlVar (tup.inParams.map ρ') = .bool (g (tup.point I ρ₀ ρ'))

end Interprets

/-- The formulas of all implementations are valid under the interpretation. -/
def Adequate (H : MLHoudini) (g : Interpretation) : Prop :=
  forall impl, impl ∈ H.name2Impl ->
    forall {U : Type} [DecidableEq U] (C : Context U) (η : VCEnv U),
      H.program.AxiomsHold C.interp η.state ->
      (forall tup, tup ∈ (H.genVC impl).functionsUsed ->
        tup.Interprets g C.interp C.oldState η.state) ->
      forall cf, (H.genVC impl).vcexpr.Holds (Wlp.vcInterp C cf) η

section Reinterpret

variable {U : Type} [DecidableEq U]

def rebind (ρ : Env U) (xs : List Variable) (vs : List (Value U)) : Env U :=
  fun x =>
    match xs.idxOf? x with
    | some i => vs.getD i (ρ x)
    | none => ρ x

omit [DecidableEq U] in
theorem rebind_map {I : Interp U} {ρ ρ' : Env U} {xs : List Variable}
    (h : ρ'.Rebinds I ρ xs) : rebind ρ xs (xs.map ρ') = ρ' := by
  funext x
  unfold rebind
  cases hi : xs.idxOf? x with
  | none =>
    have hx : x ∉ xs := by
      intro hmem
      have hsome := List.isSome_idxOf?.mpr hmem
      rw [hi] at hsome
      cases hsome
    exact (h.1 x hx).symm
  | some i =>
    rcases List.idxOf?_eq_some_iff.mp hi with ⟨hlt, hx, _⟩
    have hget : xs[i]? = some x := by
      rw [List.getElem?_eq_getElem hlt, hx]
    simp [List.getD_eq_getElem?_getD, List.getElem?_map, hget]

noncomputable def reinterpret (uses : List FunctionUse) (g : Interpretation)
    (I : Interp U) (ρ₀ ρ : Env U) : Interp U :=
  { I with
    func := fun name vs =>
      match constant2FuncCall uses name with
      | some tup => .bool (g (tup.point I ρ₀ (rebind ρ tup.inParams vs)))
      | none => I.func name vs }

variable {uses : List FunctionUse} {g : Interpretation} {I : Interp U}
  {ρ₀ ρ : Env U}

theorem reinterpret_agreesOff :
    I.AgreesOff (uses.map FunctionUse.controlVar) (reinterpret uses g I ρ₀ ρ) where
  sort := rfl
  select := rfl
  store := rfl
  func := by
    intro name hname
    have hnone : constant2FuncCall uses name = none := by
      apply List.find?_eq_none.mpr
      intro tup htup heq
      rw [decide_eq_true_eq] at heq
      apply hname
      rw [← heq]
      exact List.mem_map_of_mem htup
    funext vs
    show (match constant2FuncCall uses name with
      | some tup => _
      | none => I.func name vs) = I.func name vs
    rw [hnone]

theorem reinterpret_func (hdistinct : (uses.map FunctionUse.controlVar).Nodup) {tup : FunctionUse}
    (htup : tup ∈ uses) (vs : List (Value U)) :
    (reinterpret uses g I ρ₀ ρ).func tup.controlVar vs =
      .bool (g (tup.point I ρ₀ (rebind ρ tup.inParams vs))) := by
  show (match constant2FuncCall uses tup.controlVar with
    | some tup => _
    | none => I.func tup.controlVar vs) = _
  rw [constant2FuncCall_eq hdistinct htup]

theorem reinterpret_interprets (hdistinct : (uses.map FunctionUse.controlVar).Nodup)
    (hfresh : forall tup, tup ∈ uses -> forall use, use ∈ uses ->
      forall a, a ∈ use.args -> tup.controlVar ∉ collectFunctions a)
    {tup : FunctionUse} (htup : tup ∈ uses) :
    tup.Interprets g (reinterpret uses g I ρ₀ ρ) ρ₀ ρ := by
  intro ρ' hρ'
  have hpoint : tup.point (reinterpret uses g I ρ₀ ρ) ρ₀ ρ' =
      tup.point I ρ₀ ρ' := by
    unfold FunctionUse.point
    congr 1
    apply List.map_congr_left
    intro a ha
    rw [Expr.eval_agreesOff reinterpret_agreesOff]
    intro name hname hmem
    rcases List.mem_map.mp hmem with ⟨use, huse, rfl⟩
    exact hfresh use huse tup htup a ha hname
  rw [reinterpret_func hdistinct htup, hpoint,
    rebind_map (reinterpret_agreesOff.rebinds.mp hρ')]

end Reinterpret

/-!
# Polarity
-/

/-- The calls stand outside quantifiers and only where they have the polarity. -/
inductive Polar (uses : List FunctionUse) : Bool -> Expr -> Prop where
  | free {positive : Bool} {e : Expr} :
      (forall tup, tup ∈ uses -> tup.controlVar ∉ collectFunctions e) ->
      Polar uses positive e
  | call {tup : FunctionUse} :
      tup ∈ uses -> tup.inParams = [] ->
      Polar uses true (.nary (.functionCall tup.controlVar) [])
  | not {positive : Bool} {e : Expr} :
      Polar uses (!positive) e -> Polar uses positive (.unary .not e)
  | and {positive : Bool} {e1 e2 : Expr} :
      Polar uses positive e1 -> Polar uses positive e2 ->
      Polar uses positive (.binary .and e1 e2)
  | or {positive : Bool} {e1 e2 : Expr} :
      Polar uses positive e1 -> Polar uses positive e2 ->
      Polar uses positive (.binary .or e1 e2)
  | imp {positive : Bool} {e1 e2 : Expr} :
      Polar uses (!positive) e1 -> Polar uses positive e2 ->
      Polar uses positive (.binary .imp e1 e2)

def FunctionUse.call (tup : FunctionUse) : Expr :=
  .nary (.functionCall tup.controlVar) []

def Keeps (positive : Bool) (P P' : Prop) : Prop :=
  match positive with
  | true => P -> P'
  | false => P' -> P

section Keeps

variable {positive : Bool} {P P' Q Q' : Prop}

theorem Keeps.refl (positive : Bool) (P : Prop) : Keeps positive P P := by
  cases positive with
  | true => exact id
  | false => exact id

theorem Keeps.not (h : Keeps (!positive) P P') : Keeps positive (¬ P) (¬ P') := by
  cases positive with
  | true => exact fun hP hP' => hP (h hP')
  | false => exact fun hP' hP => hP' (h hP)

theorem Keeps.and (h : Keeps positive P P') (h' : Keeps positive Q Q') :
    Keeps positive (P ∧ Q) (P' ∧ Q') := by
  cases positive with
  | true => exact And.imp h h'
  | false => exact And.imp h h'

theorem Keeps.or (h : Keeps positive P P') (h' : Keeps positive Q Q') :
    Keeps positive (P ∨ Q) (P' ∨ Q') := by
  cases positive with
  | true => exact Or.imp h h'
  | false => exact Or.imp h h'

theorem Keeps.imp (h : Keeps (!positive) P P') (h' : Keeps positive Q Q') :
    Keeps positive (P -> Q) (P' -> Q') := by
  cases positive with
  | true => exact fun himp hP' => h' (himp (h hP'))
  | false => exact fun himp hP => h' (himp (h hP))

end Keeps

section Holds

variable {U : Type} [DecidableEq U] {I : Interp U} {ρ₀ ρ : Env U}
  {e e1 e2 : Expr}

theorem holds_unary_not :
    (Expr.unary .not e).Holds I ρ₀ ρ <-> ¬ e.Holds I ρ₀ ρ := by
  simp [Expr.Holds, Expr.unary, Interp.apply, UnaryOperator.apply]

theorem holds_binary_and :
    (Expr.binary .and e1 e2).Holds I ρ₀ ρ <-> e1.Holds I ρ₀ ρ ∧ e2.Holds I ρ₀ ρ := by
  rw [Expr.holds_binary]
  simp [BinaryOperator.apply, Expr.Holds]

theorem holds_binary_or :
    (Expr.binary .or e1 e2).Holds I ρ₀ ρ <-> e1.Holds I ρ₀ ρ ∨ e2.Holds I ρ₀ ρ := by
  rw [Expr.holds_binary]
  simp [BinaryOperator.apply, Expr.Holds]

theorem holds_binary_imp :
    (Expr.binary .imp e1 e2).Holds I ρ₀ ρ <-> (e1.Holds I ρ₀ ρ -> e2.Holds I ρ₀ ρ) := by
  rw [Expr.holds_binary]
  cases h : (e1.eval I ρ₀ ρ).truth with
  | true => simp [BinaryOperator.apply, Expr.Holds, h]
  | false => simp [BinaryOperator.apply, Expr.Holds, h]

end Holds

section Polar

variable {uses : List FunctionUse} {positive : Bool} {e e1 e2 : Expr}

theorem collectFunctions_unary {op : UnaryOperator} {name : String} :
    name ∈ collectFunctions (.unary op e) <-> name ∈ collectFunctions e := by
  simp [Expr.unary, collectFunctions, collectFunctionsOfArgs]

theorem collectFunctions_binary {op : BinaryOperator} {name : String} :
    name ∈ collectFunctions (.binary op e1 e2) <->
      name ∈ collectFunctions e1 ∨ name ∈ collectFunctions e2 := by
  simp [Expr.binary, collectFunctions, collectFunctionsOfArgs]

theorem Polar.collected (h : Polar uses positive e)
    (hdistinct : (uses.map FunctionUse.controlVar).Nodup) {tup : FunctionUse}
    (htup : tup ∈ uses) (hcall : tup.controlVar ∈ collectFunctions e) :
    tup.inParams = [] ∧ (tup.controlVar, false) ∈ functionCollector none e := by
  have hunary : forall {op : UnaryOperator} {e : Expr} {t : String × Bool},
      t ∈ functionCollector none e ->
        t ∈ functionCollector none (.unary op e) := by
    intro op e t ht
    simpa [Expr.unary, functionCollector, functionCollectorOfArgs] using ht
  have hbinary : forall {op : BinaryOperator} {e1 e2 : Expr}
      {t : String × Bool}, t ∈ functionCollector none e1 ∨
        t ∈ functionCollector none e2 ->
        t ∈ functionCollector none (.binary op e1 e2) := by
    intro op e1 e2 t ht
    simpa [Expr.binary, functionCollector, functionCollectorOfArgs] using ht
  have hboth : forall {op : BinaryOperator} {e1 e2 : Expr},
      (tup.controlVar ∈ collectFunctions e1 -> tup.inParams = [] ∧
        (tup.controlVar, false) ∈ functionCollector none e1) ->
      (tup.controlVar ∈ collectFunctions e2 -> tup.inParams = [] ∧
        (tup.controlVar, false) ∈ functionCollector none e2) ->
      tup.controlVar ∈ collectFunctions (.binary op e1 e2) ->
      tup.inParams = [] ∧
        (tup.controlVar, false) ∈ functionCollector none (.binary op e1 e2) := by
    intro op e1 e2 h1 h2 hmem
    rcases collectFunctions_binary.mp hmem with hmem | hmem
    · exact ⟨(h1 hmem).1, hbinary (Or.inl (h1 hmem).2)⟩
    · exact ⟨(h2 hmem).1, hbinary (Or.inr (h2 hmem).2)⟩
  induction h with
  | free hfree => exact absurd hcall (hfree tup htup)
  | call huse hparams =>
    rename_i use
    have hname : tup.controlVar = use.controlVar := by
      simpa [collectFunctions, collectFunctionsOfArgs] using hcall
    have hsame := List.inj_on_of_nodup_map hdistinct htup huse hname
    subst hsame
    refine ⟨hparams, ?_⟩
    simp [functionCollector, functionCollectorOfArgs, dependsOn]
  | not _ ih =>
    have hmem := ih (collectFunctions_unary.mp hcall)
    exact ⟨hmem.1, hunary hmem.2⟩
  | and _ _ ih1 ih2 => exact hboth ih1 ih2 hcall
  | or _ _ ih1 ih2 => exact hboth ih1 ih2 hcall
  | imp _ _ ih1 ih2 => exact hboth ih1 ih2 hcall

theorem Polar.mem_extractCalls (h : Polar uses positive e)
    (hdistinct : (uses.map FunctionUse.controlVar).Nodup) {tup : FunctionUse}
    (htup : tup ∈ uses) (hcall : tup.controlVar ∈ collectFunctions e) (model : ErrorModel) :
    (tup.function, tup.args.map model.getValue) ∈ extractCalls uses model e := by
  apply List.mem_append_left
  apply List.mem_filterMap.mpr
  refine ⟨(tup.controlVar, false), ?_, ?_⟩
  · exact List.mem_filter.mpr ⟨(h.collected hdistinct htup hcall).2, rfl⟩
  · rw [constant2FuncCall_eq hdistinct htup]
    rfl

theorem Polar.transfer {U : Type} [DecidableEq U] {I I' : Interp U}
    {ρ₀ ρ : Env U} (h : Polar uses positive e)
    (hagrees : I.AgreesOff (uses.map FunctionUse.controlVar) I')
    (hcalls : forall tup, tup ∈ uses -> tup.controlVar ∈ collectFunctions e ->
      tup.call.Holds I ρ₀ ρ -> tup.call.Holds I' ρ₀ ρ) :
    Keeps positive (e.Holds I ρ₀ ρ) (e.Holds I' ρ₀ ρ) := by
  induction h with
  | free hfree =>
    rename_i positive e
    have hsame : e.eval I' ρ₀ ρ = e.eval I ρ₀ ρ := by
      apply Expr.eval_agreesOff hagrees
      intro name hname hmem
      rcases List.mem_map.mp hmem with ⟨tup, htup, rfl⟩
      exact hfree tup htup hname
    rw [Expr.Holds, Expr.Holds, hsame]
    exact Keeps.refl positive _
  | call htup hparams =>
    apply hcalls _ htup
    simp [collectFunctions]
  | not _ ih =>
    simp only [holds_unary_not]
    exact Keeps.not (ih (fun tup htup hmem =>
      hcalls tup htup (collectFunctions_unary.mpr hmem)))
  | and _ _ ih1 ih2 =>
    simp only [holds_binary_and]
    exact Keeps.and
      (ih1 (fun tup htup hmem =>
        hcalls tup htup (collectFunctions_binary.mpr (Or.inl hmem))))
      (ih2 (fun tup htup hmem =>
        hcalls tup htup (collectFunctions_binary.mpr (Or.inr hmem))))
  | or _ _ ih1 ih2 =>
    simp only [holds_binary_or]
    exact Keeps.or
      (ih1 (fun tup htup hmem =>
        hcalls tup htup (collectFunctions_binary.mpr (Or.inl hmem))))
      (ih2 (fun tup htup hmem =>
        hcalls tup htup (collectFunctions_binary.mpr (Or.inr hmem))))
  | imp _ _ ih1 ih2 =>
    simp only [holds_binary_imp]
    exact Keeps.imp
      (ih1 (fun tup htup hmem =>
        hcalls tup htup (collectFunctions_binary.mpr (Or.inl hmem))))
      (ih2 (fun tup htup hmem =>
        hcalls tup htup (collectFunctions_binary.mpr (Or.inr hmem))))

end Polar

end MLHoudini

end Boogie
