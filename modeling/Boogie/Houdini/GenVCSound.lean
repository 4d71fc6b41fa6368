import Boogie.Houdini.GenVC

/-!
# Meaning of queries

A query holds when the formula of the implementation holds for the functions
that the current models define, unless an argument is beyond the bound.
-/

namespace Boogie

namespace MLHoudini

open VCExpressionGenerator

section Meaning

variable {U : Type} [DecidableEq U] {M : VCInterp U} {η : VCEnv U}

theorem holds_binaryTreeAnd {I : Interp U} {ρ₀ ρ : Env U} (terms : List Expr) :
    (binaryTreeAnd terms).Holds I ρ₀ ρ <-> forall e, e ∈ terms -> e.Holds I ρ₀ ρ := by
  fun_induction binaryTreeAnd terms with
  | case1 => simp
  | case2 e => simp
  | case3 e1 e2 => simp [Expr.holds_and]
  | case4 e1 e2 e3 es mid ih1 ih2 =>
    rw [Expr.holds_and, ih1, ih2]
    rw [← List.take_append_drop (mid + 1) (e1 :: e2 :: e3 :: es)]
    simp only [List.take_append_drop, ← List.forall_mem_append]

/-- The function that replaces a call has the value of the model. -/
def FunctionUse.Defined (function2Value : String -> C5Domain) (I : Interp U)
    (ρ₀ ρ : Env U) (tup : FunctionUse) : Prop :=
  exists value, (function2Value tup.function).gamma tup.args = some value ∧
    forall ρ' : Env U, ρ'.Rebinds I ρ tup.inParams ->
      I.func tup.controlVar (tup.inParams.map ρ') = value.eval I ρ₀ ρ'

theorem definition_holds {function2Value : String -> C5Domain}
    {tup : FunctionUse} {term : Expr} {I : Interp U} {ρ₀ ρ : Env U}
    (h : definition function2Value tup = some term) :
    term.Holds I ρ₀ ρ <-> tup.Defined function2Value I ρ₀ ρ := by
  unfold definition at h
  split at h
  · rename_i value hvalue
    have hterm : forall ρ' : Env U,
        (Expr.eq (.nary (.functionCall tup.controlVar)
          (tup.inParams.map .ident)) value).Holds I ρ₀ ρ' <->
        I.func tup.controlVar (tup.inParams.map ρ') = value.eval I ρ₀ ρ' := by
      intro ρ'
      simp [Expr.eq, Expr.holds_binary, BinaryOperator.apply, Interp.apply,
        Function.comp_def]
    have hdefined : tup.Defined function2Value I ρ₀ ρ <->
        forall ρ' : Env U, ρ'.Rebinds I ρ tup.inParams ->
          I.func tup.controlVar (tup.inParams.map ρ') =
            value.eval I ρ₀ ρ' := by
      simp [FunctionUse.Defined, hvalue]
    rw [hdefined]
    cases h
    split
    · rename_i hnil
      rw [hterm]
      constructor
      · intro heq ρ' hρ'
        have hsame : ρ' = ρ := by
          funext x
          exact hρ'.1 x (by simp [hnil])
        rwa [hsame]
      · intro hall
        apply hall
        exact ⟨fun _ _ => rfl, by simp [hnil]⟩
    · rw [Expr.Holds, Expr.eval_all]
      simp only [hterm]
  · cases h

theorem envVC_holds {function2Value : String -> C5Domain}
    {tups : List FunctionUse} {env : VCExpr} (ρ₀ : Env U)
    (h : envVC function2Value tups = some env) :
    env.Holds M η <-> forall tup, tup ∈ tups ->
      tup.Defined function2Value M.toInterp ρ₀ η.state := by
  unfold envVC at h
  rcases Option.bind_eq_some_iff.mp h with ⟨terms, hterms, htranslate⟩
  rw [holds_translate ρ₀ htranslate, holds_binaryTreeAnd]
  clear h htranslate
  induction tups generalizing terms with
  | nil =>
    cases hterms
    simp
  | cons tup tups ih =>
    simp only [List.mapM_cons, Option.pure_def, Option.bind_eq_bind,
      Option.bind_eq_some_iff, Option.some.injEq] at hterms
    rcases hterms with ⟨term, hterm, rest, hrest, rfl⟩
    simp only [List.mem_cons, forall_eq_or_imp, definition_holds hterm,
      ih rest hrest]

/-- The integer arguments of a call have an absolute value of at most `bound`. -/
def FunctionUse.Within (bound : Int) (I : Interp U) (ρ₀ ρ : Env U)
    (tup : FunctionUse) : Prop :=
  forall v, v ∈ tup.exprVars -> v.1 = .int ->
    (v.2.eval I ρ₀ ρ).toInt ≤ bound ∧ -bound ≤ (v.2.eval I ρ₀ ρ).toInt

theorem boundcexVC_holds {bound : Int} {tups : List FunctionUse}
    {boundcex : VCExpr} (ρ₀ : Env U) (h : boundcexVC bound tups = some boundcex) :
    boundcex.Holds M η <-> forall tup, tup ∈ tups -> tup.Within bound M.toInterp ρ₀ η.state := by
  have hterms : forall tup : FunctionUse,
      (forall e, e ∈ boundTerms bound tup ->
        e.Holds M.toInterp ρ₀ η.state) <->
      tup.Within bound M.toInterp ρ₀ η.state := by
    intro tup
    have hge : forall e : Expr,
        (Expr.ge e (.intLiteral (-1 * bound))).Holds M.toInterp ρ₀ η.state <->
          -bound ≤ (e.eval M.toInterp ρ₀ η.state).toInt := by
      intro e
      simp [Expr.ge, Expr.holds_binary, Expr.intLiteral, Literal.value,
        BinaryOperator.apply]
    constructor
    · intro hall v hv hint
      have hmem : v ∈ tup.exprVars.filter (fun v => v.1 = .int) := by
        simp [hv, hint]
      constructor
      · exact Expr.holds_le.mp
          (hall _ (List.mem_flatMap.mpr ⟨v, hmem, by simp⟩))
      · exact (hge v.2).mp
          (hall _ (List.mem_flatMap.mpr ⟨v, hmem, by simp⟩))
    · intro hwithin e he
      rcases List.mem_flatMap.mp he with ⟨v, hv, he⟩
      rw [List.mem_filter, decide_eq_true_eq] at hv
      rcases hwithin v hv.1 hv.2 with ⟨hle, hle'⟩
      simp only [List.mem_cons, List.not_mem_nil, or_false] at he
      rcases he with rfl | rfl
      · exact Expr.holds_le.mpr hle
      · exact (hge v.2).mpr hle'
  rw [holds_translate ρ₀ h, holds_binaryTreeAnd]
  simp only [List.mem_flatMap, forall_exists_index, and_imp, ← hterms]
  constructor
  · intro hall tup htup e he
    exact hall e tup htup he
  · intro hall e tup htup he
    exact hall tup htup e he

namespace GeneratedVC

variable {o : IceOptions} {p : Program} (G : GeneratedVC o p)
  {function2Value : String -> C5Domain}

theorem vc_holds {vc : VCExpr} (ρ₀ : Env U) (h : G.vc function2Value = some vc) :
    vc.Holds M η <-> ((forall tup, tup ∈ G.functionsUsed ->
        tup.Defined function2Value M.toInterp ρ₀ η.state) -> G.vcexpr.Holds M η) := by
  unfold GeneratedVC.vc at h
  split at h
  · rename_i env henv
    cases h
    rw [holds_implies, envVC_holds ρ₀ henv]
  · cases h

theorem finalVC_some {bound : Int} {final : VCExpr}
    (h : G.finalVC function2Value bound = some final) :
    exists vc, G.vc function2Value = some vc ∧
      forall {U : Type} [DecidableEq U] (M : VCInterp U) (η : VCEnv U)
        (ρ₀ : Env U), final.Holds M η <-> ((forall tup, tup ∈ G.functionsUsed ->
          tup.Within bound M.toInterp ρ₀ η.state) -> vc.Holds M η) := by
  unfold finalVC at h
  split at h
  · rename_i boundcex vc hboundcex hvc
    cases h
    refine ⟨vc, hvc, ?_⟩
    intro U _ M η ρ₀
    rw [holds_implies, boundcexVC_holds ρ₀ hboundcex]
  · cases h

theorem vc_congr {function2Value' : String -> C5Domain} (h : forall tup, tup ∈ G.functionsUsed ->
      function2Value tup.function = function2Value' tup.function) :
    G.vc function2Value = G.vc function2Value' := by
  have hterms : G.functionsUsed.mapM (definition function2Value) =
      G.functionsUsed.mapM (definition function2Value') := by
    revert h
    generalize G.functionsUsed = tups
    intro h
    induction tups with
    | nil => rfl
    | cons tup tups ih =>
      have hhead : definition function2Value tup =
          definition function2Value' tup := by
        simp only [definition, h tup (by simp)]
      rw [List.mapM_cons, List.mapM_cons, hhead,
        ih (fun use huse => h use (by simp [huse]))]
  unfold GeneratedVC.vc envVC
  rw [hterms]

end GeneratedVC

end Meaning

/-!
# Queries exist
-/

theorem binaryTreeAnd_passive {terms : List Expr} (h : forall e, e ∈ terms -> e.passive = true) :
    (binaryTreeAnd terms).passive = true := by
  fun_induction binaryTreeAnd terms with
  | case1 => rfl
  | case2 e => exact h e (by simp)
  | case3 e1 e2 => exact Expr.and_passive (h e1 (by simp)) (h e2 (by simp))
  | case4 e1 e2 e3 es mid ih1 ih2 =>
    apply Expr.and_passive
    · exact ih1 (fun e he => h e (List.mem_of_mem_take he))
    · exact ih2 (fun e he => h e (List.mem_of_mem_drop he))

theorem definition_passive {function2Value : String -> C5Domain}
    {tup : FunctionUse} {value : Expr}
    (hgamma : (function2Value tup.function).gamma tup.args = some value)
    (hvalue : value.passive = true) :
    exists term, definition function2Value tup = some term ∧ term.passive = true := by
  have hcall : Expr.passiveArgs (tup.inParams.map .ident) = true := by
    rw [Expr.passiveArgs_iff]
    intro a ha
    rcases List.mem_map.mp ha with ⟨x, _, rfl⟩
    rfl
  have heq : (Expr.eq (.nary (.functionCall tup.controlVar)
      (tup.inParams.map .ident)) value).passive = true := by
    simp [Expr.eq, Expr.binary, Expr.passive, Expr.passiveArgs, Fun.arityOk,
      hcall, hvalue]
  unfold definition
  rw [hgamma]
  refine ⟨_, rfl, ?_⟩
  split
  · exact heq
  · rw [Expr.passive]
    exact heq

theorem GeneratedVC.finalVC_isSome {o : IceOptions} {p : Program}
    (G : GeneratedVC o p) {function2Value : String -> C5Domain}
    (hgamma : forall tup, tup ∈ G.functionsUsed -> exists value,
      (function2Value tup.function).gamma tup.args = some value ∧ value.passive = true)
    (hargs : forall tup, tup ∈ G.functionsUsed ->
      forall a, a ∈ tup.args -> a.passive = true) (bound : Int) :
    exists final, G.finalVC function2Value bound = some final := by
  have hterms : forall tups : List FunctionUse,
      (forall tup, tup ∈ tups -> tup ∈ G.functionsUsed) ->
      exists terms, tups.mapM (definition function2Value) = some terms ∧
        forall e, e ∈ terms -> e.passive = true := by
    intro tups
    induction tups with
    | nil => exact fun _ => ⟨[], rfl, by simp⟩
    | cons tup tups ih =>
      intro hmem
      rcases hgamma tup (hmem tup (by simp)) with ⟨value, hvalue, hpassive⟩
      rcases definition_passive hvalue hpassive with ⟨term, hterm, hterm'⟩
      rcases ih (fun use huse => hmem use (by simp [huse])) with
        ⟨terms, hterms, hrest⟩
      refine ⟨term :: terms, by simp [List.mapM_cons, hterm, hterms], ?_⟩
      intro e he
      rcases List.mem_cons.mp he with rfl | he
      · exact hterm'
      · exact hrest e he
  have hbounds : forall e, e ∈ G.functionsUsed.flatMap (boundTerms bound) ->
      e.passive = true := by
    intro e he
    rcases List.mem_flatMap.mp he with ⟨tup, htup, he⟩
    rcases List.mem_flatMap.mp he with ⟨v, hv, he⟩
    have hpassive : v.2.passive = true :=
      hargs tup htup v.2 (List.mem_map_of_mem (List.mem_filter.mp hv).1)
    simp only [List.mem_cons, List.not_mem_nil, or_false] at he
    rcases he with rfl | rfl <;>
      simp [Expr.le, Expr.ge, Expr.binary, Expr.intLiteral, Expr.passive,
        Expr.passiveArgs, Fun.arityOk, hpassive]
  rcases hterms G.functionsUsed (fun _ h => h) with ⟨terms, hdefs, hpassive⟩
  rcases translate_isSome (binaryTreeAnd_passive hpassive) with ⟨env, henv⟩
  rcases translate_isSome (binaryTreeAnd_passive hbounds) with
    ⟨boundcex, hboundcex⟩
  have henvVC : envVC function2Value G.functionsUsed = some env := by
    simp [envVC, hdefs, henv]
  refine ⟨implies boundcex (implies env G.vcexpr), ?_⟩
  simp [finalVC, vc, boundcexVC, hboundcex, henvVC]

theorem generateVC_spec (o : IceOptions) (P : PassiveProgram) (constantsAssumed : List String) :
    exists vcexpr, generateVC o P constantsAssumed = some vcexpr ∧
      forall {U : Type} [DecidableEq U] (C : Context U) (η : VCEnv U),
        (forall cf, vcexpr.Holds (Wlp.vcInterp C cf) η) <-> ¬ VCGen.WrongWithout
            (Wlp.guarded o.controlFlowVariableExpr (some constantsAssumed))
            P C P.start.uniqueId η.state := by
  rcases VCGen.pLetVCIterative_holds_iff o.clo P (some constantsAssumed)
    o.controlFlowVariableExpr (some (fun _ => none)) true o.pReady with
    ⟨vc, labels, n, hvc, hmeaning⟩
  unfold generateVC
  rw [hvc]
  cases hlabels : o.useLabels with
  | true => exact ⟨vc, rfl, fun C η => (hmeaning C η).1⟩
  | false =>
    refine ⟨_, rfl, ?_⟩
    intro U _ C η
    rw [← (hmeaning C η).2 P.start.uniqueId]
    simp only [holds_implies, holds_entryCondition]

section Formulas

variable {o : IceOptions} {p : Program} (G : GeneratedVC o p)

def GeneratedVC.weak (G : GeneratedVC o p) (ac : AssumeCmd) : Bool :=
  Wlp.guarded o.controlFlowVariableExpr
    (some (constantsAssumed G.functionsUsed G.functionsAssumed)) ac

theorem GeneratedVC.vcexpr_iff {U : Type} [DecidableEq U] (C : Context U) (η : VCEnv U) :
    (forall cf, G.vcexpr.Holds (Wlp.vcInterp C cf) η) <->
      ¬ VCGen.WrongWithout G.weak G.passive C G.passive.start.uniqueId η.state := by
  rcases generateVC_spec o G.passive
    (constantsAssumed G.functionsUsed G.functionsAssumed) with
    ⟨vcexpr, hvcexpr, hmeaning⟩
  rw [G.generated] at hvcexpr
  cases hvcexpr
  exact hmeaning C η

theorem GeneratedVC.vcexpr_holds {U : Type} [DecidableEq U] {M : VCInterp U}
    {η : VCEnv U} (h : forall C : Context U, C.interp = M.toInterp -> C.oldState = η.state ->
      ¬ VCGen.WrongWithout G.weak G.passive C G.passive.start.uniqueId
        η.state) : G.vcexpr.Holds M η := by
  let C := Context.withoutCalls M.toInterp η.state
  exact (G.vcexpr_iff C η).mpr (h C rfl rfl) M.controlFlow

theorem GeneratedVC.vc_valid_iff {function2Value : String -> C5Domain}
    {vc : VCExpr} (h : G.vc function2Value = some vc) :
    p.Valid vc <-> forall {U : Type} [DecidableEq U] (C : Context U) (ρ : Env U),
        p.AxiomsHold C.interp ρ -> (forall tup, tup ∈ G.functionsUsed ->
          tup.Defined function2Value C.interp C.oldState ρ) ->
        ¬ VCGen.WrongWithout G.weak G.passive C G.passive.start.uniqueId ρ := by
  constructor
  · intro hvalid U _ C ρ haxioms hdefined
    let η : VCEnv U := VCEnv.withState (fun _ => .bool false) ρ
    apply (G.vcexpr_iff C η).mp
    intro cf
    have hvc := hvalid U (Wlp.vcInterp C cf) η haxioms
    exact (G.vc_holds C.oldState h).mp hvc hdefined
  · intro hsafe U _ M η haxioms
    apply (G.vc_holds η.state h).mpr
    intro hdefined
    apply G.vcexpr_holds
    intro C hinterp hold
    apply hsafe C η.state
    · rwa [hinterp]
    · rwa [hinterp, hold]

theorem generateVC_isSome (o : IceOptions) (P : PassiveProgram) (constantsAssumed : List String) :
    (generateVC o P constantsAssumed).isSome = true := by
  rcases generateVC_spec o P constantsAssumed with ⟨vcexpr, hvcexpr, _⟩
  rw [hvcexpr]
  rfl

def GeneratedVC.create (o : IceOptions) (p : Program) (P : PassiveProgram)
    (functionsUsed : List FunctionUse)
    (functionsAssumed functionsAsserted : List String)
    (found : forall tup, tup ∈ functionsUsed ->
      tup.function ∈ functionsAssumed ∨ tup.function ∈ functionsAsserted)
    (distinct : (functionsUsed.map FunctionUse.controlVar).Nodup)
    (fresh : forall tup, tup ∈ functionsUsed ->
      forall use, use ∈ functionsUsed ->
        forall a, a ∈ use.args -> tup.controlVar ∉ collectFunctions a)
    (freshAxioms : forall tup, tup ∈ functionsUsed ->
      forall e, e ∈ p.axioms -> tup.controlVar ∉ collectFunctions e) :
    GeneratedVC o p where
  passive := P
  functionsUsed := functionsUsed
  functionsAssumed := functionsAssumed
  functionsAsserted := functionsAsserted
  vcexpr := (generateVC o P
    (constantsAssumed functionsUsed functionsAssumed)).get
      (generateVC_isSome o P _)
  generated := (Option.some_get _).symm
  found := found
  distinct := distinct
  fresh := fresh
  freshAxioms := freshAxioms

end Formulas

/-!
# Programs of one block
-/

section OneBlock

/-- The block `assume e1; assert e2; return`. -/
def assumeAssertBlock (e1 e2 : Expr) : Block where
  uniqueId := 1
  label := "start"
  cmds :=
    [.assumeCmd { uniqueId := 2, expr := e1, attributes := [] },
      .assertCmd
        { uniqueId := 3
          expr := e2
          attributes := []
          kind := .assertCmd
          origExpr := none }]
  transferCmd := .returnCmd

theorem assumeAssertBlock_positive (e1 e2 : Expr) (b : Block)
    (hb : b ∈ [assumeAssertBlock e1 e2]) (id : Nat) (hid : id ∈ b.ids) : 0 < id := by
  rw [List.mem_singleton.mp hb] at hid
  simp only [Block.ids, assumeAssertBlock, Cmd.uniqueId?, List.filterMap,
    List.mem_cons, List.not_mem_nil, or_false] at hid
  rcases hid with rfl | rfl | rfl
  · exact Nat.one_pos
  · exact Nat.two_pos
  · exact Nat.succ_pos 2

def assumeAssert (e1 e2 : Expr) (h1 : e1.passive = true)
    (h2 : e2.passive = true) : PassiveProgram where
  start := assumeAssertBlock e1 e2
  rest := []
  passive := by
    intro b hb c hc
    rw [List.mem_singleton.mp hb] at hc
    simp only [assumeAssertBlock, List.mem_cons, List.not_mem_nil,
      or_false] at hc
    rcases hc with rfl | rfl
    · exact h1
    · exact h2
  transfers := by simp [assumeAssertBlock]
  closed := by
    simp [Block.labelTargets, TransferCmd.labelTargets, assumeAssertBlock]
  acyclic := by
    apply VCGen.acyclic_of_forward
    intro b hb t ht
    rw [List.mem_singleton.mp hb] at ht
    simp [Block.labelTargets, TransferCmd.labelTargets, assumeAssertBlock] at ht
  distinct := by
    simp [Block.ids, assumeAssertBlock, Cmd.uniqueId?]
  positive := assumeAssertBlock_positive e1 e2

theorem wrong_assumeAssert {e1 e2 : Expr} (h1 : e1.passive = true)
    (h2 : e2.passive = true) {U : Type} [DecidableEq U] {C : Context U}
    {ρ : Env U} :
    Wrong C (assumeAssert e1 e2 h1 h2).blocks (assumeAssert e1 e2 h1 h2).start.uniqueId ρ <->
      C.Holds ρ e1 ∧ ¬ C.Holds ρ e2 := by
  constructor
  · intro hwrong
    rcases hwrong.cases_block with ⟨b, hb, _, hfail | ⟨t, _, _, ht, _⟩⟩
    · rw [List.mem_singleton.mp hb] at hfail
      cases hfail with
      | here h => exact h.elim
      | later hstep hrest =>
        cases hstep with
        | assume _ _ hassumed =>
          cases hrest with
          | here h => exact ⟨hassumed, h⟩
          | later _ hnil => cases hnil
    · rw [List.mem_singleton.mp hb] at ht
      cases ht
  · intro ⟨hassumed, hfalse⟩
    apply Wrong.cmds (b := assumeAssertBlock e1 e2) (List.mem_singleton.mpr rfl)
    exact CmdsFail.later (CmdStep.assume _ ρ hassumed) (CmdsFail.here hfalse)

end OneBlock

end MLHoudini

end Boogie
