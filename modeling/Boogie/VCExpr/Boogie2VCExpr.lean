import Boogie.VCExpr.VCExprAST

/-!
# Translation of expressions

Program variables keep their identity, and every operator becomes the formula
operator of the same meaning.  An equivalence is first split into two
implications.  Expressions with `old` are never translated: they have been
replaced before a formula is generated.
-/

namespace Boogie

open VCExpressionGenerator

namespace IAppliableTranslator

def binaryOp : BinaryOperator -> VCExprOp
  | .add => .addIOp
  | .sub => .subIOp
  | .mul => .mulIOp
  | .div => .divIOp
  | .mod => .modOp
  | .eq => .eqOp
  | .iff => .eqOp
  | .neq => .neqOp
  | .lt => .ltOp
  | .le => .leOp
  | .ge => .geOp
  | .gt => .gtOp
  | .imp => .impliesOp
  | .and => .andOp
  | .or => .orOp

def translateBinaryOperator (op : BinaryOperator) :
    List VCExpr -> Option VCExpr
  | [a, b] => some (.nary (binaryOp op) [a, b])
  | _ => none

/-- `none` where the source stops with an assertion. -/
def translate : Fun -> List VCExpr -> Option VCExpr
  | .unary .neg, [e] => some (.nary .subIOp [.intLit 0, e])
  | .unary .not, [e] => some (.nary .notOp [e])
  | .unary _, _ => none
  | .binary op, args => translateBinaryOperator op args
  | .functionCall name, args => some (.nary (.boogieFunctionOp name) args)
  | .mapSelect, args => some (.nary .selectOp args)
  | .mapStore, args => some (.nary .storeOp args)
  | .ifThenElse, args => some (.nary .ifThenElseOp args)

end IAppliableTranslator

def translateNAryExpr : Fun -> List VCExpr -> Option VCExpr
  | .binary .iff, [a, b] => some (and (implies a b) (implies b a))
  | f, vcs => IAppliableTranslator.translate f vcs

mutual

def translate : Expr -> Option VCExpr
  | .literal (.bool b) => some (.literal b)
  | .literal (.int n) => some (.intLit n)
  | .ident x => some (.var (.ofVariable x))
  | .old _ => none
  | .nary f args =>
    match translateArgs args with
    | some vcs => translateNAryExpr f vcs
    | none => none
  | .quantifier quan dummies body =>
    match translate body with
    | some e => some (.quantifier quan (dummies.map .ofVariable) e)
    | none => none

def translateArgs : List Expr -> Option (List VCExpr)
  | [] => some []
  | a :: as =>
    match translate a, translateArgs as with
    | some e, some es => some (e :: es)
    | _, _ => none

end

/-!
# Passive expressions

The expressions that can be translated: free of `old`, with operators applied
to the right number of arguments.
-/

def Fun.arityOk : Fun -> Nat -> Bool
  | .unary _, n => n == 1
  | .binary _, n => n == 2
  | _, _ => true

mutual

def Expr.passive : Expr -> Bool
  | .literal _ => true
  | .ident _ => true
  | .old _ => false
  | .nary f args => f.arityOk args.length && Expr.passiveArgs args
  | .quantifier _ _ body => body.passive

def Expr.passiveArgs : List Expr -> Bool
  | [] => true
  | a :: as => a.passive && Expr.passiveArgs as

end

theorem Expr.passiveArgs_iff {args : List Expr} :
    Expr.passiveArgs args = true <-> forall a, a ∈ args -> a.passive = true := by
  induction args with
  | nil => simp [Expr.passiveArgs]
  | cons a rest ih => simp [Expr.passiveArgs, ih]

theorem translateArgs_isSome {args : List Expr}
    (h : forall a, a ∈ args -> exists e, translate a = some e) :
    exists es, translateArgs args = some es ∧ es.length = args.length := by
  induction args with
  | nil => exact ⟨[], rfl, rfl⟩
  | cons a rest ih =>
    rcases h a (by simp) with ⟨e, he⟩
    rcases ih (fun b hb => h b (by simp [hb])) with ⟨es, hes, hlen⟩
    exact ⟨e :: es, by simp [translateArgs, he, hes], by simp [hlen]⟩

theorem translateNAryExpr_isSome {f : Fun} {vcs : List VCExpr} (h : f.arityOk vcs.length = true) :
    exists e, translateNAryExpr f vcs = some e := by
  cases f with
  | unary op =>
    rcases List.length_eq_one_iff.mp (by simpa [Fun.arityOk] using h) with
      ⟨e, rfl⟩
    cases op <;> exact ⟨_, rfl⟩
  | binary op =>
    rcases List.length_eq_two.mp (by simpa [Fun.arityOk] using h) with
      ⟨a, b, rfl⟩
    cases op <;> exact ⟨_, rfl⟩
  | functionCall name => exact ⟨_, rfl⟩
  | mapSelect => exact ⟨_, rfl⟩
  | mapStore => exact ⟨_, rfl⟩
  | ifThenElse => exact ⟨_, rfl⟩

theorem Expr.and_passive {e1 e2 : Expr} (h1 : e1.passive = true)
    (h2 : e2.passive = true) : (Expr.and e1 e2).passive = true := by
  unfold Expr.and
  split
  · exact h2
  · split
    · exact h1
    · split
      · rfl
      · simp [Expr.binary, Expr.passive, Expr.passiveArgs, Fun.arityOk, h1, h2]

theorem translate_isSome {e : Expr} (h : e.passive = true) :
    exists t, translate e = some t := by
  induction e with
  | literal l => cases l <;> exact ⟨_, rfl⟩
  | ident x => exact ⟨_, rfl⟩
  | old e ih => simp [Expr.passive] at h
  | nary f args ih =>
    simp only [Expr.passive, Bool.and_eq_true, Expr.passiveArgs_iff] at h
    rcases translateArgs_isSome (fun a ha => ih a ha (h.2 a ha)) with
      ⟨vcs, hvcs, hlen⟩
    rw [← hlen] at h
    rcases translateNAryExpr_isSome h.1 with ⟨t, ht⟩
    exact ⟨t, by simp [translate, hvcs, ht]⟩
  | quantifier q xs body ih =>
    simp only [Expr.passive] at h
    rcases ih h with ⟨t, ht⟩
    refine ⟨.quantifier q (xs.map .ofVariable) t, ?_⟩
    simp [translate, ht]

/-!
# Correctness of the translation
-/

section Meaning

variable {U : Type} [DecidableEq U] {M : VCInterp U}

def VCEnv.state (η : VCEnv U) : Env U :=
  fun x => η (.ofVariable x)

def VCEnv.withState (η : VCEnv U) (ρ : Env U) : VCEnv U
  | .ofVariable x => ρ x
  | .letVariable number name => η (.letVariable number name)

omit [DecidableEq U] in
@[simp] theorem VCEnv.state_withState (η : VCEnv U) (ρ : Env U) :
    (η.withState ρ).state = ρ :=
  rfl

omit [DecidableEq U] in
theorem VCEnv.Rebinds.state
    {η' η : VCEnv U} {xs : List Variable} (h : η'.Rebinds M η (xs.map .ofVariable)) :
    η'.state.Rebinds M.toInterp η.state xs := by
  constructor
  · intro x hx
    exact h.1 (.ofVariable x) (by simpa using hx)
  · intro x hx
    exact h.2 (.ofVariable x) (by simpa using hx)

omit [DecidableEq U] in
theorem Env.Rebinds.withState
    {η : VCEnv U} {ρ' : Env U} {xs : List Variable} (h : ρ'.Rebinds M.toInterp η.state xs) :
    (η.withState ρ').Rebinds M η (xs.map .ofVariable) := by
  constructor
  · intro x hx
    cases x with
    | ofVariable x => exact h.1 x (by simpa using hx)
    | letVariable number name => rfl
  · intro x hx
    rcases List.mem_map.mp hx with ⟨y, hy, rfl⟩
    exact h.2 y hy

theorem apply_binaryOp {op : BinaryOperator} (hop : op ≠ .iff) (v w : Value U) :
    M.apply (IAppliableTranslator.binaryOp op) [v, w] = op.apply v w := by
  cases op <;> first | rfl | exact absurd rfl hop

theorem eval_translateNAryExpr
    {f : Fun} {vcs : List VCExpr} {t : VCExpr} {η : VCEnv U}
    (h : translateNAryExpr f vcs = some t) :
    t.eval M η = M.toInterp.apply f (vcs.map (fun e => e.eval M η)) := by
  cases f with
  | unary op =>
    rcases vcs with _ | ⟨e, _ | ⟨e', rest⟩⟩
    · cases op <;> cases h
    · cases op with
      | neg =>
        cases h
        simp [VCInterp.apply, Interp.apply, BinaryOperator.apply,
          UnaryOperator.apply]
      | not =>
        cases h
        simp [VCInterp.apply, Interp.apply]
    · cases op <;> cases h
  | binary op =>
    rcases vcs with _ | ⟨a, _ | ⟨b, _ | ⟨c, rest⟩⟩⟩
    · cases op <;> cases h
    · cases op <;> cases h
    · by_cases hop : op = .iff
      · subst hop
        cases h
        simp only [VCExpressionGenerator.and, implies, VCExpr.eval_nary, List.map_cons,
          List.map_nil, VCInterp.apply, BinaryOperator.apply, Interp.apply,
          Value.truth_bool]
        cases (a.eval M η).truth <;> cases (b.eval M η).truth <;> rfl
      · have ht : t = .nary (IAppliableTranslator.binaryOp op) [a, b] := by
          cases op <;> cases h <;> first | rfl | exact absurd rfl hop
        rw [ht]
        simp [Interp.apply, apply_binaryOp hop]
    · cases op <;> cases h
  | functionCall name =>
    cases h
    simp [VCInterp.apply, Interp.apply]
  | mapSelect =>
    cases h
    simp [VCInterp.apply, Interp.apply]
  | mapStore =>
    cases h
    simp [VCInterp.apply, Interp.apply]
  | ifThenElse =>
    cases h
    rcases vcs with _ | ⟨a, _ | ⟨b, _ | ⟨c, _ | ⟨d, rest⟩⟩⟩⟩ <;>
      simp [VCInterp.apply, Interp.apply]

theorem eval_translateArgs
    {args : List Expr} {vcs : List VCExpr} {η : VCEnv U} {ρ₀ : Env U}
    (ih : forall a, a ∈ args -> forall t, translate a = some t ->
      t.eval M η = a.eval M.toInterp ρ₀ η.state) (h : translateArgs args = some vcs) :
    vcs.map (fun e => e.eval M η) = args.map (fun a => a.eval M.toInterp ρ₀ η.state) := by
  induction args generalizing vcs with
  | nil =>
    cases h
    rfl
  | cons a rest ihrest =>
    rw [translateArgs] at h
    split at h
    · rename_i e es he hes
      cases h
      have hhead := ih a (by simp) e he
      have htail := ihrest (fun b hb => ih b (by simp [hb])) hes
      simp [hhead, htail]
    · cases h

theorem eval_translate {e : Expr} {t : VCExpr} {η : VCEnv U} (ρ₀ : Env U)
    (h : translate e = some t) :
    t.eval M η = e.eval M.toInterp ρ₀ η.state := by
  induction e generalizing t η with
  | literal l =>
    cases l <;> cases h <;> simp [Literal.value]
  | ident x =>
    cases h
    simp [VCEnv.state]
  | old e ih => cases h
  | nary f args ih =>
    rw [translate] at h
    split at h
    · rename_i vcs hvcs
      have hargs := eval_translateArgs
        (fun a ha t ht => ih a ha (t := t) (η := η) ht) hvcs
      rw [eval_translateNAryExpr h, hargs, Expr.eval_nary]
    · cases h
  | quantifier q xs body ih =>
    rw [translate] at h
    split at h
    · rename_i b hb
      cases h
      rw [VCExpr.eval_quantifier, Expr.eval_quantifier]
      congr 1
      rw [Bool.eq_iff_iff]
      cases q with
      | all =>
        rw [VCExpr.eval_all, Expr.eval_all]
        constructor
        · intro hall ρ' hρ'
          have := hall (η.withState ρ') hρ'.withState
          simpa [VCExpr.Holds, Expr.Holds, ih hb] using this
        · intro hall η' hη'
          have := hall η'.state hη'.state
          simpa [VCExpr.Holds, Expr.Holds, ih hb] using this
      | ex =>
        rw [VCExpr.eval_ex, Expr.eval_ex]
        constructor
        · rintro ⟨η', hη', hbody⟩
          refine ⟨η'.state, hη'.state, ?_⟩
          simpa [VCExpr.Holds, Expr.Holds, ih hb] using hbody
        · rintro ⟨ρ', hρ', hbody⟩
          refine ⟨η.withState ρ', hρ'.withState, ?_⟩
          simpa [VCExpr.Holds, Expr.Holds, ih hb] using hbody
    · cases h

theorem holds_translate {e : Expr} {t : VCExpr} {η : VCEnv U} (ρ₀ : Env U)
    (h : translate e = some t) :
    t.Holds M η <-> e.Holds M.toInterp ρ₀ η.state := by
  unfold VCExpr.Holds Expr.Holds
  rw [eval_translate ρ₀ h]

end Meaning

end Boogie
