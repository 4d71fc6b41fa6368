import Boogie.Core.Expr

/-!
# Free and bound occurrences

What an expression means depends only on the variables that are free in it.
Passive expressions have no `old`, so they depend on one state only.
-/

namespace Boogie

def Env.Typed {U : Type} (ρ : Env U) (I : Interp U) : Prop :=
  forall x : Variable, I.HasType (ρ x) x.type

def Fun.isCallOf (functionNames : List String) : Fun -> Bool
  | .functionCall functionName => functionName ∈ functionNames
  | _ => false

theorem Fun.isCallOf_functionCall {functionNames : List String}
    {functionName : String} :
    (Fun.functionCall functionName).isCallOf functionNames = true <->
      functionName ∈ functionNames :=
  decide_eq_true_iff

namespace Expr

variable {x : Variable} {e : Expr}

/-!
# Free variables
-/

/-- `x` occurs in the expression outside of the quantifiers that bind it. -/
inductive FreeIn (x : Variable) : Expr -> Prop where
  | ident : FreeIn x (.ident x)
  | old {e : Expr} : FreeIn x e -> FreeIn x (.old e)
  | nary {f : Fun} {args : List Expr} {a : Expr} :
      a ∈ args -> FreeIn x a -> FreeIn x (.nary f args)
  | quantifier {q : Quantifier} {dummies : List Variable} {body : Expr} :
      x ∉ dummies -> FreeIn x body -> FreeIn x (.quantifier q dummies body)

theorem freeIn_nary {f : Fun} {args : List Expr} :
    (Expr.nary f args).FreeIn x <-> exists a, a ∈ args ∧ a.FreeIn x := by
  constructor
  · intro h
    cases h with
    | nary ha h => exact ⟨_, ha, h⟩
  · rintro ⟨a, ha, h⟩
    exact FreeIn.nary ha h

theorem freeIn_binary {op : BinaryOperator} {e1 e2 : Expr} :
    (binary op e1 e2).FreeIn x <-> e1.FreeIn x ∨ e2.FreeIn x := by
  simp [binary, freeIn_nary]

theorem freeIn_quantifier {q : Quantifier} {dummies : List Variable}
    {body : Expr} :
    (Expr.quantifier q dummies body).FreeIn x <-> x ∉ dummies ∧ body.FreeIn x := by
  constructor
  · intro h
    cases h with
    | quantifier hx h => exact ⟨hx, h⟩
  · exact fun h => FreeIn.quantifier h.1 h.2

theorem freeIn_ident {y : Variable} : (Expr.ident y).FreeIn x <-> y = x := by
  constructor
  · intro h
    cases h
    rfl
  · rintro rfl
    exact FreeIn.ident

theorem not_freeIn_literal {l : Literal} : ¬ (Expr.literal l).FreeIn x := by
  intro h
  cases h

/-!
# Scopes
-/

/-- The quantifiers bind bound variables, and only such. -/
inductive BindsDummies : Expr -> Prop where
  | literal {l : Literal} : BindsDummies (.literal l)
  | ident {x : Variable} : BindsDummies (.ident x)
  | old {e : Expr} : BindsDummies e -> BindsDummies (.old e)
  | nary {f : Fun} {args : List Expr} :
      (forall a, a ∈ args -> BindsDummies a) -> BindsDummies (.nary f args)
  | quantifier {q : Quantifier} {dummies : List Variable} {body : Expr} :
      (forall x, x ∈ dummies -> x.isBound = true) -> BindsDummies body ->
      BindsDummies (.quantifier q dummies body)

/-- A bound variable stands only where a quantifier binds it. -/
structure WellScoped (e : Expr) : Prop where
  bindsDummies : e.BindsDummies
  inScope : forall x, e.FreeIn x -> x.isBound = false

/-- Without `old`, as after the commands were made passive. -/
inductive Passive : Expr -> Prop where
  | literal {l : Literal} : Passive (.literal l)
  | ident {x : Variable} : Passive (.ident x)
  | nary {f : Fun} {args : List Expr} :
      (forall a, a ∈ args -> Passive a) -> Passive (.nary f args)
  | quantifier {q : Quantifier} {dummies : List Variable} {body : Expr} :
      Passive body -> Passive (.quantifier q dummies body)

inductive Calls (functionName : String) : Expr -> Prop where
  | here {args : List Expr} :
      Calls functionName (.nary (.functionCall functionName) args)
  | nary {f : Fun} {args : List Expr} {a : Expr} :
      a ∈ args -> Calls functionName a -> Calls functionName (.nary f args)
  | old {e : Expr} : Calls functionName e -> Calls functionName (.old e)
  | quantifier {q : Quantifier} {dummies : List Variable} {body : Expr} :
      Calls functionName body ->
      Calls functionName (.quantifier q dummies body)

mutual

def callsOf (functionNames : List String) : Expr -> List Expr
  | .literal _ => []
  | .ident _ => []
  | .old e => callsOf functionNames e
  | .nary f args =>
    (if f.isCallOf functionNames then [.nary f args] else []) ++
      callsOfSeq functionNames args
  | .quantifier _ _ body => callsOf functionNames body

def callsOfSeq (functionNames : List String) : List Expr -> List Expr
  | [] => []
  | e :: es => callsOf functionNames e ++ callsOfSeq functionNames es

end

section CallsOf

variable {functionNames : List String} {f : Fun} {args : List Expr}

theorem callsOfSeq_eq_flatMap (es : List Expr) :
    callsOfSeq functionNames es = es.flatMap (callsOf functionNames) := by
  induction es with
  | nil => rfl
  | cons e es ih => rw [callsOfSeq, ih, List.flatMap_cons]

theorem callsOf_nary_of_not (hf : f.isCallOf functionNames = false) :
    callsOf functionNames (.nary f args) = args.flatMap (callsOf functionNames) := by
  rw [callsOf, hf, if_neg Bool.false_ne_true, List.nil_append,
    callsOfSeq_eq_flatMap]

theorem callsOf_nary_of_call (hf : f.isCallOf functionNames = true) :
    callsOf functionNames (.nary f args) =
      .nary f args :: args.flatMap (callsOf functionNames) := by
  rw [callsOf, if_pos hf, callsOfSeq_eq_flatMap, List.singleton_append]

end CallsOf

/-!
# Values
-/

section Values

variable {U : Type} [DecidableEq U] {I J : Interp U} {ρ₀ σ₀ ρ σ : Env U}

omit [DecidableEq U] in
theorem hasType_congr (hsort : I.sort = J.sort) {v : Value U} {t : Ty} :
    I.HasType v t <-> J.HasType v t := by
  unfold Interp.HasType
  rw [hsort]

omit [DecidableEq U] in
theorem exists_same_rebinding {ρ' : Env U} {xs : List Variable}
    {P : Variable -> Prop} (hsort : I.sort = J.sort)
    (h : forall x, P x -> ρ x = σ x) (hbind : ρ'.Rebinds I ρ xs) :
    exists σ' : Env U, σ'.Rebinds J σ xs ∧ forall x, P x ∨ x ∈ xs -> ρ' x = σ' x := by
  exists fun x => if x ∈ xs then ρ' x else σ x
  constructor
  · constructor
    · intro x hx
      exact if_neg hx
    · intro x hx
      dsimp only
      rw [if_pos hx]
      exact (hasType_congr hsort).mp (hbind.2 x hx)
  · intro x hP
    by_cases hx : x ∈ xs
    · exact (if_pos hx).symm
    · dsimp only
      rw [if_neg hx, hbind.1 x hx]
      exact h x (hP.resolve_right hx)

theorem eval_quantifier_eq {q : Quantifier} {xs : List Variable}
    {body body' : Expr} {P : Variable -> Prop} (hsort : I.sort = J.sort)
    (h : forall x, P x -> ρ x = σ x)
    (hbody : forall ρ' σ' : Env U, ρ'.Rebinds I ρ xs -> σ'.Rebinds J σ xs ->
      (forall x, P x ∨ x ∈ xs -> ρ' x = σ' x) -> body.eval I ρ₀ ρ' = body'.eval J σ₀ σ') :
    (Expr.quantifier q xs body).eval I ρ₀ ρ = (Expr.quantifier q xs body').eval J σ₀ σ := by
  rw [eval_quantifier I ρ₀ ρ, eval_quantifier J σ₀ σ]
  congr 1
  rw [Bool.eq_iff_iff]
  cases q with
  | all =>
    rw [eval_all, eval_all]
    constructor
    · intro hall σ' hσ'
      rcases exists_same_rebinding hsort.symm
          (fun x hx => (h x hx).symm) hσ' with
        ⟨ρ', hρ', hagree⟩
      rw [Holds, ← hbody ρ' σ' hρ' hσ' (fun x hx => (hagree x hx).symm)]
      exact hall ρ' hρ'
    · intro hall ρ' hρ'
      rcases exists_same_rebinding hsort h hρ' with ⟨σ', hσ', hagree⟩
      rw [Holds, hbody ρ' σ' hρ' hσ' hagree]
      exact hall σ' hσ'
  | ex =>
    rw [eval_ex, eval_ex]
    constructor
    · rintro ⟨ρ', hρ', hholds⟩
      rcases exists_same_rebinding hsort h hρ' with ⟨σ', hσ', hagree⟩
      rw [Holds, hbody ρ' σ' hρ' hσ' hagree] at hholds
      exact ⟨σ', hσ', hholds⟩
    · rintro ⟨σ', hσ', hholds⟩
      rcases exists_same_rebinding hsort.symm
          (fun x hx => (h x hx).symm) hσ' with
        ⟨ρ', hρ', hagree⟩
      rw [Holds, ← hbody ρ' σ' hρ' hσ' (fun x hx => (hagree x hx).symm)]
        at hholds
      exact ⟨ρ', hρ', hholds⟩

theorem eval_quantifier_congr {q : Quantifier} {xs : List Variable}
    {body body' : Expr} (h : forall ρ' : Env U, ρ'.Rebinds I ρ xs ->
      body.eval I ρ₀ ρ' = body'.eval I ρ₀ ρ') :
    (Expr.quantifier q xs body).eval I ρ₀ ρ = (Expr.quantifier q xs body').eval I ρ₀ ρ := by
  apply eval_quantifier_eq (P := fun _ => True) rfl (fun _ _ => rfl)
  intro ρ' σ' hρ' _ hagree
  rw [← funext (fun x => hagree x (Or.inl trivial))]
  exact h ρ' hρ'

theorem eval_congr_free (he : e.Passive) (h : forall x, e.FreeIn x -> ρ x = σ x) :
    e.eval I ρ₀ ρ = e.eval I σ₀ σ := by
  induction e generalizing ρ σ with
  | literal l => rw [eval_literal, eval_literal]
  | ident x =>
    rw [eval_ident, eval_ident]
    exact h x FreeIn.ident
  | old e ih => cases he
  | nary f args ih =>
    cases he with
    | nary hargs =>
      rw [eval_nary, eval_nary]
      congr 1
      apply List.map_congr_left
      intro a ha
      exact ih a ha (hargs a ha) (fun x hx => h x (FreeIn.nary ha hx))
  | quantifier q xs body ih =>
    cases he with
    | quantifier hbody =>
      apply eval_quantifier_eq rfl h
      intro ρ' σ' _ _ hagree
      apply ih hbody
      intro x hx
      by_cases hmem : x ∈ xs
      · exact hagree x (Or.inr hmem)
      · exact hagree x (Or.inl (FreeIn.quantifier hmem hx))

end Values

/-- True in all well-typed states, however the functions are read. -/
def Valid (e : Expr) : Prop :=
  forall (U : Type) [DecidableEq U] (I : Interp U) (ρ₀ ρ : Env U),
    ρ₀.Typed I -> ρ.Typed I -> e.Holds I ρ₀ ρ

end Expr

end Boogie
