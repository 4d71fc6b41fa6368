import Mathlib.Data.List.Basic
import Mathlib.Logic.Function.Basic
import Mathlib.Logic.Relation

/-!
# Boogie expressions

The expression language of Boogie programs, the values it computes and its
evaluation.  Maps, reals and user-defined types are values of an arbitrary
carrier, so a result about expressions holds for every reading of them.
-/

namespace Boogie

/-!
# Variables
-/

inductive Ty where
  | bool
  | int
  | other (name : String)
deriving DecidableEq, Repr

structure TypedIdent where
  name : String
  type : Ty
deriving DecidableEq, Repr

/--
The declarations an identifier can refer to.  Two declarations are the same
object exactly when they are equal here, so an incarnation is never a variable
of the source program.
-/
inductive Variable where
  | constant (ident : TypedIdent)
  | globalVariable (ident : TypedIdent)
  | localVariable (ident : TypedIdent)
  | formal (ident : TypedIdent)
  | boundVariable (ident : TypedIdent)
  | incarnation (origin : Variable) (number : Nat)
deriving DecidableEq, Repr

namespace Variable

def ident : Variable -> TypedIdent
  | constant i => i
  | globalVariable i => i
  | localVariable i => i
  | formal i => i
  | boundVariable i => i
  | incarnation x _ => x.ident

def name (x : Variable) : String :=
  x.ident.name

def type (x : Variable) : Ty :=
  x.ident.type

def isGlobal : Variable -> Bool
  | globalVariable _ => true
  | _ => false

def isConstant : Variable -> Bool
  | constant _ => true
  | _ => false

def isBound : Variable -> Bool
  | boundVariable _ => true
  | _ => false

end Variable

/-!
# Syntax
-/

inductive UnaryOperator where
  | neg
  | not
deriving DecidableEq, Repr

inductive BinaryOperator where
  | add | sub | mul | div | mod
  | eq | neq | gt | ge | lt | le
  | and | or | imp | iff
deriving DecidableEq, Repr

/-- The head of an application, `IAppliable` in the source. -/
inductive Fun where
  | unary (op : UnaryOperator)
  | binary (op : BinaryOperator)
  | functionCall (functionName : String)
  | mapSelect
  | mapStore
  | ifThenElse
deriving DecidableEq, Repr

inductive Literal where
  | bool (b : Bool)
  | int (n : Int)
deriving DecidableEq, Repr

inductive Quantifier where
  | all
  | ex
deriving DecidableEq, Repr

inductive Expr where
  | literal (l : Literal)
  | ident (x : Variable)
  | old (e : Expr)
  | nary (f : Fun) (args : List Expr)
  | quantifier (q : Quantifier) (dummies : List Variable) (body : Expr)
deriving Repr

namespace Expr

@[elab_as_elim, induction_eliminator]
theorem inductionOn {P : Expr -> Prop} (literal : forall l, P (.literal l))
    (ident : forall x, P (.ident x)) (old : forall e, P e -> P (.old e))
    (nary : forall f args, (forall a, a ∈ args -> P a) -> P (.nary f args))
    (quantifier : forall q dummies body, P body -> P (.quantifier q dummies body)) :
    forall e, P e := by
  intro e
  exact
    @Expr.rec P (fun args => forall a, a ∈ args -> P a)
      literal ident old nary quantifier
      (by intro a ha; cases ha)
      (by
        intro head tail hhead htail a ha
        rcases List.mem_cons.mp ha with rfl | hmem
        · exact hhead
        · exact htail a hmem)
      e

mutual

def decEq : (a b : Expr) -> Decidable (a = b)
  | .literal l, .literal m =>
    if h : l = m then isTrue (by rw [h]) else isFalse (by simpa using h)
  | .ident x, .ident y =>
    if h : x = y then isTrue (by rw [h]) else isFalse (by simpa using h)
  | .old a, .old b =>
    match decEq a b with
    | isTrue h => isTrue (by rw [h])
    | isFalse h => isFalse (by simpa using h)
  | .nary f as, .nary g bs =>
    if hf : f = g then
      match decEqArgs as bs with
      | isTrue h => isTrue (by rw [hf, h])
      | isFalse h => isFalse (by simp [h])
    else isFalse (by simp [hf])
  | .quantifier q xs a, .quantifier r ys b =>
    if hq : q = r ∧ xs = ys then
      match decEq a b with
      | isTrue h => isTrue (by rw [hq.1, hq.2, h])
      | isFalse h => isFalse (by simp [h])
    else isFalse (by
      intro h
      injection h with h1 h2 _
      exact hq ⟨h1, h2⟩)
  | .literal _, .ident _ => isFalse (by simp)
  | .literal _, .old _ => isFalse (by simp)
  | .literal _, .nary _ _ => isFalse (by simp)
  | .literal _, .quantifier _ _ _ => isFalse (by simp)
  | .ident _, .literal _ => isFalse (by simp)
  | .ident _, .old _ => isFalse (by simp)
  | .ident _, .nary _ _ => isFalse (by simp)
  | .ident _, .quantifier _ _ _ => isFalse (by simp)
  | .old _, .literal _ => isFalse (by simp)
  | .old _, .ident _ => isFalse (by simp)
  | .old _, .nary _ _ => isFalse (by simp)
  | .old _, .quantifier _ _ _ => isFalse (by simp)
  | .nary _ _, .literal _ => isFalse (by simp)
  | .nary _ _, .ident _ => isFalse (by simp)
  | .nary _ _, .old _ => isFalse (by simp)
  | .nary _ _, .quantifier _ _ _ => isFalse (by simp)
  | .quantifier _ _ _, .literal _ => isFalse (by simp)
  | .quantifier _ _ _, .ident _ => isFalse (by simp)
  | .quantifier _ _ _, .old _ => isFalse (by simp)
  | .quantifier _ _ _, .nary _ _ => isFalse (by simp)

def decEqArgs : (as bs : List Expr) -> Decidable (as = bs)
  | [], [] => isTrue rfl
  | a :: as, b :: bs =>
    match decEq a b, decEqArgs as bs with
    | isTrue h, isTrue hs => isTrue (by rw [h, hs])
    | isFalse h, _ => isFalse (by simp [h])
    | _, isFalse hs => isFalse (by simp [hs])
  | [], _ :: _ => isFalse (by simp)
  | _ :: _, [] => isFalse (by simp)

end

instance : DecidableEq Expr := decEq

/-!
# Constructors of the source

The static constructors of `Expr`.  Those for conjunction, disjunction and
negation simplify, and the comparisons under a negation are flipped.
-/

def trueExpr : Expr :=
  .literal (.bool true)

def falseExpr : Expr :=
  .literal (.bool false)

def intLiteral (n : Int) : Expr :=
  .literal (.int n)

def unary (op : UnaryOperator) (e : Expr) : Expr :=
  .nary (.unary op) [e]

def binary (op : BinaryOperator) (e1 e2 : Expr) : Expr :=
  .nary (.binary op) [e1, e2]

def eq (e1 e2 : Expr) : Expr :=
  binary .eq e1 e2

def le (e1 e2 : Expr) : Expr :=
  binary .le e1 e2

def ge (e1 e2 : Expr) : Expr :=
  binary .ge e1 e2

def lt (e1 e2 : Expr) : Expr :=
  binary .lt e1 e2

def imp (e1 e2 : Expr) : Expr :=
  binary .imp e1 e2

def add (e1 e2 : Expr) : Expr :=
  binary .add e1 e2

def sub (e1 e2 : Expr) : Expr :=
  binary .sub e1 e2

def and (e1 e2 : Expr) : Expr :=
  if e1 = trueExpr then e2
  else if e2 = trueExpr then e1
  else if e1 = falseExpr ∨ e2 = falseExpr then falseExpr
  else binary .and e1 e2

def or (e1 e2 : Expr) : Expr :=
  if e1 = falseExpr then e2
  else if e2 = falseExpr then e1
  else if e1 = trueExpr ∨ e2 = trueExpr then trueExpr
  else binary .or e1 e2

def not : Expr -> Expr
  | .literal (.bool true) => falseExpr
  | .literal (.bool false) => trueExpr
  | .nary (.unary .not) [e] => e
  | .nary (.binary .eq) [a, b] => binary .neq a b
  | .nary (.binary .neq) [a, b] => binary .eq a b
  | .nary (.binary .lt) [a, b] => binary .le b a
  | .nary (.binary .le) [a, b] => binary .lt b a
  | .nary (.binary .ge) [a, b] => binary .gt b a
  | .nary (.binary .gt) [a, b] => binary .ge b a
  | e => unary .not e

/--
`ShallowType`, the type of an expression read off its outermost symbols.  For
calls and maps it would need their declarations.
-/
def shallowType : Expr -> Option Ty
  | .literal (.bool _) => some .bool
  | .literal (.int _) => some .int
  | .ident x => some x.type
  | .old e => shallowType e
  | .nary (.unary .not) _ => some .bool
  | .nary (.unary .neg) (e :: _) => shallowType e
  | .nary (.binary .add) (e :: _) => shallowType e
  | .nary (.binary .sub) (e :: _) => shallowType e
  | .nary (.binary .mul) (e :: _) => shallowType e
  | .nary (.binary .div) _ => some .int
  | .nary (.binary .mod) _ => some .int
  | .nary (.binary .add) [] => none
  | .nary (.binary .sub) [] => none
  | .nary (.binary .mul) [] => none
  | .nary (.binary _) _ => some .bool
  | .nary .ifThenElse (_ :: e :: _) => shallowType e
  | .quantifier _ _ _ => some .bool
  | _ => none

end Expr

/-!
# Values
-/

inductive Value (U : Type) where
  | bool (b : Bool)
  | int (n : Int)
  | other (u : U)
deriving DecidableEq

namespace Value

def truth : Value U -> Bool
  | bool b => b
  | _ => false

def toInt : Value U -> Int
  | int n => n
  | _ => 0

@[simp] theorem truth_bool (b : Bool) : (Value.bool b : Value U).truth = b := rfl

@[simp] theorem truth_int (n : Int) : (Value.int n : Value U).truth = false := rfl

@[simp] theorem toInt_int (n : Int) : (Value.int n : Value U).toInt = n := rfl

end Value

/--
A reading of the function symbols and of maps over the carrier `U`, whose
elements are divided into sorts, one for each type that is not built in.
-/
structure Interp (U : Type) where
  sort : U -> String
  func : String -> List (Value U) -> Value U
  select : List (Value U) -> Value U
  store : List (Value U) -> Value U

abbrev Env (U : Type) := Variable -> Value U

variable {U : Type} [DecidableEq U]

def Literal.value : Literal -> Value U
  | bool b => .bool b
  | int n => .int n

def UnaryOperator.apply : UnaryOperator -> Value U -> Value U
  | neg, v => .int (-v.toInt)
  | not, v => .bool (!v.truth)

/--
Division and modulus are those of SMT-LIB, where the remainder is never
negative.
-/
def BinaryOperator.apply : BinaryOperator -> Value U -> Value U -> Value U
  | add, v, w => .int (v.toInt + w.toInt)
  | sub, v, w => .int (v.toInt - w.toInt)
  | mul, v, w => .int (v.toInt * w.toInt)
  | div, v, w => .int (v.toInt / w.toInt)
  | mod, v, w => .int (v.toInt % w.toInt)
  | eq, v, w => .bool (decide (v = w))
  | neq, v, w => .bool (decide (v ≠ w))
  | gt, v, w => .bool (decide (v.toInt > w.toInt))
  | ge, v, w => .bool (decide (v.toInt ≥ w.toInt))
  | lt, v, w => .bool (decide (v.toInt < w.toInt))
  | le, v, w => .bool (decide (v.toInt ≤ w.toInt))
  | and, v, w => .bool (v.truth && w.truth)
  | or, v, w => .bool (v.truth || w.truth)
  | imp, v, w => .bool (!v.truth || w.truth)
  | iff, v, w => .bool (v.truth == w.truth)

def Interp.apply (I : Interp U) : Fun -> List (Value U) -> Value U
  | .unary op, [v] => op.apply v
  | .binary op, [v, w] => op.apply v w
  | .functionCall name, vs => I.func name vs
  | .mapSelect, vs => I.select vs
  | .mapStore, vs => I.store vs
  | .ifThenElse, [c, t, e] => if c.truth then t else e
  | _, _ => .bool false

def Interp.HasType (I : Interp U) : Value U -> Ty -> Prop
  | .bool _, .bool => True
  | .int _, .int => True
  | .other u, .other name => I.sort u = name
  | _, _ => False

/-- `ρ'` agrees with `ρ` outside `xs` and is well typed on `xs`. -/
def Env.Rebinds (I : Interp U) (ρ' ρ : Env U) (xs : List Variable) : Prop :=
  (forall x, x ∉ xs -> ρ' x = ρ x) ∧
    forall x, x ∈ xs -> I.HasType (ρ' x) x.type

def oldEnv (ρ₀ ρ : Env U) : Env U :=
  fun x => if x.isGlobal then ρ₀ x else ρ x

namespace Expr

mutual

/-- The value of an expression, where `ρ₀` is the state `old` refers to. -/
noncomputable def eval (I : Interp U) (ρ₀ : Env U) : Expr -> Env U -> Value U
  | .literal l, _ => l.value
  | .ident x, ρ => ρ x
  | .old e, ρ => eval I ρ₀ e (oldEnv ρ₀ ρ)
  | .nary f args, ρ => I.apply f (evalArgs I ρ₀ args ρ)
  | .quantifier .all dummies body, ρ =>
    .bool (@decide (forall ρ' : Env U, ρ'.Rebinds I ρ dummies ->
      (eval I ρ₀ body ρ').truth = true) (Classical.propDecidable _))
  | .quantifier .ex dummies body, ρ =>
    .bool (@decide (exists ρ' : Env U, ρ'.Rebinds I ρ dummies ∧
      (eval I ρ₀ body ρ').truth = true) (Classical.propDecidable _))

noncomputable def evalArgs (I : Interp U) (ρ₀ : Env U) :
    List Expr -> Env U -> List (Value U)
  | [], _ => []
  | a :: as, ρ => eval I ρ₀ a ρ :: evalArgs I ρ₀ as ρ

end

def Holds (I : Interp U) (ρ₀ ρ : Env U) (e : Expr) : Prop :=
  (e.eval I ρ₀ ρ).truth = true

theorem evalArgs_eq_map (I : Interp U) (ρ₀ : Env U) (args : List Expr) (ρ : Env U) :
    evalArgs I ρ₀ args ρ = args.map (fun a => a.eval I ρ₀ ρ) := by
  induction args with
  | nil => rfl
  | cons a rest ih =>
    rw [List.map_cons, ← ih]
    rfl

@[simp] theorem eval_literal (I : Interp U) (ρ₀ ρ : Env U) (l : Literal) :
    (Expr.literal l).eval I ρ₀ ρ = l.value := by
  rfl

@[simp] theorem eval_ident (I : Interp U) (ρ₀ ρ : Env U) (x : Variable) :
    (Expr.ident x).eval I ρ₀ ρ = ρ x := by
  rfl

@[simp] theorem eval_old (I : Interp U) (ρ₀ ρ : Env U) (e : Expr) :
    (Expr.old e).eval I ρ₀ ρ = e.eval I ρ₀ (oldEnv ρ₀ ρ) := by
  rfl

@[simp] theorem eval_nary (I : Interp U) (ρ₀ ρ : Env U) (f : Fun) (args : List Expr) :
    (Expr.nary f args).eval I ρ₀ ρ = I.apply f (args.map (fun a => a.eval I ρ₀ ρ)) := by
  rw [← evalArgs_eq_map]
  rfl

theorem eval_quantifier (I : Interp U) (ρ₀ ρ : Env U) (q : Quantifier)
    (xs : List Variable) (body : Expr) :
    (Expr.quantifier q xs body).eval I ρ₀ ρ =
      .bool ((Expr.quantifier q xs body).eval I ρ₀ ρ).truth := by
  cases q <;> rfl

theorem eval_all (I : Interp U) (ρ₀ ρ : Env U) (xs : List Variable) (body : Expr) :
    ((Expr.quantifier .all xs body).eval I ρ₀ ρ).truth = true <->
      forall ρ' : Env U, ρ'.Rebinds I ρ xs -> body.Holds I ρ₀ ρ' := by
  exact @decide_eq_true_iff _ (Classical.propDecidable _)

theorem eval_ex (I : Interp U) (ρ₀ ρ : Env U) (xs : List Variable) (body : Expr) :
    ((Expr.quantifier .ex xs body).eval I ρ₀ ρ).truth = true <->
      exists ρ' : Env U, ρ'.Rebinds I ρ xs ∧ body.Holds I ρ₀ ρ' := by
  exact @decide_eq_true_iff _ (Classical.propDecidable _)

/-!
# The meaning of the constructors
-/

section Constructors

variable {I : Interp U} {ρ₀ ρ : Env U} {e e1 e2 : Expr}

theorem holds_binary {op : BinaryOperator} :
    (binary op e1 e2).Holds I ρ₀ ρ <->
      (op.apply (e1.eval I ρ₀ ρ) (e2.eval I ρ₀ ρ)).truth = true :=
  Iff.rfl

theorem holds_eq : (eq e1 e2).Holds I ρ₀ ρ <-> e1.eval I ρ₀ ρ = e2.eval I ρ₀ ρ := by
  rw [eq, holds_binary]
  exact decide_eq_true_iff

theorem holds_imp : (imp e1 e2).Holds I ρ₀ ρ <-> (e1.Holds I ρ₀ ρ -> e2.Holds I ρ₀ ρ) := by
  rw [imp, holds_binary]
  unfold Holds
  change (!(e1.eval I ρ₀ ρ).truth || (e2.eval I ρ₀ ρ).truth) = true <-> _
  cases (e1.eval I ρ₀ ρ).truth <;> simp

@[simp] theorem holds_trueExpr : trueExpr.Holds I ρ₀ ρ := by
  simp [Holds, trueExpr, Literal.value]

@[simp] theorem not_holds_falseExpr : ¬ falseExpr.Holds I ρ₀ ρ := by
  simp [Holds, falseExpr, Literal.value]

theorem holds_le {n : Int} :
    (le e (intLiteral n)).Holds I ρ₀ ρ <-> (e.eval I ρ₀ ρ).toInt ≤ n := by
  rw [le, holds_binary]
  exact decide_eq_true_iff

theorem holds_le_iff : (le e1 e2).Holds I ρ₀ ρ <->
    (e1.eval I ρ₀ ρ).toInt ≤ (e2.eval I ρ₀ ρ).toInt := by
  rw [le, holds_binary]
  exact decide_eq_true_iff

theorem holds_ge {n : Int} :
    (ge e (intLiteral n)).Holds I ρ₀ ρ <-> n ≤ (e.eval I ρ₀ ρ).toInt := by
  rw [ge, holds_binary]
  exact decide_eq_true_iff

theorem holds_lt : (lt e1 e2).Holds I ρ₀ ρ <-> (e1.eval I ρ₀ ρ).toInt < (e2.eval I ρ₀ ρ).toInt := by
  rw [lt, holds_binary]
  exact decide_eq_true_iff

theorem toInt_intLiteral (n : Int) :
    ((intLiteral n).eval I ρ₀ ρ).toInt = n := by
  simp [intLiteral, Literal.value]

theorem toInt_add : ((add e1 e2).eval I ρ₀ ρ).toInt =
    (e1.eval I ρ₀ ρ).toInt + (e2.eval I ρ₀ ρ).toInt := by
  rfl

theorem toInt_sub : ((sub e1 e2).eval I ρ₀ ρ).toInt =
    (e1.eval I ρ₀ ρ).toInt - (e2.eval I ρ₀ ρ).toInt := by
  rfl

theorem holds_and :
    (and e1 e2).Holds I ρ₀ ρ <-> e1.Holds I ρ₀ ρ ∧ e2.Holds I ρ₀ ρ := by
  unfold and
  split
  · rename_i h
    simp [h]
  · split
    · rename_i h
      simp [h]
    · split
      · rename_i h
        rcases h with h | h <;> simp [h]
      · rw [holds_binary]
        exact Bool.and_eq_true_iff

theorem holds_or :
    (or e1 e2).Holds I ρ₀ ρ <-> e1.Holds I ρ₀ ρ ∨ e2.Holds I ρ₀ ρ := by
  unfold or
  split
  · rename_i h
    simp [h]
  · split
    · rename_i h
      simp [h]
    · split
      · rename_i h
        rcases h with h | h <;> simp [h]
      · rw [holds_binary]
        exact Bool.or_eq_true_iff

theorem holds_not : e.not.Holds I ρ₀ ρ <-> ¬ e.Holds I ρ₀ ρ := by
  unfold not
  split <;>
    simp [Holds, binary, unary, Interp.apply, BinaryOperator.apply,
      UnaryOperator.apply, trueExpr, falseExpr, Literal.value]

end Constructors

/-!
# The identifiers of an expression
-/

/-- The identifier `x` occurs in the expression, bound or free. -/
inductive Mentions (x : Variable) : Expr -> Prop where
  | ident : Mentions x (.ident x)
  | old {e : Expr} : Mentions x e -> Mentions x (.old e)
  | nary {f : Fun} {args : List Expr} {a : Expr} :
      a ∈ args -> Mentions x a -> Mentions x (.nary f args)
  | quantifier {q : Quantifier} {dummies : List Variable} {body : Expr} :
      Mentions x body -> Mentions x (.quantifier q dummies body)

omit [DecidableEq U] in
theorem exists_rebinds {I : Interp U} {ρ σ ρ' : Env U} {xs : List Variable}
    {P : Variable -> Prop} (h : forall x, P x -> ρ x = σ x) (hbind : ρ'.Rebinds I ρ xs) :
    exists σ' : Env U, σ'.Rebinds I σ xs ∧ forall x, P x -> ρ' x = σ' x := by
  refine ⟨fun x => if x ∈ xs then ρ' x else σ x, ⟨?_, ?_⟩, ?_⟩
  · intro x hx
    simp [hx]
  · intro x hx
    simpa [hx] using hbind.2 x hx
  · intro x hP
    by_cases hx : x ∈ xs
    · simp [hx]
    · simpa [hx] using (hbind.1 x hx).trans (h x hP)

theorem eval_congr {I : Interp U} {ρ₀ σ₀ : Env U} {e : Expr} {ρ σ : Env U}
    (h₀ : forall x, e.Mentions x -> ρ₀ x = σ₀ x) (h : forall x, e.Mentions x -> ρ x = σ x) :
    e.eval I ρ₀ ρ = e.eval I σ₀ σ := by
  induction e generalizing ρ σ with
  | literal l => simp
  | ident x => simpa using h x Mentions.ident
  | old e ih =>
    rw [eval_old, eval_old]
    apply ih (fun x hx => h₀ x (Mentions.old hx))
    intro x hx
    cases hg : x.isGlobal with
    | true => simpa [oldEnv, hg] using h₀ x (Mentions.old hx)
    | false => simpa [oldEnv, hg] using h x (Mentions.old hx)
  | nary f args ih =>
    rw [eval_nary, eval_nary]
    have hargs : args.map (fun a => a.eval I ρ₀ ρ) =
        args.map (fun a => a.eval I σ₀ σ) :=
      List.map_congr_left (fun a ha =>
        ih a ha (fun x hx => h₀ x (Mentions.nary ha hx))
          (fun x hx => h x (Mentions.nary ha hx)))
    rw [hargs]
  | quantifier q xs body ih =>
    have hbody : forall x, body.Mentions x -> ρ x = σ x :=
      fun x hx => h x (Mentions.quantifier hx)
    have ih' := fun {ρ σ : Env U} => @ih ρ σ
      (fun x hx => h₀ x (Mentions.quantifier hx))
    rw [eval_quantifier I ρ₀ ρ, eval_quantifier I σ₀ σ]
    congr 1
    rw [Bool.eq_iff_iff]
    cases q with
    | all =>
      rw [eval_all, eval_all]
      constructor
      · intro hall σ' hσ'
        rcases exists_rebinds (fun x hx => (hbody x hx).symm) hσ' with
          ⟨ρ', hρ', hagree⟩
        unfold Holds
        rw [← ih' (fun x hx => (hagree x hx).symm)]
        exact hall ρ' hρ'
      · intro hall ρ' hρ'
        rcases exists_rebinds hbody hρ' with ⟨σ', hσ', hagree⟩
        unfold Holds
        rw [ih' hagree]
        exact hall σ' hσ'
    | ex =>
      rw [eval_ex, eval_ex]
      constructor
      · intro ⟨ρ', hρ', hholds⟩
        rcases exists_rebinds hbody hρ' with ⟨σ', hσ', hagree⟩
        unfold Holds at hholds
        rw [ih' hagree] at hholds
        exact ⟨σ', hσ', hholds⟩
      · intro ⟨σ', hσ', hholds⟩
        rcases exists_rebinds (fun x hx => (hbody x hx).symm) hσ' with
          ⟨ρ', hρ', hagree⟩
        unfold Holds at hholds
        rw [← ih' (fun x hx => (hagree x hx).symm)] at hholds
        exact ⟨ρ', hρ', hholds⟩

theorem holds_congr {I : Interp U} {ρ₀ σ₀ : Env U} {e : Expr} {ρ σ : Env U}
    (h₀ : forall x, e.Mentions x -> ρ₀ x = σ₀ x) (h : forall x, e.Mentions x -> ρ x = σ x) :
    e.Holds I ρ₀ ρ <-> e.Holds I σ₀ σ := by
  rw [Holds, Holds, eval_congr h₀ h]

end Expr

/-!
# The variables of an expression
-/

namespace VariableCollector

mutual

def usedVars : Expr -> List Variable
  | .literal _ => []
  | .ident x => [x]
  | .old e => usedVars e
  | .nary _ args => allUsedVars args
  | .quantifier _ _ body => usedVars body

def allUsedVars : List Expr -> List Variable
  | [] => []
  | e :: es => usedVars e ++ allUsedVars es

end

mutual

def oldVarsUsed (insideOldExpr : Bool) : Expr -> List Variable
  | .literal _ => []
  | .ident x => if insideOldExpr then [x] else []
  | .old e => oldVarsUsed true e
  | .nary _ args => allOldVarsUsed insideOldExpr args
  | .quantifier _ _ body => oldVarsUsed insideOldExpr body

def allOldVarsUsed (insideOldExpr : Bool) : List Expr -> List Variable
  | [] => []
  | e :: es => oldVarsUsed insideOldExpr e ++ allOldVarsUsed insideOldExpr es

end

end VariableCollector

end Boogie
