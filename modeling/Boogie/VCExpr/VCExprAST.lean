import Boogie.Core.Expr
import Mathlib.Tactic.Tauto

/-!
# Verification conditions

The prover-independent formulas, their generator with its simplifying
constructors, and what the formulas mean.
-/

namespace Boogie

/-!
# Syntax
-/

/--
A variable of a formula: the one a program variable is translated to, or one
that the generator allocates for the formula of a block.
-/
inductive VCExprVar where
  | ofVariable (x : Variable)
  | letVariable (number : Nat) (name : String)
deriving DecidableEq, Repr

def VCExprVar.type : VCExprVar -> Ty
  | ofVariable x => x.type
  | letVariable _ _ => .bool

inductive VCExprOp where
  | notOp | eqOp | neqOp | andOp | orOp | impliesOp
  | addIOp | subIOp | mulIOp | divIOp | modOp
  | ltOp | leOp | gtOp | geOp
  | ifThenElseOp | selectOp | storeOp
  | labelOp (pos : Bool) (label : String)
  | boogieFunctionOp (func : String)
  | controlFlowFunctionOp
deriving DecidableEq, Repr

inductive VCExpr where
  | literal (b : Bool)
  | intLit (n : Int)
  | var (x : VCExprVar)
  | nary (op : VCExprOp) (args : List VCExpr)
  | quantifier (quan : Quantifier) (boundVars : List VCExprVar) (body : VCExpr)
  | letExpr (bindings : List (VCExprVar × VCExpr)) (body : VCExpr)
deriving Repr

/-!
# The generator

The constructors whose names end in `Simp` simplify; the others do not.
-/

namespace VCExpressionGenerator

def True : VCExpr :=
  .literal true

def False : VCExpr :=
  .literal false

def equalsTrue : VCExpr -> Bool
  | .literal b => b
  | _ => false

def equalsFalse : VCExpr -> Bool
  | .literal b => !b
  | _ => false

def not (e0 : VCExpr) : VCExpr :=
  .nary .notOp [e0]

def eq (e0 e1 : VCExpr) : VCExpr :=
  .nary .eqOp [e0, e1]

def and (e0 e1 : VCExpr) : VCExpr :=
  .nary .andOp [e0, e1]

def implies (e0 e1 : VCExpr) : VCExpr :=
  .nary .impliesOp [e0, e1]

def controlFlowFunctionApplication (e1 e2 : VCExpr) : VCExpr :=
  .nary .controlFlowFunctionOp [e1, e2]

def notSimp (e0 : VCExpr) : VCExpr :=
  if equalsTrue e0 then False
  else if equalsFalse e0 then True
  else not e0

def andSimp (e0 e1 : VCExpr) : VCExpr :=
  if equalsTrue e0 then e1
  else if equalsTrue e1 then e0
  else if equalsFalse e0 || equalsFalse e1 then False
  else and e0 e1

mutual

def andSize : VCExpr -> Nat
  | .nary .andOp args => andSizeOfFirst args
  | _ => 1

def andSizeOfFirst : List VCExpr -> Nat
  | [] => 1
  | e :: _ => andSize e + 1

end

mutual

/-- The loop of `impliesSimp`: antecedents of `e1` move into `e0`. -/
def combineAntecedents : VCExpr -> VCExpr -> VCExpr
  | .nary .impliesOp args, e0 => combineArgs args e0
  | e1, e0 => implies e0 e1

def combineArgs : List VCExpr -> VCExpr -> VCExpr
  | [n0, n1], e0 =>
    if andSize n0 ≤ andSize e0 then combineAntecedents n1 (and e0 n0)
    else implies e0 (implies n0 n1)
  | args, e0 => implies e0 (.nary .impliesOp args)

end

def impliesSimp (e0 e1 : VCExpr) : VCExpr :=
  if equalsTrue e0 then e1
  else if equalsFalse e1 then notSimp e0
  else if equalsFalse e0 || equalsTrue e1 then True
  else combineAntecedents e1 e0

/-- `NAry` with the operator for conjunction: a left fold. -/
def naryAnd (args : List VCExpr) : VCExpr :=
  args.foldl andSimp True

def labelNeg (label : String) (e : VCExpr) : VCExpr :=
  if equalsTrue e then e else .nary (.labelOp false label) [e]

def labelPos (label : String) (e : VCExpr) : VCExpr :=
  .nary (.labelOp true label) [e]

def letBindings (bindings : List (VCExprVar × VCExpr)) (body : VCExpr) :
    VCExpr :=
  if bindings.isEmpty then body else .letExpr bindings body

end VCExpressionGenerator

/-!
# Meaning

All bindings of a `let` hold simultaneously, whatever their order: the body is
read in a solution of the bindings.  The variables bound are Boolean.
-/

structure VCInterp (U : Type) extends Interp U where
  controlFlow : Int -> Int -> Int

abbrev VCEnv (U : Type) := VCExprVar -> Value U

variable {U : Type} [DecidableEq U]

def VCInterp.apply (M : VCInterp U) : VCExprOp -> List (Value U) -> Value U
  | .notOp, [v] => UnaryOperator.not.apply v
  | .eqOp, [v, w] => BinaryOperator.eq.apply v w
  | .neqOp, [v, w] => BinaryOperator.neq.apply v w
  | .andOp, [v, w] => BinaryOperator.and.apply v w
  | .orOp, [v, w] => BinaryOperator.or.apply v w
  | .impliesOp, [v, w] => BinaryOperator.imp.apply v w
  | .addIOp, [v, w] => BinaryOperator.add.apply v w
  | .subIOp, [v, w] => BinaryOperator.sub.apply v w
  | .mulIOp, [v, w] => BinaryOperator.mul.apply v w
  | .divIOp, [v, w] => BinaryOperator.div.apply v w
  | .modOp, [v, w] => BinaryOperator.mod.apply v w
  | .ltOp, [v, w] => BinaryOperator.lt.apply v w
  | .leOp, [v, w] => BinaryOperator.le.apply v w
  | .gtOp, [v, w] => BinaryOperator.gt.apply v w
  | .geOp, [v, w] => BinaryOperator.ge.apply v w
  | .ifThenElseOp, [c, t, e] => if c.truth then t else e
  | .selectOp, vs => M.select vs
  | .storeOp, vs => M.store vs
  | .labelOp _ _, [v] => v
  | .boogieFunctionOp func, vs => M.func func vs
  | .controlFlowFunctionOp, [v, w] => .int (M.controlFlow v.toInt w.toInt)
  | _, _ => .bool false

def VCEnv.Rebinds (M : VCInterp U) (η' η : VCEnv U) (xs : List VCExprVar) :
    Prop :=
  (forall x, x ∉ xs -> η' x = η x) ∧
    forall x, x ∈ xs -> M.HasType (η' x) x.type

namespace VCExpr

mutual

noncomputable def eval (M : VCInterp U) : VCExpr -> VCEnv U -> Value U
  | .literal b, _ => .bool b
  | .intLit n, _ => .int n
  | .var x, η => η x
  | .nary op args, η => M.apply op (evalArgs M args η)
  | .quantifier .all xs body, η =>
    .bool (@decide (forall η' : VCEnv U, η'.Rebinds M η xs ->
      (eval M body η').truth = true) (Classical.propDecidable _))
  | .quantifier .ex xs body, η =>
    .bool (@decide (exists η' : VCEnv U, η'.Rebinds M η xs ∧
      (eval M body η').truth = true) (Classical.propDecidable _))
  | .letExpr bindings body, η =>
    @dite _ (exists η' : VCEnv U,
        (forall x, x ∉ bindings.map Prod.fst -> η' x = η x) ∧
          Solves M bindings η')
      (Classical.propDecidable _)
      (fun h => eval M body (Classical.choose h)) (fun _ => .bool false)

noncomputable def evalArgs (M : VCInterp U) :
    List VCExpr -> VCEnv U -> List (Value U)
  | [], _ => []
  | a :: as, η => eval M a η :: evalArgs M as η

noncomputable def Solves (M : VCInterp U) : List (VCExprVar × VCExpr) -> VCEnv U -> Prop
  | [], _ => True
  | b :: bs, η => SolvesBinding M b η ∧ Solves M bs η

noncomputable def SolvesBinding (M : VCInterp U) : VCExprVar × VCExpr -> VCEnv U -> Prop
  | (x, e), η => η x = .bool (eval M e η).truth

end

def Holds (M : VCInterp U) (η : VCEnv U) (e : VCExpr) : Prop :=
  (e.eval M η).truth = true

variable {M : VCInterp U} {η : VCEnv U}

theorem evalArgs_eq_map (args : List VCExpr) :
    evalArgs M args η = args.map (fun a => a.eval M η) := by
  induction args with
  | nil => rfl
  | cons a rest ih =>
    rw [List.map_cons, ← ih]
    rfl

@[simp] theorem eval_literal (b : Bool) :
    (VCExpr.literal b).eval M η = .bool b := by
  rfl

@[simp] theorem eval_intLit (n : Int) :
    (VCExpr.intLit n).eval M η = .int n := by
  rfl

@[simp] theorem eval_var (x : VCExprVar) :
    (VCExpr.var x).eval M η = η x := by
  rfl

@[simp] theorem eval_nary (op : VCExprOp) (args : List VCExpr) :
    (VCExpr.nary op args).eval M η = M.apply op (args.map (fun a => a.eval M η)) := by
  rw [← evalArgs_eq_map]
  rfl

theorem eval_quantifier (q : Quantifier) (xs : List VCExprVar) (body : VCExpr) :
    (VCExpr.quantifier q xs body).eval M η =
      .bool ((VCExpr.quantifier q xs body).eval M η).truth := by
  cases q <;> rfl

theorem eval_all (xs : List VCExprVar) (body : VCExpr) :
    ((VCExpr.quantifier .all xs body).eval M η).truth = true <->
      forall η' : VCEnv U, η'.Rebinds M η xs -> body.Holds M η' := by
  exact @decide_eq_true_iff _ (Classical.propDecidable _)

theorem eval_ex (xs : List VCExprVar) (body : VCExpr) :
    ((VCExpr.quantifier .ex xs body).eval M η).truth = true <->
      exists η' : VCEnv U, η'.Rebinds M η xs ∧ body.Holds M η' := by
  exact @decide_eq_true_iff _ (Classical.propDecidable _)

theorem solves_iff {bindings : List (VCExprVar × VCExpr)} :
    Solves M bindings η <-> forall b, b ∈ bindings -> η b.1 = .bool (b.2.eval M η).truth := by
  induction bindings with
  | nil => exact ⟨fun _ b hb => absurd hb List.not_mem_nil, fun _ => trivial⟩
  | cons b bs ih =>
    rcases b with ⟨x, e⟩
    rw [List.forall_mem_cons, ← ih]
    rfl

/-- `η'` solves the bindings and agrees with `η` on the other variables. -/
structure IsSolution (M : VCInterp U) (bindings : List (VCExprVar × VCExpr))
    (η η' : VCEnv U) : Prop where
  agrees : forall x, x ∉ bindings.map Prod.fst -> η' x = η x
  solves : forall b, b ∈ bindings -> η' b.1 = .bool (b.2.eval M η').truth

theorem holds_letExpr
    {bindings : List (VCExprVar × VCExpr)} {body : VCExpr} {P : Prop}
    (hsolution : exists η', IsSolution M bindings η η')
    (hbody : forall η', IsSolution M bindings η η' -> (body.Holds M η' <-> P)) :
    (VCExpr.letExpr bindings body).Holds M η <-> P := by
  have hex : exists η' : VCEnv U,
      (forall x, x ∉ bindings.map Prod.fst -> η' x = η x) ∧
        Solves M bindings η' := by
    rcases hsolution with ⟨η', h⟩
    exact ⟨η', h.agrees, solves_iff.mpr h.solves⟩
  have hchosen := Classical.choose_spec hex
  have hsol : IsSolution M bindings η (Classical.choose hex) :=
    ⟨hchosen.1, solves_iff.mp hchosen.2⟩
  unfold Holds
  rw [eval, dif_pos hex]
  exact hbody _ hsol

end VCExpr

/-!
# Meaning of the constructors
-/

namespace VCExpressionGenerator

open VCExpr

variable {M : VCInterp U} {η : VCEnv U}

@[simp] theorem holds_literal {b : Bool} :
    (VCExpr.literal b).Holds M η <-> b = true := by
  simp [Holds]

@[simp] theorem holds_True : True.Holds M η := by
  simp [True]

@[simp] theorem not_holds_False : ¬ False.Holds M η := by
  simp [False]

theorem eq_True_of_equalsTrue {e : VCExpr} (h : equalsTrue e = true) :
    e = True := by
  cases e with
  | literal b => simpa [equalsTrue, True] using h
  | _ => simp [equalsTrue] at h

theorem eq_False_of_equalsFalse {e : VCExpr} (h : equalsFalse e = true) :
    e = False := by
  cases e with
  | literal b => simpa [equalsFalse, False] using h
  | _ => simp [equalsFalse] at h

@[simp] theorem holds_not {e : VCExpr} :
    (not e).Holds M η <-> ¬ e.Holds M η := by
  rw [not, Holds, eval_nary]
  change (!(e.eval M η).truth) = true <-> _
  simp [Holds]

@[simp] theorem holds_and {e0 e1 : VCExpr} :
    (and e0 e1).Holds M η <-> e0.Holds M η ∧ e1.Holds M η := by
  rw [and, Holds, eval_nary]
  change ((e0.eval M η).truth && (e1.eval M η).truth) = true <-> _
  simp [Holds]

@[simp] theorem holds_implies {e0 e1 : VCExpr} :
    (implies e0 e1).Holds M η <-> (e0.Holds M η -> e1.Holds M η) := by
  rw [implies, Holds, Holds, Holds, eval_nary]
  change (!(e0.eval M η).truth || (e1.eval M η).truth) = true <-> _
  cases (e0.eval M η).truth <;> simp

@[simp] theorem holds_eq {e0 e1 : VCExpr} :
    (eq e0 e1).Holds M η <-> e0.eval M η = e1.eval M η := by
  rw [eq, Holds, eval_nary]
  change decide (e0.eval M η = e1.eval M η) = true <-> _
  rw [decide_eq_true_eq]

@[simp] theorem holds_notSimp {e : VCExpr} :
    (notSimp e).Holds M η <-> ¬ e.Holds M η := by
  unfold notSimp
  split
  · rename_i h
    simp [eq_True_of_equalsTrue h]
  · split
    · rename_i h
      simp [eq_False_of_equalsFalse h]
    · simp

@[simp] theorem holds_andSimp {e0 e1 : VCExpr} :
    (andSimp e0 e1).Holds M η <-> e0.Holds M η ∧ e1.Holds M η := by
  unfold andSimp
  split
  · rename_i h
    simp [eq_True_of_equalsTrue h]
  · split
    · rename_i h
      simp [eq_True_of_equalsTrue h]
    · split
      · rename_i h
        rcases Bool.or_eq_true _ _ |>.mp h with h0 | h1
        · simp [eq_False_of_equalsFalse h0]
        · simp [eq_False_of_equalsFalse h1]
      · simp

theorem holds_combineAntecedents {e1 e0 : VCExpr} :
    (combineAntecedents e1 e0).Holds M η <-> (e0.Holds M η -> e1.Holds M η) := by
  refine combineAntecedents.induct
    (fun e1 e0 => (combineAntecedents e1 e0).Holds M η <->
      (e0.Holds M η -> e1.Holds M η))
    (fun args e0 => (combineArgs args e0).Holds M η <->
      (e0.Holds M η -> (VCExpr.nary .impliesOp args).Holds M η))
    ?_ ?_ ?_ ?_ ?_ e1 e0
  · intro args e0 ih
    simpa [combineAntecedents] using ih
  · intro e1 e0 hne
    simp [combineAntecedents]
  · intro n0 n1 e0 hle ih
    have himp : (VCExpr.nary .impliesOp [n0, n1]) = implies n0 n1 := rfl
    rw [combineArgs, if_pos hle, ih, himp]
    simp only [holds_and, holds_implies]
    tauto
  · intro n0 n1 e0 hle
    have himp : (VCExpr.nary .impliesOp [n0, n1]) = implies n0 n1 := rfl
    rw [combineArgs, if_neg hle, himp]
    exact holds_implies
  · intro args e0 hne
    simp [combineArgs]

@[simp] theorem holds_impliesSimp {e0 e1 : VCExpr} :
    (impliesSimp e0 e1).Holds M η <-> (e0.Holds M η -> e1.Holds M η) := by
  unfold impliesSimp
  split
  · rename_i h
    simp [eq_True_of_equalsTrue h]
  · split
    · rename_i h
      simp [eq_False_of_equalsFalse h]
    · split
      · rename_i h
        rcases Bool.or_eq_true _ _ |>.mp h with h0 | h1
        · simp [eq_False_of_equalsFalse h0]
        · simp [eq_True_of_equalsTrue h1]
      · exact holds_combineAntecedents

theorem holds_foldl_andSimp {args : List VCExpr} {e : VCExpr} :
    (args.foldl andSimp e).Holds M η <-> e.Holds M η ∧ forall a, a ∈ args -> a.Holds M η := by
  induction args generalizing e with
  | nil => simp
  | cons a rest ih => simp [ih, and_assoc]

@[simp] theorem holds_naryAnd {args : List VCExpr} :
    (naryAnd args).Holds M η <-> forall a, a ∈ args -> a.Holds M η := by
  simp [naryAnd, holds_foldl_andSimp]

@[simp] theorem holds_labelPos {label : String} {e : VCExpr} :
    (labelPos label e).Holds M η <-> e.Holds M η := by
  rw [labelPos, Holds, eval_nary]
  exact Iff.rfl

@[simp] theorem holds_labelNeg {label : String} {e : VCExpr} :
    (labelNeg label e).Holds M η <-> e.Holds M η := by
  unfold labelNeg
  split
  · exact Iff.rfl
  · rw [Holds, eval_nary]
    exact Iff.rfl

end VCExpressionGenerator

end Boogie
