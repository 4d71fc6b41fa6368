import Boogie.Houdini.C5Domain

/-!
# Evaluation of predicates

A predicate is evaluated in the state that a model gives.  Without `<==>`,
division and modulus the result is the meaning of the predicate.
-/

namespace Boogie

namespace PredicateAbs

/-!
# The evaluation

An exception is `none`.
-/

structure ArrayFunc where
  tryEval : Model.Element -> Option Model.Element
  otherwise : Option Model.Element

/-- The values of the variables in a state and the arrays of the model. -/
structure State where
  lookup : String -> Option Model.Element
  array : Model.Element -> Option ArrayFunc

inductive Object where
  | bool (b : Bool)
  | num (n : Int)
deriving DecidableEq, Repr

def toValue : Model.Element -> Option Object
  | .integer n => (Model.Element.integer n).asInt.map .num
  | .boolean b => some (.bool b)
  | _ => none

def toElem : Object -> Model.Element
  | .bool b => .boolean b
  | .num n => .integer n

def evaluateUnary : UnaryOperator -> Object -> Option Object
  | .neg, .num n => some (.num (-n))
  | .not, .bool b => some (.bool !b)
  | _, _ => none

def evaluateBinary : BinaryOperator -> Object -> Object -> Option Object
  | .add, .num m, .num n => some (.num (m + n))
  | .sub, .num m, .num n => some (.num (m - n))
  | .mul, .num m, .num n => some (.num (m * n))
  | .div, .num m, .num n => if n = 0 then none else some (.num (m.tdiv n))
  | .mod, .num m, .num n =>
    if n = 0 then none else some (.num (m - m.tdiv n * n))
  | .lt, .num m, .num n => some (.bool (decide (m < n)))
  | .le, .num m, .num n => some (.bool (decide (m ≤ n)))
  | .gt, .num m, .num n => some (.bool (decide (m > n)))
  | .ge, .num m, .num n => some (.bool (decide (m ≥ n)))
  | .and, .bool a, .bool b => some (.bool (a && b))
  | .or, .bool a, .bool b => some (.bool (a || b))
  | .imp, .bool a, .bool b => some (.bool (!a || b))
  | .iff, .bool _, .bool _ => some (.bool false)
  | .eq, a, b => some (.bool (decide (a = b)))
  | .neq, a, b => some (.bool (decide (a ≠ b)))
  | _, _, _ => none

def evalNary (state : State) :
    Fun -> List (Option Model.Element) -> Option Model.Element
  | .unary op, arg :: _ =>
    (arg.bind toValue).bind (fun v => (evaluateUnary op v).map toElem)
  | .binary op, arg :: arg' :: _ =>
    (arg.bind toValue).bind (fun v =>
      (arg'.bind toValue).bind (fun w =>
        (evaluateBinary op v w).map toElem))
  | .mapSelect, [arg, arg'] =>
    arg'.bind (fun index =>
      (arg.bind state.array).bind (fun map =>
        (map.tryEval index).or map.otherwise))
  | _, _ => none

mutual

def eval (state : State) : Expr -> Option Model.Element
  | .literal (.bool b) => some (.boolean b)
  | .literal (.int n) => some (.integer n)
  | .ident x => state.lookup x.name
  | .old (.ident x) => state.lookup ("old(" ++ x.name ++ ")")
  | .old _ => none
  | .nary f args => evalNary state f (evalArgs state args)
  | .quantifier _ _ _ => none

def evalArgs (state : State) : List Expr -> List (Option Model.Element)
  | [] => []
  | a :: as => eval state a :: evalArgs state as

end

def predVal (state : State) (pred : Expr) : Option Bool :=
  match (eval state pred).bind toValue with
  | some (.bool b) => some b
  | _ => none

/-!
# The meaning of predicates
-/

/-- The predicates that have their usual meaning when they are evaluated. -/
inductive Plain : Expr -> Prop where
  | literal (l : Boogie.Literal) : Plain (.literal l)
  | ident (x : Variable) : Plain (.ident x)
  | old (x : Variable) : Plain (.old (.ident x))
  | unary (op : UnaryOperator) {a : Expr} : Plain a -> Plain (.unary op a)
  | binary {op : BinaryOperator} {a b : Expr} :
      op ≠ .iff -> op ≠ .div -> op ≠ .mod -> Plain a -> Plain b -> Plain (.binary op a b)
  | mapSelect {a b : Expr} : Plain a -> Plain b -> Plain (.nary .mapSelect [a, b])

/-- Values for the elements of the model and an environment in which the variables
have the values of the state. -/
structure Denotation (U : Type) [DecidableEq U] (state : State) where
  interp : Interp U
  entry : Env U
  env : Env U
  value : Model.Element -> Value U
  boolean : forall b, value (.boolean b) = .bool b
  integer : forall n, value (.integer n) = .int n
  lookup : forall (x : Variable) el, state.lookup x.name = some el -> env x = value el
  old : forall (x : Variable) el, state.lookup ("old(" ++ x.name ++ ")") = some el ->
    oldEnv entry env x = value el
  select : forall map index array el, state.array map = some array ->
    (array.tryEval index).or array.otherwise = some el ->
      interp.select [value map, value index] = value el

def Object.value (U : Type) : Object -> Value U
  | .bool b => .bool b
  | .num n => .int n

section Meaning

variable {U : Type} [DecidableEq U] {state : State}

omit [DecidableEq U] in
theorem apply_evaluateUnary {op : UnaryOperator} {v r : Object}
    (h : evaluateUnary op v = some r) : op.apply (v.value U) = r.value U := by
  unfold evaluateUnary at h
  split at h
  · cases h
    rfl
  · cases h
    rfl
  · cases h

theorem apply_evaluateBinary {op : BinaryOperator} {v w r : Object} (hiff : op ≠ .iff)
    (hdiv : op ≠ .div) (hmod : op ≠ .mod) (h : evaluateBinary op v w = some r) :
    op.apply (v.value U) (w.value U) = r.value U := by
  have hvalue : forall a b : Object, a.value U = b.value U <-> a = b := by
    intro a b
    cases a with
    | bool p =>
      cases b with
      | bool q => simp [Object.value]
      | num n => simp [Object.value]
    | num m =>
      cases b with
      | bool q => simp [Object.value]
      | num n => simp [Object.value]
  unfold evaluateBinary at h
  split at h
  all_goals first
    | (exact absurd rfl hiff)
    | (exact absurd rfl hdiv)
    | (exact absurd rfl hmod)
    | (cases h; rfl)
    | (cases h; exact congrArg Value.bool (decide_eq_decide.mpr (hvalue v w)))
    | (cases h; exact congrArg Value.bool (decide_eq_decide.mpr (not_congr (hvalue v w))))
    | cases h

namespace Denotation

variable (D : Denotation U state)

theorem value_of_toValue {el : Model.Element} {v : Object} (h : toValue el = some v) :
    D.value el = v.value U := by
  unfold toValue at h
  split at h
  · next n =>
      rw [Option.map_eq_some_iff] at h
      rcases h with ⟨k, hk, rfl⟩
      rw [Model.Element.asInt, Option.ite_none_right_eq_some] at hk
      rcases hk with ⟨_, hk⟩
      cases hk
      exact D.integer n
  · cases h
    exact D.boolean _
  · cases h

theorem value_toElem (v : Object) : D.value (toElem v) = v.value U := by
  cases v with
  | bool b => exact D.boolean b
  | num n => exact D.integer n

theorem eval_eq {e : Expr} (he : Plain e) {el : Model.Element}
    (h : PredicateAbs.eval state e = some el) :
    e.eval D.interp D.entry D.env = D.value el := by
  induction he generalizing el with
  | literal l =>
    cases l with
    | bool b =>
      cases h
      exact (D.boolean b).symm
    | int n =>
      cases h
      exact (D.integer n).symm
  | ident x => exact D.lookup x el h
  | old x => exact D.old x el h
  | unary op _ ih =>
    unfold Expr.unary at h
    rw [PredicateAbs.eval, evalArgs, evalArgs, evalNary, Option.bind_eq_some_iff] at h
    rcases h with ⟨v, hv, h⟩
    rw [Option.bind_eq_some_iff] at hv
    rcases hv with ⟨arg, harg, hv⟩
    rw [Option.map_eq_some_iff] at h
    rcases h with ⟨r, hr, rfl⟩
    rw [D.value_toElem, ← apply_evaluateUnary hr, ← D.value_of_toValue hv, ← ih harg]
    exact Expr.eval_nary _ _ _ _ _
  | binary hiff hdiv hmod _ _ iha ihb =>
    unfold Expr.binary at h
    rw [PredicateAbs.eval, evalArgs, evalArgs, evalArgs, evalNary,
      Option.bind_eq_some_iff] at h
    rcases h with ⟨v, hv, h⟩
    rw [Option.bind_eq_some_iff] at hv h
    rcases hv with ⟨arg, harg, hv⟩
    rcases h with ⟨w, hw, h⟩
    rw [Option.bind_eq_some_iff] at hw
    rcases hw with ⟨arg', harg', hw⟩
    rw [Option.map_eq_some_iff] at h
    rcases h with ⟨r, hr, rfl⟩
    rw [D.value_toElem, ← apply_evaluateBinary hiff hdiv hmod hr, ← D.value_of_toValue hv,
      ← D.value_of_toValue hw, ← iha harg, ← ihb harg']
    exact Expr.eval_nary _ _ _ _ _
  | mapSelect _ _ iha ihb =>
    rw [PredicateAbs.eval, evalArgs, evalArgs, evalArgs, evalNary,
      Option.bind_eq_some_iff] at h
    rcases h with ⟨index, hindex, h⟩
    rw [Option.bind_eq_some_iff] at h
    rcases h with ⟨array, harray, h⟩
    rw [Option.bind_eq_some_iff] at harray
    rcases harray with ⟨map, hmap, harray⟩
    rw [← D.select map index array el harray h, ← iha hmap, ← ihb hindex]
    exact Expr.eval_nary _ _ _ _ _

theorem holds_iff {p : Expr} (hp : Plain p) {b : Bool} (h : predVal state p = some b) :
    p.Holds D.interp D.entry D.env <-> b = true := by
  unfold predVal at h
  split at h
  · next v hv =>
      cases h
      rw [Option.bind_eq_some_iff] at hv
      rcases hv with ⟨el, hel, hv⟩
      rw [Expr.Holds, D.eval_eq hp hel, D.value_of_toValue hv]
      rfl
  · cases h

/-- The predicates that are true: for others than the plain ones, what the
evaluation returns. -/
def Truth (preds : List Expr) (i : Nat) : Prop :=
  exists p, preds[i]? = some p ∧ (Plain p -> p.Holds D.interp D.entry D.env) ∧
    (¬ Plain p -> predVal state p = some true)

end Denotation

end Meaning

end PredicateAbs

end Boogie
