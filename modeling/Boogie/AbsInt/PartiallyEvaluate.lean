import Boogie.AbsInt.IntervalDomain
import Boogie.Basetypes.BigDecArithmetic
import Mathlib.Algebra.Order.Field.Basic

/-!
# Evaluating expressions to intervals

The visitor evaluates an expression to bounds. A Boolean is at least 1 if it is
known to be true and less than 1 if it is known to be false.
-/

namespace Boogie
namespace AbstractInterpretation

open Basetypes (BigDec)

/-!
# Expressions
-/

inductive Ty where
  | bool
  | int
  | real
  | other
deriving DecidableEq, Repr

inductive Literal where
  | bigNum (n : Int)
  | bigDec (d : BigDec)
  | bool (b : Bool)
deriving DecidableEq, Repr

inductive UnaryOp where
  | neg
  | not
deriving DecidableEq, Repr

inductive BinaryOp where
  | add
  | sub
  | mul
  | div
  | mod
  | realDiv
  | pow
  | eq
  | neq
  | gt
  | ge
  | lt
  | le
  | and
  | or
  | imp
  | iff
deriving DecidableEq, Repr

/-- The function of `identity` is marked by the user as the identity; what the
visitor does not look into is `other`. -/
inductive Expr (Variable : Type*) where
  | literal (l : Literal)
  | ident (v : Variable)
  | unary (op : UnaryOp) (a : Expr Variable)
  | binary (op : BinaryOp) (a b : Expr Variable)
  | ifThenElse (c a b : Expr Variable)
  | identity (a : Expr Variable)
  | other (type : Ty)
deriving Repr

variable {Variable : Type*}

/-- The type of a well-typed expression; `types` has the declared ones. -/
def Expr.type (types : Variable -> Ty) : Expr Variable -> Ty
  | .literal (.bigNum _) => .int
  | .literal (.bigDec _) => .real
  | .literal (.bool _) => .bool
  | .ident v => types v
  | .unary .neg a => a.type types
  | .unary .not _ => .bool
  | .binary .add a _ => a.type types
  | .binary .sub a _ => a.type types
  | .binary .mul a _ => a.type types
  | .binary .div _ _ => .int
  | .binary .mod _ _ => .int
  | .binary .realDiv _ _ => .real
  | .binary .pow _ _ => .real
  | .binary _ _ _ => .bool
  | .ifThenElse _ a _ => a.type types
  | .identity a => a.type types
  | .other type => type

/-!
# The visitor
-/

def unknown : Bounds := (none, none)
def isTrue : Bounds := (some 1, none)
def isFalse : Bounds := (none, some 1)

def unit (n : Int) : Bounds := (some n, some (n + 1))

def visitLiteral : Literal -> Bounds
  | .bigNum n => unit n
  | .bigDec d => unit (d.floor (some (-10 ^ 12)) (some (10 ^ 12)))
  | .bool true => isTrue
  | .bool false => isFalse

def visitNeg (b : Bounds) : Bounds :=
  (match b.2 with
    | some hi => some (1 - hi)
    | none => b.1,
   match b.1 with
    | some lo => some (1 - lo)
    | none => b.2)

def visitUnary : UnaryOp -> Bounds -> Bounds
  | .neg, b => visitNeg b
  | .not, b => b.swap

def both (p : Int -> Int -> Bool) : Option Int -> Option Int -> Bool
  | some x, some y => p x y
  | _, _ => false

def visitIff (b c : Bounds) : Bounds :=
  if b.1.isSome && c.1.isSome then isTrue
  else if b.2.isSome && c.2.isSome then isTrue
  else if b.1.isSome && c.2.isSome then isFalse
  else if b.2.isSome && c.1.isSome then isFalse
  else unknown

def sameUnit (b c : Bounds) : Bool :=
  both (fun lo hi => lo + 1 = hi) b.1 b.2 && both (fun lo lo' => lo = lo') b.1 c.1 &&
    both (fun lo hi => lo + 1 = hi) c.1 c.2

def visitEq (bool : Bool) (b c : Bounds) : Bounds :=
  if bool then visitIff b c
  else if both (fun hi lo => hi ≤ lo) b.2 c.1 then isFalse
  else if both (fun hi lo => hi ≤ lo) c.2 b.1 then isFalse
  else if sameUnit b c then isTrue
  else unknown

def visitLe (b c : Bounds) : Bounds :=
  if both (fun hi lo => hi - 1 ≤ lo) b.2 c.1 then isTrue
  else if both (fun hi lo => hi ≤ lo) c.2 b.1 then isFalse
  else unknown

def visitLt (b c : Bounds) : Bounds :=
  if both (fun hi lo => hi ≤ lo) b.2 c.1 then isTrue
  else if both (fun hi lo => hi - 1 ≤ lo) c.2 b.1 then isFalse
  else unknown

def combine (f : Int -> Int -> Int) : Option Int -> Option Int -> Option Int
  | some x, some y => some (f x y)
  | _, _ => none

def visitMul (b c : Bounds) : Bounds :=
  match b.1, c.1 with
  | some lo, some lo' =>
    if 0 ≤ lo ∧ 0 ≤ lo' then
      (some (lo * lo'), combine (fun hi hi' => (hi - 1) * (hi' - 1) + 1) b.2 c.2)
    else if lo < 0 ∧ lo' < 0 then (none, some (lo * lo' + 1))
    else unknown
  | _, _ => unknown

def visitQuotient (hi : Option Int) (b c : Bounds) : Bounds :=
  if both (fun lo lo' => 0 ≤ lo ∧ 0 ≤ lo') b.1 c.1 then (some 0, hi) else unknown

/-- `bool` says whether the first operand is Boolean. -/
def visitBinary (bool : Bool) : BinaryOp -> Bounds -> Bounds -> Bounds
  | .and, b, c =>
    if b.2.isSome || c.2.isSome then isFalse
    else if b.1.isSome && c.1.isSome then isTrue
    else unknown
  | .or, b, c =>
    if b.1.isSome || c.1.isSome then isTrue
    else if b.2.isSome && c.2.isSome then isFalse
    else unknown
  | .imp, b, c =>
    if b.2.isSome || c.1.isSome then isTrue
    else if b.1.isSome && c.2.isSome then isFalse
    else unknown
  | .iff, b, c => visitIff b c
  | .eq, b, c => visitEq bool b c
  | .neq, b, c => (visitEq bool b c).swap
  | .le, b, c => visitLe b c
  | .gt, b, c => (visitLe b c).swap
  | .lt, b, c => visitLt b c
  | .ge, b, c => (visitLt b c).swap
  | .add, b, c =>
    (combine (fun lo lo' => lo + lo') b.1 c.1,
      combine (fun hi hi' => hi + hi' - 1) b.2 c.2)
  | .sub, b, c =>
    (combine (fun lo hi => lo - hi + 1) b.1 c.2,
      combine (fun hi lo => hi - lo) b.2 c.1)
  | .mul, b, c => visitMul b c
  | .div, b, c => visitQuotient b.2 b c
  | .mod, b, c => visitQuotient c.2 b c
  | .realDiv, b, c => visitQuotient c.2 b c
  | .pow, b, c => visitQuotient c.2 b c

def visitIfThenElse (guard b c : Bounds) : Bounds :=
  if guard.1.isSome then b
  else if guard.2.isSome then c
  else (Node.min b.1 c.1 false, Node.max b.2 c.2 false)

section Visitor

variable [LinearOrder Variable] (types : Variable -> Ty)

def partiallyEvaluate (node : List (Node Variable)) : Expr Variable -> Bounds
  | .literal l => visitLiteral l
  | .ident v =>
    match types v with
    | .bool => Node.getBounds node v
    | .int => Node.getBounds node v
    | .real => Node.getBounds node v
    | .other => unknown
  | .unary op a => visitUnary op (partiallyEvaluate node a)
  | .binary op a b =>
    visitBinary (a.type types = .bool) op (partiallyEvaluate node a)
      (partiallyEvaluate node b)
  | .ifThenElse c a b =>
    visitIfThenElse (partiallyEvaluate node c) (partiallyEvaluate node a)
      (partiallyEvaluate node b)
  | .identity a => partiallyEvaluate node a
  | .other _ => unknown

/-- A parallel assignment: the right-hand sides are evaluated in the old state. -/
def update (element : Element Variable) (cmd : List (Variable × Expr Variable)) :
    Element Variable :=
  match element with
  | .bottom => .bottom
  | .e n =>
    .e (cmd.foldl (fun nn (lhs, rhs) =>
      updateOne nn lhs (partiallyEvaluate types n rhs).1
        (partiallyEvaluate types n rhs).2) n)

end Visitor

/-!
# Meaning
-/

inductive Value (K : Type*) where
  | bool (b : Bool)
  | int (z : Int)
  | real (x : K)
  | other

section Meaning

variable {K : Type*} [Field K] [LinearOrder K]

namespace Value

def type : Value K -> Ty
  | .bool _ => .bool
  | .int _ => .int
  | .real _ => .real
  | .other => .other

def num : Value K -> K
  | .bool true => 1
  | .bool false => 0
  | .int z => z
  | .real x => x
  | .other => 0

end Value

def evalLiteral : Literal -> Value K
  | .bigNum n => .int n
  | .bigDec d => .real (d.value : K)
  | .bool b => .bool b

def evalUnary : UnaryOp -> Value K -> Option (Value K)
  | .neg, .int z => some (.int (-z))
  | .neg, .real x => some (.real (-x))
  | .not, .bool b => some (.bool !b)
  | _, _ => none

def evalBool : BinaryOp -> Bool -> Bool -> Option (Value K)
  | .and, p, q => some (.bool (p && q))
  | .or, p, q => some (.bool (p || q))
  | .imp, p, q => some (.bool (!p || q))
  | .iff, p, q => some (.bool (p == q))
  | .eq, p, q => some (.bool (p == q))
  | .neq, p, q => some (.bool (p != q))
  | _, _, _ => none

def evalCompare {N : Type*} [LinearOrder N] :
    BinaryOp -> N -> N -> Option (Value K)
  | .eq, x, y => some (.bool (x = y))
  | .neq, x, y => some (.bool (x ≠ y))
  | .le, x, y => some (.bool (x ≤ y))
  | .lt, x, y => some (.bool (x < y))
  | .ge, x, y => some (.bool (y ≤ x))
  | .gt, x, y => some (.bool (y < x))
  | _, _, _ => none

def evalInt : BinaryOp -> Int -> Int -> Option (Value K)
  | .add, x, y => some (.int (x + y))
  | .sub, x, y => some (.int (x - y))
  | .mul, x, y => some (.int (x * y))
  | .div, x, y => if y = 0 then none else some (.int (x / y))
  | .mod, x, y => if y = 0 then none else some (.int (x % y))
  | .realDiv, x, y => if y = 0 then none else some (.real (x / y))
  | op, x, y => evalCompare op x y

def evalReal : BinaryOp -> K -> K -> Option (Value K)
  | .add, x, y => some (.real (x + y))
  | .sub, x, y => some (.real (x - y))
  | .mul, x, y => some (.real (x * y))
  | .realDiv, x, y => if y = 0 then none else some (.real (x / y))
  | op, x, y => evalCompare op x y

def evalBinary (op : BinaryOp) : Value K -> Value K -> Option (Value K)
  | .bool p, .bool q => evalBool op p q
  | .int x, .int y => evalInt op x y
  | .real x, .real y => evalReal op x y
  | _, _ => none

/-- The value of an expression, if it has one: an expression that the visitor does
not look into has none, and of a conditional only one branch needs one. -/
def eval (σ : Variable -> Value K) : Expr Variable -> Option (Value K)
  | .literal l => some (evalLiteral l)
  | .ident v => some (σ v)
  | .unary op a => (eval σ a).bind (evalUnary op)
  | .binary op a b => (eval σ a).bind (fun x => (eval σ b).bind (evalBinary op x))
  | .ifThenElse c a b =>
    match eval σ c with
    | some (.bool true) => eval σ a
    | some (.bool false) => eval σ b
    | _ => none
  | .identity a => eval σ a
  | .other _ => none

end Meaning

end AbstractInterpretation
end Boogie
