import Boogie.Core.Substituter
import Boogie.Houdini.ReplaceFunctionCalls

/-!
# Inlining function calls

The calls of inline functions are replaced by the bodies of the functions.  The
visitor changes expressions in place, and the arguments of a call are put into
the copy of the body as they are, so that one object can stand at several places
of an expression.
-/

namespace Boogie
namespace InlineFunctionCalls

open ReplaceFunctionCalls (bindParams)

structure Function where
  name : String
  inParams : List Variable
  body : Option Expr
  inline : Bool

def toInline (functions : List Function) : Fun -> Option (Function × Expr)
  | .functionCall functionName => do
      let func ← functions.find? (fun func => func.name = functionName)
      let body ← func.body
      if func.inline then some (func, body) else none
  | _ => none

/-!
# Objects
-/

/-- An expression in which every node that can be changed has an identity. -/
inductive Obj where
  | literal (l : Literal)
  | ident (x : Variable)
  | old (id : Nat) (e : Obj)
  | nary (id : Nat) (f : Fun) (args : List Obj)
  | quantifier (id : Nat) (q : Quantifier) (dummies : List Variable) (body : Obj)

namespace Obj

@[elab_as_elim, induction_eliminator]
theorem inductionOn {P : Obj -> Prop} (literal : forall l, P (.literal l))
    (ident : forall x, P (.ident x)) (old : forall id e, P e -> P (.old id e))
    (nary : forall id f args, (forall a, a ∈ args -> P a) -> P (.nary id f args))
    (quantifier : forall id q dummies body, P body -> P (.quantifier id q dummies body)) :
    forall o, P o := by
  intro o
  exact
    @Obj.rec P (fun args => forall a, a ∈ args -> P a)
      literal ident old nary quantifier
      (by intro a ha; cases ha)
      (by
        intro head tail hhead htail a ha
        rcases List.mem_cons.mp ha with rfl | hmem
        · exact hhead
        · exact htail a hmem)
      o

mutual

def toExpr : Obj -> Expr
  | .literal l => .literal l
  | .ident x => .ident x
  | .old _ e => .old (toExpr e)
  | .nary _ f args => .nary f (toExprSeq args)
  | .quantifier _ q dummies body => .quantifier q dummies (toExpr body)

def toExprSeq : List Obj -> List Expr
  | [] => []
  | a :: args => toExpr a :: toExprSeq args

end

end Obj

/-- `Substituter.Apply`: the nodes are new ones, the replacements are not copied.
The number is the first one that is not an identity yet. -/
def copy (subst : Variable -> Option Obj) : Expr -> Nat -> Obj × Nat
  | .literal l, next => (.literal l, next)
  | .ident x, next => ((subst x).getD (.ident x), next)
  | .old e, next =>
    let (e, next') := copy subst e (next + 1)
    (.old next e, next')
  | .nary f args, next =>
    let (args, next') := copySeq args (next + 1)
    (.nary next f args, next')
  | .quantifier q dummies body, next =>
    let (body, next') := copy subst body (next + 1)
    (.quantifier next q dummies body, next')
where
  copySeq : List Expr -> Nat -> List Obj × Nat
    | [], next => ([], next)
    | e :: es, next =>
      let (e, next) := copy subst e next
      let (es, next) := copySeq es next
      (e :: es, next)

/-- The objects that were changed, with what stands in their places now. -/
structure Heap where
  next : Nat
  changed : Nat -> Option Obj

def Heap.change (σ : Heap) (id : Nat) (o : Obj) : Heap :=
  { σ with changed := Function.update σ.changed id (some o) }

/-!
# The visitor
-/

theorem mem_of_toInline {functions : List Function} {f : Fun} {func : Function}
    {body : Expr} (h : toInline functions f = some (func, body)) :
    func ∈ functions := by
  unfold toInline at h
  split at h
  · simp only [Option.bind_eq_bind, Option.bind_eq_some_iff] at h
    rcases h with ⟨func', hfind, body', _, hsome⟩
    split at hsome
    · cases hsome
      exact List.mem_of_find?_eq_some hfind
    · cases hsome
  · cases h

def remaining (functions : List Function) (stack : List String) : Nat :=
  ((functions.map Function.name).toFinset \ stack.toFinset).card

theorem remaining_push {functions : List Function} {stack : List String}
    {func : Function} (hmem : func ∈ functions) (hnew : func.name ∉ stack) :
    remaining functions (func.name :: stack) < remaining functions stack := by
  apply Finset.card_lt_card
  have hname : func.name ∈
      (functions.map Function.name).toFinset \ stack.toFinset := by
    simp only [Finset.mem_sdiff, List.mem_toFinset]
    exact ⟨List.mem_map_of_mem hmem, hnew⟩
  constructor
  · apply Finset.sdiff_subset_sdiff (Finset.Subset.refl _)
    intro name hstack
    rw [List.mem_toFinset] at hstack ⊢
    exact List.mem_cons_of_mem _ hstack
  · intro hback
    have h := (Finset.mem_sdiff.mp (hback hname)).2
    exact h (List.mem_toFinset.mpr List.mem_cons_self)

def argumentOf {A : Type} (params : List Variable) (args : List A) :
    Variable -> Option A :=
  fun v => (params.zip args).lookup v

mutual

/-- `none` is a `MLHoudiniInternalError`.  An object that was changed has no
calls any more, so a second visit leaves it as it is. -/
def visitExpr (functions : List Function) (inlinedFunctionsStack : List String) :
    Obj -> Heap -> Option (Obj × Heap)
  | .literal l, σ => some (.literal l, σ)
  | .ident x, σ => some (.ident x, σ)
  | .old id e, σ =>
    match σ.changed id with
    | some o => some (o, σ)
    | none => do
        let (e, σ) ← visitExpr functions inlinedFunctionsStack e σ
        some (.old id e, σ.change id (.old id e))
  | .nary id f args, σ =>
    match h : toInline functions f with
    | some (func, body) =>
      if hnew : func.name ∈ inlinedFunctionsStack then none
      else
        let e := copy (argumentOf func.inParams args) body σ.next
        have := remaining_push (mem_of_toInline h) hnew
        visitExpr functions (func.name :: inlinedFunctionsStack) e.1
          { σ with next := e.2 }
    | none =>
      match σ.changed id with
      | some o => some (o, σ)
      | none => do
          let (args, σ) ← visitExprSeq functions inlinedFunctionsStack args σ
          some (.nary id f args, σ.change id (.nary id f args))
  | .quantifier id q dummies body, σ =>
    match σ.changed id with
    | some o => some (o, σ)
    | none => do
        let (body, σ) ← visitExpr functions inlinedFunctionsStack body σ
        some (.quantifier id q dummies body,
          σ.change id (.quantifier id q dummies body))
termination_by o _ => (remaining functions inlinedFunctionsStack, sizeOf o)

def visitExprSeq (functions : List Function)
    (inlinedFunctionsStack : List String) :
    List Obj -> Heap -> Option (List Obj × Heap)
  | [], σ => some ([], σ)
  | a :: args, σ => do
      let (a, σ) ← visitExpr functions inlinedFunctionsStack a σ
      let (args, σ) ← visitExprSeq functions inlinedFunctionsStack args σ
      some (a :: args, σ)
termination_by args _ => (remaining functions inlinedFunctionsStack, sizeOf args)

end

def visit (functions : List Function) (e : Expr) : Option Expr :=
  let o := copy (fun _ => none) e 0
  (visitExpr functions [] o.1 ⟨o.2, fun _ => none⟩).map (fun p => p.1.toExpr)

/-!
# What inlining is for
-/

/-- From a call to the body with the arguments, or to a part of another
expression. -/
inductive Unfolds (functions : List Function) : Expr -> Expr -> Prop where
  | call {f : Fun} {args : List Expr} {func : Function} {body : Expr}
      (h : toInline functions f = some (func, body)) :
      Unfolds functions (.nary f args)
        (Substituter.apply (argumentOf func.inParams args) body)
  | argument {f : Fun} {args : List Expr} {a : Expr}
      (h : toInline functions f = none) (ha : a ∈ args) :
      Unfolds functions (.nary f args) a
  | old {e : Expr} : Unfolds functions (.old e) e
  | quantifier {q : Quantifier} {dummies : List Variable} {body : Expr} :
      Unfolds functions (.quantifier q dummies body) body

/-- Unfolding the expression enters a chain without an end. -/
def Recursive (functions : List Function) (e : Expr) : Prop :=
  exists chain : Nat -> Expr, chain 0 = e ∧
    forall n, Unfolds functions (chain n) (chain (n + 1))

def Defines {U : Type} [DecidableEq U] (I : Interp U) (ρ₀ ρ : Env U)
    (functions : List Function) : Prop :=
  forall f func body, toInline functions f = some (func, body) -> forall us,
    I.apply f us = body.eval I ρ₀ (bindParams func.inParams us ρ)

def SameValue (functions : List Function) (e e' : Expr) : Prop :=
  forall (U : Type) [DecidableEq U] (I : Interp U) (ρ₀ ρ : Env U),
    Defines I ρ₀ ρ functions -> e'.eval I ρ₀ ρ = e.eval I ρ₀ ρ

def WithoutCalls (functions : List Function) (e : Expr) : Prop :=
  forall functionName, e.Calls functionName ->
    toInline functions (.functionCall functionName) = none

structure InlinesCorrectly (functions : List Function) (e : Expr) : Prop where
  throws_iff : visit functions e = none <-> Recursive functions e
  withoutCalls : forall e', visit functions e = some e' ->
    WithoutCalls functions e'
  sameValue : forall e', visit functions e = some e' ->
    SameValue functions e e'

/-- A chain of unfoldings comes to a call of a function that was unfolded before
on the chain. -/
inductive Repeats (functions : List Function) : List String -> Expr -> Prop where
  | again {stack : List String} {f : Fun} {args : List Expr} {func : Function}
      {body : Expr} (h : toInline functions f = some (func, body))
      (hstack : func.name ∈ stack) : Repeats functions stack (.nary f args)
  | call {stack : List String} {f : Fun} {args : List Expr} {func : Function}
      {body : Expr} (h : toInline functions f = some (func, body)) :
      Repeats functions (func.name :: stack)
        (Substituter.apply (argumentOf func.inParams args) body) ->
      Repeats functions stack (.nary f args)
  | argument {stack : List String} {f : Fun} {args : List Expr} {a : Expr}
      (h : toInline functions f = none) (ha : a ∈ args) :
      Repeats functions stack a -> Repeats functions stack (.nary f args)
  | old {stack : List String} {e : Expr} :
      Repeats functions stack e -> Repeats functions stack (.old e)
  | quantifier {stack : List String} {q : Quantifier}
      {dummies : List Variable} {body : Expr} :
      Repeats functions stack body ->
      Repeats functions stack (.quantifier q dummies body)

inductive Binds (x : Variable) : Expr -> Prop where
  | here {q : Quantifier} {dummies : List Variable} {body : Expr} :
      x ∈ dummies -> Binds x (.quantifier q dummies body)
  | quantifier {q : Quantifier} {dummies : List Variable} {body : Expr} :
      Binds x body -> Binds x (.quantifier q dummies body)
  | old {e : Expr} : Binds x e -> Binds x (.old e)
  | nary {f : Fun} {args : List Expr} {a : Expr} :
      a ∈ args -> Binds x a -> Binds x (.nary f args)

/-- The program is resolved: bodies refer to parameters, constants and what they
bind themselves, and what they bind occurs nowhere else. -/
structure Resolved (functions : List Function) (e : Expr) : Prop where
  bindsDummies : e.BindsDummies
  passive : forall f func body, toInline functions f = some (func, body) ->
    body.Passive
  body_bindsDummies : forall f func body,
    toInline functions f = some (func, body) -> body.BindsDummies
  params : forall f func body, toInline functions f = some (func, body) ->
    forall x, x ∈ func.inParams -> x.isBound = false
  free : forall f func body, toInline functions f = some (func, body) ->
    forall x, body.FreeIn x -> x.isBound = false ∧ x.isGlobal = false
  apart : forall f func body, toInline functions f = some (func, body) ->
    forall x, Binds x body -> ¬ e.Mentions x
  body_apart : forall f func body, toInline functions f = some (func, body) ->
    forall g func' body', toInline functions g = some (func', body') ->
      func'.name ≠ func.name -> forall x, Binds x body -> ¬ body'.Mentions x

end InlineFunctionCalls
end Boogie
