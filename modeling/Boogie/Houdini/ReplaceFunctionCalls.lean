import Mathlib.Algebra.Order.BigOperators.Group.List
import Mathlib.Algebra.Order.Group.Nat
import Boogie.Core.Binders
import Boogie.Core.GenKillWeight
import Boogie.Core.Visits
import Boogie.Foundation.Text
import Boogie.Graph.Graph

/-!
# Calls of existential functions

Each call is replaced by the application of a fresh Boolean function to the
outermost bound variables that the call uses.  The visitor remembers that it is
inside of a call until an application around the call has been visited.
-/

namespace Boogie

namespace ReplaceFunctionCalls

open VariableCollector (usedVars allUsedVars)

/-!
# The visitor
-/

inductive Error where
  | absHoudiniInternalError
  | argumentException
deriving DecidableEq, Repr

structure BoolFunction where
  name : String
  inParams : List Variable
deriving DecidableEq, Repr

structure FunctionUsed where
  functionName : String
  constant : BoolFunction
  call : Expr
deriving DecidableEq, Repr

structure Visitor where
  inFunction : Bool
  idCounter : Nat
  functionsUsed : List FunctionUsed
  functionsAssumed : List String
  functionsAsserted : List String

def constantName (n : Nat) : String :=
  "AbsHoudiniConstant" ++ toString n

def outermostBound : List (List Variable) -> Expr -> List Variable
  | [], _ => []
  | outermost :: _, node =>
    ((usedVars node).foldl hashSetAdd []).filter (fun v => v ∈ outermost)

def boundInside (boundVars : List (List Variable)) (name : String) : Bool :=
  boundVars.tail.any (fun dummies => dummies.any (fun v => v.name = name))

section Visiting

variable (functionsToReplace : List String) (inAssume inAssert : Bool)

def found (functions : List String) (inside : Bool) (func : String) :
    List String :=
  if inside then hashSetAdd functions func else functions

def replaceCall (boundVars : List (List Variable)) (functionName : String)
    (node : Expr) (v : Visitor) : Expr × Visitor :=
  let constant : BoolFunction :=
    ⟨constantName v.idCounter, outermostBound boundVars node⟩
  (.nary (.functionCall constant.name) (constant.inParams.map .ident),
    { inFunction := true
      idCounter := v.idCounter + 1
      functionsUsed := v.functionsUsed ++ [⟨functionName, constant, node⟩]
      functionsAssumed := found v.functionsAssumed inAssume functionName
      functionsAsserted := found v.functionsAsserted inAssert functionName })

mutual

def visitExpr (boundVars : List (List Variable)) :
    Expr -> Visitor -> Except Error (Expr × Visitor)
  | .literal l, v => .ok (.literal l, v)
  | .ident x, v =>
    if v.inFunction && boundInside boundVars x.name then
      .error .absHoudiniInternalError
    else .ok (.ident x, v)
  | .old e, v =>
    match visitExpr boundVars e v with
    | .ok (e, v) => .ok (.old e, v)
    | .error error => .error error
  | .nary (.functionCall functionName) args, v =>
    if functionName ∈ functionsToReplace then
      .ok (replaceCall inAssume inAssert boundVars functionName
        (.nary (.functionCall functionName) args) v)
    else
      match visitExprSeq boundVars args v with
      | .ok (args, w) =>
        .ok (.nary (.functionCall functionName) args,
          { w with inFunction := v.inFunction })
      | .error error => .error error
  | .nary f args, v =>
    match visitExprSeq boundVars args v with
    | .ok (args, w) =>
      .ok (.nary f args, { w with inFunction := v.inFunction })
    | .error error => .error error
  | .quantifier q dummies body, v =>
    if (dummies.map Variable.name).Nodup then
      match visitExpr (boundVars ++ [dummies]) body v with
      | .ok (body, v) => .ok (.quantifier q dummies body, v)
      | .error error => .error error
    else .error .argumentException

def visitExprSeq (boundVars : List (List Variable)) :
    List Expr -> Visitor -> Except Error (List Expr × Visitor)
  | [], v => .ok ([], v)
  | e :: es, v =>
    match visitExpr boundVars e v with
    | .ok (e, v) =>
      match visitExprSeq boundVars es v with
      | .ok (es, v) => .ok (e :: es, v)
      | .error error => .error error
    | .error error => .error error

end

end Visiting

/-!
# Where the visitor throws
-/

def leavesFlag (functionsToReplace : List String) : Expr -> Bool
  | .literal _ => false
  | .ident _ => false
  | .old e => leavesFlag functionsToReplace e
  | .nary f _ => f.isCallOf functionsToReplace
  | .quantifier _ _ body => leavesFlag functionsToReplace body

/--
While the flag is set, an identifier with the name of a variable of an inner
quantifier is visited.  A replaced call is not visited.
-/
inductive Stale (functionsToReplace : List String) :
    Bool -> List (List Variable) -> Expr -> Prop where
  | ident {boundVars : List (List Variable)} {x : Variable} :
      boundInside boundVars x.name = true ->
      Stale functionsToReplace true boundVars (.ident x)
  | old {flag : Bool} {boundVars : List (List Variable)} {e : Expr} :
      Stale functionsToReplace flag boundVars e ->
      Stale functionsToReplace flag boundVars (.old e)
  | nary {flag : Bool} {boundVars : List (List Variable)} {f : Fun}
      {left right : List Expr} {a : Expr} :
      f.isCallOf functionsToReplace = false ->
      Stale functionsToReplace
        (flag || left.any (leavesFlag functionsToReplace)) boundVars a ->
      Stale functionsToReplace flag boundVars (.nary f (left ++ a :: right))
  | quantifier {flag : Bool} {boundVars : List (List Variable)}
      {q : Quantifier} {dummies : List Variable} {body : Expr} :
      Stale functionsToReplace flag (boundVars ++ [dummies]) body ->
      Stale functionsToReplace flag boundVars (.quantifier q dummies body)

inductive DistinctDummies : Expr -> Prop where
  | literal {l : Literal} : DistinctDummies (.literal l)
  | ident {x : Variable} : DistinctDummies (.ident x)
  | old {e : Expr} : DistinctDummies e -> DistinctDummies (.old e)
  | nary {f : Fun} {args : List Expr} :
      (forall a, a ∈ args -> DistinctDummies a) ->
      DistinctDummies (.nary f args)
  | quantifier {q : Quantifier} {dummies : List Variable} {body : Expr} :
      (dummies.map Variable.name).Nodup -> DistinctDummies body ->
      DistinctDummies (.quantifier q dummies body)

/-!
# What is replaced
-/

inductive Replaces (functionsToReplace : List String) :
    List (List Variable) -> Visit FunctionUsed -> Prop where
  | literal {boundVars : List (List Variable)} {n : Nat} {l : Literal} :
      Replaces functionsToReplace boundVars ⟨n, .literal l, .literal l, []⟩
  | ident {boundVars : List (List Variable)} {n : Nat} {x : Variable} :
      Replaces functionsToReplace boundVars ⟨n, .ident x, .ident x, []⟩
  | old {boundVars : List (List Variable)} {n : Nat} {e e' : Expr}
      {used : List FunctionUsed} :
      Replaces functionsToReplace boundVars ⟨n, e, e', used⟩ ->
      Replaces functionsToReplace boundVars ⟨n, .old e, .old e', used⟩
  | call {boundVars : List (List Variable)} {n : Nat} {functionName : String}
      {args : List Expr} {bound : List Variable} :
      functionName ∈ functionsToReplace ->
      bound = outermostBound boundVars
        (.nary (.functionCall functionName) args) ->
      Replaces functionsToReplace boundVars
        ⟨n, .nary (.functionCall functionName) args,
          .nary (.functionCall (constantName n)) (bound.map .ident),
          [⟨functionName, ⟨constantName n, bound⟩,
            .nary (.functionCall functionName) args⟩]⟩
  | nary {boundVars : List (List Variable)} {n : Nat} {f : Fun}
      {visits : List (Visit FunctionUsed)} :
      f.isCallOf functionsToReplace = false -> Consecutive n visits ->
      (forall v, v ∈ visits -> Replaces functionsToReplace boundVars v) ->
      Replaces functionsToReplace boundVars
        ⟨n, .nary f (visits.map Visit.before), .nary f (visits.map Visit.after),
          visits.flatMap Visit.added⟩
  | quantifier {boundVars : List (List Variable)} {n : Nat} {q : Quantifier}
      {dummies : List Variable} {body body' : Expr}
      {used : List FunctionUsed} :
      Replaces functionsToReplace (boundVars ++ [dummies])
        ⟨n, body, body', used⟩ ->
      Replaces functionsToReplace boundVars
        ⟨n, .quantifier q dummies body, .quantifier q dummies body', used⟩

section Visits

variable {functionsToReplace : List String} {inAssume inAssert : Bool}
  {boundVars : List (List Variable)}

def Visitor.add (v : Visitor) (inAssume inAssert leaves : Bool)
    (used : List FunctionUsed) : Visitor where
  inFunction := v.inFunction || leaves
  idCounter := v.idCounter + used.length
  functionsUsed := v.functionsUsed ++ used
  functionsAssumed := (used.map FunctionUsed.functionName).foldl
    (fun functions func => found functions inAssume func) v.functionsAssumed
  functionsAsserted := (used.map FunctionUsed.functionName).foldl
    (fun functions func => found functions inAssert func) v.functionsAsserted

theorem Visitor.add_nil (v : Visitor) :
    v.add inAssume inAssert false [] = v := by
  simp [Visitor.add]

theorem Visitor.add_add (v : Visitor) (leaves leaves' : Bool) (used used' : List FunctionUsed) :
    (v.add inAssume inAssert leaves used).add inAssume inAssert leaves' used' =
      v.add inAssume inAssert (leaves || leaves') (used ++ used') := by
  simp [Visitor.add, Nat.add_assoc, Bool.or_assoc]

/-- The visit succeeds and replaces, or it throws at a stale identifier. -/
def Visited (functionsToReplace : List String) (inAssume inAssert : Bool)
    (boundVars : List (List Variable)) (e : Expr) (v : Visitor) : Prop :=
  (exists e' used,
    visitExpr functionsToReplace inAssume inAssert boundVars e v =
      .ok (e', v.add inAssume inAssert (leavesFlag functionsToReplace e) used) ∧
    Replaces functionsToReplace boundVars ⟨v.idCounter, e, e', used⟩ ∧
    ¬ Stale functionsToReplace v.inFunction boundVars e) ∨
  (visitExpr functionsToReplace inAssume inAssert boundVars e v =
      .error .absHoudiniInternalError ∧
    Stale functionsToReplace v.inFunction boundVars e)

/-- An argument is visited with the flag that those before it leave. -/
def StaleSeq (functionsToReplace : List String) (flag : Bool)
    (boundVars : List (List Variable)) (es : List Expr) : Prop :=
  exists left a right, es = left ++ a :: right ∧
    Stale functionsToReplace
      (flag || left.any (leavesFlag functionsToReplace)) boundVars a

theorem staleSeq_cons {flag : Bool} {e : Expr} {es : List Expr} :
    StaleSeq functionsToReplace flag boundVars (e :: es) <->
      Stale functionsToReplace flag boundVars e ∨ StaleSeq functionsToReplace
          (flag || leavesFlag functionsToReplace e) boundVars es := by
  constructor
  · rintro ⟨left, a, right, heq, hstale⟩
    cases left with
    | nil =>
      cases heq
      rw [List.any_nil, Bool.or_false] at hstale
      exact Or.inl hstale
    | cons b left =>
      cases heq
      rw [List.any_cons, ← Bool.or_assoc] at hstale
      exact Or.inr ⟨left, a, right, rfl, hstale⟩
  · rintro (hstale | ⟨left, a, right, rfl, hstale⟩)
    · exact ⟨[], e, es, rfl, by simpa using hstale⟩
    · refine ⟨e :: left, a, right, rfl, ?_⟩
      rwa [List.any_cons, ← Bool.or_assoc]

theorem not_staleSeq_nil {flag : Bool} :
    ¬ StaleSeq functionsToReplace flag boundVars [] := by
  rintro ⟨left, a, right, heq, _⟩
  cases left <;> cases heq

theorem stale_nary {flag : Bool} {f : Fun} {args : List Expr}
    (hf : f.isCallOf functionsToReplace = false) :
    Stale functionsToReplace flag boundVars (.nary f args) <->
      StaleSeq functionsToReplace flag boundVars args := by
  constructor
  · intro h
    cases h with
    | nary _ h => exact ⟨_, _, _, rfl, h⟩
  · rintro ⟨left, a, right, rfl, h⟩
    exact Stale.nary hf h

theorem visitExprSeq_spec {es : List Expr} (h : forall e, e ∈ es -> forall v,
      Visited functionsToReplace inAssume inAssert boundVars e v) (v : Visitor) :
    (exists visits : List (Visit FunctionUsed),
      visitExprSeq functionsToReplace inAssume inAssert boundVars es v =
        .ok (visits.map Visit.after,
          v.add inAssume inAssert (es.any (leavesFlag functionsToReplace))
            (visits.flatMap Visit.added)) ∧
      visits.map Visit.before = es ∧ Consecutive v.idCounter visits ∧
      (forall w, w ∈ visits -> Replaces functionsToReplace boundVars w) ∧
      ¬ StaleSeq functionsToReplace v.inFunction boundVars es) ∨
    (visitExprSeq functionsToReplace inAssume inAssert boundVars es v =
        .error .absHoudiniInternalError ∧
      StaleSeq functionsToReplace v.inFunction boundVars es) := by
  induction es generalizing v with
  | nil =>
    left
    exists []
    exact ⟨by rw [visitExprSeq]; simp [Visitor.add_nil], rfl, trivial,
      by simp, not_staleSeq_nil⟩
  | cons e es ih =>
    rw [staleSeq_cons]
    rcases h e List.mem_cons_self v with
      ⟨e', used, hvisit, hreplaces, hfresh⟩ | ⟨hvisit, hstale⟩
    · rcases ih (fun e he => h e (List.mem_cons_of_mem _ he))
        (v.add inAssume inAssert (leavesFlag functionsToReplace e) used) with
        ⟨visits, hvisits, hbefore, hconsecutive, hall, hfreshes⟩ |
          ⟨hvisits, hstale⟩
      · left
        exists ⟨v.idCounter, e, e', used⟩ :: visits
        refine ⟨?_, ?_, ⟨rfl, hconsecutive⟩, ?_, not_or.mpr ⟨hfresh, hfreshes⟩⟩
        · rw [visitExprSeq, hvisit]
          dsimp only
          rw [hvisits, Visitor.add_add]
          rfl
        · rw [List.map_cons, hbefore]
        · intro w hw
          rcases List.mem_cons.mp hw with rfl | hw
          · exact hreplaces
          · exact hall w hw
      · right
        constructor
        · rw [visitExprSeq, hvisit]
          dsimp only
          rw [hvisits]
        · exact Or.inr hstale
    · right
      constructor
      · rw [visitExprSeq, hvisit]
      · exact Or.inl hstale

theorem visitExpr_nary {f : Fun} {args : List Expr} {v : Visitor}
    (hf : f.isCallOf functionsToReplace = false) :
    visitExpr functionsToReplace inAssume inAssert boundVars (.nary f args) v =
      match visitExprSeq functionsToReplace inAssume inAssert boundVars args v with
      | .ok (args, w) =>
        .ok (.nary f args, { w with inFunction := v.inFunction })
      | .error error => .error error := by
  cases f with
  | functionCall functionName =>
    rw [visitExpr, if_neg (of_decide_eq_false hf)]
  | _ => rw [visitExpr]; simp

theorem not_stale_literal {flag : Bool} {l : Literal} :
    ¬ Stale functionsToReplace flag boundVars (.literal l) := by
  intro h
  cases h

theorem stale_ident {flag : Bool} {x : Variable} :
    Stale functionsToReplace flag boundVars (.ident x) <->
      (flag && boundInside boundVars x.name) = true := by
  rw [Bool.and_eq_true]
  constructor
  · intro h
    cases h with
    | ident h => exact ⟨rfl, h⟩
  · rintro ⟨rfl, h⟩
    exact Stale.ident h

theorem stale_old {flag : Bool} {e : Expr} :
    Stale functionsToReplace flag boundVars (.old e) <->
      Stale functionsToReplace flag boundVars e := by
  constructor
  · intro h
    cases h with
    | old h => exact h
  · exact Stale.old

theorem stale_quantifier {flag : Bool} {q : Quantifier}
    {dummies : List Variable} {body : Expr} :
    Stale functionsToReplace flag boundVars (.quantifier q dummies body) <->
      Stale functionsToReplace flag (boundVars ++ [dummies]) body := by
  constructor
  · intro h
    cases h with
    | quantifier h => exact h
  · exact Stale.quantifier

theorem not_stale_call {flag : Bool} {f : Fun} {args : List Expr}
    (hf : f.isCallOf functionsToReplace = true) :
    ¬ Stale functionsToReplace flag boundVars (.nary f args) := by
  intro h
  cases h with
  | nary hnot _ =>
    rw [hf] at hnot
    cases hnot

theorem visitExpr_spec {e : Expr} (he : DistinctDummies e)
    (boundVars : List (List Variable)) (v : Visitor) :
    Visited functionsToReplace inAssume inAssert boundVars e v := by
  induction e generalizing boundVars v with
  | literal l =>
    left
    exact ⟨_, [], by rw [visitExpr, leavesFlag, Visitor.add_nil],
      Replaces.literal, not_stale_literal⟩
  | ident x =>
    unfold Visited
    rw [visitExpr, stale_ident, leavesFlag]
    by_cases hx : (v.inFunction && boundInside boundVars x.name) = true
    · right
      exact ⟨if_pos hx, hx⟩
    · left
      exact ⟨_, [], by rw [if_neg hx, Visitor.add_nil], Replaces.ident, hx⟩
  | old e ih =>
    cases he with
    | old he =>
    unfold Visited
    rw [visitExpr, stale_old, leavesFlag]
    rcases ih he boundVars v with
      ⟨e', used, hvisit, hreplaces, hfresh⟩ | ⟨hvisit, hstale⟩
    · left
      exact ⟨_, used, by rw [hvisit], Replaces.old hreplaces, hfresh⟩
    · right
      exact ⟨by rw [hvisit], hstale⟩
  | nary f args ih =>
    cases he with
    | nary he =>
    cases hf : f.isCallOf functionsToReplace with
    | false =>
      unfold Visited
      rw [visitExpr_nary hf, stale_nary hf, leavesFlag, hf]
      rcases visitExprSeq_spec (fun a ha => ih a ha (he a ha) boundVars) v
        with ⟨visits, hvisits, rfl, hconsecutive, hall, hfresh⟩ |
          ⟨hvisits, hstale⟩
      · left
        refine ⟨_, _, ?_, Replaces.nary hf hconsecutive hall, hfresh⟩
        rw [hvisits]
        simp [Visitor.add]
      · right
        exact ⟨by rw [hvisits], hstale⟩
    | true =>
      cases f with
      | functionCall functionName =>
        have hmem := Fun.isCallOf_functionCall.mp hf
        left
        refine ⟨_, _, ?_, Replaces.call hmem rfl, not_stale_call hf⟩
        rw [visitExpr, if_pos hmem, leavesFlag, hf]
        simp [replaceCall, Visitor.add]
      | _ => cases hf
  | quantifier q dummies body ih =>
    cases he with
    | quantifier hdistinct he =>
    unfold Visited
    rw [visitExpr, if_pos hdistinct, stale_quantifier, leavesFlag]
    rcases ih he (boundVars ++ [dummies]) v with
      ⟨body', used, hvisit, hreplaces, hfresh⟩ | ⟨hvisit, hstale⟩
    · left
      exact ⟨_, used, by rw [hvisit], Replaces.quantifier hreplaces, hfresh⟩
    · right
      exact ⟨by rw [hvisit], hstale⟩

end Visits

/-!
# The recorded calls
-/

inductive Nested (functionsToReplace : List String) : Expr -> Prop where
  | call {f : Fun} {args : List Expr} {a : Expr} :
      f.isCallOf functionsToReplace = true -> a ∈ args ->
      a.callsOf functionsToReplace ≠ [] ->
      Nested functionsToReplace (.nary f args)
  | nary {f : Fun} {args : List Expr} {a : Expr} :
      a ∈ args -> Nested functionsToReplace a ->
      Nested functionsToReplace (.nary f args)
  | old {e : Expr} :
      Nested functionsToReplace e -> Nested functionsToReplace (.old e)
  | quantifier {q : Quantifier} {dummies : List Variable} {body : Expr} :
      Nested functionsToReplace body ->
      Nested functionsToReplace (.quantifier q dummies body)

section Recorded

variable {functionsToReplace : List String} {boundVars : List (List Variable)}
  {v : Visit FunctionUsed}

theorem Nested.calls_ne_nil {e : Expr} (h : Nested functionsToReplace e) :
    e.callsOf functionsToReplace ≠ [] := by
  induction h with
  | call hf _ _ =>
    rw [Expr.callsOf_nary_of_call hf]
    exact List.cons_ne_nil _ _
  | @nary f args a ha _ ih =>
    rw [Expr.callsOf, Expr.callsOfSeq_eq_flatMap]
    rcases List.exists_mem_of_ne_nil _ ih with ⟨c, hc⟩
    exact List.ne_nil_of_mem
      (List.mem_append_right _ (List.mem_flatMap.mpr ⟨a, ha, hc⟩))
  | old _ ih => rwa [Expr.callsOf]
  | quantifier _ ih => rwa [Expr.callsOf]

theorem calls_of_not_nested (h : Replaces functionsToReplace boundVars v)
    (hnested : ¬ Nested functionsToReplace v.before) :
    v.added.map FunctionUsed.call = v.before.callsOf functionsToReplace := by
  induction h with
  | literal => rw [Expr.callsOf, List.map_nil]
  | ident => rw [Expr.callsOf, List.map_nil]
  | old _ ih =>
    rw [Expr.callsOf]
    exact ih (fun h => hnested (Nested.old h))
  | @call boundVars n functionName args bound hmem _ =>
    have hf : (Fun.functionCall functionName).isCallOf functionsToReplace =
        true := Fun.isCallOf_functionCall.mpr hmem
    rw [Expr.callsOf_nary_of_call hf, List.map_singleton,
      List.flatMap_eq_nil_iff.mpr]
    intro a ha
    by_contra hne
    exact hnested (Nested.call hf ha hne)
  | @nary boundVars n f visits hf _ _ ih =>
    rw [Expr.callsOf_nary_of_not hf, List.map_flatMap, List.flatMap_map]
    apply List.flatMap_congr
    intro v hv
    exact ih v hv
      (fun h => hnested (Nested.nary (List.mem_map_of_mem hv) h))
  | quantifier _ ih =>
    rw [Expr.callsOf]
    exact ih (fun h => hnested (Nested.quantifier h))

theorem length_added_le (h : Replaces functionsToReplace boundVars v) :
    v.added.length ≤ (v.before.callsOf functionsToReplace).length := by
  induction h with
  | literal => exact Nat.zero_le _
  | ident => exact Nat.zero_le _
  | old _ ih => rwa [Expr.callsOf]
  | call hmem _ =>
    rw [Expr.callsOf_nary_of_call (Fun.isCallOf_functionCall.mpr hmem)]
    exact Nat.succ_le_succ (Nat.zero_le _)
  | nary hf _ _ ih =>
    rw [Expr.callsOf_nary_of_not hf, List.length_flatMap, List.flatMap_map,
      List.length_flatMap]
    exact List.sum_le_sum ih
  | quantifier _ ih => rwa [Expr.callsOf]

theorem length_added_lt (h : Replaces functionsToReplace boundVars v)
    (hnested : Nested functionsToReplace v.before) :
    v.added.length < (v.before.callsOf functionsToReplace).length := by
  induction h with
  | literal => cases hnested
  | ident => cases hnested
  | old _ ih =>
    cases hnested with
    | old hnested =>
    rw [Expr.callsOf]
    exact ih hnested
  | @call boundVars n functionName args bound hmem _ =>
    rw [Expr.callsOf_nary_of_call (Fun.isCallOf_functionCall.mpr hmem)]
    have hinner : exists a, a ∈ args ∧ a.callsOf functionsToReplace ≠ [] := by
      cases hnested with
      | call _ ha hne => exact ⟨_, ha, hne⟩
      | nary ha hnested => exact ⟨_, ha, hnested.calls_ne_nil⟩
    rcases hinner with ⟨a, ha, hne⟩
    rcases List.exists_mem_of_ne_nil _ hne with ⟨c, hc⟩
    have hpos := List.length_pos_of_mem (List.mem_flatMap.mpr ⟨a, ha, hc⟩)
    exact Nat.succ_lt_succ hpos
  | @nary boundVars n f visits hf _ hall ih =>
    rw [Expr.callsOf_nary_of_not hf, List.length_flatMap, List.flatMap_map,
      List.length_flatMap]
    cases hnested with
    | call hcall _ _ =>
      rw [hf] at hcall
      cases hcall
    | nary ha hnested =>
      rcases List.mem_map.mp ha with ⟨v, hv, rfl⟩
      exact List.sum_lt_sum _ _ (fun w hw => length_added_le (hall w hw))
        ⟨v, hv, ih v hv hnested⟩
  | quantifier _ ih =>
    cases hnested with
    | quantifier hnested =>
    rw [Expr.callsOf]
    exact ih hnested

end Recorded

/-!
# Values
-/

/--
Some existential call refers to a variable that a quantifier other than the
outermost one binds.
-/
inductive InnerCall (functionsToReplace : List String) :
    List (List Variable) -> Expr -> Prop where
  | call {boundVars : List (List Variable)} {f : Fun} {args : List Expr}
      {x : Variable} {dummies : List Variable} :
      f.isCallOf functionsToReplace = true -> (Expr.nary f args).FreeIn x ->
      dummies ∈ boundVars.tail -> x ∈ dummies ->
      InnerCall functionsToReplace boundVars (.nary f args)
  | nary {boundVars : List (List Variable)} {f : Fun} {args : List Expr}
      {a : Expr} :
      a ∈ args -> InnerCall functionsToReplace boundVars a ->
      InnerCall functionsToReplace boundVars (.nary f args)
  | old {boundVars : List (List Variable)} {e : Expr} :
      InnerCall functionsToReplace boundVars e ->
      InnerCall functionsToReplace boundVars (.old e)
  | quantifier {boundVars : List (List Variable)} {q : Quantifier}
      {dummies : List Variable} {body : Expr} :
      InnerCall functionsToReplace (boundVars ++ [dummies]) body ->
      InnerCall functionsToReplace boundVars (.quantifier q dummies body)

def bindParams {U : Type} : List Variable -> List (Value U) -> Env U -> Env U
  | p :: ps, u :: us, ρ => Function.update (bindParams ps us ρ) p u
  | _, _, ρ => ρ

noncomputable def interpret {U : Type} [DecidableEq U] (I : Interp U)
    (ρ₀ ρ : Env U) (used : List FunctionUsed) : Interp U :=
  { I with
    func := fun name us =>
      match used.find? (fun use => use.constant.name = name) with
      | some use =>
        use.call.eval I ρ₀ (bindParams use.constant.inParams us ρ)
      | none => I.func name us }

section Values

variable {functionsToReplace : List String} {boundVars : List (List Variable)}
  {v : Visit FunctionUsed} {U : Type} [DecidableEq U] {I : Interp U}
  {ρ₀ ρ ρ' : Env U} {used : List FunctionUsed}

theorem mem_usedVars {e : Expr} {x : Variable} (h : e.FreeIn x) :
    x ∈ usedVars e := by
  have hall : forall (es : List Expr) (a : Expr), a ∈ es -> x ∈ usedVars a ->
      x ∈ allUsedVars es := by
    intro es a ha hx
    induction es with
    | nil => cases ha
    | cons e es ih =>
      rw [allUsedVars, List.mem_append]
      rcases List.mem_cons.mp ha with rfl | ha
      · exact Or.inl hx
      · exact Or.inr (ih ha)
  induction h with
  | ident =>
    rw [usedVars]
    exact List.mem_singleton_self x
  | old _ ih => rwa [usedVars]
  | nary ha _ ih =>
    rw [usedVars]
    exact hall _ _ ha ih
  | quantifier _ _ ih => rwa [usedVars]

omit [DecidableEq U] in
theorem bindParams_map {bound : List Variable} {x : Variable} :
    bindParams bound (bound.map ρ') ρ x = if x ∈ bound then ρ' x else ρ x := by
  induction bound with
  | nil => rfl
  | cons p bound ih =>
    rw [List.map_cons, bindParams]
    by_cases hx : x = p
    · rw [hx, Function.update_self, if_pos List.mem_cons_self]
    · rw [Function.update_of_ne hx, ih]
      simp [hx]

theorem eval_bindParams {call : Expr} (hpassive : call.Passive)
    (hinner : forall dummies, dummies ∈ boundVars.tail -> forall x, x ∈ dummies -> ¬ call.FreeIn x)
    (hρ : forall x, (forall dummies, dummies ∈ boundVars -> x ∉ dummies) -> ρ' x = ρ x) :
    call.eval I ρ₀ (bindParams (outermostBound boundVars call)
        ((outermostBound boundVars call).map ρ') ρ) = call.eval I ρ₀ ρ' := by
  apply Expr.eval_congr_free hpassive
  intro x hx
  rw [bindParams_map]
  by_cases hmem : x ∈ outermostBound boundVars call
  · exact if_pos hmem
  · rw [if_neg hmem]
    symm
    apply hρ
    intro dummies hdummies hxd
    cases boundVars with
    | nil => cases hdummies
    | cons outermost inner =>
      rcases List.mem_cons.mp hdummies with rfl | hdummies
      · apply hmem
        rw [outermostBound, List.mem_filter, mem_foldl_hashSetAdd]
        exact ⟨Or.inr (mem_usedVars hx), decide_eq_true hxd⟩
      · exact hinner dummies hdummies x hxd hx

theorem interpret_func {use : FunctionUsed} (us : List (Value U))
    (huse : used.find? (fun u => u.constant.name = use.constant.name) = some use) :
    (interpret I ρ₀ ρ used).func use.constant.name us =
      use.call.eval I ρ₀ (bindParams use.constant.inParams us ρ) := by
  unfold interpret
  dsimp only
  rw [huse]

theorem apply_interpret {f : Fun} {us : List (Value U)}
    (hf : forall use, use ∈ used -> f ≠ .functionCall use.constant.name) :
    (interpret I ρ₀ ρ used).apply f us = I.apply f us := by
  have hother : forall name, f = .functionCall name ->
      used.find? (fun use => use.constant.name = name) = none := by
    rintro name rfl
    rw [List.find?_eq_none]
    intro use huse heq
    exact hf use huse (congrArg Fun.functionCall (of_decide_eq_true heq).symm)
  unfold Interp.apply
  split
  · rfl
  · rfl
  · unfold interpret
    dsimp only
    rw [hother _ rfl]
  all_goals rfl

theorem replaces_eval (h : Replaces functionsToReplace boundVars v) (hpassive : v.before.Passive)
    (hinner : ¬ InnerCall functionsToReplace boundVars v.before)
    (hfresh : forall use, use ∈ used -> ¬ v.before.Calls use.constant.name)
    (hfind : forall use, use ∈ v.added ->
      used.find? (fun u => u.constant.name = use.constant.name) = some use)
    (hρ : forall x, (forall dummies, dummies ∈ boundVars -> x ∉ dummies) -> ρ' x = ρ x) :
    v.after.eval (interpret I ρ₀ ρ used) ρ₀ ρ' = v.before.eval I ρ₀ ρ' := by
  induction h generalizing ρ' with
  | literal => rw [Expr.eval_literal, Expr.eval_literal]
  | ident => rw [Expr.eval_ident, Expr.eval_ident]
  | old _ _ => cases hpassive
  | @call boundVars n functionName args bound hmem hbound =>
    have hargs : (bound.map Expr.ident).map
        (fun a => a.eval (interpret I ρ₀ ρ used) ρ₀ ρ') = bound.map ρ' := by
      rw [List.map_map]
      apply List.map_congr_left
      intro x _
      exact Expr.eval_ident (interpret I ρ₀ ρ used) ρ₀ ρ' x
    rw [Expr.eval_nary, hargs]
    have huse := hfind _ List.mem_cons_self
    refine (interpret_func (bound.map ρ') huse).trans ?_
    dsimp only
    rw [hbound]
    apply eval_bindParams hpassive _ hρ
    intro dummies hdummies x hx hfree
    exact hinner (InnerCall.call (Fun.isCallOf_functionCall.mpr hmem) hfree
      hdummies hx)
  | @nary boundVars n f visits hf _ _ ih =>
    cases hpassive with
    | nary hpassive =>
    rw [List.forall_mem_map] at hpassive
    rw [Expr.eval_nary, Expr.eval_nary, List.map_map, List.map_map,
      apply_interpret]
    · congr 1
      apply List.map_congr_left
      intro v hv
      have hbefore := List.mem_map_of_mem (f := Visit.before) hv
      exact ih v hv (hpassive v hv)
        (fun hcall => hinner (InnerCall.nary hbefore hcall))
        (fun use huse hcalls =>
          hfresh use huse (Expr.Calls.nary hbefore hcalls))
        (fun use huse => hfind use (List.mem_flatMap.mpr ⟨v, hv, huse⟩)) hρ
    · rintro use huse rfl
      exact hfresh use huse Expr.Calls.here
  | @quantifier boundVars n q dummies body body' used' _ ih =>
    cases hpassive with
    | quantifier hpassive =>
    apply Expr.eval_quantifier_eq (I := interpret I ρ₀ ρ used) (J := I)
      (P := fun _ => True) rfl (fun _ _ => rfl)
    intro σ σ' hσ _ hagree
    rw [← funext (fun x => hagree x (Or.inl trivial))]
    apply ih hpassive
    · exact fun hcall => hinner (InnerCall.quantifier hcall)
    · exact fun use huse hcalls =>
        hfresh use huse (Expr.Calls.quantifier hcalls)
    · exact hfind
    · intro x hx
      rw [hσ.1 x (hx dummies (List.mem_append_right _ List.mem_cons_self))]
      exact hρ x (fun ds hds => hx ds (List.mem_append_left _ hds))

end Values

/-!
# The visitor as a whole
-/

/-- The calls that are still to be replaced are of functions not made yet. -/
def FreshFrom (n : Nat) (e : Expr) : Prop :=
  forall m, n ≤ m -> ¬ e.Calls (constantName m)

/--
The visit of an assertion or assumption throws when an existential call refers
to a variable of an inner quantifier.  Otherwise all existential calls are
recorded and replaced, and the fresh functions, read as the recorded calls, give
the value of the original expression.
-/
structure ReplacesCorrectly (functionsToReplace : List String)
    (inAssume inAssert : Bool) (v : Visitor) (e : Expr) : Prop where
  throws_iff :
    (exists error, visitExpr functionsToReplace inAssume inAssert [] e v =
      .error error) <-> InnerCall functionsToReplace [] e
  replaced : forall e' v',
    visitExpr functionsToReplace inAssume inAssert [] e v = .ok (e', v') ->
      exists used, v'.functionsUsed = v.functionsUsed ++ used ∧
        used.map FunctionUsed.call = e.callsOf functionsToReplace ∧
        Replaces functionsToReplace [] ⟨v.idCounter, e, e', used⟩ ∧
        (forall use, use ∈ used -> ¬ e.Calls use.constant.name) ∧
        forall {U : Type} [DecidableEq U] (I : Interp U) (ρ₀ ρ : Env U),
          e'.eval (interpret I ρ₀ ρ used) ρ₀ ρ = e.eval I ρ₀ ρ

section Correctness

variable {functionsToReplace : List String} {inAssume inAssert : Bool}
  {v : Visitor} {e : Expr}

theorem constantName_injective {m n : Nat} (h : constantName m = constantName n) : m = n :=
  Text.append_toString_injective h

theorem replaces_numbered {boundVars : List (List Variable)}
    {w : Visit FunctionUsed} (h : Replaces functionsToReplace boundVars w) :
    NumberedFrom (fun n use => use.constant.name = constantName n) w.counter w.added := by
  induction h with
  | literal => trivial
  | ident => trivial
  | old _ ih => exact ih
  | call _ _ => exact ⟨rfl, trivial⟩
  | nary _ hconsecutive _ ih => exact hconsecutive.numbered ih
  | quantifier _ ih => exact ih

theorem find_of_numbered {n : Nat} {used : List FunctionUsed}
    (h : NumberedFrom (fun n use => use.constant.name = constantName n) n used)
    {use : FunctionUsed} (huse : use ∈ used) :
    used.find? (fun u => u.constant.name = use.constant.name) = some use := by
  induction used generalizing n with
  | nil => cases huse
  | cons first used ih =>
    rcases List.mem_cons.mp huse with rfl | huse
    · exact List.find?_cons_of_pos (decide_eq_true rfl)
    · rw [List.find?_cons_of_neg]
      · exact ih h.2 huse
      · intro heq
        rcases h.2.exists_number huse with ⟨m, hm, _, hname⟩
        rw [decide_eq_true_eq, h.1, hname] at heq
        rw [constantName_injective heq] at hm
        exact absurd hm (Nat.not_succ_le_self m)

theorem replaced_of_not_stale (hpassive : e.Passive)
    (hdistinct : DistinctDummies e) (hfresh : FreshFrom v.idCounter e)
    (hinner : ¬ InnerCall functionsToReplace [] e)
    (hnested : ¬ Nested functionsToReplace e) (e' : Expr) (v' : Visitor)
    (hvisit : visitExpr functionsToReplace inAssume inAssert [] e v = .ok (e', v')) :
    exists used, v'.functionsUsed = v.functionsUsed ++ used ∧
      used.map FunctionUsed.call = e.callsOf functionsToReplace ∧
      Replaces functionsToReplace [] ⟨v.idCounter, e, e', used⟩ ∧
      (forall use, use ∈ used -> ¬ e.Calls use.constant.name) ∧
      forall {U : Type} [DecidableEq U] (I : Interp U) (ρ₀ ρ : Env U),
        e'.eval (interpret I ρ₀ ρ used) ρ₀ ρ = e.eval I ρ₀ ρ := by
  rcases visitExpr_spec hdistinct [] v with
    ⟨e'', used, hspec, hreplaces, _⟩ | ⟨hspec, _⟩
  · rw [hspec] at hvisit
    cases hvisit
    have hnumbered := replaces_numbered hreplaces
    have hnew : forall use, use ∈ used -> ¬ e.Calls use.constant.name := by
      intro use huse hcalls
      rcases hnumbered.exists_number huse with ⟨m, hm, _, hname⟩
      rw [hname] at hcalls
      exact hfresh m hm hcalls
    refine ⟨used, rfl, calls_of_not_nested hreplaces hnested, hreplaces, hnew, ?_⟩
    intro U _ I ρ₀ ρ
    exact replaces_eval hreplaces hpassive hinner hnew
      (fun use huse => find_of_numbered hnumbered huse) (fun _ _ => rfl)
  · rw [hspec] at hvisit
    cases hvisit

theorem throws_iff_stale (inAssume inAssert : Bool) (hdistinct : DistinctDummies e) :
    (exists error, visitExpr functionsToReplace inAssume inAssert [] e v =
      .error error) <-> Stale functionsToReplace v.inFunction [] e := by
  rcases visitExpr_spec hdistinct [] v with
    ⟨e', used, hspec, _, hfresh⟩ | ⟨hspec, hstale⟩
  · rw [hspec]
    constructor
    · rintro ⟨error, herror⟩
      cases herror
    · exact fun hstale => absurd hstale hfresh
  · exact ⟨fun _ => hstale, fun _ => ⟨_, hspec⟩⟩

theorem not_nested_of_recorded (hdistinct : DistinctDummies e)
    (hstale : ¬ Stale functionsToReplace v.inFunction [] e)
    (h : ReplacesCorrectly functionsToReplace inAssume inAssert v e) :
    ¬ Nested functionsToReplace e := by
  have hvisited : Visited functionsToReplace inAssume inAssert [] e v :=
    visitExpr_spec hdistinct [] v
  rcases hvisited with ⟨e', used, hspec, hreplaces, _⟩ | ⟨_, hstale'⟩
  · intro hnested
    rcases h.replaced e' _ hspec with ⟨used', hused, hcalls, _⟩
    have hlt := length_added_lt hreplaces hnested
    rw [List.append_cancel_left hused, ← hcalls, List.length_map] at hlt
    exact absurd hlt (Nat.lt_irrefl _)
  · exact absurd hstale' hstale

end Correctness

/--
A visit of a passive expression is correct if and only if an identifier is
visited with a stale flag exactly when some call refers to a variable of an
inner quantifier, and without either no call stands within another.
-/
theorem replacesCorrectly_iff (functionsToReplace : List String)
    (inAssume inAssert : Bool) (v : Visitor) (e : Expr) (hpassive : e.Passive)
    (hdistinct : DistinctDummies e) (hfresh : FreshFrom v.idCounter e) :
    ReplacesCorrectly functionsToReplace inAssume inAssert v e <->
      (Stale functionsToReplace v.inFunction [] e <-> InnerCall functionsToReplace [] e) ∧
      (¬ Stale functionsToReplace v.inFunction [] e -> ¬ Nested functionsToReplace e) := by
  constructor
  · intro h
    constructor
    · rw [← throws_iff_stale inAssume inAssert hdistinct]
      exact h.throws_iff
    · exact fun hstale => not_nested_of_recorded hdistinct hstale h
  · rintro ⟨hiff, hnested⟩
    constructor
    · rw [throws_iff_stale inAssume inAssert hdistinct]
      exact hiff
    · intro e' v' hvisit
      have hstale : ¬ Stale functionsToReplace v.inFunction [] e := by
        intro hstale
        rcases (throws_iff_stale inAssume inAssert hdistinct).mpr hstale with
          ⟨error, herror⟩
        rw [hvisit] at herror
        cases herror
      exact replaced_of_not_stale hpassive hdistinct hfresh
        (fun hinner => hstale (hiff.mpr hinner)) (hnested hstale) e' v' hvisit

/-!
# A call that refers to an inner variable
-/

/-- The assertion `forall x :: exists y :: foo(y)`. -/
def innerVariable : Expr :=
  .quantifier .all [.boundVariable ⟨"x", .int⟩]
    (.quantifier .ex [.boundVariable ⟨"y", .int⟩]
      (.nary (.functionCall "foo") [.ident (.boundVariable ⟨"y", .int⟩)]))

def newVisitor : Visitor where
  inFunction := false
  idCounter := 0
  functionsUsed := []
  functionsAssumed := []
  functionsAsserted := []

theorem innerVariable_passive : innerVariable.Passive := by
  apply Expr.Passive.quantifier
  apply Expr.Passive.quantifier
  apply Expr.Passive.nary
  intro a ha
  rw [List.mem_singleton.mp ha]
  exact Expr.Passive.ident

theorem innerVariable_distinct : DistinctDummies innerVariable := by
  apply DistinctDummies.quantifier (by simp)
  apply DistinctDummies.quantifier (by simp)
  apply DistinctDummies.nary
  intro a ha
  rw [List.mem_singleton.mp ha]
  exact DistinctDummies.ident

theorem innerVariable_calls {name : String} (h : innerVariable.Calls name) :
    name = "foo" := by
  rcases h with _ | _ | _ | h
  rcases h with _ | _ | _ | h
  cases h with
  | here => rfl
  | nary ha h =>
    rw [List.mem_singleton.mp ha] at h
    cases h

theorem innerVariable_fresh : FreshFrom 0 innerVariable := by
  intro m _ hcalls
  have heq := innerVariable_calls hcalls
  unfold constantName at heq
  have hlength := congrArg String.length heq
  have hfoo : String.length "foo" = 3 := by decide +kernel
  have hstem : String.length "AbsHoudiniConstant" = 18 := by decide +kernel
  rw [String.length_append, hstem, hfoo] at hlength
  omega

theorem innerVariable_not_stale : ¬ Stale ["foo"] false [] innerVariable := by
  intro h
  rw [innerVariable, stale_quantifier, stale_quantifier] at h
  exact not_stale_call (Fun.isCallOf_functionCall.mpr List.mem_cons_self) h

theorem replacesCorrectly_iff_innerVariable :
    ReplacesCorrectly ["foo"] true false newVisitor innerVariable <->
      (Stale ["foo"] false [] innerVariable <-> InnerCall ["foo"] [] innerVariable) ∧
      (¬ Stale ["foo"] false [] innerVariable -> ¬ Nested ["foo"] innerVariable) :=
  replacesCorrectly_iff ["foo"] true false newVisitor innerVariable
    innerVariable_passive innerVariable_distinct innerVariable_fresh

/-- The call refers to `y`, and nothing is thrown. -/
theorem innerVariable_not_correct :
    ¬ ReplacesCorrectly ["foo"] true false newVisitor innerVariable := by
  intro h
  have hinner : InnerCall ["foo"] [] innerVariable := by
    apply InnerCall.quantifier
    apply InnerCall.quantifier
    apply InnerCall.call (Fun.isCallOf_functionCall.mpr List.mem_cons_self)
    · exact Expr.FreeIn.nary List.mem_cons_self Expr.FreeIn.ident
    · exact List.mem_cons_self
    · exact List.mem_cons_self
  have hthrows := h.throws_iff.mpr hinner
  rw [throws_iff_stale true false innerVariable_distinct] at hthrows
  exact innerVariable_not_stale hthrows

end ReplaceFunctionCalls

end Boogie
