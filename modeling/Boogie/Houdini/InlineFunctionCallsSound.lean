import Boogie.Houdini.InlineFunctionCalls

/-!
# When inlining is correct

A visit throws only where a chain of unfoldings repeats a function.  A visit
that does not throw has followed every chain to its end, and has kept the values
of all objects.
-/

namespace Boogie
namespace InlineFunctionCalls

open ReplaceFunctionCalls (bindParams)

/-!
# Objects
-/

section Objects

variable {subst : Variable -> Option Obj} {functions : List Function}

theorem Obj.toExprSeq_eq_map (args : List Obj) :
    Obj.toExprSeq args = args.map Obj.toExpr := by
  induction args with
  | nil => rfl
  | cons a args ih => rw [Obj.toExprSeq, ih, List.map_cons]

theorem Obj.toExpr_nary (id : Nat) (f : Fun) (args : List Obj) :
    (Obj.nary id f args).toExpr = .nary f (args.map Obj.toExpr) := by
  rw [Obj.toExpr, Obj.toExprSeq_eq_map]

theorem copySeq_toExpr {es : List Expr}
    (h : forall e, e ∈ es -> forall n, (copy subst e n).1.toExpr =
      Substituter.apply (fun v => (subst v).map Obj.toExpr) e) (n : Nat) :
    (copy.copySeq subst es n).1.map Obj.toExpr =
      es.map (Substituter.apply (fun v => (subst v).map Obj.toExpr)) := by
  induction es generalizing n with
  | nil => rfl
  | cons e es ih =>
    rw [copy.copySeq, List.map_cons, List.map_cons, h e List.mem_cons_self,
      ih (fun e' he' => h e' (List.mem_cons_of_mem e he'))]

theorem copy_toExpr (e : Expr) (n : Nat) : (copy subst e n).1.toExpr =
    Substituter.apply (fun v => (subst v).map Obj.toExpr) e := by
  induction e generalizing n with
  | literal l => rw [copy, Obj.toExpr, Substituter.apply_literal]
  | ident x =>
    rw [copy, Substituter.apply_ident]
    cases subst x with
    | none => rfl
    | some o => rfl
  | old e ih => rw [copy, Obj.toExpr, ih, Substituter.apply_old]
  | nary f args ih =>
    rw [copy, Obj.toExpr_nary, copySeq_toExpr ih, Substituter.apply_nary]
  | quantifier q dummies body ih =>
    rw [copy, Obj.toExpr, ih, Substituter.apply_quantifier]

theorem argumentOf_map {A B : Type} (f : A -> B) (params : List Variable)
    (args : List A) (v : Variable) :
    (argumentOf params args v).map f = argumentOf params (args.map f) v := by
  unfold argumentOf
  induction params generalizing args with
  | nil => rfl
  | cons p params ih =>
    cases args with
    | nil => rfl
    | cons a args =>
      rw [List.map_cons, List.zip_cons_cons, List.zip_cons_cons,
        List.lookup_cons, List.lookup_cons]
      cases v == p with
      | true => rfl
      | false => exact ih args

theorem copy_argumentOf_toExpr (params : List Variable) (args : List Obj) (body : Expr) (n : Nat) :
    (copy (argumentOf params args) body n).1.toExpr =
      Substituter.apply (argumentOf params (args.map Obj.toExpr)) body := by
  rw [copy_toExpr]
  congr 1
  funext v
  exact argumentOf_map Obj.toExpr params args v

/-- Induction along the visitor: the body of a call with the arguments comes
before the call, with one more function on the stack. -/
theorem visitInduction {P : List String -> Obj -> Prop}
    (literal : forall stack l, P stack (.literal l)) (ident : forall stack x, P stack (.ident x))
    (old : forall stack id e, P stack e -> P stack (.old id e))
    (again : forall stack id f args func body,
      toInline functions f = some (func, body) -> func.name ∈ stack -> P stack (.nary id f args))
    (call : forall stack id f args func body,
      toInline functions f = some (func, body) -> func.name ∉ stack ->
        (forall n, P (func.name :: stack) (copy (argumentOf func.inParams args) body n).1) ->
        P stack (.nary id f args)) (nary : forall stack id f args, toInline functions f = none ->
      (forall a, a ∈ args -> P stack a) -> P stack (.nary id f args))
    (quantifier : forall stack id q dummies body, P stack body ->
      P stack (.quantifier id q dummies body)) :
    forall stack o, P stack o := by
  intro stack
  induction hk : remaining functions stack using Nat.strong_induction_on
    generalizing stack with
  | _ k ihk =>
    intro o
    induction o with
    | literal l => exact literal stack l
    | ident x => exact ident stack x
    | old id e ih => exact old stack id e ih
    | quantifier id q dummies body ih =>
      exact quantifier stack id q dummies body ih
    | nary id f args ih =>
      cases hf : toInline functions f with
      | none => exact nary stack id f args hf ih
      | some pair =>
        rcases pair with ⟨func, body⟩
        by_cases hmem : func.name ∈ stack
        · exact again stack id f args func body hf hmem
        · apply call stack id f args func body hf hmem
          intro n
          have hless := remaining_push (mem_of_toInline hf) hmem
          rw [hk] at hless
          exact ihk _ hless _ rfl _

end Objects

/-!
# Where a visit throws
-/

section Throws

variable {functions : List Function} {stack : List String} {σ : Heap}
  {id : Nat} {f : Fun} {args : List Obj} {func : Function} {body : Expr}

theorem visitExpr_again (h : toInline functions f = some (func, body)) (hmem : func.name ∈ stack) :
    visitExpr functions stack (.nary id f args) σ = none := by
  rw [visitExpr]
  split
  · rename_i func' body' h'
    rw [h] at h'
    cases h'
    rw [dif_pos hmem]
  · rename_i h'
    rw [h] at h'
    cases h'

theorem visitExpr_call (h : toInline functions f = some (func, body)) (hmem : func.name ∉ stack) :
    visitExpr functions stack (.nary id f args) σ = visitExpr functions (func.name :: stack)
        (copy (argumentOf func.inParams args) body σ.next).1
        { σ with next := (copy (argumentOf func.inParams args) body σ.next).2 } := by
  rw [visitExpr]
  split
  · rename_i func' body' h'
    rw [h] at h'
    cases h'
    rw [dif_neg hmem]
  · rename_i h'
    rw [h] at h'
    cases h'

theorem visitExpr_changed (h : toInline functions f = none) {o : Obj} (ho : σ.changed id = some o) :
    visitExpr functions stack (.nary id f args) σ = some (o, σ) := by
  rw [visitExpr]
  split
  · rename_i h'
    rw [h] at h'
    cases h'
  · rw [ho]

theorem visitExpr_nary (h : toInline functions f = none) (ho : σ.changed id = none) :
    visitExpr functions stack (.nary id f args) σ =
      (visitExprSeq functions stack args σ).map (fun p =>
        (.nary id f p.1, p.2.change id (.nary id f p.1))) := by
  rw [visitExpr]
  split
  · rename_i h'
    rw [h] at h'
    cases h'
  · rw [ho]
    cases visitExprSeq functions stack args σ <;> rfl

theorem exists_of_visitExprSeq (h : visitExprSeq functions stack args σ = none) :
    exists a, a ∈ args ∧ exists σ', visitExpr functions stack a σ' = none := by
  induction args generalizing σ with
  | nil =>
    rw [visitExprSeq] at h
    cases h
  | cons a args ih =>
    cases ha : visitExpr functions stack a σ with
    | none => exact ⟨a, List.mem_cons_self, σ, ha⟩
    | some p =>
      rw [visitExprSeq, ha] at h
      cases hargs : visitExprSeq functions stack args p.2 with
      | none =>
        rcases ih hargs with ⟨b, hb, hthrows⟩
        exact ⟨b, List.mem_cons_of_mem a hb, hthrows⟩
      | some q =>
        simp [hargs] at h

theorem visitExpr_old {e : Obj} :
    visitExpr functions stack (.old id e) σ = match σ.changed id with
      | some o => some (o, σ)
      | none => (visitExpr functions stack e σ).map (fun p =>
        (.old id p.1, p.2.change id (.old id p.1))) := by
  rw [visitExpr]
  cases σ.changed id with
  | some o => rfl
  | none => cases visitExpr functions stack e σ <;> rfl

theorem visitExpr_quantifier {q : Quantifier} {dummies : List Variable}
    {body : Obj} :
    visitExpr functions stack (.quantifier id q dummies body) σ = match σ.changed id with
      | some o => some (o, σ)
      | none => (visitExpr functions stack body σ).map (fun p =>
        (.quantifier id q dummies p.1,
          p.2.change id (.quantifier id q dummies p.1))) := by
  rw [visitExpr]
  cases σ.changed id with
  | some o => rfl
  | none => cases visitExpr functions stack body σ <;> rfl

theorem repeats_of_visitExpr (stack : List String) (o : Obj) :
    forall σ, visitExpr functions stack o σ = none -> Repeats functions stack o.toExpr := by
  induction stack, o using visitInduction with
  | literal stack l =>
    intro σ h
    rw [visitExpr] at h
    cases h
  | ident stack x =>
    intro σ h
    rw [visitExpr] at h
    cases h
  | old stack id e ih =>
    intro σ h
    rw [visitExpr_old] at h
    split at h
    · cases h
    · rw [Obj.toExpr]
      exact .old (ih σ (Option.map_eq_none_iff.mp h))
  | again stack id f args func body hf hmem =>
    intro σ _
    rw [Obj.toExpr_nary]
    exact .again hf hmem
  | call stack id f args func body hf hmem ih =>
    intro σ h
    rw [visitExpr_call hf hmem] at h
    have hrepeats := ih σ.next _ h
    rw [copy_argumentOf_toExpr] at hrepeats
    rw [Obj.toExpr_nary]
    exact .call hf hrepeats
  | nary stack id f args hf ih =>
    intro σ h
    cases hchanged : σ.changed id with
    | some o =>
      rw [visitExpr_changed hf hchanged] at h
      cases h
    | none =>
      rw [visitExpr_nary hf hchanged] at h
      rcases exists_of_visitExprSeq (Option.map_eq_none_iff.mp h) with
        ⟨a, ha, σ', hthrows⟩
      rw [Obj.toExpr_nary]
      exact .argument hf (List.mem_map_of_mem ha) (ih a ha σ' hthrows)
  | quantifier stack id q dummies body ih =>
    intro σ h
    rw [visitExpr_quantifier] at h
    split at h
    · cases h
    · rw [Obj.toExpr]
      exact .quantifier (ih σ (Option.map_eq_none_iff.mp h))

end Throws

/-!
# Values
-/

section Values

variable {functions : List Function} {e e' body : Expr} {subst : Substitution}
  {U : Type} [DecidableEq U] {I : Interp U} {ρ₀ ρ ρ' σ : Env U} {x : Variable}

theorem Binds.isBound (h : Binds x e) (he : e.BindsDummies) :
    x.isBound = true := by
  induction h with
  | here hx =>
    cases he with
    | quantifier hdummies _ => exact hdummies x hx
  | quantifier _ ih =>
    cases he with
    | quantifier _ hbody => exact ih hbody
  | old _ ih =>
    cases he with
    | old he => exact ih he
  | nary ha _ ih =>
    cases he with
    | nary hargs => exact ih (hargs _ ha)

theorem eval_apply (hpassive : e.Passive) (hnone : forall x, Binds x e -> subst x = none)
    (hcapture : forall x, Binds x e -> forall y a, subst y = some a -> ¬ a.Mentions x)
    (h : forall x, e.FreeIn x -> σ x = ((subst x).map (fun a => a.eval I ρ₀ ρ)).getD (ρ x)) :
    (Substituter.apply subst e).eval I ρ₀ ρ = e.eval I ρ₀ σ := by
  induction e generalizing ρ σ with
  | literal l => rw [Substituter.apply_literal, Expr.eval_literal, Expr.eval_literal]
  | ident y =>
    rw [Substituter.apply_ident, Expr.eval_ident, h y .ident]
    cases subst y with
    | none => exact Expr.eval_ident _ _ _ _
    | some a => rfl
  | old e ih => cases hpassive
  | nary f args ih =>
    cases hpassive with
    | nary hargs =>
      rw [Substituter.apply_nary, Expr.eval_nary, Expr.eval_nary,
        List.map_map]
      congr 1
      apply List.map_congr_left
      intro a ha
      exact ih a ha (hargs a ha) (fun x hx => hnone x (.nary ha hx))
        (fun x hx => hcapture x (.nary ha hx))
        (fun x hx => h x (.nary ha hx))
  | quantifier q dummies body ih =>
    cases hpassive with
    | quantifier hbody =>
      rw [Substituter.apply_quantifier]
      apply Expr.eval_quantifier_eq (P := fun _ => False) rfl
        (fun _ hx => hx.elim)
      intro ρ' σ' hρ' hσ' hagree
      apply ih hbody (fun x hx => hnone x (.quantifier hx))
        (fun x hx => hcapture x (.quantifier hx))
      intro y hy
      by_cases hmem : y ∈ dummies
      · rw [hnone y (.here hmem), ← hagree y (Or.inr hmem)]
        rfl
      · rw [hσ'.1 y hmem, h y (.quantifier hmem hy), hρ'.1 y hmem]
        congr 1
        cases hsubst : subst y with
        | none => rfl
        | some a =>
          rw [Option.map_some, Option.map_some]
          congr 1
          apply Expr.eval_congr (fun _ _ => rfl)
          intro z hz
          symm
          apply hρ'.1 z
          intro hzd
          exact hcapture z (.here hzd) y a hsubst hz

omit [DecidableEq U] in
theorem bindParams_congr {params : List Variable} {us : List (Value U)}
    (h : ρ' x = ρ x) : bindParams params us ρ' x = bindParams params us ρ x := by
  induction params generalizing us with
  | nil => exact h
  | cons p params ih =>
    cases us with
    | nil => exact h
    | cons u us =>
      unfold bindParams
      by_cases hx : x = p
      · rw [hx, Function.update_self, Function.update_self]
      · rw [Function.update_of_ne hx, Function.update_of_ne hx, ih]

theorem bindParams_argumentOf {params : List Variable} {args : List Expr} :
    bindParams params (args.map (fun a => a.eval I ρ₀ ρ)) ρ x =
      ((argumentOf params args x).map (fun a => a.eval I ρ₀ ρ)).getD (ρ x) := by
  unfold argumentOf
  induction params generalizing args with
  | nil => rfl
  | cons p params ih =>
    cases args with
    | nil => rfl
    | cons a args =>
      rw [List.map_cons, bindParams, List.zip_cons_cons, List.lookup_cons]
      by_cases hx : x = p
      · rw [hx, Function.update_self, beq_self_eq_true]
        rfl
      · rw [Function.update_of_ne hx, beq_eq_false_iff_ne.mpr hx]
        exact ih

theorem argumentOf_eq_none {A : Type} {params : List Variable} {args : List A}
    (h : x ∉ params) : argumentOf params args x = none := by
  unfold argumentOf
  induction params generalizing args with
  | nil => rfl
  | cons p params ih =>
    cases args with
    | nil => rfl
    | cons a args =>
      rw [List.mem_cons, not_or] at h
      rw [List.zip_cons_cons, List.lookup_cons, beq_eq_false_iff_ne.mpr h.1]
      exact ih h.2

theorem mem_of_argumentOf {A : Type} {params : List Variable} {args : List A}
    {a : A} (h : argumentOf params args x = some a) : a ∈ args := by
  rcases List.lookup_eq_some_iff.mp h with ⟨front, rest, hzip, _⟩
  have hmem : (x, a) ∈ params.zip args := by
    rw [hzip]
    exact List.mem_append_right front List.mem_cons_self
  exact (List.of_mem_zip hmem).2

end Values

/-!
# Scopes
-/

structure Scoped (functions : List Function) (stack : List String) (e : Expr) :
    Prop where
  bindsDummies : e.BindsDummies
  apart : forall f func body, toInline functions f = some (func, body) ->
    func.name ∉ stack -> forall x, Binds x body -> ¬ e.Mentions x

section Scopes

variable {functions : List Function} {stack : List String} {e e₀ : Expr}
  {f : Fun} {args : List Expr} {func : Function} {body : Expr}

theorem bindsDummies_apply {subst : Substitution} (he : e.BindsDummies)
    (h : forall x a, subst x = some a -> a.BindsDummies) :
    (Substituter.apply subst e).BindsDummies := by
  induction e with
  | literal l =>
    rw [Substituter.apply_literal]
    exact he
  | ident x =>
    rw [Substituter.apply_ident]
    cases hx : subst x with
    | none => exact he
    | some a => exact h x a hx
  | old e ih =>
    cases he with
    | old he =>
      rw [Substituter.apply_old]
      exact .old (ih he)
  | nary f args ih =>
    cases he with
    | nary hargs =>
      rw [Substituter.apply_nary]
      apply Expr.BindsDummies.nary
      intro a' ha'
      rcases List.mem_map.mp ha' with ⟨a, ha, rfl⟩
      exact ih a ha (hargs a ha)
  | quantifier q dummies body ih =>
    cases he with
    | quantifier hdummies hbody =>
      rw [Substituter.apply_quantifier]
      exact .quantifier hdummies (ih hbody)

theorem Resolved.scoped (h : Resolved functions e) : Scoped functions [] e where
  bindsDummies := h.bindsDummies
  apart f func body hf _ := h.apart f func body hf

theorem Scoped.old (h : Scoped functions stack (.old e)) :
    Scoped functions stack e where
  bindsDummies := by
    cases h.bindsDummies with
    | old he => exact he
  apart f func body hf hstack x hx hmem :=
    h.apart f func body hf hstack x hx (.old hmem)

theorem Scoped.argument (h : Scoped functions stack (.nary f args)) {a : Expr}
    (ha : a ∈ args) : Scoped functions stack a where
  bindsDummies := by
    cases h.bindsDummies with
    | nary hargs => exact hargs a ha
  apart f func body hf hstack x hx hmem :=
    h.apart f func body hf hstack x hx (.nary ha hmem)

theorem Scoped.quantifier {q : Quantifier} {dummies : List Variable}
    (h : Scoped functions stack (.quantifier q dummies e)) :
    Scoped functions stack e where
  bindsDummies := by
    cases h.bindsDummies with
    | quantifier _ he => exact he
  apart f func body hf hstack x hx hmem :=
    h.apart f func body hf hstack x hx (.quantifier hmem)

theorem Scoped.call (hres : Resolved functions e₀) (h : Scoped functions stack (.nary f args))
    (hf : toInline functions f = some (func, body)) :
    Scoped functions (func.name :: stack)
      (Substituter.apply (argumentOf func.inParams args) body) where
  bindsDummies := by
    apply bindsDummies_apply (hres.body_bindsDummies f func body hf)
    intro x a ha
    exact (h.argument (mem_of_argumentOf ha)).bindsDummies
  apart g func' body' hg hstack x hx hmem := by
    rw [List.mem_cons, not_or] at hstack
    rcases Substituter.mentions_of_apply hmem with
      ⟨hbody, _⟩ | ⟨y, a, _, ha, hax⟩
    · exact hres.body_apart g func' body' hg f func body hf
        (Ne.symm hstack.1) x hx hbody
    · exact h.apart g func' body' hg hstack.2 x hx
        (.nary (mem_of_argumentOf ha) hax)

theorem sameValue_call (hres : Resolved functions e₀) (h : Scoped functions stack (.nary f args))
    (hf : toInline functions f = some (func, body)) (hstack : func.name ∉ stack) :
    SameValue functions (.nary f args)
      (Substituter.apply (argumentOf func.inParams args) body) := by
  intro U _ I ρ₀ ρ hdefines
  rw [Expr.eval_nary, hdefines f func body hf]
  apply eval_apply (hres.passive f func body hf)
  · intro x hx
    apply argumentOf_eq_none
    intro hparam
    have hbound := hx.isBound (hres.body_bindsDummies f func body hf)
    rw [hres.params f func body hf x hparam] at hbound
    cases hbound
  · intro x hx y a ha hmem
    exact h.apart f func body hf hstack x hx (.nary (mem_of_argumentOf ha) hmem)
  · intro x _
    exact bindParams_argumentOf

end Scopes

/-!
# Inlined expressions
-/

structure Inlined (functions : List Function) (e e' : Expr) : Prop where
  withoutCalls : WithoutCalls functions e'
  sameValue : SameValue functions e e'
  ends : Acc (fun b a => Unfolds functions a b) e

section Inlined

variable {functions : List Function} {stack : List String} {e e' e₀ : Expr}
  {f : Fun} {args args' : List Expr} {func : Function} {body : Expr}

theorem Defines.congr {U : Type} [DecidableEq U] {I : Interp U}
    {ρ₀ ρ ρ' : Env U} (hres : Resolved functions e₀)
    (hρ : forall x, x.isBound = false -> x.isGlobal = false -> ρ' x = ρ x)
    (h : Defines I ρ₀ ρ functions) : Defines I ρ₀ ρ' functions := by
  intro f func body hf us
  rw [h f func body hf us]
  apply Expr.eval_congr_free (hres.passive f func body hf)
  intro x hx
  rcases hres.free f func body hf x hx with ⟨hbound, hglobal⟩
  exact (bindParams_congr (hρ x hbound hglobal)).symm

theorem Inlined.literal (l : Literal) :
    Inlined functions (.literal l) (.literal l) where
  withoutCalls _ h := by cases h
  sameValue _ _ _ _ _ _ := rfl
  ends := by
    constructor
    intro e h
    cases h

theorem Inlined.ident (x : Variable) :
    Inlined functions (.ident x) (.ident x) where
  withoutCalls _ h := by cases h
  sameValue _ _ _ _ _ _ := rfl
  ends := by
    constructor
    intro e h
    cases h

theorem Inlined.old (hres : Resolved functions e₀)
    (h : Inlined functions e e') : Inlined functions (.old e) (.old e') where
  withoutCalls name hcalls := by
    cases hcalls with
    | old hcalls => exact h.withoutCalls name hcalls
  sameValue U _ I ρ₀ ρ hdefines := by
    rw [Expr.eval_old, Expr.eval_old]
    apply h.sameValue
    apply hdefines.congr hres
    intro x _ hglobal
    unfold oldEnv
    rw [hglobal, if_neg Bool.false_ne_true]
  ends := by
    constructor
    intro a ha
    cases ha
    exact h.ends

theorem Inlined.quantifier (hres : Resolved functions e₀) {q : Quantifier}
    {dummies : List Variable} (hdummies : forall x, x ∈ dummies -> x.isBound = true)
    (h : Inlined functions e e') :
    Inlined functions (.quantifier q dummies e) (.quantifier q dummies e') where
  withoutCalls name hcalls := by
    cases hcalls with
    | quantifier hcalls => exact h.withoutCalls name hcalls
  sameValue U _ I ρ₀ ρ hdefines := by
    apply Expr.eval_quantifier_congr
    intro ρ' hρ'
    apply h.sameValue
    apply hdefines.congr hres
    intro x hbound _
    apply hρ'.1 x
    intro hx
    rw [hdummies x hx] at hbound
    cases hbound
  ends := by
    constructor
    intro a ha
    cases ha
    exact h.ends

theorem withoutCalls_nary (hf : toInline functions f = none)
    (h : forall a, a ∈ args -> WithoutCalls functions a) :
    WithoutCalls functions (.nary f args) := by
  intro name hcalls
  cases hcalls with
  | here => exact hf
  | nary ha hcalls => exact h _ ha name hcalls

theorem forall_withoutCalls (h : List.Forall₂ (Inlined functions) args args') :
    forall a, a ∈ args' -> WithoutCalls functions a := by
  induction h with
  | nil =>
    intro a ha
    cases ha
  | cons hhead _ ih =>
    intro a ha
    rcases List.mem_cons.mp ha with rfl | ha
    · exact hhead.withoutCalls
    · exact ih a ha

theorem forall_ends (h : List.Forall₂ (Inlined functions) args args') :
    forall a, a ∈ args -> Acc (fun b a => Unfolds functions a b) a := by
  induction h with
  | nil =>
    intro a ha
    cases ha
  | cons hhead _ ih =>
    intro a ha
    rcases List.mem_cons.mp ha with rfl | ha
    · exact hhead.ends
    · exact ih a ha

theorem map_eval {U : Type} [DecidableEq U] {I : Interp U} {ρ₀ ρ : Env U}
    (hdefines : Defines I ρ₀ ρ functions) (h : List.Forall₂ (Inlined functions) args args') :
    args'.map (fun a => a.eval I ρ₀ ρ) = args.map (fun a => a.eval I ρ₀ ρ) := by
  induction h with
  | nil => rfl
  | cons hhead _ ih =>
    rw [List.map_cons, List.map_cons, ih, hhead.sameValue U I ρ₀ ρ hdefines]

theorem Inlined.nary (hf : toInline functions f = none)
    (h : List.Forall₂ (Inlined functions) args args') :
    Inlined functions (.nary f args) (.nary f args') where
  withoutCalls := withoutCalls_nary hf (forall_withoutCalls h)
  sameValue U _ I ρ₀ ρ hdefines := by
    rw [Expr.eval_nary, Expr.eval_nary, map_eval hdefines h]
  ends := by
    constructor
    intro a ha
    cases ha with
    | call hf' =>
      rw [hf] at hf'
      cases hf'
    | argument _ ha => exact forall_ends h a ha

theorem Inlined.call (hres : Resolved functions e₀)
    (hscoped : Scoped functions stack (.nary f args))
    (hf : toInline functions f = some (func, body)) (hstack : func.name ∉ stack)
    (h : Inlined functions (Substituter.apply (argumentOf func.inParams args) body) e') :
    Inlined functions (.nary f args) e' where
  withoutCalls := h.withoutCalls
  sameValue U _ I ρ₀ ρ hdefines :=
    (h.sameValue U I ρ₀ ρ hdefines).trans
      (sameValue_call hres hscoped hf hstack U I ρ₀ ρ hdefines)
  ends := by
    constructor
    intro a ha
    cases ha with
    | call hf' =>
      rw [hf] at hf'
      cases hf'
      exact h.ends
    | argument hf' _ =>
      rw [hf] at hf'
      cases hf'

end Inlined

/-!
# The heap
-/

abbrev Content := Nat -> Option Expr

def Content.Extends (content content' : Content) : Prop :=
  forall id e, content id = some e -> content' id = some e

inductive Labelled (content : Content) : Obj -> Prop where
  | literal {l : Literal} : Labelled content (.literal l)
  | ident {x : Variable} : Labelled content (.ident x)
  | old {id : Nat} {e : Obj}
      (h : content id = some (Obj.old id e).toExpr) :
      Labelled content e -> Labelled content (.old id e)
  | nary {id : Nat} {f : Fun} {args : List Obj}
      (h : content id = some (Obj.nary id f args).toExpr) :
      (forall a, a ∈ args -> Labelled content a) ->
      Labelled content (.nary id f args)
  | quantifier {id : Nat} {q : Quantifier} {dummies : List Variable}
      {body : Obj}
      (h : content id = some (Obj.quantifier id q dummies body).toExpr) :
      Labelled content body -> Labelled content (.quantifier id q dummies body)

/-- What stands in the place of an object is its inlined expression. -/
structure Heap.Sound (functions : List Function) (content : Content)
    (σ : Heap) : Prop where
  changed : forall id o, σ.changed id = some o -> exists e,
    content id = some e ∧ Inlined functions e o.toExpr
  fresh : forall id, σ.next ≤ id -> content id = none

section Labels

variable {functions : List Function} {content content' content'' : Content}
  {o : Obj} {subst : Variable -> Option Obj} {e : Expr} {σ : Heap} {id n : Nat}

theorem Content.Extends.refl (content : Content) : content.Extends content :=
  fun _ _ h => h

theorem Content.Extends.trans (h : content.Extends content')
    (h' : content'.Extends content'') : content.Extends content'' :=
  fun id e hid => h' id e (h id e hid)

theorem Content.extends_update (h : content id = none) (e : Expr) :
    content.Extends (Function.update content id (some e)) := by
  intro id' e' hid'
  have hne : id' ≠ id := by
    rintro rfl
    rw [h] at hid'
    cases hid'
  rwa [Function.update_of_ne hne]

theorem Labelled.mono (h : Labelled content o)
    (hext : content.Extends content') : Labelled content' o := by
  induction h with
  | literal => exact .literal
  | ident => exact .ident
  | old h _ ih => exact .old (hext _ _ h) ih
  | nary h _ ih => exact .nary (hext _ _ h) ih
  | quantifier h _ ih => exact .quantifier (hext _ _ h) ih

theorem Heap.Sound.change (h : σ.Sound functions content)
    (hid : content id = some e) (ho : Inlined functions e o.toExpr) :
    (σ.change id o).Sound functions content where
  changed := by
    intro id' o' hchanged
    unfold Heap.change at hchanged
    by_cases hne : id' = id
    · subst hne
      dsimp only at hchanged
      rw [Function.update_self] at hchanged
      cases hchanged
      exact ⟨e, hid, ho⟩
    · dsimp only at hchanged
      rw [Function.update_of_ne hne] at hchanged
      exact h.changed id' o' hchanged
  fresh := h.fresh

structure Copied (content : Content) (os : List Obj) (next : Nat)
    (content' : Content) : Prop where
  extend : content.Extends content'
  labelled : forall o, o ∈ os -> Labelled content' o
  fresh : forall id, next ≤ id -> content' id = none

theorem copySeq_copied {es : List Expr} (h : forall e, e ∈ es -> forall n (content : Content),
      (forall id, n ≤ id -> content id = none) ->
      (forall x o, subst x = some o -> Labelled content o) ->
      exists content', Copied content [(copy subst e n).1] (copy subst e n).2 content')
    (hfresh : forall id, n ≤ id -> content id = none)
    (hsubst : forall x o, subst x = some o -> Labelled content o) :
    exists content', Copied content (copy.copySeq subst es n).1
      (copy.copySeq subst es n).2 content' := by
  induction es generalizing n content with
  | nil =>
    exists content
    constructor
    · exact .refl content
    · intro o ho
      cases ho
    · exact hfresh
  | cons e es ih =>
    rcases h e List.mem_cons_self n content hfresh hsubst with ⟨content', he⟩
    rcases ih (fun e' he' => h e' (List.mem_cons_of_mem e he')) he.fresh
      (fun x o ho => (hsubst x o ho).mono he.extend) with ⟨content'', hes⟩
    exists content''
    constructor
    · exact he.extend.trans hes.extend
    · intro o ho
      rcases List.mem_cons.mp ho with rfl | ho
      · exact (he.labelled _ List.mem_cons_self).mono hes.extend
      · exact hes.labelled o ho
    · exact hes.fresh

theorem Copied.node (hfresh : forall id, n ≤ id -> content id = none)
    {os : List Obj} {next : Nat}
    (h : Copied (Function.update content n (some o.toExpr)) os next content')
    (ho : content' n = some o.toExpr ->
      (forall a, a ∈ os -> Labelled content' a) -> Labelled content' o) :
    Copied content [o] next content' where
  extend := (Content.extends_update (hfresh n (le_refl n)) _).trans h.extend
  labelled := by
    intro o' ho'
    rw [List.mem_singleton.mp ho']
    exact ho (h.extend n _ (Function.update_self ..)) h.labelled
  fresh := h.fresh

theorem copy_copied (e : Expr) :
    forall n (content : Content), (forall id, n ≤ id -> content id = none) ->
      (forall x o, subst x = some o -> Labelled content o) ->
      exists content', Copied content [(copy subst e n).1] (copy subst e n).2 content' := by
  have hupdate : forall (n : Nat) (content : Content) (e : Expr),
      (forall id, n ≤ id -> content id = none) -> forall id, n + 1 ≤ id ->
        Function.update content n (some e) id = none := by
    intro n content e hfresh id hid
    rw [Function.update_of_ne (Nat.ne_of_gt hid)]
    exact hfresh id (Nat.le_of_succ_le hid)
  induction e with
  | literal l =>
    intro n content hfresh _
    exists content
    constructor
    · exact .refl content
    · intro o ho
      rw [List.mem_singleton.mp ho, copy]
      exact .literal
    · rw [copy]
      exact hfresh
  | ident x =>
    intro n content hfresh hsubst
    exists content
    constructor
    · exact .refl content
    · intro o ho
      rw [List.mem_singleton.mp ho, copy]
      cases hx : subst x with
      | none => exact .ident
      | some o' => exact hsubst x o' hx
    · rw [copy]
      exact hfresh
  | old e ih =>
    intro n content hfresh hsubst
    let o := Obj.old n (copy subst e (n + 1)).1
    rcases ih (n + 1) (Function.update content n (some o.toExpr))
        (hupdate n content _ hfresh)
        (fun x o ho => (hsubst x o ho).mono
          (Content.extends_update (hfresh n (le_refl n)) _)) with ⟨content', h⟩
    exists content'
    rw [copy]
    apply Copied.node hfresh h
    intro hn hparts
    exact .old hn (hparts _ List.mem_cons_self)
  | nary f args ih =>
    intro n content hfresh hsubst
    let o := Obj.nary n f (copy.copySeq subst args (n + 1)).1
    rcases copySeq_copied ih (hupdate n content o.toExpr hfresh)
        (fun x o ho => (hsubst x o ho).mono
          (Content.extends_update (hfresh n (le_refl n)) _)) with ⟨content', h⟩
    exists content'
    rw [copy]
    apply Copied.node hfresh h
    intro hn hparts
    exact .nary hn hparts
  | quantifier q dummies body ih =>
    intro n content hfresh hsubst
    let o := Obj.quantifier n q dummies (copy subst body (n + 1)).1
    rcases ih (n + 1) (Function.update content n (some o.toExpr))
        (hupdate n content _ hfresh)
        (fun x o ho => (hsubst x o ho).mono
          (Content.extends_update (hfresh n (le_refl n)) _)) with ⟨content', h⟩
    exists content'
    rw [copy]
    apply Copied.node hfresh h
    intro hn hparts
    exact .quantifier hn (hparts _ List.mem_cons_self)

end Labels

/-!
# What a visit gives
-/

structure Visited (functions : List Function) (content : Content) (o o' : Obj)
    (σ' : Heap) (content' : Content) : Prop where
  extend : content.Extends content'
  sound : σ'.Sound functions content'
  inlined : Inlined functions o.toExpr o'.toExpr

section Visits

variable {functions : List Function} {stack : List String}
  {content : Content} {σ σ' : Heap} {o o' : Obj} {args args' : List Obj}
  {e e₀ : Expr} {id : Nat}

theorem Heap.Sound.visited (hσ : σ.Sound functions content)
    (ho : σ.changed id = some o') (hid : content id = some o.toExpr) :
    Visited functions content o o' σ content where
  extend := .refl content
  sound := hσ
  inlined := by
    rcases hσ.changed id o' ho with ⟨e, he, hinlined⟩
    rw [hid] at he
    cases he
    exact hinlined

theorem visitExprSeq_visited
    (h : forall a, a ∈ args -> forall content σ a' σ', σ.Sound functions content ->
      Labelled content a -> visitExpr functions stack a σ = some (a', σ') ->
      exists content', Visited functions content a a' σ' content') (hσ : σ.Sound functions content)
    (hargs : forall a, a ∈ args -> Labelled content a)
    (hvisit : visitExprSeq functions stack args σ = some (args', σ')) :
    exists content', content.Extends content' ∧ σ'.Sound functions content' ∧
      List.Forall₂ (Inlined functions) (args.map Obj.toExpr) (args'.map Obj.toExpr) := by
  induction args generalizing content σ args' with
  | nil =>
    rw [visitExprSeq] at hvisit
    cases hvisit
    exact ⟨content, .refl content, hσ, .nil⟩
  | cons a args ih =>
    rw [visitExprSeq] at hvisit
    simp only [Option.bind_eq_bind, Option.bind_eq_some_iff] at hvisit
    rcases hvisit with ⟨⟨a', τ⟩, ha, ⟨rest, τ'⟩, hrest, heq⟩
    cases heq
    rcases h a List.mem_cons_self content σ a' τ hσ
      (hargs a List.mem_cons_self) ha with ⟨content', hhead⟩
    rcases ih (fun b hb => h b (List.mem_cons_of_mem a hb)) hhead.sound
      (fun b hb => (hargs b (List.mem_cons_of_mem a hb)).mono hhead.extend)
      hrest with ⟨content'', hext, hsound, htail⟩
    exists content''
    constructor
    · exact hhead.extend.trans hext
    constructor
    · exact hsound
    · exact .cons hhead.inlined htail

theorem visitExpr_visited (hres : Resolved functions e₀) (stack : List String)
    (o : Obj) : forall content σ o' σ', σ.Sound functions content ->
      Labelled content o -> Scoped functions stack o.toExpr ->
      visitExpr functions stack o σ = some (o', σ') ->
      exists content', Visited functions content o o' σ' content' := by
  induction stack, o using visitInduction with
  | literal stack l =>
    intro content σ o' σ' hσ _ _ hvisit
    rw [visitExpr] at hvisit
    cases hvisit
    exact ⟨content, .refl content, hσ, .literal l⟩
  | ident stack x =>
    intro content σ o' σ' hσ _ _ hvisit
    rw [visitExpr] at hvisit
    cases hvisit
    exact ⟨content, .refl content, hσ, .ident x⟩
  | old stack id e ih =>
    intro content σ o' σ' hσ hlabelled hscoped hvisit
    cases hlabelled with
    | old hid he =>
      rw [visitExpr_old] at hvisit
      split at hvisit
      · rename_i hchanged
        cases hvisit
        exact ⟨content, hσ.visited hchanged hid⟩
      · rcases Option.map_eq_some_iff.mp hvisit with ⟨⟨e', τ⟩, hpart, heq⟩
        cases heq
        rw [Obj.toExpr] at hscoped
        rcases ih content σ e' τ hσ he hscoped.old hpart with
          ⟨content', h⟩
        have hinlined : Inlined functions (Obj.old id e).toExpr
            (Obj.old id e').toExpr := h.inlined.old hres
        exact ⟨content', h.extend,
          h.sound.change (h.extend id _ hid) hinlined, hinlined⟩
  | again stack id f args func body hf hmem =>
    intro content σ o' σ' _ _ _ hvisit
    rw [visitExpr_again hf hmem] at hvisit
    cases hvisit
  | call stack id f args func body hf hmem ih =>
    intro content σ o' σ' hσ hlabelled hscoped hvisit
    cases hlabelled with
    | nary hid hargs =>
      rw [visitExpr_call hf hmem] at hvisit
      rw [Obj.toExpr_nary] at hscoped
      have hsubst : forall x o, argumentOf func.inParams args x = some o ->
          Labelled content o :=
        fun x o ho => hargs o (mem_of_argumentOf ho)
      rcases copy_copied body σ.next content hσ.fresh hsubst with
        ⟨content', hcopied⟩
      have hsound : Heap.Sound functions content'
          { σ with next :=
            (copy (argumentOf func.inParams args) body σ.next).2 } := by
        constructor
        · intro id' o'' hchanged
          rcases hσ.changed id' o'' hchanged with ⟨e, he, hinlined⟩
          exact ⟨e, hcopied.extend id' e he, hinlined⟩
        · exact hcopied.fresh
      have hbody := hscoped.call hres hf
      rw [← copy_argumentOf_toExpr _ _ _ σ.next] at hbody
      rcases ih σ.next content' _ o' σ' hsound
        (hcopied.labelled _ List.mem_cons_self) hbody hvisit with
        ⟨content'', h⟩
      exists content''
      constructor
      · exact hcopied.extend.trans h.extend
      · exact h.sound
      · have hinlined := h.inlined
        rw [copy_argumentOf_toExpr] at hinlined
        rw [Obj.toExpr_nary]
        exact hinlined.call hres hscoped hf hmem
  | nary stack id f args hf ih =>
    intro content σ o' σ' hσ hlabelled hscoped hvisit
    cases hlabelled with
    | nary hid hargs =>
      cases hchanged : σ.changed id with
      | some o =>
        rw [visitExpr_changed hf hchanged] at hvisit
        cases hvisit
        exact ⟨content, hσ.visited hchanged hid⟩
      | none =>
        rw [visitExpr_nary hf hchanged] at hvisit
        rcases Option.map_eq_some_iff.mp hvisit with
          ⟨⟨args', τ⟩, hparts, heq⟩
        cases heq
        rw [Obj.toExpr_nary] at hscoped
        rcases visitExprSeq_visited (fun a ha content σ a' σ' hσ hlabelled =>
            ih a ha content σ a' σ' hσ hlabelled
              (hscoped.argument (List.mem_map_of_mem ha)))
          hσ hargs hparts with ⟨content', hext, hsound, hinlined⟩
        have hnary : Inlined functions (Obj.nary id f args).toExpr
            (Obj.nary id f args').toExpr := by
          rw [Obj.toExpr_nary, Obj.toExpr_nary]
          exact .nary hf hinlined
        exact ⟨content', hext, hsound.change (hext id _ hid) hnary, hnary⟩
  | quantifier stack id q dummies body ih =>
    intro content σ o' σ' hσ hlabelled hscoped hvisit
    cases hlabelled with
    | quantifier hid hbody =>
      rw [visitExpr_quantifier] at hvisit
      split at hvisit
      · rename_i hchanged
        cases hvisit
        exact ⟨content, hσ.visited hchanged hid⟩
      · rcases Option.map_eq_some_iff.mp hvisit with
          ⟨⟨body', τ⟩, hpart, heq⟩
        cases heq
        rw [Obj.toExpr] at hscoped
        rcases ih content σ body' τ hσ hbody hscoped.quantifier hpart with
          ⟨content', h⟩
        have hdummies : forall x, x ∈ dummies -> x.isBound = true := by
          cases hscoped.bindsDummies with
          | quantifier hdummies _ => exact hdummies
        have hinlined : Inlined functions
            (Obj.quantifier id q dummies body).toExpr
            (Obj.quantifier id q dummies body').toExpr :=
          h.inlined.quantifier hres hdummies
        exact ⟨content', h.extend,
          h.sound.change (h.extend id _ hid) hinlined, hinlined⟩

theorem toExpr_copy_none (e : Expr) (n : Nat) :
    (copy (fun _ => none) e n).1.toExpr = e := by
  rw [copy_toExpr]
  exact Substituter.apply_eq_self (fun _ _ => rfl)

theorem inlined_of_visit {e' : Expr} (hres : Resolved functions e)
    (h : visit functions e = some e') : Inlined functions e e' := by
  rcases Option.map_eq_some_iff.mp h with ⟨⟨o', σ'⟩, hvisit, rfl⟩
  have hsubst : forall (x : Variable) (o : Obj),
      (fun _ => none : Variable -> Option Obj) x = some o ->
        Labelled (fun _ => none) o := by
    intro x o ho
    cases ho
  rcases copy_copied e 0 (fun _ => none) (fun _ _ => rfl) hsubst with
    ⟨content, hcopied⟩
  have hsound : Heap.Sound functions content
      ⟨(copy (fun _ => none) e 0).2, fun _ => none⟩ := by
    constructor
    · intro id o ho
      cases ho
    · exact hcopied.fresh
  have hscoped : Scoped functions [] (copy (fun _ => none) e 0).1.toExpr := by
    rw [toExpr_copy_none]
    exact hres.scoped
  rcases visitExpr_visited hres [] _ content _ o' σ' hsound
    (hcopied.labelled _ List.mem_cons_self) hscoped hvisit with ⟨content', hv⟩
  have hinlined := hv.inlined
  rwa [toExpr_copy_none] at hinlined

theorem repeats_of_visit (h : visit functions e = none) :
    Repeats functions [] e := by
  have hrepeats := repeats_of_visitExpr [] (copy (fun _ => none) e 0).1 _
    (Option.map_eq_none_iff.mp h)
  rwa [toExpr_copy_none] at hrepeats

theorem not_recursive_of_ends (h : Acc (fun b a => Unfolds functions a b) e) :
    ¬ Recursive functions e := by
  induction h with
  | intro e _ ih =>
    rintro ⟨chain, rfl, hchain⟩
    exact ih (chain 1) (hchain 0)
      ⟨fun n => chain (n + 1), rfl, fun n => hchain (n + 1)⟩

/-- Inlining is correct where a chain of unfoldings has no end, and where no
chain repeats a function. -/
theorem inlinesCorrectly_of_not_repeats (hres : Resolved functions e)
    (h : Recursive functions e ∨ ¬ Repeats functions [] e) :
    InlinesCorrectly functions e := by
  constructor
  · constructor
    · intro hthrows
      exact h.resolve_right (not_not_intro (repeats_of_visit hthrows))
    · intro hrecursive
      cases hvisit : visit functions e with
      | none => rfl
      | some e' =>
        exact absurd hrecursive
          (not_recursive_of_ends (inlined_of_visit hres hvisit).ends)
  · intro e' he'
    exact (inlined_of_visit hres he').withoutCalls
  · intro e' he'
    exact (inlined_of_visit hres he').sameValue

/-!
# A function that gives its argument
-/

def parameter : Variable :=
  .formal ⟨"x", .int⟩

def identity : Function :=
  ⟨"f", [parameter], some (.ident parameter), true⟩

def callIdentity (e : Expr) : Expr :=
  .nary (.functionCall "f") [e]

theorem toInline_identity :
    toInline [identity] (.functionCall "f") = some (identity, .ident parameter) := by
  simp [toInline, identity]

theorem apply_identity (e : Expr) :
    Substituter.apply (argumentOf identity.inParams [e]) (.ident parameter) = e := by
  rw [Substituter.apply_ident]
  have harg : argumentOf identity.inParams [e] parameter = some e := by
    simp [argumentOf, identity]
  rw [harg]
  rfl

theorem unfolds_callIdentity {e e' : Expr}
    (h : Unfolds [identity] (callIdentity e) e') : e' = e := by
  cases h with
  | call hf =>
    rw [toInline_identity] at hf
    cases hf
    exact apply_identity e
  | argument hf _ =>
    rw [toInline_identity] at hf
    cases hf

/-- In `f(f(1))` the inner call is an argument of the outer one. -/
theorem nested_call_refused :
    ¬ InlinesCorrectly [identity] (callIdentity (callIdentity (Expr.intLiteral 1))) := by
  intro h
  have hends : Acc (fun b a => Unfolds [identity] a b)
      (callIdentity (callIdentity (Expr.intLiteral 1))) := by
    constructor
    intro e he
    rw [unfolds_callIdentity he]
    constructor
    intro e he
    rw [unfolds_callIdentity he]
    exact (Inlined.literal (.int 1)).ends
  apply not_recursive_of_ends hends
  apply h.throws_iff.mp
  apply Option.map_eq_none_iff.mpr
  have hcopy : copy (fun _ => none)
      (callIdentity (callIdentity (Expr.intLiteral 1))) 0 =
      (.nary 0 (.functionCall "f") [.nary 1 (.functionCall "f")
        [.literal (.int 1)]], 2) := by
    simp [callIdentity, Expr.intLiteral, copy, copy.copySeq]
  rw [hcopy, visitExpr_call toInline_identity List.not_mem_nil]
  have hbody : forall o n, copy (argumentOf identity.inParams [o])
      (.ident parameter) n = (o, n) := by
    intro o n
    simp [copy, argumentOf, identity]
  rw [hbody]
  exact visitExpr_again toInline_identity List.mem_cons_self

/-!
# Two functions
-/

def sum (a b : Expr) : Expr :=
  .nary (.binary .add) [a, b]

def double : Function :=
  ⟨"g", [parameter], some (sum (.ident parameter) (.ident parameter)), true⟩

def callDouble (e : Expr) : Expr :=
  .nary (.functionCall "g") [e]

theorem toInline_double {f : Fun} {func : Function} {body : Expr}
    (h : toInline [identity, double] f = some (func, body)) :
    f = .functionCall "f" ∧ func = identity ∧ body = .ident parameter ∨
      f = .functionCall "g" ∧ func = double ∧
        body = sum (.ident parameter) (.ident parameter) := by
  cases f with
  | functionCall name =>
    by_cases hf : "f" = name
    · subst hf
      simp [toInline, identity] at h
      exact Or.inl ⟨rfl, h.1.symm, h.2.symm⟩
    · by_cases hg : "g" = name
      · subst hg
        simp [toInline, identity, double] at h
        exact Or.inr ⟨rfl, h.1.symm, h.2.symm⟩
      · simp [toInline, identity, double, hf, hg] at h
  | unary op => cases h
  | binary op => cases h
  | mapSelect => cases h
  | mapStore => cases h
  | ifThenElse => cases h

theorem body_spec {f : Fun} {func : Function} {body : Expr}
    (h : toInline [identity, double] f = some (func, body)) :
    body.BindsDummies ∧ body.Passive ∧ func.inParams = [parameter] ∧
      (forall x, body.FreeIn x -> x = parameter) ∧ forall x, ¬ Binds x body := by
  rcases toInline_double h with ⟨_, rfl, rfl⟩ | ⟨_, rfl, rfl⟩
  · refine ⟨.ident, .ident, rfl, ?_, ?_⟩
    · intro x hx
      cases hx
      rfl
    · intro x hx
      cases hx
  · refine ⟨.nary ?_, .nary ?_, rfl, ?_, ?_⟩
    · intro a ha
      simp only [List.mem_cons, List.not_mem_nil, or_false, or_self] at ha
      rw [ha]
      exact .ident
    · intro a ha
      simp only [List.mem_cons, List.not_mem_nil, or_false, or_self] at ha
      rw [ha]
      exact .ident
    · intro x hx
      cases hx with
      | nary ha hx =>
        simp only [List.mem_cons, List.not_mem_nil, or_false, or_self] at ha
        subst ha
        cases hx
        rfl
    · intro x hx
      cases hx with
      | nary ha hx =>
        simp only [List.mem_cons, List.not_mem_nil, or_false, or_self] at ha
        subst ha
        cases hx

theorem resolved_double {e : Expr} (he : e.BindsDummies) :
    Resolved [identity, double] e where
  bindsDummies := he
  passive := fun f func body h => (body_spec h).2.1
  body_bindsDummies := fun f func body h => (body_spec h).1
  params := by
    intro f func body h x hx
    rw [(body_spec h).2.2.1, List.mem_singleton] at hx
    rw [hx]
    rfl
  free := by
    intro f func body h x hx
    rw [(body_spec h).2.2.2.1 x hx]
    exact ⟨rfl, rfl⟩
  apart := fun f func body h x hx => absurd hx ((body_spec h).2.2.2.2 x)
  body_apart := fun f func body h _ _ _ _ _ x hx => absurd hx ((body_spec h).2.2.2.2 x)

theorem not_repeats_literal {functions : List Function} {stack : List String} {l : Literal} :
    ¬ Repeats functions stack (.literal l) := by
  intro h
  cases h

theorem not_repeats_callIdentity :
    ¬ Repeats [identity, double] ["g"] (callIdentity (Expr.intLiteral 1)) := by
  intro h
  cases h with
  | again hf hstack =>
    rcases toInline_double hf with ⟨_, rfl, _⟩ | ⟨hname, _⟩
    · exact absurd hstack (by decide)
    · exact absurd hname (by decide)
  | argument hf _ _ => exact absurd hf (by simp [toInline, identity])
  | call hf h =>
    rcases toInline_double hf with ⟨_, rfl, rfl⟩ | ⟨hname, _⟩
    · rw [apply_identity] at h
      exact not_repeats_literal h
    · exact absurd hname (by decide)

theorem apply_double (e : Expr) :
    Substituter.apply (argumentOf double.inParams [e])
      (sum (.ident parameter) (.ident parameter)) = sum e e := by
  have harg : argumentOf double.inParams [e] parameter = some e := by
    simp [argumentOf, double]
  simp [sum, Substituter.apply, harg]

theorem not_repeats_callDouble :
    ¬ Repeats [identity, double] [] (callDouble (callIdentity (Expr.intLiteral 1))) := by
  intro h
  cases h with
  | again _ hstack => cases hstack
  | argument hf _ _ => exact absurd hf (by simp [toInline, identity, double])
  | call hf h =>
    rcases toInline_double hf with ⟨hname, _⟩ | ⟨_, rfl, rfl⟩
    · exact absurd hname (by decide)
    · rw [apply_double] at h
      -- both arguments of the sum are the inner call
      cases h with
      | again hf _ => cases hf
      | call hf _ => cases hf
      | argument _ ha h =>
        simp only [List.mem_cons, List.not_mem_nil, or_false, or_self] at ha
        subst ha
        exact not_repeats_callIdentity h

/-- In `g(f(1))` the argument is used twice in the body of `g`. -/
theorem callDouble_inlined :
    ¬ Repeats [identity, double] [] (callDouble (callIdentity (Expr.intLiteral 1))) ∧
      InlinesCorrectly [identity, double] (callDouble (callIdentity (Expr.intLiteral 1))) := by
  refine ⟨not_repeats_callDouble,
    inlinesCorrectly_of_not_repeats (resolved_double ?_) (Or.inr not_repeats_callDouble)⟩
  apply Expr.BindsDummies.nary
  intro a ha
  rw [List.mem_singleton.mp ha]
  apply Expr.BindsDummies.nary
  intro b hb
  rw [List.mem_singleton.mp hb]
  exact .literal

end Visits

end InlineFunctionCalls
end Boogie
