import Boogie.Core.Expr

/-!
# Substitution

The substitution for the variables of an expression.  It applies within `old`
and leaves the `old` itself in place; what a quantifier binds is not renamed.
-/

namespace Boogie

abbrev Substitution := Variable -> Option Expr

namespace Substituter

mutual

def apply (subst : Substitution) : Expr -> Expr
  | .literal l => .literal l
  | .ident x =>
    match subst x with
    | some e => e
    | none => .ident x
  | .old e => .old (apply subst e)
  | .nary f args => .nary f (applyAll subst args)
  | .quantifier q dummies body => .quantifier q dummies (apply subst body)

def applyAll (subst : Substitution) : List Expr -> List Expr
  | [] => []
  | e :: es => apply subst e :: applyAll subst es

end

variable {subst subst' : Substitution} {e : Expr}

theorem applyAll_eq_map (es : List Expr) :
    applyAll subst es = es.map (apply subst) := by
  induction es with
  | nil => rfl
  | cons e es ih =>
    rw [List.map_cons, ← ih]
    rfl

@[simp] theorem apply_literal (l : Literal) :
    apply subst (.literal l) = .literal l := by
  rfl

theorem apply_ident (x : Variable) :
    apply subst (.ident x) = (subst x).getD (.ident x) := by
  change (match subst x with | some e => e | none => .ident x) = _
  cases subst x <;> rfl

@[simp] theorem apply_old (e : Expr) :
    apply subst (.old e) = .old (apply subst e) := by
  rfl

@[simp] theorem apply_nary (f : Fun) (args : List Expr) :
    apply subst (.nary f args) = .nary f (args.map (apply subst)) := by
  rw [← applyAll_eq_map]
  rfl

@[simp] theorem apply_quantifier (q : Quantifier) (dummies : List Variable) (body : Expr) :
    apply subst (.quantifier q dummies body) = .quantifier q dummies (apply subst body) := by
  rfl

theorem apply_congr (h : forall x, e.Mentions x -> subst x = subst' x) :
    apply subst e = apply subst' e := by
  induction e with
  | literal l => simp
  | ident x => rw [apply_ident, apply_ident, h x Expr.Mentions.ident]
  | old e ih =>
    rw [apply_old, apply_old, ih (fun x hx => h x (Expr.Mentions.old hx))]
  | nary f args ih =>
    rw [apply_nary, apply_nary]
    have hargs : args.map (apply subst) = args.map (apply subst') :=
      List.map_congr_left (fun a ha =>
        ih a ha (fun x hx => h x (Expr.Mentions.nary ha hx)))
    rw [hargs]
  | quantifier q dummies body ih =>
    rw [apply_quantifier, apply_quantifier,
      ih (fun x hx => h x (Expr.Mentions.quantifier hx))]

theorem apply_eq_self (h : forall x, e.Mentions x -> subst x = none) :
    apply subst e = e := by
  induction e with
  | literal l => simp
  | ident x => simp [apply_ident, h x Expr.Mentions.ident]
  | old e ih => rw [apply_old, ih (fun x hx => h x (Expr.Mentions.old hx))]
  | nary f args ih =>
    rw [apply_nary]
    have hargs : args.map (apply subst) = args.map id :=
      List.map_congr_left (fun a ha =>
        ih a ha (fun x hx => h x (Expr.Mentions.nary ha hx)))
    rw [hargs, List.map_id]
  | quantifier q dummies body ih =>
    rw [apply_quantifier, ih (fun x hx => h x (Expr.Mentions.quantifier hx))]

theorem mentions_apply {x : Variable} (hx : e.Mentions x)
    (hnone : subst x = none) : (apply subst e).Mentions x := by
  induction hx with
  | ident =>
    rw [apply_ident, hnone]
    exact Expr.Mentions.ident
  | old _ ih =>
    rw [apply_old]
    exact Expr.Mentions.old ih
  | nary ha _ ih =>
    rw [apply_nary]
    exact Expr.Mentions.nary (List.mem_map_of_mem ha) ih
  | quantifier _ ih =>
    rw [apply_quantifier]
    exact Expr.Mentions.quantifier ih

theorem mentions_of_apply {x : Variable} (h : (apply subst e).Mentions x) :
    (e.Mentions x ∧ subst x = none) ∨
      exists y e', e.Mentions y ∧ subst y = some e' ∧ e'.Mentions x := by
  induction e with
  | literal l =>
    rw [apply_literal] at h
    cases h
  | ident y =>
    rw [apply_ident] at h
    cases hy : subst y with
    | none =>
      rw [hy] at h
      cases h
      exact Or.inl ⟨Expr.Mentions.ident, hy⟩
    | some e' =>
      rw [hy] at h
      exact Or.inr ⟨y, e', Expr.Mentions.ident, hy, h⟩
  | old e ih =>
    rw [apply_old] at h
    cases h with
    | old h =>
      rcases ih h with ⟨hx, hnone⟩ | ⟨y, e', hy, hsome, hx⟩
      · exact Or.inl ⟨Expr.Mentions.old hx, hnone⟩
      · exact Or.inr ⟨y, e', Expr.Mentions.old hy, hsome, hx⟩
  | nary f args ih =>
    rw [apply_nary] at h
    cases h with
    | nary ha h =>
      rcases List.mem_map.mp ha with ⟨a, hmem, rfl⟩
      rcases ih a hmem h with ⟨hx, hnone⟩ | ⟨y, e', hy, hsome, hx⟩
      · exact Or.inl ⟨Expr.Mentions.nary hmem hx, hnone⟩
      · exact Or.inr ⟨y, e', Expr.Mentions.nary hmem hy, hsome, hx⟩
  | quantifier q dummies body ih =>
    rw [apply_quantifier] at h
    cases h with
    | quantifier h =>
      rcases ih h with ⟨hx, hnone⟩ | ⟨y, e', hy, hsome, hx⟩
      · exact Or.inl ⟨Expr.Mentions.quantifier hx, hnone⟩
      · exact Or.inr ⟨y, e', Expr.Mentions.quantifier hy, hsome, hx⟩

end Substituter

end Boogie
