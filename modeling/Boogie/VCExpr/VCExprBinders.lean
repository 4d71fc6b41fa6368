import Mathlib.Data.List.Nodup
import Mathlib.Data.Set.Basic
import Mathlib.Order.WellFounded
import Boogie.Foundation.TopologicalSort

/-!
# Expressions with binders

The expressions the visitors of the prover back end traverse, over any operators
and types: variables, applications, quantifiers with their triggers, and lets
whose bindings may refer to each other.
-/

namespace Boogie
namespace VCExprAST

/-- What expressions are built from. An operator comes with its type arguments, a
quantifier with its kind and its annotations. -/
structure Signature where
  Var : Type
  TypeVar : Type
  Op : Type
  Literal : Type
  Quan : Type
  [decVar : DecidableEq Var]

attribute [instance] Signature.decVar

variable {S : Signature}

inductive VCExpr (S : Signature) where
  | literal (l : S.Literal)
  | var (x : S.Var)
  | nary (op : S.Op) (args : List (VCExpr S))
  /-- A trigger is a list of expressions that is positive or negative. -/
  | quantifier (quan : S.Quan) (typeParameters : List S.TypeVar)
      (boundVars : List S.Var) (triggers : List (Bool × List (VCExpr S)))
      (body : VCExpr S)
  | letExpr (bindings : List (S.Var × VCExpr S)) (body : VCExpr S)

abbrev LetBinding (S : Signature) :=
  S.Var × VCExpr S

theorem sizeOf_snd_lt {A B : Type} [SizeOf A] [SizeOf B] {l : List (A × B)}
    {p : A × B} (h : p ∈ l) : sizeOf p.2 < sizeOf l := by
  have hmem := List.sizeOf_lt_of_mem h
  have hpair : sizeOf p = 1 + sizeOf p.1 + sizeOf p.2 := by
    cases p
    simp
  omega

theorem VCExpr.ind {P : VCExpr S -> Prop} (literal : forall l, P (.literal l))
    (var : forall x, P (.var x))
    (nary : forall op args, (forall a, a ∈ args -> P a) -> P (.nary op args))
    (quantifier : forall quan as xs triggers body,
      (forall t, t ∈ triggers -> forall a, a ∈ t.2 -> P a) -> P body ->
      P (.quantifier quan as xs triggers body))
    (letExpr : forall bs body, (forall b, b ∈ bs -> P b.2) -> P body ->
      P (.letExpr bs body)) (e : VCExpr S) : P e := by
  match e with
  | .literal l => exact literal l
  | .var x => exact var x
  | .nary op args =>
    exact nary op args
      (fun a ha => VCExpr.ind literal var nary quantifier letExpr a)
  | .quantifier quan as xs triggers body =>
    exact quantifier quan as xs triggers body
      (fun t ht a ha => VCExpr.ind literal var nary quantifier letExpr a)
      (VCExpr.ind literal var nary quantifier letExpr body)
  | .letExpr bs body =>
    exact letExpr bs body
      (fun b hb => VCExpr.ind literal var nary quantifier letExpr b.2)
      (VCExpr.ind literal var nary quantifier letExpr body)
termination_by sizeOf e
decreasing_by
  all_goals simp only [VCExpr.nary.sizeOf_spec, VCExpr.quantifier.sizeOf_spec,
    VCExpr.letExpr.sizeOf_spec]
  · have hlt := List.sizeOf_lt_of_mem ha
    omega
  · have hlt := List.sizeOf_lt_of_mem ha
    have hlt' := sizeOf_snd_lt ht
    omega
  · omega
  · have hlt := sizeOf_snd_lt hb
    omega
  · omega

/-!
# Free variables
-/

inductive FreeIn (x : S.Var) : VCExpr S -> Prop where
  | var : FreeIn x (.var x)
  | arg {op : S.Op} {args : List (VCExpr S)} {a : VCExpr S} (ha : a ∈ args)
      (h : FreeIn x a) : FreeIn x (.nary op args)
  | trigger {quan : S.Quan} {as : List S.TypeVar} {xs : List S.Var}
      {triggers : List (Bool × List (VCExpr S))} {body : VCExpr S}
      {t : Bool × List (VCExpr S)} {a : VCExpr S} (hx : x ∉ xs)
      (ht : t ∈ triggers) (ha : a ∈ t.2) (h : FreeIn x a) :
      FreeIn x (.quantifier quan as xs triggers body)
  | matrix {quan : S.Quan} {as : List S.TypeVar} {xs : List S.Var}
      {triggers : List (Bool × List (VCExpr S))} {body : VCExpr S} (hx : x ∉ xs)
      (h : FreeIn x body) : FreeIn x (.quantifier quan as xs triggers body)
  | binding {bs : List (LetBinding S)} {body : VCExpr S} {b : LetBinding S}
      (hx : x ∉ bs.map Prod.fst) (hb : b ∈ bs) (h : FreeIn x b.2) :
      FreeIn x (.letExpr bs body)
  | body {bs : List (LetBinding S)} {body : VCExpr S}
      (hx : x ∉ bs.map Prod.fst) (h : FreeIn x body) :
      FreeIn x (.letExpr bs body)

def Refers (bs : List (LetBinding S)) (y x : S.Var) : Prop :=
  exists b, b ∈ bs ∧ b.1 = x ∧ FreeIn y b.2 ∧ y ∈ bs.map Prod.fst

def Acyclic (bs : List (LetBinding S)) : Prop :=
  forall x, ¬ Relation.TransGen (Refers bs) x x

/-- Every let binds distinct variables, without a cycle of references. -/
inductive WellBound : VCExpr S -> Prop where
  | literal (l : S.Literal) : WellBound (.literal l)
  | var (x : S.Var) : WellBound (.var x)
  | nary {op : S.Op} {args : List (VCExpr S)}
      (hargs : forall a, a ∈ args -> WellBound a) : WellBound (.nary op args)
  | quantifier {quan : S.Quan} {as : List S.TypeVar} {xs : List S.Var}
      {triggers : List (Bool × List (VCExpr S))} {body : VCExpr S}
      (htriggers : forall t, t ∈ triggers -> forall a, a ∈ t.2 -> WellBound a)
      (hbody : WellBound body) :
      WellBound (.quantifier quan as xs triggers body)
  | letExpr {bs : List (LetBinding S)} {body : VCExpr S}
      (hdistinct : (bs.map Prod.fst).Nodup) (hacyclic : Acyclic bs)
      (hbindings : forall b, b ∈ bs -> WellBound b.2) (hbody : WellBound body) :
      WellBound (.letExpr bs body)

/-!
# Meaning

The value of a quantified expression depends on the set of values of its matrix.
All bindings of a let hold together, whatever their order.
-/

structure Interp (S : Signature) where
  Val : Type
  Ty : Type
  literal : S.Literal -> Val
  apply : (S.TypeVar -> Ty) -> S.Op -> List Val -> Val
  HasType : (S.TypeVar -> Ty) -> S.Var -> Val -> Prop
  quantify : S.Quan -> Set Val -> Val

structure Env (M : Interp S) where
  types : S.TypeVar -> M.Ty
  vals : S.Var -> M.Val

variable {M : Interp S}

def Env.Rebinds (ρ' ρ : Env M) (as : List S.TypeVar) (xs : List S.Var) : Prop :=
  (forall a, a ∉ as -> ρ'.types a = ρ.types a) ∧
    (forall x, x ∉ xs -> ρ'.vals x = ρ.vals x) ∧
    forall x, x ∈ xs -> M.HasType ρ'.types x (ρ'.vals x)

open Classical in
noncomputable def eval (M : Interp S) : VCExpr S -> Env M -> M.Val
  | .literal l, _ => M.literal l
  | .var x, ρ => ρ.vals x
  | .nary op args, ρ => M.apply ρ.types op (args.map (fun a => eval M a ρ))
  | .quantifier quan as xs _ body, ρ =>
    M.quantify quan { v | exists ρ', ρ'.Rebinds ρ as xs ∧ eval M body ρ' = v }
  | .letExpr bs body, ρ =>
    if h : exists η : S.Var -> M.Val,
        (forall x, x ∉ bs.map Prod.fst -> η x = ρ.vals x) ∧
          forall b, b ∈ bs -> η b.1 = eval M b.2 ⟨ρ.types, η⟩ then
      eval M body ⟨ρ.types, Classical.choose h⟩
    else eval M body ρ
termination_by e => sizeOf e
decreasing_by
  all_goals simp only [VCExpr.nary.sizeOf_spec, VCExpr.quantifier.sizeOf_spec,
    VCExpr.letExpr.sizeOf_spec]
  all_goals first
    | omega
    | have hlt := List.sizeOf_lt_of_mem ‹_ ∈ args›
      omega
    | have hlt := sizeOf_snd_lt ‹_ ∈ bs›
      omega

structure Solution (M : Interp S) (bs : List (LetBinding S)) (ρ : Env M)
    (η : S.Var -> M.Val) : Prop where
  outside : forall x, x ∉ bs.map Prod.fst -> η x = ρ.vals x
  inside : forall b, b ∈ bs -> η b.1 = eval M b.2 ⟨ρ.types, η⟩

def DependsOnFree (M : Interp S) (e : VCExpr S) : Prop :=
  forall ρ ρ' : Env M, ρ.types = ρ'.types ->
    (forall x, FreeIn x e -> ρ.vals x = ρ'.vals x) -> eval M e ρ = eval M e ρ'

section Solutions

variable {bs : List (LetBinding S)}

theorem Acyclic.refers_wellFounded (h : Acyclic bs) :
    WellFounded (Refers bs) := by
  refine @TopologicalSort.wellFounded_of_acyclic _ _ (bs.map Prod.fst) ?_ h
  intro y x ⟨b, _, _, _, hmem⟩
  exact hmem

theorem eq_of_fst_eq (hdistinct : (bs.map Prod.fst).Nodup)
    {b c : LetBinding S} (hb : b ∈ bs) (hc : c ∈ bs) (h : b.1 = c.1) : b = c :=
  List.inj_on_of_nodup_map hdistinct hb hc h

open Classical in
theorem exists_solution (hdistinct : (bs.map Prod.fst).Nodup)
    (hacyclic : Acyclic bs) (hfree : forall b, b ∈ bs -> DependsOnFree M b.2)
    (ρ : Env M) : exists η, Solution M bs ρ η := by
  let step (x : S.Var) (rec : forall y, Refers bs y x -> M.Val) : M.Val :=
    if h : exists b, b ∈ bs ∧ b.1 = x then
      eval M (Classical.choose h).2 ⟨ρ.types, fun y =>
        if hy : Refers bs y x then rec y hy else ρ.vals y⟩
    else ρ.vals x
  have hfix := hacyclic.refers_wellFounded.fix_eq step
  refine ⟨hacyclic.refers_wellFounded.fix step, ?_, ?_⟩
  · intro x hx
    rw [hfix]
    apply dif_neg
    intro ⟨b, hb, hbx⟩
    exact hx (hbx ▸ List.mem_map_of_mem hb)
  · intro b hb
    have hex : exists c, c ∈ bs ∧ c.1 = b.1 := ⟨b, hb, rfl⟩
    have hchosen : Classical.choose hex = b :=
      eq_of_fst_eq hdistinct (Classical.choose_spec hex).1 hb
        (Classical.choose_spec hex).2
    rw [hfix]
    change (if h : exists c, c ∈ bs ∧ c.1 = b.1 then _ else _) = _
    rw [dif_pos hex]
    simp only [hchosen]
    apply hfree b hb
    · rfl
    · intro y hy
      dsimp only
      split
      next => rfl
      next hnot =>
        -- A free variable that is not referred to is bound elsewhere.
        rw [hfix]
        symm
        apply dif_neg
        intro ⟨c, hc, hcy⟩
        exact hnot ⟨b, hb, rfl, hy, hcy ▸ List.mem_map_of_mem hc⟩

theorem solution_congr (hacyclic : Acyclic bs)
    (hfree : forall b, b ∈ bs -> DependsOnFree M b.2) {ρ ρ' : Env M}
    (htypes : ρ.types = ρ'.types) {η η' : S.Var -> M.Val}
    (hη : Solution M bs ρ η) (hη' : Solution M bs ρ' η')
    (hvals : forall b, b ∈ bs -> forall x, FreeIn x b.2 ->
      x ∉ bs.map Prod.fst -> ρ.vals x = ρ'.vals x) (x : S.Var)
    (hx : x ∈ bs.map Prod.fst) : η x = η' x := by
  induction x using hacyclic.refers_wellFounded.induction with
  | _ x ih =>
    rcases List.mem_map.mp hx with ⟨b, hb, rfl⟩
    rw [hη.inside b hb, hη'.inside b hb]
    apply hfree b hb
    · exact htypes
    · intro y hy
      cases hmem : decide (y ∈ bs.map Prod.fst) with
      | true =>
        have hin := of_decide_eq_true hmem
        exact ih y ⟨b, hb, rfl, hy, hin⟩ hin
      | false =>
        have hout := of_decide_eq_false hmem
        change η y = η' y
        rw [hη.outside y hout, hη'.outside y hout]
        exact hvals b hb y hy hout

theorem eval_letExpr (hacyclic : Acyclic bs)
    (hfree : forall b, b ∈ bs -> DependsOnFree M b.2) {body : VCExpr S}
    (hbody : DependsOnFree M body) {ρ : Env M} {η : S.Var -> M.Val} (hη : Solution M bs ρ η) :
    eval M (.letExpr bs body) ρ = eval M body ⟨ρ.types, η⟩ := by
  have hex : exists η : S.Var -> M.Val,
      (forall x, x ∉ bs.map Prod.fst -> η x = ρ.vals x) ∧
        forall b, b ∈ bs -> η b.1 = eval M b.2 ⟨ρ.types, η⟩ :=
    ⟨η, hη.outside, hη.inside⟩
  have hchosen : Solution M bs ρ (Classical.choose hex) :=
    ⟨(Classical.choose_spec hex).1, (Classical.choose_spec hex).2⟩
  rw [eval, dif_pos hex]
  apply hbody
  · rfl
  · intro x _
    cases hmem : decide (x ∈ bs.map Prod.fst) with
    | true =>
      exact solution_congr hacyclic hfree rfl hchosen hη (fun _ _ _ _ _ => rfl)
        x (of_decide_eq_true hmem)
    | false =>
      have hout := of_decide_eq_false hmem
      change Classical.choose hex x = η x
      rw [hchosen.outside x hout, hη.outside x hout]

end Solutions

theorem Env.Rebinds.congr {ρ ρ' ρ₁ : Env M} {as : List S.TypeVar}
    {xs : List S.Var} (htypes : ρ.types = ρ'.types)
    (h : ρ₁.Rebinds ρ as xs) : exists ρ₁' : Env M, ρ₁'.Rebinds ρ' as xs ∧
      ρ₁'.types = ρ₁.types ∧ (forall x, x ∈ xs -> ρ₁'.vals x = ρ₁.vals x) ∧
        forall x, x ∉ xs -> ρ₁'.vals x = ρ'.vals x := by
  rcases h with ⟨has, _, hxs⟩
  refine ⟨⟨ρ₁.types, fun x => if x ∈ xs then ρ₁.vals x else ρ'.vals x⟩,
    ⟨?_, ?_, ?_⟩, rfl, ?_, ?_⟩
  · intro a ha
    rw [← htypes]
    exact has a ha
  · intro x hx
    exact if_neg hx
  · intro x hx
    change M.HasType ρ₁.types x (if x ∈ xs then _ else _)
    rw [if_pos hx]
    exact hxs x hx
  · intro x hx
    exact if_pos hx
  · intro x hx
    exact if_neg hx

theorem WellBound.dependsOnFree {e : VCExpr S} (h : WellBound e) :
    DependsOnFree M e := by
  induction h with
  | literal l =>
    intro ρ ρ' _ _
    rw [eval, eval]
  | var x =>
    intro ρ ρ' _ hvals
    rw [eval, eval]
    exact hvals x .var
  | @nary op args _ ih =>
    intro ρ ρ' htypes hvals
    rw [eval, eval, htypes]
    apply congrArg
    apply List.map_congr_left
    intro a ha
    exact ih a ha ρ ρ' htypes (fun x hx => hvals x (.arg ha hx))
  | @quantifier quan as xs triggers body _ _ _ ih =>
    -- Both environments give the matrix the same values.
    have hsub : forall ρ ρ' : Env M, ρ.types = ρ'.types ->
        (forall x, FreeIn x (.quantifier quan as xs triggers body) ->
          ρ.vals x = ρ'.vals x) ->
        forall v, (exists ρ₁, ρ₁.Rebinds ρ as xs ∧ eval M body ρ₁ = v) ->
          exists ρ₁, ρ₁.Rebinds ρ' as xs ∧ eval M body ρ₁ = v := by
      intro ρ ρ' htypes hvals v ⟨ρ₁, hρ₁, hv⟩
      rcases hρ₁.congr htypes with ⟨ρ₁', hρ₁', htypes', hbound, hfree⟩
      refine ⟨ρ₁', hρ₁', ?_⟩
      rw [← hv]
      apply ih
      · exact htypes'
      · intro x hx
        cases hmem : decide (x ∈ xs) with
        | true => exact hbound x (of_decide_eq_true hmem)
        | false =>
          have hout := of_decide_eq_false hmem
          rw [hfree x hout, hρ₁.2.1 x hout, hvals x (.matrix hout hx)]
    intro ρ ρ' htypes hvals
    rw [eval, eval]
    apply congrArg
    apply Set.ext
    intro v
    exact ⟨hsub ρ ρ' htypes hvals v,
      hsub ρ' ρ htypes.symm (fun x hx => (hvals x hx).symm) v⟩
  | @letExpr bs body hdistinct hacyclic _ _ ihb ih =>
    intro ρ ρ' htypes hvals
    rcases exists_solution hdistinct hacyclic ihb ρ with ⟨η, hη⟩
    rcases exists_solution hdistinct hacyclic ihb ρ' with ⟨η', hη'⟩
    rw [eval_letExpr hacyclic ihb ih hη, eval_letExpr hacyclic ihb ih hη']
    apply ih
    · exact htypes
    · intro x hx
      cases hmem : decide (x ∈ bs.map Prod.fst) with
      | true =>
        refine solution_congr hacyclic ihb htypes hη hη' ?_ x
          (of_decide_eq_true hmem)
        intro b hb y hy hout
        exact hvals y (.binding hout hb hy)
      | false =>
        have hout := of_decide_eq_false hmem
        change η x = η' x
        rw [hη.outside x hout, hη'.outside x hout]
        exact hvals x (.body hout hx)

end VCExprAST
end Boogie
