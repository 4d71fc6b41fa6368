import Mathlib.Logic.Function.Basic
import Boogie.VCExpr.LetBindingSorterSound

/-!
# Lets in SMT-LIB

The lineariser writes a let as nested lets with one binding each, so a binding
sees the earlier ones only. That is faithful for what the sorter returns.
-/

namespace Boogie
namespace VCExprAST

variable {S : Signature}

inductive SmtTerm (S : Signature) where
  | literal (l : S.Literal)
  | var (x : S.Var)
  | nary (op : S.Op) (args : List (SmtTerm S))
  | quantifier (quan : S.Quan) (typeParameters : List S.TypeVar)
      (boundVars : List S.Var) (body : SmtTerm S)
  | letIn (x : S.Var) (e body : SmtTerm S)

def linearise : VCExpr S -> SmtTerm S
  | .literal l => .literal l
  | .var x => .var x
  | .nary op args => .nary op (args.map (fun a => linearise a))
  | .quantifier quan as xs _ body => .quantifier quan as xs (linearise body)
  | .letExpr bs body =>
    (bs.map (fun b => (b.1, linearise b.2))).foldr
      (fun b t => .letIn b.1 b.2 t) (linearise body)
termination_by e => sizeOf e
decreasing_by
  all_goals simp_wf
  all_goals first
    | omega
    | have hlt := List.sizeOf_lt_of_mem ‹_ ∈ args›
      omega
    | have hlt := sizeOf_snd_lt ‹_ ∈ bs›
      omega

variable {M : Interp S}

def Env.assign (ρ : Env M) (x : S.Var) (v : M.Val) : Env M :=
  ⟨ρ.types, Function.update ρ.vals x v⟩

/-- The value of what is written: the binding of a let does not see its
variable. -/
def evalTerm (M : Interp S) : SmtTerm S -> Env M -> M.Val
  | .literal l, _ => M.literal l
  | .var x, ρ => ρ.vals x
  | .nary op args, ρ => M.apply ρ.types op (args.map (fun a => evalTerm M a ρ))
  | .quantifier quan as xs body, ρ =>
    M.quantify quan
      { v | exists ρ', ρ'.Rebinds ρ as xs ∧ evalTerm M body ρ' = v }
  | .letIn x e body, ρ => evalTerm M body (ρ.assign x (evalTerm M e ρ))

/-!
# One binding after the other
-/

noncomputable def bindAll (M : Interp S) (bs : List (LetBinding S))
    (ρ : Env M) : Env M :=
  bs.foldl (fun ρ b => ρ.assign b.1 (eval M b.2 ρ)) ρ

@[simp] theorem bindAll_cons (b : LetBinding S) (bs : List (LetBinding S))
    (ρ : Env M) : bindAll M (b :: bs) ρ = bindAll M bs (ρ.assign b.1 (eval M b.2 ρ)) := rfl

theorem bindAll_append (bs bs' : List (LetBinding S)) (ρ : Env M) :
    bindAll M (bs ++ bs') ρ = bindAll M bs' (bindAll M bs ρ) :=
  List.foldl_append

@[simp] theorem bindAll_types (bs : List (LetBinding S)) (ρ : Env M) :
    (bindAll M bs ρ).types = ρ.types := by
  induction bs generalizing ρ with
  | nil => rfl
  | cons b bs ih =>
    rw [bindAll_cons, ih]
    rfl

theorem bindAll_vals_of_not_mem {bs : List (LetBinding S)} {x : S.Var}
    (hx : x ∉ bs.map Prod.fst) (ρ : Env M) :
    (bindAll M bs ρ).vals x = ρ.vals x := by
  induction bs generalizing ρ with
  | nil => rfl
  | cons b bs ih =>
    rw [List.map_cons, List.mem_cons, not_or] at hx
    rw [bindAll_cons, ih hx.2]
    exact Function.update_of_ne hx.1 _ _

theorem solution_bindAll {bs : List (LetBinding S)}
    (hdistinct : (bs.map Prod.fst).Nodup) (hback : RefersBack bs)
    (hfree : forall b, b ∈ bs -> DependsOnFree M b.2) (ρ : Env M) :
    Solution M bs ρ (bindAll M bs ρ).vals := by
  constructor
  · intro x hx
    exact bindAll_vals_of_not_mem hx ρ
  · intro b hb
    rcases List.append_of_mem hb with ⟨pre, post, rfl⟩
    rw [List.map_append, List.map_cons] at hdistinct
    rcases List.nodup_append.mp hdistinct with ⟨_, hpost, hdisjoint⟩
    have hb' : b.1 ∉ post.map Prod.fst := (List.nodup_cons.mp hpost).1
    have hvalue : (bindAll M (pre ++ b :: post) ρ).vals b.1 =
        eval M b.2 (bindAll M pre ρ) := by
      rw [bindAll_append, bindAll_cons, bindAll_vals_of_not_mem hb']
      exact Function.update_self _ _ _
    rw [hvalue]
    apply hfree b hb
    · exact bindAll_types pre ρ
    · intro x hx
      -- Neither `b` nor a later binding gives a value to what `b` refers to.
      have hout : x ∉ (b :: post).map Prod.fst := by
        intro hin
        have hmem : x ∈ (pre ++ b :: post).map Prod.fst := by
          rw [List.map_append]
          exact List.mem_append_right _ hin
        exact hdisjoint x (hback pre b post rfl x hx hmem) x hin rfl
      change (bindAll M pre ρ).vals x = (bindAll M (pre ++ b :: post) ρ).vals x
      rw [bindAll_append, bindAll_vals_of_not_mem hout]

theorem evalTerm_foldr {bs : List (LetBinding S)} (h : forall b, b ∈ bs -> forall ρ : Env M,
      evalTerm M (linearise b.2) ρ = eval M b.2 ρ) (t : SmtTerm S) (ρ : Env M) :
    evalTerm M ((bs.map (fun b => (b.1, linearise b.2))).foldr
      (fun b t => .letIn b.1 b.2 t) t) ρ = evalTerm M t (bindAll M bs ρ) := by
  induction bs generalizing ρ with
  | nil => rfl
  | cons b bs ih =>
    rw [List.map_cons, List.foldr_cons, evalTerm, bindAll_cons,
      h b List.mem_cons_self]
    exact ih (fun c hc => h c (List.mem_cons_of_mem b hc)) _

/-!
# Faithfulness
-/

theorem WellBound.eval_linearise {e : VCExpr S} (h : WellBound e)
    (hsorted : LetsSorted e) (ρ : Env M) :
    evalTerm M (linearise e) ρ = eval M e ρ := by
  induction h generalizing ρ with
  | literal l => rw [linearise, evalTerm, eval]
  | var x => rw [linearise, evalTerm, eval]
  | @nary op args _ ih =>
    cases hsorted with
    | nary hargs =>
      rw [linearise, evalTerm, eval, List.map_map]
      apply congrArg
      apply List.map_congr_left
      intro a ha
      exact ih a ha (hargs a ha) ρ
  | @quantifier quan as xs triggers body _ _ _ ih =>
    cases hsorted with
    | quantifier _ hbody =>
      rw [linearise, evalTerm, eval]
      simp only [ih hbody]
  | @letExpr bs body hdistinct hacyclic hwell hwellBody ihb ih =>
    cases hsorted with
    | letExpr hback hbindings hbody =>
      have hfree : forall b, b ∈ bs -> DependsOnFree M b.2 :=
        fun b hb => (hwell b hb).dependsOnFree
      rw [linearise, evalTerm_foldr (fun b hb => ihb b hb (hbindings b hb)),
        ih hbody, eval_letExpr hacyclic hfree hwellBody.dependsOnFree
          (solution_bindAll hdistinct hback hfree ρ)]
      apply hwellBody.dependsOnFree
      · exact bindAll_types bs ρ
      · exact fun _ _ => rfl

inductive Occurs (e : VCExpr S) : VCExpr S -> Prop where
  | refl : Occurs e e
  | arg {op : S.Op} {args : List (VCExpr S)} {a : VCExpr S} (ha : a ∈ args)
      (h : Occurs e a) : Occurs e (.nary op args)
  | trigger {quan : S.Quan} {as : List S.TypeVar} {xs : List S.Var}
      {triggers : List (Bool × List (VCExpr S))} {body : VCExpr S}
      {t : Bool × List (VCExpr S)} {a : VCExpr S} (ht : t ∈ triggers)
      (ha : a ∈ t.2) (h : Occurs e a) :
      Occurs e (.quantifier quan as xs triggers body)
  | matrix {quan : S.Quan} {as : List S.TypeVar} {xs : List S.Var}
      {triggers : List (Bool × List (VCExpr S))} {body : VCExpr S}
      (h : Occurs e body) : Occurs e (.quantifier quan as xs triggers body)
  | binding {bs : List (LetBinding S)} {body : VCExpr S} {b : LetBinding S}
      (hb : b ∈ bs) (h : Occurs e b.2) : Occurs e (.letExpr bs body)
  | body {bs : List (LetBinding S)} {body : VCExpr S} (h : Occurs e body) :
      Occurs e (.letExpr bs body)

theorem WellBound.of_occurs {e e' : VCExpr S} (h : WellBound e')
    (hoccurs : Occurs e e') : WellBound e := by
  induction hoccurs with
  | refl => exact h
  | arg ha _ ih =>
    cases h with
    | nary hargs => exact ih (hargs _ ha)
  | trigger ht ha _ ih =>
    cases h with
    | quantifier htriggers _ => exact ih (htriggers _ ht _ ha)
  | matrix _ ih =>
    cases h with
    | quantifier _ hbody => exact ih hbody
  | binding hb _ ih =>
    cases h with
    | letExpr _ _ hbindings _ => exact ih (hbindings _ hb)
  | body _ ih =>
    cases h with
    | letExpr _ _ _ hbody => exact ih hbody

/-- The sorter keeps the value, its lets are sorted, exactly the needed bindings
of a let are left, and the result can be written as nested lets. -/
theorem mutate_faithful {e : VCExpr S} (h : WellBound e) :
    (forall (M : Interp S) (ρ : Env M), eval M (mutate e) ρ = eval M e ρ) ∧ LetsSorted (mutate e) ∧
      (forall bs body, Occurs (.letExpr bs body) e -> exists kept,
        mutate (.letExpr bs body) = genLet kept (mutate body) ∧
          Kept (bs.map (fun b => (b.1, mutate b.2))) (mutate body) kept) ∧
      forall (M : Interp S) (ρ : Env M), evalTerm M (linearise (mutate e)) ρ = eval M e ρ := by
  have hsorted := h.isSorted
  refine ⟨hsorted.eval_eq, hsorted.letsSorted, ?_, ?_⟩
  · intro bs body hoccurs
    cases h.of_occurs hoccurs with
    | letExpr hdistinct hacyclic hbindings _ =>
      exact ⟨keptBindings bs (mutate body), mutate_letExpr bs body,
        kept_keptBindings _ hdistinct hacyclic
          (fun b hb => (hbindings b hb).isSorted)⟩
  · intro M ρ
    rw [hsorted.wellBound.eval_linearise hsorted.letsSorted, hsorted.eval_eq]

/-!
# Two bindings in the wrong order
-/

abbrev natSignature : Signature where
  Var := Nat
  TypeVar := Unit
  Op := Unit
  Literal := Nat
  Quan := Unit

def swappedBindings : List (LetBinding natSignature) :=
  [(0, .var 1), (1, .literal 5)]

theorem lt_of_refers_swapped {x y : Nat} (h : Refers swappedBindings y x) :
    x < y := by
  rcases h with ⟨b, hb, hx, hfree, _⟩
  simp only [swappedBindings, List.mem_cons, List.not_mem_nil, or_false] at hb
  rcases hb with rfl | rfl
  · cases hfree
    rw [← hx]
    exact Nat.zero_lt_one
  · cases hfree

theorem acyclic_swapped : Acyclic swappedBindings := by
  have hup : forall x y : Nat,
      Relation.TransGen (Refers swappedBindings) y x -> x < y := by
    intro x y h
    induction h with
    | single h => exact lt_of_refers_swapped h
    | tail _ h ih => exact (lt_of_refers_swapped h).trans ih
  exact fun x hx => Nat.lt_irrefl x (hup x x hx)

def swappedLet : VCExpr natSignature :=
  .letExpr swappedBindings (.var 0)

theorem wellBound_swappedLet : WellBound swappedLet := by
  refine .letExpr (by simp [swappedBindings]) acyclic_swapped ?_ (.var _)
  intro b hb
  simp only [swappedBindings, List.mem_cons, List.not_mem_nil, or_false] at hb
  rcases hb with rfl | rfl
  · exact .var _
  · exact .literal _

theorem letsSorted_swappedLet : LetsSorted (mutate swappedLet) :=
  (mutate_faithful wellBound_swappedLet).2.1

end VCExprAST
end Boogie
