import Boogie.VCExpr.VCExprBinders

/-!
# Sorting the bindings of lets

The bindings of a let are put into an order in which each refers to earlier ones
only, and those that the body does not need are dropped.
-/

namespace Boogie
namespace VCExprAST

variable {S : Signature}

/-!
# Collecting free variables
-/

/-- The variables that the traversal adds below binders of `boundTermVars`. -/
def collect (boundTermVars : List S.Var) :
    List S.Var -> VCExpr S -> List S.Var
  | freeTermVars, .literal _ => freeTermVars
  | freeTermVars, .var x =>
    if x ∈ boundTermVars ∨ x ∈ freeTermVars then freeTermVars
    else freeTermVars ++ [x]
  | freeTermVars, .nary _ args =>
    args.foldl (fun acc a => collect boundTermVars acc a) freeTermVars
  | freeTermVars, .quantifier _ _ xs triggers body =>
    collect (xs ++ boundTermVars)
      (triggers.foldl (fun acc t =>
        t.2.foldl (fun acc a => collect (xs ++ boundTermVars) acc a) acc)
        freeTermVars) body
  | freeTermVars, .letExpr bs body =>
    collect (bs.map Prod.fst ++ boundTermVars)
      (bs.foldl (fun acc b =>
        collect (bs.map Prod.fst ++ boundTermVars) acc b.2) freeTermVars) body
termination_by _ e => sizeOf e
decreasing_by
  all_goals simp only [VCExpr.nary.sizeOf_spec, VCExpr.quantifier.sizeOf_spec,
    VCExpr.letExpr.sizeOf_spec]
  · have hlt := List.sizeOf_lt_of_mem ‹_ ∈ args›
    omega
  · have hlt := List.sizeOf_lt_of_mem ‹_ ∈ t.2›
    have hlt' := sizeOf_snd_lt ‹_ ∈ triggers›
    omega
  · omega
  · have hlt := sizeOf_snd_lt ‹_ ∈ bs›
    omega
  · omega

def freeVarsIn (e : VCExpr S) : List S.Var :=
  collect [] [] e

/-!
# The sorter
-/

structure Binding (S : Signature) where
  v : S.Var
  e : VCExpr S
  freeVars : List S.Var

def topologicalSort (boundVars : List (Binding S)) : List (Binding S) :=
  TopologicalSort.sort Binding.v Binding.freeVars boundVars

/-- `usedVars` with further variables. -/
def addUsed (usedVars freeVars : List S.Var) : List S.Var :=
  freeVars.foldl (fun used v => if v ∈ used then used else used ++ [v]) usedVars

def dropUnused (usedVars : List S.Var) (sortedBindings : List (Binding S)) :
    List S.Var × List (Binding S) :=
  sortedBindings.foldr (fun b (used, kept) =>
    if b.v ∈ used then (addUsed used b.freeVars, b :: kept) else (used, kept))
    (usedVars, [])

/-- `Gen.Let`: there are no empty lets. -/
def genLet (bindings : List (LetBinding S)) (body : VCExpr S) : VCExpr S :=
  if bindings.isEmpty then body else .letExpr bindings body

def mutate : VCExpr S -> VCExpr S
  | .literal l => .literal l
  | .var x => .var x
  | .nary op args => .nary op (args.map (fun a => mutate a))
  | .quantifier quan as xs triggers body =>
    .quantifier quan as xs
      (triggers.map (fun t => (t.1, t.2.map (fun a => mutate a))))
      (mutate body)
  | .letExpr bs body =>
    let boundVars := bs.map (fun b =>
      Binding.mk b.1 (mutate b.2) (freeVarsIn (mutate b.2)))
    let sortedBindings := topologicalSort boundVars
    let newBody := mutate body
    let kept := (dropUnused (addUsed [] (freeVarsIn newBody)) sortedBindings).2
    genLet (kept.map (fun b => (b.v, b.e))) newBody
termination_by e => sizeOf e
decreasing_by
  all_goals simp only [VCExpr.nary.sizeOf_spec, VCExpr.quantifier.sizeOf_spec,
    VCExpr.letExpr.sizeOf_spec]
  · have hlt := List.sizeOf_lt_of_mem ‹_ ∈ args›
    omega
  · have hlt := List.sizeOf_lt_of_mem ‹_ ∈ t.2›
    have hlt' := sizeOf_snd_lt ‹_ ∈ triggers›
    omega
  · omega
  · have hlt := sizeOf_snd_lt ‹_ ∈ bs›
    omega
  · omega

/-!
# What the collector collects
-/

theorem mem_foldl_collect {A : Type} {P : A -> Prop} {x : S.Var}
    {step : List S.Var -> A -> List S.Var} {l : List A}
    (h : forall a, a ∈ l -> forall acc, x ∈ step acc a <-> x ∈ acc ∨ P a) (acc : List S.Var) :
    x ∈ l.foldl step acc <-> x ∈ acc ∨ exists a, a ∈ l ∧ P a := by
  induction l generalizing acc with
  | nil => simp
  | cons a l ih =>
    rw [List.foldl_cons, ih (fun b hb => h b (List.mem_cons_of_mem a hb)),
      h a List.mem_cons_self]
    simp only [List.mem_cons, exists_eq_or_imp]
    tauto

theorem mem_collect {x : S.Var} (e : VCExpr S) :
    forall bound acc : List S.Var,
      x ∈ collect bound acc e <-> x ∈ acc ∨ (x ∉ bound ∧ FreeIn x e) := by
  induction e using VCExpr.ind with
  | literal l =>
    intro bound acc
    rw [collect]
    constructor
    · exact Or.inl
    · intro h
      rcases h with h | ⟨_, h⟩
      · exact h
      · cases h
  | var y =>
    intro bound acc
    rw [collect]
    constructor
    · intro h
      split at h
      next => exact Or.inl h
      next hnot =>
        rcases List.mem_append.mp h with hacc | hy
        · exact Or.inl hacc
        · rw [List.mem_singleton] at hy
          rw [hy]
          exact Or.inr ⟨fun hb => hnot (Or.inl hb), .var⟩
    · intro h
      rcases h with hacc | ⟨hb, hfree⟩
      · split
        next => exact hacc
        next => exact List.mem_append_left _ hacc
      · cases hfree
        split
        next hin =>
          rcases hin with hbound | hacc
          · exact absurd hbound hb
          · exact hacc
        next => simp
  | nary op args ih =>
    intro bound acc
    rw [collect, mem_foldl_collect (fun a ha acc => ih a ha bound acc)]
    constructor
    · intro h
      rcases h with hacc | ⟨a, ha, hb, hfree⟩
      · exact Or.inl hacc
      · exact Or.inr ⟨hb, .arg ha hfree⟩
    · intro h
      rcases h with hacc | ⟨hb, hfree⟩
      · exact Or.inl hacc
      · cases hfree with
        | arg ha hfree => exact Or.inr ⟨_, ha, hb, hfree⟩
  | quantifier quan as xs triggers body iht ih =>
    intro bound acc
    rw [collect, ih, mem_foldl_collect (fun t ht acc =>
      mem_foldl_collect (fun a ha acc => iht t ht a ha (xs ++ bound) acc) acc)]
    simp only [List.mem_append, not_or]
    constructor
    · intro h
      rcases h with (hacc | ⟨t, ht, a, ha, hb, hfree⟩) | ⟨hb, hfree⟩
      · exact Or.inl hacc
      · exact Or.inr ⟨hb.2, .trigger hb.1 ht ha hfree⟩
      · exact Or.inr ⟨hb.2, .matrix hb.1 hfree⟩
    · intro h
      rcases h with hacc | ⟨hb, hfree⟩
      · exact Or.inl (Or.inl hacc)
      · cases hfree with
        | trigger hx ht ha hfree =>
          exact Or.inl (Or.inr ⟨_, ht, _, ha, ⟨hx, hb⟩, hfree⟩)
        | matrix hx hfree => exact Or.inr ⟨⟨hx, hb⟩, hfree⟩
  | letExpr bs body ihb ih =>
    intro bound acc
    rw [collect, ih, mem_foldl_collect (fun b hb acc =>
      ihb b hb (bs.map Prod.fst ++ bound) acc)]
    simp only [List.mem_append, not_or]
    constructor
    · intro h
      rcases h with (hacc | ⟨b, hb, hbound, hfree⟩) | ⟨hbound, hfree⟩
      · exact Or.inl hacc
      · exact Or.inr ⟨hbound.2, .binding hbound.1 hb hfree⟩
      · exact Or.inr ⟨hbound.2, .body hbound.1 hfree⟩
    · intro h
      rcases h with hacc | ⟨hbound, hfree⟩
      · exact Or.inl (Or.inl hacc)
      · cases hfree with
        | binding hx hb hfree =>
          exact Or.inl (Or.inr ⟨_, hb, ⟨hx, hbound⟩, hfree⟩)
        | body hx hfree => exact Or.inr ⟨⟨hx, hbound⟩, hfree⟩

@[simp] theorem mem_freeVarsIn {x : S.Var} {e : VCExpr S} :
    x ∈ freeVarsIn e <-> FreeIn x e := by
  unfold freeVarsIn
  rw [mem_collect]
  simp

theorem nodup_foldl_collect {A : Type} {step : List S.Var -> A -> List S.Var}
    {l : List A} (h : forall a, a ∈ l -> forall acc, acc.Nodup -> (step acc a).Nodup)
    {acc : List S.Var} (hacc : acc.Nodup) : (l.foldl step acc).Nodup := by
  induction l generalizing acc with
  | nil => exact hacc
  | cons a l ih =>
    exact ih (fun b hb => h b (List.mem_cons_of_mem a hb))
      (h a List.mem_cons_self acc hacc)

theorem nodup_collect (e : VCExpr S) : forall bound acc : List S.Var,
    acc.Nodup -> (collect bound acc e).Nodup := by
  induction e using VCExpr.ind with
  | literal l =>
    intro bound acc h
    rw [collect]
    exact h
  | var y =>
    intro bound acc h
    rw [collect]
    split
    next => exact h
    next hnot =>
      rw [List.nodup_append]
      refine ⟨h, List.nodup_singleton y, ?_⟩
      intro a ha b hb heq
      rw [List.mem_singleton] at hb
      exact hnot (Or.inr (by rw [← hb, ← heq]; exact ha))
  | nary op args ih =>
    intro bound acc h
    rw [collect]
    exact nodup_foldl_collect (fun a ha acc => ih a ha bound acc) h
  | quantifier quan as xs triggers body iht ih =>
    intro bound acc h
    rw [collect]
    refine ih _ _ (nodup_foldl_collect ?_ h)
    intro t ht acc hacc
    exact nodup_foldl_collect (fun a ha acc => iht t ht a ha _ acc) hacc
  | letExpr bs body ihb ih =>
    intro bound acc h
    rw [collect]
    exact ih _ _ (nodup_foldl_collect (fun b hb acc => ihb b hb _ acc) h)

theorem nodup_freeVarsIn (e : VCExpr S) : (freeVarsIn e).Nodup :=
  nodup_collect e [] [] List.nodup_nil

end VCExprAST
end Boogie
