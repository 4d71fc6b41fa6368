import Boogie.Core.Binders
import Boogie.Core.Visits
import Boogie.Foundation.Extension
import Boogie.Foundation.Text

/-!
# Quantifiers in the arguments of existential functions

A quantifier inside of an existential call is replaced by a fresh Boolean
constant, and the definitions of the constants are made an antecedent of the
whole formula.
-/

namespace Boogie

namespace ExtractQuantifiers

/-!
# The visitor
-/

abbrev NewConstant := Variable × Expr

structure Visitor where
  freshConstCounter : Nat
  newConstants : List NewConstant

def freshConst (n : Nat) : Variable :=
  .constant ⟨"quant@const" ++ toString n, .bool⟩

mutual

def visitExpr (existentialFunctions : List String) (insideExistential : Bool) :
    Expr -> Visitor -> Expr × Visitor
  | .literal l, v => (.literal l, v)
  | .ident x, v => (.ident x, v)
  | .old e, v =>
    let (e, v) := visitExpr existentialFunctions insideExistential e v
    (.old e, v)
  | .nary f args, v =>
    let (args, v) := visitExprSeq existentialFunctions
      (insideExistential || f.isCallOf existentialFunctions) args v
    (.nary f args, v)
  | .quantifier q dummies body, v =>
    let (body, v) := visitExpr existentialFunctions insideExistential body v
    let node := Expr.quantifier q dummies body
    if insideExistential then
      let constant := freshConst v.freshConstCounter
      (.ident constant,
        { freshConstCounter := v.freshConstCounter + 1
          newConstants := v.newConstants ++ [(constant, node)] })
    else (node, v)

def visitExprSeq (existentialFunctions : List String)
    (insideExistential : Bool) :
    List Expr -> Visitor -> List Expr × Visitor
  | [], v => ([], v)
  | e :: es, v =>
    let (e, v) := visitExpr existentialFunctions insideExistential e v
    let (es, v) := visitExprSeq existentialFunctions insideExistential es v
    (e :: es, v)

end

def definitions (newConstants : List NewConstant) : Expr :=
  newConstants.foldl
    (fun ret tup => Expr.and ret (Expr.eq (.ident tup.1) tup.2)) .trueExpr

def extract (existentialFunctions : List String) (freshConstCounter : Nat)
    (expr : Expr) : Expr × List Variable :=
  let (expr, eq) :=
    visitExpr existentialFunctions false expr ⟨freshConstCounter, []⟩
  (Expr.imp (definitions eq.newConstants) expr, eq.newConstants.map Prod.fst)

/-!
# What is extracted
-/

inductive Extracts (existentialFunctions : List String) :
    Bool -> Visit NewConstant -> Prop where
  | literal {inside : Bool} {n : Nat} {l : Literal} :
      Extracts existentialFunctions inside ⟨n, .literal l, .literal l, []⟩
  | ident {inside : Bool} {n : Nat} {x : Variable} :
      Extracts existentialFunctions inside ⟨n, .ident x, .ident x, []⟩
  | old {inside : Bool} {n : Nat} {e e' : Expr} {added : List NewConstant} :
      Extracts existentialFunctions inside ⟨n, e, e', added⟩ ->
      Extracts existentialFunctions inside ⟨n, .old e, .old e', added⟩
  | nary {inside : Bool} {n : Nat} {f : Fun} {visits : List (Visit NewConstant)} :
      Consecutive n visits ->
      (forall v, v ∈ visits -> Extracts existentialFunctions
        (inside || f.isCallOf existentialFunctions) v) ->
      Extracts existentialFunctions inside
        ⟨n, .nary f (visits.map Visit.before), .nary f (visits.map Visit.after),
          visits.flatMap Visit.added⟩
  | keep {n : Nat} {q : Quantifier} {dummies : List Variable}
      {body body' : Expr} {added : List NewConstant} :
      Extracts existentialFunctions false ⟨n, body, body', added⟩ ->
      Extracts existentialFunctions false
        ⟨n, .quantifier q dummies body, .quantifier q dummies body', added⟩
  | hoist {n : Nat} {q : Quantifier} {dummies : List Variable}
      {body body' : Expr} {added : List NewConstant} :
      Extracts existentialFunctions true ⟨n, body, body', added⟩ ->
      Extracts existentialFunctions true
        ⟨n, .quantifier q dummies body, .ident (freshConst (n + added.length)),
          added ++ [(freshConst (n + added.length),
            .quantifier q dummies body')]⟩

section Visits

variable {existentialFunctions : List String}

def Visitor.add (v : Visitor) (added : List NewConstant) : Visitor where
  freshConstCounter := v.freshConstCounter + added.length
  newConstants := v.newConstants ++ added

theorem Visitor.add_nil (v : Visitor) : v.add [] = v := by
  simp [Visitor.add]

theorem Visitor.add_add (v : Visitor) (added added' : List NewConstant) :
    (v.add added).add added' = v.add (added ++ added') := by
  simp [Visitor.add, Nat.add_assoc]

theorem visitExprSeq_extracts {inside : Bool} {es : List Expr}
    (h : forall e, e ∈ es -> forall v : Visitor, exists e' added,
      visitExpr existentialFunctions inside e v = (e', v.add added) ∧
      Extracts existentialFunctions inside ⟨v.freshConstCounter, e, e', added⟩) (v : Visitor) :
    exists visits : List (Visit NewConstant), visitExprSeq existentialFunctions inside es v =
        (visits.map Visit.after, v.add (visits.flatMap Visit.added)) ∧
      visits.map Visit.before = es ∧ Consecutive v.freshConstCounter visits ∧
      forall w, w ∈ visits -> Extracts existentialFunctions inside w := by
  induction es generalizing v with
  | nil =>
    exists []
    exact ⟨by rw [visitExprSeq]; simp [Visitor.add_nil], rfl, trivial, by simp⟩
  | cons e es ih =>
    rcases h e List.mem_cons_self v with ⟨e', added, hvisit, hextracts⟩
    rcases ih (fun e he => h e (List.mem_cons_of_mem _ he)) (v.add added) with
      ⟨visits, hvisits, hbefore, hconsecutive, hall⟩
    exists ⟨v.freshConstCounter, e, e', added⟩ :: visits
    refine ⟨?_, ?_, ?_, ?_⟩
    · rw [visitExprSeq, hvisit]
      dsimp only
      rw [hvisits, Visitor.add_add]
      rfl
    · rw [List.map_cons, hbefore]
    · exact ⟨rfl, hconsecutive⟩
    · intro w hw
      rcases List.mem_cons.mp hw with rfl | hw
      · exact hextracts
      · exact hall w hw

theorem visitExpr_extracts (e : Expr) (inside : Bool) (v : Visitor) :
    exists e' added, visitExpr existentialFunctions inside e v = (e', v.add added) ∧
      Extracts existentialFunctions inside ⟨v.freshConstCounter, e, e', added⟩ := by
  induction e generalizing inside v with
  | literal l =>
    exact ⟨_, [], by rw [visitExpr, Visitor.add_nil], Extracts.literal⟩
  | ident x =>
    exact ⟨_, [], by rw [visitExpr, Visitor.add_nil], Extracts.ident⟩
  | old e ih =>
    rcases ih inside v with ⟨e', added, hvisit, hextracts⟩
    exact ⟨.old e', added, by rw [visitExpr, hvisit], Extracts.old hextracts⟩
  | nary f args ih =>
    rcases visitExprSeq_extracts (fun a ha => ih a ha _) v with
      ⟨visits, hvisits, rfl, hconsecutive, hall⟩
    exact ⟨_, _, by rw [visitExpr, hvisits],
      Extracts.nary hconsecutive hall⟩
  | quantifier q dummies body ih =>
    rcases ih inside v with ⟨body', added, hvisit, hextracts⟩
    cases inside with
    | false =>
      exact ⟨_, added, by rw [visitExpr, hvisit]; rfl,
        Extracts.keep hextracts⟩
    | true =>
      refine ⟨_, _, ?_, Extracts.hoist hextracts⟩
      rw [visitExpr, hvisit]
      dsimp only
      rw [if_pos rfl, ← Visitor.add_add]
      rfl

end Visits

/-!
# The definitions are ordered
-/

/-- The fresh constants of the expression have numbers below `n`. -/
def Below (n : Nat) (e : Expr) : Prop :=
  forall m, e.Mentions (freshConst m) -> m < n

structure DefinedAt (n : Nat) (d : NewConstant) : Prop where
  target : d.1 = freshConst n
  rhs : exists q dummies body, d.2 = .quantifier q dummies body
  below : Below n d.2

theorem freshConst_injective {m n : Nat} (h : freshConst m = freshConst n) :
    m = n := by
  injection h with h
  injection h with h _
  exact Text.append_toString_injective h

theorem Below.mono {m n : Nat} {e : Expr} (h : Below m e) (hmn : m ≤ n) :
    Below n e :=
  fun k hk => Nat.lt_of_lt_of_le (h k hk) hmn

theorem below_nary {n : Nat} {f : Fun} {args : List Expr} :
    Below n (.nary f args) <-> forall a, a ∈ args -> Below n a := by
  constructor
  · exact fun h a ha m hm => h m (Expr.Mentions.nary ha hm)
  · intro h m hm
    cases hm with
    | nary ha hm => exact h _ ha m hm

theorem below_quantifier {n : Nat} {q : Quantifier} {dummies : List Variable}
    {body : Expr} : Below n (.quantifier q dummies body) <-> Below n body := by
  constructor
  · exact fun h m hm => h m (Expr.Mentions.quantifier hm)
  · intro h m hm
    cases hm with
    | quantifier hm => exact h m hm

theorem below_old {n : Nat} {e : Expr} : Below n (.old e) <-> Below n e := by
  constructor
  · exact fun h m hm => h m (Expr.Mentions.old hm)
  · intro h m hm
    cases hm with
    | old hm => exact h m hm

section Ordered

variable {existentialFunctions : List String} {inside : Bool} {v : Visit NewConstant}

theorem extracts_defined (h : Extracts existentialFunctions inside v)
    (hbelow : Below v.counter v.before) :
    Below (v.counter + v.added.length) v.after ∧ NumberedFrom DefinedAt v.counter v.added := by
  induction h with
  | literal => exact ⟨hbelow, trivial⟩
  | ident => exact ⟨hbelow, trivial⟩
  | old _ ih =>
    rcases ih (below_old.mp hbelow) with ⟨hafter, hdefined⟩
    exact ⟨below_old.mpr hafter, hdefined⟩
  | nary hconsecutive _ ih =>
    rw [below_nary, List.forall_mem_map] at hbelow
    have hvisits := fun v hv =>
      ih v hv ((hbelow v hv).mono (hconsecutive.within hv).1)
    constructor
    · rw [below_nary, List.forall_mem_map]
      exact fun v hv => (hvisits v hv).1.mono (hconsecutive.within hv).2
    · exact hconsecutive.numbered (fun v hv => (hvisits v hv).2)
  | keep _ ih =>
    rcases ih (below_quantifier.mp hbelow) with ⟨hafter, hdefined⟩
    exact ⟨below_quantifier.mpr hafter, hdefined⟩
  | @hoist n q dummies body body' added _ ih =>
    rcases ih (below_quantifier.mp hbelow) with ⟨hafter, hdefined⟩
    constructor
    · intro m hm
      generalize hc : freshConst (n + added.length) = c at hm
      cases hm
      rw [← freshConst_injective hc, List.length_append,
        List.length_singleton]
      exact Nat.lt_succ_self _
    · exact hdefined.append
        ⟨⟨rfl, ⟨q, dummies, body', rfl⟩, below_quantifier.mpr hafter⟩, trivial⟩

variable {U : Type} [DecidableEq U]

noncomputable def toDefinition (I : Interp U) (ρ₀ : Env U) (d : NewConstant) :
    Extension.Definition Variable (Value U) where
  target := d.1
  rhs := fun ρ => d.2.eval I ρ₀ ρ

theorem defined_ordered {n : Nat} {ds : List NewConstant} (I : Interp U)
    (ρ₀ : Env U) (h : NumberedFrom DefinedAt n ds) :
    Extension.Ordered (ds.map (toDefinition I ρ₀)) := by
  induction ds generalizing n with
  | nil => exact Extension.Ordered.nil
  | cons d ds ih =>
    rcases h with ⟨⟨htarget, _, hbelow⟩, hrest⟩
    have hlater : forall m, m < n + 1 -> freshConst m ∉
        (ds.map (toDefinition I ρ₀)).map Extension.Definition.target := by
      intro m hm hmem
      rw [List.map_map] at hmem
      rcases List.mem_map.mp hmem with ⟨d', hd', heq⟩
      rcases hrest.exists_number hd' with ⟨k, hk, _, hd'⟩
      have heq' := freshConst_injective (heq.symm.trans hd'.target)
      omega
    apply Extension.Ordered.cons
    · show d.1 ∉ _
      rw [htarget]
      exact hlater n (Nat.lt_succ_self n)
    · intro ρ σ hext
      apply Expr.eval_congr (fun _ _ => rfl)
      intro x hx
      apply hext x
      intro hmem
      rcases List.mem_cons.mp hmem with rfl | hmem
      · have hx' : d.2.Mentions d.1 := hx
        rw [htarget] at hx'
        exact absurd (hbelow n hx') (Nat.lt_irrefl n)
      · rw [List.map_map] at hmem
        rcases List.mem_map.mp hmem with ⟨d', hd', rfl⟩
        rcases hrest.exists_number hd' with ⟨k, hk, _, hd'⟩
        have hx' : d.2.Mentions d'.1 := hx
        rw [hd'.target] at hx'
        have hlt := hbelow k hx'
        omega
    · exact ih hrest

end Ordered

/-!
# Values
-/

/--
No quantifier inside of an existential call mentions a variable that a
quantifier around it binds.
-/
inductive HoistSafe (existentialFunctions : List String) :
    Bool -> List Variable -> Expr -> Prop where
  | literal {inside : Bool} {scope : List Variable} {l : Literal} :
      HoistSafe existentialFunctions inside scope (.literal l)
  | ident {inside : Bool} {scope : List Variable} {x : Variable} :
      HoistSafe existentialFunctions inside scope (.ident x)
  | nary {inside : Bool} {scope : List Variable} {f : Fun}
      {args : List Expr} :
      (forall a, a ∈ args -> HoistSafe existentialFunctions
        (inside || f.isCallOf existentialFunctions) scope a) ->
      HoistSafe existentialFunctions inside scope (.nary f args)
  | quantifier {inside : Bool} {scope : List Variable} {q : Quantifier}
      {dummies : List Variable} {body : Expr} :
      (inside = true -> forall x, x ∈ scope ->
        ¬ (Expr.quantifier q dummies body).FreeIn x) ->
      HoistSafe existentialFunctions inside (scope ++ dummies) body ->
      HoistSafe existentialFunctions inside scope
        (.quantifier q dummies body)

section Scopes

variable {scope dummies : List Variable} {U : Type} {I : Interp U}
  {ρ ρ' σ : Env U}

theorem bound_append (hscope : forall x, x ∈ scope -> x.isBound = true)
    (hdummies : forall x, x ∈ dummies -> x.isBound = true) (x : Variable)
    (hx : x ∈ scope ++ dummies) : x.isBound = true := by
  rcases List.mem_append.mp hx with hx | hx
  · exact hscope x hx
  · exact hdummies x hx

theorem agree_append (hρ : forall x, x ∉ scope -> ρ' x = ρ x)
    (hσ : σ.Rebinds I ρ' dummies) (x : Variable) (hx : x ∉ scope ++ dummies) :
    σ x = ρ x := by
  rw [List.mem_append, not_or] at hx
  rw [hσ.1 x hx.2, hρ x hx.1]

end Scopes

section Values

variable {existentialFunctions : List String} {inside : Bool} {v : Visit NewConstant}
  {scope : List Variable} {U : Type} [DecidableEq U] {I : Interp U}
  {ρ₀ ρ ρ' : Env U}

theorem extracts_eval (h : Extracts existentialFunctions inside v)
    (hpassive : v.before.Passive) (hbinds : v.before.BindsDummies)
    (hsafe : HoistSafe existentialFunctions inside scope v.before)
    (hscope : forall x, x ∈ scope -> x.isBound = true)
    (hdefs : forall d, d ∈ v.added -> ρ d.1 = d.2.eval I ρ₀ ρ)
    (hρ : forall x, x ∉ scope -> ρ' x = ρ x) :
    v.after.eval I ρ₀ ρ' = v.before.eval I ρ₀ ρ' := by
  induction h generalizing scope ρ' with
  | literal => rfl
  | ident => rfl
  | old _ _ => cases hpassive
  | @nary inside n f visits _ _ ih =>
    cases hpassive with
    | nary hpassive =>
    cases hbinds with
    | nary hbinds =>
    cases hsafe with
    | nary hsafe =>
    rw [List.forall_mem_map] at hpassive hbinds hsafe
    rw [Expr.eval_nary, Expr.eval_nary, List.map_map, List.map_map]
    congr 1
    apply List.map_congr_left
    intro v hv
    exact ih v hv (hpassive v hv) (hbinds v hv) (hsafe v hv) hscope
      (fun d hd => hdefs d (List.mem_flatMap.mpr ⟨v, hv, hd⟩)) hρ
  | @keep n q dummies body body' added _ ih =>
    cases hpassive with
    | quantifier hpassive =>
    cases hbinds with
    | quantifier hdummies hbinds =>
    cases hsafe with
    | quantifier _ hsafe =>
    apply Expr.eval_quantifier_congr
    intro σ hσ
    exact ih hpassive hbinds hsafe (bound_append hscope hdummies) hdefs
      (agree_append hρ hσ)
  | @hoist n q dummies body body' added _ ih =>
    have hnode := hpassive
    cases hpassive with
    | quantifier hpassive =>
    cases hbinds with
    | quantifier hdummies hbinds =>
    cases hsafe with
    | quantifier hfree hsafe =>
    have hconst : freshConst (n + added.length) ∉ scope :=
      fun hmem => absurd (hscope _ hmem) Bool.false_ne_true
    calc (Expr.ident (freshConst (n + added.length))).eval I ρ₀ ρ'
      _ = ρ (freshConst (n + added.length)) := by
          rw [Expr.eval_ident, hρ _ hconst]
      _ = (Expr.quantifier q dummies body').eval I ρ₀ ρ :=
          hdefs _ (List.mem_append_right _ List.mem_cons_self)
      _ = (Expr.quantifier q dummies body).eval I ρ₀ ρ := by
          apply Expr.eval_quantifier_congr
          intro σ hσ
          exact ih hpassive hbinds hsafe (bound_append hscope hdummies)
            (fun d hd => hdefs d (List.mem_append_left _ hd))
            (agree_append (fun _ _ => rfl) hσ)
      _ = (Expr.quantifier q dummies body).eval I ρ₀ ρ' := by
          apply Expr.eval_congr_free hnode
          intro x hx
          exact (hρ x (fun hmem => hfree rfl x hmem hx)).symm

end Values

/-!
# Free variables
-/

section FreeVariables

variable {existentialFunctions : List String} {inside : Bool} {v : Visit NewConstant}
  {scope : List Variable} {x : Variable}

theorem extracts_free (h : Extracts existentialFunctions inside v) (hx : v.before.FreeIn x) :
    v.after.FreeIn x ∨ exists d, d ∈ v.added ∧ d.2.FreeIn x := by
  induction h with
  | literal => exact Or.inl hx
  | ident => exact Or.inl hx
  | old _ ih =>
    cases hx with
    | old hx => exact (ih hx).imp Expr.FreeIn.old id
  | nary _ _ ih =>
    rcases Expr.freeIn_nary.mp hx with ⟨a, ha, hx⟩
    rcases List.mem_map.mp ha with ⟨v, hv, rfl⟩
    rcases ih v hv hx with hx | ⟨d, hd, hx⟩
    · exact Or.inl (Expr.FreeIn.nary (List.mem_map_of_mem hv) hx)
    · exact Or.inr ⟨d, List.mem_flatMap.mpr ⟨v, hv, hd⟩, hx⟩
  | keep _ ih =>
    rcases Expr.freeIn_quantifier.mp hx with ⟨hdummies, hx⟩
    exact (ih hx).imp (Expr.FreeIn.quantifier hdummies) id
  | hoist _ ih =>
    rcases Expr.freeIn_quantifier.mp hx with ⟨hdummies, hx⟩
    right
    rcases ih hx with hx | ⟨d, hd, hx⟩
    · exact ⟨_, List.mem_append_right _ List.mem_cons_self,
        Expr.FreeIn.quantifier hdummies hx⟩
    · exact ⟨d, List.mem_append_left _ hd, hx⟩

theorem hoistSafe_of_scoped (h : Extracts existentialFunctions inside v)
    (hpassive : v.before.Passive) (hbinds : v.before.BindsDummies)
    (hscope : forall x, x ∈ scope -> x.isBound = true)
    (hfree : forall d, d ∈ v.added -> forall x, d.2.FreeIn x -> x.isBound = false) :
    HoistSafe existentialFunctions inside scope v.before := by
  induction h generalizing scope with
  | literal => exact HoistSafe.literal
  | ident => exact HoistSafe.ident
  | old _ _ => cases hpassive
  | nary _ _ ih =>
    cases hpassive with
    | nary hpassive =>
    cases hbinds with
    | nary hbinds =>
    apply HoistSafe.nary
    intro a ha
    rcases List.mem_map.mp ha with ⟨v, hv, rfl⟩
    exact ih v hv (hpassive _ ha) (hbinds _ ha) hscope
      (fun d hd => hfree d (List.mem_flatMap.mpr ⟨v, hv, hd⟩))
  | keep _ ih =>
    cases hpassive with
    | quantifier hpassive =>
    cases hbinds with
    | quantifier hdummies hbinds =>
    exact HoistSafe.quantifier (fun hinside => by cases hinside)
      (ih hpassive hbinds (bound_append hscope hdummies) hfree)
  | @hoist n q dummies body body' added hbody ih =>
    cases hpassive with
    | quantifier hpassive =>
    cases hbinds with
    | quantifier hdummies hbinds =>
    have hadded : forall d, d ∈ added -> forall x, d.2.FreeIn x ->
        x.isBound = false :=
      fun d hd => hfree d (List.mem_append_left _ hd)
    apply HoistSafe.quantifier
    · intro _ x hx hfreeIn
      have hbound := hscope x hx
      rcases Expr.freeIn_quantifier.mp hfreeIn with ⟨hnot, hfreeIn⟩
      have hunbound : x.isBound = false := by
        rcases extracts_free hbody hfreeIn with hfreeIn | ⟨d, hd, hfreeIn⟩
        · exact hfree _ (List.mem_append_right _ List.mem_cons_self) x
            (Expr.FreeIn.quantifier hnot hfreeIn)
        · exact hadded d hd x hfreeIn
      rw [hbound] at hunbound
      cases hunbound
    · exact ih hpassive hbinds (bound_append hscope hdummies) hadded

/-- Bound variables are free only where they were, and never in a definition
that was moved out of their scope. -/
theorem free_of_extracts (h : Extracts existentialFunctions inside v)
    (hsafe : HoistSafe existentialFunctions inside scope v.before) (hx : x.isBound = true) :
    (v.after.FreeIn x -> v.before.FreeIn x) ∧ forall d, d ∈ v.added -> d.2.FreeIn x ->
        v.before.FreeIn x ∧ x ∉ scope := by
  induction h generalizing scope with
  | literal => exact ⟨id, fun d hd => absurd hd List.not_mem_nil⟩
  | ident => exact ⟨id, fun d hd => absurd hd List.not_mem_nil⟩
  | old _ _ => cases hsafe
  | nary _ _ ih =>
    cases hsafe with
    | nary hsafe =>
    rw [List.forall_mem_map] at hsafe
    constructor
    · intro hfree
      rcases Expr.freeIn_nary.mp hfree with ⟨a, ha, hfree⟩
      rcases List.mem_map.mp ha with ⟨v, hv, rfl⟩
      exact Expr.FreeIn.nary (List.mem_map_of_mem hv)
        ((ih v hv (hsafe v hv)).1 hfree)
    · intro d hd hfree
      rcases List.mem_flatMap.mp hd with ⟨v, hv, hd⟩
      rcases (ih v hv (hsafe v hv)).2 d hd hfree with ⟨hbefore, hout⟩
      exact ⟨Expr.FreeIn.nary (List.mem_map_of_mem hv) hbefore, hout⟩
  | keep _ ih =>
    cases hsafe with
    | quantifier _ hsafe =>
    rcases ih hsafe with ⟨hafter, hadded⟩
    constructor
    · intro hfree
      rcases Expr.freeIn_quantifier.mp hfree with ⟨hnot, hfree⟩
      exact Expr.FreeIn.quantifier hnot (hafter hfree)
    · intro d hd hfree
      rcases hadded d hd hfree with ⟨hbefore, hout⟩
      rw [List.mem_append, not_or] at hout
      exact ⟨Expr.FreeIn.quantifier hout.2 hbefore, hout.1⟩
  | @hoist n q dummies body body' added _ ih =>
    cases hsafe with
    | quantifier hnotFree hsafe =>
    rcases ih hsafe with ⟨hafter, hadded⟩
    constructor
    · intro hfree
      rw [Expr.freeIn_ident] at hfree
      rw [← hfree] at hx
      cases hx
    · intro d hd hfree
      rcases List.mem_append.mp hd with hd | hd
      · rcases hadded d hd hfree with ⟨hbefore, hout⟩
        rw [List.mem_append, not_or] at hout
        exact ⟨Expr.FreeIn.quantifier hout.2 hbefore, hout.1⟩
      · rw [List.mem_singleton.mp hd] at hfree
        rcases Expr.freeIn_quantifier.mp hfree with ⟨hnot, hfree⟩
        have hbefore : (Expr.quantifier q dummies body).FreeIn x :=
          Expr.FreeIn.quantifier hnot (hafter hfree)
        exact ⟨hbefore, fun hmem => hnotFree rfl x hmem hbefore⟩

end FreeVariables

/-!
# The conjunction of the definitions
-/

section Definitions

variable {ds : List NewConstant} {x : Variable}

theorem and_eq_cases (ret a b : Expr) (h : ret ≠ .falseExpr) :
    (ret = .trueExpr ∧ Expr.and ret (.eq a b) = .eq a b) ∨
      Expr.and ret (.eq a b) = .binary .and ret (.eq a b) := by
  unfold Expr.and
  by_cases htrue : ret = .trueExpr
  · exact Or.inl ⟨htrue, if_pos htrue⟩
  · right
    rw [if_neg htrue, if_neg (by intro h; cases h), if_neg]
    rintro (hfalse | hfalse)
    · exact h hfalse
    · cases hfalse

theorem freeIn_foldl_and {ret : Expr} (hret : ret ≠ .falseExpr) :
    (ds.foldl (fun ret tup => Expr.and ret (Expr.eq (.ident tup.1) tup.2)) ret).FreeIn x <->
      ret.FreeIn x ∨ exists d, d ∈ ds ∧ (d.1 = x ∨ d.2.FreeIn x) := by
  induction ds generalizing ret with
  | nil => simp
  | cons d ds ih =>
    have hnew : Expr.and ret (.eq (.ident d.1) d.2) ≠ .falseExpr ∧
        ((Expr.and ret (.eq (.ident d.1) d.2)).FreeIn x <->
          ret.FreeIn x ∨ d.1 = x ∨ d.2.FreeIn x) := by
      rcases and_eq_cases ret (.ident d.1) d.2 hret with ⟨rfl, heq⟩ | heq
      · rw [heq, Expr.eq, Expr.freeIn_binary, Expr.freeIn_ident]
        exact ⟨by simp [Expr.binary, Expr.falseExpr],
          (or_iff_right Expr.not_freeIn_literal).symm⟩
      · rw [heq, Expr.eq, Expr.freeIn_binary, Expr.freeIn_binary,
          Expr.freeIn_ident]
        exact ⟨by simp [Expr.binary, Expr.falseExpr], Iff.rfl⟩
    rw [List.foldl_cons, ih hnew.1, hnew.2, or_assoc]
    simp

theorem freeIn_definitions : (definitions ds).FreeIn x <->
    exists d, d ∈ ds ∧ (d.1 = x ∨ d.2.FreeIn x) := by
  unfold definitions
  rw [freeIn_foldl_and (by intro h; cases h)]
  exact or_iff_right Expr.not_freeIn_literal

theorem holds_definitions {U : Type} [DecidableEq U] {I : Interp U}
    {ρ₀ ρ : Env U} : (definitions ds).Holds I ρ₀ ρ <->
      forall d, d ∈ ds -> ρ d.1 = d.2.eval I ρ₀ ρ := by
  have hfold : forall ret : Expr,
      (ds.foldl (fun ret tup => Expr.and ret (Expr.eq (.ident tup.1) tup.2))
        ret).Holds I ρ₀ ρ <->
      ret.Holds I ρ₀ ρ ∧ forall d, d ∈ ds -> ρ d.1 = d.2.eval I ρ₀ ρ := by
    induction ds with
    | nil => simp
    | cons d ds ih =>
      intro ret
      rw [List.foldl_cons, ih, Expr.holds_and, Expr.holds_eq,
        Expr.eval_ident, List.forall_mem_cons, and_assoc]
  rw [definitions, hfold]
  exact and_iff_right Expr.holds_trueExpr

end Definitions

/-!
# The extracted formula
-/

/-- The returned formula is as valid as the given one, and well scoped. -/
structure ExtractsCorrectly (existentialFunctions : List String)
    (freshConstCounter : Nat) (expr : Expr) : Prop where
  valid : (extract existentialFunctions freshConstCounter expr).1.Valid <->
    expr.Valid
  inScope : forall x,
    (extract existentialFunctions freshConstCounter expr).1.FreeIn x ->
      x.isBound = false

section Correctness

variable {existentialFunctions : List String} {freshConstCounter : Nat}
  {expr : Expr}

theorem extract_eq (existentialFunctions : List String)
    (freshConstCounter : Nat) (expr : Expr) : exists e' added,
    (extract existentialFunctions freshConstCounter expr).1 = Expr.imp (definitions added) e' ∧
    Extracts existentialFunctions false ⟨freshConstCounter, expr, e', added⟩ := by
  rcases visitExpr_extracts expr false ⟨freshConstCounter, []⟩ with
    ⟨e', added, hvisit, hextracts⟩
  refine ⟨e', added, ?_, hextracts⟩
  unfold extract
  rw [hvisit]
  rfl

theorem holds_extract {e' : Expr} {added : List NewConstant}
    (hextracts : Extracts existentialFunctions false ⟨freshConstCounter, expr, e', added⟩)
    (hscoped : expr.WellScoped) (hpassive : expr.Passive)
    (hsafe : HoistSafe existentialFunctions false [] expr)
    {U : Type} [DecidableEq U] {I : Interp U} {ρ₀ ρ : Env U} :
    (Expr.imp (definitions added) e').Holds I ρ₀ ρ <->
      ((forall d, d ∈ added -> ρ d.1 = d.2.eval I ρ₀ ρ) -> expr.Holds I ρ₀ ρ) := by
  rw [Expr.holds_imp, holds_definitions]
  apply forall_congr'
  intro hdefs
  have heval : e'.eval I ρ₀ ρ = expr.eval I ρ₀ ρ :=
    extracts_eval hextracts hpassive hscoped.bindsDummies hsafe
      (fun x hx => absurd hx List.not_mem_nil) hdefs (fun _ _ => rfl)
  rw [Expr.Holds, Expr.Holds, heval]

theorem exists_defined {n : Nat} {ds : List NewConstant} (h : NumberedFrom DefinedAt n ds)
    {U : Type} [DecidableEq U] {I : Interp U} (ρ₀ : Env U) {ρ : Env U}
    (htyped : ρ.Typed I) : exists σ : Env U, σ.Typed I ∧
      (forall d, d ∈ ds -> σ d.1 = d.2.eval I ρ₀ σ) ∧
      forall x, (forall m, n ≤ m -> x ≠ freshConst m) -> σ x = ρ x := by
  rcases Extension.exists_extends (defined_ordered I ρ₀ h) ρ with ⟨σ, hext, hall⟩
  have hdefs : forall d, d ∈ ds -> σ d.1 = d.2.eval I ρ₀ σ :=
    fun d hd => hall _ (List.mem_map_of_mem hd)
  refine ⟨σ, ?_, hdefs, ?_⟩
  · intro x
    by_cases hx : exists d, d ∈ ds ∧ d.1 = x
    · rcases hx with ⟨d, hd, rfl⟩
      rcases h.exists_number hd with ⟨m, _, _, htarget, ⟨q, dummies, body, hrhs⟩, _⟩
      rw [hdefs d hd, htarget, hrhs, Expr.eval_quantifier]
      trivial
    · rw [hext x]
      · exact htyped x
      · rw [List.map_map]
        intro hmem
        rcases List.mem_map.mp hmem with ⟨d, hd, heq⟩
        exact hx ⟨d, hd, heq⟩
  · intro x hx
    apply hext x
    rw [List.map_map]
    intro hmem
    rcases List.mem_map.mp hmem with ⟨d, hd, heq⟩
    rcases h.exists_number hd with ⟨m, hm, _, hd⟩
    exact hx m hm (heq.symm.trans hd.target)

theorem extractsCorrectly_of_hoistSafe (hscoped : expr.WellScoped)
    (hpassive : expr.Passive) (hfresh : Below freshConstCounter expr)
    (hsafe : HoistSafe existentialFunctions false [] expr) :
    ExtractsCorrectly existentialFunctions freshConstCounter expr := by
  rcases extract_eq existentialFunctions freshConstCounter expr with
    ⟨e', added, heq, hextracts⟩
  have hdefined := (extracts_defined hextracts hfresh).2
  constructor
  · rw [heq]
    constructor
    · intro hvalid U _ I ρ₀ ρ hρ₀ hρ
      rcases exists_defined hdefined ρ₀ hρ with ⟨σ, hσ, hdefs, hsame⟩
      have hholds := (holds_extract hextracts hscoped hpassive hsafe).mp
        (hvalid U I ρ₀ σ hρ₀ hσ) hdefs
      have hagree : expr.eval I ρ₀ σ = expr.eval I ρ₀ ρ := by
        apply Expr.eval_congr (fun _ _ => rfl)
        intro x hx
        apply hsame
        rintro m hm rfl
        exact absurd (hfresh m hx) (Nat.not_lt.mpr hm)
      rwa [Expr.Holds, hagree] at hholds
    · intro hvalid U _ I ρ₀ ρ hρ₀ hρ
      exact (holds_extract hextracts hscoped hpassive hsafe).mpr
        (fun _ => hvalid U I ρ₀ ρ hρ₀ hρ)
  · intro x hx
    rw [heq, Expr.imp, Expr.freeIn_binary, freeIn_definitions] at hx
    cases hbound : x.isBound with
    | false => rfl
    | true =>
      rcases free_of_extracts hextracts hsafe hbound with ⟨hafter, hadded⟩
      rcases hx with ⟨d, hd, rfl | hfree⟩ | hfree
      · rcases hdefined.exists_number hd with ⟨m, _, _, hd⟩
        rw [hd.target] at hbound
        cases hbound
      · rw [← hbound]
        exact hscoped.inScope x (hadded d hd hfree).1
      · rw [← hbound]
        exact hscoped.inScope x (hafter hfree)

theorem hoistSafe_of_extractsCorrectly (hscoped : expr.WellScoped) (hpassive : expr.Passive)
    (h : ExtractsCorrectly existentialFunctions freshConstCounter expr) :
    HoistSafe existentialFunctions false [] expr := by
  rcases extract_eq existentialFunctions freshConstCounter expr with
    ⟨e', added, heq, hextracts⟩
  apply hoistSafe_of_scoped hextracts hpassive hscoped.bindsDummies
  · exact fun x hx => absurd hx List.not_mem_nil
  · intro d hd x hx
    apply h.inScope x
    rw [heq, Expr.imp, Expr.freeIn_binary, freeIn_definitions]
    exact Or.inl ⟨d, hd, Or.inr hx⟩

end Correctness

/--
Of a passive, well-scoped formula without the fresh constants the extraction is
correct if and only if no quantifier inside of an existential call mentions a
variable of a quantifier around it.
-/
theorem extractsCorrectly_iff (existentialFunctions : List String)
    (freshConstCounter : Nat) (expr : Expr) (hscoped : expr.WellScoped)
    (hpassive : expr.Passive) (hfresh : Below freshConstCounter expr) :
    ExtractsCorrectly existentialFunctions freshConstCounter expr <->
      HoistSafe existentialFunctions false [] expr := by
  constructor
  · exact hoistSafe_of_extractsCorrectly hscoped hpassive
  · exact extractsCorrectly_of_hoistSafe hscoped hpassive hfresh

/-!
# A quantifier within a quantifier
-/

def boundX : Variable :=
  .boundVariable ⟨"x", .int⟩

def boundY : Variable :=
  .boundVariable ⟨"y", .int⟩

/-- The call `foo(forall x: int :: exists y: int :: x == y)`. -/
def nestedQuantifiers : Expr :=
  .nary (.functionCall "foo")
    [.quantifier .all [boundX]
      (.quantifier .ex [boundY] (.eq (.ident boundX) (.ident boundY)))]

theorem nestedQuantifiers_wellScoped : nestedQuantifiers.WellScoped := by
  constructor
  · apply Expr.BindsDummies.nary
    intro a ha
    rw [List.mem_singleton.mp ha]
    apply Expr.BindsDummies.quantifier (by simp [boundX, Variable.isBound])
    apply Expr.BindsDummies.quantifier (by simp [boundY, Variable.isBound])
    apply Expr.BindsDummies.nary
    intro a ha
    rcases List.mem_pair.mp ha with rfl | rfl
    · exact Expr.BindsDummies.ident
    · exact Expr.BindsDummies.ident
  · intro x hx
    rcases Expr.freeIn_nary.mp hx with ⟨a, ha, hx⟩
    rw [List.mem_singleton.mp ha, Expr.freeIn_quantifier,
      Expr.freeIn_quantifier, Expr.eq, Expr.freeIn_binary, Expr.freeIn_ident,
      Expr.freeIn_ident] at hx
    rcases hx with ⟨hnotX, hnotY, rfl | rfl⟩
    · exact absurd List.mem_cons_self hnotX
    · exact absurd List.mem_cons_self hnotY

theorem nestedQuantifiers_passive : nestedQuantifiers.Passive := by
  apply Expr.Passive.nary
  intro a ha
  rw [List.mem_singleton.mp ha]
  apply Expr.Passive.quantifier
  apply Expr.Passive.quantifier
  apply Expr.Passive.nary
  intro a ha
  rcases List.mem_pair.mp ha with rfl | rfl
  · exact Expr.Passive.ident
  · exact Expr.Passive.ident

theorem nestedQuantifiers_below : Below 0 nestedQuantifiers := by
  have hident : forall n i, Below n (.ident (.boundVariable i)) := by
    intro n i m hm
    generalize hc : freshConst m = c at hm
    cases hm
    cases hc
  apply below_nary.mpr
  intro a ha
  rw [List.mem_singleton.mp ha, below_quantifier, below_quantifier, Expr.eq,
    Expr.binary, below_nary]
  intro a ha
  rcases List.mem_pair.mp ha with rfl | rfl
  · exact hident 0 _
  · exact hident 0 _

theorem extractsCorrectly_iff_nested :
    ExtractsCorrectly ["foo"] 0 nestedQuantifiers <->
      HoistSafe ["foo"] false [] nestedQuantifiers :=
  extractsCorrectly_iff ["foo"] 0 nestedQuantifiers
    nestedQuantifiers_wellScoped nestedQuantifiers_passive
    nestedQuantifiers_below

/-- The definition of the inner quantifier is outside of the outer one. -/
theorem nestedQuantifiers_not_correct :
    ¬ ExtractsCorrectly ["foo"] 0 nestedQuantifiers := by
  intro h
  have heq : (extract ["foo"] 0 nestedQuantifiers).1 = Expr.imp
      (definitions
        [(freshConst 0,
          .quantifier .ex [boundY] (.eq (.ident boundX) (.ident boundY))),
        (freshConst 1, .quantifier .all [boundX] (.ident (freshConst 0)))])
      (.nary (.functionCall "foo") [.ident (freshConst 1)]) := by
    simp [extract, nestedQuantifiers, visitExpr, visitExprSeq, Fun.isCallOf,
      Expr.eq, Expr.binary]
  have hfree : (extract ["foo"] 0 nestedQuantifiers).1.FreeIn boundX := by
    rw [heq, Expr.imp, Expr.freeIn_binary, freeIn_definitions]
    left
    refine ⟨_, List.mem_cons_self, Or.inr ?_⟩
    apply Expr.FreeIn.quantifier
    · simp [boundX, boundY]
    · exact Expr.FreeIn.nary List.mem_cons_self Expr.FreeIn.ident
  have hbound := h.inScope boundX hfree
  cases hbound

end ExtractQuantifiers

end Boogie
