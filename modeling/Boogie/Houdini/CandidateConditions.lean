import Boogie.Houdini.ApplyAssignment

/-!
# Taking a candidate out of an annotation and adding a condition to it

Both functions walk down the chain of implications that `MatchCandidate` walks
down.  The first one returns from every implication with success.
-/

namespace Boogie

namespace Houdini

/--
The result, `candidateConstant` and `exprWithoutConstant`.  An expression that is
null, or has null in the place of an argument, is `none`.
-/
structure WithoutConstant where
  result : Bool
  candidateConstant : Option String
  exprWithoutConstant : Option Expr
deriving DecidableEq, Repr

def afterConsequent (antecedent : Expr) (r : WithoutConstant) :
    WithoutConstant where
  result := true
  candidateConstant := r.candidateConstant
  exprWithoutConstant :=
    if r.result then r.exprWithoutConstant.map (Expr.imp antecedent)
    else r.exprWithoutConstant

def getCandidateWithoutConstant (candidates : List String) :
    Expr -> WithoutConstant
  | .nary (.binary .imp) [.ident x, consequent] =>
    if x.isConstant = true ∧ x.name ∈ candidates then
      ⟨true, some x.name, some consequent⟩
    else
      afterConsequent (.ident x)
        (getCandidateWithoutConstant candidates consequent)
  | .nary (.binary .imp) [antecedent, consequent] =>
    afterConsequent antecedent
      (getCandidateWithoutConstant candidates consequent)
  | _ => ⟨false, none, none⟩

def applyStack (implicationStack : List Expr) (result : Expr) : Expr :=
  implicationStack.reverse.foldl (fun result expr => Expr.imp expr result) result

def addConditionToCandidateRec (condition : Expr) (candidateConstant : String) :
    Expr -> List Expr -> Expr
  | .nary (.binary .imp) [.ident x, consequent], implicationStack =>
    if x.isConstant = true ∧ x.name = candidateConstant then
      applyStack implicationStack
        (Expr.imp (.ident x) (Expr.imp condition consequent))
    else
      addConditionToCandidateRec condition candidateConstant consequent
        (implicationStack ++ [.ident x])
  | .nary (.binary .imp) [antecedent, consequent], implicationStack =>
    addConditionToCandidateRec condition candidateConstant consequent
      (implicationStack ++ [antecedent])
  | e, _ => e

def addConditionToCandidate (e condition : Expr) (candidateConstant : String) :
    Expr :=
  addConditionToCandidateRec condition candidateConstant e []

/-!
# The chain of implications
-/

section Chain

variable {U : Type} [DecidableEq U] {I : Interp U} {ρ₀ ρ : Env U}
  {candidates : List String} {c : String}

theorem applyStack_cons (a : Expr) (stack : List Expr) (e : Expr) :
    applyStack (a :: stack) e = Expr.imp a (applyStack stack e) := by
  simp [applyStack]

theorem holds_applyStack {stack : List Expr} {e : Expr} :
    (applyStack stack e).Holds I ρ₀ ρ <->
      ((forall a, a ∈ stack -> a.Holds I ρ₀ ρ) -> e.Holds I ρ₀ ρ) := by
  induction stack with
  | nil => simp [applyStack]
  | cons a stack ih =>
    rw [applyStack_cons, Expr.holds_imp, ih, List.forall_mem_cons]
    exact and_imp.symm

def NoCandidate (candidates : List String) (a : Expr) : Prop :=
  forall x, a = .ident x -> ¬ (x.isConstant = true ∧ x.name ∈ candidates)

theorem matchCandidate_imp {a b : Expr} (ha : NoCandidate candidates a) :
    matchCandidate candidates (Expr.imp a b) = matchCandidate candidates b := by
  unfold Expr.imp Expr.binary
  cases a with
  | ident x => rw [matchCandidate, if_neg (ha x rfl)]
  | _ =>
    rw [matchCandidate]
    intro x h
    cases h

theorem matchCandidate_applyStack {stack : List Expr} {e : Expr}
    (h : forall a, a ∈ stack -> NoCandidate candidates a) :
    matchCandidate candidates (applyStack stack e) = matchCandidate candidates e := by
  induction stack with
  | nil => rfl
  | cons a stack ih =>
    rw [applyStack_cons, matchCandidate_imp (h a List.mem_cons_self),
      ih (fun b hb => h b (List.mem_cons_of_mem a hb))]

theorem exists_applyStack {e : Expr} (h : matchCandidate candidates e = some c) :
    exists stack x consequent, e = applyStack stack (Expr.imp (.ident x) consequent) ∧
      x.isConstant = true ∧ x.name = c ∧ c ∈ candidates ∧
      forall a, a ∈ stack -> NoCandidate candidates a := by
  fun_induction matchCandidate candidates e with
  | case1 x consequent hx =>
    cases h
    exact ⟨[], x, consequent, rfl, hx.1, rfl, hx.2, by simp⟩
  | case2 x consequent hx ih =>
    rcases ih h with ⟨stack, y, rest, rfl, hconst, hname, hmem, hstack⟩
    refine ⟨.ident x :: stack, y, rest, (applyStack_cons _ _ _).symm, hconst,
      hname, hmem, ?_⟩
    intro a ha
    rcases List.mem_cons.mp ha with rfl | ha
    · intro z hz
      cases hz
      exact hx
    · exact hstack a ha
  | case3 antecedent consequent hident ih =>
    rcases ih h with ⟨stack, y, rest, rfl, hconst, hname, hmem, hstack⟩
    refine ⟨antecedent :: stack, y, rest, (applyStack_cons _ _ _).symm, hconst,
      hname, hmem, ?_⟩
    intro a ha
    rcases List.mem_cons.mp ha with rfl | ha
    · intro z hz
      exact absurd hz (hident z)
    · exact hstack a ha
  | case4 => cases h

theorem getCandidateWithoutConstant_imp {a b : Expr} (ha : NoCandidate candidates a) :
    getCandidateWithoutConstant candidates (Expr.imp a b) =
      afterConsequent a (getCandidateWithoutConstant candidates b) := by
  unfold Expr.imp Expr.binary
  cases a with
  | ident x => rw [getCandidateWithoutConstant, if_neg (ha x rfl)]
  | _ =>
    rw [getCandidateWithoutConstant]
    intro x h
    cases h

theorem getCandidateWithoutConstant_applyStack {stack : List Expr}
    {x : Variable} (consequent : Expr) (hconst : x.isConstant = true) (hmem : x.name ∈ candidates)
    (h : forall a, a ∈ stack -> NoCandidate candidates a) :
    getCandidateWithoutConstant candidates (applyStack stack (Expr.imp (.ident x) consequent)) =
      ⟨true, some x.name, some (applyStack stack consequent)⟩ := by
  induction stack with
  | nil =>
    show getCandidateWithoutConstant candidates
      (.nary (.binary .imp) [.ident x, consequent]) = _
    rw [getCandidateWithoutConstant, if_pos ⟨hconst, hmem⟩]
    rfl
  | cons a stack ih =>
    rw [applyStack_cons,
      getCandidateWithoutConstant_imp (h a List.mem_cons_self),
      ih (fun b hb => h b (List.mem_cons_of_mem a hb)), applyStack_cons]
    rfl

theorem getCandidateWithoutConstant_result (a b : Expr) :
    (getCandidateWithoutConstant candidates (Expr.imp a b)).result = true := by
  unfold Expr.imp Expr.binary
  cases a with
  | ident x =>
    rw [getCandidateWithoutConstant]
    split <;> rfl
  | _ =>
    rw [getCandidateWithoutConstant]
    · rfl
    · intro x h
      cases h

theorem addConditionToCandidateRec_imp {a b condition : Expr}
    {stack : List Expr} (ha : NoCandidate [c] a) :
    addConditionToCandidateRec condition c (Expr.imp a b) stack =
      addConditionToCandidateRec condition c b (stack ++ [a]) := by
  unfold Expr.imp Expr.binary
  cases a with
  | ident x =>
    have hx := ha x rfl
    rw [List.mem_singleton] at hx
    rw [addConditionToCandidateRec, if_neg hx]
  | _ =>
    rw [addConditionToCandidateRec]
    intro x h
    cases h

theorem addConditionToCandidateRec_applyStack {condition : Expr}
    (done : List Expr) {stack : List Expr} {x : Variable} {consequent : Expr}
    (hconst : x.isConstant = true) (h : forall a, a ∈ stack -> NoCandidate [x.name] a) :
    addConditionToCandidateRec condition x.name
        (applyStack stack (Expr.imp (.ident x) consequent)) done = applyStack (done ++ stack)
        (Expr.imp (.ident x) (Expr.imp condition consequent)) := by
  induction stack generalizing done with
  | nil =>
    show addConditionToCandidateRec condition x.name
      (.nary (.binary .imp) [.ident x, consequent]) done = _
    rw [addConditionToCandidateRec, if_pos ⟨hconst, rfl⟩, List.append_nil]
  | cons a stack ih =>
    rw [applyStack_cons,
      addConditionToCandidateRec_imp (h a List.mem_cons_self),
      ih (done ++ [a]) (fun b hb => h b (List.mem_cons_of_mem a hb)), List.append_assoc,
      List.singleton_append]

end Chain

/-!
# The laws
-/

def guardTrue (candidates : List String) : Expr -> Expr
  | .nary (.binary .imp) [.ident x, consequent] =>
    if x.isConstant = true ∧ x.name ∈ candidates then
      Expr.imp .trueExpr consequent
    else Expr.imp (.ident x) (guardTrue candidates consequent)
  | .nary (.binary .imp) [antecedent, consequent] =>
    Expr.imp antecedent (guardTrue candidates consequent)
  | e => e

/--
`GetCandidateWithoutConstant` succeeds where `MatchCandidate` does and gives the
same constant and the expression with `true` for it.  A condition is added as an
antecedent, and the candidate is still found.
-/
structure CandidateLaws (candidates : List String) (e : Expr) : Prop where
  result : (getCandidateWithoutConstant candidates e).result = true <->
    exists c, matchCandidate candidates e = some c
  candidateConstant : forall c, matchCandidate candidates e = some c ->
    (getCandidateWithoutConstant candidates e).candidateConstant = some c
  exprWithoutConstant : forall c, matchCandidate candidates e = some c ->
    exists e', (getCandidateWithoutConstant candidates e).exprWithoutConstant =
        some e' ∧ Equivalent e' (guardTrue candidates e)
  addCondition : forall c condition, matchCandidate candidates e = some c ->
    Equivalent (addConditionToCandidate e condition c) (Expr.imp condition e)
  matchCondition : forall c condition, matchCandidate candidates e = some c ->
    matchCandidate candidates (addConditionToCandidate e condition c) = some c

section Laws

variable {candidates : List String} {c : String} {e : Expr}

theorem guardTrue_imp {a b : Expr} (ha : NoCandidate candidates a) :
    guardTrue candidates (Expr.imp a b) = Expr.imp a (guardTrue candidates b) := by
  conv => lhs; unfold Expr.imp Expr.binary
  cases a with
  | ident x => rw [guardTrue, if_neg (ha x rfl)]
  | _ =>
    rw [guardTrue]
    intro x h
    cases h

theorem guardTrue_applyStack {stack : List Expr} {x : Variable}
    {consequent : Expr} (hconst : x.isConstant = true) (hmem : x.name ∈ candidates)
    (h : forall a, a ∈ stack -> NoCandidate candidates a) :
    guardTrue candidates (applyStack stack (Expr.imp (.ident x) consequent)) =
      applyStack stack (Expr.imp .trueExpr consequent) := by
  induction stack with
  | nil =>
    show guardTrue candidates
      (.nary (.binary .imp) [.ident x, consequent]) = _
    rw [guardTrue, if_pos ⟨hconst, hmem⟩]
    rfl
  | cons a stack ih =>
    rw [applyStack_cons, guardTrue_imp (h a List.mem_cons_self),
      ih (fun b hb => h b (List.mem_cons_of_mem a hb)), applyStack_cons]

theorem candidateLaws_of_match (h : matchCandidate candidates e = some c) :
    CandidateLaws candidates e := by
  rcases exists_applyStack h with
    ⟨stack, x, consequent, rfl, hconst, rfl, hmem, hstack⟩
  have hget := getCandidateWithoutConstant_applyStack consequent hconst hmem
    hstack
  have hstack' : forall a, a ∈ stack -> NoCandidate [x.name] a := by
    intro a ha y hy hname
    refine hstack a ha y hy ⟨hname.1, ?_⟩
    rw [List.mem_singleton.mp hname.2]
    exact hmem
  have hadd : forall condition, addConditionToCandidate
      (applyStack stack (Expr.imp (.ident x) consequent)) condition x.name =
      applyStack stack
        (Expr.imp (.ident x) (Expr.imp condition consequent)) := by
    intro condition
    exact addConditionToCandidateRec_applyStack [] hconst hstack'
  have hsame : forall c', matchCandidate candidates
      (applyStack stack (Expr.imp (.ident x) consequent)) = some c' ->
      c' = x.name := by
    intro c' hc'
    exact Option.some.inj (hc'.symm.trans h)
  constructor
  · rw [hget]
    exact ⟨fun _ => ⟨x.name, h⟩, fun _ => rfl⟩
  · intro c' hc'
    rw [hget, hsame c' hc']
  · intro c' hc'
    rw [hget]
    refine ⟨applyStack stack consequent, rfl, ?_⟩
    intro U _ I ρ₀ ρ
    rw [guardTrue_applyStack hconst hmem hstack, holds_applyStack,
      holds_applyStack, Expr.holds_imp]
    simp
  · intro c' condition hc' U _ I ρ₀ ρ
    rw [hsame c' hc', hadd, Expr.holds_imp, holds_applyStack, holds_applyStack,
      Expr.holds_imp, Expr.holds_imp, Expr.holds_imp]
    constructor
    · exact fun hall hcondition hstack hx => hall hstack hx hcondition
    · exact fun hall hstack hx hcondition => hall hcondition hstack hx
  · intro c' condition hc'
    rw [hsame c' hc', hadd, matchCandidate_applyStack hstack]
    show matchCandidate candidates
      (.nary (.binary .imp) [.ident x, Expr.imp condition consequent]) = _
    rw [matchCandidate, if_pos ⟨hconst, hmem⟩]

theorem getCandidateWithoutConstant_of_no_implication (candidates : List String)
    (h : forall a b, e ≠ Expr.imp a b) :
    getCandidateWithoutConstant candidates e = ⟨false, none, none⟩ := by
  fun_cases getCandidateWithoutConstant candidates e with
  | case1 x consequent => exact absurd rfl (h (.ident x) consequent)
  | case2 x consequent => exact absurd rfl (h (.ident x) consequent)
  | case3 antecedent consequent => exact absurd rfl (h antecedent consequent)
  | case4 => rfl

/--
The laws hold of an expression if and only if it has a candidate or is no
implication.
-/
theorem candidateLaws_iff (candidates : List String) (e : Expr) :
    CandidateLaws candidates e <-> (exists c, matchCandidate candidates e = some c) ∨
        forall a b, e ≠ Expr.imp a b := by
  constructor
  · intro h
    by_cases himp : exists a b, e = Expr.imp a b
    · rcases himp with ⟨a, b, rfl⟩
      exact Or.inl (h.result.mp (getCandidateWithoutConstant_result a b))
    · right
      intro a b heq
      exact himp ⟨a, b, heq⟩
  · rintro (⟨c, hc⟩ | h)
    · exact candidateLaws_of_match hc
    · cases hmatch : matchCandidate candidates e with
      | some c => exact candidateLaws_of_match hmatch
      | none =>
        have hget :=
          getCandidateWithoutConstant_of_no_implication candidates h
        constructor
        · rw [hget, hmatch]
          simp
        · intro c hc
          rw [hmatch] at hc
          cases hc
        · intro c hc
          rw [hmatch] at hc
          cases hc
        · intro c condition hc
          rw [hmatch] at hc
          cases hc
        · intro c condition hc
          rw [hmatch] at hc
          cases hc

/-- An implication without a candidate. -/
theorem not_candidateLaws_of_no_candidate :
    ¬ CandidateLaws [] (Expr.imp .trueExpr .falseExpr) := by
  intro h
  rcases h.result.mp rfl with ⟨c, hc⟩
  have hnone : matchCandidate [] (Expr.imp .trueExpr .falseExpr) = none := rfl
  rw [hnone] at hc
  cases hc

end Laws

end Houdini

end Boogie
