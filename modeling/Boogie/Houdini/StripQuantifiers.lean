import Mathlib.Data.List.Nodup
import Boogie.Core.Binders
import Boogie.Core.Substituter
import Boogie.Core.Visits
import Boogie.Foundation.Text

/-!
# Quantifiers at the top of an assertion

A universal quantifier whose body calls an existential function is replaced by
its body, with a fresh local variable for each bound one.  The substitution goes
by the names of the variables and enters the inner quantifiers.
-/

namespace Boogie

namespace StripQuantifiers

/-!
# The visitor
-/

inductive Error where
  | absHoudiniInternalError (msg : String)
  | argumentException
deriving DecidableEq, Repr

/-- Where the visitor is; the source numbers the places from 0 to 3. -/
inductive InsideQuantifier where
  | none
  | all
  | ex
  | nested
deriving DecidableEq, Repr

def InsideQuantifier.enter : InsideQuantifier -> Quantifier -> InsideQuantifier
  | none, .all => all
  | none, .ex => ex
  | _, _ => nested

structure Visitor where
  insideQuantifier : InsideQuantifier
  searchExistentialFunction : Bool
  foundExistentialFunction : Bool
  subst : Option (List (String × Variable))
  localsToAdd : List Variable
  boundVarCounter : Nat

def Visitor.substitution (v : Visitor) : Substitution :=
  fun x => (v.subst.bind (fun subst => subst.lookup x.name)).map .ident

def boundLocal (bv : Variable) (n : Nat) : Variable :=
  .localVariable ⟨bv.name ++ "@bound" ++ toString n, bv.type⟩

def boundLocals : Nat -> List Variable -> List Variable
  | _, [] => []
  | n, bv :: dummies => boundLocal bv n :: boundLocals (n + 1) dummies

def boundSubst (n : Nat) (dummies : List Variable) : List (String × Variable) :=
  (dummies.map Variable.name).zip (boundLocals n dummies)

def Visitor.enter (v : Visitor) (base : Bool) (q : Quantifier) : Visitor :=
  { v with
    insideQuantifier :=
      if base then v.insideQuantifier else v.insideQuantifier.enter q }

def Visitor.noteCall (v : Visitor) (isCall : Bool) : Visitor :=
  { v with
    foundExistentialFunction :=
      v.foundExistentialFunction || (v.searchExistentialFunction && isCall) }

def Visitor.search (v : Visitor) : Visitor :=
  { v with
    insideQuantifier := .all
    searchExistentialFunction := true
    foundExistentialFunction := false }

def Visitor.bind (v : Visitor) (dummies : List Variable) : Visitor :=
  { v with
    subst := some (boundSubst v.boundVarCounter dummies)
    localsToAdd := v.localsToAdd ++ boundLocals v.boundVarCounter dummies
    boundVarCounter := v.boundVarCounter + dummies.length }

def Visitor.leave (v : Visitor) (insideQuantifier : InsideQuantifier) :
    Visitor :=
  { v with
    insideQuantifier := insideQuantifier
    searchExistentialFunction := false
    foundExistentialFunction := false }

def callMessage : String :=
  "Existential function found inside exists, or nested foralls"

section Visiting

variable (existentialFunctions : List String)

mutual

/-- `base` says that the visit of the root goes past the override. -/
def visitExpr (base : Bool) : Expr -> Visitor -> Except Error (Expr × Visitor)
  | .literal l, v => .ok (.literal l, v)
  | .ident x, v => .ok ((v.substitution x).getD (.ident x), v)
  | .old e, v =>
    match visitExpr false e v with
    | .ok (e, v) => .ok (.old e, v)
    | .error error => .error error
  | .nary f args, v =>
    if f.isCallOf existentialFunctions ∧ v.insideQuantifier = .nested then
      .error (.absHoudiniInternalError callMessage)
    else
      match visitExprSeq args
        (v.noteCall (f.isCallOf existentialFunctions)) with
      | .ok (args, v) => .ok (.nary f args, v)
      | .error error => .error error
  | .quantifier q dummies body, v =>
    if base = false ∧ v.insideQuantifier.enter q = .all then
      match visitExpr false body v.search with
      | .ok (_, w) =>
        if w.foundExistentialFunction then
          if (dummies.map Variable.name).Nodup then
            match visitExpr true body (w.bind dummies) with
            | .ok (body, w) =>
              .ok (body,
                { w.leave v.insideQuantifier with subst := none })
            | .error error => .error error
          else .error .argumentException
        else
          match visitExpr false body w with
          | .ok (body, w) =>
            .ok (.quantifier q dummies body, w.leave v.insideQuantifier)
          | .error error => .error error
      | .error error => .error error
    else
      match visitExpr false body (v.enter base q) with
      | .ok (body, w) =>
        .ok (.quantifier q dummies body,
          { w with insideQuantifier := v.insideQuantifier })
      | .error error => .error error

def visitExprSeq : List Expr -> Visitor -> Except Error (List Expr × Visitor)
  | [], v => .ok ([], v)
  | e :: es, v =>
    match visitExpr false e v with
    | .ok (e, v) =>
      match visitExprSeq es v with
      | .ok (es, v) => .ok (e :: es, v)
      | .error error => .error error
    | .error error => .error error

end

/-- The formula, the local variables to add and the counter, which is static. -/
def run (boundVarCounter : Nat) (expr : Expr) :
    Except Error (Expr × List Variable × Nat) :=
  match visitExpr existentialFunctions false expr
    { insideQuantifier := .none
      searchExistentialFunction := false
      foundExistentialFunction := false
      subst := none
      localsToAdd := []
      boundVarCounter := boundVarCounter } with
  | .ok (ret, sq) => .ok (ret, sq.localsToAdd, sq.boundVarCounter)
  | .error error => .error error

end Visiting

/-!
# What is stripped
-/

def byName (n : Nat) (dummies : List Variable) : Substitution :=
  fun x => ((boundSubst n dummies).lookup x.name).map .ident

inductive Strips (existentialFunctions : List String) :
    Visit Variable -> Prop where
  | literal {n : Nat} {l : Literal} :
      Strips existentialFunctions ⟨n, .literal l, .literal l, []⟩
  | ident {n : Nat} {x : Variable} :
      Strips existentialFunctions ⟨n, .ident x, .ident x, []⟩
  | old {n : Nat} {e e' : Expr} {added : List Variable} :
      Strips existentialFunctions ⟨n, e, e', added⟩ ->
      Strips existentialFunctions ⟨n, .old e, .old e', added⟩
  | nary {n : Nat} {f : Fun} {visits : List (Visit Variable)} :
      Consecutive n visits ->
      (forall v, v ∈ visits -> Strips existentialFunctions v) ->
      Strips existentialFunctions
        ⟨n, .nary f (visits.map Visit.before), .nary f (visits.map Visit.after),
          visits.flatMap Visit.added⟩
  | keep {n : Nat} {q : Quantifier} {dummies : List Variable} {body : Expr} :
      Strips existentialFunctions
        ⟨n, .quantifier q dummies body, .quantifier q dummies body, []⟩
  | strip {n : Nat} {dummies : List Variable} {body : Expr} :
      body.callsOf existentialFunctions ≠ [] ->
      (dummies.map Variable.name).Nodup ->
      Strips existentialFunctions
        ⟨n, .quantifier .all dummies body,
          Substituter.apply (byName n dummies) body, boundLocals n dummies⟩

section Visits

variable {existentialFunctions : List String} {e e' : Expr} {v w : Visitor}

theorem Visitor.noteCall_false (v : Visitor) : v.noteCall false = v := by
  simp [Visitor.noteCall]

theorem Visitor.noteCall_noteCall (v : Visitor) (a b : Bool) :
    (v.noteCall a).noteCall b = v.noteCall (a || b) := by
  simp [Visitor.noteCall, Bool.or_assoc, Bool.and_or_distrib_left]

theorem enter_eq_all {inside : InsideQuantifier} {q : Quantifier} :
    inside.enter q = .all <-> inside = .none ∧ q = .all := by
  cases inside <;> cases q <;> simp [InsideQuantifier.enter]

theorem Visitor.enter_ne_none {base : Bool} {q : Quantifier} (h : v.insideQuantifier ≠ .none) :
    (v.enter base q).insideQuantifier ≠ .none := by
  cases base with
  | true => exact h
  | false =>
    cases hv : v.insideQuantifier <;> cases q <;>
      simp [Visitor.enter, InsideQuantifier.enter, hv]

theorem Visitor.enter_nested {base : Bool} {q : Quantifier} (h : v.insideQuantifier = .nested) :
    (v.enter base q).insideQuantifier = .nested := by
  cases base <;> cases q <;> simp [Visitor.enter, InsideQuantifier.enter, h]

structure VisitedInside (existentialFunctions : List String) (e e' : Expr)
    (v w : Visitor) : Prop where
  after : e' = Substituter.apply v.substitution e
  visitor : w = v.noteCall (e.callsOf existentialFunctions ≠ [])
  noCall : v.insideQuantifier = .nested -> e.callsOf existentialFunctions = []

theorem visitExprSeq_inside {es es' : List Expr}
    (h : forall e, e ∈ es -> forall e' v w, v.insideQuantifier ≠ .none ->
      visitExpr existentialFunctions false e v = .ok (e', w) ->
      VisitedInside existentialFunctions e e' v w) (hinside : v.insideQuantifier ≠ .none)
    (hvisit : visitExprSeq existentialFunctions es v = .ok (es', w)) :
    es' = es.map (Substituter.apply v.substitution) ∧
      w = v.noteCall (es.flatMap (Expr.callsOf existentialFunctions) ≠ []) ∧
      (v.insideQuantifier = .nested -> es.flatMap (Expr.callsOf existentialFunctions) = []) := by
  induction es generalizing es' v with
  | nil =>
    rw [visitExprSeq] at hvisit
    cases hvisit
    exact ⟨rfl, by simp [Visitor.noteCall_false], fun _ => rfl⟩
  | cons e es ih =>
    rw [visitExprSeq] at hvisit
    split at hvisit
    · rename_i e' u hfirst
      split at hvisit
      · rename_i es' w' hrest
        cases hvisit
        rcases h e List.mem_cons_self e' v u hinside hfirst with
          ⟨rfl, rfl, hcall⟩
        rcases ih (v := v.noteCall _)
            (fun a ha => h a (List.mem_cons_of_mem e ha)) hinside hrest with
          ⟨rfl, rfl, hcalls⟩
        refine ⟨rfl, ?_, ?_⟩
        · rw [Visitor.noteCall_noteCall, List.flatMap_cons]
          congr 1
          rw [Bool.eq_iff_iff]
          simp
        · intro hnested
          rw [List.flatMap_cons, hcall hnested, hcalls hnested,
            List.nil_append]
      · cases hvisit
    · cases hvisit

theorem visitExpr_inside (base : Bool) (hinside : v.insideQuantifier ≠ .none)
    (hvisit : visitExpr existentialFunctions base e v = .ok (e', w)) :
    VisitedInside existentialFunctions e e' v w := by
  induction e generalizing base e' v w with
  | literal l =>
    rw [visitExpr] at hvisit
    cases hvisit
    exact ⟨by simp, by simp [Expr.callsOf, Visitor.noteCall_false],
      fun _ => by rw [Expr.callsOf]⟩
  | ident x =>
    rw [visitExpr] at hvisit
    cases hvisit
    exact ⟨by rw [Substituter.apply_ident],
      by simp [Expr.callsOf, Visitor.noteCall_false],
      fun _ => by rw [Expr.callsOf]⟩
  | old e ih =>
    rw [visitExpr] at hvisit
    split at hvisit
    · rename_i e' u hbody
      cases hvisit
      rcases ih false hinside hbody with ⟨rfl, rfl, hcall⟩
      exact ⟨by simp, by rw [Expr.callsOf], by rwa [Expr.callsOf]⟩
    · cases hvisit
  | nary f args ih =>
    rw [visitExpr] at hvisit
    split at hvisit
    · cases hvisit
    · rename_i hcall
      split at hvisit
      · rename_i args' u hargs
        cases hvisit
        rcases visitExprSeq_inside (v := v.noteCall _)
            (fun a ha e' v w => ih a ha false) hinside hargs with
          ⟨rfl, rfl, hcalls⟩
        rw [Visitor.noteCall_noteCall]
        cases hf : f.isCallOf existentialFunctions with
        | false => 
          refine ⟨Substituter.apply_nary _ _ |>.symm, ?_, ?_⟩
          · rw [Expr.callsOf_nary_of_not hf, Bool.false_or]
          · rw [Expr.callsOf_nary_of_not hf]
            exact hcalls
        | true =>
          refine ⟨Substituter.apply_nary _ _ |>.symm, ?_, ?_⟩
          · rw [Expr.callsOf_nary_of_call hf]
            simp
          · intro hnested
            exact absurd ⟨hf, hnested⟩ hcall
      · cases hvisit
  | quantifier q dummies body ih =>
    rw [visitExpr] at hvisit
    rw [if_neg (fun hall => hinside (enter_eq_all.mp hall.2).1)] at hvisit
    split at hvisit
    · rename_i body' u hbody
      cases hvisit
      rcases ih (v := v.enter base q) false (Visitor.enter_ne_none hinside)
          hbody with
        ⟨rfl, rfl, hcall⟩
      constructor
      · rw [Substituter.apply_quantifier]
        rfl
      · rw [Expr.callsOf]
        rfl
      · intro hnested
        rw [Expr.callsOf]
        exact hcall (Visitor.enter_nested hnested)
    · cases hvisit

structure Visitor.Outside (v : Visitor) : Prop where
  insideQuantifier : v.insideQuantifier = .none
  search : v.searchExistentialFunction = false
  subst : v.subst = none

structure Adds (v : Visitor) (added : List Variable) (w : Visitor) : Prop where
  outside : w.Outside
  localsToAdd : w.localsToAdd = v.localsToAdd ++ added
  boundVarCounter : w.boundVarCounter = v.boundVarCounter + added.length

theorem Adds.refl (hv : v.Outside) : Adds v [] v :=
  ⟨hv, (List.append_nil _).symm, rfl⟩

theorem Adds.trans {u : Visitor} {added added' : List Variable}
    (h : Adds v added u) (h' : Adds u added' w) :
    Adds v (added ++ added') w := by
  constructor
  · exact h'.outside
  · rw [h'.localsToAdd, h.localsToAdd, List.append_assoc]
  · rw [h'.boundVarCounter, h.boundVarCounter, List.length_append,
      Nat.add_assoc]

theorem Visitor.noteCall_of_outside {isCall : Bool} (hv : v.Outside) :
    v.noteCall isCall = v := by
  have hnote : (v.searchExistentialFunction && isCall) = false := by
    rw [hv.search, Bool.false_and]
  rw [Visitor.noteCall, hnote, Bool.or_false]

theorem apply_substitution_of_none (hv : v.subst = none) (e : Expr) :
    Substituter.apply v.substitution e = e := by
  apply Substituter.apply_eq_self
  intro x _
  simp [Visitor.substitution, hv]

theorem length_boundLocals (n : Nat) (dummies : List Variable) :
    (boundLocals n dummies).length = dummies.length := by
  induction dummies generalizing n with
  | nil => rfl
  | cons bv dummies ih =>
    rw [boundLocals, List.length_cons, List.length_cons, ih]

theorem visitExprSeq_outside {es es' : List Expr}
    (h : forall e, e ∈ es -> forall e' v w, v.Outside ->
      visitExpr existentialFunctions false e v = .ok (e', w) -> exists added, Adds v added w ∧
        Strips existentialFunctions ⟨v.boundVarCounter, e, e', added⟩) (hv : v.Outside)
    (hvisit : visitExprSeq existentialFunctions es v = .ok (es', w)) :
    exists visits : List (Visit Variable),
      Adds v (visits.flatMap Visit.added) w ∧ visits.map Visit.before = es ∧
      visits.map Visit.after = es' ∧ Consecutive v.boundVarCounter visits ∧
      forall u, u ∈ visits -> Strips existentialFunctions u := by
  induction es generalizing es' v with
  | nil =>
    rw [visitExprSeq] at hvisit
    cases hvisit
    exists []
    exact ⟨Adds.refl hv, rfl, rfl, trivial, by simp⟩
  | cons e es ih =>
    rw [visitExprSeq] at hvisit
    split at hvisit
    · rename_i e' u hfirst
      split at hvisit
      · rename_i es' w' hrest
        cases hvisit
        rcases h e List.mem_cons_self e' v u hv hfirst with
          ⟨added, hadds, hstrips⟩
        rcases ih (fun a ha => h a (List.mem_cons_of_mem e ha)) hadds.outside
            hrest with
          ⟨visits, hadds', rfl, rfl, hconsecutive, hall⟩
        exists ⟨v.boundVarCounter, e, e', added⟩ :: visits
        refine ⟨hadds.trans hadds', rfl, rfl, ?_, ?_⟩
        · rw [hadds.boundVarCounter] at hconsecutive
          exact ⟨rfl, hconsecutive⟩
        · exact List.forall_mem_cons.mpr ⟨hstrips, hall⟩
      · cases hvisit
    · cases hvisit

theorem visitExpr_forall {dummies : List Variable} {body : Expr} (hv : v.Outside)
    (hvisit : visitExpr existentialFunctions false
      (.quantifier .all dummies body) v = .ok (e', w)) :
    exists added, Adds v added w ∧ Strips existentialFunctions
      ⟨v.boundVarCounter, .quantifier .all dummies body, e', added⟩ := by
  have henter := enter_eq_all.mpr ⟨hv.insideQuantifier, rfl⟩
  rw [visitExpr, if_pos ⟨rfl, henter⟩] at hvisit
  split at hvisit
  · rename_i body' u hsearch
    rcases visitExpr_inside (v := v.search) false (by simp [Visitor.search])
        hsearch with
      ⟨-, rfl, -⟩
    split at hvisit
    · rename_i hfound
      split at hvisit
      · rename_i hnodup
        split at hvisit
        · rename_i body' u hbody
          cases hvisit
          rcases visitExpr_inside (v := (v.search.noteCall _).bind dummies)
              true (by simp [Visitor.search, Visitor.bind, Visitor.noteCall])
              hbody with
            ⟨rfl, rfl, -⟩
          exists boundLocals v.boundVarCounter dummies
          constructor
          · constructor
            · exact ⟨hv.insideQuantifier, rfl, rfl⟩
            · rfl
            · rw [length_boundLocals]
              rfl
          · apply Strips.strip
            · simpa [Visitor.search, Visitor.noteCall] using hfound
            · exact hnodup
        · cases hvisit
      · cases hvisit
    · split at hvisit
      · rename_i body' u hbody
        cases hvisit
        rcases visitExpr_inside (v := v.search.noteCall _) false
            (by simp [Visitor.search, Visitor.noteCall]) hbody with
          ⟨rfl, rfl, -⟩
        exists []
        constructor
        · constructor
          · exact ⟨hv.insideQuantifier, rfl, hv.subst⟩
          · exact (List.append_nil _).symm
          · rfl
        · rw [apply_substitution_of_none]
          · exact Strips.keep
          · exact hv.subst
      · cases hvisit
  · cases hvisit

theorem visitExpr_exists {dummies : List Variable} {body : Expr} (hv : v.Outside)
    (hvisit : visitExpr existentialFunctions false (.quantifier .ex dummies body) v = .ok (e', w)) :
    exists added, Adds v added w ∧ Strips existentialFunctions
      ⟨v.boundVarCounter, .quantifier .ex dummies body, e', added⟩ := by
  rw [visitExpr, if_neg (by simp [enter_eq_all])] at hvisit
  split at hvisit
  · rename_i body' u hbody
    cases hvisit
    rcases visitExpr_inside (v := v.enter false .ex) false
        (by simp [Visitor.enter, InsideQuantifier.enter, hv.insideQuantifier])
        hbody with
      ⟨rfl, rfl, -⟩
    exists []
    constructor
    · constructor
      · exact ⟨hv.insideQuantifier, hv.search, hv.subst⟩
      · exact (List.append_nil _).symm
      · rfl
    · rw [apply_substitution_of_none]
      · exact Strips.keep
      · exact hv.subst
  · cases hvisit

theorem visitExpr_outside (hv : v.Outside)
    (hvisit : visitExpr existentialFunctions false e v = .ok (e', w)) :
    exists added, Adds v added w ∧
      Strips existentialFunctions ⟨v.boundVarCounter, e, e', added⟩ := by
  induction e generalizing e' v w with
  | literal l =>
    rw [visitExpr] at hvisit
    cases hvisit
    exact ⟨[], Adds.refl hv, Strips.literal⟩
  | ident x =>
    rw [visitExpr] at hvisit
    cases hvisit
    rw [← Substituter.apply_ident, apply_substitution_of_none hv.subst]
    exact ⟨[], Adds.refl hv, Strips.ident⟩
  | old e ih =>
    rw [visitExpr] at hvisit
    split at hvisit
    · rename_i e' u hbody
      cases hvisit
      rcases ih hv hbody with ⟨added, hadds, hstrips⟩
      exact ⟨added, hadds, Strips.old hstrips⟩
    · cases hvisit
  | nary f args ih =>
    rw [visitExpr] at hvisit
    split at hvisit
    · cases hvisit
    · rw [Visitor.noteCall_of_outside hv] at hvisit
      split at hvisit
      · rename_i args' u hargs
        cases hvisit
        rcases visitExprSeq_outside (fun a ha e' v w => ih a ha) hv hargs with
          ⟨visits, hadds, rfl, rfl, hconsecutive, hall⟩
        exact ⟨_, hadds, Strips.nary hconsecutive hall⟩
      · cases hvisit
  | quantifier q dummies body ih =>
    cases q with
    | all => exact visitExpr_forall hv hvisit
    | ex => exact visitExpr_exists hv hvisit

end Visits

/-!
# The local variables
-/

theorem boundLocal_injective {bv bv' : Variable} {m n : Nat}
    (hbv : bv.isBound = true) (hbv' : bv'.isBound = true)
    (h : boundLocal bv m = boundLocal bv' n) : bv = bv' ∧ m = n := by
  injection h with h
  injection h with hname htype
  rcases Text.append_toString_inj (a := bv.name) (b := bv'.name)
      (c := 'd') (by simp) rfl hname with ⟨hname, hnumber⟩
  cases bv with
  | boundVariable i =>
    cases bv' with
    | boundVariable i' =>
      cases i
      cases i'
      cases hname
      cases htype
      exact ⟨rfl, hnumber⟩
    | _ => cases hbv'
  | _ => cases hbv

def IsLocal (n : Nat) (x : Variable) : Prop :=
  exists bv, bv.isBound = true ∧ x = boundLocal bv n

theorem IsLocal.number {m n : Nat} {x : Variable} (h : IsLocal m x) (h' : IsLocal n x) : m = n := by
  rcases h with ⟨bv, hbv, rfl⟩
  rcases h' with ⟨bv', hbv', h'⟩
  exact (boundLocal_injective hbv hbv' h').2

theorem boundLocals_numbered {n : Nat} {dummies : List Variable}
    (h : forall x, x ∈ dummies -> x.isBound = true) :
    NumberedFrom IsLocal n (boundLocals n dummies) := by
  induction dummies generalizing n with
  | nil => trivial
  | cons bv dummies ih =>
    exact ⟨⟨bv, h bv List.mem_cons_self, rfl⟩,
      ih (fun x hx => h x (List.mem_cons_of_mem bv hx))⟩

theorem mem_boundLocals {n : Nat} {dummies : List Variable} {x : Variable}
    (h : x ∈ boundLocals n dummies) :
    exists bv m, bv ∈ dummies ∧ x = boundLocal bv m := by
  induction dummies generalizing n with
  | nil => cases h
  | cons bv dummies ih =>
    rcases List.mem_cons.mp h with rfl | h
    · exact ⟨bv, n, List.mem_cons_self, rfl⟩
    · rcases ih h with ⟨bv', m, hbv', heq⟩
      exact ⟨bv', m, List.mem_cons_of_mem bv hbv', heq⟩

theorem lookup_eq_some {n : Nat} {dummies : List Variable} {name : String}
    (h : name ∈ dummies.map Variable.name) :
    exists bv m, (boundSubst n dummies).lookup name = some (boundLocal bv m) ∧
      bv ∈ dummies ∧ bv.name = name ∧ boundLocal bv m ∈ boundLocals n dummies := by
  induction dummies generalizing n with
  | nil => cases h
  | cons bv dummies ih =>
    unfold boundSubst
    rw [List.map_cons, boundLocals, List.zip_cons_cons, List.lookup_cons]
    cases hname : name == bv.name with
    | true =>
      exact ⟨bv, n, rfl, List.mem_cons_self, (eq_of_beq hname).symm,
        List.mem_cons_self⟩
    | false =>
      rw [List.map_cons, List.mem_cons] at h
      rcases ih (n := n + 1) (h.resolve_left (ne_of_beq_false hname)) with
        ⟨bv', m, hlookup, hmem, hname', hlocal⟩
      exact ⟨bv', m, hlookup, List.mem_cons_of_mem bv hmem, hname',
        List.mem_cons_of_mem _ hlocal⟩

theorem lookup_eq_none {n : Nat} {dummies : List Variable} {name : String}
    (h : name ∉ dummies.map Variable.name) :
    (boundSubst n dummies).lookup name = none := by
  induction dummies generalizing n with
  | nil => rfl
  | cons bv dummies ih =>
    rw [List.map_cons, List.mem_cons, not_or] at h
    unfold boundSubst
    rw [List.map_cons, boundLocals, List.zip_cons_cons, List.lookup_cons,
      beq_false_of_ne h.1]
    exact ih h.2

/-!
# Coincidences of names
-/

/--
An identifier has the name of a dummy but is another variable, or an inner
quantifier binds it.
-/
inductive Confuses (dummies : List Variable) :
    List Variable -> Expr -> Prop where
  | ident {scope : List Variable} {x : Variable} :
      x.name ∈ dummies.map Variable.name -> x ∈ scope ∨ x ∉ dummies ->
      Confuses dummies scope (.ident x)
  | old {scope : List Variable} {e : Expr} :
      Confuses dummies scope e -> Confuses dummies scope (.old e)
  | nary {scope : List Variable} {f : Fun} {args : List Expr} {a : Expr} :
      a ∈ args -> Confuses dummies scope a ->
      Confuses dummies scope (.nary f args)
  | quantifier {scope : List Variable} {q : Quantifier}
      {inner : List Variable} {body : Expr} :
      Confuses dummies (scope ++ inner) body ->
      Confuses dummies scope (.quantifier q inner body)

/-- The names are confused in the body of a quantifier that is stripped. -/
inductive Captures (existentialFunctions : List String) : Expr -> Prop where
  | old {e : Expr} :
      Captures existentialFunctions e -> Captures existentialFunctions (.old e)
  | nary {f : Fun} {args : List Expr} {a : Expr} :
      a ∈ args -> Captures existentialFunctions a ->
      Captures existentialFunctions (.nary f args)
  | strip {dummies : List Variable} {body : Expr} :
      body.callsOf existentialFunctions ≠ [] -> Confuses dummies [] body ->
      Captures existentialFunctions (.quantifier .all dummies body)

def NewFrom (n : Nat) (x : Variable) : Prop :=
  exists m, n ≤ m ∧ IsLocal m x

/-- No identifier of the expression is one of the local variables to come. -/
def FreshFrom (n : Nat) (e : Expr) : Prop :=
  forall x, NewFrom n x -> ¬ e.Mentions x

/-!
# Values
-/

section Values

variable {U : Type} [DecidableEq U] {I : Interp U} {ρ₀ ρ σ σ' : Env U}
  {first n : Nat} {dummies scope : List Variable} {e : Expr}

/--
The states before and after a substitution, within the scope of inner
quantifiers.  Variables that are new from `first` on do not count.
-/
structure Agree (first n : Nat) (dummies scope : List Variable)
    (σ σ' : Env U) : Prop where
  inScope : forall x, x ∈ scope -> σ x = σ' x
  dummy : forall x y, x ∈ dummies -> x ∉ scope ->
    (boundSubst n dummies).lookup x.name = some y -> σ x = σ' y
  other : forall x, x ∉ dummies -> ¬ NewFrom first x -> σ x = σ' x

omit [DecidableEq U] in
theorem Agree.oldEnv (hdummies : forall x, x ∈ dummies -> x.isBound = true)
    (h : Agree first n dummies scope σ σ') :
    Agree first n dummies scope (oldEnv ρ₀ σ) (oldEnv ρ₀ σ') := by
  constructor
  · intro x hx
    unfold Boogie.oldEnv
    rw [h.inScope x hx]
  · intro x y hx hscope hlookup
    rcases lookup_eq_some (n := n) (List.mem_map_of_mem hx) with
      ⟨bv, m, hlocal, _⟩
    rw [hlocal] at hlookup
    cases hlookup
    have hglobal : x.isGlobal = false := by
      have hbound := hdummies x hx
      cases x <;> first | rfl | cases hbound
    unfold Boogie.oldEnv
    rw [hglobal]
    exact h.dummy x _ hx hscope hlocal
  · intro x hx hlocal
    unfold Boogie.oldEnv
    rw [h.other x hx hlocal]

theorem eval_byName (hdummies : forall x, x ∈ dummies -> x.isBound = true)
    (hconfuses : ¬ Confuses dummies scope e) (hbinds : e.BindsDummies)
    (hfresh : FreshFrom first e) (h : Agree first n dummies scope σ σ') :
    (Substituter.apply (byName n dummies) e).eval I ρ₀ σ' = e.eval I ρ₀ σ := by
  induction e generalizing scope σ σ' with
  | literal l => simp
  | ident x =>
    rw [Substituter.apply_ident]
    by_cases hname : x.name ∈ dummies.map Variable.name
    · rcases lookup_eq_some (n := n) hname with ⟨bv, m, hlookup, _⟩
      have hx : x ∉ scope ∧ x ∈ dummies := by
        by_contra hnot
        rw [not_and_or, not_not] at hnot
        exact hconfuses (Confuses.ident hname hnot)
      unfold byName
      rw [hlookup, Option.map_some, Option.getD_some, Expr.eval_ident,
        Expr.eval_ident]
      exact (h.dummy x _ hx.2 hx.1 hlookup).symm
    · unfold byName
      rw [lookup_eq_none hname, Option.map_none, Option.getD_none,
        Expr.eval_ident, Expr.eval_ident]
      symm
      apply h.other x (fun hx => hname (List.mem_map_of_mem hx))
      exact fun hnew => hfresh x hnew Expr.Mentions.ident
  | old e ih =>
    cases hbinds with
    | old hbinds =>
    rw [Substituter.apply_old, Expr.eval_old, Expr.eval_old]
    apply ih (fun hc => hconfuses (Confuses.old hc)) hbinds
    · exact fun x hx hmentions => hfresh x hx (Expr.Mentions.old hmentions)
    · exact h.oldEnv hdummies
  | nary f args ih =>
    cases hbinds with
    | nary hbinds =>
    rw [Substituter.apply_nary, Expr.eval_nary, Expr.eval_nary, List.map_map]
    congr 1
    apply List.map_congr_left
    intro a ha
    apply ih a ha (fun hc => hconfuses (Confuses.nary ha hc)) (hbinds a ha)
    · exact fun x hx hmentions =>
        hfresh x hx (Expr.Mentions.nary ha hmentions)
    · exact h
  | quantifier q inner body ih =>
    cases hbinds with
    | quantifier hinner hbinds =>
    rw [Substituter.apply_quantifier]
    symm
    apply Expr.eval_quantifier_eq
      (P := fun x => x ∈ scope ∨ (x ∉ dummies ∧ ¬ NewFrom first x)) rfl
    · rintro x (hx | ⟨hx, hlocal⟩)
      · exact h.inScope x hx
      · exact h.other x hx hlocal
    · intro ρ ρ' hρ hρ' hagree
      symm
      apply ih (fun hc => hconfuses (Confuses.quantifier hc)) hbinds
      · exact fun x hx hmentions =>
          hfresh x hx (Expr.Mentions.quantifier hmentions)
      · constructor
        · intro x hx
          rcases List.mem_append.mp hx with hx | hx
          · exact hagree x (Or.inl (Or.inl hx))
          · exact hagree x (Or.inr hx)
        · intro x y hx hscope hlookup
          rw [List.mem_append, not_or] at hscope
          rcases lookup_eq_some (n := n) (List.mem_map_of_mem hx) with
            ⟨bv, m, hlocal, _⟩
          rw [hlocal] at hlookup
          cases hlookup
          have hy : boundLocal bv m ∉ inner := by
            intro hy
            cases hinner _ hy
          rw [hρ.1 x hscope.2, hρ'.1 _ hy]
          exact h.dummy x _ hx hscope.1 hlocal
        · exact fun x hx hlocal => hagree x (Or.inl (Or.inr ⟨hx, hlocal⟩))

/--
The bodies of the outermost quantifiers are Boolean, which the type checker
demands of all bodies.
-/
inductive BooleanBodies (I : Interp U) (ρ₀ : Env U) : Expr -> Prop where
  | literal {l : Literal} : BooleanBodies I ρ₀ (.literal l)
  | ident {x : Variable} : BooleanBodies I ρ₀ (.ident x)
  | old {e : Expr} : BooleanBodies I ρ₀ e -> BooleanBodies I ρ₀ (.old e)
  | nary {f : Fun} {args : List Expr} :
      (forall a, a ∈ args -> BooleanBodies I ρ₀ a) ->
      BooleanBodies I ρ₀ (.nary f args)
  | quantifier {q : Quantifier} {dummies : List Variable} {body : Expr} :
      (forall ρ : Env U, ρ.Typed I -> exists b, body.eval I ρ₀ ρ = .bool b) ->
      BooleanBodies I ρ₀ (.quantifier q dummies body)

omit [DecidableEq U] in
theorem typed_oldEnv (h₀ : ρ₀.Typed I) (h : ρ.Typed I) :
    (oldEnv ρ₀ ρ).Typed I := by
  intro x
  unfold Boogie.oldEnv
  split
  · exact h₀ x
  · exact h x

omit [DecidableEq U] in
theorem typed_rebinds (h : ρ.Typed I) (hσ : σ.Rebinds I ρ dummies) :
    σ.Typed I := by
  intro x
  by_cases hx : x ∈ dummies
  · exact hσ.2 x hx
  · rw [hσ.1 x hx]
    exact h x

theorem exists_deciding (dummies : List Variable) {body : Expr} (hρ : ρ.Typed I)
    (hbody : forall σ : Env U, σ.Typed I -> exists b, body.eval I ρ₀ σ = .bool b) :
    exists σ : Env U, σ.Rebinds I ρ dummies ∧
      body.eval I ρ₀ σ = (Expr.quantifier .all dummies body).eval I ρ₀ ρ := by
  have hvalue : forall σ : Env U, σ.Typed I ->
      body.eval I ρ₀ σ = .bool (body.eval I ρ₀ σ).truth := by
    intro σ hσ
    rcases hbody σ hσ with ⟨b, hb⟩
    rw [hb, Value.truth_bool]
  rw [Expr.eval_quantifier]
  by_cases hall : ((Expr.quantifier .all dummies body).eval I ρ₀ ρ).truth = true
  · have hsame : ρ.Rebinds I ρ dummies := ⟨fun _ _ => rfl, fun x _ => hρ x⟩
    have htrue : (body.eval I ρ₀ ρ).truth = true :=
      (Expr.eval_all I ρ₀ ρ dummies body).mp hall ρ hsame
    exact ⟨ρ, hsame, by rw [hvalue ρ hρ, htrue, hall]⟩
  · have hfails := mt (Expr.eval_all I ρ₀ ρ dummies body).mpr hall
    push Not at hfails
    rcases hfails with ⟨σ, hσ, hfalse⟩
    have hfalse : (body.eval I ρ₀ σ).truth = false :=
      Bool.eq_false_iff.mpr hfalse
    rw [Bool.eq_false_iff.mpr hall]
    exact ⟨σ, hσ, by rw [hvalue σ (typed_rebinds hρ hσ), hfalse]⟩

omit [DecidableEq U] in
theorem exists_locals (σ : Env U) : exists θ : Env U, forall bv m,
    bv.isBound = true -> θ (boundLocal bv m) = σ bv := by
  classical
  exists fun x =>
    if h : exists bv m, bv.isBound = true ∧ x = boundLocal bv m then
      σ h.choose
    else σ x
  intro bv m hbv
  have h : exists bv' m', bv'.isBound = true ∧
      boundLocal bv m = boundLocal bv' m' := ⟨bv, m, hbv, rfl⟩
  dsimp only
  rw [dif_pos h]
  rcases h.choose_spec with ⟨m', hbound, heq⟩
  exact (congrArg σ (boundLocal_injective hbv hbound heq).1).symm

variable {existentialFunctions : List String} {v : Visit Variable}

theorem strips_numbered (h : Strips existentialFunctions v) (hbinds : v.before.BindsDummies) :
    NumberedFrom IsLocal v.counter v.added := by
  induction h with
  | literal => trivial
  | ident => trivial
  | old _ ih =>
    cases hbinds with
    | old hbinds => exact ih hbinds
  | nary hconsecutive _ ih =>
    cases hbinds with
    | nary hbinds =>
      exact hconsecutive.numbered
        (fun v hv => ih v hv (hbinds _ (List.mem_map_of_mem hv)))
  | keep => trivial
  | strip _ _ =>
    cases hbinds with
    | quantifier hdummies _ => exact boundLocals_numbered hdummies

/--
With these values of the local variables the returned expression has the value
of the original one.
-/
structure Decides (I : Interp U) (ρ₀ ρ : Env U) (n : Nat) (v : Visit Variable)
    (θ : Env U) : Prop where
  typed : forall x, x ∈ v.added -> I.HasType (θ x) x.type
  eval : forall σ : Env U,
    (forall x, ¬ NewFrom n x -> σ x = ρ x) ->
    (forall x, x ∈ v.added -> σ x = θ x) ->
    v.after.eval I ρ₀ σ = v.before.eval I ρ₀ ρ

theorem Decides.congr {θ θ' : Env U} (hsame : forall x, x ∈ v.added -> θ x = θ' x)
    (h : Decides I ρ₀ ρ n v θ) : Decides I ρ₀ ρ n v θ' := by
  constructor
  · intro x hx
    rw [← hsame x hx]
    exact h.typed x hx
  · intro σ hσ hadded
    exact h.eval σ hσ (fun x hx => (hadded x hx).trans (hsame x hx).symm)

theorem decides_self {m : Nat} (hfresh : FreshFrom n e) :
    Decides I ρ₀ ρ n ⟨m, e, e, []⟩ ρ := by
  constructor
  · intro x hx
    cases hx
  · intro σ hσ _
    apply Expr.eval_congr (fun _ _ => rfl)
    intro x hx
    exact hσ x (fun hnew => hfresh x hnew hx)

theorem exists_decides_strip {body : Expr} (hnodup : (dummies.map Variable.name).Nodup)
    (hdummies : forall x, x ∈ dummies -> x.isBound = true)
    (hconfuses : ¬ Confuses dummies [] body) (hbinds : body.BindsDummies)
    (hfresh : FreshFrom first body) (hρ : ρ.Typed I) (hbody : forall σ : Env U, σ.Typed I ->
      exists b, body.eval I ρ₀ σ = .bool b) :
    exists θ, Decides I ρ₀ ρ first ⟨n, .quantifier .all dummies body,
        Substituter.apply (byName n dummies) body, boundLocals n dummies⟩ θ := by
  rcases exists_deciding dummies hρ hbody with ⟨ρ', hρ', heval⟩
  rcases exists_locals ρ' with ⟨θ, hθ⟩
  exists θ
  constructor
  · intro x hx
    rcases mem_boundLocals hx with ⟨bv, k, hbv, rfl⟩
    rw [hθ bv k (hdummies bv hbv)]
    exact hρ'.2 bv hbv
  · intro σ hσ hadded
    show Expr.eval I ρ₀ (Substituter.apply _ body) σ = _
    rw [← heval]
    apply eval_byName hdummies hconfuses hbinds hfresh
    constructor
    · intro x hx
      cases hx
    · intro x y hx _ hlookup
      rcases lookup_eq_some (n := n) (List.mem_map_of_mem hx) with
        ⟨bv, k, hlocal, hbv, hname, hmem⟩
      have heq : bv = x := List.inj_on_of_nodup_map hnodup hbv hx hname
      rw [hlocal, heq] at hlookup
      cases hlookup
      rw [heq] at hmem
      rw [hadded _ hmem, hθ x k (hdummies x hx)]
    · intro x hx hnew
      rw [hρ'.1 x hx, hσ x hnew]

theorem exists_decides (h : Strips existentialFunctions v) (hbinds : v.before.BindsDummies)
    (hcaptures : ¬ Captures existentialFunctions v.before)
    (hfresh : FreshFrom first v.before) (hbodies : BooleanBodies I ρ₀ v.before)
    (h₀ : ρ₀.Typed I) (hρ : ρ.Typed I) :
    exists θ, Decides I ρ₀ ρ first v θ := by
  induction h generalizing ρ with
  | literal => exact ⟨ρ, decides_self hfresh⟩
  | ident => exact ⟨ρ, decides_self hfresh⟩
  | @old n e e' added hstrips ih =>
    cases hbinds with
    | old hbinds =>
    cases hbodies with
    | old hbodies =>
    rcases ih hbinds (fun hc => hcaptures (Captures.old hc))
        (fun x hx hmentions => hfresh x hx (Expr.Mentions.old hmentions))
        hbodies (typed_oldEnv h₀ hρ) with ⟨θ, htyped, heval⟩
    exists θ
    constructor
    · exact htyped
    · intro σ hσ hadded
      show (Expr.old e').eval I ρ₀ σ = (Expr.old e).eval I ρ₀ ρ
      rw [Expr.eval_old, Expr.eval_old]
      apply heval
      · intro x hx
        unfold oldEnv
        rw [hσ x hx]
      · intro x hx
        rcases (strips_numbered hstrips hbinds).exists_number hx with
          ⟨m, _, _, bv, _, rfl⟩
        exact hadded _ hx
  | @nary n f visits hconsecutive hstrips ih =>
    cases hbinds with
    | nary hbinds =>
    cases hbodies with
    | nary hbodies =>
    have hmem : forall v, v ∈ visits -> v.before ∈ visits.map Visit.before :=
      fun v hv => List.mem_map_of_mem hv
    have hvisits : forall v, v ∈ visits ->
        exists θ, Decides I ρ₀ ρ first v θ := by
      intro v hv
      apply ih v hv
      · exact hbinds _ (hmem v hv)
      · exact fun hc => hcaptures (Captures.nary (hmem v hv) hc)
      · exact fun x hx hmentions =>
          hfresh x hx (Expr.Mentions.nary (hmem v hv) hmentions)
      · exact hbodies _ (hmem v hv)
      · exact hρ
    have : Nonempty (Value U) := ⟨.bool true⟩
    rcases hconsecutive.exists_assignment (P := IsLocal) IsLocal.number
        Decides.congr
        (fun v hv => strips_numbered (hstrips v hv) (hbinds _ (hmem v hv)))
        hvisits with ⟨θ, hθ⟩
    exists θ
    constructor
    · intro x hx
      rcases List.mem_flatMap.mp hx with ⟨v, hv, hx⟩
      exact (hθ v hv).typed x hx
    · intro σ hσ hadded
      show (Expr.nary f _).eval I ρ₀ σ = (Expr.nary f _).eval I ρ₀ ρ
      rw [Expr.eval_nary, Expr.eval_nary, List.map_map, List.map_map]
      congr 1
      apply List.map_congr_left
      intro v hv
      exact (hθ v hv).eval σ hσ
        (fun x hx => hadded x (List.mem_flatMap.mpr ⟨v, hv, hx⟩))
  | keep => exact ⟨ρ, decides_self hfresh⟩
  | strip hcalls hnodup =>
    cases hbinds with
    | quantifier hdummies hbinds =>
    cases hbodies with
    | quantifier hbody =>
    exact exists_decides_strip hnodup hdummies
      (fun hc => hcaptures (Captures.strip hcalls hc)) hbinds
      (fun x hx hmentions =>
        hfresh x hx (Expr.Mentions.quantifier hmentions))
      hρ hbody

end Values

/-!
# The expression as a whole
-/

/--
In a state where the returned expression holds for all values of the new local
variables, the original expression holds.
-/
def StripsSoundly (existentialFunctions : List String) (boundVarCounter : Nat)
    (e : Expr) : Prop :=
  forall (e' : Expr) (locals : List Variable) (counter : Nat),
    run existentialFunctions boundVarCounter e = .ok (e', locals, counter) ->
      forall {U : Type} [DecidableEq U] (I : Interp U) (ρ₀ ρ : Env U),
        ρ₀.Typed I -> ρ.Typed I -> BooleanBodies I ρ₀ e ->
          (forall ρ' : Env U, ρ'.Rebinds I ρ locals -> e'.Holds I ρ₀ ρ') ->
            e.Holds I ρ₀ ρ

theorem strips_of_run {existentialFunctions : List String}
    {boundVarCounter counter : Nat} {e e' : Expr} {locals : List Variable}
    (hrun : run existentialFunctions boundVarCounter e = .ok (e', locals, counter)) :
    Strips existentialFunctions ⟨boundVarCounter, e, e', locals⟩ := by
  unfold run at hrun
  split at hrun
  · rename_i ret sq hvisit
    cases hrun
    rcases visitExpr_outside ⟨rfl, rfl, rfl⟩ hvisit with ⟨added, hadds, hstrips⟩
    have hlocals : sq.localsToAdd = added := by
      rw [hadds.localsToAdd, List.nil_append]
    rw [hlocals]
    exact hstrips
  · cases hrun

/--
Whatever stands around a quantifier that is stripped, the step is sound unless
identifiers of its body share the names of its dummies.
-/
theorem stripsSoundly_of_not_captures (existentialFunctions : List String)
    (boundVarCounter : Nat) (e : Expr) (hbinds : e.BindsDummies)
    (hfresh : FreshFrom boundVarCounter e) (hcaptures : ¬ Captures existentialFunctions e) :
    StripsSoundly existentialFunctions boundVarCounter e := by
  intro e' locals counter hrun U _ I ρ₀ ρ h₀ hρ hbodies hvalid
  classical
  have hstrips := strips_of_run hrun
  rcases exists_decides hstrips hbinds hcaptures hfresh hbodies h₀ hρ with
    ⟨θ, htyped, heval⟩
  have hnew : forall x, ¬ NewFrom boundVarCounter x -> x ∉ locals := by
    intro x hx hmem
    rcases (strips_numbered hstrips hbinds).exists_number hmem with
      ⟨m, hm, _, hlocal⟩
    exact hx ⟨m, hm, hlocal⟩
  have hholds := hvalid (fun x => if x ∈ locals then θ x else ρ x)
    ⟨fun x hx => if_neg hx, fun x hx => by
      dsimp only
      rw [if_pos hx]
      exact htyped x hx⟩
  rw [Expr.Holds, heval _ (fun x hx => if_neg (hnew x hx))
    (fun x hx => if_pos hx)] at hholds
  exact hholds

/-!
# Two variables of one name
-/

def boundX : Variable :=
  .boundVariable ⟨"x", .int⟩

def fooX : Expr :=
  .nary (.functionCall "foo") [.ident boundX]

/-- The assertion `forall x :: foo(x)`. -/
def forallFoo : Expr :=
  .quantifier .all [boundX] fooX

theorem stripsSoundly_forallFoo : StripsSoundly ["foo"] 0 forallFoo := by
  apply stripsSoundly_of_not_captures
  · apply Expr.BindsDummies.quantifier (by simp [boundX, Variable.isBound])
    apply Expr.BindsDummies.nary
    intro a ha
    rw [List.mem_singleton.mp ha]
    exact Expr.BindsDummies.ident
  · rintro x ⟨m, _, bv, _, rfl⟩ hmentions
    cases hmentions with
    | quantifier hmentions =>
      cases hmentions with
      | nary ha hmentions =>
        rw [List.mem_singleton.mp ha] at hmentions
        cases hmentions
  · intro hcaptures
    cases hcaptures with
    | strip _ hconfuses =>
      cases hconfuses with
      | nary ha hconfuses =>
        rw [List.mem_singleton.mp ha] at hconfuses
        cases hconfuses with
        | ident _ hother => simp at hother

def isZero (x : Variable) : Expr :=
  .eq (.ident x) (.intLiteral 0)

/-- The assertion `forall x :: x == 0 ==> foo(x) ==> (forall x :: x == 0)`. -/
def shadowed : Expr :=
  .quantifier .all [boundX]
    (.imp (isZero boundX)
      (.imp fooX (.quantifier .all [boundX] (isZero boundX))))

/-- The inner `x` is the local variable too; its quantifier binds nothing. -/
def shadowedStripped : Expr :=
  .imp (isZero (boundLocal boundX 0))
    (.imp (.nary (.functionCall "foo") [.ident (boundLocal boundX 0)])
      (.quantifier .all [boundX] (isZero (boundLocal boundX 0))))

theorem run_shadowed :
    run ["foo"] 0 shadowed = .ok (shadowedStripped, [boundLocal boundX 0], 1) := by
  rfl

theorem shadowedStripped_valid : shadowedStripped.Valid := by
  intro U _ I ρ₀ ρ _ _
  unfold shadowedStripped isZero
  rw [Expr.holds_imp, Expr.holds_imp]
  intro hzero _
  rw [Expr.Holds, Expr.eval_all]
  intro σ hσ
  rw [Expr.holds_eq, Expr.eval_ident] at hzero ⊢
  rw [hσ.1 _ (by simp [boundX, boundLocal]), hzero]
  rfl

def allTrue : Interp String where
  sort := id
  func := fun _ _ => .bool true
  select := fun _ => .bool true
  store := fun _ => .bool true

def zeros : Env String := fun x =>
  match x.type with
  | .bool => .bool false
  | .int => .int 0
  | .other name => .other name

theorem zeros_typed : zeros.Typed allTrue := by
  intro x
  unfold zeros
  cases x.type <;> simp [Interp.HasType, allTrue]

theorem shadowed_not_sound :
    (exists locals counter, run ["foo"] 0 shadowed = .ok (shadowedStripped, locals, counter)) ∧
    shadowedStripped.Valid ∧ ¬ shadowed.Valid := by
  refine ⟨⟨_, _, run_shadowed⟩, shadowedStripped_valid, ?_⟩
  intro hvalid
  have hholds := hvalid String allTrue zeros zeros zeros_typed zeros_typed
  unfold shadowed isZero at hholds
  rw [Expr.Holds, Expr.eval_all] at hholds
  have hzeros := hholds zeros ⟨fun _ _ => rfl, fun x _ => zeros_typed x⟩
  rw [Expr.holds_imp, Expr.holds_imp] at hzeros
  have hzero : (Expr.eq (.ident boundX) (.intLiteral 0)).Holds allTrue zeros
      zeros := by
    rw [Expr.holds_eq, Expr.eval_ident]
    rfl
  have hfoo : fooX.Holds allTrue zeros zeros := by
    rw [Expr.Holds, fooX, Expr.eval_nary]
    rfl
  have hinner := hzeros hzero hfoo
  rw [Expr.Holds, Expr.eval_all] at hinner
  have hone := hinner (Function.update zeros boundX (.int 1)) ⟨fun x hx =>
      Function.update_of_ne (fun heq => hx (List.mem_singleton.mpr heq)) _ _,
    fun x hx => by
      rw [List.mem_singleton.mp hx, Function.update_self]
      trivial⟩
  rw [Expr.holds_eq, Expr.eval_ident, Function.update_self] at hone
  cases hone

end StripQuantifiers

end Boogie
