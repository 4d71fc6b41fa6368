import Boogie.Foundation.Relaxation
import Boogie.Provers.ContextBalance
import Mathlib.Data.Finset.Filter

/-!
# Soft assumptions as maximal satisfiability

Every round weakens all soft assumptions by one more relaxation variable, so a
round is satisfiable when as many soft assumptions may be dropped as there are
variables.  This relies on the variables being new, which their names do not
guarantee.
-/

namespace Boogie

namespace SMTLib

/-!
# Models
-/

inductive SymbolSort where
  | int
  | other
deriving DecidableEq, Repr

abbrev Signature := String -> Option SymbolSort

/--
A model gives a value to every symbol, an integer or a value of some other sort.
It also says what clauses about counterexamples refer to.
-/
structure Model (U L : Type) where
  ints : String -> Int
  others : String -> U
  controlFlow : L -> L -> Prop
  labels : List L -> Prop

structure Model.Agree (sig : Signature) (m m' : Model U L) : Prop where
  ints : forall name, sig name = some .int -> m.ints name = m'.ints name
  others : forall name, sig name = some .other -> m.others name = m'.others name
  controlFlow : m.controlFlow = m'.controlFlow
  labels : m.labels = m'.labels

structure Formula (sig : Signature) (U L : Type) where
  holds : Model U L -> Prop
  respects : forall m m', m.Agree sig m' -> (holds m <-> holds m')

section Semantics

variable {sig : Signature} {U L : Type}

def WellSorted : Assertion (Formula sig U L) L -> Prop
  | .relaxed a relaxVar _ => WellSorted a ∧ sig relaxVar ≠ some .other
  | _ => True

def Assertion.holds (m : Model U L) : Assertion (Formula sig U L) L -> Prop
  | .formula vc => vc.holds m
  | .named vc _ => vc.holds m
  | .relaxed a relaxVar i => a.holds m ∨ m.ints relaxVar = i
  | .blockedPath source target => ¬ m.controlFlow source target
  | .blockedLabels labels => ¬ m.labels labels

/-- An assertion that is not well sorted is rejected. -/
def Model.Satisfies (m : Model U L) (stack : Stack (Formula sig U L) L) : Prop :=
  forall a, a ∈ stack.assertions -> WellSorted a -> a.holds m

def Assertion.Over (sig : Signature) : Assertion (Formula sig U L) L -> Prop
  | .relaxed a relaxVar _ => a.Over sig ∧ sig relaxVar ≠ none
  | _ => True

theorem Assertion.holds_congr {a : Assertion (Formula sig U L) L}
    {m m' : Model U L} (ha : a.Over sig) (hsorted : WellSorted a)
    (h : m.Agree sig m') : a.holds m <-> a.holds m' := by
  induction a with
  | formula vc => exact vc.respects m m' h
  | named vc name => exact vc.respects m m' h
  | relaxed a relaxVar i ih =>
    have hint : sig relaxVar = some .int := by
      cases hsort : sig relaxVar with
      | none => exact absurd hsort ha.2
      | some sort =>
        cases sort with
        | int => rfl
        | other => exact absurd hsort hsorted.2
    rw [Assertion.holds, Assertion.holds, ih ha.1 hsorted.1,
      h.ints relaxVar hint]
  | blockedPath source target =>
    rw [Assertion.holds, Assertion.holds, h.controlFlow]
  | blockedLabels labels => rw [Assertion.holds, Assertion.holds, h.labels]

def Stack.Over (sig : Signature) (stack : Stack (Formula sig U L) L) : Prop :=
  forall a, a ∈ stack.assertions -> a.Over sig

theorem Stack.Over.satisfies_congr {stack : Stack (Formula sig U L) L}
    {m m' : Model U L} (hstack : stack.Over sig) (h : m.Agree sig m') :
    m.Satisfies stack <-> m'.Satisfies stack := by
  constructor
  · intro hm a ha hsorted
    exact (Assertion.holds_congr (hstack a ha) hsorted h).mp (hm a ha hsorted)
  · intro hm a ha hsorted
    exact (Assertion.holds_congr (hstack a ha) hsorted h).mpr (hm a ha hsorted)

/-!
# Commands
-/

variable {stack : Stack (Formula sig U L) L} {m : Model U L}
  {s : ProverState (Formula sig U L) L}

theorem satisfies_add_declareFun {name : String} :
    m.Satisfies (stack.add (.declareFun name)) <-> m.Satisfies stack := by
  unfold Model.Satisfies
  simp [assertions_add]

theorem satisfies_add_assert {a : Assertion (Formula sig U L) L} :
    m.Satisfies (stack.add (.assert a)) <-> m.Satisfies stack ∧ (WellSorted a -> a.holds m) := by
  unfold Model.Satisfies
  constructor
  · intro h
    constructor
    · exact fun b hb => h b (assertions_add.mpr (Or.inr hb))
    · exact h a (assertions_add.mpr (Or.inl rfl))
  · rintro ⟨hstack, ha⟩ b hb hsorted
    rcases assertions_add.mp hb with heq | hold
    · cases heq
      exact ha hsorted
    · exact hstack b hold hsorted

theorem satisfies_push : m.Satisfies s.push.stack <-> m.Satisfies s.stack :=
  Iff.rfl

theorem satisfies_foldl_assert {as : List (Assertion (Formula sig U L) L)} :
    m.Satisfies (as.foldl (fun s a => s.send (.assert a)) s).stack <-> m.Satisfies s.stack ∧
        forall a, a ∈ as -> WellSorted a -> a.holds m := by
  induction as generalizing s with
  | nil => simp
  | cons a as ih =>
    rw [List.foldl_cons, ih, ProverState.send, satisfies_add_assert]
    simp [and_assoc]

end Semantics

/-!
# Rounds
-/

def relaxedBy (k : Nat) (vc : F) (i : Nat) : Assertion F L :=
  match k with
  | 0 => .formula vc
  | k + 1 => .relaxed (relaxedBy k vc i) (relaxVar k) i

def roundAssumptions (soft : List F) (k : Nat) : List (Assertion F L) :=
  soft.zipIdx.map (fun vc => relaxedBy k vc.1 vc.2)

theorem roundAssumptions_zero {soft : List F} :
    (roundAssumptions soft 0 : List (Assertion F L)) = soft.map .formula := by
  have hcomp : (fun vc : F × Nat => (relaxedBy 0 vc.1 vc.2 : Assertion F L)) =
      Assertion.formula ∘ Prod.fst := rfl
  rw [roundAssumptions, hcomp, ← List.map_map, List.zipIdx_map_fst]

theorem relaxAll_roundAssumptions {soft : List F} {k : Nat} :
    relaxAll (roundAssumptions soft k : List (Assertion F L)) k =
      roundAssumptions soft (k + 1) := by
  apply List.ext_getElem?
  intro i
  simp only [relaxAll, roundAssumptions, List.getElem?_map,
    List.getElem?_zipIdx, Option.map_map]
  cases soft[i]? with
  | none => rfl
  | some vc => simp [relaxedBy]

theorem mem_roundAssumptions {soft : List F} {k : Nat} {a : Assertion F L} :
    a ∈ roundAssumptions soft k <-> exists i vc, soft[i]? = some vc ∧ a = relaxedBy k vc i := by
  unfold roundAssumptions
  rw [List.mem_map]
  constructor
  · rintro ⟨⟨vc, i⟩, hmem, rfl⟩
    exact ⟨i, vc, List.mem_zipIdx_iff_getElem?.mp hmem, rfl⟩
  · rintro ⟨i, vc, hget, rfl⟩
    exact ⟨(vc, i), List.mem_zipIdx_iff_getElem?.mpr hget, rfl⟩

theorem relaxVar_injective {j k : Nat} (h : relaxVar j = relaxVar k) :
    j = k :=
  Text.append_toString_injective h

section Rounds

variable {sig : Signature} {U L : Type} {vc : Formula sig U L} {m : Model U L}
  {soft : List (Formula sig U L)} {k : Nat}

theorem holds_relaxedBy {i : Nat} :
    (relaxedBy k vc i : Assertion _ L).holds m <->
      vc.holds m ∨ exists j, j < k ∧ m.ints (relaxVar j) = i := by
  induction k with
  | zero =>
    rw [relaxedBy, Assertion.holds]
    simp
  | succ k ih =>
    rw [relaxedBy, Assertion.holds, ih, or_assoc]
    apply or_congr Iff.rfl
    constructor
    · rintro (⟨j, hj, hvalue⟩ | hvalue)
      · exact ⟨j, Nat.lt_succ_of_lt hj, hvalue⟩
      · exact ⟨k, Nat.lt_succ_self k, hvalue⟩
    · rintro ⟨j, hj, hvalue⟩
      rcases Nat.lt_succ_iff_lt_or_eq.mp hj with hlt | rfl
      · exact Or.inl ⟨j, hlt, hvalue⟩
      · exact Or.inr hvalue

theorem wellSorted_relaxedBy {i : Nat} :
    WellSorted (relaxedBy k vc i : Assertion _ L) <->
      forall j, j < k -> sig (relaxVar j) ≠ some .other := by
  induction k with
  | zero =>
    constructor
    · exact fun _ j hj => absurd hj (Nat.not_lt_zero j)
    · exact fun _ => trivial
  | succ k ih =>
    rw [relaxedBy, WellSorted, ih]
    constructor
    · rintro ⟨hbefore, hk⟩ j hj
      rcases Nat.lt_succ_iff_lt_or_eq.mp hj with hlt | rfl
      · exact hbefore j hlt
      · exact hk
    · intro h
      exact ⟨fun j hj => h j (Nat.lt_succ_of_lt hj),
        h k (Nat.lt_succ_self k)⟩

def SatisfiesRound (soft : List (Formula sig U L)) (k : Nat)
    (m : Model U L) : Prop :=
  forall a, a ∈ (roundAssumptions soft k : List (Assertion _ L)) ->
    WellSorted a -> a.holds m

theorem satisfiesRound_iff (hsorted : forall j, j < k -> sig (relaxVar j) ≠ some .other) :
    SatisfiesRound soft k m <-> forall i vc, soft[i]? = some vc ->
      vc.holds m ∨ exists j, j < k ∧ m.ints (relaxVar j) = (i : Nat) := by
  constructor
  · intro h i vc hvc
    exact holds_relaxedBy.mp (h _ (mem_roundAssumptions.mpr ⟨i, vc, hvc, rfl⟩)
      (wellSorted_relaxedBy.mpr hsorted))
  · intro h a ha _
    rcases mem_roundAssumptions.mp ha with ⟨i, vc, hvc, rfl⟩
    exact holds_relaxedBy.mpr (h i vc hvc)

end Rounds

/-!
# Searching for a round
-/

/--
The process knows whether there is a model, and the values of variables are
those of a model.
-/
structure Decides (sig : Signature) {U L : Type}
    (process : Process (Formula sig U L) L) : Prop where
  sat : forall n (stack : Stack (Formula sig U L) L),
    (exists m : Model U L, m.Satisfies stack) ->
      process.respond n stack = .sat ∧
        exists m : Model U L, m.Satisfies stack ∧
          forall name, process.getValue (n + 1) stack name =
            if sig name = some .other then none else some (m.ints name)
  unsat : forall n (stack : Stack (Formula sig U L) L),
    (¬ exists m : Model U L, m.Satisfies stack) ->
      process.respond n stack = .unsat

section Search

variable {sig : Signature} {U L : Type}
  {process : Process (Formula sig U L) L} {options : Options}
  {soft : List (Formula sig U L)} {base s : ProverState (Formula sig U L) L}

def SameModels (base s : ProverState (Formula sig U L) L) : Prop :=
  forall m : Model U L, m.Satisfies s.stack <-> m.Satisfies base.stack

def RoundSatisfiable (base : ProverState (Formula sig U L) L)
    (soft : List (Formula sig U L)) (k : Nat) : Prop :=
  exists m : Model U L, m.Satisfies base.stack ∧ SatisfiesRound soft k m

theorem satisfies_softRound {k : Nat} {m : Model U L} (h : SameModels base s) :
    m.Satisfies (softRound (roundAssumptions soft k) s).stack <->
      m.Satisfies base.stack ∧ SatisfiesRound soft k m := by
  rw [softRound, satisfies_foldl_assert, satisfies_push, h m, SatisfiesRound]

theorem checkOutcomeCore_single (hlimit : options.proverCCLimit = 1)
    {t : ProverState (Formula sig U L) L} {response : Response}
    (hresponse : process.respond t.queries t.stack = response)
    (hdecided : response = .sat ∨ response = .unsat) :
    exists t', checkOutcomeCore process options t = .ok (response.outcome, t') ∧
      t'.stack = t.stack ∧ t'.queries = t.queries + 1 := by
  have hleft : options.errorsLeft = 1 := by
    rw [Options.errorsLeft, hlimit]
    rfl
  have hget : getResponse process (t.setErrorHandler true) =
      .ok (response.outcome, (t.setErrorHandler true).answered) := by
    unfold getResponse
    have hsame : process.respond (t.setErrorHandler true).queries
        (t.setErrorHandler true).stack = response := hresponse
    rw [hsame]
    rcases hdecided with rfl | rfl
    · rfl
    · rfl
  unfold checkOutcomeCore
  rw [hleft, checkOutcomeLoop, hget]
  rcases hdecided with rfl | rfl
  · simp only [bind, Except.bind, pure, Except.pure, Response.outcome,
      hasLabels, Bool.or_true, decide_true, if_true, Bool.true_or]
    exact ⟨_, rfl, rfl, rfl⟩
  · simp only [bind, Except.bind, pure, Except.pure, Response.outcome,
      hasLabels]
    exact ⟨_, rfl, rfl, rfl⟩

def Values (process : Process (Formula sig U L) L)
    (s : ProverState (Formula sig U L) L) (m : Model U L) : Prop :=
  forall name, process.getValue s.queries s.stack name =
    if sig name = some .other then none else some (m.ints name)

theorem softLoop_satisfiable (hdecides : Decides sig process)
    (hlimit : options.proverCCLimit = 1) (hsame : SameModels base s)
    {fuel k : Nat} (h : RoundSatisfiable base soft k) :
    exists s', softLoop process options (fuel + 1) k (roundAssumptions soft k) s =
        .ok (.invalid, k, s') ∧ s'.queries = s.queries + 1 ∧
      exists m : Model U L, m.Satisfies base.stack ∧ SatisfiesRound soft k m ∧
        Values process s' m := by
  rcases h with ⟨m, hm, hround⟩
  have hmodel : exists m : Model U L,
      m.Satisfies (softRound (roundAssumptions soft k) s).stack :=
    ⟨m, (satisfies_softRound hsame).mpr ⟨hm, hround⟩⟩
  rcases hdecides.sat (softRound (roundAssumptions soft k) s).queries _ hmodel
    with ⟨hsat, m', hm', hvalues⟩
  rcases checkOutcomeCore_single hlimit hsat (Or.inl rfl) with
    ⟨s', hcore, hstack, hqueries⟩
  have hm'' := (satisfies_softRound hsame).mp hm'
  have hvalues' : Values process s' m' := by
    unfold Values
    rw [hstack, hqueries]
    exact hvalues
  rw [queries_softRound] at hqueries
  exact ⟨s', by rw [softLoop_succ, hcore]; rfl, hqueries, m', hm''.1, hm''.2,
    hvalues'⟩

theorem softLoop_unsatisfiable (hdecides : Decides sig process)
    (hlimit : options.proverCCLimit = 1) (hsame : SameModels base s)
    (fuel : Nat) {k : Nat} (h : ¬ RoundSatisfiable base soft k) :
    exists s₁, softLoop process options (fuel + 1) k (roundAssumptions soft k) s =
          softLoop process options fuel (k + 1) (roundAssumptions soft (k + 1)) s₁ ∧
      s₁.queries = s.queries + 1 ∧ SameModels base s₁ := by
  have hmodel : ¬ exists m : Model U L,
      m.Satisfies (softRound (roundAssumptions soft k) s).stack := by
    rintro ⟨m, hm⟩
    exact h ⟨m, (satisfies_softRound hsame).mp hm⟩
  have hunsat := hdecides.unsat
    (softRound (roundAssumptions soft k) s).queries _ hmodel
  rcases checkOutcomeCore_single hlimit hunsat (Or.inr rfl) with
    ⟨t, hcore, hstack, hqueries⟩
  rw [queries_softRound] at hqueries
  have hpop : t.pop.stack = s.stack := by
    show t.stack.tail = s.stack
    rw [hstack]
    exact above_softRound.tail
  have hnext : SameModels base (t.pop.send (.declareFun (relaxVar k))) := by
    intro m
    rw [ProverState.send, satisfies_add_declareFun, hpop]
    exact hsame m
  exact ⟨t.pop.send (.declareFun (relaxVar k)), by
    rw [softLoop_succ, hcore]
    show softLoop process options fuel (k + 1) (relaxAll _ k) _ = _
    rw [relaxAll_roundAssumptions], hqueries, hnext⟩

theorem softLoop_finds (hdecides : Decides sig process)
    (hlimit : options.proverCCLimit = 1) (hsame : SameModels base s)
    {d k : Nat} (hbefore : forall j, j < d -> ¬ RoundSatisfiable base soft (k + j))
    (h : RoundSatisfiable base soft (k + d)) :
    exists s', softLoop process options (d + 1) k (roundAssumptions soft k) s =
        .ok (.invalid, k + d, s') ∧ s'.queries = s.queries + d + 1 ∧
      exists m : Model U L, m.Satisfies base.stack ∧
        SatisfiesRound soft (k + d) m ∧ Values process s' m := by
  induction d generalizing k s with
  | zero => exact softLoop_satisfiable hdecides hlimit hsame h
  | succ d ih =>
    rcases softLoop_unsatisfiable hdecides hlimit hsame (d + 1)
      (hbefore 0 (Nat.succ_pos d)) with ⟨s₁, hloop, hqueries, hsame₁⟩
    have hshift : forall j, k + 1 + j = k + (j + 1) := by
      intro j
      omega
    rcases ih hsame₁ (k := k + 1)
      (by
        intro j hj
        rw [hshift]
        exact hbefore (j + 1) (by omega))
      (by
        rw [hshift]
        exact h) with ⟨s', hresult, hqueries', hm⟩
    rw [hshift] at hresult hm
    exact ⟨s', hloop.trans hresult, by rw [hqueries', hqueries]; omega, hm⟩

theorem softLoop_sound (hdecides : Decides sig process)
    (hlimit : options.proverCCLimit = 1) (hsame : SameModels base s)
    {fuel k : Nat}
    {r : ProverInterface.Outcome × Nat × ProverState (Formula sig U L) L}
    (hr : softLoop process options fuel k (roundAssumptions soft k) s = .ok r) :
    r.1 = .invalid ∧ exists m : Model U L, m.Satisfies base.stack ∧
      SatisfiesRound soft r.2.1 m ∧ Values process r.2.2 m := by
  induction fuel generalizing k s with
  | zero => cases hr
  | succ fuel ih =>
    by_cases h : RoundSatisfiable base soft k
    · rcases softLoop_satisfiable hdecides hlimit hsame h with
        ⟨s', hloop, _, hm⟩
      rw [hloop] at hr
      cases hr
      exact ⟨rfl, hm⟩
    · rcases softLoop_unsatisfiable hdecides hlimit hsame _ h with
        ⟨s₁, hloop, _, hsame₁⟩
      rw [hloop] at hr
      exact ih hsame₁ hr

end Search

/-!
# Values of the relaxation variables
-/

section RelaxValues

variable {value : String -> Option Int}

theorem relaxValues_eq {ks : List Nat} {number : Nat -> Nat} (h : forall k, k ∈ ks ->
      (value (relaxVar k)).bind tryParse = some (number k)) :
    relaxValues value ks = ks.map number := by
  induction ks with
  | nil => rfl
  | cons k ks ih =>
    rw [relaxValues, h k List.mem_cons_self,
      ih (fun j hj => h j (List.mem_cons_of_mem _ hj)), List.map_cons]

theorem length_relaxValues_le {k n : Nat} (h : (value (relaxVar k)).bind tryParse = none) :
    (relaxValues value (List.range n)).length ≤ k := by
  have hfrom : forall (n i : Nat), i ≤ k ->
      (relaxValues value (List.range' i n)).length ≤ k - i := by
    intro n
    induction n with
    | zero => exact fun _ _ => Nat.zero_le _
    | succ n ih =>
      intro i hi
      rw [List.range'_succ, relaxValues]
      split
      · rename_i v hv
        have hne : i ≠ k := by
          rintro rfl
          rw [h] at hv
          cases hv
        have hrest := ih (i + 1) (by omega)
        rw [List.length_cons]
        omega
      · exact Nat.zero_le _
  rw [List.range_eq_range']
  exact hfrom n 0 (Nat.zero_le k)

end RelaxValues

/-!
# The result
-/

section Result

variable {sig : Signature} {U L : Type}
  {process : Process (Formula sig U L) L} {options : Options}
  {hard soft : List (Formula sig U L)}
  {s : ProverState (Formula sig U L) L}

/-- The soft assumptions that are not dropped hold with the hard ones. -/
def JointlySatisfiable (hard soft : List (Formula sig U L))
    (s : ProverState (Formula sig U L) L) (dropped : Finset Nat) : Prop :=
  exists m : Model U L, m.Satisfies (hardRound hard s).stack ∧
    forall i vc, soft[i]? = some vc -> i ∉ dropped -> vc.holds m

def HardSatisfiable (hard : List (Formula sig U L))
    (s : ProverState (Formula sig U L) L) : Prop :=
  exists m : Model U L, m.Satisfies (hardRound hard s).stack

/--
The call returns after a query for the hard assumptions and at most one query
for each soft assumption and one more, with a smallest set of soft assumptions
to drop.
-/
def SolvesMaxSat (process : Process (Formula sig U L) L) (options : Options)
    (hard soft : List (Formula sig U L))
    (s : ProverState (Formula sig U L) L) : Prop :=
  exists fuel unsatisfied s',
    checkSoftAssumptions process options fuel hard soft s =
      .ok (.invalid, unsatisfied, s') ∧
    s'.queries ≤ s.queries + 1 + (soft.length + 1) ∧
    unsatisfied.Nodup ∧ (forall i, i ∈ unsatisfied -> i < soft.length) ∧
    JointlySatisfiable hard soft s unsatisfied.toFinset ∧
    forall dropped, JointlySatisfiable hard soft s dropped ->
      unsatisfied.length ≤ dropped.card

/-- A list has at most as many elements as the largest `int`. -/
def maxCount : Nat :=
  2147483647

/-- The first `n` relaxation variables are not the names of declared symbols. -/
def Fresh (sig : Signature) (n : Nat) : Prop :=
  forall k, k < n -> sig (relaxVar k) = none

/-- At least `n` soft assumptions have to be dropped. -/
structure LeastDropped (hard soft : List (Formula sig U L))
    (s : ProverState (Formula sig U L) L) (n : Nat) : Prop where
  attained : exists dropped : Finset Nat, dropped.card = n ∧
    JointlySatisfiable hard soft s dropped
  least : forall dropped, JointlySatisfiable hard soft s dropped -> n ≤ dropped.card

theorem over_foldl_assert
    {vcs : List (Formula sig U L)} {t : ProverState (Formula sig U L) L} (ht : t.stack.Over sig) :
    (vcs.foldl (fun s a => s.send (.assert (.formula a))) t).stack.Over sig := by
  induction vcs generalizing t with
  | nil => exact ht
  | cons vc vcs ih =>
    apply ih
    intro a ha
    rcases assertions_add.mp ha with heq | hold
    · cases heq
      trivial
    · exact ht a hold

theorem over_hardRound (h : s.stack.Over sig) :
    (hardRound hard s).stack.Over sig := by
  have hpush : s.push.stack.Over sig := h
  exact over_foldl_assert
    (over_foldl_assert hpush)

open Classical in
noncomputable def Model.setRelaxVars (m : Model U L) (is : List Nat) :
    Model U L :=
  { m with
    ints := fun name =>
      if h : exists j, j < is.length ∧ name = relaxVar j then
        ((is.getD h.choose 0 : Nat) : Int)
      else m.ints name }

theorem Model.agree_setRelaxVars {n : Nat} (hfresh : Fresh sig n) (m : Model U L)
    {is : List Nat} (hcount : is.length ≤ n) :
    m.Agree sig (m.setRelaxVars is) where
  ints := by
    intro name hname
    have hnot : ¬ exists j, j < is.length ∧ name = relaxVar j := by
      rintro ⟨j, hj, rfl⟩
      rw [hfresh j (lt_of_lt_of_le hj hcount)] at hname
      cases hname
    rw [Model.setRelaxVars]
    simp only [dif_neg hnot]
  others := fun _ _ => rfl
  controlFlow := rfl
  labels := rfl

theorem Model.ints_setRelaxVars {m : Model U L} {is : List Nat} {j i : Nat} (h : is[j]? = some i) :
    (m.setRelaxVars is).ints (relaxVar j) = (i : Int) := by
  have hexists : exists j', j' < is.length ∧ relaxVar j = relaxVar j' :=
    ⟨j, (List.getElem?_eq_some_iff.mp h).1, rfl⟩
  have hsame : hexists.choose = j :=
    (relaxVar_injective hexists.choose_spec.2).symm
  rw [Model.setRelaxVars]
  simp only [dif_pos hexists]
  rw [hsame, List.getD_eq_getElem?_getD, h]
  rfl

open Classical in
noncomputable def violatedBy (soft : List (Formula sig U L)) (m : Model U L) :
    Finset Nat :=
  (Finset.range soft.length).filter
    (fun i => exists vc, soft[i]? = some vc ∧ ¬ vc.holds m)

open Classical in
theorem mem_violatedBy {m : Model U L} {i : Nat} :
    i ∈ violatedBy soft m <-> exists vc, soft[i]? = some vc ∧ ¬ vc.holds m := by
  rw [violatedBy, Finset.mem_filter, Finset.mem_range]
  constructor
  · exact fun h => h.2
  · rintro ⟨vc, hvc, hnot⟩
    exact ⟨(List.getElem?_eq_some_iff.mp hvc).1, vc, hvc, hnot⟩

open Classical in
theorem card_violatedBy_le {m : Model U L} :
    (violatedBy soft m).card ≤ soft.length := by
  have h : (violatedBy soft m).card ≤ (Finset.range soft.length).card :=
    Finset.card_filter_le _ _
  rwa [Finset.card_range] at h

noncomputable def relaxation (hard soft : List (Formula sig U L))
    (s : ProverState (Formula sig U L) L) (n : Nat) (hfresh : Fresh sig n)
    (hover : s.stack.Over sig) :
    Relaxation { m : Model U L // m.Satisfies (hardRound hard s).stack } where
  violated := fun m => violatedBy soft m.1
  value := fun m j => m.1.ints (relaxVar j)
  room := n
  free := by
    intro m hroom
    have hlength : (violatedBy soft m.1).toList.length ≤ n := by
      rw [Finset.length_toList]
      exact hroom
    have hagree := m.1.agree_setRelaxVars hfresh hlength
    have hholds := fun vc : Formula sig U L => vc.respects m.1 _ hagree
    have hm := ((over_hardRound hover).satisfies_congr hagree).mp m.2
    have hviolated : violatedBy soft
        (m.1.setRelaxVars (violatedBy soft m.1).toList) =
          violatedBy soft m.1 := by
      ext i
      simp only [mem_violatedBy, ← hholds]
    exact ⟨⟨_, hm⟩, hviolated, fun _ _ hi => Model.ints_setRelaxVars hi⟩

section Search

variable {n : Nat} {hfresh : Fresh sig n} {hover : s.stack.Over sig}
  {m : { m : Model U L // m.Satisfies (hardRound hard s).stack }} {k : Nat}

theorem Fresh.sorted (h : Fresh sig n) {j : Nat} (hj : j < n) :
    sig (relaxVar j) ≠ some .other := by
  rw [h j hj]
  exact fun heq => nomatch heq

theorem covers_iff (hk : k ≤ n) :
    (relaxation hard soft s n hfresh hover).Covers k m <-> SatisfiesRound soft k m.1 := by
  rw [satisfiesRound_iff (fun j hj => hfresh.sorted (lt_of_lt_of_le hj hk))]
  constructor
  · intro h i vc hvc
    by_cases hholds : vc.holds m.1
    · exact Or.inl hholds
    · exact Or.inr (h i (mem_violatedBy.mpr ⟨vc, hvc, hholds⟩))
  · intro h i hi
    rcases mem_violatedBy.mp hi with ⟨vc, hvc, hnot⟩
    rcases h i vc hvc with hholds | hvalue
    · exact absurd hholds hnot
    · exact hvalue

end Search

theorem jointlySatisfiable_iff {dropped : Finset Nat} :
    JointlySatisfiable hard soft s dropped <->
      exists m : Model U L, m.Satisfies (hardRound hard s).stack ∧ violatedBy soft m ⊆ dropped := by
  constructor
  · rintro ⟨m, hm, hholds⟩
    refine ⟨m, hm, ?_⟩
    intro i hi
    rcases mem_violatedBy.mp hi with ⟨vc, hvc, hnot⟩
    by_contra hmem
    exact hnot (hholds i vc hvc hmem)
  · rintro ⟨m, hm, hsubset⟩
    refine ⟨m, hm, ?_⟩
    intro i vc hvc hmem
    by_contra hnot
    exact hmem (hsubset (mem_violatedBy.mpr ⟨vc, hvc, hnot⟩))

theorem LeastDropped.le_card {n : Nat} (h : LeastDropped hard soft s n) {m : Model U L}
    (hm : m.Satisfies (hardRound hard s).stack) : n ≤ (violatedBy soft m).card :=
  h.least _ (jointlySatisfiable_iff.mpr ⟨m, hm, Finset.Subset.refl _⟩)

theorem LeastDropped.exists_card_eq {n : Nat} (h : LeastDropped hard soft s n) :
    exists m : Model U L, m.Satisfies (hardRound hard s).stack ∧ (violatedBy soft m).card = n := by
  rcases h.attained with ⟨dropped, hcard, hjointly⟩
  rcases jointlySatisfiable_iff.mp hjointly with ⟨m, hm, hsubset⟩
  have hle := Finset.card_le_card hsubset
  rw [hcard] at hle
  exact ⟨m, hm, Nat.le_antisymm hle (h.le_card hm)⟩

theorem exists_leastDropped (hsat : HardSatisfiable hard s) :
    exists n, n ≤ soft.length ∧ LeastDropped hard soft s n := by
  classical
  have hexists : exists n, exists dropped : Finset Nat, dropped.card = n ∧
      JointlySatisfiable hard soft s dropped := by
    rcases hsat with ⟨m, hm⟩
    exact ⟨_, violatedBy soft m, rfl, jointlySatisfiable_iff.mpr
      ⟨m, hm, Finset.Subset.refl _⟩⟩
  have hleast : LeastDropped hard soft s (Nat.find hexists) := by
    constructor
    · exact Nat.find_spec hexists
    · intro dropped hdropped
      exact Nat.find_min' hexists ⟨dropped, rfl, hdropped⟩
  rcases hleast.exists_card_eq with ⟨m, _, hcard⟩
  exact ⟨_, hcard ▸ card_violatedBy_le, hleast⟩

theorem solvesMaxSat_of_fresh {k : Nat} (hfresh : Fresh sig k)
    (hover : s.stack.Over sig) (hdecides : Decides sig process)
    (hlimit : options.proverCCLimit = 1) (hcount : soft.length ≤ maxCount)
    (hleast : LeastDropped hard soft s k) :
    SolvesMaxSat process options hard soft s := by
  classical
  let base := (hardRound hard s).answered
  let R := relaxation hard soft s k hfresh hover
  rcases hleast.exists_card_eq with ⟨m₀, hm₀, hcard⟩
  have hle : k ≤ soft.length := by
    rw [← hcard]
    exact card_violatedBy_le
  -- earlier rounds have no model, since a model violates as many assumptions as it has values
  have hbefore : forall j, j < k -> ¬ RoundSatisfiable base soft j := by
    rintro j hj ⟨m, hm, hround⟩
    have hcovers : R.Covers j ⟨m, hm⟩ := (covers_iff hj.le).mpr hround
    exact absurd ((hleast.le_card hm).trans hcovers.card_violated_le) (not_le.mpr hj)
  have hk : RoundSatisfiable base soft k := by
    rcases R.exists_covers ⟨m₀, hm₀⟩ hcard.le with ⟨m, _, hcovers⟩
    have hcovers' : R.Covers k m := hcard ▸ hcovers
    exact ⟨m.1, m.2, (covers_iff (Nat.le_refl k)).mp hcovers'⟩
  have hsame : SameModels base base := fun _ => Iff.rfl
  rcases softLoop_finds (k := 0) hdecides hlimit hsame
    (fun j hj => by rw [Nat.zero_add]; exact hbefore j hj)
    (by rw [Nat.zero_add]; exact hk) with
    ⟨s', hloop, hqueries, m, hm, hround', hvalues⟩
  rw [Nat.zero_add] at hloop hround'
  have hfirst : R.First k ⟨m, hm⟩ := by
    constructor
    · exact Nat.le_refl k
    · exact (covers_iff (Nat.le_refl k)).mpr hround'
    · intro j m' hcovers
      by_contra hlt
      have hj := not_le.mp hlt
      exact hbefore j hj ⟨m'.1, m'.2, (covers_iff hj.le).mp hcovers⟩
  -- every variable names a violated assumption, by its index
  let number := fun j => (m.ints (relaxVar j)).toNat
  have hnumber : forall j, j < k -> number j ∈ violatedBy soft m ∧
      m.ints (relaxVar j) = (number j : Int) := by
    intro j hj
    rcases hfirst.names_violated hj with ⟨i, hi, hvalue⟩
    have hi' : number j = i := by
      show (m.ints (relaxVar j)).toNat = i
      have hvalue' : m.ints (relaxVar j) = (i : Int) := hvalue
      rw [hvalue', Int.toNat_natCast]
    rw [hi']
    exact ⟨hi, hvalue⟩
  have hlt : forall {i : Nat}, i ∈ violatedBy soft m -> i < soft.length := by
    intro i hi
    rcases mem_violatedBy.mp hi with ⟨vc, hvc, _⟩
    exact (List.getElem?_eq_some_iff.mp hvc).1
  have hread : relaxValues (process.getValue s'.queries s'.stack)
      (List.range k) = (List.range k).map number := by
    apply relaxValues_eq
    intro j hj
    have hj' := hnumber j (List.mem_range.mp hj)
    have hsmall : number j < maxCount := lt_of_lt_of_le (hlt hj'.1) hcount
    have hsorted := hfresh.sorted (List.mem_range.mp hj)
    rw [hvalues, if_neg hsorted, Option.bind_some, tryParse,
      if_pos (by unfold maxCount at hsmall; omega)]
  have hresult : checkSoftAssumptions process options (k + 1) hard soft s =
      .ok (.invalid, (List.range k).map number, s'.pop.pop) := by
    have hresponse : getResponse process (hardRound hard s) =
        .ok (.invalid, base) := by
      unfold getResponse
      rw [(hdecides.sat _ _ ⟨m₀, hm₀⟩).1]
    rw [checkSoftAssumptions_eq, hresponse]
    show (softLoop _ _ _ _ _ _).bind _ = _
    rw [← roundAssumptions_zero, hloop]
    show Except.ok (_, relaxValues _ _, _) = _
    rw [hread]
  have hbase : base.queries = s.queries + 1 := by
    rcases hardRound_eq (s := s) hard with ⟨stack, hstack⟩
    show (hardRound hard s).queries + 1 = _
    rw [hstack]
  refine ⟨k + 1, _, _, hresult, ?_, ?_, ?_, ?_, ?_⟩
  · show s'.queries ≤ _
    rw [hqueries, hbase]
    omega
  · apply List.Nodup.map_on _ List.nodup_range
    intro j hj j' hj' heq
    have hj := List.mem_range.mp hj
    have hj' := List.mem_range.mp hj'
    apply hfirst.injective hj hj'
    show m.ints (relaxVar j) = m.ints (relaxVar j')
    rw [(hnumber j hj).2, (hnumber j' hj').2, heq]
  · intro i hi
    rcases List.mem_map.mp hi with ⟨j, hj, rfl⟩
    exact hlt (hnumber j (List.mem_range.mp hj)).1
  · rw [jointlySatisfiable_iff]
    refine ⟨m, hm, ?_⟩
    intro i hi
    rcases hfirst.covers i hi with ⟨j, hj, hvalue⟩
    have hi' : number j = i := by
      show (m.ints (relaxVar j)).toNat = i
      have hvalue' : m.ints (relaxVar j) = (i : Int) := hvalue
      rw [hvalue', Int.toNat_natCast]
    rw [List.mem_toFinset, List.mem_map]
    exact ⟨j, List.mem_range.mpr hj, hi'⟩
  · intro dropped hdropped
    rw [List.length_map, List.length_range]
    exact hleast.least dropped hdropped

end Result

/-!
# Symbols with the names of relaxation variables
-/

section Clash

variable {sig : Signature} {U L : Type}

theorem exists_decides (sig : Signature) (U L : Type) :
    exists process : Process (Formula sig U L) L, Decides sig process := by
  classical
  let Sat := fun stack : Stack (Formula sig U L) L =>
    exists m : Model U L, m.Satisfies stack
  let process : Process (Formula sig U L) L :=
    { respond := fun _ stack => if Sat stack then .sat else .unsat
      labels := fun _ _ => []
      getValue := fun _ stack name =>
        if h : Sat stack then
          if sig name = some .other then none else some (h.choose.ints name)
        else none
      unsatCore := fun _ _ => []
      unsatCore_named := fun _ _ _ h => by cases h }
  have hdecides : Decides sig process := by
    constructor
    · intro n stack h
      have hvalue : forall name, process.getValue (n + 1) stack name =
          if sig name = some .other then none
          else some (h.choose.ints name) := fun _ => dif_pos h
      exact ⟨if_pos h, h.choose, h.choose_spec, hvalue⟩
    · intro n stack h
      exact if_neg h
  exact ⟨process, hdecides⟩

def falseFormula (sig : Signature) (U L : Type) : Formula sig U L where
  holds := fun _ => False
  respects := fun _ _ _ => Iff.rfl

def isNegative (name : String) (h : sig name = some .int) (U L : Type) :
    Formula sig U L where
  holds := fun m => m.ints name = -1
  respects := by
    intro m m' hagree
    rw [hagree.ints name h]

def notAnIndex (sig : Signature) (k : Nat) (U L : Type) :
    List (Formula sig U L) :=
  if h : sig (relaxVar k) = some .int then [isNegative (relaxVar k) h U L]
  else []

variable {process : Process (Formula sig U L) L} {options : Options} {k n : Nat}

theorem notAnIndex_satisfiable [Inhabited U] :
    HardSatisfiable (notAnIndex sig k U L) initialState := by
  let m : Model U L := ⟨fun _ => -1, fun _ => default, fun _ _ => True,
    fun _ => True⟩
  refine ⟨m, ?_⟩
  have hempty : m.Satisfies
      (initialState (F := Formula sig U L)).push.assertAxioms.stack := by
    intro a ha
    cases ha
  unfold notAnIndex
  by_cases h : sig (relaxVar k) = some .int
  · rw [dif_pos h, hardRound, List.foldl_cons, List.foldl_nil,
      ProverState.send, satisfies_add_assert]
    exact ⟨hempty, fun _ => rfl⟩
  · rw [dif_neg h]
    exact hempty

theorem notAnIndex_leastDropped [Inhabited U] :
    LeastDropped (notAnIndex sig k U L) (List.replicate n (falseFormula sig U L))
      initialState n := by
  constructor
  · rcases @notAnIndex_satisfiable sig U L k _ with ⟨m, hm⟩
    refine ⟨Finset.range n, Finset.card_range n, m, hm, ?_⟩
    intro i vc hvc hmem
    have hi := (List.getElem?_eq_some_iff.mp hvc).1
    rw [List.length_replicate] at hi
    exact absurd (Finset.mem_range.mpr hi) hmem
  · rintro dropped ⟨m, _, hholds⟩
    have hsubset : Finset.range n ⊆ dropped := by
      intro i hi
      by_contra hmem
      exact hholds i (falseFormula sig U L) (by
        rw [List.getElem?_replicate, if_pos (Finset.mem_range.mp hi)]) hmem
    have hcard := Finset.card_le_card hsubset
    rwa [Finset.card_range] at hcard

theorem not_solvesMaxSat (hdecides : Decides sig process)
    (hlimit : options.proverCCLimit = 1) (hdeclared : sig (relaxVar k) ≠ none) (hk : k < n)
    (hsat : HardSatisfiable (notAnIndex sig k U L) initialState) :
    ¬ SolvesMaxSat process options (notAnIndex sig k U L)
      (List.replicate n (falseFormula sig U L)) initialState := by
  classical
  rintro ⟨fuel, unsatisfied, s', hresult, _, hnodup, hindex, hjointly, _⟩
  let base : ProverState (Formula sig U L) L :=
    (hardRound (notAnIndex sig k U L) initialState).answered
  have hresponse : getResponse process
      (hardRound (notAnIndex sig k U L) initialState) =
        .ok (.invalid, base) := by
    unfold getResponse
    rw [(hdecides.sat _ _ hsat).1]
  rw [checkSoftAssumptions_eq, hresponse, ← roundAssumptions_zero] at hresult
  change (softLoop process options fuel 0 (roundAssumptions _ 0) base).bind _ =
    _ at hresult
  cases hloop : softLoop process options fuel 0
      (roundAssumptions (List.replicate n (falseFormula sig U L)) 0)
        base with
  | error e =>
    rw [hloop] at hresult
    cases hresult
  | ok r =>
    have hsame : SameModels base base := fun _ => Iff.rfl
    rcases softLoop_sound hdecides hlimit hsame hloop with ⟨hinvalid, m, hm, _, hvalues⟩
    rw [hloop] at hresult
    simp only [Except.bind, hinvalid, if_true, Except.ok.injEq,
      Prod.mk.injEq] at hresult
    have hread : (process.getValue r.2.2.queries r.2.2.stack
        (relaxVar k)).bind tryParse = none := by
      rw [hvalues]
      by_cases hint : sig (relaxVar k) = some .int
      · have hnegative : m.ints (relaxVar k) = -1 := by
          have hassert : Assertion.formula
              (isNegative (relaxVar k) hint U L) ∈
                base.stack.assertions := by
            show _ ∈ (hardRound (notAnIndex sig k U L)
              initialState).stack.assertions
            rw [notAnIndex, dif_pos hint, hardRound, List.foldl_cons,
              List.foldl_nil, ProverState.send, assertions_add]
            exact Or.inl rfl
          exact hm _ hassert trivial
        rw [hint, if_neg (fun heq => by cases heq), hnegative]
        rfl
      · have hother : sig (relaxVar k) = some .other := by
          cases hsort : sig (relaxVar k) with
          | none => exact absurd hsort hdeclared
          | some sort =>
            cases sort with
            | int => exact absurd hsort hint
            | other => rfl
        rw [if_pos hother]
        rfl
    have hlength : unsatisfied.length ≤ k := by
      rw [← hresult.2.1]
      exact length_relaxValues_le hread
    have hcovered : Finset.range n ⊆ unsatisfied.toFinset := by
      intro i hi
      rcases hjointly with ⟨m', _, hholds⟩
      by_contra hmem
      have hi' := Finset.mem_range.mp hi
      exact hholds i (falseFormula sig U L) (by
        rw [List.getElem?_replicate, if_pos hi']) hmem
    have hcard := Finset.card_le_card hcovered
    rw [Finset.card_range, List.toFinset_card_of_nodup hnodup] at hcard
    omega

/--
In every call with assumptions over the declared symbols in which `n` is the least
number of soft assumptions to drop, such a set is found, with one error for each query.
-/
def AlwaysMaxSat (sig : Signature) (U L : Type) (n : Nat) : Prop :=
  forall (process : Process (Formula sig U L) L) (options : Options)
    (hard soft : List (Formula sig U L))
    (s : ProverState (Formula sig U L) L),
    Decides sig process -> options.proverCCLimit = 1 -> s.stack.Over sig ->
      soft.length ≤ maxCount -> LeastDropped hard soft s n ->
        SolvesMaxSat process options hard soft s

/--
A call with satisfiable hard assumptions finds a smallest set to drop when its size
`n` is such that none of `relax_0` to `relax_(n - 1)` is declared; and for no other `n`
this is so whatever is assumed.
-/
theorem alwaysMaxSat_iff [Inhabited U] :
    (forall (process : Process (Formula sig U L) L) (options : Options)
      (hard soft : List (Formula sig U L)) (s : ProverState (Formula sig U L) L),
      Decides sig process -> options.proverCCLimit = 1 -> s.stack.Over sig ->
        soft.length ≤ maxCount -> HardSatisfiable hard s ->
          exists n, n ≤ soft.length ∧ LeastDropped hard soft s n ∧
            (Fresh sig n -> SolvesMaxSat process options hard soft s)) ∧
      forall n, AlwaysMaxSat sig U L n <-> (n ≤ maxCount -> Fresh sig n) := by
  constructor
  · intro process options hard soft s hdecides hlimit hover hcount hsat
    have hexists : exists n, n ≤ soft.length ∧ LeastDropped hard soft s n :=
      exists_leastDropped hsat
    rcases hexists with ⟨n, hn, hleast⟩
    exact ⟨n, hn, hleast,
      fun hfresh => solvesMaxSat_of_fresh hfresh hover hdecides hlimit hcount hleast⟩
  · intro n
    constructor
    · intro h hn k hk
      by_contra hdeclared
      rcases exists_decides sig U L with ⟨process, hdecides⟩
      have hsolves := h process ⟨false, 1⟩ (notAnIndex sig k U L)
        (List.replicate n (falseFormula sig U L)) initialState hdecides rfl
        (fun _ ha => nomatch ha) (by rw [List.length_replicate]; exact hn)
        notAnIndex_leastDropped
      exact not_solvesMaxSat hdecides rfl hdeclared hk notAnIndex_satisfiable hsolves
    · intro hfresh process options hard soft s hdecides hlimit hover hcount hleast
      rcases hleast.exists_card_eq with ⟨m, _, hcard⟩
      have hn : n ≤ maxCount := by
        rw [← hcard]
        exact card_violatedBy_le.trans hcount
      exact solvesMaxSat_of_fresh (hfresh hn) hover hdecides hlimit hcount hleast

end Clash

def relaxConstant : Signature := fun name =>
  if name = relaxVar 0 then some .int else none

theorem relaxConstant_int : relaxConstant (relaxVar 0) = some .int :=
  if_pos rfl

def relaxIsNegative : Formula relaxConstant Unit Unit :=
  isNegative (relaxVar 0) relaxConstant_int Unit Unit

/-- The soft assumption `false` is not returned. -/
theorem solvesMaxSat_relaxConstant :
    exists process : Process (Formula relaxConstant Unit Unit) Unit, Decides relaxConstant process ∧
      HardSatisfiable [relaxIsNegative] (initialState (L := Unit)) ∧
      ¬ SolvesMaxSat process ⟨false, 1⟩ [relaxIsNegative]
        [falseFormula relaxConstant Unit Unit] initialState := by
  have hhard : notAnIndex relaxConstant 0 Unit Unit = [relaxIsNegative] :=
    dif_pos relaxConstant_int
  have hdeclared : relaxConstant (relaxVar 0) ≠ none := by
    rw [relaxConstant_int]
    exact fun h => nomatch h
  rcases exists_decides relaxConstant Unit Unit with ⟨process, hdecides⟩
  have hsat : HardSatisfiable (notAnIndex relaxConstant 0 Unit Unit)
      (initialState (L := Unit)) := notAnIndex_satisfiable
  have hnot : ¬ SolvesMaxSat process ⟨false, 1⟩
      (notAnIndex relaxConstant 0 Unit Unit)
      (List.replicate 1 (falseFormula relaxConstant Unit Unit)) initialState :=
    not_solvesMaxSat hdecides rfl hdeclared Nat.one_pos hsat
  rw [hhard] at hsat hnot
  exact ⟨process, hdecides, hsat, hnot⟩

end SMTLib

end Boogie
