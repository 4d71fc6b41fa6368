import Boogie.Houdini.PredicateAbsDisjunct
import Boogie.Houdini.PredicateEval

/-!
# Predicate abstraction of procedures

A summary says of every post-predicate of a procedure under which disjunction of
pre-predicates it holds.  Joining a state weakens the summary so that the state
satisfies it.
-/

namespace Boogie

namespace PredicateAbs

/-!
# Pairs of predicates
-/

structure UnsatPairs where
  unsatPrePredPairs : List PredPair
  unsatPostPredPairs : List PredPair
  cachePos : List (String × String)
  cacheNeg : List (String × String)

namespace UnsatPairs

def record (found : UnsatPairs) (isPre : Bool) (pair : PredPair) : UnsatPairs :=
  if isPre then
    { found with unsatPrePredPairs := found.unsatPrePredPairs ++ [pair] }
  else { found with unsatPostPredPairs := found.unsatPostPredPairs ++ [pair] }

end UnsatPairs

section FindUnsatPairs

-- `text` shows an expression and `checkIfUnsat` asks the prover
variable (text : Expr -> String) (checkIfUnsat : Expr -> Expr -> Bool)

def polarized (preds : List Expr) (i : Nat) : Option Expr :=
  preds[i / 2]?.map (fun e => if i % 2 = 0 then e.not else e)

def checkPair (isPre : Bool) (proc : String) (preds : List Expr) (i j : Nat)
    (found : UnsatPairs) : UnsatPairs :=
  match polarized preds i, polarized preds j with
  | some e1, some e2 =>
    let key := (text e1, text e2)
    let pair : PredPair :=
      ⟨proc, i / 2, j / 2, decide (i % 2 = 1), decide (j % 2 = 1)⟩
    if key ∈ found.cachePos then found.record isPre pair
    else if key ∈ found.cacheNeg then found
    else if !checkIfUnsat e1 e2 then
      { found with cacheNeg := found.cacheNeg ++ [key] }
    else
      { found with cachePos := found.cachePos ++ [key] }.record isPre pair
  | _, _ => found

def checkPairs (isPre : Bool) (found : UnsatPairs)
    (preds : String × List Expr) : UnsatPairs :=
  (List.range (2 * preds.2.length)).foldl (fun found i =>
    ((List.range (2 * preds.2.length)).filter
      (fun j => 2 * (i / 2 + 1) ≤ j)).foldl (fun found j =>
        checkPair text checkIfUnsat isPre preds.1 preds.2 i j found) found)
    found

def findUnsatPairs (prePreds postPreds : List (String × List Expr)) :
    UnsatPairs :=
  postPreds.foldl (checkPairs text checkIfUnsat false)
    (prePreds.foldl (checkPairs text checkIfUnsat true) ⟨[], [], [], []⟩)

end FindUnsatPairs

/-!
# Summaries
-/

structure Predicates where
  procName : String
  prePreds : List Expr
  postPreds : List Expr
  posPrePreds : List Nat

end PredicateAbs

/-- The array of the disjuncts is filled when the summary is not `false`. -/
structure PredicateAbs (preds : PredicateAbs.Predicates) where
  isFalse : Bool
  value : List PredicateAbs.Disjunct
  filled : isFalse = false -> value.length = preds.postPreds.length

namespace PredicateAbs

variable {preds : Predicates}

/-- The constructor, also `GetFlaseSummary`. -/
def new (preds : Predicates) : PredicateAbs preds where
  isFalse := true
  value := []
  filled := fun h => Bool.noConfusion h

section Join

variable (unsatPrePredPairs : List PredPair) (conjunctBound : Int)

def newDisj (preds : Predicates) (prePredsVal : List Bool)
    (postPredVal : Bool) : Disjunct :=
  if postPredVal then Disjunct.ofBool true
  else
    Disjunct.ofLiterals conjunctBound
      ((prePredsVal.zipIdx.filter (fun b => !b.1)).map Prod.snd)
      ((prePredsVal.zipIdx.filter
        (fun b => b.1 && b.2 ∉ preds.posPrePreds)).map Prod.snd)

def joinValue (procName : String) (value newDisj : Disjunct) : Disjunct :=
  if value.isFalse then value
  else value.and unsatPrePredPairs procName conjunctBound newDisj

def joinVals (e : PredicateAbs preds) (prePredsVal postPredsVal : List Bool) :
    List Disjunct :=
  let newDisjs := postPredsVal.map (newDisj conjunctBound preds prePredsVal)
  if e.isFalse then newDisjs
  else
    List.zipWith (joinValue unsatPrePredPairs conjunctBound preds.procName)
      e.value newDisjs

theorem length_joinVals {e : PredicateAbs preds}
    {prePredsVal postPredsVal : List Bool} (h : postPredsVal.length = preds.postPreds.length) :
    (e.joinVals unsatPrePredPairs conjunctBound prePredsVal
      postPredsVal).length = preds.postPreds.length := by
  unfold joinVals
  dsimp only
  split
  · rw [List.length_map, h]
  · rename_i hfalse
    rw [List.length_zipWith, List.length_map, h,
      e.filled (Bool.eq_false_iff.mpr hfalse), Nat.min_self]

def join (e : PredicateAbs preds) (state : State) :
    Option (PredicateAbs preds) :=
  match preds.prePreds.mapM (predVal state),
    hpost : preds.postPreds.mapM (predVal state) with
  | some prePredsVal, some postPredsVal =>
    some
      { isFalse := false
        value := e.joinVals unsatPrePredPairs conjunctBound prePredsVal
          postPredsVal
        filled := fun _ => length_joinVals unsatPrePredPairs conjunctBound
          (Traversal.length_of_mapM hpost) }
  | _, _ => none

def joinAll (e : PredicateAbs preds) (states : List State) :
    Option (PredicateAbs preds) :=
  states.foldlM (join unsatPrePredPairs conjunctBound) e

end Join

def mapOthers (f : Disjunct -> Disjunct) (findex : Nat)
    (e : PredicateAbs preds) : PredicateAbs preds where
  isFalse := e.isFalse
  value := e.value.mapIdx (fun i d => if i = findex then d else f d)
  filled := fun h => by rw [List.length_mapIdx, e.filled h]

/-- The entry of a summary that is `false` is null. -/
def simplify (e : PredicateAbs preds) : Option (PredicateAbs preds) :=
  match preds.postPreds.findIdx? (fun p => p = .falseExpr) with
  | none => some e
  | some findex =>
    match e.value[findex]? with
    | none => none
    | some d =>
      if d.isTrue then
        some (e.mapOthers (fun _ => Disjunct.ofBool false) findex)
      else if d.isFalse then some e
      else some (e.mapOthers (fun d' => d'.subtract d) findex)

/-!
# Recorded pairs are ordered
-/

section Recorded

variable {text : Expr -> String} {checkIfUnsat : Expr -> Expr -> Bool}
  {isPre : Bool} {proc : String} {preds : List Expr} {i j : Nat}
  {found : UnsatPairs}

theorem ordered_record {pair : PredPair} (hpair : pair.first < pair.second)
    (h : Ordered found.unsatPrePredPairs) :
    Ordered (found.record isPre pair).unsatPrePredPairs := by
  unfold UnsatPairs.record
  split
  · intro p hp
    rcases List.mem_append.mp hp with hp | hp
    · exact h p hp
    · rw [List.mem_singleton.mp hp]
      exact hpair
  · exact h

theorem ordered_checkPair (hij : 2 * (i / 2 + 1) ≤ j) (h : Ordered found.unsatPrePredPairs) :
    Ordered (checkPair text checkIfUnsat isPre proc preds i j found).unsatPrePredPairs := by
  have hlt : i / 2 < j / 2 := by omega
  unfold checkPair
  split
  · dsimp only
    split
    · exact ordered_record hlt h
    · split
      · exact h
      · split
        · exact h
        · exact ordered_record hlt h
  · exact h

theorem ordered_checkPairs {procPreds : String × List Expr} (h : Ordered found.unsatPrePredPairs) :
    Ordered (checkPairs text checkIfUnsat isPre found procPreds).unsatPrePredPairs := by
  unfold checkPairs
  apply List.foldlRecOn (motive := fun found : UnsatPairs =>
    Ordered found.unsatPrePredPairs)
  · exact h
  · intro found hfound i _
    apply List.foldlRecOn (motive := fun found : UnsatPairs =>
      Ordered found.unsatPrePredPairs)
    · exact hfound
    · intro found hfound j hj
      exact ordered_checkPair (of_decide_eq_true (List.mem_filter.mp hj).2)
        hfound

theorem ordered_findUnsatPairs (prePreds postPreds : List (String × List Expr)) :
    Ordered (findUnsatPairs text checkIfUnsat prePreds postPreds).unsatPrePredPairs := by
  unfold findUnsatPairs
  apply List.foldlRecOn (motive := fun found : UnsatPairs =>
    Ordered found.unsatPrePredPairs)
  · apply List.foldlRecOn (motive := fun found : UnsatPairs =>
      Ordered found.unsatPrePredPairs)
    · intro pair hpair
      cases hpair
    · exact fun _ hfound _ _ => ordered_checkPairs hfound
  · exact fun _ hfound _ _ => ordered_checkPairs hfound

end Recorded

/-!
# The meaning of summaries
-/

def TrueIn (state : State) (preds : List Expr) (i : Nat) : Prop :=
  exists p, preds[i]? = some p ∧ predVal state p = some true

def Holds (pre post : Valuation) (e : PredicateAbs preds) : Prop :=
  e.isFalse = false ∧
    forall (i : Nat) (d : Disjunct), e.value[i]? = some d -> d.Holds pre ->
      post i

def Satisfies (state : State) (e : PredicateAbs preds) : Prop :=
  e.Holds (TrueIn state preds.prePreds) (TrueIn state preds.postPreds)

structure Reading (unsatPrePredPairs : List PredPair)
    (preds : Predicates) where
  pre : Valuation
  post : Valuation
  facts : FactsHold unsatPrePredPairs preds.procName pre
  post_false : forall i, preds.postPreds[i]? = some .falseExpr -> ¬ post i

section Join

variable {unsatPrePredPairs : List PredPair} {conjunctBound : Int}
  {e e' : PredicateAbs preds} {state : State}
  {prePredsVal postPredsVal : List Bool}

theorem trueIn_iff {ps : List Expr} {vals : List Bool} {i : Nat}
    (h : ps.mapM (predVal state) = some vals) :
    TrueIn state ps i <-> vals[i]? = some true :=
  (Traversal.getElem?_of_mapM h).symm

theorem join_eq_some (h : e.join unsatPrePredPairs conjunctBound state = some e') :
    exists prePredsVal postPredsVal, preds.prePreds.mapM (predVal state) = some prePredsVal ∧
      preds.postPreds.mapM (predVal state) = some postPredsVal ∧ e'.isFalse = false ∧
      e'.value = e.joinVals unsatPrePredPairs conjunctBound prePredsVal postPredsVal := by
  unfold join at h
  split at h
  · rename_i prePredsVal postPredsVal hpre hpost
    cases h
    exact ⟨prePredsVal, postPredsVal, hpre, hpost, rfl, rfl⟩
  · cases h

theorem exists_join (e : PredicateAbs preds) (h : forall p, p ∈ preds.prePreds ++ preds.postPreds ->
      exists b, predVal state p = some b) :
    exists e', e.join unsatPrePredPairs conjunctBound state = some e' := by
  rw [List.forall_mem_append] at h
  rcases Traversal.exists_mapM h.1 with ⟨prePredsVal, hpre⟩
  rcases Traversal.exists_mapM h.2 with ⟨postPredsVal, hpost⟩
  unfold join
  split
  · exact ⟨_, rfl⟩
  · rename_i hnone
    exact absurd hpost (hnone prePredsVal postPredsVal hpre)

theorem holds_ofLiterals {pos neg : List Nat} {v : Valuation}
    (h : (Disjunct.ofLiterals conjunctBound pos neg).Holds v) :
    (exists p, p ∈ pos ∧ v p) ∨ exists p, p ∈ neg ∧ ¬ v p := by
  rcases h with h | ⟨c, hc, hholds⟩
  · cases h
  · rcases List.mem_append.mp hc with hc | hc
    · rcases List.mem_map.mp hc with ⟨p, hp, rfl⟩
      exact Or.inl ⟨p, hp, (Conjunct.holds_singleton hholds).mpr rfl⟩
    · rcases List.mem_map.mp hc with ⟨p, hp, rfl⟩
      refine Or.inr ⟨p, hp, fun hv => ?_⟩
      cases (Conjunct.holds_singleton hholds).mp hv

theorem not_holds_newDisj (hpre : preds.prePreds.mapM (predVal state) = some prePredsVal) :
    ¬ (newDisj conjunctBound preds prePredsVal false).Holds (TrueIn state preds.prePreds) := by
  intro h
  rcases holds_ofLiterals h with ⟨j, hj, hv⟩ | ⟨j, hj, hv⟩
  · rcases List.mem_map.mp hj with ⟨⟨b, j'⟩, hmem, rfl⟩
    rcases List.mem_filter.mp hmem with ⟨hmem, hb⟩
    have hget := List.mem_zipIdx_iff_getElem?.mp hmem
    rw [trueIn_iff hpre] at hv
    rw [hv] at hget
    cases hget
    cases hb
  · rcases List.mem_map.mp hj with ⟨⟨b, j'⟩, hmem, rfl⟩
    rcases List.mem_filter.mp hmem with ⟨hmem, hb⟩
    have hget := List.mem_zipIdx_iff_getElem?.mp hmem
    rw [Bool.and_eq_true] at hb
    apply hv
    rw [trueIn_iff hpre, ← hb.1]
    exact hget

theorem holds_joinValue {value new : Disjunct} {v : Valuation}
    {procName : String} (hordered : Ordered unsatPrePredPairs)
    (hfacts : FactsHold unsatPrePredPairs procName v)
    (h : (joinValue unsatPrePredPairs conjunctBound procName value new).Holds v) :
    value.Holds v ∧ new.Holds v := by
  unfold joinValue at h
  split at h
  · rename_i hfalse
    exact absurd h (Disjunct.not_holds_of_isFalse hfalse)
  · exact Disjunct.holds_of_and hordered hfacts h

theorem holds_joinVals {i : Nat} {d : Disjunct} {v : Valuation}
    (hordered : Ordered unsatPrePredPairs) (hfacts : FactsHold unsatPrePredPairs preds.procName v)
    (hd : (e.joinVals unsatPrePredPairs conjunctBound prePredsVal
      postPredsVal)[i]? = some d) (h : d.Holds v) :
    (exists b, postPredsVal[i]? = some b ∧ (newDisj conjunctBound preds prePredsVal b).Holds v) ∧
    (e.isFalse = false -> exists d', e.value[i]? = some d' ∧ d'.Holds v) := by
  unfold joinVals at hd
  dsimp only at hd
  split at hd
  · rename_i hfalse
    rw [List.getElem?_map, Option.map_eq_some_iff] at hd
    rcases hd with ⟨b, hb, rfl⟩
    constructor
    · exact ⟨b, hb, h⟩
    · intro hnot
      rw [hnot] at hfalse
      cases hfalse
  · rw [List.getElem?_zipWith_eq_some] at hd
    rcases hd with ⟨d', new, hd', hnew, rfl⟩
    rw [List.getElem?_map, Option.map_eq_some_iff] at hnew
    rcases hnew with ⟨b, hb, rfl⟩
    rcases holds_joinValue hordered hfacts h with ⟨hvalue, hnew⟩
    exact ⟨⟨b, hb, hnew⟩, fun _ => ⟨d', hd', hvalue⟩⟩

theorem satisfies_join (hordered : Ordered unsatPrePredPairs)
    (hfacts : FactsHold unsatPrePredPairs preds.procName (TrueIn state preds.prePreds))
    (h : e.join unsatPrePredPairs conjunctBound state = some e') :
    e'.Satisfies state := by
  rcases join_eq_some h with
    ⟨prePredsVal, postPredsVal, hpre, hpost, hfalse, hvalue⟩
  constructor
  · exact hfalse
  · intro i d hd hholds
    rw [hvalue] at hd
    rcases (holds_joinVals hordered hfacts hd hholds).1 with ⟨b, hb, hnew⟩
    cases b with
    | true => exact (trueIn_iff hpost).mpr hb
    | false => exact absurd hnew (not_holds_newDisj hpre)

theorem holds_join (hordered : Ordered unsatPrePredPairs)
    (h : e.join unsatPrePredPairs conjunctBound state = some e')
    (r : Reading unsatPrePredPairs preds) (he : e.Holds r.pre r.post) :
    e'.Holds r.pre r.post := by
  rcases join_eq_some h with ⟨prePredsVal, postPredsVal, _, _, hfalse, hvalue⟩
  constructor
  · exact hfalse
  · intro i d hd hholds
    rw [hvalue] at hd
    rcases (holds_joinVals hordered r.facts hd hholds).2 he.1 with
      ⟨d', hd', hholds'⟩
    exact he.2 i d' hd' hholds'

theorem holds_joinAll (hordered : Ordered unsatPrePredPairs)
    {states : List State} (h : e.joinAll unsatPrePredPairs conjunctBound states = some e')
    (r : Reading unsatPrePredPairs preds) (he : e.Holds r.pre r.post) :
    e'.Holds r.pre r.post :=
  Traversal.foldlM_keeps (P := fun e => e.Holds r.pre r.post)
    (fun _ _ _ _ he hjoin => holds_join hordered hjoin r he) he h

def readingOf (preds : Predicates) (state : State)
    (hfacts : FactsHold unsatPrePredPairs preds.procName
      (TrueIn state preds.prePreds)) : Reading unsatPrePredPairs preds where
  pre := TrueIn state preds.prePreds
  post := TrueIn state preds.postPreds
  facts := hfacts
  post_false := by
    rintro i hi ⟨p, hp, htrue⟩
    rw [hi] at hp
    cases hp
    cases htrue

theorem satisfies_joinAll (hordered : Ordered unsatPrePredPairs)
    {states : List State} (hfacts : forall state, state ∈ states ->
      FactsHold unsatPrePredPairs preds.procName (TrueIn state preds.prePreds))
    (h : e.joinAll unsatPrePredPairs conjunctBound states = some e')
    (hstate : state ∈ states) : e'.Satisfies state := by
  induction states generalizing e with
  | nil => cases hstate
  | cons first states ih =>
    have hrest := fun s hs => hfacts s (List.mem_cons_of_mem first hs)
    unfold joinAll at h
    rw [List.foldlM_cons] at h
    rcases Option.bind_eq_some_iff.mp h with ⟨e1, hjoin, hrun⟩
    rcases List.mem_cons.mp hstate with rfl | hstate
    · have hfirst := hfacts state List.mem_cons_self
      exact holds_joinAll hordered hrun (readingOf preds state hfirst)
        (satisfies_join hordered hfirst hjoin)
    · exact ih hrest hrun hstate

/-!
## The meaning of the predicates
-/

variable {U : Type} [DecidableEq U]

theorem Denotation.truth_eq (D : Denotation U state) {ps : List Expr} {vals : List Bool}
    (h : ps.mapM (predVal state) = some vals) : D.Truth ps = TrueIn state ps := by
  funext i
  apply propext
  constructor
  · rintro ⟨p, hp, hplain, hother⟩
    refine ⟨p, hp, ?_⟩
    rcases Traversal.exists_of_mapM h (List.mem_of_getElem? hp) with ⟨b, _, hb⟩
    by_cases hp' : Plain p
    · rw [hb, (D.holds_iff hp' hb).mp (hplain hp')]
    · exact hother hp'
  · rintro ⟨p, hp, htrue⟩
    exact ⟨p, hp, fun hplain => (D.holds_iff hplain htrue).mpr rfl, fun _ => htrue⟩

theorem Denotation.truth_iff_holds (D : Denotation U state) {ps : List Expr} {i : Nat}
    (hplain : forall p, p ∈ ps -> Plain p) :
    D.Truth ps i <-> (ps[i]?.getD .falseExpr).Holds D.interp D.entry D.env := by
  cases hp : ps[i]? with
  | none =>
    constructor
    · rintro ⟨p, hp', _⟩
      rw [hp] at hp'
      cases hp'
    · intro hfalse
      exact absurd hfalse Expr.not_holds_falseExpr
  | some p =>
    have hplain := hplain p (List.mem_of_getElem? hp)
    constructor
    · rintro ⟨q, hq, hholds, _⟩
      rw [hp] at hq
      cases hq
      exact hholds hplain
    · intro hholds
      exact ⟨p, hp, fun _ => hholds, fun hnot => absurd hplain hnot⟩

theorem holds_of_join (D : Denotation U state) (hordered : Ordered unsatPrePredPairs)
    (hfacts : FactsHold unsatPrePredPairs preds.procName (D.Truth preds.prePreds))
    (h : e.join unsatPrePredPairs conjunctBound state = some e') :
    e'.Holds (D.Truth preds.prePreds) (D.Truth preds.postPreds) := by
  rcases join_eq_some h with ⟨prePredsVal, postPredsVal, hpre, hpost, _, _⟩
  rw [D.truth_eq hpre] at hfacts ⊢
  rw [D.truth_eq hpost]
  exact satisfies_join hordered hfacts h

theorem join_of_joinAll {states : List State}
    (h : e.joinAll unsatPrePredPairs conjunctBound states = some e') (hstate : state ∈ states) :
    exists e1 e2 : PredicateAbs preds,
      e1.join unsatPrePredPairs conjunctBound state = some e2 := by
  induction states generalizing e with
  | nil => cases hstate
  | cons first states ih =>
    unfold joinAll at h
    rw [List.foldlM_cons] at h
    rcases Option.bind_eq_some_iff.mp h with ⟨e1, hjoin, hrun⟩
    rcases List.mem_cons.mp hstate with rfl | hstate
    · exact ⟨e, e1, hjoin⟩
    · exact ih hrun hstate

theorem holds_of_joinAll (hordered : Ordered unsatPrePredPairs) {states : List State}
    (D : forall state, state ∈ states -> Denotation U state)
    (hfacts : forall state (hstate : state ∈ states),
      FactsHold unsatPrePredPairs preds.procName ((D state hstate).Truth preds.prePreds))
    (h : e.joinAll unsatPrePredPairs conjunctBound states = some e')
    (hstate : state ∈ states) : e'.Holds ((D state hstate).Truth preds.prePreds)
      ((D state hstate).Truth preds.postPreds) := by
  have heq : forall state (hstate : state ∈ states),
      (D state hstate).Truth preds.prePreds = TrueIn state preds.prePreds ∧
        (D state hstate).Truth preds.postPreds = TrueIn state preds.postPreds := by
    intro state hstate
    rcases join_of_joinAll h hstate with ⟨e1, e2, hjoin⟩
    rcases join_eq_some hjoin with ⟨prePredsVal, postPredsVal, hpre, hpost, _, _⟩
    exact ⟨(D state hstate).truth_eq hpre, (D state hstate).truth_eq hpost⟩
  rw [(heq state hstate).1, (heq state hstate).2]
  refine satisfies_joinAll hordered ?_ h hstate
  intro state hstate
  rw [← (heq state hstate).1]
  exact hfacts state hstate

end Join

section Simplify

variable {unsatPrePredPairs : List PredPair} {e e' : PredicateAbs preds}
  {f : Disjunct -> Disjunct} {findex i : Nat} {d d' : Disjunct}

theorem getElem?_mapOthers :
    (e.mapOthers f findex).value[i]? = e.value[i]?.map (fun d => if i = findex then d else f d) :=
  List.getElem?_mapIdx

theorem holds_mapOthers (r : Reading unsatPrePredPairs preds)
    (hd : e.value[findex]? = some d) (hfalse : ¬ r.post findex)
    (hf : ¬ d.Holds r.pre -> forall d', (f d').Holds r.pre <-> d'.Holds r.pre) :
    (e.mapOthers f findex).Holds r.pre r.post <-> e.Holds r.pre r.post := by
  have hkept : (e.mapOthers f findex).value[findex]? = some d := by
    rw [getElem?_mapOthers, hd, Option.map_some, if_pos rfl]
  constructor
  · rintro ⟨hisFalse, hall⟩
    have hf := hf (fun h => hfalse (hall findex d hkept h))
    refine ⟨hisFalse, ?_⟩
    intro i d' hd' hholds
    apply hall i (if i = findex then d' else f d')
    · rw [getElem?_mapOthers, hd', Option.map_some]
    · split
      · exact hholds
      · exact (hf d').mpr hholds
  · rintro ⟨hisFalse, hall⟩
    have hf := hf (fun h => hfalse (hall findex d hd h))
    refine ⟨hisFalse, ?_⟩
    intro i d'' hd'' hholds
    rw [getElem?_mapOthers, Option.map_eq_some_iff] at hd''
    rcases hd'' with ⟨d', hd', rfl⟩
    apply hall i d' hd'
    split at hholds
    · exact hholds
    · exact (hf d').mp hholds

theorem holds_simplify (h : e.simplify = some e') (r : Reading unsatPrePredPairs preds) :
    e'.Holds r.pre r.post <-> e.Holds r.pre r.post := by
  unfold simplify at h
  split at h
  · cases h
    exact Iff.rfl
  · rename_i findex hfindex
    have hpost : ¬ r.post findex := by
      rcases List.findIdx?_eq_some_iff_getElem.mp hfindex with ⟨hlt, hp, _⟩
      apply r.post_false
      rw [List.getElem?_eq_getElem hlt, of_decide_eq_true hp]
    split at h
    · cases h
    · rename_i d hd
      split at h
      · rename_i htrue
        cases h
        exact holds_mapOthers r hd hpost
          (fun hnot => absurd (Or.inl htrue) hnot)
      · split at h
        · cases h
          exact Iff.rfl
        · cases h
          exact holds_mapOthers r hd hpost
            (fun hnot d' => Disjunct.holds_subtract hnot)

end Simplify

/-!
# The expression of a summary
-/

def Conjunct.toExpr (predToExpr : Nat -> Expr) (c : Conjunct) : Expr :=
  if c.isFalse then .falseExpr
  else
    c.negPreds.mergeSort.foldl
      (fun ret p => Expr.and ret (Expr.not (predToExpr p)))
      (c.posPreds.mergeSort.foldl
        (fun ret p => Expr.and ret (predToExpr p)) .trueExpr)

def Disjunct.toExpr (predToExpr : Nat -> Expr) (d : Disjunct) : Expr :=
  if d.isTrue then .trueExpr
  else
    d.conjuncts.foldl (fun ret c => Expr.or ret (c.toExpr predToExpr))
      .falseExpr

/-- The substitutions for the variables are those of `toExpr`. -/
def getSummaryExpr (toExpr : Expr -> Expr) (e : PredicateAbs preds) : Expr :=
  if e.isFalse then .falseExpr
  else
    (e.value.zip preds.postPreds).foldl (fun ret entry =>
      Expr.and ret (Expr.imp
        (entry.1.toExpr (fun j =>
          toExpr (preds.prePreds[j]?.getD .falseExpr)))
        (toExpr entry.2))) .trueExpr

section SummaryExpr

variable {U : Type} [DecidableEq U] {I : Interp U} {ρ₀ ρ : Env U}
  {predToExpr : Nat -> Expr}

theorem holds_foldl_and {A : Type} {f : A -> Expr} {as : List A} {ret : Expr} :
    (as.foldl (fun ret a => Expr.and ret (f a)) ret).Holds I ρ₀ ρ <->
      ret.Holds I ρ₀ ρ ∧ forall a, a ∈ as -> (f a).Holds I ρ₀ ρ := by
  induction as generalizing ret with
  | nil => simp
  | cons a as ih =>
    rw [List.foldl_cons, ih, Expr.holds_and, List.forall_mem_cons, and_assoc]

theorem holds_foldl_or {A : Type} {f : A -> Expr} {as : List A} {ret : Expr} :
    (as.foldl (fun ret a => Expr.or ret (f a)) ret).Holds I ρ₀ ρ <->
      ret.Holds I ρ₀ ρ ∨ exists a, a ∈ as ∧ (f a).Holds I ρ₀ ρ := by
  induction as generalizing ret with
  | nil => simp
  | cons a as ih =>
    rw [List.foldl_cons, ih, Expr.holds_or, or_assoc]
    simp

theorem Conjunct.holds_toExpr {c : Conjunct} :
    (c.toExpr predToExpr).Holds I ρ₀ ρ <-> c.Holds (fun p => (predToExpr p).Holds I ρ₀ ρ) := by
  rw [Conjunct.holds_iff]
  unfold toExpr
  split
  · rename_i hfalse
    simp [hfalse]
  · rename_i hfalse
    rw [holds_foldl_and, holds_foldl_and]
    simp [Bool.eq_false_iff.mpr hfalse, Expr.holds_not, List.mem_mergeSort]

theorem Disjunct.holds_toExpr {d : Disjunct} :
    (d.toExpr predToExpr).Holds I ρ₀ ρ <-> d.Holds (fun p => (predToExpr p).Holds I ρ₀ ρ) := by
  unfold toExpr Disjunct.Holds
  split
  · rename_i htrue
    simp [htrue]
  · rename_i htrue
    rw [holds_foldl_or]
    simp [htrue, Conjunct.holds_toExpr]

theorem holds_getSummaryExpr {toExpr : Expr -> Expr} {e : PredicateAbs preds} :
    (e.getSummaryExpr toExpr).Holds I ρ₀ ρ <-> e.Holds
        (fun j => (toExpr (preds.prePreds[j]?.getD .falseExpr)).Holds I ρ₀ ρ) (fun i =>
          (toExpr (preds.postPreds[i]?.getD .falseExpr)).Holds I ρ₀ ρ) := by
  unfold getSummaryExpr Holds
  cases hfalse : e.isFalse with
  | true => simp
  | false =>
    rw [if_neg Bool.false_ne_true, holds_foldl_and]
    constructor
    · rintro ⟨_, hall⟩
      refine ⟨rfl, ?_⟩
      intro i d hd hholds
      have hlt : i < preds.postPreds.length := by
        rw [← e.filled hfalse]
        exact (List.getElem?_eq_some_iff.mp hd).1
      have hpost := List.getElem?_eq_getElem hlt
      have hentry := hall (d, preds.postPreds[i])
        (List.mem_iff_getElem?.mpr
          ⟨i, List.getElem?_zip_eq_some.mpr ⟨hd, hpost⟩⟩)
      rw [Expr.holds_imp, Disjunct.holds_toExpr] at hentry
      rw [hpost]
      exact hentry hholds
    · rintro ⟨_, hall⟩
      refine ⟨Expr.holds_trueExpr, ?_⟩
      intro entry hentry
      rcases List.mem_iff_getElem?.mp hentry with ⟨i, hi⟩
      rcases List.getElem?_zip_eq_some.mp hi with ⟨hd, hpost⟩
      rw [Expr.holds_imp, Disjunct.holds_toExpr]
      intro hholds
      have hvalue := hall i entry.1 hd hholds
      dsimp only at hvalue
      rw [hpost] at hvalue
      exact hvalue

theorem holds_summaryExpr_of_join {state : State} (D : Denotation U state)
    {unsatPrePredPairs : List PredPair} {conjunctBound : Int} {e e' : PredicateAbs preds}
    (hordered : Ordered unsatPrePredPairs)
    (hplain : forall p, p ∈ preds.prePreds ++ preds.postPreds -> Plain p)
    (hfacts : FactsHold unsatPrePredPairs preds.procName (D.Truth preds.prePreds))
    (h : e.join unsatPrePredPairs conjunctBound state = some e') :
    (e'.getSummaryExpr id).Holds D.interp D.entry D.env := by
  have hholds := holds_of_join D hordered hfacts h
  rw [List.forall_mem_append] at hplain
  have hpre : D.Truth preds.prePreds =
      fun j => (preds.prePreds[j]?.getD .falseExpr).Holds D.interp D.entry D.env :=
    funext fun j => propext (D.truth_iff_holds hplain.1)
  have hpost : D.Truth preds.postPreds =
      fun i => (preds.postPreds[i]?.getD .falseExpr).Holds D.interp D.entry D.env :=
    funext fun i => propext (D.truth_iff_holds hplain.2)
  rw [hpre, hpost] at hholds
  exact holds_getSummaryExpr.mpr hholds

end SummaryExpr

/-!
# The laws of summaries
-/

/--
Joins make summaries weaker and true in the joined states, and the operations
have their meaning wherever the recorded facts are true.  When all predicates are
plain, the expression of the summary is true in the joined state.
-/
structure SummaryLaws (unsatPrePredPairs : List PredPair) (conjunctBound : Int)
    (preds : Predicates) : Prop where
  join_satisfies : forall (e e' : PredicateAbs preds) (state : State) (U : Type)
    [DecidableEq U] (D : Denotation U state),
    FactsHold unsatPrePredPairs preds.procName (D.Truth preds.prePreds) ->
    e.join unsatPrePredPairs conjunctBound state = some e' ->
      e'.Holds (D.Truth preds.prePreds) (D.Truth preds.postPreds) ∧
        ((forall p, p ∈ preds.prePreds ++ preds.postPreds -> Plain p) ->
          (e'.getSummaryExpr id).Holds D.interp D.entry D.env)
  join_weaker : forall (e e' : PredicateAbs preds) (state : State)
    (r : Reading unsatPrePredPairs preds),
    e.join unsatPrePredPairs conjunctBound state = some e' ->
      e.Holds r.pre r.post -> e'.Holds r.pre r.post
  joinAll_satisfies : forall (e e' : PredicateAbs preds) (states : List State) (U : Type)
    [DecidableEq U] (D : forall state, state ∈ states -> Denotation U state),
    (forall state (h : state ∈ states),
      FactsHold unsatPrePredPairs preds.procName ((D state h).Truth preds.prePreds)) ->
    e.joinAll unsatPrePredPairs conjunctBound states = some e' ->
      forall state (h : state ∈ states),
        e'.Holds ((D state h).Truth preds.prePreds) ((D state h).Truth preds.postPreds)
  and_conjunct : forall (c d : Conjunct) (v : Valuation),
    FactsHold unsatPrePredPairs preds.procName v ->
    (c.and unsatPrePredPairs preds.procName conjunctBound d).Holds v ->
      c.Holds v ∧ d.Holds v
  keeps_stronger : forall (c d : Conjunct) (l : Literal),
    l ∈ c.literals ∨ l ∈ d.literals ->
    (c.and unsatPrePredPairs preds.procName conjunctBound d).isFalse =
      false ->
      exists k, k ∈ (c.and unsatPrePredPairs preds.procName conjunctBound
        d).literals ∧ forall v : Valuation,
          FactsHold unsatPrePredPairs preds.procName v ->
          k.Holds v -> l.Holds v
  or_disjunct : forall (d1 d2 : Disjunct) (v : Valuation),
    (d1.or d2).Holds v <-> d1.Holds v ∨ d2.Holds v
  simplify : forall (e e' : PredicateAbs preds)
    (r : Reading unsatPrePredPairs preds),
    e.simplify = some e' ->
      (e'.Holds r.pre r.post <-> e.Holds r.pre r.post)
  syntacticLessThan : forall (d1 d2 : Disjunct) (v : Valuation),
    d1.syntacticLessThan d2 = true -> d1.Holds v -> d2.Holds v
  syntacticLessThan_conjunct : forall (c1 c2 : Conjunct) (v : Valuation),
    c1.syntacticLessThan c2 = true -> c1.Holds v -> c2.Holds v

/-- The laws hold with whatever pairs the prover is asked for. -/
theorem summaryLaws (text : Expr -> String) (checkIfUnsat : Expr -> Expr -> Bool)
    (prePreds postPreds : List (String × List Expr)) (conjunctBound : Int) (preds : Predicates) :
    SummaryLaws (findUnsatPairs text checkIfUnsat prePreds
      postPreds).unsatPrePredPairs conjunctBound preds where
  join_satisfies := fun _ _ _ _ _ D hfacts h =>
    ⟨holds_of_join D (ordered_findUnsatPairs prePreds postPreds) hfacts h,
      fun hplain => holds_summaryExpr_of_join D (ordered_findUnsatPairs prePreds postPreds)
        hplain hfacts h⟩
  join_weaker := fun _ _ _ r h he =>
    holds_join (ordered_findUnsatPairs prePreds postPreds) h r he
  joinAll_satisfies := fun _ _ _ _ _ D hfacts h _ hstate =>
    holds_of_joinAll (ordered_findUnsatPairs prePreds postPreds) D hfacts h hstate
  and_conjunct := fun _ _ _ hfacts h =>
    Conjunct.holds_of_and (ordered_findUnsatPairs prePreds postPreds) hfacts h
  keeps_stronger := fun _ _ _ hl hfalse =>
    Conjunct.exists_stronger_of_and
      (ordered_findUnsatPairs prePreds postPreds) hl hfalse
  or_disjunct := fun _ _ _ => Disjunct.holds_or
  simplify := fun _ _ r h => holds_simplify h r
  syntacticLessThan := fun _ _ _ h hd =>
    Disjunct.holds_of_syntacticLessThan h hd
  syntacticLessThan_conjunct := fun _ _ _ h hc => Conjunct.holds_of_implies h hc

/-!
# Three predicates that mean the same
-/

def boolB : Expr :=
  .ident (.globalVariable ⟨"b", .bool⟩)

/-- The predicates `b`, `b && b` and `b || b`. -/
def equalPreds : List Expr :=
  [boolB, .binary .and boolB boolB, .binary .or boolB boolB]

def showPred : Expr -> String
  | .ident x => x.name
  | .nary (.binary .and) _ => "b && b"
  | .nary (.binary .or) _ => "b || b"
  | .nary (.unary .not) [.ident _] => "!b"
  | .nary (.unary .not) [.nary (.binary .and) _] => "!(b && b)"
  | .nary (.unary .not) [.nary (.binary .or) _] => "!(b || b)"
  | _ => ""

def isNegated : Expr -> Bool
  | .nary (.unary .not) _ => true
  | _ => false

/-- What the prover finds about these predicates and their negations. -/
def equalPairs : List PredPair :=
  (findUnsatPairs showPred (fun e1 e2 => isNegated e1 != isNegated e2)
    [("p", equalPreds)] []).unsatPrePredPairs

theorem equalPairs_eq : equalPairs = [⟨"p", 0, 1, false, true⟩, ⟨"p", 0, 2, false, true⟩,
      ⟨"p", 0, 1, true, false⟩, ⟨"p", 0, 2, true, false⟩,
      ⟨"p", 1, 2, false, true⟩, ⟨"p", 1, 2, true, false⟩] := by
  rfl

theorem predVal_binary_self {state : State} {op : BinaryOperator} {e : Expr}
    (hbool : forall b, evaluateBinary op (.bool b) (.bool b) = some (.bool b))
    (hnum : forall n, evaluateBinary op (.num n) (.num n) = none) :
    predVal state (.binary op e e) = predVal state e := by
  unfold predVal Expr.binary
  rw [eval, evalArgs, evalArgs, evalArgs, evalNary]
  cases h : (eval state e).bind toValue with
  | none => rfl
  | some v =>
    cases v with
    | bool b =>
      rw [Option.bind_some, Option.bind_some, hbool]
      rfl
    | num n =>
      rw [Option.bind_some, Option.bind_some, hnum]
      rfl

theorem trueIn_equalPreds {state : State} {i : Nat} (hi : i < 3) :
    TrueIn state equalPreds i <-> predVal state boolB = some true := by
  have hand : predVal state (.binary .and boolB boolB) = predVal state boolB :=
    predVal_binary_self (fun b => by cases b <;> rfl) (fun _ => rfl)
  have hor : predVal state (.binary .or boolB boolB) = predVal state boolB :=
    predVal_binary_self (fun b => by cases b <;> rfl) (fun _ => rfl)
  unfold TrueIn equalPreds
  match i, hi with
  | 0, _ => simp
  | 1, _ => simp [hand]
  | 2, _ => simp [hor]

theorem excludes_equalPairs {l m : Literal} :
    Conjunct.excludes equalPairs "p" l m = true <-> l.1 < m.1 ∧ m.1 < 3 ∧ l.2 ≠ m.2 := by
  rcases l with ⟨i, a⟩
  rcases m with ⟨j, b⟩
  unfold Conjunct.excludes
  rw [equalPairs_eq, decide_eq_true_eq]
  cases a <;> cases b <;> simp
  · omega
  · omega

/-!
# A predicate that is not evaluated to its meaning
-/

/-- The only predicate is `b <==> b`. -/
def iffPreds : Predicates where
  procName := "p"
  prePreds := [.binary .iff boolB boolB]
  postPreds := [.falseExpr]
  posPrePreds := []

def trueState : State where
  lookup := fun x => if x = "b" ∨ x = "old(b)" then some (.boolean true) else none
  array := fun _ => none

def elementValue : Model.Element -> Value Unit
  | .boolean b => .bool b
  | .integer n => .int n
  | _ => .other ()

theorem elementValue_of_lookup {x : String} {el : Model.Element}
    (h : trueState.lookup x = some el) : .bool true = elementValue el := by
  unfold trueState at h
  rw [Option.ite_none_right_eq_some] at h
  rcases h with ⟨_, h⟩
  cases h
  rfl

theorem not_array_trueState {map : Model.Element} {array : ArrayFunc}
    {P : Prop} (h : trueState.array map = some array) : P := by
  cases h

theorem elementValue_of_old {x : Variable} {el : Model.Element}
    (h : trueState.lookup ("old(" ++ x.name ++ ")") = some el) :
    oldEnv (fun _ => .bool true) (fun _ => .bool true) x = elementValue el := by
  rw [oldEnv, ite_self]
  exact elementValue_of_lookup h

def trueDenotation : Denotation Unit trueState where
  interp := ⟨fun _ => "", fun _ _ => .other (), fun _ => .other (), fun _ => .other ()⟩
  entry := fun _ => .bool true
  env := fun _ => .bool true
  value := elementValue
  boolean := fun _ => rfl
  integer := fun _ => rfl
  lookup := fun _ _ h => elementValue_of_lookup h
  old := fun _ _ h => elementValue_of_old h
  select := fun _ _ _ _ h => not_array_trueState h

theorem excluded_by_iff : exists e' : PredicateAbs iffPreds,
    (new iffPreds).join [] 3 trueState = some e' ∧
      ¬ (e'.getSummaryExpr id).Holds trueDenotation.interp trueDenotation.entry
        trueDenotation.env := by
  have hjoin : exists e', (new iffPreds).join [] 3 trueState = some e' := by
    apply exists_join
    intro p hp
    rcases List.mem_cons.mp hp with rfl | hp
    · exact ⟨false, rfl⟩
    · rw [List.mem_singleton.mp hp]
      exact ⟨false, rfl⟩
  rcases hjoin with ⟨e', hjoin⟩
  refine ⟨e', hjoin, ?_⟩
  rcases join_eq_some hjoin with ⟨prePredsVal, postPredsVal, hpre, hpost, _, hvalue⟩
  cases hpre
  cases hpost
  rw [holds_getSummaryExpr]
  intro hholds
  refine Expr.not_holds_falseExpr (hholds.2 0 (Disjunct.ofLiterals 3 [0] []) ?_ ?_)
  · rw [hvalue]
    rfl
  · refine Or.inr ⟨Conjunct.singleton 3 0 true, List.mem_singleton_self _, rfl, ?_⟩
    intro l hl
    rw [show (Conjunct.singleton 3 0 true).literals = [(0, true)] from rfl,
      List.mem_singleton] at hl
    rw [hl]
    exact iff_of_true rfl rfl

/--
The recorded pairs are true, the second and the third predicate imply each
other, and both are dropped.  A state where `b <==> b` is evaluated to false is not
in the summary that is joined with it.
-/
theorem equivalent_dropped :
    (forall state : State, FactsHold equalPairs "p" (TrueIn state equalPreds)) ∧
    (forall v : Valuation, FactsHold equalPairs "p" v ->
      (Literal.Holds v (1, true) <-> Literal.Holds v (2, true))) ∧
    (1, true) ∈ (Conjunct.ofSets 3 [1, 2] []).literals ∧
    (2, true) ∈ (Conjunct.ofSets 3 [1, 2] []).literals ∧
    ((Conjunct.ofSets 3 [0] []).and equalPairs "p" 3
      (Conjunct.ofSets 3 [1, 2] [])).literals = [(0, true)] ∧
    exists e' : PredicateAbs iffPreds, (new iffPreds).join [] 3 trueState = some e' ∧
      ¬ (e'.getSummaryExpr id).Holds trueDenotation.interp trueDenotation.entry
        trueDenotation.env := by
  refine ⟨?_, ?_, ?_, ?_, ?_, excluded_by_iff⟩
  · rintro state ⟨i, a⟩ ⟨j, b⟩ hexcludes ⟨hl, hm⟩
    rcases excludes_equalPairs.mp hexcludes with ⟨hij, hj, hab⟩
    unfold Literal.Holds at hl hm
    rw [trueIn_equalPreds (Nat.lt_trans hij hj)] at hl
    rw [trueIn_equalPreds hj, hl] at hm
    exact hab (Bool.eq_iff_iff.mpr hm)
  · intro v hfacts
    have hforward := hfacts (1, true) (2, false)
      (excludes_equalPairs.mpr ⟨by decide, by decide, by decide⟩)
    have hbackward := hfacts (1, false) (2, true)
      (excludes_equalPairs.mpr ⟨by decide, by decide, by decide⟩)
    simp only [Literal.Holds] at hforward hbackward ⊢
    tauto
  · decide
  · decide
  · rw [equalPairs_eq]
    decide

end PredicateAbs

end Boogie
