import Mathlib.Data.Finset.Dedup
import Boogie.Foundation.Clauses
import Boogie.Foundation.Subsumption
import Boogie.Foundation.Traversal
import Boogie.Graph.Graph
import Boogie.Houdini.C5Domain

/-!
# Predicate abstraction

An element is a conjunction of disjunctions of at most three literals over the
Boolean arguments of an existential function.  A join weakens every disjunction
by every literal of the state.
-/

namespace Boogie

def Model.Element.boolValue : Element -> Option Bool
  | .boolean b => some b
  | _ => none

namespace ExprExt

def andSimp (e1 e2 : Expr) : Expr :=
  if e1 = .trueExpr then e2
  else if e2 = .trueExpr then e1
  else if e1 = .falseExpr ∨ e2 = .falseExpr then .falseExpr
  else Expr.and e1 e2

def orSimp (e1 e2 : Expr) : Expr :=
  if e1 = .falseExpr then e2
  else if e2 = .falseExpr then e1
  else if e1 = .trueExpr ∨ e2 = .trueExpr then .trueExpr
  else Expr.or e1 e2

section Meaning

variable {U : Type} [DecidableEq U] {I : Interp U} {ρ₀ ρ : Env U}
  {e1 e2 : Expr}

theorem holds_andSimp : (andSimp e1 e2).Holds I ρ₀ ρ <-> e1.Holds I ρ₀ ρ ∧ e2.Holds I ρ₀ ρ := by
  unfold andSimp
  split
  · next h => simp [h]
  · split
    · next h => simp [h]
    · split
      · next h => rcases h with h | h <;> simp [h]
      · exact Expr.holds_and

theorem holds_orSimp : (orSimp e1 e2).Holds I ρ₀ ρ <-> e1.Holds I ρ₀ ρ ∨ e2.Holds I ρ₀ ρ := by
  unfold orSimp
  split
  · next h => simp [h]
  · split
    · next h => simp [h]
    · split
      · next h => rcases h with h | h <;> simp [h]
      · exact Expr.holds_or

end Meaning

end ExprExt

/-- `new HashSet<int>(xs)` -/
def hashSet (xs : List Nat) : List Nat :=
  xs.foldl hashSetAdd []

theorem mem_hashSet {xs : List Nat} {x : Nat} : x ∈ hashSet xs <-> x ∈ xs := by
  simp [hashSet, mem_foldl_hashSetAdd]

theorem hashSet_nodup (xs : List Nat) : (hashSet xs).Nodup := by
  apply List.foldlRecOn (motive := List.Nodup)
  · exact List.nodup_nil
  · exact fun _ hs _ _ => hashSetAdd_nodup hs

theorem hashSet_disjoint (pos neg : List Nat) (h : ¬ (hashSet pos).any (fun i => i ∈ hashSet neg)) :
    (hashSet pos).Disjoint (hashSet neg) := by
  intro i hpos hneg
  apply h
  exact List.any_eq_true.mpr ⟨i, hpos, decide_eq_true hneg⟩

theorem hashSet_cleared (pos neg : List Nat) (h : false = true) :
    hashSet pos = [] ∧ hashSet neg = [] := by
  cases h

theorem noIndices_cleared (_ : true = true) :
    ([] : List Nat) = [] ∧ ([] : List Nat) = [] :=
  ⟨rfl, rfl⟩

theorem noIndices_disjoint : ([] : List Nat).Disjoint [] :=
  List.disjoint_nil_left []

theorem length_hashSet (xs : List Nat) :
    (hashSet xs).length = xs.toFinset.card := by
  rw [← List.toFinset_card_of_nodup (hashSet_nodup xs)]
  congr 1
  ext x
  simp [mem_hashSet]

namespace PredicateAbsElem

/-!
# Disjunctions of literals
-/

def disjunctBound : Nat := 3

structure Disjunct where
  pos : List Nat
  neg : List Nat
  isTrue : Bool
  cleared : isTrue = true -> pos = [] ∧ neg = []
  pos_nodup : pos.Nodup
  neg_nodup : neg.Nodup
  disjoint : pos.Disjoint neg
  bounded : pos.length + neg.length ≤ disjunctBound
deriving DecidableEq

namespace Disjunct

def top : Disjunct where
  pos := []
  neg := []
  isTrue := true
  cleared := noIndices_cleared
  pos_nodup := List.nodup_nil
  neg_nodup := List.nodup_nil
  disjoint := noIndices_disjoint
  bounded := Nat.zero_le _

def ofSets (pos neg : List Nat) : Disjunct :=
  if hoverlaps : (hashSet pos).any (fun i => i ∈ hashSet neg) then top
  else if hbound :
      (hashSet pos).length + (hashSet neg).length > disjunctBound then top
  else
    { pos := hashSet pos
      neg := hashSet neg
      isTrue := false
      cleared := hashSet_cleared pos neg
      pos_nodup := hashSet_nodup pos
      neg_nodup := hashSet_nodup neg
      disjoint := hashSet_disjoint pos neg hoverlaps
      bounded := Nat.le_of_not_gt hbound }

def or (c d : Disjunct) : Disjunct :=
  if c.isTrue then c
  else if d.isTrue then d
  else ofSets (c.pos ++ d.pos) (c.neg ++ d.neg)

def implies (c d : Disjunct) : Bool :=
  if c.isTrue then d.isTrue
  else if d.isTrue then true
  else c.pos.all (fun i => i ∈ d.pos) && c.neg.all (fun i => i ∈ d.neg)

/-- `none` where an index is out of range. -/
def gamma (d : Disjunct) (vars : List Expr) : Option Expr :=
  if d.isTrue then some .trueExpr
  else do
    let ret <- d.pos.foldlM
      (fun ret i => vars[i]?.map (fun v => ExprExt.orSimp ret v)) .falseExpr
    d.neg.foldlM
      (fun ret i => vars[i]?.map (fun v => ExprExt.orSimp ret v.not)) ret

def unit (i : Nat) (b : Bool) : Disjunct :=
  if b then ofSets [i] [] else ofSets [] [i]

def toClause (d : Disjunct) : Clause Nat :=
  ⟨d.pos.toFinset, d.neg.toFinset⟩

section Spec

variable {c d : Disjunct} {pos neg : List Nat} {i : Nat} {b : Bool}

theorem toClause_disjoint (d : Disjunct) :
    Disjoint d.toClause.pos d.toClause.neg := by
  rw [Finset.disjoint_left]
  intro i hpos hneg
  exact d.disjoint (List.mem_toFinset.mp hpos) (List.mem_toFinset.mp hneg)

theorem toClause_size_le (d : Disjunct) : d.toClause.size ≤ disjunctBound := by
  have hpos := List.toFinset_card_of_nodup d.pos_nodup
  have hneg := List.toFinset_card_of_nodup d.neg_nodup
  rw [Clause.size, toClause, hpos, hneg]
  exact d.bounded

theorem ofSets_spec (pos neg : List Nat) :
    ((ofSets pos neg).isTrue = false <-> Disjoint pos.toFinset neg.toFinset ∧
        pos.toFinset.card + neg.toFinset.card ≤ disjunctBound) ∧ ((ofSets pos neg).isTrue = false ->
      (ofSets pos neg).toClause = ⟨pos.toFinset, neg.toFinset⟩) := by
  unfold ofSets
  split
  · next hoverlaps =>
      rcases List.any_eq_true.mp hoverlaps with ⟨i, hpos, hneg⟩
      have hin := mem_hashSet.mp (of_decide_eq_true hneg)
      have hnot : ¬ Disjoint pos.toFinset neg.toFinset := by
        rw [Finset.disjoint_left]
        intro hdis
        exact hdis (List.mem_toFinset.mpr (mem_hashSet.mp hpos))
          (List.mem_toFinset.mpr hin)
      simp [top, hnot]
  · next hoverlaps =>
      have hdis : Disjoint pos.toFinset neg.toFinset := by
        rw [Finset.disjoint_left]
        intro i hpos hneg
        apply hoverlaps
        exact List.any_eq_true.mpr ⟨i, mem_hashSet.mpr (List.mem_toFinset.mp hpos),
          decide_eq_true (mem_hashSet.mpr (List.mem_toFinset.mp hneg))⟩
      split
      · next hbound =>
          rw [length_hashSet, length_hashSet] at hbound
          simp [top, Nat.not_le.mpr hbound]
      · next hbound =>
          rw [length_hashSet, length_hashSet] at hbound
          constructor
          · simp [hdis, Nat.le_of_not_gt hbound]
          · intro _
            rw [toClause]
            congr 1
            · ext i
              simp [mem_hashSet]
            · ext i
              simp [mem_hashSet]

theorem unit_spec (i : Nat) (b : Bool) : (unit i b).isTrue = false ∧
    (unit i b).toClause = Clause.literal i b := by
  cases b with
  | true =>
    have hfalse := (ofSets_spec [i] []).1.mpr (by simp [disjunctBound])
    refine ⟨hfalse, ((ofSets_spec [i] []).2 hfalse).trans ?_⟩
    simp [Clause.literal]
  | false =>
    have hfalse := (ofSets_spec [] [i]).1.mpr (by simp [disjunctBound])
    refine ⟨hfalse, ((ofSets_spec [] [i]).2 hfalse).trans ?_⟩
    simp [Clause.literal]

theorem or_eq (hc : c.isTrue = false) (hd : d.isTrue = false) :
    c.or d = ofSets (c.pos ++ d.pos) (c.neg ++ d.neg) := by
  rw [or, hc, hd]
  rfl

theorem toClause_or (h : (c.or d).isTrue = false) : c.isTrue = false ∧
    (c.or d).toClause = c.toClause.or d.toClause := by
  cases hc : c.isTrue with
  | true =>
    rw [or, hc, if_pos rfl, hc] at h
    cases h
  | false =>
    cases hd : d.isTrue with
    | true =>
      rw [or, hc, hd, if_neg Bool.false_ne_true, if_pos rfl, hd] at h
      cases h
    | false =>
      rw [or_eq hc hd] at h ⊢
      refine ⟨rfl, ((ofSets_spec _ _).2 h).trans ?_⟩
      rw [List.toFinset_append, List.toFinset_append]
      rfl

theorem or_isTrue (hc : c.isTrue = false) (hd : d.isTrue = false)
    (hdisjoint : Disjoint (c.toClause.or d.toClause).pos (c.toClause.or d.toClause).neg)
    (hsize : (c.toClause.or d.toClause).size ≤ disjunctBound) :
    (c.or d).isTrue = false := by
  rw [or_eq hc hd]
  apply (ofSets_spec _ _).1.mpr
  rw [List.toFinset_append, List.toFinset_append]
  exact ⟨hdisjoint, hsize⟩

theorem implies_iff (hd : d.isTrue = false) : c.implies d = true <->
    c.isTrue = false ∧ c.toClause.Strengthens d.toClause := by
  unfold implies
  cases hc : c.isTrue with
  | true => simp [hd]
  | false =>
    rw [hd]
    simp [Clause.Strengthens, toClause, Finset.subset_iff]

theorem implies_of_isTrue (hd : d.isTrue = true) : c.implies d = true := by
  simp [implies, hd]

theorem implies_preorder : Subsumption.Preorder implies where
  refl := by
    intro c
    cases hc : c.isTrue with
    | true => exact implies_of_isTrue hc
    | false =>
      rw [implies_iff hc]
      exact ⟨hc, Finset.Subset.refl _, Finset.Subset.refl _⟩
  trans := by
    intro c d e hcd hde
    cases he : e.isTrue with
    | true => exact implies_of_isTrue he
    | false =>
      rcases (implies_iff he).mp hde with ⟨hd, hde⟩
      rcases (implies_iff hd).mp hcd with ⟨hc, hcd⟩
      rw [implies_iff he]
      exact ⟨hc, hcd.1.trans hde.1, hcd.2.trans hde.2⟩

end Spec

end Disjunct

end PredicateAbsElem

structure PredicateAbsElem where
  conjuncts : List PredicateAbsElem.Disjunct
  isFalse : Bool

namespace PredicateAbsElem

def bottom : PredicateAbsElem :=
  ⟨[], true⟩

def addDisjunct (e : PredicateAbsElem) (d : Disjunct) : PredicateAbsElem :=
  { e with conjuncts := Subsumption.addLast Disjunct.implies e.conjuncts d }

def joinValue (e ret : PredicateAbsElem) (i : Nat) (b : Bool) :
    PredicateAbsElem :=
  let d := Disjunct.unit i b
  if e.isFalse then ret.addDisjunct d
  else e.conjuncts.foldl (fun ret c => ret.addDisjunct (c.or d)) ret

def join (e : PredicateAbsElem) (state : List Model.Element) :
    Option PredicateAbsElem :=
  match state.mapM Model.Element.boolValue with
  | none => none
  | some values =>
    if !e.isFalse && e.conjuncts.length = 0 then some e
    else
      some (values.zipIdx.foldl (fun ret b => e.joinValue ret b.2 b.1)
        ⟨[], false⟩)

def gamma (e : PredicateAbsElem) (vars : List Expr) : Option Expr :=
  if e.isFalse then some .falseExpr
  else
    e.conjuncts.foldlM
      (fun ret c => (c.gamma vars).map (fun g => ExprExt.andSimp ret g))
      .trueExpr

def elements (values : List Bool) : List Model.Element :=
  values.map .boolean

/-- The element after all states, `none` when a `Join` throws. -/
def joinAll (e : PredicateAbsElem) (states : List (List Bool)) :
    Option PredicateAbsElem :=
  states.foldlM (fun e values => e.join (elements values)) e

/-!
# Joins represent states
-/

def trueIn (values : List Bool) (i : Nat) : Prop :=
  values[i]? = some true

def clauses (e : PredicateAbsElem) : Set (Clause Nat) :=
  if e.isFalse then {Clause.empty}
  else {C | exists c, c ∈ e.conjuncts ∧ c.isTrue = false ∧ C = c.toClause}

section Join

variable {e ret : PredicateAbsElem} {values : List Bool} {i n : Nat} {b : Bool}
  {C : Clause Nat}

theorem mem_clauses (h : e.isFalse = false) : C ∈ e.clauses <->
    exists c, c ∈ e.conjuncts ∧ c.isTrue = false ∧ C = c.toClause := by
  rw [clauses, h]
  exact Iff.rfl

def added (e : PredicateAbsElem) (values : List Bool) : List Disjunct :=
  values.zipIdx.flatMap (fun b =>
    if e.isFalse then [Disjunct.unit b.2 b.1]
    else e.conjuncts.map (fun c => c.or (Disjunct.unit b.2 b.1)))

theorem foldl_addDisjunct (ds : List Disjunct) (ret : PredicateAbsElem) :
    ds.foldl addDisjunct ret = ⟨ds.foldl (Subsumption.addLast Disjunct.implies) ret.conjuncts,
        ret.isFalse⟩ := by
  induction ds generalizing ret with
  | nil => rfl
  | cons d ds ih => rw [List.foldl_cons, ih, addDisjunct, List.foldl_cons]

theorem joinValue_eq : e.joinValue ret i b = (if e.isFalse then [Disjunct.unit i b]
      else e.conjuncts.map (fun c => c.or (Disjunct.unit i b))).foldl addDisjunct ret := by
  unfold joinValue
  split
  · rfl
  · rw [List.foldl_map]

theorem mapM_boolValue (values : List Bool) :
    (elements values).mapM Model.Element.boolValue = some values := by
  rw [elements, List.mapM_map]
  refine (Traversal.mapM_eq_map (g := id) (fun b _ => rfl)).trans ?_
  rw [List.map_id]

theorem join_eq (h : (!e.isFalse && e.conjuncts.length = 0) = false) :
    e.join (elements values) =
      some ⟨(e.added values).foldl (Subsumption.addLast Disjunct.implies) [], false⟩ := by
  unfold join
  rw [mapM_boolValue]
  simp only [h, Bool.false_eq_true, if_false, joinValue_eq]
  rw [← List.foldl_flatMap, foldl_addDisjunct]
  rfl

theorem join_of_true (h : (!e.isFalse && e.conjuncts.length = 0) = true) :
    e.join (elements values) = some e := by
  unfold join
  rw [mapM_boolValue]
  simp only [h, if_true]

theorem mem_zipIdx_iff : (b, i) ∈ values.zipIdx <-> values[i]? = some b :=
  List.mem_zipIdx_iff_getElem?

theorem toClause_of_mem_added {d : Disjunct} (hd : d ∈ e.added values) (hfalse : d.isTrue = false) :
    exists b i, values[i]? = some b ∧ exists C, C ∈ e.clauses ∧
      d.toClause = C.or (Clause.literal i b) := by
  rcases List.mem_flatMap.mp hd with ⟨⟨b, i⟩, hi, hmem⟩
  refine ⟨b, i, mem_zipIdx_iff.mp hi, ?_⟩
  have hunit := Disjunct.unit_spec i b
  cases he : e.isFalse with
  | true =>
    rw [he, if_pos rfl, List.mem_singleton] at hmem
    subst hmem
    refine ⟨Clause.empty, by simp [clauses, he], ?_⟩
    rw [hunit.2, Clause.empty_or]
  | false =>
    rw [he, if_neg Bool.false_ne_true] at hmem
    rcases List.mem_map.mp hmem with ⟨c, hc, rfl⟩
    rcases Disjunct.toClause_or hfalse with ⟨hcfalse, heq⟩
    refine ⟨c.toClause, (mem_clauses he).mpr ⟨c, hc, hcfalse, rfl⟩, ?_⟩
    rw [heq, hunit.2]

theorem exists_mem_added (hi : values[i]? = some b) (hC : C ∈ e.clauses)
    (hdisjoint : Disjoint (C.or (Clause.literal i b)).pos (C.or (Clause.literal i b)).neg)
    (hsize : (C.or (Clause.literal i b)).size ≤ disjunctBound) :
    exists d, d ∈ e.added values ∧ d.isTrue = false ∧ d.toClause = C.or (Clause.literal i b) := by
  have hunit := Disjunct.unit_spec i b
  cases he : e.isFalse with
  | true =>
    rw [clauses, he, if_pos rfl] at hC
    rw [Set.mem_singleton_iff.mp hC, Clause.empty_or]
    refine ⟨Disjunct.unit i b, ?_, hunit⟩
    apply List.mem_flatMap.mpr
    refine ⟨(b, i), mem_zipIdx_iff.mpr hi, ?_⟩
    rw [he, if_pos rfl]
    exact List.mem_cons_self
  | false =>
    rcases (mem_clauses he).mp hC with ⟨c, hc, hcfalse, rfl⟩
    rw [← hunit.2] at hdisjoint hsize ⊢
    have hfalse := Disjunct.or_isTrue hcfalse hunit.1 hdisjoint hsize
    refine ⟨c.or (Disjunct.unit i b), ?_, hfalse,
      (Disjunct.toClause_or hfalse).2⟩
    apply List.mem_flatMap.mpr
    refine ⟨(b, i), mem_zipIdx_iff.mpr hi, ?_⟩
    rw [he, if_neg Bool.false_ne_true]
    exact List.mem_map.mpr ⟨c, hc, rfl⟩

theorem join_represents {states : Set (Nat -> Prop)}
    (h : Clause.Represents (Finset.range n) disjunctBound states e.clauses)
    (hlength : values.length = n) :
    exists e', e.join (elements values) = some e' ∧ Clause.Represents (Finset.range n) disjunctBound
        (insert (trueIn values) states) e'.clauses := by
  have hvalue : forall i, i ∈ Finset.range n ->
      values[i]? = some (values.getD i false) := by
    intro i hi
    have hlt : i < values.length := by
      rw [hlength]
      exact Finset.mem_range.mp hi
    rw [List.getD_eq_getElem?_getD, List.getElem?_eq_getElem hlt]
    rfl
  have htrue : forall i, i ∈ Finset.range n ->
      (trueIn values i <-> values.getD i false = true) := by
    intro i hi
    rw [trueIn, hvalue i hi, Option.some.injEq]
  cases hquick : !e.isFalse && e.conjuncts.length = 0 with
  | true =>
    refine ⟨e, join_of_true hquick, ?_⟩
    simp only [Bool.and_eq_true, Bool.not_eq_true', decide_eq_true_eq,
      List.length_eq_zero_iff] at hquick
    have hnone : forall C, C ∉ e.clauses := by
      intro C hC
      rcases (mem_clauses hquick.1).mp hC with ⟨c, hc, _⟩
      rw [hquick.2] at hc
      cases hc
    exact h.step htrue (fun C hC => absurd hC (hnone C))
      (fun _ _ C hC => absurd hC (hnone C))
  | false =>
    refine ⟨_, join_eq hquick, h.step htrue ?_ ?_⟩
    · intro C hC
      rcases (mem_clauses rfl).mp hC with ⟨d, hd, hfalse, rfl⟩
      rcases Subsumption.mem_foldl_addLast hd with hd | hd
      · cases hd
      · rcases toClause_of_mem_added hd hfalse with ⟨b, i, hi, C, hC, heq⟩
        have hlt : i ∈ Finset.range n := by
          rw [Finset.mem_range, ← hlength]
          exact (List.getElem?_eq_some_iff.mp hi).1
        have hb : values.getD i false = b :=
          Option.some.inj ((hvalue i hlt).symm.trans hi)
        have hproper := h.proper C hC
        have hliteral : (Clause.literal i b).pos ⊆ Finset.range n ∧
            (Clause.literal i b).neg ⊆ Finset.range n := by
          cases b <;>
            simpa [Clause.literal] using Finset.mem_range.mp hlt
        constructor
        · refine ⟨?_, ?_, d.toClause_disjoint, d.toClause_size_le⟩
          · rw [heq]
            exact Finset.union_subset hproper.pos_subset hliteral.1
          · rw [heq]
            exact Finset.union_subset hproper.neg_subset hliteral.2
        · refine ⟨i, hlt, C, hC, ?_⟩
          rw [hb, heq]
    · intro i hi C hC hproper
      rcases exists_mem_added (hvalue i hi) hC hproper.disjoint
        hproper.size_le with ⟨d, hd, hfalse, heq⟩
      have hcovers := (Subsumption.covers_foldl_addLast (l := [])
        Disjunct.implies_preorder (x := d)).mpr
        (Or.inr ⟨d, hd, Disjunct.implies_preorder.refl d⟩)
      rcases hcovers with ⟨d', hd', himplies⟩
      rcases (Disjunct.implies_iff hfalse).mp himplies with
        ⟨hfalse', hstrengthens⟩
      rw [← heq]
      exact ⟨d'.toClause, (mem_clauses rfl).mpr ⟨d', hd', hfalse', rfl⟩,
        hstrengthens⟩

theorem joinAll_represents {states : List (List Bool)}
    (hlength : forall values, values ∈ states -> values.length = n) :
    exists e, joinAll bottom states = some e ∧ Clause.Represents (Finset.range n) disjunctBound
        {v | exists values, values ∈ states ∧ v = trueIn values} e.clauses := by
  induction states using List.reverseRecOn with
  | nil =>
    refine ⟨bottom, rfl, ?_⟩
    have hclauses : bottom.clauses = {Clause.empty} := rfl
    rw [hclauses]
    simpa using Clause.represents_empty
  | append_singleton states values ih =>
    rcases ih (fun w hw => hlength w (List.mem_append_left _ hw)) with
      ⟨e, he, hrepresents⟩
    rcases join_represents hrepresents
      (hlength values (List.mem_append_right _ List.mem_cons_self)) with
      ⟨e', he', hrepresents'⟩
    refine ⟨e', ?_, ?_⟩
    · unfold joinAll at he ⊢
      rw [List.foldlM_append, he]
      simpa using he'
    · have hstates : {v | exists w, w ∈ states ++ [values] ∧ v = trueIn w} =
          insert (trueIn values)
            {v | exists w, w ∈ states ∧ v = trueIn w} := by
        ext v
        simp only [Set.mem_ofPred_eq, Set.mem_insert_iff, List.mem_append,
          List.mem_singleton]
        constructor
        · rintro ⟨w, hw | rfl, rfl⟩
          · exact Or.inr ⟨w, hw, rfl⟩
          · exact Or.inl rfl
        · rintro (rfl | ⟨w, hw, rfl⟩)
          · exact ⟨values, Or.inr rfl, rfl⟩
          · exact ⟨w, Or.inl hw, rfl⟩
      rw [hstates]
      exact hrepresents'

end Join

/-!
# The meaning of Gamma
-/

section Meaning

variable {U : Type} [DecidableEq U] {I : Interp U} {ρ₀ ρ : Env U}
  {vars : List Expr} {e : PredicateAbsElem}

def TrueAt (I : Interp U) (ρ₀ ρ : Env U) (vars : List Expr) (i : Nat) : Prop :=
  exists v, vars[i]? = some v ∧ v.Holds I ρ₀ ρ

theorem trueAt_getElem {i : Nat} (hi : i < vars.length) :
    TrueAt I ρ₀ ρ vars i <-> vars[i].Holds I ρ₀ ρ := by
  rw [TrueAt, List.getElem?_eq_getElem hi]
  simp

theorem foldlM_orSimp_holds (I : Interp U) (ρ₀ ρ : Env U) {f : Expr -> Expr}
    {is : List Nat} (ret : Expr) {P : Nat -> Prop} (hlt : forall i, i ∈ is -> i < vars.length)
    (hf : forall i (hi : i < vars.length), (f vars[i]).Holds I ρ₀ ρ <-> P i) :
    exists g, is.foldlM (fun ret i => vars[i]?.map (fun v => ExprExt.orSimp ret (f v))) ret =
        some g ∧ (g.Holds I ρ₀ ρ <-> ret.Holds I ρ₀ ρ ∨ exists i, i ∈ is ∧ P i) := by
  induction is generalizing ret with
  | nil => exact ⟨ret, rfl, by simp⟩
  | cons i is ih =>
    have hi := hlt i List.mem_cons_self
    rcases ih (ExprExt.orSimp ret (f vars[i]))
      (fun j hj => hlt j (List.mem_cons_of_mem i hj)) with ⟨g, hg, hholds⟩
    refine ⟨g, ?_, ?_⟩
    · rw [List.foldlM_cons, List.getElem?_eq_getElem hi]
      exact hg
    · rw [hholds, ExprExt.holds_orSimp, hf i hi, or_assoc]
      simp

theorem Disjunct.gamma_holds (I : Interp U) (ρ₀ ρ : Env U) {d : Disjunct}
    (hlt : forall i, i ∈ d.toClause.pos ∪ d.toClause.neg -> i < vars.length) :
    exists g, d.gamma vars = some g ∧ (g.Holds I ρ₀ ρ <->
      d.isTrue = true ∨ d.toClause.Holds (TrueAt I ρ₀ ρ vars)) := by
  cases htrue : d.isTrue with
  | true => exact ⟨.trueExpr, by rw [gamma, htrue, if_pos rfl], by simp⟩
  | false =>
    have hpos : forall i, i ∈ d.pos -> i < vars.length := fun i hi =>
      hlt i (Finset.mem_union_left _ (List.mem_toFinset.mpr hi))
    have hneg : forall i, i ∈ d.neg -> i < vars.length := fun i hi =>
      hlt i (Finset.mem_union_right _ (List.mem_toFinset.mpr hi))
    rcases foldlM_orSimp_holds I ρ₀ ρ (f := id) .falseExpr hpos
      (fun i hi => (trueAt_getElem hi).symm) with ⟨g, hg, hholds⟩
    rcases foldlM_orSimp_holds I ρ₀ ρ (f := Expr.not) g hneg
      (fun i hi => Expr.holds_not.trans (not_congr (trueAt_getElem hi).symm))
      with ⟨g', hg', hholds'⟩
    refine ⟨g', ?_, ?_⟩
    · rw [gamma, htrue, if_neg Bool.false_ne_true]
      simp only [id] at hg
      rw [hg]
      exact hg'
    · rw [hholds', hholds]
      simp [Clause.Holds, toClause]

theorem foldlM_andSimp_holds (I : Interp U) (ρ₀ ρ : Env U) (ret : Expr)
    {cs : List Disjunct} (hlt : forall c, c ∈ cs -> forall i,
      i ∈ c.toClause.pos ∪ c.toClause.neg -> i < vars.length) :
    exists g, cs.foldlM (fun ret c => (c.gamma vars).map (fun g => ExprExt.andSimp ret g)) ret =
        some g ∧ (g.Holds I ρ₀ ρ <-> ret.Holds I ρ₀ ρ ∧ forall c, c ∈ cs ->
        c.isTrue = true ∨ c.toClause.Holds (TrueAt I ρ₀ ρ vars)) := by
  induction cs generalizing ret with
  | nil => exact ⟨ret, rfl, by simp⟩
  | cons c cs ih =>
    rcases Disjunct.gamma_holds I ρ₀ ρ (hlt c List.mem_cons_self) with
      ⟨g, hg, hholds⟩
    rcases ih (ExprExt.andSimp ret g)
      (fun d hd => hlt d (List.mem_cons_of_mem c hd)) with
      ⟨g', hg', hholds'⟩
    refine ⟨g', ?_, ?_⟩
    · rw [List.foldlM_cons, hg]
      exact hg'
    · rw [hholds', ExprExt.holds_andSimp, hholds, List.forall_mem_cons,
        and_assoc]

theorem gamma_holds (I : Interp U) (ρ₀ ρ : Env U) {n : Nat}
    {states : Set (Nat -> Prop)}
    (h : Clause.Represents (Finset.range n) disjunctBound states e.clauses)
    (hlength : vars.length = n) :
    exists g, e.gamma vars = some g ∧ (g.Holds I ρ₀ ρ <->
      forall C, C ∈ e.clauses -> C.Holds (TrueAt I ρ₀ ρ vars)) := by
  cases hfalse : e.isFalse with
  | true =>
    refine ⟨.falseExpr, by rw [gamma, hfalse, if_pos rfl], ?_⟩
    rw [clauses, hfalse, if_pos rfl]
    simp [Clause.not_holds_empty]
  | false =>
    have hlt : forall c, c ∈ e.conjuncts -> forall i,
        i ∈ c.toClause.pos ∪ c.toClause.neg -> i < vars.length := by
      intro c hc i hi
      rw [hlength, ← Finset.mem_range]
      cases hc' : c.isTrue with
      | true =>
        rcases c.cleared hc' with ⟨hpos, hneg⟩
        simp [Disjunct.toClause, hpos, hneg] at hi
      | false =>
        have hproper := h.proper _
          ((mem_clauses hfalse).mpr ⟨c, hc, hc', rfl⟩)
        exact Finset.union_subset hproper.pos_subset hproper.neg_subset hi
    rcases foldlM_andSimp_holds I ρ₀ ρ .trueExpr hlt with ⟨g, hg, hholds⟩
    refine ⟨g, ?_, ?_⟩
    · rw [gamma, hfalse, if_neg Bool.false_ne_true]
      exact hg
    · rw [hholds]
      simp only [mem_clauses hfalse]
      constructor
      · rintro ⟨_, hall⟩ C ⟨c, hc, hc', rfl⟩
        rcases hall c hc with h | h
        · rw [hc'] at h
          cases h
        · exact h
      · intro hall
        refine ⟨Expr.holds_trueExpr, ?_⟩
        intro c hc
        cases hc' : c.isTrue with
        | true => exact Or.inl rfl
        | false => exact Or.inr (hall _ ⟨c, hc, hc', rfl⟩)

theorem trueAt_eq_trueIn {values : List Bool}
    (hvars : vars.map (fun v => v.eval I ρ₀ ρ) = values.map Value.bool) :
    TrueAt I ρ₀ ρ vars = trueIn values := by
  funext i
  apply propext
  have hi := congrArg (fun l : List (Value U) => l[i]?) hvars
  simp only [List.getElem?_map] at hi
  unfold TrueAt trueIn
  cases hvar : vars[i]? with
  | none =>
    rw [hvar, Option.map_none, eq_comm, Option.map_eq_none_iff] at hi
    simp [hi]
  | some v =>
    rw [hvar, Option.map_some, eq_comm, Option.map_eq_some_iff] at hi
    rcases hi with ⟨b, hb, hv⟩
    rw [hb]
    simp [Expr.Holds, ← hv]

end Meaning

/--
The element is the best abstraction of the joined states: its condition is the
conjunction of all clauses of at most three literals over the arguments that are
no tautologies and hold in all states, and each of the states satisfies it.
-/
theorem joinAll_best (n : Nat) (states : List (List Bool))
    (hlength : forall values, values ∈ states -> values.length = n) :
    exists e, joinAll bottom states = some e ∧
      forall {U : Type} [DecidableEq U] (I : Interp U) (ρ₀ ρ : Env U)
        (vars : List Expr), vars.length = n -> exists g, e.gamma vars = some g ∧ (g.Holds I ρ₀ ρ <->
            forall C : Clause Nat, C.Proper (Finset.range n) disjunctBound ->
              (forall values, values ∈ states -> C.Holds (trueIn values)) ->
                C.Holds (TrueAt I ρ₀ ρ vars)) ∧ forall values, values ∈ states ->
            vars.map (fun v => v.eval I ρ₀ ρ) = values.map Value.bool -> g.Holds I ρ₀ ρ := by
  rcases joinAll_represents hlength with ⟨e, he, hrepresents⟩
  refine ⟨e, he, ?_⟩
  intro U _ I ρ₀ ρ vars hvars
  rcases gamma_holds I ρ₀ ρ hrepresents hvars with
    ⟨g, hg, hholds⟩
  have hbest : g.Holds I ρ₀ ρ <->
      forall C : Clause Nat, C.Proper (Finset.range n) disjunctBound ->
        (forall values, values ∈ states -> C.Holds (trueIn values)) ->
          C.Holds (TrueAt I ρ₀ ρ vars) := by
    rw [hholds, hrepresents.holds_iff]
    constructor
    · intro hall C hproper hstates
      apply hall C hproper
      rintro w ⟨values, hvalues, rfl⟩
      exact hstates values hvalues
    · intro hall C hproper hstates
      exact hall C hproper (fun values hvalues =>
        hstates _ ⟨values, hvalues, rfl⟩)
  refine ⟨g, hg, hbest, ?_⟩
  intro values hvalues heval
  rw [hbest, trueAt_eq_trueIn heval]
  exact fun C _ hstates => hstates values hvalues

theorem joinAll_best_of_two_states :
    exists e, joinAll bottom [[true, false], [true, true]] = some e ∧
      forall {U : Type} [DecidableEq U] (I : Interp U) (ρ₀ ρ : Env U)
        (vars : List Expr), vars.length = 2 -> exists g, e.gamma vars = some g ∧ (g.Holds I ρ₀ ρ <->
            forall C : Clause Nat, C.Proper (Finset.range 2) disjunctBound ->
              (forall values, values ∈ [[true, false], [true, true]] -> C.Holds (trueIn values)) ->
                C.Holds (TrueAt I ρ₀ ρ vars)) ∧
          forall values, values ∈ [[true, false], [true, true]] ->
            vars.map (fun v => v.eval I ρ₀ ρ) = values.map Value.bool -> g.Holds I ρ₀ ρ :=
  joinAll_best 2 [[true, false], [true, true]] (by decide)

end PredicateAbsElem

end Boogie
