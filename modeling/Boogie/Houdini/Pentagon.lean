import Boogie.Houdini.NumericDomains

/-!
# Pentagons

Intervals of the arguments together with strict inequalities between them.
-/

namespace Boogie

/-- `symbolic[i]` holds the arguments that are known to be greater than the one
with index `i`. -/
structure Pentagon where
  symbolic : List (List Nat)
  intervals : IndependentAttribute Intervals
  isBottom : Bool
deriving DecidableEq, Repr

namespace Pentagon

def bottom : Pentagon :=
  ⟨[], IndependentAttribute.bottom, true⟩

def valueAt (values : List Int) (i : Nat) : Int :=
  values.getD i 0

def allSymbolic (values : List Int) : List (List Nat) :=
  (List.range values.length).map (fun i =>
    (List.range values.length).filter (fun j =>
      valueAt values i < valueAt values j))

def filterSymbolic (symbolic : List (List Nat)) (values : List Int) :
    List (List Nat) :=
  symbolic.zipIdx.map (fun p =>
    p.1.filter (fun j => valueAt values p.2 < valueAt values j))

def join (d : Pentagon) (states : List Model.Element) : Option Pentagon :=
  if d.isBottom then do
    let ret_intv ← IndependentAttribute.bottom.join Intervals.domain states
    let values ← states.mapM Model.Element.asInt
    some ⟨allSymbolic values, ret_intv, false⟩
  else do
    let ret_intv ← d.intervals.join Intervals.domain states
    let values ← states.mapM Model.Element.asInt
    some ⟨filterSymbolic d.symbolic values, ret_intv, false⟩

def pairs (d : Pentagon) : List (Nat × Nat) :=
  d.symbolic.zipIdx.flatMap (fun p => p.1.map (fun j => (p.2, j)))

def andSymbolic (d : Pentagon) (vars : List Expr) (ret : Expr) : Expr :=
  d.pairs.foldl
    (fun ret p => Expr.and ret
      (.lt (vars.getD p.1 .falseExpr) (vars.getD p.2 .falseExpr))) ret

def gamma (d : Pentagon) : Condition := fun vars =>
  if d.isBottom then some .falseExpr
  else if d.symbolic.length ≠ vars.length then none
  else do
    let intv ← d.intervals.gamma Intervals.domain vars
    some (d.andSymbolic vars (Expr.and .trueExpr intv))

/-- The inequality between the arguments with these indices is known. -/
def Less (d : Pentagon) (i j : Nat) : Prop :=
  (i, j) ∈ d.pairs

theorem less_iff {d : Pentagon} {i j : Nat} :
    d.Less i j <-> exists row, d.symbolic[i]? = some row ∧ j ∈ row := by
  unfold Less pairs
  rw [List.mem_flatMap]
  constructor
  · rintro ⟨⟨row, k⟩, hrow, hj⟩
    rcases List.mem_map.mp hj with ⟨j', hj', heq⟩
    cases heq
    exact ⟨row, List.mk_mem_zipIdx_iff_getElem?.mp hrow, hj'⟩
  · intro ⟨row, hrow, hj⟩
    exact ⟨(row, i), List.mk_mem_zipIdx_iff_getElem?.mpr hrow,
      List.mem_map.mpr ⟨j, hj, rfl⟩⟩

theorem less_allSymbolic {values : List Int}
    {intv : IndependentAttribute Intervals} {i j : Nat} :
    (Pentagon.mk (allSymbolic values) intv false).Less i j <->
      i < values.length ∧ j < values.length ∧ valueAt values i < valueAt values j := by
  rw [less_iff]
  unfold allSymbolic
  constructor
  · intro ⟨row, hrow, hj⟩
    rw [List.getElem?_map, Option.map_eq_some_iff] at hrow
    rcases hrow with ⟨k, hk, rfl⟩
    rcases List.getElem?_eq_some_iff.mp hk with ⟨hlt, hki⟩
    rw [List.getElem_range] at hki
    subst hki
    rw [List.length_range] at hlt
    rw [List.mem_filter, List.mem_range, decide_eq_true_iff] at hj
    exact ⟨hlt, hj⟩
  · intro ⟨hi, hj, hless⟩
    refine ⟨_, by rw [List.getElem?_map, List.getElem?_range hi]; rfl, ?_⟩
    rw [List.mem_filter, List.mem_range, decide_eq_true_iff]
    exact ⟨hj, hless⟩

theorem less_filterSymbolic {d : Pentagon} {values : List Int}
    {intv : IndependentAttribute Intervals} {i j : Nat} :
    (Pentagon.mk (filterSymbolic d.symbolic values) intv false).Less i j <->
      d.Less i j ∧ valueAt values i < valueAt values j := by
  rw [less_iff, less_iff]
  unfold filterSymbolic
  simp only [List.getElem?_map, List.getElem?_zipIdx, Option.map_map]
  constructor
  · intro ⟨row, hrow, hj⟩
    rcases Option.map_eq_some_iff.mp hrow with ⟨row', hrow', rfl⟩
    simp only [Function.comp_apply, Nat.zero_add, List.mem_filter,
      decide_eq_true_iff] at hj
    exact ⟨⟨row', hrow', hj.1⟩, hj.2⟩
  · intro ⟨⟨row, hrow, hj⟩, hless⟩
    rw [hrow]
    refine ⟨_, rfl, ?_⟩
    simp [hj, hless]

/-!
# The condition of an element
-/

structure HasArity (d : Pentagon) (arity : Nat) : Prop where
  intervals : d.intervals.HasArity arity
  symbolic : d.isBottom = false -> d.symbolic.length = arity
  nonempty : d.isBottom = false -> d.intervals.isBottom = false

structure Mem (d : Pentagon) (values : List Int) : Prop where
  nonempty : d.isBottom = false
  intervals : d.intervals.Mem values
  symbolic : forall i j, d.Less i j -> valueAt values i < valueAt values j

theorem toInt_getD {U : Type} [DecidableEq U] {I : Interp U} {ρ₀ ρ : Env U}
    (vars : List Expr) (i : Nat) :
    ((vars.getD i .falseExpr).eval I ρ₀ ρ).toInt =
      valueAt (vars.map (fun v => (v.eval I ρ₀ ρ).toInt)) i := by
  rw [valueAt, List.getD_eq_getElem?_getD, List.getD_eq_getElem?_getD,
    List.getElem?_map]
  cases vars[i]? with
  | none => simp [Expr.falseExpr, Literal.value, Value.toInt]
  | some v => rfl

theorem gamma_denotes {d : Pentagon} {arity : Nat} (h : d.HasArity arity) :
    d.gamma.Denotes d.Mem := by
  intro U _ I ρ₀ ρ vars
  cases hbottom : d.isBottom with
  | true =>
    constructor
    · intro ⟨e, he, hholds⟩
      rw [gamma, if_pos hbottom] at he
      cases he
      exact absurd hholds Expr.not_holds_falseExpr
    · intro hmem
      rw [hmem.nonempty] at hbottom
      cases hbottom
  | false =>
    have hinner := IndependentAttribute.gamma_denotes h.intervals I ρ₀ ρ vars
    constructor
    · intro ⟨e, he, hholds⟩
      simp only [gamma, hbottom, Bool.false_eq_true, if_false] at he
      split at he
      · cases he
      · rcases Option.bind_eq_some_iff.mp he with ⟨intv, hintv, he⟩
        cases he
        rw [andSymbolic, Expr.holds_foldl_and, Expr.holds_and] at hholds
        refine ⟨hbottom, hinner.mp ⟨intv, hintv, hholds.1.2⟩, ?_⟩
        intro i j hless
        have hlt := hholds.2 (i, j) hless
        rwa [Expr.holds_lt, toInt_getD, toInt_getD] at hlt
    · intro hmem
      rcases hinner.mpr hmem.intervals with ⟨intv, hintv, hholds⟩
      have hlength : d.symbolic.length = vars.length := by
        have hvars := hmem.intervals.2.length_eq
        rw [List.length_map] at hvars
        rw [h.symbolic hbottom, ← hvars]
        rcases h.intervals with hempty | harity
        · rw [hmem.intervals.1] at hempty
          cases hempty
        · exact harity.2.symm
      refine ⟨d.andSymbolic vars (Expr.and .trueExpr intv), ?_, ?_⟩
      · simp only [gamma, hbottom, Bool.false_eq_true, if_false, hlength,
          ne_eq, not_true_eq_false, hintv]
        rfl
      · rw [andSymbolic, Expr.holds_foldl_and, Expr.holds_and]
        refine ⟨⟨Expr.holds_trueExpr, hholds⟩, ?_⟩
        intro p hp
        rw [Expr.holds_lt, toInt_getD, toInt_getD]
        exact hmem.symbolic p.1 p.2 hp

/-!
# Joins
-/

def previous (d : Pentagon) : IndependentAttribute Intervals :=
  if d.isBottom then IndependentAttribute.bottom else d.intervals

structure Extends (d d' : Pentagon) {arity : Nat} (state : IntState arity) :
    Prop where
  joined : d.join state.elements = some d'
  nonempty : d'.isBottom = false
  intervals : d.previous.Extends d'.intervals state
  symbolic : d'.symbolic.length = arity
  later : d.isBottom = false ->
    d'.symbolic = filterSymbolic d.symbolic state.values
  less : forall i j, d'.Less i j <->
    (if d.isBottom then i < arity ∧ j < arity else d.Less i j) ∧
      valueAt state.values i < valueAt state.values j

section Step

variable {arity : Nat} {d d' : Pentagon} {state : IntState arity}

theorem mapM_elements : state.elements.mapM Model.Element.asInt = some state.values :=
  IntState.mapM_asInt state.inRange

theorem exists_extends (h : d.HasArity arity) (state : IntState arity) :
    exists d', d.Extends d' state := by
  have hprevious : d.previous.HasArity arity := by
    unfold previous
    split
    · exact Or.inl rfl
    · exact h.intervals
  rcases IndependentAttribute.exists_extends hprevious state with ⟨intv, hintv⟩
  have hjoined := hintv.joined
  cases hbottom : d.isBottom with
  | true =>
    refine ⟨⟨allSymbolic state.values, intv, false⟩, ?_, rfl, hintv, ?_,
      by simp [hbottom], ?_⟩
    · rw [previous, if_pos hbottom] at hjoined
      rw [join, if_pos hbottom, hjoined, Option.bind_eq_bind,
        Option.bind_some, mapM_elements]
      rfl
    · rw [allSymbolic, List.length_map, List.length_range, state.length_eq]
    · intro i j
      rw [less_allSymbolic, if_pos hbottom, state.length_eq, and_assoc]
  | false =>
    have hneg : ¬ d.isBottom = true := by simp [hbottom]
    refine ⟨⟨filterSymbolic d.symbolic state.values, intv, false⟩, ?_, rfl,
      hintv, ?_, fun _ => rfl, ?_⟩
    · rw [previous, if_neg hneg] at hjoined
      rw [join, if_neg hneg, hjoined, Option.bind_eq_bind, Option.bind_some,
        mapM_elements]
      rfl
    · rw [filterSymbolic, List.length_map, List.length_zipIdx,
        h.symbolic hbottom]
    · intro i j
      rw [less_filterSymbolic, if_neg hneg]

theorem Extends.hasArity (h : d.Extends d' state) : d'.HasArity arity :=
  ⟨h.intervals.hasArity, fun _ => h.symbolic, fun _ => h.intervals.nonempty⟩

theorem Extends.mem (h : d.Extends d' state) : d'.Mem state.values :=
  ⟨h.nonempty, h.intervals.mem, fun i j hless => ((h.less i j).mp hless).2⟩

theorem Extends.mem_of_mem (h : d.Extends d' state) {values : List Int}
    (hmem : d.Mem values) : d'.Mem values := by
  have hneg : ¬ d.isBottom = true := by simp [hmem.nonempty]
  have hintv := h.intervals
  rw [previous, if_neg hneg] at hintv
  refine ⟨h.nonempty, hintv.mem_of_mem hmem.intervals, ?_⟩
  intro i j hless
  have hold := ((h.less i j).mp hless).1
  rw [if_neg hneg] at hold
  exact hmem.symbolic i j hold

end Step

structure After {arity : Nat} (history : List (IntState arity))
    (d : Pentagon) : Prop where
  hasArity : d.HasArity arity
  isBottom : d.isBottom = true <-> history = []
  less : d.isBottom = false -> forall i j, d.Less i j <->
    (i < arity ∧ j < arity) ∧ forall state, state ∈ history ->
      valueAt state.values i < valueAt state.values j

theorem after_bottom {arity : Nat} :
    After ([] : List (IntState arity)) bottom where
  hasArity := ⟨Or.inl rfl, by simp [bottom], by simp [bottom]⟩
  isBottom := by simp [bottom]
  less := by simp [bottom]

theorem After.step {arity : Nat} {history : List (IntState arity)}
    {d d' : Pentagon} {state : IntState arity} (hafter : After history d)
    (h : d.Extends d' state) : After (history ++ [state]) d' where
  hasArity := h.hasArity
  isBottom := by simp [h.nonempty]
  less := by
    intro _ i j
    rw [h.less i j, List.forall_mem_append, List.forall_mem_singleton]
    cases hbottom : d.isBottom with
    | true =>
      rw [hafter.isBottom.mp hbottom]
      simp
    | false =>
      rw [if_neg (by simp), hafter.less hbottom i j, and_assoc]

theorem joinsSoundly (arity : Nat) :
    JoinsSoundly join gamma (@After arity) (fun _ => True) := by
  intro history d state hafter _
  rcases exists_extends hafter.hasArity state with ⟨d', h⟩
  have hdenotes : d.gamma.Denotes d.Mem := gamma_denotes hafter.hasArity
  have hdenotes' : d'.gamma.Denotes d'.Mem := gamma_denotes h.hasArity
  exact ⟨d', h.joined, hafter.step h, hdenotes'.satisfiedBy h.mem,
    hdenotes.implies hdenotes' (fun _ hmem => h.mem_of_mem hmem)⟩

/-- After the joins the inequalities are those that hold in all states, the condition
says that the values are in the intervals and satisfy the inequalities, every
state satisfies it, and the earlier conditions imply it. -/
theorem exact_and_sound (arity : Nat) (states : List (IntState arity)) (hne : states ≠ []) :
    exists d, joinAll join bottom states = some d ∧ (forall i j, d.Less i j <->
        (i < arity ∧ j < arity) ∧ forall state, state ∈ states ->
          valueAt state.values i < valueAt state.values j) ∧
      d.gamma.Denotes d.Mem ∧
      (forall state, state ∈ states -> d.gamma.SatisfiedBy state.values) ∧
      forall earlier later, states = earlier ++ later ->
        exists e, joinAll join bottom earlier = some e ∧ e.gamma.Implies d.gamma := by
  have hallowed : forall (l : List (IntState arity)) (state : IntState arity),
      state ∈ l -> True := fun _ _ _ => trivial
  rcases (joinsSoundly arity).run [] after_bottom (hallowed states) with
    ⟨d, hrun, hafter, hstates, _⟩
  have hnonempty : d.isBottom = false := by
    cases hbottom : d.isBottom with
    | false => rfl
    | true => exact absurd (hafter.isBottom.mp hbottom) hne
  refine ⟨d, hrun, hafter.less hnonempty, gamma_denotes hafter.hasArity, hstates, ?_⟩
  intro earlier later hsplit
  subst hsplit
  exact (joinsSoundly arity).run_of_append after_bottom (hallowed _) hrun

/-- Two states that agree on one inequality only. -/
theorem exact_and_sound_two :
    exists d, joinAll join bottom
        [(⟨[1, 2, 3], rfl, by decide⟩ : IntState 3), ⟨[4, 6, 5], rfl, by decide⟩] = some d ∧
      d.Less 0 1 ∧ d.Less 0 2 ∧ ¬ d.Less 1 2 := by
  rcases exact_and_sound 3
    [⟨[1, 2, 3], rfl, by decide⟩, ⟨[4, 6, 5], rfl, by decide⟩] (by simp) with
    ⟨d, hrun, hless, _, _, _⟩
  refine ⟨d, hrun, ?_, ?_, ?_⟩
  · rw [hless]
    decide
  · rw [hless]
    decide
  · rw [hless]
    decide

end Pentagon

end Boogie
