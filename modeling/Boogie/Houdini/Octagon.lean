import Boogie.Houdini.NumericDomains

/-!
# Octagons

Intervals of the arguments together with bounds for the differences and sums of
any two of them.  The differences and sums of a state are computed with 32 bits.
-/

namespace Boogie

def orderedPairs {A : Type*} : List A -> List (A × A)
  | [] => []
  | x :: xs => xs.map (fun y => (x, y)) ++ orderedPairs xs

theorem length_orderedPairs {A : Type*} (xs : List A) :
    2 * (orderedPairs xs).length = xs.length * xs.length - xs.length := by
  induction xs with
  | nil => rfl
  | cons x xs ih =>
    have hsquare : (xs.length + 1) * (xs.length + 1) =
        xs.length * xs.length + 2 * xs.length + 1 := by
      rw [Nat.succ_mul, Nat.mul_succ]
      omega
    have hle : xs.length ≤ xs.length * xs.length := Nat.le_mul_self _
    rw [orderedPairs, List.length_append, List.length_map, Nat.mul_add, ih,
      List.length_cons, hsquare]
    omega

theorem orderedPairs_map {A B : Type*} (f : A -> B) (xs : List A) :
    orderedPairs (xs.map f) = (orderedPairs xs).map (Prod.map f f) := by
  induction xs with
  | nil => rfl
  | cons x xs ih =>
    simp only [orderedPairs, List.map_cons, ih, List.map_append, List.map_map]
    rfl

structure Octagon where
  intervals : IndependentAttribute Intervals
  octagons : List (Int × Int)
  octagons_njoins : List Nat
  isBottom : Bool
deriving DecidableEq, Repr

namespace Octagon

open MachineInt (minValue maxValue wrap InRange)

def maxJoin : Nat := 5

def bottom : Octagon :=
  ⟨IndependentAttribute.bottom, [], [], true⟩

def terms (values : List Int) : List Int :=
  (orderedPairs values).flatMap (fun p => [p.1 - p.2, p.1 + p.2])

def statesOct (values : List Int) : List (Int × Int) :=
  (terms values).map (fun t => (wrap t, wrap t))

def joinBound (oct : Int × Int) (njoins : Nat) (state : Int × Int) :
    (Int × Int) × Nat :=
  if maxJoin ≤ njoins then
    ((if oct.1 ≤ state.1 then oct.1 else minValue,
      if state.2 ≤ oct.2 then oct.2 else maxValue), maxJoin)
  else
    ((if oct.1 ≤ state.1 then oct.1 else state.1,
      if state.2 ≤ oct.2 then oct.2 else state.2),
      if oct.1 ≤ state.1 ∧ state.2 ≤ oct.2 then njoins else njoins + 1)

def joinBounds (octagons : List (Int × Int)) (njoins : List Nat)
    (states : List (Int × Int)) : List ((Int × Int) × Nat) :=
  ((octagons.zip njoins).zip states).map (fun p => joinBound p.1.1 p.1.2 p.2)

def joinOct (d : Octagon) (ret_intv : IndependentAttribute Intervals)
    (states_oct : List (Int × Int)) : Octagon :=
  let ret := joinBounds d.octagons d.octagons_njoins states_oct
  ⟨ret_intv, ret.map Prod.fst, ret.map Prod.snd, false⟩

def join (d : Octagon) (states : List Model.Element) : Option Octagon := do
  let values ← states.mapM Model.Element.asInt
  let states_oct := statesOct values
  if d.isBottom then
    let ret_intv ← IndependentAttribute.bottom.join Intervals.domain states
    some ⟨ret_intv, states_oct, List.replicate states_oct.length 0, false⟩
  else
    let ret_intv ← d.intervals.join Intervals.domain states
    if d.octagons.length ≠ states_oct.length ∨
        d.octagons_njoins.length ≠ states_oct.length then none
    else some (d.joinOct ret_intv states_oct)

def preds (vars : List Expr) : List Expr :=
  (orderedPairs vars).flatMap (fun p => [Expr.sub p.1 p.2, Expr.add p.1 p.2])

def andBound (ret : Expr) (oct : Int × Int) (pred : Expr) : Expr :=
  let ret :=
    if minValue < oct.1 then Expr.and ret (.le (.intLiteral oct.1) pred)
    else ret
  if oct.2 < maxValue then Expr.and ret (.le pred (.intLiteral oct.2)) else ret

def andBounds (d : Octagon) (vars : List Expr) (ret : Expr) : Expr :=
  (d.octagons.zip (preds vars)).foldl (fun ret p => andBound ret p.1 p.2) ret

def gamma (d : Octagon) : Condition := fun vars =>
  if d.isBottom then some .falseExpr
  else
    let argsCount := vars.length * vars.length - vars.length
    if d.octagons.length ≠ argsCount ∨ d.octagons_njoins.length ≠ argsCount then
      none
    else do
      let intv ← d.intervals.gamma Intervals.domain vars
      some (d.andBounds vars (Expr.and .trueExpr intv))

/-!
# The condition of an element
-/

/-- Both ends of the range of `int` stand for infinity. -/
structure BoundMem (oct : Int × Int) (z : Int) : Prop where
  lower : minValue < oct.1 -> oct.1 ≤ z
  upper : oct.2 < maxValue -> z ≤ oct.2

structure Mem (d : Octagon) (values : List Int) : Prop where
  nonempty : d.isBottom = false
  intervals : d.intervals.Mem values
  octagons : List.Forall₂ BoundMem d.octagons (terms values)

theorem length_terms (values : List Int) :
    (terms values).length = values.length * values.length - values.length := by
  rw [← length_orderedPairs, terms, List.length_flatMap]
  simp [Nat.mul_comm]

section Holds

variable {U : Type} [DecidableEq U] {I : Interp U} {ρ₀ ρ : Env U}

theorem map_toInt_preds (vars : List Expr) :
    (preds vars).map (fun e => (e.eval I ρ₀ ρ).toInt) =
      terms (vars.map (fun v => (v.eval I ρ₀ ρ).toInt)) := by
  rw [preds, terms, orderedPairs_map, List.map_flatMap, List.flatMap_map]
  simp [Expr.toInt_sub, Expr.toInt_add]

theorem holds_andBound {ret pred : Expr} {oct : Int × Int} :
    (andBound ret oct pred).Holds I ρ₀ ρ <->
      ret.Holds I ρ₀ ρ ∧ BoundMem oct (pred.eval I ρ₀ ρ).toInt := by
  have hlower : Expr.Holds I ρ₀ ρ
      (if minValue < oct.1 then Expr.and ret (.le (.intLiteral oct.1) pred)
        else ret) <->
      ret.Holds I ρ₀ ρ ∧
        (minValue < oct.1 -> oct.1 ≤ (pred.eval I ρ₀ ρ).toInt) := by
    split
    · next h =>
        rw [Expr.holds_and, Expr.holds_le_iff, Expr.toInt_intLiteral]
        simp [h]
    · next h => simp [h]
  unfold andBound
  dsimp only
  constructor
  · intro h
    split at h
    · next hupper =>
        rw [Expr.holds_and, hlower, Expr.holds_le] at h
        exact ⟨h.1.1, h.1.2, fun _ => h.2⟩
    · next hupper =>
        rw [hlower] at h
        exact ⟨h.1, h.2, fun hlt => absurd hlt hupper⟩
  · rintro ⟨hret, hmem⟩
    split
    · next hupper =>
        rw [Expr.holds_and, hlower, Expr.holds_le]
        exact ⟨⟨hret, hmem.lower⟩, hmem.upper hupper⟩
    · rw [hlower]
      exact ⟨hret, hmem.lower⟩

theorem holds_foldl_andBound {octagons : List (Int × Int)} {es : List Expr}
    (hlength : octagons.length = es.length) {ret : Expr} :
    ((octagons.zip es).foldl (fun ret p => andBound ret p.1 p.2) ret).Holds I ρ₀ ρ <->
      ret.Holds I ρ₀ ρ ∧ List.Forall₂ BoundMem octagons
        (es.map (fun e => (e.eval I ρ₀ ρ).toInt)) := by
  induction octagons generalizing es ret with
  | nil =>
    cases es with
    | nil => simp
    | cons e es => cases hlength
  | cons oct octagons ih =>
    cases es with
    | nil => cases hlength
    | cons e es =>
      rw [List.zip_cons_cons, List.foldl_cons, ih (Nat.succ.inj hlength),
        holds_andBound, List.map_cons, List.forall₂_cons, and_assoc]

end Holds

structure HasArity (d : Octagon) (arity : Nat) : Prop where
  intervals : d.intervals.HasArity arity
  octagons : d.isBottom = false ->
    d.octagons.length = arity * arity - arity
  njoins : d.isBottom = false ->
    d.octagons_njoins.length = arity * arity - arity

theorem gamma_denotes {d : Octagon} {arity : Nat} (h : d.HasArity arity) :
    d.gamma.Denotes d.Mem := by
  intro U _ I ρ₀ ρ vars
  cases hbottom : d.isBottom with
  | true =>
    constructor
    · intro ⟨e, he, hholds⟩
      rw [gamma, if_pos hbottom] at he
      cases he
      exact absurd hholds Expr.not_holds_falseExpr
    · intro hmem
      rw [hmem.nonempty] at hbottom
      cases hbottom
  | false =>
    have hinner := IndependentAttribute.gamma_denotes h.intervals I ρ₀ ρ vars
    have hpreds : (preds vars).length =
        vars.length * vars.length - vars.length := by
      have hterms := congrArg List.length
        (@map_toInt_preds U _ I ρ₀ ρ vars)
      rwa [List.length_map, length_terms, List.length_map] at hterms
    constructor
    · intro ⟨e, he, hholds⟩
      simp only [gamma, hbottom, Bool.false_eq_true, if_false] at he
      split at he
      · cases he
      · next hcount =>
          rw [not_or, not_not, not_not] at hcount
          rcases Option.bind_eq_some_iff.mp he with ⟨intv, hintv, he⟩
          cases he
          rw [andBounds, holds_foldl_andBound (hcount.1.trans hpreds.symm),
            Expr.holds_and, map_toInt_preds] at hholds
          exact ⟨hbottom, hinner.mp ⟨intv, hintv, hholds.1.2⟩, hholds.2⟩
    · intro hmem
      rcases hinner.mpr hmem.intervals with ⟨intv, hintv, hholds⟩
      have hoct : d.octagons.length =
          vars.length * vars.length - vars.length := by
        rw [hmem.octagons.length_eq, length_terms, List.length_map]
      have hcount : ¬ (d.octagons.length ≠
            vars.length * vars.length - vars.length ∨
          d.octagons_njoins.length ≠
            vars.length * vars.length - vars.length) := by
        rw [not_or, not_not, not_not]
        exact ⟨hoct, (h.njoins hbottom).trans
          ((h.octagons hbottom).symm.trans hoct)⟩
      refine ⟨d.andBounds vars (Expr.and .trueExpr intv), ?_, ?_⟩
      · simp only [gamma, hbottom, Bool.false_eq_true, if_false]
        rw [if_neg hcount, hintv]
        rfl
      · rw [andBounds, holds_foldl_andBound (hoct.trans hpreds.symm),
          Expr.holds_and, map_toInt_preds]
        exact ⟨⟨Expr.holds_trueExpr, hholds⟩, hmem.octagons⟩

/-!
# One bound
-/

section Bound

variable (oct : Int × Int) (njoins : Nat) {t : Int}

theorem boundMem_wrap (h : InRange t) : BoundMem (wrap t, wrap t) t := by
  rw [MachineInt.wrap_eq h]
  exact ⟨fun _ => le_refl t, fun _ => le_refl t⟩

theorem boundMem_joinBound {s : Int} :
    BoundMem (joinBound oct njoins (s, s)).1 s := by
  constructor
  · intro hlower
    unfold joinBound at hlower ⊢
    split_ifs at hlower ⊢ <;> dsimp only at hlower ⊢ <;> omega
  · intro hupper
    unfold joinBound at hupper ⊢
    split_ifs at hupper ⊢ <;> dsimp only at hupper ⊢ <;> omega

theorem boundMem_joinBound_of_boundMem {z s : Int} (hs : InRange s)
    (h : BoundMem oct z) : BoundMem (joinBound oct njoins (s, s)).1 z := by
  have hlow := h.lower
  have hup := h.upper
  unfold InRange at hs
  constructor
  · intro hlower
    unfold joinBound at hlower ⊢
    split_ifs at hlower ⊢ <;> dsimp only at hlower ⊢ <;> omega
  · intro hupper
    unfold joinBound at hupper ⊢
    split_ifs at hupper ⊢ <;> dsimp only at hupper ⊢ <;> omega

def boundLeft (b : (Int × Int) × Nat) : Nat :=
  (if b.1.1 = minValue then 0 else 1) + (if b.1.2 = maxValue then 0 else 1) +
    (maxJoin - b.2)

theorem boundLeft_joinBound {s : Int} (hs : InRange s) :
    ((joinBound oct njoins (s, s)).1 = oct ∧
      boundLeft (joinBound oct njoins (s, s)) = boundLeft (oct, njoins)) ∨
    boundLeft (joinBound oct njoins (s, s)) < boundLeft (oct, njoins) := by
  by_cases hin : oct.1 ≤ s ∧ s ≤ oct.2
  · apply Or.inl
    unfold joinBound boundLeft
    split
    · next hmax =>
        simp only [hin.1, hin.2, if_true, true_and]
        omega
    · next hmax => simp [hin.1, hin.2]
  · apply Or.inr
    unfold InRange at hs
    have hwidth : minValue < maxValue := by decide
    unfold joinBound boundLeft
    split
    · next hmax =>
        dsimp only
        split_ifs <;> omega
    · next hmax =>
        dsimp only
        split_ifs <;> omega

end Bound

/-!
# Joins
-/

inductive Joined : List ((Int × Int) × Nat) -> List Int ->
    List ((Int × Int) × Nat) -> Prop where
  | nil : Joined [] [] []
  | cons {b : (Int × Int) × Nat} {t : Int} {bs bs' : List ((Int × Int) × Nat)}
      {ts : List Int} : Joined bs ts bs' ->
        Joined (b :: bs) (t :: ts) (joinBound b.1 b.2 (wrap t, wrap t) :: bs')

theorem joined_joinBounds {octagons : List (Int × Int)} {njoins : List Nat}
    {ts : List Int} (hoct : octagons.length = ts.length) (hnj : njoins.length = ts.length) :
    Joined (octagons.zip njoins) ts
      (joinBounds octagons njoins (ts.map (fun t => (wrap t, wrap t)))) := by
  induction octagons generalizing njoins ts with
  | nil =>
    cases ts with
    | nil => exact Joined.nil
    | cons t ts => cases hoct
  | cons oct octagons ih =>
    cases ts with
    | nil => cases hoct
    | cons t ts =>
      cases njoins with
      | nil => cases hnj
      | cons n njoins =>
        exact Joined.cons (ih (Nat.succ.inj hoct) (Nat.succ.inj hnj))

namespace Joined

variable {bs bs' : List ((Int × Int) × Nat)} {ts : List Int}

theorem length_eq (h : Joined bs ts bs') : bs'.length = ts.length := by
  induction h with
  | nil => rfl
  | cons _ ih => rw [List.length_cons, List.length_cons, ih]

theorem mem (h : Joined bs ts bs') (hts : forall t, t ∈ ts -> InRange t) :
    List.Forall₂ BoundMem (bs'.map Prod.fst) ts := by
  induction h with
  | nil => exact List.Forall₂.nil
  | @cons b t bs bs' ts _ ih =>
    have ht := hts t List.mem_cons_self
    have hmem : BoundMem (joinBound b.1 b.2 (wrap t, wrap t)).1 t := by
      rw [MachineInt.wrap_eq ht]
      exact boundMem_joinBound b.1 b.2
    exact List.Forall₂.cons hmem
      (ih (fun u hu => hts u (List.mem_cons_of_mem t hu)))

theorem mem_of_mem (h : Joined bs ts bs') {zs : List Int}
    (hmem : List.Forall₂ BoundMem (bs.map Prod.fst) zs) :
    List.Forall₂ BoundMem (bs'.map Prod.fst) zs := by
  induction h generalizing zs with
  | nil => exact hmem
  | @cons b t bs bs' ts _ ih =>
    cases hmem with
    | cons hhead htail =>
      exact List.Forall₂.cons
        (boundMem_joinBound_of_boundMem b.1 b.2
          (MachineInt.inRange_wrap t) hhead) (ih htail)

theorem boundLeft (h : Joined bs ts bs') :
    (bs'.map Prod.fst = bs.map Prod.fst ∧
      (bs'.map Octagon.boundLeft).sum = (bs.map Octagon.boundLeft).sum) ∨
    (bs'.map Octagon.boundLeft).sum < (bs.map Octagon.boundLeft).sum := by
  induction h with
  | nil => exact Or.inl ⟨rfl, rfl⟩
  | @cons b t bs bs' ts _ ih =>
    simp only [List.map_cons, List.sum_cons]
    rcases boundLeft_joinBound b.1 b.2 (MachineInt.inRange_wrap t) with
      ⟨hsame, hleft⟩ | hless
    · rcases ih with ⟨ih, hsum⟩ | ih
      · exact Or.inl ⟨by rw [hsame, ih], by rw [hleft, hsum]⟩
      · exact Or.inr (by rw [hleft]; exact Nat.add_lt_add_left ih _)
    · apply Or.inr
      rcases ih with ⟨_, hsum⟩ | ih
      · rw [hsum]
        exact Nat.add_lt_add_right hless _
      · exact Nat.add_lt_add hless ih

end Joined

def previous (d : Octagon) : IndependentAttribute Intervals :=
  if d.isBottom then IndependentAttribute.bottom else d.intervals

structure Extends (d d' : Octagon) {arity : Nat} (state : IntState arity) :
    Prop where
  joined : d.join state.elements = some d'
  nonempty : d'.isBottom = false
  intervals : d.previous.Extends d'.intervals state
  njoins : d'.octagons_njoins.length = d'.octagons.length
  first : d.isBottom = true -> d'.octagons = statesOct state.values
  later : d.isBottom = false -> Joined (d.octagons.zip d.octagons_njoins)
    (terms state.values) (d'.octagons.zip d'.octagons_njoins)

section Step

variable {arity : Nat} {d d' : Octagon} {state : IntState arity}

theorem zip_map_fst_snd {A B : Type*} (l : List (A × B)) :
    (l.map Prod.fst).zip (l.map Prod.snd) = l := by
  induction l with
  | nil => rfl
  | cons p l ih => rw [List.map_cons, List.map_cons, List.zip_cons_cons, ih]

theorem exists_extends (h : d.HasArity arity) (state : IntState arity) :
    exists d', d.Extends d' state := by
  have hprevious : d.previous.HasArity arity := by
    unfold previous
    split
    · exact Or.inl rfl
    · exact h.intervals
  rcases IndependentAttribute.exists_extends hprevious state with ⟨intv, hintv⟩
  have hjoined := hintv.joined
  have hvalues := IntState.mapM_asInt state.inRange
  cases hbottom : d.isBottom with
  | true =>
    refine ⟨⟨intv, statesOct state.values,
      List.replicate (statesOct state.values).length 0, false⟩, ?_, rfl, hintv,
      List.length_replicate, fun _ => rfl, fun hd => ?_⟩
    · rw [previous, if_pos hbottom] at hjoined
      rw [join, IntState.elements, hvalues]
      simp only [Option.bind_eq_bind, Option.bind_some, hbottom, if_true]
      rw [← IntState.elements, hjoined]
      rfl
    · rw [hbottom] at hd
      cases hd
  | false =>
    have hlength : (terms state.values).length = arity * arity - arity := by
      rw [length_terms, state.length_eq]
    have hoct := (h.octagons hbottom).trans hlength.symm
    have hnj := (h.njoins hbottom).trans hlength.symm
    have hret := joined_joinBounds hoct hnj
    have hneg : ¬ d.isBottom = true := by simp [hbottom]
    rw [previous, if_neg hneg] at hjoined
    refine ⟨d.joinOct intv (statesOct state.values), ?_, rfl, hintv,
      by simp [joinOct], fun hd => absurd hd hneg, fun _ => ?_⟩
    · have hcount : ¬ (d.octagons.length ≠ (statesOct state.values).length ∨
          d.octagons_njoins.length ≠ (statesOct state.values).length) := by
        rw [not_or, not_not, not_not, statesOct, List.length_map]
        exact ⟨hoct, hnj⟩
      rw [join, IntState.elements, hvalues]
      simp only [Option.bind_eq_bind, Option.bind_some, hbottom,
        Bool.false_eq_true, if_false]
      rw [← IntState.elements, hjoined, Option.bind_some, if_neg hcount]
    · show Joined _ _ (List.zip (List.map Prod.fst _) (List.map Prod.snd _))
      rw [zip_map_fst_snd]
      exact hret

theorem Extends.length_octagons (h : d.Extends d' state) :
    d'.octagons.length = arity * arity - arity := by
  have hterms : (terms state.values).length = arity * arity - arity := by
    rw [length_terms, state.length_eq]
  cases hbottom : d.isBottom with
  | true => rw [h.first hbottom, statesOct, List.length_map, hterms]
  | false =>
    have hlength := (h.later hbottom).length_eq
    rwa [List.length_zip, h.njoins, Nat.min_self, hterms] at hlength

theorem Extends.hasArity (h : d.Extends d' state) : d'.HasArity arity :=
  ⟨h.intervals.hasArity, fun _ => h.length_octagons,
    fun _ => h.njoins.trans h.length_octagons⟩

theorem map_fst_zip_njoins (h : d.HasArity arity) (hbottom : d.isBottom = false) :
    (d.octagons.zip d.octagons_njoins).map Prod.fst = d.octagons :=
  List.map_fst_zip (le_of_eq ((h.octagons hbottom).trans (h.njoins hbottom).symm))

/-- No difference or sum of two arguments leaves the range of `int`. -/
def NoOverflow (state : IntState arity) : Prop :=
  forall t, t ∈ terms state.values -> InRange t

theorem Extends.mem (h : d.Extends d' state) (hover : NoOverflow state) :
    d'.Mem state.values := by
  refine ⟨h.nonempty, h.intervals.mem, ?_⟩
  cases hbottom : d.isBottom with
  | true =>
    rw [h.first hbottom, statesOct, List.forall₂_map_left_iff,
      List.forall₂_same]
    exact fun t ht => boundMem_wrap (hover t ht)
  | false =>
    have hmem := (h.later hbottom).mem hover
    rwa [map_fst_zip_njoins h.hasArity h.nonempty] at hmem

theorem Extends.mem_of_mem (h : d.Extends d' state) (hd : d.HasArity arity)
    {values : List Int} (hmem : d.Mem values) : d'.Mem values := by
  have hneg : ¬ d.isBottom = true := by simp [hmem.nonempty]
  have hintv := h.intervals
  rw [previous, if_neg hneg] at hintv
  refine ⟨h.nonempty, hintv.mem_of_mem hmem.intervals, ?_⟩
  have hoct := hmem.octagons
  rw [← map_fst_zip_njoins hd hmem.nonempty] at hoct
  have hoct' := (h.later hmem.nonempty).mem_of_mem hoct
  rwa [map_fst_zip_njoins h.hasArity h.nonempty] at hoct'

end Step

theorem bottom_hasArity (arity : Nat) : bottom.HasArity arity :=
  ⟨Or.inl rfl, by simp [bottom], by simp [bottom]⟩

theorem joinsSoundly (arity : Nat) :
    JoinsSoundly join gamma (fun (_ : List (IntState arity)) d => d.HasArity arity) NoOverflow := by
  intro history d state hd hover
  rcases exists_extends hd state with ⟨d', h⟩
  have hdenotes : d.gamma.Denotes d.Mem := gamma_denotes hd
  have hdenotes' : d'.gamma.Denotes d'.Mem := gamma_denotes h.hasArity
  exact ⟨d', h.joined, h.hasArity, hdenotes'.satisfiedBy (h.mem hover),
    hdenotes.implies hdenotes' (fun _ hmem => h.mem_of_mem hd hmem)⟩

/-- After the joins every state satisfies the condition, and the conditions
before imply it. -/
def Sound {arity : Nat} (states : List (IntState arity)) : Prop :=
  exists d, joinAll join bottom states = some d ∧
    (forall state, state ∈ states -> d.gamma.SatisfiedBy state.values) ∧
    forall earlier later, states = earlier ++ later ->
      exists e, joinAll join bottom earlier = some e ∧ e.gamma.Implies d.gamma

theorem sound_of_noOverflow (arity : Nat) (states : List (IntState arity))
    (h : forall state, state ∈ states -> NoOverflow state) : Sound states := by
  rcases (joinsSoundly arity).run [] (bottom_hasArity arity) h with
    ⟨d, hrun, _, hstates, _⟩
  refine ⟨d, hrun, hstates, ?_⟩
  intro earlier later hsplit
  subst hsplit
  exact (joinsSoundly arity).run_of_append (bottom_hasArity arity) h hrun

theorem sound_of_noOverflow_two : Sound
    [(⟨[1, 2], rfl, by decide⟩ : IntState 2), ⟨[5, -3], rfl, by decide⟩] :=
  sound_of_noOverflow 2 _ (by unfold NoOverflow; decide)

/-- The difference `2147483647 - (-1)` is computed as `-2147483648`. -/
theorem not_sound_of_overflow :
    ¬ forall (arity : Nat) (states : List (IntState arity)), Sound states := by
  intro h
  let state : IntState 2 := ⟨[2147483647, -1], rfl, by decide⟩
  rcases h 2 [state] with ⟨d, hrun, hstates, _⟩
  rcases exists_extends (bottom_hasArity 2) state with ⟨d', hd'⟩
  have hsame : d' = d := by
    have hjoin : joinAll join bottom [state] = join bottom state.elements := by
      show (join bottom state.elements).bind _ = _
      exact Option.bind_fun_some _
    rw [hjoin, hd'.joined] at hrun
    exact Option.some.inj hrun
  subst hsame
  have hdenotes : d'.gamma.Denotes d'.Mem := gamma_denotes hd'.hasArity
  have hmem := hdenotes.mem_of_satisfiedBy (hstates state List.mem_cons_self)
  have hoct := hmem.octagons
  rw [hd'.first rfl] at hoct
  -- the bound of the difference is the wrapped result
  have hdifference : BoundMem (-2147483648, -2147483648) 2147483648 := by
    cases hoct with
    | cons hhead _ => exact hhead
  exact absurd (hdifference.upper (by decide)) (by decide)

end Octagon

end Boogie
