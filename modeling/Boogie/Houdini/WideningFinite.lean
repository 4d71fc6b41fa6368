import Boogie.Foundation.Stabilization
import Boogie.Houdini.Octagon
import Boogie.Houdini.Pentagon

/-!
# Widening

Whatever states are joined, the condition of an element changes finitely often.
Every change lowers a number: the widenings that a bound has left, and for
pentagons the inequalities that are left.
-/

namespace Boogie

/-- The elements that a sequence of states leads to; an element stays as it is
where `Join` throws. -/
def joinSequence {D : Type} (join : D -> List Model.Element -> Option D)
    {arity : Nat} (bottom : D) (states : Nat -> IntState arity) : Nat -> D
  | 0 => bottom
  | n + 1 =>
    let d := joinSequence join bottom states n
    (join d (states n).elements).getD d

/-- No `Join` of the sequence throws, and the conditions are the same from some
element on. -/
def Settles {D : Type} (join : D -> List Model.Element -> Option D)
    (gamma : D -> Condition) {arity : Nat} (bottom : D)
    (states : Nat -> IntState arity) : Prop :=
  let d := joinSequence join bottom states
  (forall n, join (d n) (states n).elements = some (d (n + 1))) ∧
    exists N, forall n, N ≤ n -> gamma (d n) = gamma (d N)

theorem settles_of_rank {D : Type} {join : D -> List Model.Element -> Option D}
    {gamma : D -> Condition} {arity : Nat} {bottom : D} (inv : D -> Prop) (rank : D -> Nat)
    (hstart : forall state : IntState arity, exists d, join bottom state.elements = some d ∧ inv d)
    (hstep : forall d (state : IntState arity), inv d -> exists d',
      join d state.elements = some d' ∧ inv d' ∧
        ((gamma d' = gamma d ∧ rank d' = rank d) ∨ rank d' < rank d))
    (states : Nat -> IntState arity) : Settles join gamma bottom states := by
  let d := joinSequence join bottom states
  have hsucc : forall (n : Nat) {d' : D},
      join (d n) (states n).elements = some d' -> d (n + 1) = d' := by
    intro n d' hjoin
    show (join (d n) (states n).elements).getD (d n) = d'
    rw [hjoin]
    rfl
  have hinv : forall n, inv (d (n + 1)) := by
    intro n
    induction n with
    | zero =>
      rcases hstart (states 0) with ⟨d', hjoin, hd'⟩
      rwa [hsucc 0 hjoin]
    | succ n ih =>
      rcases hstep _ (states (n + 1)) ih with ⟨d', hjoin, hd', _⟩
      rwa [hsucc (n + 1) hjoin]
  constructor
  · intro n
    cases n with
    | zero =>
      rcases hstart (states 0) with ⟨d', hjoin, _⟩
      exact hjoin.trans (congrArg some (hsucc 0 hjoin).symm)
    | succ n =>
      rcases hstep _ (states (n + 1)) (hinv n) with ⟨d', hjoin, _⟩
      exact hjoin.trans (congrArg some (hsucc (n + 1) hjoin).symm)
  · have hchange : forall n, 1 ≤ n ->
        (gamma (d (n + 1)), rank (d (n + 1))) = (gamma (d n), rank (d n)) ∨
          InvImage (fun x y : Nat => x < y) Prod.snd
            (gamma (d (n + 1)), rank (d (n + 1))) (gamma (d n), rank (d n)) := by
      intro n hn
      cases n with
      | zero => cases hn
      | succ n =>
        rcases hstep _ (states (n + 1)) (hinv n) with ⟨d', hjoin, _, hrank⟩
        rw [hsucc (n + 1) hjoin]
        rcases hrank with ⟨hgamma, hsame⟩ | hless
        · exact Or.inl (Prod.ext hgamma hsame)
        · exact Or.inr hless
    rcases Stabilization.eventually_constant
      (InvImage.wf Prod.snd Nat.lt_wfRel.wf)
      (fun n => (gamma (d n), rank (d n))) hchange with ⟨N, _, hN⟩
    exact ⟨N, fun n hn => congrArg Prod.fst (hN n hn)⟩

/-!
# Intervals
-/

theorem Intervals.settles (states : Nat -> IntState 1) :
    Settles Intervals.join (fun d vars => some (d.gamma vars)) Intervals.bottom states := by
  have hjoin : forall (d : Intervals) (state : IntState 1), exists v h,
      d.join state.elements = some (d.joinValue v h) := by
    intro d state
    rcases List.length_eq_one_iff.mp state.length_eq with ⟨v, hv⟩
    have hrange := state.inRange v (by simp [hv])
    exact ⟨v, hrange, by simp [IntState.elements, hv, Intervals.join, hrange]⟩
  apply settles_of_rank (fun _ => True) Intervals.changesLeft
  · intro state
    rcases hjoin Intervals.bottom state with ⟨v, h, hd⟩
    exact ⟨_, hd, trivial⟩
  · intro d state _
    rcases hjoin d state with ⟨v, h, hd⟩
    refine ⟨_, hd, trivial, ?_⟩
    rcases d.changesLeft_joinValue h with hsame | hless
    · rw [hsame]
      exact Or.inl ⟨rfl, rfl⟩
    · exact Or.inr hless

theorem IndependentAttribute.settles {arity : Nat} (states : Nat -> IntState arity) :
    Settles (IndependentAttribute.join Intervals.domain)
      (IndependentAttribute.gamma Intervals.domain) IndependentAttribute.bottom states := by
  apply settles_of_rank (fun d => d.HasArity arity) (fun d => d.changesLeft arity)
  · intro state
    rcases @exists_extends bottom arity (Or.inl rfl) state with ⟨d', h⟩
    exact ⟨d', h.joined, h.hasArity⟩
  · intro d state hd
    rcases exists_extends hd state with ⟨d', h⟩
    refine ⟨d', h.joined, h.hasArity, ?_⟩
    rcases h.changesLeft hd with hsame | hless
    · rw [hsame]
      exact Or.inl ⟨rfl, rfl⟩
    · exact Or.inr hless

/-!
# Pentagons
-/

namespace Pentagon

def countSymbolic (symbolic : List (List Nat)) : Nat :=
  (symbolic.map List.length).sum

theorem countSymbolic_filter {symbolic : List (List Nat)}
    {p : Nat -> Nat -> Bool} {start : Nat} :
    let filtered := (symbolic.zipIdx start).map (fun q => q.1.filter (p q.2))
    filtered = symbolic ∨ countSymbolic filtered < countSymbolic symbolic := by
  induction symbolic generalizing start with
  | nil => exact Or.inl rfl
  | cons row symbolic ih =>
    dsimp only at ih ⊢
    rw [List.zipIdx_cons, List.map_cons]
    have hrow : row.filter (p start) = row ∨
        (row.filter (p start)).length < row.length := by
      by_cases hall : forall j, j ∈ row -> p start j = true
      · exact Or.inl (List.filter_eq_self.mpr hall)
      · rcases not_forall.mp hall with ⟨j, hp⟩
        rcases Classical.not_imp.mp hp with ⟨hj, hp⟩
        exact Or.inr (List.length_filter_lt_length_iff_exists.mpr ⟨j, hj, hp⟩)
    have hle : countSymbolic ((symbolic.zipIdx (start + 1)).map
        (fun q => q.1.filter (p q.2))) ≤ countSymbolic symbolic := by
      rcases @ih (start + 1) with hsame | hless
      · rw [hsame]
      · exact le_of_lt hless
    unfold countSymbolic at *
    rw [List.map_cons, List.sum_cons, List.map_cons, List.sum_cons]
    rcases hrow with hrow | hrow
    · rw [hrow]
      rcases @ih (start + 1) with hsame | hless
      · exact Or.inl (by rw [hsame])
      · exact Or.inr (Nat.add_lt_add_left hless _)
    · exact Or.inr (Nat.add_lt_add_of_lt_of_le hrow hle)

theorem eq_of_fields {d d' : Pentagon} (hsymbolic : d'.symbolic = d.symbolic)
    (hintv : d'.intervals = d.intervals) (hbottom : d'.isBottom = d.isBottom) :
    d' = d := by
  cases d
  cases d'
  simp_all

def rank (arity : Nat) (d : Pentagon) : Nat :=
  d.intervals.changesLeft arity + countSymbolic d.symbolic

theorem Extends.rank {arity : Nat} {d d' : Pentagon} {state : IntState arity}
    (h : d.Extends d' state) (hd : d.HasArity arity) (hbottom : d.isBottom = false) :
    d' = d ∨ rank arity d' < rank arity d := by
  have hneg : ¬ d.isBottom = true := by simp [hbottom]
  have hintv := h.intervals
  rw [previous, if_neg hneg] at hintv
  have hsymbolic := h.later hbottom
  have hcount := @countSymbolic_filter d.symbolic
    (fun i j => valueAt state.values i < valueAt state.values j) 0
  have hle : d'.intervals.changesLeft arity ≤ d.intervals.changesLeft arity := by
    rcases hintv.changesLeft hd.intervals with hsame | hless
    · rw [hsame]
    · exact le_of_lt hless
  unfold Pentagon.rank
  rcases hcount with hsame | hless
  · have hrows : d'.symbolic = d.symbolic := hsymbolic.trans hsame
    rw [hrows]
    rcases hintv.changesLeft hd.intervals with hsame' | hless
    · exact Or.inl (eq_of_fields hrows hsame' (h.nonempty.trans hbottom.symm))
    · exact Or.inr (Nat.add_lt_add_right hless _)
  · apply Or.inr
    rw [hsymbolic]
    exact Nat.add_lt_add_of_le_of_lt hle hless

theorem settles {arity : Nat} (states : Nat -> IntState arity) :
    Settles join gamma bottom states := by
  apply settles_of_rank (fun d => d.HasArity arity ∧ d.isBottom = false)
    (rank arity)
  · intro state
    rcases exists_extends after_bottom.hasArity state with ⟨d', h⟩
    exact ⟨d', h.joined, h.hasArity, h.nonempty⟩
  · intro d state ⟨hd, hbottom⟩
    rcases exists_extends hd state with ⟨d', h⟩
    refine ⟨d', h.joined, ⟨h.hasArity, h.nonempty⟩, ?_⟩
    rcases h.rank hd hbottom with hsame | hless
    · rw [hsame]
      exact Or.inl ⟨rfl, rfl⟩
    · exact Or.inr hless

end Pentagon

/-!
# Octagons
-/

namespace Octagon

def rank (arity : Nat) (d : Octagon) : Nat :=
  d.intervals.changesLeft arity +
    ((d.octagons.zip d.octagons_njoins).map boundLeft).sum

theorem gamma_congr {d d' : Octagon} (hintv : d'.intervals = d.intervals)
    (hoct : d'.octagons = d.octagons) (hnj : d'.octagons_njoins.length = d.octagons_njoins.length)
    (hbottom : d'.isBottom = d.isBottom) : d'.gamma = d.gamma := by
  funext vars
  unfold gamma andBounds
  rw [hintv, hoct, hnj, hbottom]

theorem Extends.rank {arity : Nat} {d d' : Octagon} {state : IntState arity}
    (h : d.Extends d' state) (hd : d.HasArity arity) (hbottom : d.isBottom = false) :
    (d'.gamma = d.gamma ∧ rank arity d' = rank arity d) ∨ rank arity d' < rank arity d := by
  have hneg : ¬ d.isBottom = true := by simp [hbottom]
  have hintv := h.intervals
  rw [previous, if_neg hneg] at hintv
  have hbounds := (h.later hbottom).boundLeft
  rw [map_fst_zip_njoins h.hasArity h.nonempty,
    map_fst_zip_njoins hd hbottom] at hbounds
  unfold Octagon.rank
  rcases hbounds with ⟨hoct, hsum⟩ | hsum
  · rw [hsum]
    rcases hintv.changesLeft hd.intervals with hsame | hless
    · apply Or.inl
      rw [hsame]
      have hnj : d'.octagons_njoins.length = d.octagons_njoins.length := by
        rw [h.njoins, hoct, hd.octagons hbottom, hd.njoins hbottom]
      exact ⟨gamma_congr hsame hoct hnj (h.nonempty.trans hbottom.symm), rfl⟩
    · exact Or.inr (Nat.add_lt_add_right hless _)
  · apply Or.inr
    rcases hintv.changesLeft hd.intervals with hsame | hless
    · rw [hsame]
      exact Nat.add_lt_add_left hsum _
    · exact Nat.add_lt_add hless hsum

theorem settles {arity : Nat} (states : Nat -> IntState arity) :
    Settles join gamma bottom states := by
  apply settles_of_rank (fun d => d.HasArity arity ∧ d.isBottom = false)
    (rank arity)
  · intro state
    rcases exists_extends (bottom_hasArity arity) state with ⟨d', h⟩
    exact ⟨d', h.joined, h.hasArity, h.nonempty⟩
  · intro d state ⟨hd, hbottom⟩
    rcases exists_extends hd state with ⟨d', h⟩
    exact ⟨d', h.joined, ⟨h.hasArity, h.nonempty⟩, h.rank hd hbottom⟩

end Octagon

/-- The conditions of all four kinds of elements change finitely often. -/
theorem widening_finite (arity : Nat) (values : Nat -> IntState 1)
    (states : Nat -> IntState arity) :
    Settles Intervals.join (fun d vars => some (d.gamma vars)) Intervals.bottom values ∧
      Settles (IndependentAttribute.join Intervals.domain)
        (IndependentAttribute.gamma Intervals.domain) IndependentAttribute.bottom states ∧
      Settles Octagon.join Octagon.gamma Octagon.bottom states ∧
      Settles Pentagon.join Pentagon.gamma Pentagon.bottom states :=
  ⟨Intervals.settles values, IndependentAttribute.settles states,
    Octagon.settles states, Pentagon.settles states⟩

end Boogie
