import Boogie.AbsInt.IntervalLattice
import Mathlib.Algebra.Order.BigOperators.Group.List
import Mathlib.Data.Real.Basic

/-!
# Laws of the interval lattice

The operations denote what a lattice of constraints needs, and a chain of
widenings cannot go on for ever: each one that is not already below the current
element removes a bound or moves it to a threshold further out.
-/

namespace Boogie
namespace AbstractInterpretation

variable {Variable : Type*} [LinearOrder Variable] {domain : Thresholds}

section Denotation

variable {R : Type*} [Ring R] [LinearOrder R] [IsStrictOrderedRing R]
variable {a b : Element Variable}

theorem denote_subset {aa bb : List (Node Variable)} (haa : WellFormed aa) (hbb : WellFormed bb)
    (h : forall v, Tighter (Node.getBounds aa v) (Node.getBounds bb v)) :
    (Element.e aa).denote ⊆ ((Element.e bb).denote : Set (Variable -> R)) := by
  intro σ hσ
  rw [mem_denote_iff haa.sorted] at hσ
  rw [mem_denote_iff hbb.sorted]
  exact fun v => (h v).within (hσ v)

theorem wellFormed_meet (ha : a.WellFormed) (hb : b.WellFormed) :
    (meet a b).WellFormed := by
  cases a with
  | bottom => trivial
  | e aa =>
    cases b with
    | bottom => trivial
    | e bb =>
      rcases meet_spec ha hb with ⟨n, hn, hwf, _⟩ | ⟨hbottom, _⟩
      · rw [hn]
        exact hwf
      · rw [hbottom]
        trivial

theorem denote_meet (ha : a.WellFormed) (hb : b.WellFormed) :
    (meet a b).denote = (a.denote ∩ b.denote : Set (Variable -> R)) := by
  cases a with
  | bottom => exact (Set.empty_inter _).symm
  | e aa =>
    cases b with
    | bottom => exact (Set.inter_empty _).symm
    | e bb =>
      ext σ
      rw [Set.mem_inter_iff, mem_denote_iff ha.sorted, mem_denote_iff hb.sorted]
      rcases meet_spec ha hb with ⟨n, hn, hwf, hbounds⟩ | ⟨hbottom, v, hv⟩
      · rw [hn, mem_denote_iff hwf.sorted]
        simp only [hbounds, within_meetBounds]
        exact forall_and
      · rw [hbottom]
        refine ⟨fun hσ => hσ.elim, ?_⟩
        intro ⟨hσa, hσb⟩
        exact (not_within_of_overconstrained hv
          (within_meetBounds.mpr ⟨hσa v, hσb v⟩)).elim

theorem wellFormed_join (ha : a.WellFormed) (hb : b.WellFormed) :
    (join a b).WellFormed := by
  cases a with
  | bottom => exact hb
  | e aa =>
    cases b with
    | bottom => exact ha
    | e bb =>
      rcases join_spec ha hb with ⟨n, hn, hwf, _⟩
      rw [hn]
      exact hwf

theorem denote_join (ha : a.WellFormed) (hb : b.WellFormed) :
    (a.denote ∪ b.denote : Set (Variable -> R)) ⊆ (join a b).denote := by
  cases a with
  | bottom => exact Set.union_subset (Set.empty_subset _) (fun _ h => h)
  | e aa =>
    cases b with
    | bottom => exact Set.union_subset (fun _ h => h) (Set.empty_subset _)
    | e bb =>
      rcases join_spec ha hb with ⟨n, hn, hwf, hbounds⟩
      rw [hn]
      apply Set.union_subset
      · apply denote_subset ha hwf
        intro v
        rw [hbounds]
        exact tighter_join_left _ _
      · apply denote_subset hb hwf
        intro v
        rw [hbounds]
        exact tighter_join_right _ _

theorem wellFormed_widen (ha : a.WellFormed) (hb : b.WellFormed) :
    (widen domain a b).WellFormed := by
  cases a with
  | bottom => exact hb
  | e aa =>
    cases b with
    | bottom => exact ha
    | e bb =>
      rcases widen_spec domain ha hb with ⟨n, hn, hwf, _⟩
      rw [hn]
      exact hwf

theorem denote_widen (ha : a.WellFormed) (hb : b.WellFormed) :
    (a.denote ∪ b.denote : Set (Variable -> R)) ⊆ (widen domain a b).denote := by
  cases a with
  | bottom => exact Set.union_subset (Set.empty_subset _) (fun _ h => h)
  | e aa =>
    cases b with
    | bottom => exact Set.union_subset (fun _ h => h) (Set.empty_subset _)
    | e bb =>
      rcases widen_spec domain ha hb with ⟨n, hn, hwf, hbounds⟩
      rw [hn]
      apply Set.union_subset
      · apply denote_subset ha hwf
        intro v
        rw [hbounds]
        exact tighter_widen_left domain _ _
      · apply denote_subset hb hwf
        intro v
        rw [hbounds]
        exact tighter_widen_right domain _ _

theorem wellFormed_eliminate (ha : a.WellFormed) (v : Variable) :
    (eliminate a v).WellFormed := by
  cases a with
  | bottom => trivial
  | e n => exact (updateOne_spec ha v none none).1

theorem denote_of_below (ha : a.WellFormed) (hb : b.WellFormed)
    (h : below a b = true) : a.denote ⊆ (b.denote : Set (Variable -> R)) := by
  cases a with
  | bottom => exact Set.empty_subset _
  | e aa =>
    cases b with
    | bottom => cases h
    | e bb => exact denote_subset ha hb ((below_iff ha hb).mp h)

end Denotation

/-- The constraints `c` of a variable follow from `b`, bound by bound or as
sets of values, of which there is one. -/
def Implied (b c : Bounds) : Prop :=
  Tighter b c ∨
    (exists z : Int, Within b z) ∧ forall z : Int, Within b z -> Within c z

/-- The constraints of the second element follow from those of the first
variable by variable. -/
def ImpliedVariableWise : Element Variable -> Element Variable -> Prop
  | .bottom, _ => True
  | .e _, .bottom => False
  | .e aa, .e bb =>
    forall v, Implied (Node.getBounds aa v) (Node.getBounds bb v)

theorem below_of_implied {a b : Element Variable} (ha : a.WellFormed)
    (hb : b.WellFormed) (h : ImpliedVariableWise a b) : below a b = true := by
  cases a with
  | bottom => rfl
  | e aa =>
    cases b with
    | bottom => exact h.elim
    | e bb =>
      refine (below_iff ha hb).mpr ?_
      intro v
      rcases h v with htighter | ⟨⟨z, hz⟩, hall⟩
      · exact htighter
      · exact tighter_of_within hz hall

/-!
# Chains of widenings
-/

def rankLo (domain : Thresholds) : Option Int -> Nat
  | none => 0
  | some l => 1 + domain.downThresholds.countP (fun t => t < l)

def rankHi (domain : Thresholds) : Option Int -> Nat
  | none => 0
  | some h => 1 + domain.upThresholds.countP (fun t => h < t)

theorem countP_lt {l : List Int} {p q : Int -> Bool} {t : Int} (ht : t ∈ l)
    (hpq : forall x, p x = true -> q x = true) (hp : p t = false)
    (hq : q t = true) : l.countP p < l.countP q := by
  induction l with
  | nil => cases ht
  | cons x l ih =>
    have hmono : l.countP p ≤ l.countP q :=
      List.countP_mono_left (fun y _ => hpq y)
    rcases List.mem_cons.mp ht with rfl | hrest
    · rw [List.countP_cons_of_pos hq, List.countP_cons_of_neg (by simp [hp])]
      omega
    · have hlt := ih hrest
      rw [List.countP_cons, List.countP_cons]
      cases hpx : p x with
      | false =>
        rw [if_neg (by simp)]
        omega
      | true =>
        rw [if_pos rfl, if_pos (hpq x hpx)]
        omega

variable (domain) in
theorem rankLo_widen (b c : Option Int) :
    rankLo domain (widenLo domain b c) ≤ rankLo domain b ∧ (widenLo domain b c ≠ b ->
        rankLo domain (widenLo domain b c) < rankLo domain b) := by
  cases hw : widenLo domain b c with
  | none =>
    cases b with
    | none => simp
    | some l => simp [rankLo]
  | some l =>
    rcases widenLo_eq domain hw with ⟨l₁, l₂, rfl, rfl, _, hle, hcase⟩
    rcases hcase with rfl | ⟨hlt, hmem⟩
    · simp
    · have hcount := countP_lt (p := fun t => t < l) (q := fun t => t < l₁)
        hmem (by
          intro x hx
          simp only [decide_eq_true_eq] at hx ⊢
          omega) (by simp) (by
          simp only [decide_eq_true_eq]
          omega)
      simp only [rankLo]
      omega

variable (domain) in
theorem rankHi_widen (b c : Option Int) :
    rankHi domain (widenHi domain b c) ≤ rankHi domain b ∧ (widenHi domain b c ≠ b ->
        rankHi domain (widenHi domain b c) < rankHi domain b) := by
  cases hw : widenHi domain b c with
  | none =>
    cases b with
    | none => simp
    | some u => simp [rankHi]
  | some u =>
    rcases widenHi_eq domain hw with ⟨u₁, u₂, rfl, rfl, _, hle, hcase⟩
    rcases hcase with rfl | ⟨hlt, hmem⟩
    · simp
    · have hcount := countP_lt (p := fun t => u < t) (q := fun t => u₁ < t)
        hmem (by
          intro x hx
          simp only [decide_eq_true_eq] at hx ⊢
          omega) (by simp) (by
          simp only [decide_eq_true_eq]
          omega)
      simp only [rankHi]
      omega

def rank (domain : Thresholds) (b : Bounds) : Nat :=
  rankLo domain b.1 + rankHi domain b.2

theorem rank_widen (b c : Bounds) :
    rank domain (widenBounds domain b c) ≤ rank domain b ∧
      (¬ Tighter c b -> rank domain (widenBounds domain b c) < rank domain b) := by
  have hlo := rankLo_widen domain b.1 c.1
  have hhi := rankHi_widen domain b.2 c.2
  constructor
  · exact Nat.add_le_add hlo.1 hhi.1
  · intro hnot
    have hmoved : widenLo domain b.1 c.1 ≠ b.1 ∨ widenHi domain b.2 c.2 ≠ b.2 := by
      by_contra hsame
      rcases not_or.mp hsame with ⟨hl, hh⟩
      have heq : widenBounds domain b c = b :=
        Prod.ext (not_not.mp hl) (not_not.mp hh)
      have htighter := tighter_widen_right domain b c
      rw [heq] at htighter
      exact hnot htighter
    rcases hmoved with hl | hh
    · exact Nat.add_lt_add_of_lt_of_le (hlo.2 hl) hhi.1
    · exact Nat.add_lt_add_of_le_of_lt hlo.1 (hhi.2 hh)

def chain (domain : Thresholds) (e : Element Variable)
    (x : Nat -> Element Variable) : Nat -> Element Variable
  | 0 => e
  | i + 1 => widen domain (chain domain e x i) (x i)

theorem chain_succ (e : Element Variable) (x : Nat -> Element Variable) (i : Nat) :
    chain domain e x (i + 1) = chain domain (widen domain e (x 0)) (fun j => x (j + 1)) i := by
  induction i with
  | zero => rfl
  | succ i ih =>
    change widen domain (chain domain e x (i + 1)) (x (i + 1)) = _
    rw [ih]
    rfl

def measure (domain : Thresholds) (vs : List Variable) (n : List (Node Variable)) :
    Nat :=
  (vs.map (fun v => rank domain (Node.getBounds n v))).sum

theorem getBounds_of_not_mem {n : List (Node Variable)}
    (hn : SortedMerge.Sorted Node.v n) {v : Variable}
    (hv : v ∉ n.map Node.v) : Node.getBounds n v = (none, none) := by
  rw [getBounds_eq hn]
  cases hm : SortedMerge.lookup Node.v n v with
  | none => rfl
  | some m =>
    rcases SortedMerge.lookup_eq_some hm with ⟨hmem, hkey⟩
    exact absurd (List.mem_map.mpr ⟨m, hmem, hkey⟩) hv

theorem chain_measure {n : List (Node Variable)} (hn : WellFormed n)
    {x : Nat -> Element Variable} (hx : forall i, (x i).WellFormed)
    (hnot : forall i, below (x i) (chain domain (.e n) x i) = false) (i : Nat) :
    exists m, chain domain (.e n) x i = .e m ∧ WellFormed m ∧
      (forall v, v ∉ n.map Node.v -> Node.getBounds m v = (none, none)) ∧
      measure domain (n.map Node.v) m + i ≤ measure domain (n.map Node.v) n := by
  induction i with
  | zero =>
    exact ⟨n, rfl, hn, fun v => getBounds_of_not_mem hn.sorted, le_rfl⟩
  | succ i ih =>
    rcases ih with ⟨m, hm, hwf, houtside, hmeasure⟩
    have hnotBelow := hnot i
    have hxi := hx i
    rw [hm] at hnotBelow
    rw [chain, hm]
    cases hxe : x i with
    | bottom =>
      rw [hxe] at hnotBelow
      cases hnotBelow
    | e k =>
      rw [hxe] at hnotBelow hxi
      rcases widen_spec domain hwf hxi
        with ⟨m', hm', hwf', hbounds⟩
      refine ⟨m', hm', hwf', ?_, ?_⟩
      · intro v hv
        rw [hbounds, houtside v hv]
        rfl
      · have hmoved : exists v, ¬ Tighter (Node.getBounds k v)
            (Node.getBounds m v) := by
          by_contra hall
          have hbelow := (below_iff hxi hwf).mpr (by simpa using hall)
          rw [hbelow] at hnotBelow
          cases hnotBelow
        rcases hmoved with ⟨v, hv⟩
        have hvmem : v ∈ n.map Node.v := by
          by_contra hvnot
          rw [houtside v hvnot] at hv
          exact hv ⟨by simp, by simp⟩
        have hlt : measure domain (n.map Node.v) m' <
            measure domain (n.map Node.v) m := by
          apply List.sum_lt_sum
          · intro u _
            rw [hbounds]
            exact (rank_widen _ _).1
          · refine ⟨v, hvmem, ?_⟩
            rw [hbounds]
            exact (rank_widen _ _).2 hv
        omega

theorem no_infinite_chain {e : Element Variable} (he : e.WellFormed) :
    ¬ exists x : Nat -> Element Variable, (forall i, (x i).WellFormed) ∧
      forall i, below (x i) (chain domain e x i) = false := by
  have hnode : forall n : List (Node Variable), WellFormed n ->
      ¬ exists x : Nat -> Element Variable, (forall i, (x i).WellFormed) ∧
        forall i, below (x i) (chain domain (.e n) x i) = false := by
    intro n hn ⟨x, hx, hnot⟩
    rcases chain_measure hn hx hnot (measure domain (n.map Node.v) n + 1)
      with ⟨m, _, _, _, hle⟩
    omega
  cases e with
  | e n => exact hnode n he
  | bottom =>
    -- The first argument becomes the element the chain goes on from.
    intro ⟨x, hx, hnot⟩
    cases hx0 : x 0 with
    | bottom =>
      have h0 := hnot 0
      rw [hx0] at h0
      cases h0
    | e n =>
      have hn := hx 0
      rw [hx0] at hn
      refine hnode n hn ⟨fun j => x (j + 1), fun j => hx (j + 1), ?_⟩
      intro i
      have h := hnot (i + 1)
      rw [chain_succ, hx0] at h
      exact h

/-!
# The laws
-/

/-- The operations keep lists well formed, denote intersections and supersets,
decide what follows variable by variable, change one variable at a time, and
widen finitely often. -/
theorem lattice_laws {R : Type*} [Ring R] [LinearOrder R]
    [IsStrictOrderedRing R] (domain : Thresholds) {a b : Element Variable}
    (ha : a.WellFormed) (hb : b.WellFormed) :
    ((meet a b).WellFormed ∧ (join a b).WellFormed ∧ (widen domain a b).WellFormed ∧
      forall v, (eliminate a v).WellFormed) ∧
    ((meet a b).denote = (a.denote ∩ b.denote : Set (Variable -> R)) ∧ (meet a b = .bottom ->
        (a.denote ∩ b.denote : Set (Variable -> R)) = ∅)) ∧
    (a.denote ∪ b.denote : Set (Variable -> R)) ⊆ (join a b).denote ∧
    (a.denote ∪ b.denote : Set (Variable -> R)) ⊆ (widen domain a b).denote ∧
    (below a b = true -> a.denote ⊆ (b.denote : Set (Variable -> R))) ∧
    (ImpliedVariableWise a b -> below a b = true) ∧
    (forall nn : List (Node Variable), WellFormed nn -> forall v lo hi,
      WellFormed (updateOne nn v lo hi) ∧ forall u, Node.getBounds (updateOne nn v lo hi) u =
          if u = v then (lo, hi) else Node.getBounds nn u) ∧
    ¬ exists x : Nat -> Element Variable, (forall i, (x i).WellFormed) ∧
      forall i, below (x i) (chain domain a x i) = false := by
  have hmeet := denote_meet (R := R) ha hb
  refine ⟨⟨wellFormed_meet ha hb, wellFormed_join ha hb,
    wellFormed_widen ha hb, wellFormed_eliminate ha⟩, ⟨hmeet, ?_⟩,
    denote_join ha hb, denote_widen ha hb, denote_of_below ha hb,
    below_of_implied ha hb, ?_, no_infinite_chain ha⟩
  · intro hbottom
    rw [← hmeet, hbottom]
    rfl
  · intro nn hnn v lo hi
    exact updateOne_spec hnn v lo hi

/-- The laws for two intervals of one variable. -/
theorem lattice_laws_of_intervals :
    (join (.e [⟨0, some 1, none⟩]) (.e [⟨0, some 3, some 5⟩]) :
      Element Nat).WellFormed :=
  (lattice_laws (R := ℝ) ⟨[0, 1], [-1, 0, 1]⟩
    (a := .e [⟨0, some 1, none⟩]) (b := .e [⟨0, some 3, some 5⟩])
    ⟨List.pairwise_singleton _ _, by simp⟩
    ⟨List.pairwise_singleton _ _, by simp⟩).1.2.1

/-- An empty interval is below only what has no stronger bound, although every
constraint follows from it. -/
theorem below_emptyInterval :
    WellFormed [(⟨0, some 5, some 3⟩ : Node Nat)] ∧ WellFormed [(⟨0, some 10, none⟩ : Node Nat)] ∧
      (forall (v : Nat) (x : ℝ), Within (Node.getBounds [⟨0, some 5, some 3⟩] v) x ->
          Within (Node.getBounds [⟨0, some 10, none⟩] v) x) ∧
      below (.e [⟨0, some 5, some 3⟩] : Element Nat) (.e [⟨0, some 10, none⟩]) = false := by
  refine ⟨⟨List.pairwise_singleton _ _, by simp⟩,
    ⟨List.pairwise_singleton _ _, by simp⟩, ?_, ?_⟩
  · intro v x hx
    cases v with
    | zero =>
      exact (not_within_of_overconstrained (b := (some 5, some 3)) rfl hx).elim
    | succ v => simp [Node.getBounds]
  · simp [below, Node.merge, SortedMerge.merge, belowNode]

end AbstractInterpretation
end Boogie
