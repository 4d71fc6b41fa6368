import Boogie.AbsInt.IntervalDomain
import Mathlib.Algebra.Order.Ring.Int
import Mathlib.Data.Int.Cast.Lemmas
import Mathlib.Data.List.GetD
import Mathlib.Logic.Function.Basic

/-!
# Bounds of one variable

The operations of the domain on the bounds of one variable, and the values they
leave.
-/

namespace Boogie
namespace AbstractInterpretation

/-!
# Values within bounds
-/

section Within

variable {R : Type*} [Ring R] [LinearOrder R] [IsStrictOrderedRing R]

def Within (b : Bounds) (x : R) : Prop :=
  (forall l : Int, b.1 = some l -> (l : R) ≤ x) ∧
    forall h : Int, b.2 = some h -> x < (h : R)

omit [IsStrictOrderedRing R] in
@[simp] theorem within_none (x : R) : Within (none, none) x := by
  simp [Within]

def Tighter (b c : Bounds) : Prop :=
  (forall l, c.1 = some l -> exists l', b.1 = some l' ∧ l ≤ l') ∧
    forall h, c.2 = some h -> exists h', b.2 = some h' ∧ h' ≤ h

theorem Tighter.within {b c : Bounds} {x : R} (h : Tighter b c) (hx : Within b x) : Within c x := by
  constructor
  · intro l hl
    rcases h.1 l hl with ⟨l', hl', hle⟩
    exact le_trans (Int.cast_le.mpr hle) (hx.1 l' hl')
  · intro u hu
    rcases h.2 u hu with ⟨u', hu', hle⟩
    exact lt_of_lt_of_le (hx.2 u' hu') (Int.cast_le.mpr hle)

theorem tighter_of_within {b c : Bounds} {z : Int} (hz : Within b z)
    (h : forall x : Int, Within b x -> Within c x) : Tighter b c := by
  constructor
  · intro l hl
    have hlow : forall x : Int, x ≤ z ->
        (forall l', b.1 = some l' -> l' ≤ x) -> l ≤ x := by
      intro x hxz hlow
      have hx : Within b x :=
        ⟨fun l' hl' => by simpa using hlow l' hl',
          fun u hu => lt_of_le_of_lt hxz (hz.2 u hu)⟩
      simpa using (h x hx).1 l hl
    cases hb : b.1 with
    | some l' =>
      refine ⟨l', rfl, hlow l' ?_ ?_⟩
      · simpa using hz.1 l' hb
      · intro k hk
        rw [hb] at hk
        cases hk
        exact le_rfl
    | none =>
      have hle := hlow (Min.min z (l - 1)) (min_le_left z (l - 1))
        (fun k hk => by rw [hb] at hk; cases hk)
      have hlt := le_trans hle (min_le_right z (l - 1))
      omega
  · intro u hu
    have hhigh : forall x : Int, z ≤ x ->
        (forall u', b.2 = some u' -> x < u') -> x < u := by
      intro x hxz hhigh
      have hx : Within b x :=
        ⟨fun l hl => le_trans (hz.1 l hl) (by simpa using hxz),
          fun u' hu' => by simpa using hhigh u' hu'⟩
      simpa using (h x hx).2 u hu
    cases hb : b.2 with
    | some u' =>
      have hzu : z < u' := by simpa using hz.2 u' hb
      have hlt := hhigh (u' - 1) (by omega) (by
        intro k hk
        rw [hb] at hk
        cases hk
        omega)
      exact ⟨u', rfl, by omega⟩
    | none =>
      have hlt := hhigh (Max.max z u) (le_max_left z u)
        (fun k hk => by rw [hb] at hk; cases hk)
      exact absurd (le_max_right z u) (not_le.mpr hlt)

def meetBounds (b c : Bounds) : Bounds :=
  (Node.max b.1 c.1 true, Node.min b.2 c.2 true)

theorem max_unit_le {b c : Option Int} {x : R} :
    (forall l : Int, Node.max b c true = some l -> (l : R) ≤ x) <->
      (forall l : Int, b = some l -> (l : R) ≤ x) ∧ forall l : Int, c = some l -> (l : R) ≤ x := by
  cases b with
  | none => simp [Node.max]
  | some l =>
    cases c with
    | none => simp [Node.max]
    | some l' => simp [Node.max]

theorem lt_min_unit {b c : Option Int} {x : R} :
    (forall h : Int, Node.min b c true = some h -> x < (h : R)) <->
      (forall h : Int, b = some h -> x < (h : R)) ∧ forall h : Int, c = some h -> x < (h : R) := by
  cases b with
  | none => simp [Node.min]
  | some h =>
    cases c with
    | none => simp [Node.min]
    | some h' => simp [Node.min]

theorem within_meetBounds {b c : Bounds} {x : R} :
    Within (meetBounds b c) x <-> Within b x ∧ Within c x := by
  unfold Within meetBounds
  rw [max_unit_le, lt_min_unit]
  tauto

theorem not_within_of_overconstrained {b : Bounds} {x : R}
    (h : overconstrained b.1 b.2) : ¬ Within b x := by
  intro hx
  unfold overconstrained at h
  split at h
  next l u hl hu =>
    have hle : u ≤ l := by simpa using h
    have hlt := lt_of_le_of_lt (hx.1 l hl) (hx.2 u hu)
    exact absurd (Int.cast_lt.mp hlt) (not_lt.mpr hle)
  next => simp at h

def joinBounds (b c : Bounds) : Bounds :=
  (Node.min b.1 c.1 false, Node.max b.2 c.2 false)

theorem min_zero_eq {b c : Option Int} {l : Int}
    (h : Node.min b c false = some l) : exists l₁ l₂, b = some l₁ ∧
      c = some l₂ ∧ l = Min.min l₁ l₂ := by
  cases b with
  | none => simp [Node.min] at h
  | some l₁ =>
    cases c with
    | none => simp [Node.min] at h
    | some l₂ => exact ⟨l₁, l₂, rfl, rfl, by simpa [Node.min] using h.symm⟩

theorem max_zero_eq {b c : Option Int} {u : Int}
    (h : Node.max b c false = some u) : exists u₁ u₂, b = some u₁ ∧
      c = some u₂ ∧ u = Max.max u₁ u₂ := by
  cases b with
  | none => simp [Node.max] at h
  | some u₁ =>
    cases c with
    | none => simp [Node.max] at h
    | some u₂ => exact ⟨u₁, u₂, rfl, rfl, by simpa [Node.max] using h.symm⟩

theorem tighter_join_left (b c : Bounds) : Tighter b (joinBounds b c) := by
  constructor
  · intro l hl
    rcases min_zero_eq hl with ⟨l₁, l₂, h₁, _, rfl⟩
    exact ⟨l₁, h₁, min_le_left l₁ l₂⟩
  · intro u hu
    rcases max_zero_eq hu with ⟨u₁, u₂, h₁, _, rfl⟩
    exact ⟨u₁, h₁, le_max_left u₁ u₂⟩

theorem tighter_join_right (b c : Bounds) : Tighter c (joinBounds b c) := by
  constructor
  · intro l hl
    rcases min_zero_eq hl with ⟨l₁, l₂, _, h₂, rfl⟩
    exact ⟨l₂, h₂, min_le_right l₁ l₂⟩
  · intro u hu
    rcases max_zero_eq hu with ⟨u₁, u₂, _, h₂, rfl⟩
    exact ⟨u₂, h₂, le_max_right u₁ u₂⟩

end Within

/-!
# The thresholds
-/

theorem getD_mem {l : List Int} {i : Nat} (h : i < l.length) :
    l.getD i 0 ∈ l := by
  rw [List.getD_eq_getElem l 0 h]
  exact List.getElem_mem h

theorem roundDownFrom_spec (l : List Int) (k : Int) (i j : Nat)
    (hij : i ≤ j) (hi : l.getD i 0 ≤ k) :
    roundDownFrom l k i j ≤ j ∧ l.getD (roundDownFrom l k i j) 0 ≤ k := by
  fun_induction roundDownFrom l k i j with
  | case1 i j hlt mid hmid ih => exact ih (by omega) hmid
  | case2 i j hlt mid hmid ih =>
    have hrest := ih (by omega) hi
    exact ⟨by omega, hrest.2⟩
  | case3 i j hlt => exact ⟨hij, hi⟩

theorem roundDown_spec {l : List Int} {k t : Int} (h : roundDown l k = some t) : t ∈ l ∧ t ≤ k := by
  unfold roundDown at h
  split at h
  next => cases h
  next hcases =>
    rcases not_or.mp hcases with ⟨hlength, hfirst⟩
    have hrest := roundDownFrom_spec l k 0 (l.length - 1) (Nat.zero_le _)
      (not_lt.mp hfirst)
    cases h
    exact ⟨getD_mem (by omega), hrest.2⟩

theorem roundUpFrom_spec (l : List Int) (k : Int) (i j : Nat) (hij : i ≤ j) (hj : k ≤ l.getD j 0) :
    roundUpFrom l k i j ≤ j ∧ k ≤ l.getD (roundUpFrom l k i j) 0 := by
  fun_induction roundUpFrom l k i j with
  | case1 i j hlt mid hmid ih => exact ih (by omega) hj
  | case2 i j hlt mid hmid ih =>
    have hrest := ih (by omega) (not_lt.mp hmid)
    exact ⟨by omega, hrest.2⟩
  | case3 i j hlt =>
    have heq : i = j := by omega
    rw [heq]
    exact ⟨le_rfl, hj⟩

theorem roundUp_spec {l : List Int} {k t : Int} (h : roundUp l k = some t) :
    t ∈ l ∧ k ≤ t := by
  unfold roundUp at h
  split at h
  next => cases h
  next hcases =>
    rcases not_or.mp hcases with ⟨hlength, hlast⟩
    have hrest := roundUpFrom_spec l k 0 (l.length - 1) (Nat.zero_le _)
      (not_lt.mp hlast)
    cases h
    exact ⟨getD_mem (by omega), hrest.2⟩

variable (domain : Thresholds)

def widenBounds (b c : Bounds) : Bounds :=
  (widenLo domain b.1 c.1, widenHi domain b.2 c.2)

theorem widenLo_eq {b c : Option Int} {l : Int}
    (h : widenLo domain b c = some l) : exists l₁ l₂, b = some l₁ ∧ c = some l₂ ∧ l ≤ l₁ ∧ l ≤ l₂ ∧
        (l = l₁ ∨ l₂ < l₁ ∧ l ∈ domain.downThresholds) := by
  unfold widenLo at h
  split at h
  next l₁ l₂ =>
    refine ⟨l₁, l₂, rfl, rfl, ?_⟩
    split at h
    next hle =>
      cases h
      exact ⟨le_rfl, hle, Or.inl rfl⟩
    next hgt =>
      have hlt := not_le.mp hgt
      have ht := roundDown_spec h
      exact ⟨le_trans ht.2 (le_of_lt hlt), ht.2, Or.inr ⟨hlt, ht.1⟩⟩
  next => cases h

theorem widenHi_eq {b c : Option Int} {u : Int}
    (h : widenHi domain b c = some u) : exists u₁ u₂, b = some u₁ ∧ c = some u₂ ∧ u₁ ≤ u ∧ u₂ ≤ u ∧
        (u = u₁ ∨ u₁ < u₂ ∧ u ∈ domain.upThresholds) := by
  unfold widenHi at h
  split at h
  next u₁ u₂ =>
    refine ⟨u₁, u₂, rfl, rfl, ?_⟩
    split at h
    next hle =>
      cases h
      exact ⟨le_rfl, hle, Or.inl rfl⟩
    next hgt =>
      have hlt := not_le.mp hgt
      have ht := roundUp_spec h
      exact ⟨le_trans (le_of_lt hlt) ht.2, ht.2, Or.inr ⟨hlt, ht.1⟩⟩
  next => cases h

theorem tighter_widen_left (b c : Bounds) :
    Tighter b (widenBounds domain b c) := by
  constructor
  · intro l hl
    rcases widenLo_eq domain hl with ⟨l₁, l₂, h₁, _, hle, _⟩
    exact ⟨l₁, h₁, hle⟩
  · intro u hu
    rcases widenHi_eq domain hu with ⟨u₁, u₂, h₁, _, hle, _⟩
    exact ⟨u₁, h₁, hle⟩

theorem tighter_widen_right (b c : Bounds) :
    Tighter c (widenBounds domain b c) := by
  constructor
  · intro l hl
    rcases widenLo_eq domain hl with ⟨l₁, l₂, _, h₂, _, hle, _⟩
    exact ⟨l₂, h₂, hle⟩
  · intro u hu
    rcases widenHi_eq domain hu with ⟨u₁, u₂, _, h₂, _, hle, _⟩
    exact ⟨u₂, h₂, hle⟩

end AbstractInterpretation
end Boogie
