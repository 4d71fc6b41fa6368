import Mathlib.Data.Set.Lattice
import Mathlib.Order.Bounds.Basic

/-!
# Refuting candidates

A set of candidates is checked under the assumption of the set itself.  Each
check belongs to at most one candidate.  A check that fails for a set fails for
every smaller set that still has its candidate: with fewer assumptions there
are more counterexamples.  Candidates whose checks fail can then be removed in
any order, and the largest inductive set is what is left.
-/

namespace Refutation

universe u v

variable {Candidate : Type u} {Check : Type v}

/-- What it means for a check to fail, and which candidate it belongs to. -/
structure System (Candidate : Type u) (Check : Type v) where
  guard : Check -> Option Candidate
  fails : Set Candidate -> Check -> Prop
  guard_mem : forall {S a c}, fails S a -> guard a = some c -> c ∈ S
  persists : forall {S T a}, S ⊆ T -> (forall c, guard a = some c -> c ∈ S) ->
    fails T a -> fails S a

variable {M : System Candidate Check} {S T : Set Candidate} {a : Check}
  {c : Candidate}

/-- No check fails under the candidates of the set. -/
def System.Inductive (M : System Candidate Check) (S : Set Candidate) : Prop :=
  forall a, ¬ M.fails S a

theorem System.Inductive.not_mem (hS : M.Inductive S) (hsub : S ⊆ T)
    (hfails : M.fails T a) (hguard : M.guard a = some c) : c ∉ S := by
  intro hc
  apply hS a
  apply M.persists hsub _ hfails
  intro d hd
  rw [hguard] at hd
  cases hd
  exact hc

theorem subset_remove {current : Set Candidate}
    (hcurrent : S ⊆ current) (hc : c ∉ S) : S ⊆ current \ {c} := by
  intro d hd
  refine ⟨hcurrent hd, ?_⟩
  rintro rfl
  exact hc hd

theorem System.isGreatest (hS : M.Inductive S) (hsub : S ⊆ T)
    (hkept : forall S', S' ⊆ T -> M.Inductive S' -> S' ⊆ S) :
    IsGreatest {S' | S' ⊆ T ∧ M.Inductive S'} S :=
  ⟨⟨hsub, hS⟩, fun S' hS' => hkept S' hS'.1 hS'.2⟩

end Refutation
