import Boogie.Foundation.Refutation
import Boogie.Houdini.Stability

/-!
# Inductive sets of candidates

A set of candidates is inductive when every implementation is correct with
exactly these candidates.  Removing candidates from a set preserves the
counterexamples to the assertions of the candidates that stay.
-/

namespace Boogie

namespace Houdini

variable {H : Houdini} {S T : Set Variable} {assignment : Variable -> Bool}

open Classical in
noncomputable def assignmentOf (S : Set Variable) : Variable -> Bool :=
  fun v => decide (v ∈ S)

def trueCandidates (H : Houdini) (assignment : Variable -> Bool) :
    Set Variable :=
  fun v => v ∈ H.houdiniConstants ∧ assignment v = true

/-- Every formula is valid when exactly the candidates of the set are true. -/
def InductiveSet (H : Houdini) (S : Set Variable) : Prop :=
  forall impl session, H.houdiniSession impl = some session ->
    ValidUnder H session (assignmentOf S)

theorem assignmentOf_eq_true {v : Variable} :
    assignmentOf S v = true <-> v ∈ S := by
  simp [assignmentOf]

theorem assignmentOf_eq_false {v : Variable} :
    assignmentOf S v = false <-> v ∉ S := by
  simp [assignmentOf]

theorem mem_trueCandidates {v : Variable} :
    v ∈ H.trueCandidates assignment <-> v ∈ H.houdiniConstants ∧ assignment v = true :=
  Iff.rfl

theorem withStages_trueCandidates {completed : List Int} :
    H.withStages completed (assignmentOf (H.trueCandidates assignment)) =
      H.withStages completed assignment := by
  apply withStages_congr
  intro v hv
  rw [Bool.eq_iff_iff, assignmentOf_eq_true, mem_trueCandidates]
  simp [hv]

theorem getAssignment_trueCandidates :
    H.getAssignmentWithStages (assignmentOf (H.trueCandidates assignment)) =
      H.getAssignmentWithStages assignment := by
  cases h : H.getAssignmentWithStages assignment with
  | some staged =>
    rcases getAssignmentWithStages_eq h with ⟨completed, hget⟩
    rw [hget, withStages_trueCandidates, ← hget, h]
  | none =>
    cases h' : H.getAssignmentWithStages
        (assignmentOf (H.trueCandidates assignment)) with
    | none => rfl
    | some staged =>
      rcases getAssignmentWithStages_eq h' with ⟨completed, hget⟩
      rw [hget] at h
      cases h

/-!
# Counterexamples to sets
-/

def FailsUnder (H : Houdini) (S : Set Variable)
    (check : Implementation × AssertCmd) : Prop :=
  exists session staged, H.houdiniSession check.1 = some session ∧
    .assertCmd check.2 ∈ session.passified.passive.cmds ∧
    H.getAssignmentWithStages (assignmentOf S) = some staged ∧
    H.program.Refutes session.passified.passive staged check.2

theorem FailsUnder.guard_mem (hunstaged : forall v, v ∈ H.houdiniConstants -> H.Unstaged v)
    {check : Implementation × AssertCmd} {c : Variable} (h : H.FailsUnder S check)
    (hguard : H.program.matchCandidate check.2.expr = some c) : c ∈ S := by
  rcases h with ⟨session, staged, hsession, hac, hget, U, hU, C, ρ, _, hagrees,
    hfalse⟩
  by_contra hnot
  have hc : c ∈ H.houdiniConstants :=
    (Program.name_of_matchCandidate hguard).2
  rcases getAssignmentWithStages_eq hget with ⟨completed, hget'⟩
  rw [hget'] at hget
  cases hget
  have hvalue : (ρ c).truth = false := by
    apply hagrees c (Program.houdiniConstants_subset hc)
    rw [withStages_unstaged (hunstaged c hc), if_pos hc,
      assignmentOf_eq_false.mpr hnot]
  exact hfalse.not_holds
    ((session.passified.resolves _ hac _ rfl).holds hguard hvalue)

theorem FailsUnder.persists (hp : H.program.CandidatesGuard)
    {check : Implementation × AssertCmd} (hsub : S ⊆ T)
    (hguard : forall c, H.program.matchCandidate check.2.expr = some c -> c ∈ S)
    (h : H.FailsUnder T check) : H.FailsUnder S check := by
  rcases h with ⟨session, staged, hsession, hac, hget, hrefutes⟩
  rcases getAssignmentWithStages_eq hget with ⟨completed, hget'⟩
  rw [hget'] at hget
  cases hget
  refine ⟨session, _, hsession, hac, hget' _, ?_⟩
  have hle : forall v, v ∈ H.houdiniConstants ->
      assignmentOf S v = true -> assignmentOf T v = true := by
    intro v _ hv
    exact assignmentOf_eq_true.mpr (hsub (assignmentOf_eq_true.mp hv))
  have hlowers := @lowers_withStages H completed _ _ hle
  apply hlowers.refutes hp _ hrefutes
  intro c hc hmem
  have hS : c ∈ S := hguard c (session.passified.guarded hp hac rfl c
    (hlowers.candidates c hc) hmem)
  have hT : c ∈ T := hsub hS
  apply (assigned_of_withStages_ne hc).2
  rw [assignmentOf_eq_true.mpr hT, assignmentOf_eq_true.mpr hS]

def refutation (H : Houdini) (hp : H.program.CandidatesGuard)
    (hunstaged : forall v, v ∈ H.houdiniConstants -> H.Unstaged v) :
    Refutation.System Variable (Implementation × AssertCmd) where
  guard := fun check => H.program.matchCandidate check.2.expr
  fails := H.FailsUnder
  guard_mem := FailsUnder.guard_mem hunstaged
  persists := FailsUnder.persists hp

theorem refutation_inductive {hp : H.program.CandidatesGuard}
    {hunstaged : forall v, v ∈ H.houdiniConstants -> H.Unstaged v} :
    (H.refutation hp hunstaged).Inductive S <-> H.InductiveSet S := by
  constructor
  · intro h impl session hsession staged hget
    rw [session.vc_valid_iff]
    by_contra hnot
    rcases Program.not_verified_iff.mp hnot with ⟨ac, hac, hrefutes⟩
    exact h ⟨impl, ac⟩ ⟨session, staged, hsession, hac, hget, hrefutes⟩
  · intro h check hfails
    rcases hfails with ⟨session, staged, hsession, hac, hget, hrefutes⟩
    have hvalid := h check.1 session hsession staged hget
    rw [session.vc_valid_iff] at hvalid
    exact Program.not_verified_iff.mpr ⟨check.2, hac, hrefutes⟩ hvalid

end Houdini

end Boogie
