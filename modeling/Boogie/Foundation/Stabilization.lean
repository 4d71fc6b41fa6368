import Mathlib.Data.List.Basic
import Mathlib.Logic.Relation
import Mathlib.Order.WellFounded

/-!
# Sequences that change finitely often
-/

namespace Stabilization

theorem eventually_constant {A : Type*} {r : A -> A -> Prop} (hr : WellFounded r)
    (d : Nat -> A) {start : Nat}
    (h : forall n, start ≤ n -> d (n + 1) = d n ∨ r (d (n + 1)) (d n)) :
    exists N, start ≤ N ∧ forall n, N ≤ n -> d n = d N := by
  have hmem : d start ∈ Set.image d { n | start ≤ n } :=
    Set.mem_image_of_mem d (le_refl start)
  rcases hr.has_min _ ⟨_, hmem⟩ with ⟨_, ⟨N, hN, rfl⟩, hmin⟩
  refine ⟨N, hN, ?_⟩
  intro n hn
  induction n, hn using Nat.le_induction with
  | base => rfl
  | succ n hle ih =>
    have hstart : start ≤ n + 1 := le_trans hN (Nat.le_succ_of_le hle)
    rcases h n (le_trans hN hle) with hsame | hless
    · rw [hsame, ih]
    · rw [ih] at hless
      exact absurd hless (hmin _ ⟨n + 1, hstart, rfl⟩)

theorem not_decreasing {size : Nat -> Nat} {N : Nat} :
    ¬ forall n, N ≤ n -> size (n + 1) < size n := by
  intro h
  have hbound : forall n, size (N + n) + n ≤ size N := by
    intro n
    induction n with
    | zero => simp
    | succ n ih =>
      have hlt := h (N + n) (Nat.le_add_right N n)
      rw [Nat.add_assoc] at hlt
      omega
  have hlast := hbound (size N + 1)
  omega

end Stabilization
