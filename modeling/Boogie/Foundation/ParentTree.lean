import Mathlib.Logic.Function.Basic
import Mathlib.Logic.Relation
import Mathlib.Order.Basic

/-!
# Trees of parent pointers

The nodes are numbers, and a pointer leads to a greater number until the root is
reached.  The number `0` stands for a pointer that is not set.
-/

namespace ParentTree

def Climbs (parent : Nat -> Nat) : Nat -> Nat -> Prop :=
  Relation.ReflTransGen (fun i j => i < j ∧ parent i = j)

variable {parent : Nat -> Nat} {n b c i j k : Nat}

namespace Climbs

theorem refl (i : Nat) : Climbs parent i i :=
  Relation.ReflTransGen.refl

theorem trans (h : Climbs parent i j) (h' : Climbs parent j k) :
    Climbs parent i k :=
  Relation.ReflTransGen.trans h h'

theorem head (hlt : i < parent i) (h : Climbs parent (parent i) j) :
    Climbs parent i j :=
  Relation.ReflTransGen.head ⟨hlt, rfl⟩ h

theorem le (h : Climbs parent i j) : i ≤ j := by
  induction h with
  | refl => exact Nat.le_refl i
  | tail _ hstep ih => exact Nat.le_trans ih (Nat.le_of_lt hstep.1)

theorem eq_or_head (h : Climbs parent i j) :
    i = j ∨ (i < parent i ∧ Climbs parent (parent i) j) := by
  rcases Relation.ReflTransGen.cases_head h with heq | ⟨k, ⟨hlt, hparent⟩, hrest⟩
  · exact Or.inl heq
  · right
    rw [hparent]
    exact ⟨hlt, hrest⟩

theorem linear (h : Climbs parent i j) (h' : Climbs parent i k) (hle : j ≤ k) :
    Climbs parent j k := by
  induction h using Relation.ReflTransGen.head_induction_on with
  | refl => exact h'
  | head hstep hrest ih =>
    rename_i a d
    apply ih
    rcases h'.eq_or_head with heq | ⟨_, hhead⟩
    · have hlt : a < j := Nat.lt_of_lt_of_le hstep.1 (Climbs.le hrest)
      rw [heq] at hlt
      exact absurd hle (Nat.not_le.mpr hlt)
    · rwa [hstep.2] at hhead

theorem update_of_lt (hlt : b < i) :
    Climbs (Function.update parent b c) i j <-> Climbs parent i j := by
  constructor
  · intro h
    induction h using Relation.ReflTransGen.head_induction_on with
    | refl => exact refl j
    | head hstep hafter ih =>
      rename_i a d
      have hparent := hstep.2
      rw [Function.update_of_ne (Nat.ne_of_gt hlt)] at hparent
      subst hparent
      exact head hstep.1 (ih (Nat.lt_trans hlt hstep.1))
  · intro h
    induction h using Relation.ReflTransGen.head_induction_on with
    | refl => exact refl j
    | head hstep hafter ih =>
      rename_i a d
      have hparent : Function.update parent b c a = d := by
        rw [Function.update_of_ne (Nat.ne_of_gt hlt)]
        exact hstep.2
      apply Relation.ReflTransGen.head ⟨hstep.1, hparent⟩
      exact ih (Nat.lt_trans hlt hstep.1)

theorem update_of_not (h : ¬ Climbs parent i b) :
    Climbs (Function.update parent b c) i j <-> Climbs parent i j := by
  have hne : forall a, ¬ Climbs parent a b ->
      Function.update parent b c a = parent a := by
    intro a ha
    apply Function.update_of_ne
    intro heq
    subst heq
    exact ha (refl a)
  constructor
  · intro hclimb
    induction hclimb using Relation.ReflTransGen.head_induction_on with
    | refl => exact refl j
    | head hstep hafter ih =>
      rename_i a d
      have hparent := hstep.2
      rw [hne a h] at hparent
      subst hparent
      exact head hstep.1 (ih (fun hrest => h (head hstep.1 hrest)))
  · intro hclimb
    induction hclimb using Relation.ReflTransGen.head_induction_on with
    | refl => exact refl j
    | head hstep hafter ih =>
      rename_i a d
      have hparent : Function.update parent b c a = d := by
        rw [hne a h]
        exact hstep.2
      apply Relation.ReflTransGen.head ⟨hstep.1, hparent⟩
      apply ih
      intro hrest
      apply h
      have hhead := hstep.2
      subst hhead
      exact head hstep.1 hrest

theorem update_of (hbc : b < c) (h : Climbs parent i b) :
    Climbs (Function.update parent b c) i j <->
      (Climbs parent i j ∧ j ≤ b) ∨ Climbs parent c j := by
  induction h using Relation.ReflTransGen.head_induction_on with
  | refl =>
    constructor
    · intro hclimb
      rcases hclimb.eq_or_head with heq | ⟨_, hrest⟩
      · subst heq
        exact Or.inl ⟨refl b, Nat.le_refl b⟩
      · rw [Function.update_self, update_of_lt hbc] at hrest
        exact Or.inr hrest
    · intro hcases
      rcases hcases with ⟨hclimb, hle⟩ | hclimb
      · rw [Nat.le_antisymm hle hclimb.le]
        exact refl b
      · apply head
        · rw [Function.update_self]
          exact hbc
        · rw [Function.update_self, update_of_lt hbc]
          exact hclimb
  | head hstep hrest ih =>
    rename_i a d
    have hlt : a < b := Nat.lt_of_lt_of_le hstep.1 (Climbs.le hrest)
    have hhead := hstep.2
    subst hhead
    have hsame : Function.update parent b c a = parent a :=
      Function.update_of_ne (Nat.ne_of_lt hlt) _ _
    constructor
    · intro hclimb
      rcases hclimb.eq_or_head with heq | ⟨_, hclimb⟩
      · subst heq
        exact Or.inl ⟨refl a, Nat.le_of_lt hlt⟩
      · rw [hsame] at hclimb
        rcases ih.mp hclimb with ⟨hclimb, hle⟩ | hclimb
        · exact Or.inl ⟨head hstep.1 hclimb, hle⟩
        · exact Or.inr hclimb
    · intro hcases
      by_cases heq : a = j
      · subst heq
        exact refl a
      · apply head
        · rw [hsame]
          exact hstep.1
        · rw [hsame]
          apply ih.mpr
          rcases hcases with ⟨hclimb, hle⟩ | hclimb
          · rcases hclimb.eq_or_head with heq' | ⟨_, hclimb⟩
            · exact absurd heq' heq
            · exact Or.inl ⟨hclimb, hle⟩
          · exact Or.inr hclimb

end Climbs

structure Rooted (parent : Nat -> Nat) (n : Nat) : Prop where
  zero : parent 0 = 0
  root : parent n = n
  up : forall i, i ≠ n -> parent i ≠ 0 -> i < parent i
  le : forall i, parent i ≤ n
  set : forall i, parent i ≠ 0 -> parent (parent i) ≠ 0

namespace Rooted

theorem pos (h : Rooted parent n) (hi : parent i ≠ 0) : 0 < i := by
  apply Nat.pos_of_ne_zero
  intro heq
  subst heq
  exact hi h.zero

theorem le_root (h : Rooted parent n) (hi : parent i ≠ 0) : i ≤ n := by
  by_cases heq : i = n
  · exact Nat.le_of_eq heq
  · exact Nat.le_trans (Nat.le_of_lt (h.up i heq hi)) (h.le i)

theorem set_of_climbs (h : Rooted parent n) (hi : parent i ≠ 0)
    (hclimb : Climbs parent i j) : parent j ≠ 0 := by
  induction hclimb with
  | refl => exact hi
  | tail _ hstep ih =>
    rw [← hstep.2]
    exact h.set _ ih

theorem eq_root (h : Rooted parent n) (hclimb : Climbs parent n j) : j = n := by
  rcases hclimb.eq_or_head with heq | ⟨hlt, _⟩
  · exact heq.symm
  · rw [h.root] at hlt
    exact absurd hlt (Nat.lt_irrefl n)

theorem update (h : Rooted parent n) (hbn : b < n) (hb : 0 < b) (hbc : b < c)
    (hc : parent c ≠ 0) : Rooted (Function.update parent b c) n where
  zero := by rw [Function.update_of_ne (Nat.ne_of_lt hb), h.zero]
  root := by rw [Function.update_of_ne (Nat.ne_of_gt hbn), h.root]
  up := by
    intro i hi hset
    by_cases heq : i = b
    · subst heq
      rw [Function.update_self]
      exact hbc
    · rw [Function.update_of_ne heq] at hset ⊢
      exact h.up i hi hset
  le := by
    intro i
    by_cases heq : i = b
    · subst heq
      rw [Function.update_self]
      exact h.le_root hc
    · rw [Function.update_of_ne heq]
      exact h.le i
  set := by
    intro i hset
    have hcnew : Function.update parent b c c ≠ 0 := by
      rw [Function.update_of_ne (Nat.ne_of_gt hbc)]
      exact hc
    by_cases heq : i = b
    · subst heq
      rw [Function.update_self]
      exact hcnew
    · rw [Function.update_of_ne heq] at hset ⊢
      by_cases hparent : parent i = b
      · rw [hparent, Function.update_self]
        exact Nat.ne_zero_of_lt hbc
      · rw [Function.update_of_ne hparent]
        exact h.set i hset

end Rooted

end ParentTree
