import Boogie.Foundation.ParentTree

/-!
# Dominators as a tree of parent pointers

The nodes of a flow graph are numbered from `1`, the root last, so that every
node but the root has a predecessor with a greater number, its parent in a
spanning tree.  A tentative tree of dominators is improved at one node after
another, in decreasing order, until nothing changes.
-/

namespace Dominators

open ParentTree

inductive Avoiding (n : Nat) (Pred : Nat -> Nat -> Prop) (y : Nat) :
    Nat -> Prop where
  | root : n ≠ y -> Avoiding n Pred y n
  | step {x p : Nat} : Avoiding n Pred y p -> Pred x p -> x ≠ y ->
      Avoiding n Pred y x

structure IsMeet (Pred : Nat -> Nat -> Prop) (doms : Nat -> Nat) (b c : Nat) :
    Prop where
  common : forall p, Pred b p -> doms p ≠ 0 -> Climbs doms p c
  first : forall y, (forall p, Pred b p -> doms p ≠ 0 -> Climbs doms p y) ->
    Climbs doms c y

structure Spanned (n : Nat) (Pred : Nat -> Nat -> Prop) (parent : Nat -> Nat) :
    Prop where
  lt : forall x, 0 < x -> x < n -> x < parent x
  le : forall x, 0 < x -> x < n -> parent x ≤ n
  pred : forall x, 0 < x -> x < n -> Pred x (parent x)

/--
The tentative tree before node `m` is processed.  Ways only ever get shorter,
since the pointer of a node lies on the way from its tree parent as long as
nothing above has moved.
-/
structure Approximates (n : Nat) (Pred : Nat -> Nat -> Prop)
    (parent : Nat -> Nat) (m : Nat) (doms : Nat -> Nat) : Prop where
  rooted : Rooted doms n
  processed : forall x, m < x -> x ≤ n -> doms x ≠ 0
  upward : forall x y, doms x ≠ 0 -> x ≤ y -> y ≤ n -> doms y ≠ 0
  post : forall x, x < n -> doms x ≠ 0 -> forall y,
    (forall p, Pred x p -> doms p ≠ 0 -> Climbs doms p y) ->
    Climbs doms (doms x) y
  recent : forall x, x < n -> doms x ≠ 0 -> forall y, y ≤ m ∨ m < x ->
    Climbs doms (doms x) y -> Climbs doms (parent x) y
  spanning : forall x y, doms x ≠ 0 -> Climbs doms x y -> Climbs parent x y
  dominators : forall x y, doms x ≠ 0 -> ¬ Avoiding n Pred y x ->
    Climbs doms x y

variable {n m c x y : Nat} {Pred : Nat -> Nat -> Prop} {parent doms : Nat -> Nat}

theorem Approximates.initial (hn : 0 < n) :
    Approximates n Pred parent (n - 1) (Function.update (fun _ => 0) n n) := by
  have hset : forall x, Function.update (fun _ => 0) n n x ≠ 0 -> x = n := by
    intro x hx
    by_contra hne
    exact hx (Function.update_of_ne hne _ _)
  have hroot : Function.update (fun _ => 0) n n n = n := Function.update_self _ _ _
  have hrooted : Rooted (Function.update (fun _ => 0) n n) n := by
    constructor
    · exact Function.update_of_ne (Nat.ne_of_lt hn) _ _
    · exact hroot
    · intro i hi hi'
      exact absurd (hset i hi') hi
    · intro i
      by_cases hi : i = n
      · exact Nat.le_of_eq (hi ▸ hroot)
      · have hzero := Function.update_of_ne hi n (fun _ => 0)
        exact Nat.le_trans (Nat.le_of_eq hzero) (Nat.zero_le n)
    · intro i hi
      rw [hset i hi, hroot, hroot]
      exact Nat.ne_of_gt hn
  have hgreat : forall x, n - 1 < x -> x ≤ n -> x = n := by
    intro x hlt hle
    exact Nat.le_antisymm hle (Nat.le_of_pred_lt hlt)
  constructor
  · exact hrooted
  · intro x hlt hle
    rw [hgreat x hlt hle, hroot]
    exact Nat.ne_of_gt hn
  · intro x y hx hxy hy
    rw [hset x hx] at hxy
    rw [Nat.le_antisymm hy hxy, hroot]
    exact Nat.ne_of_gt hn
  · intro x hx hset'
    exact absurd (hset x hset') (Nat.ne_of_lt hx)
  · intro x hx hset'
    exact absurd (hset x hset') (Nat.ne_of_lt hx)
  · intro x y hx hclimb
    rw [hset x hx] at hclimb ⊢
    rw [hrooted.eq_root hclimb]
    exact Climbs.refl n
  · intro x y hx hdom
    rw [hset x hx] at hdom ⊢
    have heq : n = y := by
      by_contra hne
      exact hdom (Avoiding.root hne)
    rw [heq]
    exact Climbs.refl y

section Step

variable (hspan : Spanned n Pred parent) (h : Approximates n Pred parent m doms)
  (hm : 0 < m) (hmn : m < n) (hmeet : IsMeet Pred doms m c)

include hspan h hm hmn hmeet

theorem parent_climbs : Climbs doms (parent m) c :=
  hmeet.common (parent m) (hspan.pred m hm hmn)
    (h.processed _ (hspan.lt m hm hmn) (hspan.le m hm hmn))

theorem parent_le : parent m ≤ c :=
  (parent_climbs hspan h hm hmn hmeet).le

theorem lt_meet : m < c :=
  Nat.lt_of_lt_of_le (hspan.lt m hm hmn) (parent_le hspan h hm hmn hmeet)

theorem meet_set : doms c ≠ 0 :=
  h.rooted.set_of_climbs
    (h.processed _ (hspan.lt m hm hmn) (hspan.le m hm hmn))
    (parent_climbs hspan h hm hmn hmeet)

omit hspan hm in
theorem old_climbs (hset : doms m ≠ 0) : Climbs doms (doms m) c :=
  h.post m hmn hset c hmeet.common

theorem shrinks (hset : doms x ≠ 0)
    (hclimb : Climbs (Function.update doms m c) x y) : Climbs doms x y := by
  have hlt := lt_meet hspan h hm hmn hmeet
  by_cases hthrough : Climbs doms x m
  · rcases (Climbs.update_of hlt hthrough).mp hclimb with ⟨hold, _⟩ | hnew
    · exact hold
    · have hmset := h.rooted.set_of_climbs hset hthrough
      have hhead := h.rooted.up m (Nat.ne_of_lt hmn) hmset
      apply hthrough.trans
      apply Climbs.head hhead
      exact (old_climbs h hmn hmeet hmset).trans hnew
  · exact (Climbs.update_of_not hthrough).mp hclimb

omit hspan h hm hmn hmeet in
theorem update_set {i : Nat} (hne : i ≠ m)
    (hset : Function.update doms m c i ≠ 0) : doms i ≠ 0 := by
  rwa [Function.update_of_ne hne] at hset

omit hm hmn hmeet in
theorem parent_set (hx : 0 < x) (hxn : x < n) (hset : doms x ≠ 0) :
    doms (parent x) ≠ 0 :=
  h.upward x (parent x) hset (Nat.le_of_lt (hspan.lt x hx hxn))
    (hspan.le x hx hxn)

theorem step_post (hxn : x < n) (hset : Function.update doms m c x ≠ 0)
    (hall : forall p, Pred x p -> Function.update doms m c p ≠ 0 ->
      Climbs (Function.update doms m c) p y) :
    Climbs (Function.update doms m c) (Function.update doms m c x) y := by
  have hlt := lt_meet hspan h hm hmn hmeet
  have hcset := meet_set hspan h hm hmn hmeet
  have hold : forall p, Pred x p -> doms p ≠ 0 -> Climbs doms p y := by
    intro p hp hpset
    apply shrinks hspan h hm hmn hmeet hpset
    apply hall p hp
    by_cases hpm : p = m
    · rw [hpm, Function.update_self]
      exact Nat.ne_zero_of_lt hlt
    · rwa [Function.update_of_ne hpm]
  by_cases hxm : x = m
  · subst hxm
    rw [Function.update_self, Climbs.update_of_lt hlt]
    exact hmeet.first y hold
  · have hxset := update_set hxm hset
    rw [Function.update_of_ne hxm]
    have hclimb := h.post x hxn hxset y hold
    by_cases hthrough : Climbs doms (doms x) m
    · -- the way from the tree parent goes through `m` as well
      have hx := h.rooted.pos hxset
      have hparent := h.recent x hxn hxset m (Or.inl (Nat.le_refl m)) hthrough
      have hpset := parent_set hspan h hx hxn hxset
      have hpnew : Function.update doms m c (parent x) ≠ 0 := by
        by_cases hpm : parent x = m
        · rw [hpm, Function.update_self]
          exact Nat.ne_zero_of_lt hlt
        · rwa [Function.update_of_ne hpm]
      have hnew := hall (parent x) (hspan.pred x hx hxn) hpnew
      apply (Climbs.update_of hlt hthrough).mpr
      rcases (Climbs.update_of hlt hparent).mp hnew with ⟨_, hle⟩ | hnew
      · exact Or.inl ⟨hclimb, hle⟩
      · exact Or.inr hnew
    · exact (Climbs.update_of_not hthrough).mpr hclimb

theorem step_recent (hxn : x < n) (hset : Function.update doms m c x ≠ 0)
    (hy : y ≤ m - 1 ∨ m - 1 < x)
    (hclimb : Climbs (Function.update doms m c) (Function.update doms m c x) y) :
    Climbs (Function.update doms m c) (parent x) y := by
  have hlt := lt_meet hspan h hm hmn hmeet
  by_cases hxm : x = m
  · subst hxm
    rw [Function.update_self, Climbs.update_of_lt hlt] at hclimb
    rw [Climbs.update_of_lt (hspan.lt x hm hmn)]
    exact (parent_climbs hspan h hm hmn hmeet).trans hclimb
  · have hxset := update_set hxm hset
    have hx := h.rooted.pos hxset
    rw [Function.update_of_ne hxm] at hclimb
    by_cases hmx : m < x
    · have hup := h.rooted.up x (Nat.ne_of_lt hxn) hxset
      rw [Climbs.update_of_lt (Nat.lt_trans hmx hup)] at hclimb
      rw [Climbs.update_of_lt (Nat.lt_trans hmx (hspan.lt x hx hxn))]
      exact h.recent x hxn hxset y (Or.inr hmx) hclimb
    · have hym : y < m := by
        rcases hy with hy | hy
        · exact Nat.lt_of_le_pred hm hy
        · exact absurd (Nat.lt_of_le_of_ne (Nat.le_of_pred_lt hy)
            (Ne.symm hxm)) hmx
      have hle := Nat.le_of_lt hym
      have hold : Climbs doms (doms x) y := by
        by_cases hthrough : Climbs doms (doms x) m
        · rcases (Climbs.update_of hlt hthrough).mp hclimb with
            ⟨hold, _⟩ | hnew
          · exact hold
          · exact absurd (Nat.lt_trans hym hlt) (Nat.not_lt.mpr hnew.le)
        · exact (Climbs.update_of_not hthrough).mp hclimb
      have hparent := h.recent x hxn hxset y (Or.inl hle) hold
      by_cases hthrough : Climbs doms (parent x) m
      · exact (Climbs.update_of hlt hthrough).mpr (Or.inl ⟨hparent, hle⟩)
      · exact (Climbs.update_of_not hthrough).mpr hparent

theorem step_spanning (hset : Function.update doms m c x ≠ 0)
    (hclimb : Climbs (Function.update doms m c) x y) : Climbs parent x y := by
  have hlt := lt_meet hspan h hm hmn hmeet
  by_cases hxm : x = m
  · subst hxm
    rcases hclimb.eq_or_head with heq | ⟨_, hrest⟩
    · rw [heq]
      exact Climbs.refl y
    · rw [Function.update_self, Climbs.update_of_lt hlt] at hrest
      apply Climbs.head (hspan.lt x hm hmn)
      apply h.spanning
      · exact h.processed _ (hspan.lt x hm hmn) (hspan.le x hm hmn)
      · exact (parent_climbs hspan h hm hmn hmeet).trans hrest
  · have hxset := update_set hxm hset
    exact h.spanning x y hxset (shrinks hspan h hm hmn hmeet hxset hclimb)

omit h hm hmeet in
theorem avoiding_of_climbs (hx : 0 < x) (hclimb : Climbs parent x m)
    (hmy : m < y) (havoid : Avoiding n Pred y m) : Avoiding n Pred y x := by
  induction hclimb using Relation.ReflTransGen.head_induction_on with
  | refl => exact havoid
  | head hstep hafter ih =>
    rename_i a d
    have hle : a < m := Nat.lt_of_lt_of_le hstep.1 (Climbs.le hafter)
    have han : a < n := Nat.lt_trans hle hmn
    have hparent := hstep.2
    subst hparent
    exact Avoiding.step (ih (Nat.lt_trans hx hstep.1)) (hspan.pred a hx han)
      (Nat.ne_of_lt (Nat.lt_trans hle hmy))

theorem step_dominators (hset : Function.update doms m c x ≠ 0)
    (hdom : ¬ Avoiding n Pred y x) : Climbs (Function.update doms m c) x y := by
  have hlt := lt_meet hspan h hm hmn hmeet
  have hnew : ¬ Avoiding n Pred y m -> m ≠ y -> Climbs doms c y := by
    intro hdom hne
    apply hmeet.first
    intro p hp hpset
    apply h.dominators p y hpset
    intro havoid
    exact hdom (Avoiding.step havoid hp hne)
  by_cases hxm : x = m
  · subst hxm
    by_cases hxy : x = y
    · rw [hxy]
      exact Climbs.refl y
    · apply Climbs.head
      · rw [Function.update_self]
        exact hlt
      · rw [Function.update_self, Climbs.update_of_lt hlt]
        exact hnew hdom hxy
  · have hxset := update_set hxm hset
    have hold := h.dominators x y hxset hdom
    by_cases hthrough : Climbs doms x m
    · apply (Climbs.update_of hlt hthrough).mpr
      by_cases hle : y ≤ m
      · exact Or.inl ⟨hold, hle⟩
      · right
        have hmy : m < y := Nat.lt_of_not_le hle
        apply hnew _ (Nat.ne_of_lt hmy)
        intro havoid
        apply hdom
        exact avoiding_of_climbs hspan hmn (h.rooted.pos hxset)
          (h.spanning x m hxset hthrough) hmy havoid
    · exact (Climbs.update_of_not hthrough).mpr hold

theorem Approximates.step :
    Approximates n Pred parent (m - 1) (Function.update doms m c) where
  rooted := h.rooted.update hmn hm (lt_meet hspan h hm hmn hmeet)
    (meet_set hspan h hm hmn hmeet)
  processed := by
    intro x hlt hle
    by_cases hxm : x = m
    · rw [hxm, Function.update_self]
      exact Nat.ne_zero_of_lt (lt_meet hspan h hm hmn hmeet)
    · rw [Function.update_of_ne hxm]
      apply h.processed x _ hle
      exact Nat.lt_of_le_of_ne (Nat.le_of_pred_lt hlt) (Ne.symm hxm)
  upward := by
    intro x y hset hxy hyn
    by_cases hym : y = m
    · rw [hym, Function.update_self]
      exact Nat.ne_zero_of_lt (lt_meet hspan h hm hmn hmeet)
    · rw [Function.update_of_ne hym]
      by_cases hxm : x = m
      · apply h.processed y _ hyn
        rw [hxm] at hxy
        exact Nat.lt_of_le_of_ne hxy (Ne.symm hym)
      · exact h.upward x y (update_set hxm hset) hxy hyn
  post := by
    intro x hxn hset y hall
    exact step_post hspan h hm hmn hmeet hxn hset hall
  recent := by
    intro x hxn hset y hy hclimb
    exact step_recent hspan h hm hmn hmeet hxn hset hy hclimb
  spanning := by
    intro x y hset hclimb
    exact step_spanning hspan h hm hmn hmeet hset hclimb
  dominators := by
    intro x y hset hdom
    exact step_dominators hspan h hm hmn hmeet hset hdom

omit hspan hm in
theorem le_meet : doms m ≤ c := by
  by_cases hset : doms m = 0
  · rw [hset]
    exact Nat.zero_le c
  · exact (old_climbs h hmn hmeet hset).le

end Step

theorem Approximates.restart (h : Approximates n Pred parent 0 doms) :
    Approximates n Pred parent (n - 1) doms where
  rooted := h.rooted
  processed := by
    intro x hlt hle
    exact h.processed x (Nat.lt_of_le_of_lt (Nat.zero_le _) hlt) hle
  upward := h.upward
  post := h.post
  recent := by
    intro x hxn hset y _ hclimb
    exact h.recent x hxn hset y (Or.inr (h.rooted.pos hset)) hclimb
  spanning := h.spanning
  dominators := h.dominators

theorem climbs_iff_of_stable (h : Approximates n Pred parent m doms)
    (hpred : forall x p, Pred x p -> 0 < x ∧ x ≤ n ∧ doms p ≠ 0)
    (hstable : forall x, 0 < x -> x < n -> IsMeet Pred doms x (doms x))
    (hx : doms x ≠ 0) : Climbs doms x y <-> ¬ Avoiding n Pred y x := by
  constructor
  · intro hclimb havoid
    clear hx
    induction havoid with
    | root hne => exact hne (h.rooted.eq_root hclimb).symm
    | step hbefore hp hne ih =>
      rename_i x p
      have hbounds := hpred x p hp
      apply ih
      by_cases hxn : x = n
      · subst hxn
        exact absurd (h.rooted.eq_root hclimb).symm hne
      · have hmeet := hstable x hbounds.1
          (Nat.lt_of_le_of_ne hbounds.2.1 hxn)
        rcases hclimb.eq_or_head with heq | ⟨_, hrest⟩
        · exact absurd heq hne
        · exact (hmeet.common p hp hbounds.2.2).trans hrest
  · exact h.dominators x y hx

end Dominators
