import Mathlib.Logic.Function.Basic
import Mathlib.Logic.Relation

/-!
# Chains of links

A partial map links nodes to others, and a chain of links is followed to its end.
The links are set one by one, each from a node to the end of the chain of its parent,
in any order of the nodes.
-/

namespace Chains

variable {A : Type}

def follow (link : A -> Option A) : Nat -> A -> Option A
  | 0, _ => none
  | fuel + 1, x =>
    match link x with
    | none => some x
    | some y => follow link fuel y

inductive EndsAt (link : A -> Option A) (r : A) : A -> Prop where
  | stop (h : link r = none) : EndsAt link r r
  | next {x y : A} (h : link x = some y) (hrest : EndsAt link r y) : EndsAt link r x

section Ends

variable {link : A -> Option A} {r r' x y b p : A}

theorem EndsAt.end_none (h : EndsAt link r x) : link r = none := by
  induction h with
  | stop h => exact h
  | next _ _ ih => exact ih

theorem EndsAt.unique (h : EndsAt link r x) (h' : EndsAt link r' x) : r = r' := by
  induction h with
  | stop h =>
    cases h' with
    | stop _ => rfl
    | next hx _ =>
      rw [h] at hx
      cases hx
  | next hx _ ih =>
    cases h' with
    | stop h =>
      rw [h] at hx
      cases hx
    | next hx' hrest =>
      rw [hx, Option.some.injEq] at hx'
      exact ih (hx' ▸ hrest)

theorem EndsAt.of_none (h : EndsAt link r x) (hx : link x = none) : r = x :=
  h.unique (.stop hx)

theorem exists_follow (h : EndsAt link r x) :
    exists bound, forall fuel, bound ≤ fuel -> follow link fuel x = some r := by
  induction h with
  | stop h =>
    refine ⟨1, ?_⟩
    intro fuel hfuel
    rcases Nat.exists_eq_add_of_le' hfuel with ⟨n, rfl⟩
    rw [follow, h]
  | next hx _ ih =>
    rcases ih with ⟨bound, hbound⟩
    refine ⟨bound + 1, ?_⟩
    intro fuel hfuel
    rcases Nat.exists_eq_add_of_le' hfuel with ⟨n, rfl⟩
    rw [← Nat.add_assoc, follow, hx]
    exact hbound _ (Nat.le_add_left ..)

variable [DecidableEq A]

theorem endsAt_update (hb : link b = none) (hr : link r = none) (hne : r ≠ b) {z : A} :
    EndsAt (Function.update link b (some r)) z x <->
      EndsAt link z x ∧ z ≠ b ∨ z = r ∧ EndsAt link b x := by
  have hself : Function.update link b (some r) b = some r := Function.update_self ..
  have hother : forall u, u ≠ b -> Function.update link b (some r) u = link u :=
    fun u hu => Function.update_of_ne hu ..
  constructor
  · intro h
    induction h with
    | stop h =>
      rcases eq_or_ne z b with rfl | hz
      · rw [hself] at h
        cases h
      · rw [hother z hz] at h
        exact Or.inl ⟨.stop h, hz⟩
    | next h hrest ih =>
      rename_i u v
      rcases eq_or_ne u b with rfl | hu
      · rw [hself, Option.some.injEq] at h
        subst h
        rcases ih with ⟨hz, _⟩ | ⟨hz, _⟩
        · exact Or.inr ⟨hz.of_none hr, .stop hb⟩
        · exact Or.inr ⟨hz, .stop hb⟩
      · rw [hother u hu] at h
        rcases ih with ⟨hz, hzb⟩ | ⟨hz, hend⟩
        · exact Or.inl ⟨.next h hz, hzb⟩
        · exact Or.inr ⟨hz, .next h hend⟩
  · rintro (⟨h, hz⟩ | ⟨rfl, h⟩)
    · induction h with
      | stop h => exact .stop ((hother z hz).trans h)
      | next h hrest ih =>
        rename_i u v
        have hu : u ≠ b := by
          rintro rfl
          rw [hb] at h
          cases h
        exact .next ((hother u hu).trans h) ih
    · induction h with
      | stop _ => exact .next hself (.stop ((hother z hne).trans hr))
      | next h hrest ih =>
        rename_i u v
        have hu : u ≠ b := by
          rintro rfl
          rw [hb] at h
          cases h
        exact .next ((hother u hu).trans h) ih

end Ends

/-!
# Linking nodes to the ends of their parents
-/

/-- The links are set for some nodes with a parent.  A node ends where its parent does,
and behind each end there is one last node, which is no parent of a linked one. -/
structure Linked (parent link : A -> Option A) (last : A -> A) : Prop where
  child : forall b, link b ≠ none -> parent b ≠ none
  ends : forall x, exists r, EndsAt link r x
  same : forall b p, parent b = some p -> link b ≠ none ->
    forall r, EndsAt link r b <-> EndsAt link r p
  last_ends : forall r, link r = none -> EndsAt link r (last r)
  last_free : forall r, link r = none -> forall q, parent q = some (last r) -> link q = none
  inner : forall r x, EndsAt link r x -> x = last r ∨
    exists q, parent q = some x ∧ link q ≠ none

section Linking

variable {parent link : A -> Option A} {last : A -> A} {b p r x : A}

theorem linked_none : Linked parent (fun _ => none) id where
  child := fun _ h => absurd rfl h
  ends := fun x => ⟨x, .stop rfl⟩
  same := fun _ _ _ h => absurd rfl h
  last_ends := fun _ h => .stop h
  last_free := fun _ _ _ _ => rfl
  inner := fun _ _ h => Or.inl (h.of_none rfl).symm

theorem Linked.eq_last (h : Linked parent link last)
    (hinj : forall q q' x, parent q = some x -> parent q' = some x -> q = q')
    (hb : link b = none) (hp : parent b = some p) (hr : EndsAt link r p) : p = last r := by
  rcases h.inner r p hr with heq | ⟨q, hq, hlinked⟩
  · exact heq
  · rw [hinj q b p hq hp] at hlinked
    exact absurd hb hlinked

variable [DecidableEq A]

theorem Linked.update (h : Linked parent link last)
    (hinj : forall q q' x, parent q = some x -> parent q' = some x -> q = q')
    (hb : link b = none) (hp : parent b = some p) (hr : EndsAt link r p) (hne : r ≠ b) :
    Linked parent (Function.update link b (some r)) (Function.update last r (last b)) := by
  have hrnone := hr.end_none
  have hself : Function.update link b (some r) b ≠ none := by
    rw [Function.update_self]
    exact Option.some_ne_none r
  have hnone : forall u, Function.update link b (some r) u = none ->
      u ≠ b ∧ link u = none := by
    intro u hu
    have hub : u ≠ b := by
      rintro rfl
      exact hself hu
    rw [Function.update_of_ne hub] at hu
    exact ⟨hub, hu⟩
  have hmono : forall u, link u ≠ none -> Function.update link b (some r) u ≠ none := by
    intro u hu hupdate
    exact hu (hnone u hupdate).right
  constructor
  · intro u hu
    rcases eq_or_ne u b with rfl | hub
    · rw [hp]
      exact Option.some_ne_none p
    · rw [Function.update_of_ne hub] at hu
      exact h.child u hu
  · intro x
    rcases h.ends x with ⟨z, hz⟩
    rcases eq_or_ne z b with rfl | hzb
    · exact ⟨r, (endsAt_update hb hrnone hne).mpr (Or.inr ⟨rfl, hz⟩)⟩
    · exact ⟨z, (endsAt_update hb hrnone hne).mpr (Or.inl ⟨hz, hzb⟩)⟩
  · intro u v hv hu z
    rw [endsAt_update hb hrnone hne, endsAt_update hb hrnone hne]
    rcases eq_or_ne u b with rfl | hub
    · rw [hp, Option.some.injEq] at hv
      subst hv
      constructor
      · rintro (⟨hz, hzb⟩ | ⟨rfl, _⟩)
        · exact absurd (hz.of_none hb) hzb
        · exact Or.inl ⟨hr, hne⟩
      · rintro (⟨hz, _⟩ | ⟨rfl, hz⟩)
        · exact Or.inr ⟨hz.unique hr, .stop hb⟩
        · exact absurd (hz.unique hr).symm hne
    · rw [Function.update_of_ne hub] at hu
      rw [h.same u v hv hu, h.same u v hv hu]
  · intro z hz
    rcases hnone z hz with ⟨hzb, hz⟩
    rw [endsAt_update hb hrnone hne]
    rcases eq_or_ne z r with rfl | hzr
    · rw [Function.update_self]
      exact Or.inr ⟨rfl, h.last_ends b hb⟩
    · rw [Function.update_of_ne hzr]
      exact Or.inl ⟨h.last_ends z hz, hzb⟩
  · intro z hz q hq
    rcases hnone z hz with ⟨hzb, hz⟩
    have hends : EndsAt link (if z = r then b else z) (Function.update last r (last b) z) := by
      split
      next hzr =>
        rw [hzr, Function.update_self]
        exact h.last_ends b hb
      next hzr =>
        rw [Function.update_of_ne hzr]
        exact h.last_ends z hz
    have hqb : q ≠ b := by
      rintro rfl
      rw [hp, Option.some.injEq] at hq
      rw [← hq] at hends
      have heq := hends.unique hr
      split at heq
      next hzr => exact hne heq.symm
      next hzr => exact hzr heq
    rw [Function.update_of_ne hqb]
    rcases eq_or_ne z r with rfl | hzr
    · rw [Function.update_self] at hq
      exact h.last_free b hb q hq
    · rw [Function.update_of_ne hzr] at hq
      exact h.last_free z hz q hq
  · intro z x hx
    rcases (endsAt_update hb hrnone hne).mp hx with ⟨hz, hzb⟩ | ⟨rfl, hz⟩
    · rcases h.inner z x hz with heq | ⟨q, hq, hlinked⟩
      · rcases eq_or_ne z r with rfl | hzr
        · right
          refine ⟨b, ?_, hself⟩
          rw [hp, heq, h.eq_last hinj hb hp hr]
        · rw [Function.update_of_ne hzr]
          exact Or.inl heq
      · exact Or.inr ⟨q, hq, hmono q hlinked⟩
    · rw [Function.update_self]
      rcases h.inner b x hz with heq | ⟨q, hq, hlinked⟩
      · exact Or.inl heq
      · exact Or.inr ⟨q, hq, hmono q hlinked⟩

omit [DecidableEq A] in
theorem Linked.cycle (h : Linked parent link last)
    (hinj : forall q q' x, parent q = some x -> parent q' = some x -> q = q')
    (hb : link b = none) (hp : parent b = some p) (hcycle : EndsAt link b p)
    (hx : EndsAt link b x) :
    (exists y, parent x = some y ∧ EndsAt link b y) ∧
      exists q, parent q = some x ∧ EndsAt link b q := by
  constructor
  · cases hlink : link x with
    | none =>
      have heq := hx.of_none hlink
      exact ⟨p, heq ▸ hp, hcycle⟩
    | some z =>
      have hlinked : link x ≠ none := by
        rw [hlink]
        exact Option.some_ne_none z
      rcases Option.ne_none_iff_exists'.mp (h.child x hlinked) with ⟨y, hy⟩
      exact ⟨y, hy, (h.same x y hy hlinked b).mp hx⟩
  · rcases h.inner b x hx with heq | ⟨q, hq, hlinked⟩
    · rw [heq, ← h.eq_last hinj hb hp hcycle]
      exact ⟨b, hp, .stop hb⟩
    · exact ⟨q, hq, (h.same q x hq hlinked b).mpr hx⟩

end Linking

end Chains
