import Mathlib.Order.WellFounded

/-!
# Equations along a well-founded relation

A system of propositional equations in which every unknown depends on earlier
ones only has exactly one solution.
-/

namespace FixedPoint

def Local (r : α -> α -> Prop) (F : α -> (α -> Prop) -> Prop) : Prop :=
  forall a p q, (forall b, r b a -> (p b <-> q b)) -> (F a p <-> F a q)

def IsSolution (F : α -> (α -> Prop) -> Prop) (p : α -> Prop) : Prop :=
  forall a, p a <-> F a p

theorem exists_solution {r : α -> α -> Prop} (hr : WellFounded r)
    {F : α -> (α -> Prop) -> Prop} (hF : Local r F) :
    exists p, IsSolution F p := by
  refine ⟨hr.fix (fun a rec => F a (fun b => exists h : r b a, rec b h)), ?_⟩
  intro a
  rw [hr.fix_eq]
  apply hF
  intro b hb
  constructor
  · rintro ⟨_, h⟩
    exact h
  · intro h
    exact ⟨hb, h⟩

theorem solution_unique {r : α -> α -> Prop} (hr : WellFounded r)
    {F : α -> (α -> Prop) -> Prop} (hF : Local r F) {s : α -> Prop}
    (hclosed : forall a b, s a -> r b a -> s b) {p q : α -> Prop}
    (hp : forall a, s a -> (p a <-> F a p)) (hq : forall a, s a -> (q a <-> F a q)) :
    forall a, s a -> (p a <-> q a) := by
  intro a
  induction a using hr.induction with
  | _ a ih =>
    intro ha
    rw [hp a ha, hq a ha]
    exact hF a p q (fun b hb => ih b hb (hclosed a b ha hb))

end FixedPoint
