import Boogie.Core.Expr

/-!
# Visits that collect

A visitor rewrites an expression and collects elements that it numbers.  A visit
is described by what it finds and leaves, and the visits of the arguments of an
application follow one another.
-/

namespace Boogie

variable {A : Type}

structure Visit (A : Type) where
  counter : Nat
  before : Expr
  after : Expr
  added : List A

def Consecutive : Nat -> List (Visit A) -> Prop
  | _, [] => True
  | n, v :: vs => v.counter = n ∧ Consecutive (n + v.added.length) vs

def NumberedFrom (P : Nat -> A -> Prop) : Nat -> List A -> Prop
  | _, [] => True
  | n, a :: as => P n a ∧ NumberedFrom P (n + 1) as

section Numbers

variable {P Q : Nat -> A -> Prop} {n : Nat} {as bs : List A} {a : A}
  {vs : List (Visit A)} {v : Visit A}

theorem NumberedFrom.append (h : NumberedFrom P n as)
    (h' : NumberedFrom P (n + as.length) bs) : NumberedFrom P n (as ++ bs) := by
  induction as generalizing n with
  | nil => exact h'
  | cons a as ih =>
    constructor
    · exact h.1
    · apply ih h.2
      rw [List.length_cons] at h'
      rwa [Nat.add_assoc, Nat.add_comm 1]

theorem NumberedFrom.exists_number (h : NumberedFrom P n as) (ha : a ∈ as) :
    exists m, n ≤ m ∧ m < n + as.length ∧ P m a := by
  induction as generalizing n with
  | nil => cases ha
  | cons b as ih =>
    rcases List.mem_cons.mp ha with rfl | ha
    · exact ⟨n, Nat.le_refl n, Nat.lt_add_of_pos_right (Nat.succ_pos _), h.1⟩
    · rcases ih h.2 ha with ⟨m, hm, hlt, hP⟩
      refine ⟨m, Nat.le_of_succ_le hm, ?_, hP⟩
      rwa [List.length_cons, Nat.add_comm as.length, ← Nat.add_assoc]

theorem Consecutive.numbered (h : Consecutive n vs)
    (hvs : forall v, v ∈ vs -> NumberedFrom P v.counter v.added) :
    NumberedFrom P n (vs.flatMap Visit.added) := by
  induction vs generalizing n with
  | nil => trivial
  | cons v vs ih =>
    rcases h with ⟨rfl, hrest⟩
    rw [List.flatMap_cons]
    exact (hvs v List.mem_cons_self).append
      (ih hrest (fun w hw => hvs w (List.mem_cons_of_mem v hw)))

theorem Consecutive.within (h : Consecutive n vs) (hv : v ∈ vs) :
    n ≤ v.counter ∧ v.counter + v.added.length ≤ n + (vs.flatMap Visit.added).length := by
  induction vs generalizing n with
  | nil => cases hv
  | cons w vs ih =>
    rcases h with ⟨rfl, hrest⟩
    rw [List.flatMap_cons, List.length_append, ← Nat.add_assoc]
    rcases List.mem_cons.mp hv with rfl | hv
    · exact ⟨Nat.le_refl _, Nat.le_add_right _ _⟩
    · rcases ih hrest hv with ⟨hle, hend⟩
      exact ⟨Nat.le_trans (Nat.le_add_right _ _) hle, hend⟩

/--
What is assigned to the elements of each visit can be assigned to all of them at
once, since no two visits share a number.
-/
theorem Consecutive.exists_assignment {V : Type} [Nonempty V]
    {R : Visit A -> (A -> V) -> Prop}
    (hunique : forall {m k : Nat} {a : A}, P m a -> P k a -> m = k)
    (hR : forall {v : Visit A} {f g : A -> V},
      (forall a, a ∈ v.added -> f a = g a) -> R v f -> R v g) (h : Consecutive n vs)
    (hnumbered : forall v, v ∈ vs -> NumberedFrom P v.counter v.added)
    (hexists : forall v, v ∈ vs -> exists f, R v f) :
    exists f, forall v, v ∈ vs -> R v f := by
  classical
  induction vs generalizing n with
  | nil =>
    rcases ‹Nonempty V› with ⟨d⟩
    exists fun _ => d
    intro v hv
    cases hv
  | cons v vs ih =>
    rcases h with ⟨rfl, hrest⟩
    rcases hexists v List.mem_cons_self with ⟨f, hf⟩
    have hnumbered' := fun w hw => hnumbered w (List.mem_cons_of_mem v hw)
    rcases ih hrest hnumbered'
        (fun w hw => hexists w (List.mem_cons_of_mem v hw)) with ⟨g, hg⟩
    exists fun a => if a ∈ v.added then f a else g a
    intro w hw
    rcases List.mem_cons.mp hw with rfl | hw
    · apply hR _ hf
      exact fun a ha => (if_pos ha).symm
    · apply hR _ (hg w hw)
      intro a ha
      have hnot : a ∉ v.added := by
        intro hv
        rcases (hnumbered v List.mem_cons_self).exists_number hv with
          ⟨m, _, hlt, hm⟩
        rcases (hnumbered' w hw).exists_number ha with ⟨k, hle, _, hk⟩
        have hstart := (hrest.within hw).1
        rw [hunique hm hk] at hlt
        exact absurd hlt (Nat.not_lt.mpr (Nat.le_trans hstart hle))
      exact (if_neg hnot).symm

end Numbers

end Boogie
