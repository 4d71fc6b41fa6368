import Mathlib.Data.List.Basic
import Mathlib.Data.Set.Defs
import Mathlib.Logic.Relation

/-!
# Lists without subsumed entries

A list to which an entry is added only if no other entry implies it, and then
takes the place of all entries that it implies.
-/

namespace Subsumption

variable {α : Type} (implies : α -> α -> Bool)

/-- The entries that stay when `d` is added; `none` if one of them implies it. -/
def prune (l : List α) (d : α) : Option (List α) :=
  if l.any (fun c => implies c d) then none
  else some (l.filter (fun c => !implies d c))

def addLast (l : List α) (d : α) : List α :=
  match prune implies l d with
  | none => l
  | some l' => l' ++ [d]

def addFirst (l : List α) (d : α) : List α :=
  match prune implies l d with
  | none => l
  | some l' => d :: l'

def Covers (l : List α) (x : α) : Prop :=
  exists c, c ∈ l ∧ implies c x = true

structure Preorder : Prop where
  refl : forall c, implies c c = true
  trans : forall c d e, implies c d = true -> implies d e = true ->
    implies c e = true

section Add

variable {implies} {l l' : List α} {c d x : α}

theorem prune_eq_none (h : prune implies l d = none) : Covers implies l d := by
  unfold prune at h
  split at h
  · next hany =>
      rcases List.any_eq_true.mp hany with ⟨c, hc, himplies⟩
      exact ⟨c, hc, himplies⟩
  · cases h

theorem prune_eq_some (h : prune implies l d = some l') :
    forall c, c ∈ l' <-> c ∈ l ∧ implies d c = false := by
  unfold prune at h
  split at h
  · cases h
  · cases h
    intro c
    simp

theorem mem_addFirst_iff : c ∈ addFirst implies l d <-> c ∈ addLast implies l d := by
  unfold addFirst addLast
  cases prune implies l d with
  | none => exact Iff.rfl
  | some l' => simp [or_comm]

theorem mem_addLast (h : c ∈ addLast implies l d) : c ∈ l ∨ c = d := by
  unfold addLast at h
  cases hprune : prune implies l d with
  | none =>
    rw [hprune] at h
    exact Or.inl h
  | some l' =>
    rw [hprune] at h
    rcases List.mem_append.mp h with h | h
    · exact Or.inl ((prune_eq_some hprune c).mp h).1
    · exact Or.inr (List.mem_singleton.mp h)

theorem covers_addLast (hpre : Preorder implies) :
    Covers implies (addLast implies l d) x <-> Covers implies l x ∨ implies d x = true := by
  constructor
  · rintro ⟨c, hc, himplies⟩
    rcases mem_addLast hc with hc | rfl
    · exact Or.inl ⟨c, hc, himplies⟩
    · exact Or.inr himplies
  · unfold addLast
    cases hprune : prune implies l d with
    | none =>
      rintro (h | h)
      · exact h
      · rcases prune_eq_none hprune with ⟨c, hc, hcd⟩
        exact ⟨c, hc, hpre.trans c d x hcd h⟩
    | some l' =>
      have hnew : d ∈ l' ++ [d] := List.mem_append_right _ List.mem_cons_self
      rintro (⟨c, hc, hcx⟩ | h)
      · cases hdc : implies d c with
        | true => exact ⟨d, hnew, hpre.trans d c x hdc hcx⟩
        | false =>
          have hkept := (prune_eq_some hprune c).mpr ⟨hc, hdc⟩
          exact ⟨c, List.mem_append_left _ hkept, hcx⟩
      · exact ⟨d, hnew, h⟩

theorem forall_addLast (hpre : Preorder implies) {P : α -> Prop}
    (hP : forall c d, implies c d = true -> P c -> P d) :
    (forall c, c ∈ addLast implies l d -> P c) <-> (forall c, c ∈ l -> P c) ∧ P d := by
  constructor
  · intro hall
    have hcovered : forall x, Covers implies l x ∨ implies d x = true ->
        P x := by
      intro x hx
      rcases (covers_addLast hpre).mpr hx with ⟨c, hc, hcx⟩
      exact hP c x hcx (hall c hc)
    exact ⟨fun c hc => hcovered c (Or.inl ⟨c, hc, hpre.refl c⟩),
      hcovered d (Or.inr (hpre.refl d))⟩
  · rintro ⟨hall, hd⟩ c hc
    rcases mem_addLast hc with hc | rfl
    · exact hall c hc
    · exact hd

theorem exists_addFirst (hpre : Preorder implies) {P : α -> Prop}
    (hP : forall c d, implies c d = true -> P d -> P c) :
    (exists c, c ∈ addFirst implies l d ∧ P c) <-> (exists c, c ∈ l ∧ P c) ∨ P d := by
  have hforall := forall_addLast (l := l) (d := d) hpre (P := fun c => ¬ P c)
    (fun c d hcd hc hd => hc (hP c d hcd hd))
  have hnot := not_congr hforall
  simp only [not_and_or, not_forall, not_not] at hnot
  simp only [mem_addFirst_iff]
  constructor
  · rintro ⟨c, hc, hPc⟩
    rcases hnot.mp ⟨c, hc, hPc⟩ with ⟨c, hc, hPc⟩ | hd
    · exact Or.inl ⟨c, hc, hPc⟩
    · exact Or.inr hd
  · intro h
    have hsome : (exists c, exists (_ : c ∈ l), P c) ∨ P d := by
      rcases h with ⟨c, hc, hPc⟩ | hd
      · exact Or.inl ⟨c, hc, hPc⟩
      · exact Or.inr hd
    rcases hnot.mpr hsome with ⟨c, hc, hPc⟩
    exact ⟨c, hc, hPc⟩

/-!
# Several entries
-/

theorem mem_foldl_addLast {ds : List α}
    (h : c ∈ ds.foldl (addLast implies) l) : c ∈ l ∨ c ∈ ds := by
  induction ds generalizing l with
  | nil => exact Or.inl h
  | cons d ds ih =>
    rcases ih h with h | h
    · rcases mem_addLast h with h | rfl
      · exact Or.inl h
      · exact Or.inr List.mem_cons_self
    · exact Or.inr (List.mem_cons_of_mem d h)

theorem covers_foldl_addLast (hpre : Preorder implies) {ds : List α} :
    Covers implies (ds.foldl (addLast implies) l) x <->
      Covers implies l x ∨ Covers implies ds x := by
  induction ds generalizing l with
  | nil => simp [Covers]
  | cons d ds ih =>
    rw [List.foldl_cons, ih, covers_addLast hpre, or_assoc]
    simp [Covers]

theorem exists_foldl_addFirst (hpre : Preorder implies) {P : α -> Prop}
    (hP : forall c d, implies c d = true -> P d -> P c) {ds : List α} :
    (exists c, c ∈ ds.foldl (addFirst implies) l ∧ P c) <->
      (exists c, c ∈ l ∧ P c) ∨ exists d, d ∈ ds ∧ P d := by
  induction ds generalizing l with
  | nil => simp
  | cons d ds ih =>
    rw [List.foldl_cons, ih, exists_addFirst hpre hP, or_assoc]
    simp

end Add

/-!
# Covered entries

Entries that another one covers can be dropped all at once when covering does not
go in circles.
-/

structure Uncovered (covers : α -> α -> Prop) (S : Set α) (x : α) : Prop where
  mem : x ∈ S
  not_covered : forall y, y ∈ S -> ¬ covers y x

theorem exists_uncovered {covers : α -> α -> Prop} (hwf : WellFounded covers)
    {S : Set α} {x : α} (hx : x ∈ S) :
    exists y, Uncovered covers S y ∧ Relation.ReflTransGen covers y x := by
  induction x using hwf.induction with
  | h x ih =>
    by_cases h : exists y, y ∈ S ∧ covers y x
    · rcases h with ⟨y, hy, hcovers⟩
      rcases ih y hcovers hy with ⟨z, hz, hreaches⟩
      exact ⟨z, hz, hreaches.tail hcovers⟩
    · refine ⟨x, ⟨hx, ?_⟩, Relation.ReflTransGen.refl⟩
      exact fun y hy hcovers => h ⟨y, hy, hcovers⟩

theorem forall_of_uncovered {covers : α -> α -> Prop}
    (hwf : WellFounded covers) {S : Set α} {P : α -> Prop}
    (hP : forall x y, covers x y -> P x -> P y)
    (h : forall x, Uncovered covers S x -> P x) (x : α) (hx : x ∈ S) : P x := by
  rcases exists_uncovered hwf hx with ⟨y, hy, hreaches⟩
  clear hx
  induction hreaches with
  | refl => exact h y hy
  | tail _ hcovers ih => exact hP _ _ hcovers ih

end Subsumption
