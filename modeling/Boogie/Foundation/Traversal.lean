import Mathlib.Data.List.Forall2

/-!
# Traversing a list with a partial function
-/

namespace Traversal

universe u v

variable {A : Type u} {B : Type v} {f : A -> Option B} {as : List A}
  {bs : List B}

theorem mapM_eq_map {g : A -> B} (h : forall a, a ∈ as -> f a = some (g a)) :
    as.mapM f = some (as.map g) := by
  induction as with
  | nil => rfl
  | cons a as ih =>
    have hrest := ih (fun b hb => h b (List.mem_cons_of_mem a hb))
    rw [List.mapM_cons, h a List.mem_cons_self, hrest]
    rfl

theorem exists_mapM (h : forall a, a ∈ as -> exists b, f a = some b) :
    exists bs, as.mapM f = some bs := by
  induction as with
  | nil => exact ⟨[], rfl⟩
  | cons a as ih =>
    rcases h a List.mem_cons_self with ⟨b, hb⟩
    rcases ih (fun c hc => h c (List.mem_cons_of_mem a hc)) with ⟨bs, hbs⟩
    exact ⟨b :: bs, by simp [List.mapM_cons, hb, hbs]⟩

theorem exists_of_mapM_eq_none (h : as.mapM f = none) :
    exists a, a ∈ as ∧ f a = none := by
  by_contra hnot
  rcases exists_mapM (f := f) (fun a ha =>
    Option.ne_none_iff_exists'.mp (fun hnone => hnot ⟨a, ha, hnone⟩)) with ⟨bs, hbs⟩
  rw [h] at hbs
  cases hbs

theorem map_eq_of_mapM (h : as.mapM f = some bs) : as.map f = bs.map some := by
  induction as generalizing bs with
  | nil =>
    cases h
    rfl
  | cons a as ih =>
    simp only [List.mapM_cons, Option.bind_eq_bind, Option.bind_eq_some_iff,
      Option.pure_def, Option.some.injEq] at h
    rcases h with ⟨b, hb, rest, hrest, rfl⟩
    rw [List.map_cons, List.map_cons, hb, ih hrest]

theorem length_of_mapM (h : as.mapM f = some bs) : bs.length = as.length := by
  have hlength := congrArg List.length (map_eq_of_mapM h)
  rw [List.length_map, List.length_map] at hlength
  exact hlength.symm

theorem mem_of_mapM {b : B} (h : as.mapM f = some bs) :
    b ∈ bs <-> exists a, a ∈ as ∧ f a = some b := by
  rw [← List.mem_map, map_eq_of_mapM h]
  simp

theorem exists_of_mapM {a : A} (h : as.mapM f = some bs) (ha : a ∈ as) :
    exists b, b ∈ bs ∧ f a = some b := by
  have hmem : f a ∈ bs.map some := by
    rw [← map_eq_of_mapM h]
    exact List.mem_map_of_mem ha
  rcases List.mem_map.mp hmem with ⟨b, hb, heq⟩
  exact ⟨b, hb, heq.symm⟩

theorem getElem?_of_mapM {i : Nat} {b : B} (h : as.mapM f = some bs) :
    bs[i]? = some b <-> exists a, as[i]? = some a ∧ f a = some b := by
  have heq := congrArg (fun l => l[i]?) (map_eq_of_mapM h)
  simp only [List.getElem?_map] at heq
  constructor
  · intro hb
    rw [hb, Option.map_some, Option.map_eq_some_iff] at heq
    exact heq
  · rintro ⟨a, ha, hfa⟩
    rw [ha, Option.map_some, hfa, eq_comm, Option.map_eq_some_iff] at heq
    rcases heq with ⟨b', hb', hsome⟩
    rw [hb', Option.some.inj hsome]

theorem ne_none_of_mapM {a : A} (h : as.mapM f = some bs) (ha : a ∈ as) :
    f a ≠ none := by
  rcases exists_of_mapM h ha with ⟨b, _, hb⟩
  rw [hb]
  exact Option.some_ne_none b

theorem forall₂_of_mapM (h : as.mapM f = some bs) :
    List.Forall₂ (fun a b => a ∈ as ∧ f a = some b) as bs := by
  have hall : List.Forall₂ (fun a b => f a = some b) as bs := by
    have hmap : List.Forall₂ (fun a b => a = some b) (as.map f) bs := by
      rw [map_eq_of_mapM h, List.forall₂_map_left_iff]
      exact List.forall₂_same.mpr (fun _ _ => rfl)
    exact List.forall₂_map_left_iff.mp hmap
  exact (List.forall₂_and_left as bs).mpr ⟨fun a ha => ha, hall⟩

theorem eq_filterMap_of_mapM (h : as.mapM f = some bs) :
    bs = as.filterMap f := by
  calc
    bs = (bs.map some).filterMap id := by simp
    _ = (as.map f).filterMap id := by rw [map_eq_of_mapM h]
    _ = as.filterMap f := List.filterMap_map

theorem foldlM_keeps {S : Type v} {step : S -> A -> Option S} {P : S -> Prop}
    {s s' : S} (h : forall s a s', a ∈ as -> P s -> step s a = some s' -> P s')
    (hs : P s) (hrun : as.foldlM step s = some s') : P s' := by
  induction as generalizing s with
  | nil =>
    cases hrun
    exact hs
  | cons a as ih =>
    rw [List.foldlM_cons] at hrun
    rcases Option.bind_eq_some_iff.mp hrun with ⟨s'', hstep, hrest⟩
    exact ih (fun s b s' hb => h s b s' (List.mem_cons_of_mem a hb))
      (h s a s'' List.mem_cons_self hs hstep) hrest

theorem exists_foldlM {S : Type v} {step : S -> A -> Option S} {P : S -> Prop}
    (h : forall s a, a ∈ as -> P s -> exists s', step s a = some s' ∧ P s')
    {s : S} (hs : P s) :
    exists s', as.foldlM step s = some s' ∧ P s' := by
  induction as generalizing s with
  | nil => exact ⟨s, rfl, hs⟩
  | cons a as ih =>
    rcases h s a List.mem_cons_self hs with ⟨s₁, hfirst, hs₁⟩
    rcases ih (fun s b hb => h s b (List.mem_cons_of_mem a hb)) hs₁ with
      ⟨s', hrest, hs'⟩
    exists s'
    constructor
    · rw [List.foldlM_cons, hfirst]
      exact hrest
    · exact hs'

theorem foldlM_eq_none {S : Type v} {step : S -> A -> Option S} {a : A}
    (ha : a ∈ as) (hnone : forall s, step s a = none) (s : S) :
    as.foldlM step s = none := by
  induction as generalizing s with
  | nil => cases ha
  | cons b as ih =>
    rw [List.foldlM_cons]
    rcases List.mem_cons.mp ha with heq | ha
    · rw [← heq, hnone]
      rfl
    · cases step s b with
      | none => rfl
      | some s' => exact ih ha s'

end Traversal
