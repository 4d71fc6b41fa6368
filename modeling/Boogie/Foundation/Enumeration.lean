import Mathlib.Data.List.Nodup

/-!
# Enumeration by exclusion

A search asks again and again for a solution that the clauses added so far do
not exclude.  A solution shows a key, and the clause of this key is added next.
-/

structure Enumeration (M : Type*) (K : Type*) where
  shows : M -> K -> Prop
  excludes : K -> M -> Prop
  excludes_shown : forall m k, shows m k -> excludes k m

namespace Enumeration

variable {M K : Type*} {E : Enumeration M K} {solution : M -> Prop}
  {ks : List K} {m : M} {k : K}

def Avoids (E : Enumeration M K) (ks : List K) (m : M) : Prop :=
  forall k, k ∈ ks -> ¬ E.excludes k m

inductive Run (E : Enumeration M K) (solution : M -> Prop) :
    List K -> Prop where
  | start : Run E solution []
  | found {ks : List K} {m : M} {k : K} : Run E solution ks -> solution m ->
      E.Avoids ks m -> E.shows m k -> Run E solution (ks ++ [k])

theorem Avoids.not_mem (h : E.Avoids ks m) (hk : E.shows m k) : k ∉ ks :=
  fun hmem => h k hmem (E.excludes_shown m k hk)

theorem Run.nodup (h : E.Run solution ks) : ks.Nodup := by
  induction h with
  | start => exact List.nodup_nil
  | found _ _ havoids hshows ih =>
    rw [List.nodup_append]
    constructor
    · exact ih
    · constructor
      · exact List.nodup_singleton _
      · intro a ha b hb heq
        rw [List.mem_singleton.mp hb] at heq
        exact havoids.not_mem hshows (heq ▸ ha)

theorem Run.shown (h : E.Run solution ks) :
    forall k, k ∈ ks -> exists m, solution m ∧ E.shows m k := by
  induction h with
  | start =>
    intro k hk
    cases hk
  | found _ hsolution _ hshows ih =>
    intro k hk
    rcases List.mem_append.mp hk with hold | hnew
    · exact ih k hold
    · rw [List.mem_singleton.mp hnew]
      exact ⟨_, hsolution, hshows⟩

def Isolates (E : Enumeration M K) (solution : M -> Prop) (k : K) (m : M) :
    Prop :=
  forall k' m', solution m' -> E.shows m' k' -> E.excludes k' m -> k' = k

theorem Run.complete (h : E.Run solution ks)
    (hnone : ¬ exists m, solution m ∧ E.Avoids ks m) (hm : solution m)
    (hk : E.Isolates solution k m) : k ∈ ks := by
  by_contra hmissing
  apply hnone
  constructor
  · constructor
    · exact hm
    · intro k' hk' hexcludes
      rcases h.shown k' hk' with ⟨m', hm', hshows⟩
      have heq : k' = k := hk k' m' hm' hshows hexcludes
      exact hmissing (heq ▸ hk')

end Enumeration
