import Mathlib.Data.Finset.Card
import Mathlib.Data.Finset.Image

/-!
# Relaxing soft constraints one at a time

Every model violates a finite set of soft constraints.  A round allows a model to
violate those constraints that are the values of a number of variables, of which
the first `room` ones are free.  The first round that has a model is the one with
as many variables as a model violates at least, and the variables then list the
violated constraints.
-/

structure Relaxation (M : Type) where
  violated : M -> Finset Nat
  value : M -> Nat -> Int
  room : Nat
  free : forall m : M, (violated m).card ≤ room -> exists m', violated m' = violated m ∧
    forall (j i : Nat), (violated m).toList[j]? = some i ->
      value m' j = (i : Int)

namespace Relaxation

variable {M : Type} {R : Relaxation M} {m : M} {k : Nat}

/-- The first `k` variables name all violated constraints. -/
def Covers (R : Relaxation M) (k : Nat) (m : M) : Prop :=
  forall i, i ∈ R.violated m -> exists j, j < k ∧ R.value m j = (i : Int)

theorem exists_covers (R : Relaxation M) (m : M) (hroom : (R.violated m).card ≤ R.room) :
    exists m', R.violated m' = R.violated m ∧ R.Covers (R.violated m).card m' := by
  rcases R.free m hroom with ⟨m', hviolated, hvalue⟩
  constructor
  · constructor
    · exact hviolated
    · intro i hi
      rw [hviolated] at hi
      rcases List.getElem?_of_mem (Finset.mem_toList.mpr hi) with ⟨j, hj⟩
      have hlt := (List.getElem?_eq_some_iff.mp hj).1
      rw [Finset.length_toList] at hlt
      exact ⟨j, hlt, hvalue j i hj⟩

def values (R : Relaxation M) (k : Nat) (m : M) : Finset Int :=
  (Finset.range k).image (R.value m)

theorem Covers.subset_values (h : R.Covers k m) :
    (R.violated m).image Int.ofNat ⊆ R.values k m := by
  intro v hv
  rcases Finset.mem_image.mp hv with ⟨i, hi, rfl⟩
  rcases h i hi with ⟨j, hj, hvalue⟩
  exact Finset.mem_image.mpr ⟨j, Finset.mem_range.mpr hj, hvalue⟩

theorem card_image_violated :
    ((R.violated m).image Int.ofNat).card = (R.violated m).card :=
  Finset.card_image_of_injective _ (fun _ _ h => Int.ofNat_inj.mp h)

theorem card_values_le : (R.values k m).card ≤ k := by
  have h : (R.values k m).card ≤ (Finset.range k).card :=
    Finset.card_image_le
  rwa [Finset.card_range] at h

theorem Covers.card_violated_le (h : R.Covers k m) : (R.violated m).card ≤ k := by
  have hcard := Finset.card_le_card h.subset_values
  rw [card_image_violated] at hcard
  exact hcard.trans card_values_le

structure First (R : Relaxation M) (k : Nat) (m : M) : Prop where
  room : k ≤ R.room
  covers : R.Covers k m
  least : forall j m', R.Covers j m' -> k ≤ j

theorem First.le_card (h : R.First k m) (m' : M) :
    k ≤ (R.violated m').card := by
  by_cases hroom : (R.violated m').card ≤ R.room
  · rcases R.exists_covers m' hroom with ⟨m'', _, hcovers⟩
    exact h.least _ m'' hcovers
  · exact h.room.trans (not_le.mp hroom).le

theorem First.values_eq (h : R.First k m) :
    (R.violated m).image Int.ofNat = R.values k m := by
  apply Finset.eq_of_subset_of_card_le h.covers.subset_values
  rw [card_image_violated]
  exact card_values_le.trans (h.le_card m)

theorem First.injective (h : R.First k m) {j j' : Nat} (hj : j < k)
    (hj' : j' < k) (heq : R.value m j = R.value m j') : j = j' := by
  have hcard : (R.values k m).card = (Finset.range k).card := by
    apply le_antisymm
    · exact Finset.card_image_le
    · rw [Finset.card_range, ← h.values_eq, card_image_violated]
      exact h.le_card m
  exact Finset.card_image_iff.mp hcard (Finset.mem_coe.mpr
    (Finset.mem_range.mpr hj)) (Finset.mem_coe.mpr
      (Finset.mem_range.mpr hj')) heq

theorem First.names_violated (h : R.First k m) {j : Nat} (hj : j < k) :
    exists i, i ∈ R.violated m ∧ R.value m j = (i : Int) := by
  have hmem : R.value m j ∈ R.values k m :=
    Finset.mem_image.mpr ⟨j, Finset.mem_range.mpr hj, rfl⟩
  rw [← h.values_eq] at hmem
  rcases Finset.mem_image.mp hmem with ⟨i, hi, hvalue⟩
  exact ⟨i, hi, hvalue.symm⟩

end Relaxation
