import Boogie.Foundation.DepthFirst
import Boogie.Graph.ControlDependence
import Mathlib.Algebra.GroupWithZero.Nat
import Mathlib.Algebra.Order.BigOperators.Group.List

/-!
# Transitive closure in place

The sets of a dictionary are extended, one after the other, by the sets of their
elements.  Rounds are repeated until one of them changes nothing.
-/

namespace Boogie

namespace Graph

variable {Node : Type} [DecidableEq Node]

def closeEntry (st : Dictionary Node (List Node) × Bool) (key : Node) :
    Dictionary Node (List Node) × Bool :=
  match st.1.tryGetValue key with
  | none => st
  | some value =>
    let newSuccessors := value.foldl
      (fun new successor => (dependencesOf st.1 successor).foldl hashSetAdd new)
      value
    if newSuccessors.length ≠ value.length then
      (st.1.set key (newSuccessors.foldl hashSetAdd value), true)
    else st

/-- The loop `while (changed)`. -/
def transitiveClosure : Nat -> Dictionary Node (List Node) ->
    Option (Dictionary Node (List Node))
  | 0, _ => none
  | fuel + 1, graph =>
    let st := graph.keys.foldl closeEntry (graph, false)
    if st.2 = true then transitiveClosure fuel st.1 else some st.1

/-!
# One entry
-/

section Closure

variable {d d' : Dictionary Node (List Node)} {x y z k : Node}

def Related (d : Dictionary Node (List Node)) (x y : Node) : Prop :=
  y ∈ dependencesOf d x

theorem Related.mem_keys (h : Related d x y) : x ∈ d.keys := by
  by_contra hnot
  unfold Related dependencesOf at h
  rw [Dictionary.tryGetValue_eq_none.mpr hnot] at h
  cases h

theorem dependencesOf_set {value : List Node} :
    dependencesOf (d.set k value) x = if x = k then value else dependencesOf d x := by
  unfold dependencesOf
  rw [Dictionary.tryGetValue_set]
  by_cases hx : x = k
  · rw [if_pos hx, if_pos hx]
    rfl
  · rw [if_neg hx, if_neg hx]

theorem length_le_foldl_hashSetAdd (xs s : List Node) :
    s.length ≤ (xs.foldl hashSetAdd s).length := by
  induction xs generalizing s with
  | nil => exact Nat.le_refl _
  | cons a xs ih =>
    rw [List.foldl_cons]
    apply Nat.le_trans _ (ih (hashSetAdd s a))
    unfold hashSetAdd
    split
    · exact Nat.le_refl _
    · rw [List.length_append]
      exact Nat.le_add_right _ _

theorem subset_of_length_foldl_hashSetAdd (xs s : List Node)
    (h : (xs.foldl hashSetAdd s).length = s.length) :
    forall a, a ∈ xs -> a ∈ s := by
  induction xs generalizing s with
  | nil =>
    intro a ha
    cases ha
  | cons b xs ih =>
    rw [List.foldl_cons] at h
    by_cases hb : b ∈ s
    · rw [hashSetAdd, if_pos hb] at h
      intro a ha
      rcases List.mem_cons.mp ha with heq | ha
      · exact heq ▸ hb
      · exact ih s h a ha
    · have hle := length_le_foldl_hashSetAdd xs (hashSetAdd s b)
      rw [h, hashSetAdd, if_neg hb, List.length_append,
        List.length_singleton] at hle
      exact absurd hle (Nat.not_succ_le_self _)

theorem foldl_hashSetAdd_of_subset (xs s : List Node)
    (h : forall a, a ∈ xs -> a ∈ s) : xs.foldl hashSetAdd s = s := by
  induction xs generalizing s with
  | nil => rfl
  | cons a xs ih =>
    rw [List.foldl_cons, hashSetAdd, if_pos (h a List.mem_cons_self)]
    exact ih s (fun b hb => h b (List.mem_cons_of_mem a hb))

structure Closes (d d' : Dictionary Node (List Node)) : Prop where
  keys : d'.keys = d.keys
  grows : forall x y, Related d x y -> Related d' x y
  sound : forall x y, Related d' x y -> Relation.TransGen (Related d) x y

theorem Closes.refl (d : Dictionary Node (List Node)) : Closes d d where
  keys := rfl
  grows := fun _ _ h => h
  sound := fun _ _ h => Relation.TransGen.single h

theorem Closes.trans {d'' : Dictionary Node (List Node)} (h : Closes d d')
    (h' : Closes d' d'') : Closes d d'' where
  keys := h'.keys.trans h.keys
  grows := fun x y hxy => h'.grows x y (h.grows x y hxy)
  sound := by
    intro x y hxy
    have hchain := h'.sound x y hxy
    clear hxy
    induction hchain with
    | single hstep => exact h.sound _ _ hstep
    | tail hbefore hstep ih => exact ih.trans (h.sound _ _ hstep)

def ClosedAt (d : Dictionary Node (List Node)) (k : Node) : Prop :=
  forall y z, Related d k y -> Related d y z -> Related d k z

def Extended (d d' : Dictionary Node (List Node)) : Prop :=
  Closes d d' ∧ exists x y, Related d' x y ∧ ¬ Related d x y

theorem closeEntry_spec (d : Dictionary Node (List Node)) (b : Bool) (k : Node) :
    (closeEntry (d, b) k = (d, b) ∧ ClosedAt d k) ∨
      exists d', closeEntry (d, b) k = (d', true) ∧ Extended d d' := by
  unfold closeEntry
  cases hvalue : d.tryGetValue k with
  | none =>
    left
    constructor
    · rfl
    · intro y z hy
      exact absurd hy.mem_keys (Dictionary.tryGetValue_eq_none.mp hvalue)
  | some value =>
    have hk : dependencesOf d k = value := by
      rw [dependencesOf, hvalue]
      rfl
    dsimp only
    rw [← List.foldl_flatMap]
    by_cases hlength : ((value.flatMap (dependencesOf d)).foldl hashSetAdd
        value).length = value.length
    · left
      rw [if_neg (not_not.mpr hlength)]
      constructor
      · rfl
      · intro y z hy hz
        unfold Related at hy hz ⊢
        rw [hk] at hy ⊢
        exact subset_of_length_foldl_hashSetAdd _ _ hlength z
          (List.mem_flatMap.mpr ⟨y, hy, hz⟩)
    · right
      rw [if_pos hlength]
      have hmem : forall x y, Related (d.set k
          (((value.flatMap (dependencesOf d)).foldl hashSetAdd value).foldl
            hashSetAdd value)) x y <->
          Related d x y ∨ (x = k ∧ exists z, Related d k z ∧ Related d z y) := by
        intro x y
        unfold Related
        rw [dependencesOf_set]
        by_cases hx : x = k
        · rw [if_pos hx, mem_foldl_hashSetAdd, mem_foldl_hashSetAdd, hx, hk]
          simp
        · rw [if_neg hx]
          simp [hx]
      apply Exists.intro
      constructor
      · rfl
      · constructor
        · constructor
          · apply Dictionary.keys_set_of_mem
            exact Dictionary.mem_keys.mpr ⟨value, hvalue⟩
          · intro x y hxy
            exact (hmem x y).mpr (Or.inl hxy)
          · intro x y hxy
            rcases (hmem x y).mp hxy with hxy | ⟨hx, z, hkz, hzy⟩
            · exact Relation.TransGen.single hxy
            · rw [hx]
              exact (Relation.TransGen.single hkz).tail hzy
        · by_contra hnone
          push Not at hnone
          apply hlength
          have hsub : forall a, a ∈ value.flatMap (dependencesOf d) ->
              a ∈ value := by
            intro a ha
            rcases List.mem_flatMap.mp ha with ⟨z, hz, ha⟩
            rw [← hk] at hz ⊢
            exact hnone k a ((hmem k a).mpr (Or.inr ⟨rfl, z, hz, ha⟩))
          rw [foldl_hashSetAdd_of_subset _ _ hsub]

theorem closeRound_spec (ks : List Node) (d : Dictionary Node (List Node)) (b : Bool) :
    (ks.foldl closeEntry (d, b) = (d, b) ∧ forall k, k ∈ ks -> ClosedAt d k) ∨
      exists d', ks.foldl closeEntry (d, b) = (d', true) ∧ Extended d d' := by
  induction ks generalizing d b with
  | nil => exact Or.inl ⟨rfl, fun k hk => absurd hk List.not_mem_nil⟩
  | cons k ks ih =>
    rw [List.foldl_cons]
    rcases closeEntry_spec d b k with ⟨hsame, hclosed⟩ | ⟨d', hnew, hextended⟩
    · rw [hsame]
      rcases ih d b with ⟨hsame', hclosed'⟩ | hnew
      · left
        constructor
        · exact hsame'
        · intro k' hk'
          rcases List.mem_cons.mp hk' with heq | hk'
          · exact heq ▸ hclosed
          · exact hclosed' k' hk'
      · exact Or.inr hnew
    · right
      rw [hnew]
      rcases ih d' true with ⟨hsame', _⟩ | ⟨d'', hnew', hextended'⟩
      · exact ⟨d', hsame', hextended⟩
      · exists d''
        constructor
        · exact hnew'
        · constructor
          · exact hextended.1.trans hextended'.1
          · rcases hextended'.2 with ⟨x, y, hxy, hnot⟩
            exact ⟨x, y, hxy, fun hold => hnot (hextended.1.grows x y hold)⟩

/-!
# All rounds
-/

def missing (elements : List Node) (d : Dictionary Node (List Node)) : Nat :=
  (d.keys.map (fun k =>
    DepthFirst.unvisited elements (dependencesOf d k))).sum

theorem Extended.missing_lt {elements : List Node} (h : Extended d d')
    (hall : forall x y, Related d' x y -> y ∈ elements) :
    missing elements d' < missing elements d := by
  unfold missing
  rw [h.1.keys]
  rcases h.2 with ⟨x, y, hxy, hnot⟩
  have hx : x ∈ d.keys := h.1.keys ▸ hxy.mem_keys
  apply List.sum_lt_sum
  · intro k _
    exact DepthFirst.unvisited_le (h.1.grows k)
  · exists x
    constructor
    · exact hx
    · apply Nat.lt_of_le_of_lt _ (DepthFirst.unvisited_lt (hall x y hxy) hnot)
      apply DepthFirst.unvisited_le
      intro z hz
      rcases List.mem_append.mp hz with hz | hz
      · exact h.1.grows x z hz
      · exact List.mem_singleton.mp hz ▸ hxy

theorem missing_le (elements : List Node) (d : Dictionary Node (List Node)) :
    missing elements d ≤ d.keys.length * elements.length := by
  have hle : forall n, n ∈ d.keys.map (fun k =>
      DepthFirst.unvisited elements (dependencesOf d k)) ->
        n ≤ elements.length := by
    intro n hn
    rcases List.mem_map.mp hn with ⟨k, _, heq⟩
    rw [← heq]
    apply Nat.le_trans (Finset.card_le_card Finset.sdiff_subset)
    exact List.toFinset_card_le elements
  have hsum := List.sum_le_card_nsmul _ elements.length hle
  rw [List.length_map] at hsum
  exact hsum

theorem transitiveClosure_spec {elements : List Node} {fuel : Nat} (d : Dictionary Node (List Node))
    (helements : forall x y, Related d x y -> y ∈ elements)
    (hfuel : d.keys.length * elements.length < fuel) :
    exists r, transitiveClosure fuel d = some r ∧ r.keys = d.keys ∧
      forall x y, Related r x y <-> Relation.TransGen (Related d) x y := by
  have hall : forall x y, Relation.TransGen (Related d) x y -> y ∈ elements := by
    intro x y hxy
    rcases Relation.TransGen.tail'_iff.mp hxy with ⟨z, _, hzy⟩
    exact helements z y hzy
  have hruns : forall fuel d', Closes d d' -> missing elements d' < fuel ->
      exists r, transitiveClosure fuel d' = some r ∧ Closes d r ∧
        forall k, k ∈ r.keys -> ClosedAt r k := by
    intro fuel
    induction fuel with
    | zero => exact fun _ _ hless => absurd hless (Nat.not_lt_zero _)
    | succ fuel ih =>
      intro d' hd' hless
      rw [transitiveClosure]
      rcases closeRound_spec d'.keys d' false with
        ⟨hsame, hclosed⟩ | ⟨d'', hnew, hextended⟩
      · rw [hsame]
        exact ⟨d', rfl, hd', hclosed⟩
      · have hd'' := hd'.trans hextended.1
        have hless' := hextended.missing_lt
          (fun x y hxy => hall x y (hd''.sound x y hxy))
        rw [hnew]
        exact ih d'' hd'' (Nat.lt_of_lt_of_le hless' (Nat.le_of_lt_succ hless))
  rcases hruns fuel d (Closes.refl d)
    (Nat.lt_of_le_of_lt (missing_le elements d) hfuel) with ⟨r, hrun, hr, hclosed⟩
  exists r
  constructor
  · exact hrun
  · constructor
    · exact hr.keys
    · intro x y
      constructor
      · exact hr.sound x y
      · intro hxy
        induction hxy using Relation.TransGen.head_induction_on with
        | single hstep => exact hr.grows _ _ hstep
        | head hstep hafter ih =>
          have hfirst := hr.grows _ _ hstep
          exact hclosed _ hfirst.mem_keys _ _ hfirst ih

end Closure

end Graph

end Boogie
