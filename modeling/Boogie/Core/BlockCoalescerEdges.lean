import Mathlib.Algebra.BigOperators.Group.Finset.Basic
import Mathlib.Algebra.Order.BigOperators.Group.Finset
import Boogie.Core.BlockCoalescerMerge

/-!
# Edges into a block

The edges are counted with their multiplicities; the start of an execution counts
as an edge into the first block.
-/

namespace Boogie
namespace BlockCoalescer

section Edges

variable {BlockId Label Token Cmd : Type} [DecidableEq BlockId]
variable {isValid : Token -> Bool} {heap : Heap BlockId Label Token Cmd}
variable {alive : Finset BlockId} {first b succ v : BlockId}

def edges (heap : Heap BlockId Label Token Cmd) (alive : Finset BlockId)
    (v : BlockId) : Nat :=
  ∑ u ∈ alive, (successors heap u).count v

def entries (first : BlockId) (heap : Heap BlockId Label Token Cmd)
    (alive : Finset BlockId) (v : BlockId) : Nat :=
  (if v = first then 1 else 0) + edges heap alive v

theorem edges_pos {u : BlockId} (hu : u ∈ alive) (hv : v ∈ successors heap u) :
    1 ≤ edges heap alive v := by
  have hle : (successors heap u).count v ≤ edges heap alive v :=
    Finset.single_le_sum (f := fun u => (successors heap u).count v)
      (fun _ _ => Nat.zero_le _) hu
  exact le_trans (List.count_pos_iff.mpr hv) hle

theorem two_le_edges {u w : BlockId} (hne : u ≠ w) (hu : u ∈ alive) (hw : w ∈ alive)
    (huv : v ∈ successors heap u) (hwv : v ∈ successors heap w) :
    2 ≤ edges heap alive v := by
  have hsplit := Finset.add_sum_erase alive (fun u => (successors heap u).count v) hu
  have hrest : 1 ≤ edges heap (alive.erase u) v :=
    edges_pos (Finset.mem_erase.mpr ⟨hne.symm, hw⟩) hwv
  have hone : 1 ≤ (successors heap u).count v := List.count_pos_iff.mpr huv
  unfold edges at hrest ⊢
  omega

theorem sum_merge {f : List BlockId -> Nat} (h : Mergeable heap alive b succ)
    {blocks : Finset BlockId} (hb : b ∈ blocks) (hsucc : succ ∈ blocks) :
    ∑ u ∈ blocks, f (successors heap u) =
      f [succ] + ∑ u ∈ blocks.erase succ, f (successors (merge isValid heap b succ) u) := by
  have hb' : b ∈ blocks.erase succ := Finset.mem_erase.mpr ⟨h.ne.symm, hb⟩
  have hold := Finset.add_sum_erase blocks (fun u => f (successors heap u)) hsucc
  have hold' := Finset.add_sum_erase (blocks.erase succ)
    (fun u => f (successors heap u)) hb'
  have hnew := Finset.add_sum_erase (blocks.erase succ)
    (fun u => f (successors (merge isValid heap b succ) u)) hb'
  have hsame : ∑ u ∈ (blocks.erase succ).erase b, f (successors heap u) =
      ∑ u ∈ (blocks.erase succ).erase b,
        f (successors (merge isValid heap b succ) u) := by
    apply Finset.sum_congr rfl
    intro u hu
    rw [successors_merge_of_ne (Finset.ne_of_mem_erase hu)]
  rw [h.successors_eq] at hold'
  rw [successors_merge_self] at hnew
  omega

theorem edges_merge (h : Mergeable heap alive b succ) (hv : v ≠ succ) :
    edges (merge isValid heap b succ) (alive.erase succ) v = edges heap alive v := by
  have hsum := @sum_merge _ _ _ _ _ isValid heap alive b succ (fun l => l.count v) h
    alive h.mem h.mem_succ
  have hnone : [succ].count v = 0 := by
    rw [List.count_eq_zero, List.mem_singleton]
    exact hv
  unfold edges
  omega

/-!
# Reachable blocks
-/

def Reaches (heap : Heap BlockId Label Token Cmd) : BlockId -> BlockId -> Prop :=
  Relation.ReflTransGen (fun u t => t ∈ successors heap u)

omit [DecidableEq BlockId] in
theorem Reaches.mem (hclosed : forall x, x ∈ alive -> forall t, t ∈ successors heap x ->
    t ∈ alive) (hfirst : first ∈ alive) (h : Reaches heap first v) : v ∈ alive := by
  induction h with
  | refl => exact hfirst
  | tail _ hstep ih => exact hclosed _ ih _ hstep

theorem Reaches.merge (h : Mergeable heap alive b succ) (hfirst : first ∈ alive)
    (hne : first ≠ succ) (hreach : Reaches heap first v) :
    (v ≠ succ -> Reaches (merge isValid heap b succ) first v) ∧
      (v = succ -> Reaches (merge isValid heap b succ) first b) := by
  induction hreach with
  | refl => exact ⟨fun _ => Relation.ReflTransGen.refl, fun heq => absurd heq hne⟩
  | tail hpath hstep ih =>
    rename_i u t
    have hu : u ∈ alive := Reaches.mem h.closed hfirst hpath
    constructor
    · intro ht
      by_cases hub : u = b
      · subst hub
        rw [h.successors_eq, List.mem_singleton] at hstep
        exact absurd hstep ht
      · by_cases hus : u = succ
        · refine (ih.2 hus).tail ?_
          rw [successors_merge_self]
          exact hus ▸ hstep
        · refine (ih.1 hus).tail ?_
          rwa [successors_merge_of_ne hub]
    · intro ht
      have hub : u = b := h.only u hu (ht ▸ hstep)
      exact hub ▸ ih.1 (hub ▸ h.ne.symm)

end Edges

end BlockCoalescer
end Boogie
