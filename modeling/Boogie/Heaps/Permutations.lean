import Boogie.Foundation.Selections

/-!
# Permutations of all lengths

The table has the ordered selections of `k` elements of a list at `k`.
-/

namespace Boogie
namespace Heaps

open Selections

variable {α : Type}

/-- `res[curr.length].push(curr)` -/
def pushAtLength (res : List (List (List α))) (curr : List α) :
    List (List (List α)) :=
  res.modify curr.length (· ++ [curr])

def go (curr rest : List α) (res : List (List (List α))) :
    List (List (List α)) :=
  let res := pushAtLength res curr
  if rest.length = 0 then res
  else
    (List.finRange rest.length).foldl
      (fun res (i : Fin rest.length) => go (curr ++ [rest[i]]) (without rest i) res) res
termination_by rest.length
decreasing_by
  have hlength := length_without i.2
  omega

def permutations (list : List α) : List (List (List α)) :=
  go [] list (List.replicate (list.length + 1) [])

/-!
# What the search writes
-/

def written (curr rest : List α) (k : Nat) : List (List α) :=
  if curr.length ≤ k then
    (selections (k - curr.length) rest).map (curr ++ ·)
  else []

theorem getElem?_pushAtLength (res : List (List (List α))) (curr : List α) (k : Nat) :
    (pushAtLength res curr)[k]? = res[k]?.map (· ++ if k = curr.length then [curr] else []) := by
  rw [pushAtLength, List.getElem?_modify]
  split
  next heq => simp [heq]
  next hne =>
    rw [if_neg (fun heq => hne heq.symm)]
    simp

theorem written_below {curr rest : List α} {k : Nat} (h : k < curr.length) :
    written curr rest k = [] :=
  if_neg (Nat.not_le_of_lt h)

theorem written_self (curr rest : List α) : written curr rest curr.length = [curr] := by
  rw [written, if_pos (Nat.le_refl _), Nat.sub_self, selections, List.map_singleton,
    List.append_nil]

theorem written_above {curr rest : List α} {k : Nat} (h : curr.length < k) :
    written curr rest k = (List.finRange rest.length).flatMap
        (fun (i : Fin rest.length) => written (curr ++ [rest[i]]) (without rest i) k) := by
  rw [written, if_pos (Nat.le_of_lt h)]
  rcases Nat.exists_eq_add_of_lt h with ⟨n, rfl⟩
  have hn : curr.length + n + 1 - curr.length = n + 1 := by omega
  rw [hn, selections, List.map_flatMap]
  congr 1
  funext i
  have hlength : (curr ++ [rest[i]]).length = curr.length + 1 := by simp
  rw [written, hlength, if_pos (by omega), List.map_map]
  have hrest : curr.length + n + 1 - (curr.length + 1) = n := by omega
  rw [hrest]
  congr 1
  funext s
  simp

theorem go_spec (curr rest : List α) (res : List (List (List α))) (k : Nat) :
    (go curr rest res)[k]? = res[k]?.map (· ++ written curr rest k) := by
  induction hsize : rest.length using Nat.strong_induction_on
    generalizing curr rest res with
  | _ size ih =>
    have hloop : forall (is : List (Fin rest.length)) (res : List (List (List α))),
        (is.foldl (fun res (i : Fin rest.length) =>
            go (curr ++ [rest[i]]) (without rest i) res) res)[k]? =
          res[k]?.map (· ++ is.flatMap
            (fun (i : Fin rest.length) => written (curr ++ [rest[i]]) (without rest i) k)) := by
      intro is
      induction is with
      | nil => simp
      | cons i is ihs =>
        intro res
        have hlt : (without rest i).length < size := by
          have hlength := length_without i.2
          omega
        rw [List.foldl_cons, ihs, ih _ hlt _ _ _ rfl, Option.map_map]
        congr 1
        funext entries
        simp [List.append_assoc]
    have hall : (go curr rest res)[k]? =
        (pushAtLength res curr)[k]?.map (· ++ (List.finRange rest.length).flatMap
          (fun (i : Fin rest.length) => written (curr ++ [rest[i]]) (without rest i) k)) := by
      rw [go]
      split
      next hempty =>
        have hnil : List.finRange rest.length = [] := by
          rw [List.eq_nil_iff_length_eq_zero, List.length_finRange]
          exact hempty
        simp [hnil]
      next => exact hloop _ _
    rw [hall, getElem?_pushAtLength, Option.map_map]
    congr 1
    funext entries
    rw [Function.comp_apply, List.append_assoc]
    congr 1
    rcases Nat.lt_trichotomy k curr.length with hlt | rfl | hgt
    · rw [if_neg (Nat.ne_of_lt hlt), written_below hlt, List.nil_append,
        List.flatMap_eq_nil_iff]
      intro i _
      apply written_below
      rw [List.length_append]
      exact Nat.lt_add_right _ hlt
    · have hnil : (List.finRange rest.length).flatMap
          (fun (i : Fin rest.length) =>
            written (curr ++ [rest[i]]) (without rest i) curr.length) = [] := by
        rw [List.flatMap_eq_nil_iff]
        intro i _
        apply written_below
        rw [List.length_append]
        exact Nat.lt_succ_self _
      rw [if_pos rfl, written_self, hnil, List.append_nil]
    · rw [if_neg (Nat.ne_of_gt hgt), written_above hgt, List.nil_append]

theorem getElem?_permutations {list : List α} {k : Nat} (hk : k ≤ list.length) :
    (permutations list)[k]? = some (selections k list) := by
  rw [permutations, go_spec, List.getElem?_replicate, if_pos (Nat.lt_succ_of_le hk),
    Option.map_some, List.nil_append]
  simp [written]

theorem getElem?_permutations_of_lt {list : List α} {k : Nat} (hk : list.length < k) :
    (permutations list)[k]? = none := by
  rw [permutations, go_spec, List.getElem?_replicate, if_neg (by omega), Option.map_none]

/-- Every ordered selection is in its place of the table exactly once. -/
theorem permutations_complete [DecidableEq α] {list : List α} (h : list.Nodup)
    {k : Nat} (hk : k ≤ list.length) :
    exists entries, (permutations list)[k]? = some entries ∧ forall l, entries.count l =
        if l.Nodup ∧ l ⊆ list ∧ l.length = k then 1 else 0 :=
  ⟨selections k list, getElem?_permutations hk, count_selections h⟩

theorem permutations_complete_three :
    exists entries, (permutations ["x", "y", "z"])[2]? = some entries ∧ forall l, entries.count l =
        if l.Nodup ∧ l ⊆ ["x", "y", "z"] ∧ l.length = 2 then 1 else 0 :=
  permutations_complete (by decide) (by decide)

end Heaps
end Boogie
