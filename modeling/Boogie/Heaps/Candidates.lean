import Boogie.Heaps.RenderingSound

/-!
# The candidates of a pattern

A pattern stands for one candidate for each ordered selection of pointers and of data
terms for the numbers that it mentions.
-/

namespace Boogie
namespace Heaps

open ExpressionText
open SharedIndex
open Selections

/-!
# Instances of a pattern
-/

mutual

def Term.numbers : Term -> List Int
  | .num n => [n]
  | .app _ args => numbersAll args

def Term.numbersAll : List Term -> List Int
  | [] => []
  | t :: ts => t.numbers ++ numbersAll ts

end

def ptrIndices (t : Term) : List Nat :=
  ((t.numbers.filter (fun n => decide (n ≥ 0))).map Int.toNat).dedup

def intIndices (t : Term) : List Nat :=
  ((t.numbers.filter (fun n => decide (n < 0))).map (fun n => (-1 * n).toNat - 1)).dedup

abbrev Instance := List String × List String

def instances (ptrs ints : List String) (t : Term) : List Instance :=
  selections (ptrIndices t).length ptrs ×ˢ selections (intIndices t).length ints

def instantiate (st : Settings) (t : Term) (x : Instance) : ParseTree :=
  t.tree st (fun n => nameAt x.1 ((ptrIndices t).idxOf n))
    (fun n => nameAt x.2 ((intIndices t).idxOf n))

def Term.Predicate (st : Settings) (t : Term) : Prop :=
  (exists op args, t = .app op args) ∧ t.Supported st

def Agree (ns : List Int) (p p' i i' : Nat -> String) : Prop :=
  forall n, n ∈ ns -> (n ≥ 0 -> p n.toNat = p' n.toNat) ∧
    (n < 0 -> i ((-1 * n).toNat - 1) = i' ((-1 * n).toNat - 1))

theorem mem_numbersAll {args : List Term} {n : Int} :
    n ∈ Term.numbersAll args <-> exists t, t ∈ args ∧ n ∈ t.numbers := by
  induction args with
  | nil => simp [Term.numbersAll]
  | cons t args ih => simp [Term.numbersAll, ih]

theorem mem_ptrIndices {t : Term} {n : Int} (hn : n ∈ t.numbers) (h : n ≥ 0) :
    n.toNat ∈ ptrIndices t := by
  rw [ptrIndices, List.mem_dedup]
  exact List.mem_map_of_mem (List.mem_filter.mpr ⟨hn, decide_eq_true h⟩)

theorem mem_intIndices {t : Term} {n : Int} (hn : n ∈ t.numbers) (h : n < 0) :
    (-1 * n).toNat - 1 ∈ intIndices t := by
  rw [intIndices, List.mem_dedup]
  exact List.mem_map_of_mem (f := fun n : Int => (-1 * n).toNat - 1)
    (List.mem_filter.mpr ⟨hn, decide_eq_true h⟩)

theorem agree_iff {t : Term} {p p' i i' : Nat -> String} :
    Agree t.numbers p p' i i' <-> (forall n, n ∈ ptrIndices t -> p n = p' n) ∧
        (forall n, n ∈ intIndices t -> i n = i' n) := by
  constructor
  · intro h
    constructor
    · intro n hn
      rw [ptrIndices, List.mem_dedup] at hn
      rcases List.mem_map.mp hn with ⟨k, hk, rfl⟩
      rw [List.mem_filter, decide_eq_true_eq] at hk
      exact (h k hk.left).left hk.right
    · intro n hn
      rw [intIndices, List.mem_dedup] at hn
      rcases List.mem_map.mp hn with ⟨k, hk, rfl⟩
      rw [List.mem_filter, decide_eq_true_eq] at hk
      exact (h k hk.left).right hk.right
  · rintro ⟨hptr, hint⟩ n hn
    exact ⟨fun h => hptr _ (mem_ptrIndices hn h), fun h => hint _ (mem_intIndices hn h)⟩

section Names

variable {st : Settings} {p p' i i' : Nat -> String}

theorem numberTree_eq_iff (n : Int) :
    numberTree st p i n = numberTree st p' i' n <-> Agree [n] p p' i i' := by
  rw [numberTree, numberTree, Agree, List.forall_mem_singleton]
  split
  next h =>
    simp [ParseTree.call, ParseTree.ident, h, Int.not_lt.mpr h]
  next h =>
    simp [ParseTree.ident, Int.not_le.mp h]

theorem Shape.tree_injective {shape : Shape} {es es' : List ParseTree}
    (h : shape.tree es = shape.tree es') : es = es' := by
  cases shape with
  | call f before after =>
    simp only [Shape.tree, ParseTree.call, Rose.node.injEq, true_and] at h
    rw [List.append_left_inj, List.append_right_inj] at h
    exact h
  | operator op =>
    simpa [Shape.tree, ParseTree.paren] using h
  | bound op n =>
    simpa [Shape.tree, ParseTree.paren] using h
  | negation =>
    simpa [Shape.tree, ParseTree.paren, ParseTree.not] using h

theorem tree_eq_iff {t : Term} (ht : t.Supported st) :
    t.tree st p i = t.tree st p' i' <-> Agree t.numbers p p' i i' := by
  induction t using Term.induct with
  | hnum n =>
    rw [Term.tree, Term.tree, Term.numbers]
    exact numberTree_eq_iff n
  | happ op args ih =>
    rcases ht.cases with ⟨hargs, hcases⟩
    have htrees : args.map (Term.tree st p i) = args.map (Term.tree st p' i') <->
        Agree (Term.numbersAll args) p p' i i' := by
      rw [List.map_inj_left]
      constructor
      · intro h n hn
        rcases mem_numbersAll.mp hn with ⟨t, ht, hmem⟩
        exact (ih t ht (hargs t ht)).mp (h t ht) n hmem
      · intro h t ht
        exact (ih t ht (hargs t ht)).mpr
          (fun n hn => h n (mem_numbersAll.mpr ⟨t, ht, hn⟩))
    rw [Term.numbers, ← htrees]
    rcases hcases with ⟨rfl, _⟩ | ⟨hop, shape, hshape⟩
    · rw [tree_and, tree_and]
      simp [ParseTree.paren, ParseTree.conj]
    · rw [tree_shape hop hshape, tree_shape hop hshape]
      exact ⟨Shape.tree_injective, fun h => by rw [h]⟩

def withoutNames : Label -> Label
  | .ident _ => .ident ""
  | l => l

theorem isConj_withoutNames (l : Label) : isConj (withoutNames l) = isConj l := by
  cases l <;> rfl

theorem Shape.map_tree {shape : Shape} {es es' : List ParseTree} {f : Label -> Label}
    (h : es.map (Rose.map f) = es'.map (Rose.map f)) :
    (shape.tree es).map f = (shape.tree es').map f := by
  cases shape with
  | call g before after =>
    simp only [Shape.tree, ParseTree.call, Rose.map_node, List.map_append, h]
  | operator op => simp only [Shape.tree, ParseTree.paren, Rose.map_node, List.map_singleton, h]
  | bound op n =>
    simp only [Shape.tree, ParseTree.paren, Rose.map_node, List.map_singleton,
      List.map_append, h]
  | negation =>
    simp only [Shape.tree, ParseTree.paren, ParseTree.not, Rose.map_node,
      List.map_singleton, h]

theorem tree_withoutNames {t : Term} (ht : t.Supported st) :
    (t.tree st p i).map withoutNames = (t.tree st p' i').map withoutNames := by
  induction t using Term.induct with
  | hnum n =>
    rw [Term.tree, Term.tree, numberTree, numberTree]
    split
    · simp [ParseTree.call, ParseTree.ident, Rose.map_node, withoutNames]
    · simp [ParseTree.ident, Rose.map_node, withoutNames]
  | happ op args ih =>
    rcases ht.cases with ⟨hargs, hcases⟩
    have htrees : (args.map (Term.tree st p i)).map (Rose.map withoutNames) =
        (args.map (Term.tree st p' i')).map (Rose.map withoutNames) := by
      rw [List.map_map, List.map_map]
      exact List.map_congr_left (fun t ht => ih t ht (hargs t ht))
    rcases hcases with ⟨rfl, _⟩ | ⟨hop, shape, hshape⟩
    · rw [tree_and, tree_and]
      simp only [ParseTree.paren, ParseTree.conj, Rose.map_node, List.map_singleton, htrees]
    · rw [tree_shape hop hshape, tree_shape hop hshape]
      exact Shape.map_tree htrees

end Names

/-!
# Which selections are printed
-/

def entryMax : Term -> Int
  | .num n => n
  | .app op args => findmax (.app op args)

def entryMin : Term -> Int
  | .num n => n
  | .app op args => findmin (.app op args)

theorem maxArguments_cons (max : Int) (t : Term) (rest : List Term) :
    maxArguments max (t :: rest) = maxArguments (Max.max max (entryMax t)) rest := by
  cases t <;> rw [maxArguments, entryMax]

theorem minArguments_cons (min : Int) (t : Term) (rest : List Term) :
    minArguments min (t :: rest) = minArguments (Min.min min (entryMin t)) rest := by
  cases t <;> rw [minArguments, entryMin]

theorem maxArguments_ge {args : List Term} (max : Int) :
    max ≤ maxArguments max args ∧ forall t, t ∈ args -> entryMax t ≤ maxArguments max args := by
  induction args generalizing max with
  | nil => simp [maxArguments]
  | cons t args ih =>
    rcases ih (Max.max max (entryMax t)) with ⟨hmax, hargs⟩
    rw [maxArguments_cons]
    refine ⟨(le_max_left _ _).trans hmax, ?_⟩
    intro u hu
    rcases List.mem_cons.mp hu with rfl | hmem
    · exact (le_max_right _ _).trans hmax
    · exact hargs u hmem

theorem minArguments_le {args : List Term} (min : Int) :
    minArguments min args ≤ min ∧ forall t, t ∈ args -> minArguments min args ≤ entryMin t := by
  induction args generalizing min with
  | nil => simp [minArguments]
  | cons t args ih =>
    rcases ih (Min.min min (entryMin t)) with ⟨hmin, hargs⟩
    rw [minArguments_cons]
    refine ⟨hmin.trans (min_le_left _ _), ?_⟩
    intro u hu
    rcases List.mem_cons.mp hu with rfl | hmem
    · exact hmin.trans (min_le_right _ _)
    · exact hargs u hmem

theorem numbers_le_entryMax {t : Term} {n : Int} (hn : n ∈ t.numbers) : n ≤ entryMax t := by
  induction t using Term.induct with
  | hnum k =>
    rw [Term.numbers, List.mem_singleton] at hn
    exact Int.le_of_eq hn
  | happ op args ih =>
    rw [Term.numbers, mem_numbersAll] at hn
    rcases hn with ⟨t, ht, hmem⟩
    rw [entryMax, findmax]
    exact (ih t ht hmem).trans ((maxArguments_ge 0).right t ht)

theorem entryMin_le_numbers {t : Term} {n : Int} (hn : n ∈ t.numbers) : entryMin t ≤ n := by
  induction t using Term.induct with
  | hnum k =>
    rw [Term.numbers, List.mem_singleton] at hn
    exact Int.le_of_eq hn.symm
  | happ op args ih =>
    rw [Term.numbers, mem_numbersAll] at hn
    rcases hn with ⟨t, ht, hmem⟩
    rw [entryMin, findmin]
    exact ((minArguments_le 0).right t ht).trans (ih t ht hmem)

section Counts

variable {st : Settings} {t : Term}

theorem numptrs_pos (ht : t.Predicate st) : 0 < numptrs t := by
  rcases ht.left with ⟨op, args, rfl⟩
  have hge := (@maxArguments_ge args 0).left
  rw [numptrs, findmax]
  omega

theorem numints_nonneg (ht : t.Predicate st) : 0 ≤ numints t := by
  rcases ht.left with ⟨op, args, rfl⟩
  have hle := (@minArguments_le args 0).left
  rw [numints, findmin]
  omega

theorem lt_numptrs (ht : t.Predicate st) {n : Nat} (hn : n ∈ ptrIndices t) :
    n < (numptrs t).toNat := by
  rcases ht.left with ⟨op, args, rfl⟩
  rw [ptrIndices, List.mem_dedup] at hn
  rcases List.mem_map.mp hn with ⟨k, hk, rfl⟩
  rw [List.mem_filter, decide_eq_true_eq] at hk
  have hle := numbers_le_entryMax hk.left
  rw [entryMax] at hle
  rw [numptrs]
  omega

theorem lt_numints (ht : t.Predicate st) {n : Nat} (hn : n ∈ intIndices t) :
    n < (numints t).toNat := by
  rcases ht.left with ⟨op, args, rfl⟩
  rw [intIndices, List.mem_dedup] at hn
  rcases List.mem_map.mp hn with ⟨k, hk, rfl⟩
  rw [List.mem_filter, decide_eq_true_eq] at hk
  have hle := entryMin_le_numbers hk.left
  rw [entryMin] at hle
  rw [numints]
  omega

theorem nodup_ptrIndices (t : Term) : (ptrIndices t).Nodup :=
  List.nodup_dedup _

theorem nodup_intIndices (t : Term) : (intIndices t).Nodup :=
  List.nodup_dedup _

theorem permutations_getD {list : List String} {k : Nat} (hk : k ≤ list.length) :
    ((permutations list)[k]?).getD [] = selections k list := by
  rw [getElem?_permutations hk, Option.getD_some]

theorem heapSelections_eq (ht : t.Predicate st) (ptrs : List String) :
    heapSelections ptrs t = if (numptrs t).toNat ≤ ptrs.length then
        selections (numptrs t).toNat ptrs ×ˢ [[]]
      else [] := by
  have hpos := numptrs_pos ht
  rw [heapSelections]
  split
  next h =>
    rw [if_pos (by omega), permutations_getD (by omega)]
    simp [SProd.sprod, List.product, ← List.map_eq_flatMap]
  next h => rw [if_neg (by omega)]

theorem dataSelections_eq (ht : t.Predicate st) (ptrs ints : List String) :
    dataSelections ptrs ints t =
      if (numptrs t).toNat ≤ ptrs.length ∧ (numints t).toNat ≤ ints.length then
        selections (numptrs t).toNat ptrs ×ˢ selections (numints t).toNat ints
      else [] := by
  have hpos := numptrs_pos ht
  have hnonneg := numints_nonneg ht
  rw [dataSelections]
  split
  next h =>
    rw [if_pos (by omega), permutations_getD (by omega), permutations_getD (by omega)]
    rfl
  next h => rw [if_neg (by omega)]

end Counts

end Heaps
end Boogie
