import Mathlib.Data.List.Basic
import Mathlib.Data.List.Pairwise
import Mathlib.Order.Lattice

/-!
# Merging of sorted lists

Two lists that are strictly sorted by a key are walked through together, and
entries with the same key are met at the same time.
-/

namespace SortedMerge

variable {Entry : Type*} {K : Type*} [LinearOrder K]

/-- The entries of both lists, those with the same key in one pair. -/
def merge (key : Entry -> K) :
    List Entry -> List Entry -> List (Option Entry × Option Entry)
  | [], [] => []
  | a :: as, [] => (some a, none) :: merge key as []
  | [], b :: bs => (none, some b) :: merge key [] bs
  | a :: as, b :: bs =>
    if key a = key b then (some a, some b) :: merge key as bs
    else if key a < key b then (some a, none) :: merge key as (b :: bs)
    else (none, some b) :: merge key (a :: as) bs
termination_by as bs => as.length + bs.length

def Sorted (key : Entry -> K) (l : List Entry) : Prop :=
  l.Pairwise (fun a b => key a < key b)

def lookup (key : Entry -> K) (l : List Entry) (k : K) : Option Entry :=
  l.find? (fun a => key a = k)

variable {key : Entry -> K} {as bs l : List Entry} {a b : Entry} {k : K}

theorem lookup_eq_some (h : lookup key l k = some a) : a ∈ l ∧ key a = k := by
  unfold lookup at h
  exact ⟨List.mem_of_find?_eq_some h, by simpa using List.find?_some h⟩

theorem lookup_append : lookup key (as ++ bs) k = (lookup key as k).or (lookup key bs k) := by
  unfold lookup
  exact List.find?_append

theorem Sorted.tail (h : Sorted key (a :: l)) : Sorted key l :=
  (List.pairwise_cons.mp h).2

@[simp] theorem lookup_nil : lookup key [] k = none := rfl

theorem lookup_cons : lookup key (a :: l) k = if key a = k then some a else lookup key l k := by
  unfold lookup
  rw [List.find?_cons]
  by_cases h : key a = k
  · simp [h]
  · simp [h]

theorem lookup_tail_eq_none (h : Sorted key (a :: l)) (hk : k ≤ key a) :
    lookup key l k = none := by
  unfold lookup
  rw [List.find?_eq_none]
  intro b hb heq
  have hkey : key b = k := by simpa using heq
  have hlt := (List.pairwise_cons.mp h).1 b hb
  rw [hkey] at hlt
  exact absurd (lt_of_lt_of_le hlt hk) (lt_irrefl _)

theorem Sorted.mem_iff (h : Sorted key l) :
    a ∈ l <-> lookup key l (key a) = some a := by
  constructor
  · intro ha
    induction l with
    | nil => cases ha
    | cons b l ih =>
      rw [lookup_cons]
      rcases List.mem_cons.mp ha with rfl | hrest
      · rw [if_pos rfl]
      · have hlt := (List.pairwise_cons.mp h).1 a hrest
        rw [if_neg (ne_of_lt hlt)]
        exact ih h.tail hrest
  · intro hlookup
    exact (lookup_eq_some hlookup).1

theorem Sorted.above (h : Sorted key (a :: l)) (hk : k ≤ key a) :
    forall b, b ∈ l -> k < key b :=
  fun b hb => lt_of_le_of_lt hk ((List.pairwise_cons.mp h).1 b hb)

theorem Sorted.above_cons (h : Sorted key (a :: l)) (hk : k < key a) :
    forall b, b ∈ a :: l -> k < key b := by
  intro b hb
  rcases List.mem_cons.mp hb with rfl | hrest
  · exact hk
  · exact h.above (le_of_lt hk) b hrest

theorem lookup_of_above (h : forall b, b ∈ l -> k < key b) :
    lookup key l k = none := by
  unfold lookup
  rw [List.find?_eq_none]
  intro b hb heq
  have hkey : key b = k := by simpa using heq
  exact absurd (h b hb) (by rw [hkey]; exact lt_irrefl k)

/-!
# Induction along a merge
-/

structure Step (key : Entry -> K) (as bs : List Entry) (k : K)
    (x y : Option Entry) (as' bs' : List Entry) : Prop where
  merge : merge key as bs = (x, y) :: merge key as' bs'
  left : forall l, lookup key as l = if k = l then x else lookup key as' l
  right : forall l, lookup key bs l = if k = l then y else lookup key bs' l
  leftAbove : forall a, a ∈ as' -> k < key a
  rightAbove : forall b, b ∈ bs' -> k < key b

theorem skipped (h : forall a, a ∈ l -> k < key a) (j : K) :
    lookup key l j = if k = j then none else lookup key l j := by
  by_cases hj : k = j
  · rw [if_pos hj, ← hj]
    exact lookup_of_above h
  · rw [if_neg hj]

theorem merge_induction {motive : List Entry -> List Entry -> Prop} (nil : motive [] [])
    (step : forall as bs k x y as' bs', Step key as bs k x y as' bs' ->
      motive as' bs' -> motive as bs)
    (has : Sorted key as) (hbs : Sorted key bs) : motive as bs := by
  induction as, bs using merge.induct key with
  | case1 => exact nil
  | case2 a as ih =>
    refine step (a :: as) [] (key a) (some a) none as [] ?_ (ih has.tail hbs)
    exact ⟨by rw [merge], fun _ => lookup_cons, skipped (by simp),
      has.above le_rfl, by simp⟩
  | case3 b bs ih =>
    refine step [] (b :: bs) (key b) none (some b) [] bs ?_ (ih has hbs.tail)
    exact ⟨by rw [merge], skipped (by simp), fun _ => lookup_cons,
      by simp, hbs.above le_rfl⟩
  | case4 a as b bs hkey ih =>
    refine step _ _ (key a) (some a) (some b) as bs ?_ (ih has.tail hbs.tail)
    exact ⟨by rw [merge, if_pos hkey], fun _ => lookup_cons,
      fun _ => by rw [hkey]; exact lookup_cons, has.above le_rfl,
      hbs.above (le_of_eq hkey)⟩
  | case5 a as b bs hkey hlt ih =>
    have habove := hbs.above_cons hlt
    refine step _ _ (key a) (some a) none as (b :: bs) ?_ (ih has.tail hbs)
    exact ⟨by rw [merge, if_neg hkey, if_pos hlt], fun _ => lookup_cons,
      skipped habove, has.above le_rfl, habove⟩
  | case6 a as b bs hkey hlt ih =>
    have hgt : key b < key a :=
      lt_of_le_of_ne (not_lt.mp hlt) (Ne.symm hkey)
    have habove := has.above_cons hgt
    refine step _ _ (key b) none (some b) (a :: as) bs ?_ (ih has hbs.tail)
    exact ⟨by rw [merge, if_neg hkey, if_neg hlt], skipped habove,
      fun _ => lookup_cons, habove, hbs.above le_rfl⟩

theorem forall_merge {P : Option Entry × Option Entry -> Prop}
    (hP : P (none, none)) (has : Sorted key as) (hbs : Sorted key bs) :
    (forall p, p ∈ merge key as bs -> P p) <-> forall k, P (lookup key as k, lookup key bs k) := by
  refine merge_induction (motive := fun as bs =>
    (forall p, p ∈ merge key as bs -> P p) <->
      forall k, P (lookup key as k, lookup key bs k)) ?_ ?_ has hbs
  · exact ⟨fun _ _ => hP, fun _ _ hp => by simp [merge] at hp⟩
  · intro as bs k x y as' bs' hstep ih
    rw [hstep.merge, List.forall_mem_cons, ih]
    constructor
    · intro ⟨hxy, hrest⟩ l
      rw [hstep.left, hstep.right]
      by_cases hl : k = l
      · rw [if_pos hl, if_pos hl]
        exact hxy
      · rw [if_neg hl, if_neg hl]
        exact hrest l
    · intro h
      constructor
      · have hk := h k
        rw [hstep.left, hstep.right, if_pos rfl, if_pos rfl] at hk
        exact hk
      · intro l
        by_cases hl : k = l
        · rw [← hl, lookup_of_above hstep.leftAbove,
            lookup_of_above hstep.rightAbove]
          exact hP
        · have hrest := h l
          rw [hstep.left, hstep.right, if_neg hl, if_neg hl] at hrest
          exact hrest

theorem ne_none_of_mem_merge {p : Option Entry × Option Entry}
    (h : p ∈ merge key as bs) : p ≠ (none, none) := by
  induction as, bs using merge.induct key with
  | case1 => simp [merge] at h
  | case2 a as ih =>
    rw [merge] at h
    rcases List.mem_cons.mp h with rfl | hrest
    · simp
    · exact ih hrest
  | case3 b bs ih =>
    rw [merge] at h
    rcases List.mem_cons.mp h with rfl | hrest
    · simp
    · exact ih hrest
  | case4 a as b bs hkey ih =>
    rw [merge, if_pos hkey] at h
    rcases List.mem_cons.mp h with rfl | hrest
    · simp
    · exact ih hrest
  | case5 a as b bs hkey hlt ih =>
    rw [merge, if_neg hkey, if_pos hlt] at h
    rcases List.mem_cons.mp h with rfl | hrest
    · simp
    · exact ih hrest
  | case6 a as b bs hkey hlt ih =>
    rw [merge, if_neg hkey, if_neg hlt] at h
    rcases List.mem_cons.mp h with rfl | hrest
    · simp
    · exact ih hrest

/-!
# Lists made from a merge
-/

structure KeyPreserving (key : Entry -> K)
    (f : Option Entry × Option Entry -> Option Entry) : Prop where
  empty : f (none, none) = none
  keeps : forall k x y n, (forall a, x = some a -> key a = k) ->
    (forall b, y = some b -> key b = k) -> f (x, y) = some n -> key n = k

variable {f : Option Entry × Option Entry -> Option Entry}

theorem filterMap_merge (hf : KeyPreserving key f) (has : Sorted key as) (hbs : Sorted key bs) :
    Sorted key ((merge key as bs).filterMap f) ∧
      forall k, lookup key ((merge key as bs).filterMap f) k =
        f (lookup key as k, lookup key bs k) := by
  refine merge_induction (motive := fun as bs =>
    Sorted key ((merge key as bs).filterMap f) ∧
      forall k, lookup key ((merge key as bs).filterMap f) k =
        f (lookup key as k, lookup key bs k)) ?_ ?_ has hbs
  · rw [merge]
    exact ⟨List.Pairwise.nil, fun k => hf.empty.symm⟩
  · intro as bs k x y as' bs' hstep ⟨hsorted, hlookup⟩
    rw [hstep.merge, List.filterMap_cons]
    have hleft : forall a, x = some a -> key a = k := by
      intro a ha
      have hk := hstep.left k
      rw [if_pos rfl, ha] at hk
      exact (lookup_eq_some hk).2
    have hright : forall b, y = some b -> key b = k := by
      intro b hb
      have hk := hstep.right k
      rw [if_pos rfl, hb] at hk
      exact (lookup_eq_some hk).2
    have hnone : f (lookup key as' k, lookup key bs' k) = none := by
      rw [lookup_of_above hstep.leftAbove, lookup_of_above hstep.rightAbove]
      exact hf.empty
    cases hxy : f (x, y) with
    | none =>
      refine ⟨hsorted, ?_⟩
      intro l
      change lookup key ((merge key as' bs').filterMap f) l = _
      rw [hlookup, hstep.left, hstep.right]
      by_cases hl : k = l
      · rw [if_pos hl, if_pos hl, hxy, ← hl]
        exact hnone
      · rw [if_neg hl, if_neg hl]
    | some n =>
      have hn := hf.keeps k x y n hleft hright hxy
      constructor
      · apply List.pairwise_cons.mpr
        refine ⟨?_, hsorted⟩
        intro m hm
        rw [hn]
        have hfm := hlookup (key m)
        rw [hsorted.mem_iff.mp hm] at hfm
        cases ha : lookup key as' (key m) with
        | some a =>
          rcases lookup_eq_some ha with ⟨hmem, hkey⟩
          rw [← hkey]
          exact hstep.leftAbove a hmem
        | none =>
          cases hb : lookup key bs' (key m) with
          | some b =>
            rcases lookup_eq_some hb with ⟨hmem, hkey⟩
            rw [← hkey]
            exact hstep.rightAbove b hmem
          | none =>
            rw [ha, hb, hf.empty] at hfm
            cases hfm
      · intro l
        change lookup key (n :: (merge key as' bs').filterMap f) l = _
        rw [lookup_cons, hn, hlookup, hstep.left, hstep.right]
        by_cases hl : k = l
        · rw [if_pos hl, if_pos hl, if_pos hl, hxy]
        · rw [if_neg hl, if_neg hl, if_neg hl]

end SortedMerge
