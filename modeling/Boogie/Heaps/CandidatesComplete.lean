import Boogie.Heaps.Candidates

/-!
# The generated list

Under an exact condition on the patterns the generator prints every candidate once.
-/

namespace Boogie
namespace Heaps

open ExpressionText
open SharedIndex
open Selections

/-!
# Guards
-/

theorem toList_padLeft (length : Nat) (r : String) :
    exists n, (padLeft length r).toList = List.replicate n '0' ++ r.toList := by
  induction hgap : length - r.length using Nat.strong_induction_on generalizing r with
  | _ gap ih =>
    rw [padLeft]
    by_cases hlt : r.length < length
    · have hzero : ("0" ++ r).length = r.length + 1 := by
        rw [String.length_append, Nat.add_comm]
        rfl
      rcases ih (length - ("0" ++ r).length) (by omega) ("0" ++ r) rfl with ⟨n, hn⟩
      exists n + 1
      rw [if_pos hlt, hn, String.toList_append, List.replicate_succ', List.append_assoc]
      rfl
    · exists 0
      rw [if_neg hlt]
      rfl

theorem ofDigitChars_pad (num length : Nat) :
    Nat.ofDigitChars 10 (pad num length).toList 0 = num := by
  rcases toList_padLeft length (toString num) with ⟨n, hn⟩
  have htext : (toString num).toList = Nat.toDigits 10 num := Nat.toList_repr
  rw [pad, hn, Nat.ofDigitChars_append, Nat.ofDigitChars_replicate_zero, Nat.mul_zero, htext,
    Nat.ofDigitChars_ten_toDigits]

theorem guard_injective {m n : Nat} (h : guard m = guard n) : m = n := by
  have hlist := congrArg String.toList h
  rw [guard, guard, String.toList_append, String.toList_append,
    List.append_right_inj] at hlist
  rw [← ofDigitChars_pad m digits, ← ofDigitChars_pad n digits, hlist]

/-!
# Runs of the loops
-/

section Runs

variable {st : Settings}

def PrintedFor (st : Settings) (fuel : Nat) (t : Term) (v : Invariant)
    (x : List String × List String) : Prop :=
  exists g g', ts st x.1 x.2 fuel t g = .returns v.body g'

theorem printAll_returns {fuel : Nat} {t : Term} {xs : List (List String × List String)}
    {cnt : Nat} {g g' : Globals} {vs : List Invariant}
    (h : printAll st fuel t xs cnt g = .returns vs g') :
    List.Forall₂ (PrintedFor st fuel t) vs xs ∧
      vs.map Invariant.guard = (List.range' cnt vs.length).map guard := by
  induction xs generalizing cnt g g' vs with
  | nil =>
    rw [printAll, Outcome.returns.injEq] at h
    rw [← h.left]
    exact ⟨.nil, rfl⟩
  | cons x xs ih =>
    rcases Outcome.andThen_returns h with ⟨v, g1, hone, hafter⟩
    rcases Outcome.andThen_returns hafter with ⟨ws, g2, hrest, hret⟩
    rcases Outcome.andThen_returns hone with ⟨s, g3, hrun, hv⟩
    rw [Outcome.returns.injEq] at hret hv
    rcases ih hrest with ⟨hprinted, hguards⟩
    rw [← hret.left, ← hv.left]
    constructor
    · exact .cons ⟨g, g3, hrun⟩ hprinted
    · rw [List.map_cons, hguards, List.length_cons, List.range'_succ, List.map_cons]

theorem printPatterns_returns {fuel : Nat}
    {sel : Term -> List (List String × List String)} {pats : List Term} {cnt : Nat}
    {g g' : Globals} {vss : List (List Invariant)}
    (h : printPatterns st fuel sel pats cnt g = .returns vss g') :
    List.Forall₂ (fun t vs => List.Forall₂ (PrintedFor st fuel t) vs (sel t)) pats vss ∧
      vss.flatten.map Invariant.guard = (List.range' cnt vss.flatten.length).map guard := by
  induction pats generalizing cnt g g' vss with
  | nil =>
    rw [printPatterns, Outcome.returns.injEq] at h
    rw [← h.left]
    exact ⟨.nil, rfl⟩
  | cons t pats ih =>
    rcases Outcome.andThen_returns h with ⟨vs, g1, hone, hafter⟩
    rcases Outcome.andThen_returns hafter with ⟨wss, g2, hrest, hret⟩
    rw [Outcome.returns.injEq] at hret
    rcases printAll_returns hone with ⟨hprinted, hguards⟩
    rcases ih hrest with ⟨hall, hguards'⟩
    rw [← hret.left]
    constructor
    · exact .cons hprinted hall
    · rw [List.flatten_cons, List.map_append, hguards, hguards', List.length_append,
        ← List.map_append, List.range'_append_1]

theorem main_returns {ptrs ints : List String} {heap data : List Term} {fuel : Nat}
    {g g' : Globals} {r : Generated}
    (h : PredGenList.main st ptrs ints heap data fuel g = .returns r g') :
    List.Forall₂ (fun t vs =>
        List.Forall₂ (PrintedFor st fuel t) vs (heapSelections ptrs t)) heap r.heap ∧
      List.Forall₂ (fun t vs =>
        List.Forall₂ (PrintedFor st fuel t) vs (dataSelections ptrs ints t)) data r.data ∧
      r.invariants.map Invariant.guard = (List.range r.invariants.length).map guard ∧
      r.consts = r.invariants.map (fun v => constText v.guard) := by
  rcases Outcome.andThen_returns h with ⟨hvss, g1, hheap, hafter⟩
  rcases Outcome.andThen_returns hafter with ⟨dvss, g2, hdata, hret⟩
  rw [Outcome.returns.injEq] at hret
  rcases printPatterns_returns hheap with ⟨hheaps, hguards⟩
  rcases printPatterns_returns hdata with ⟨hdatas, hguards'⟩
  have hall : (hvss.flatten ++ dvss.flatten).map Invariant.guard =
      (List.range (hvss.flatten.length + dvss.flatten.length)).map guard := by
    rw [List.map_append, hguards, hguards', ← List.map_append, List.range_eq_range']
    congr 1
    have happ := List.range'_append_1 (s := 0) (m := hvss.flatten.length)
      (n := dvss.flatten.length)
    rwa [Nat.zero_add] at happ
  rw [← hret.left]
  have hconsts := congrArg (List.map constText) hall
  rw [List.map_map, List.map_map] at hconsts
  constructor
  · exact hheaps
  · constructor
    · exact hdatas
    · constructor
      · rw [Generated.invariants, hall, List.length_append]
      · exact hconsts.symm

theorem nodup_guards {vs : List Invariant}
    (h : vs.map Invariant.guard = (List.range vs.length).map guard) :
    (vs.map Invariant.guard).Nodup := by
  rw [h]
  exact List.nodup_range.map (fun _ _ => guard_injective)

/-!
# Runs that come to their end
-/

def PrintsAll (st : Settings) (t : Term) (xs : List (List String × List String)) : Prop :=
  exists n, forall fuel, n ≤ fuel -> forall cnt g, exists vs g',
    printAll st fuel t xs cnt g = .returns vs g'

theorem printsAll {t : Term} {xs : List (List String × List String)}
    (h : forall x, x ∈ xs -> Terminates st x.1 x.2 t) : PrintsAll st t xs := by
  induction xs with
  | nil => exact ⟨0, fun _ _ _ g => ⟨[], g, rfl⟩⟩
  | cons x xs ih =>
    rcases h x (List.mem_cons_self ..) with ⟨m, hm⟩
    rcases ih (fun y hy => h y (List.mem_cons_of_mem _ hy)) with ⟨n, hn⟩
    exists m + n
    intro fuel hfuel cnt g
    rcases hm fuel (by omega) g with ⟨s, g1, hrun⟩
    rcases hn fuel (by omega) (cnt + 1) g1 with ⟨vs, g2, hrest⟩
    exists ⟨guard cnt, s⟩ :: vs, g2
    rw [printAll, printInvariant]
    simp only [hrun, Outcome.andThen, hrest]

theorem printPatterns_terminates {sel : Term -> List (List String × List String)}
    {pats : List Term} (h : forall t, t ∈ pats -> PrintsAll st t (sel t)) :
    exists n, forall fuel, n ≤ fuel -> forall cnt g, exists vss g',
      printPatterns st fuel sel pats cnt g = .returns vss g' := by
  induction pats with
  | nil => exact ⟨0, fun _ _ _ g => ⟨[], g, rfl⟩⟩
  | cons t pats ih =>
    rcases h t (List.mem_cons_self ..) with ⟨m, hm⟩
    rcases ih (fun u hu => h u (List.mem_cons_of_mem _ hu)) with ⟨n, hn⟩
    exists m + n
    intro fuel hfuel cnt g
    rcases hm fuel (by omega) cnt g with ⟨vs, g1, hone⟩
    rcases hn fuel (by omega) (cnt + vs.length) g1 with ⟨vss, g2, hrest⟩
    exists vs :: vss, g2
    rw [printPatterns]
    simp only [hone, Outcome.andThen, hrest]

theorem main_terminates {ptrs ints : List String} {heap data : List Term}
    (hheap : forall t, t ∈ heap -> PrintsAll st t (heapSelections ptrs t))
    (hdata : forall t, t ∈ data -> PrintsAll st t (dataSelections ptrs ints t))
    (g : Globals) : exists fuel r g',
      PredGenList.main st ptrs ints heap data fuel g = .returns r g' := by
  rcases printPatterns_terminates hheap with ⟨m, hm⟩
  rcases printPatterns_terminates hdata with ⟨n, hn⟩
  rcases hm (m + n) (by omega) 0 g with ⟨hvss, g1, hone⟩
  rcases hn (m + n) (by omega) hvss.flatten.length g1 with ⟨dvss, g2, htwo⟩
  have hmain : PredGenList.main st ptrs ints heap data (m + n) g =
      .returns ⟨hvss, dvss, (List.range (hvss.flatten.length + dvss.flatten.length)).map
        (fun i => constText (guard i))⟩ g2 := by
    rw [PredGenList.main]
    simp only [hone, Outcome.andThen, htwo]
  exact ⟨_, _, _, hmain⟩

end Runs

/-!
# Complete lists
-/

/-- The candidates of a pattern are its instances, each of them once. -/
def Enumerates (st : Settings) (ptrs ints : List String) (t : Term) (vs : List Invariant) :
    Prop :=
  (vs.map (fun v => parse v.body)).Perm
    ((instances ptrs ints t).map (fun x => some (instantiate st t x)))

/-- The printed list has for each pattern its instances, every candidate has a guard of
its own, and these guards are declared. -/
structure Complete (st : Settings) (ptrs ints : List String)
    (patterns_heap patterns_data : List Term) (r : Generated) : Prop where
  heap : List.Forall₂ (Enumerates st ptrs ints) patterns_heap r.heap
  data : List.Forall₂ (Enumerates st ptrs ints) patterns_data r.data
  guards : (r.invariants.map Invariant.guard).Nodup
  consts : r.consts = r.invariants.map (fun v => constText v.guard)

/-- Whatever the globals hold, `main` prints a complete list. -/
def Generates (st : Settings) (ptrs ints : List String)
    (patterns_heap patterns_data : List Term) : Prop :=
  forall g, exists fuel r g',
    PredGenList.main st ptrs ints patterns_heap patterns_data fuel g = .returns r g' ∧
      Complete st ptrs ints patterns_heap patterns_data r

/-- The selections of `m` names stand for those of `u` of them one for one. -/
def Exact (m u available : Nat) : Prop :=
  m = u ∨ (m = u + 1 ∧ available = m)

def TooFew (ptrs ints : List String) (t : Term) : Prop :=
  ptrs.length < (ptrIndices t).length ∨ ints.length < (intIndices t).length

def NoData (ints : List String) (t : Term) : Prop :=
  (intIndices t).length = 0 ∨ ((intIndices t).length = 1 ∧ ints = ["undefined"])

/-- When the candidates of a pattern in `patterns_heap` are right. -/
def HeapCondition (ptrs ints : List String) (t : Term) : Prop :=
  if (numptrs t).toNat ≤ ptrs.length then
    t.InOrder ∧ Exact (numptrs t).toNat (ptrIndices t).length ptrs.length ∧ NoData ints t
  else TooFew ptrs ints t

/-- When the candidates of a pattern in `patterns_data` are right. -/
def DataCondition (ptrs ints : List String) (t : Term) : Prop :=
  if (numptrs t).toNat ≤ ptrs.length ∧ (numints t).toNat ≤ ints.length then
    t.InOrder ∧ Exact (numptrs t).toNat (ptrIndices t).length ptrs.length ∧
      Exact (numints t).toNat (intIndices t).length ints.length
  else TooFew ptrs ints t

section Conditions

variable {st : Settings} {ptrs ints : List String} {t : Term}

def instanceOf (t : Term) (x : List String × List String) : Instance :=
  (entriesAt (ptrIndices t) "undefined" x.1, entriesAt (intIndices t) "undefined" x.2)

theorem nameAt_entriesAt {us : List Nat} (names : List String) {n : Nat} (hn : n ∈ us) :
    nameAt (entriesAt us "undefined" names) (us.idxOf n) = nameAt names n := by
  have hidx := List.idxOf_lt_length_of_mem hn
  rw [nameAt, entriesAt, List.getD_eq_getElem _ _ (by rwa [List.length_map]),
    List.getElem_map, List.getElem_idxOf]
  rfl

theorem instanceTree_eq (ht : t.Supported st) (x : List String × List String) :
    instanceTree st x.1 x.2 t = instantiate st t (instanceOf t x) := by
  rw [instanceTree, instantiate, tree_eq_iff ht, agree_iff]
  exact ⟨fun n hn => (nameAt_entriesAt x.1 hn).symm, fun n hn => (nameAt_entriesAt x.2 hn).symm⟩

theorem eq_of_nameAt {us : List Nat} {s s' : List String} (hus : us.Nodup)
    (hs : s.length = us.length) (hs' : s'.length = us.length)
    (h : forall n, n ∈ us -> nameAt s (us.idxOf n) = nameAt s' (us.idxOf n)) : s = s' := by
  apply List.ext_getElem (hs.trans hs'.symm)
  intro j hj hj'
  have hlt : j < us.length := hs ▸ hj
  have hname := h us[j] (List.getElem_mem hlt)
  rw [hus.idxOf_getElem, nameAt, nameAt, List.getD_eq_getElem _ _ hj,
    List.getD_eq_getElem _ _ hj'] at hname
  exact hname

theorem instantiate_injective (ht : t.Supported st) {x y : Instance}
    (hx1 : x.1.length = (ptrIndices t).length) (hx2 : x.2.length = (intIndices t).length)
    (hy1 : y.1.length = (ptrIndices t).length) (hy2 : y.2.length = (intIndices t).length)
    (h : instantiate st t x = instantiate st t y) : x = y := by
  rw [instantiate, instantiate, tree_eq_iff ht, agree_iff] at h
  exact Prod.ext (eq_of_nameAt (nodup_ptrIndices t) hx1 hy1 h.left)
    (eq_of_nameAt (nodup_intIndices t) hx2 hy2 h.right)

theorem length_instanceOf (t : Term) (x : List String × List String) :
    (instanceOf t x).1.length = (ptrIndices t).length ∧
      (instanceOf t x).2.length = (intIndices t).length :=
  ⟨List.length_map .., List.length_map ..⟩

theorem map_product {A B C D : Type} (f : A -> C) (g : B -> D) (l : List A) (m : List B) :
    (l ×ˢ m).map (Prod.map f g) = l.map f ×ˢ m.map g := by
  simp [SProd.sprod, List.product, List.map_flatMap, List.flatMap_map, Function.comp_def]

theorem PrintedFor.inOrder (hst : st.Valid) (ht : t.Supported st) {fuel : Nat}
    {v : Invariant} {x : List String × List String} (hp : forall y, y ∈ x.1 -> isIdent y = true)
    (hi : forall y, y ∈ x.2 -> isIdent y = true) (h : PrintedFor st fuel t v x)
    {y : Instance} (hparse : parse v.body = some (instantiate st t y)) : t.InOrder := by
  rcases h with ⟨g, g', hrun⟩
  rcases ts_returns hst hp hi ht hrun with ⟨e, mark, hrendered⟩
  rw [parse_of_rendered hrendered, Option.some.injEq] at hparse
  have hsame : e.map withoutNames = (instanceTree st x.1 x.2 t).map withoutNames := by
    rw [hparse]
    exact tree_withoutNames ht
  exact (inOrder_tree ht).mp
    (hrendered.shows.inOrder_of_map_eq isConj_withoutNames hsame)

theorem PrintedFor.parse_eq (hst : st.Valid) (ht : t.Supported st) (horder : t.InOrder)
    {fuel : Nat} {v : Invariant} {x : List String × List String}
    (hp : forall y, y ∈ x.1 -> isIdent y = true) (hi : forall y, y ∈ x.2 -> isIdent y = true)
    (h : PrintedFor st fuel t v x) :
    parse v.body = some (instantiate st t (instanceOf t x)) := by
  rcases h with ⟨g, g', hrun⟩
  rcases ts_returns hst hp hi ht hrun with ⟨e, mark, hrendered⟩
  rw [parse_of_rendered hrendered, (hrendered.eq_of_inOrder ht horder).left,
    instanceTree_eq ht]

theorem forall₂_parse (hst : st.Valid) (ht : t.Supported st) (horder : t.InOrder)
    {fuel : Nat} {vs : List Invariant} {xs : List (List String × List String)}
    (hxs : forall x, x ∈ xs -> (forall y, y ∈ x.1 -> isIdent y = true) ∧
      forall y, y ∈ x.2 -> isIdent y = true) (h : List.Forall₂ (PrintedFor st fuel t) vs xs) :
    vs.map (fun v => parse v.body) =
      (xs.map (instanceOf t)).map (fun x => some (instantiate st t x)) := by
  induction h with
  | nil => rfl
  | @cons v x vs xs hv _ ih =>
    rcases hxs x (List.mem_cons_self ..) with ⟨hp, hi⟩
    rw [List.map_cons, List.map_cons, List.map_cons, hv.parse_eq hst ht horder hp hi,
      ih (fun y hy => hxs y (List.mem_cons_of_mem _ hy))]

theorem length_instances (ptrs ints : List String) (t : Term) :
    (instances ptrs ints t).length = ptrs.length.descFactorial (ptrIndices t).length *
        ints.length.descFactorial (intIndices t).length := by
  rw [instances, List.length_product, length_selections, length_selections]

theorem instances_eq_nil_iff : instances ptrs ints t = [] <-> TooFew ptrs ints t := by
  rw [← List.length_eq_zero_iff, length_instances, Nat.mul_eq_zero,
    Nat.descFactorial_eq_zero_iff_lt, Nat.descFactorial_eq_zero_iff_lt, TooFew]

theorem enumerates_nil_iff : Enumerates st ptrs ints t [] <-> TooFew ptrs ints t := by
  rw [Enumerates, List.map_nil, List.nil_perm, List.map_eq_nil_iff, instances_eq_nil_iff]

theorem Enumerates.inOrder (hst : st.Valid) (ht : t.Supported st) {fuel : Nat}
    {vs : List Invariant} {xs : List (List String × List String)}
    (hxs : forall x, x ∈ xs -> (forall y, y ∈ x.1 -> isIdent y = true) ∧
      forall y, y ∈ x.2 -> isIdent y = true)
    (hne : xs ≠ []) (h : List.Forall₂ (PrintedFor st fuel t) vs xs)
    (hall : Enumerates st ptrs ints t vs) : t.InOrder := by
  cases h with
  | nil => exact absurd rfl hne
  | @cons v x vs xs hv _ =>
    have hmem : parse v.body ∈ ((instances ptrs ints t).map
        (fun x => some (instantiate st t x))) :=
      hall.subset (List.mem_map_of_mem (List.mem_cons_self ..))
    rcases List.mem_map.mp hmem with ⟨y, _, hy⟩
    rcases hxs x (List.mem_cons_self ..) with ⟨hp, hi⟩
    exact hv.inOrder hst ht hp hi hy.symm

theorem isIdent_of_selections {names s : List String} {k : Nat} (hnodup : names.Nodup)
    (hnames : forall x, x ∈ names -> isIdent x = true) (hs : s ∈ selections k names) :
    forall x, x ∈ s -> isIdent x = true :=
  fun x hx => hnames x (((mem_selections hnodup).mp hs).right.left hx)

theorem eq_and_eq_of_mul_eq {a a' b b' : Nat} (ha : a' ≤ a) (hb : b' ≤ b) (ha' : 0 < a')
    (hb' : 0 < b') (h : a * b = a' * b') : a = a' ∧ b = b' := by
  have hleft : a * b' ≤ a' * b' := (Nat.mul_le_mul_left a hb).trans (Nat.le_of_eq h)
  have hright : a' * b ≤ a' * b' := (Nat.mul_le_mul_right b ha).trans (Nat.le_of_eq h)
  exact ⟨Nat.le_antisymm (Nat.le_of_mul_le_mul_right hleft hb') ha,
    Nat.le_antisymm (Nat.le_of_mul_le_mul_left hright ha') hb⟩

theorem data_enumerates_iff (hst : st.Valid) (hptrs : ptrs.Nodup) (hints : ints.Nodup)
    (hp : forall x, x ∈ ptrs -> isIdent x = true)
    (hi : forall x, x ∈ ints -> isIdent x = true) (ht : t.Predicate st) {fuel : Nat}
    {vs : List Invariant}
    (h : List.Forall₂ (PrintedFor st fuel t) vs (dataSelections ptrs ints t)) :
    Enumerates st ptrs ints t vs <-> DataCondition ptrs ints t := by
  rw [dataSelections_eq ht] at h
  rw [DataCondition]
  by_cases hfits : (numptrs t).toNat ≤ ptrs.length ∧ (numints t).toNat ≤ ints.length
  · rw [if_pos hfits] at h
    rw [if_pos hfits]
    have hxs : forall x, x ∈ selections (numptrs t).toNat ptrs ×ˢ
        selections (numints t).toNat ints ->
        (forall y, y ∈ x.1 -> isIdent y = true) ∧ forall y, y ∈ x.2 -> isIdent y = true := by
      intro x hx
      rcases List.mem_product.mp hx with ⟨h1, h2⟩
      exact ⟨isIdent_of_selections hptrs hp h1, isIdent_of_selections hints hi h2⟩
    have hltp := fun n (hn : n ∈ ptrIndices t) => lt_numptrs ht hn
    have hlti := fun n (hn : n ∈ intIndices t) => lt_numints ht hn
    have hup := length_le_of_lt (nodup_ptrIndices t) hltp
    have hui := length_le_of_lt (nodup_intIndices t) hlti
    constructor
    · intro hall
      have hlength := hall.length_eq
      rw [List.length_map, List.length_map, h.length_eq, List.length_product,
        length_selections, length_selections, length_instances] at hlength
      have hne : selections (numptrs t).toNat ptrs ×ˢ selections (numints t).toNat ints ≠ [] := by
        intro hnil
        have hzero := congrArg List.length hnil
        rw [List.length_product, length_selections, length_selections, List.length_nil] at hzero
        have hposp := Nat.descFactorial_pos.mpr hfits.left
        have hposi := Nat.descFactorial_pos.mpr hfits.right
        exact absurd hzero (Nat.ne_of_gt (Nat.mul_pos hposp hposi))
      rcases eq_and_eq_of_mul_eq (descFactorial_le hup hfits.left)
        (descFactorial_le hui hfits.right)
        (Nat.descFactorial_pos.mpr (hup.trans hfits.left))
        (Nat.descFactorial_pos.mpr (hui.trans hfits.right)) hlength with ⟨hptr, hint⟩
      exact ⟨hall.inOrder hst ht.right hxs hne h, (descFactorial_eq_iff hup hfits.left).mp hptr,
        (descFactorial_eq_iff hui hfits.right).mp hint⟩
    · intro ⟨horder, hexactp, hexacti⟩
      rw [Enumerates, forall₂_parse hst ht.right horder hxs h]
      apply List.Perm.map
      have hproduct := map_product (entriesAt (ptrIndices t) "undefined")
        (entriesAt (intIndices t) "undefined") (selections (numptrs t).toNat ptrs)
        (selections (numints t).toNat ints)
      have hmap : instanceOf t = Prod.map (entriesAt (ptrIndices t) "undefined")
          (entriesAt (intIndices t) "undefined") := rfl
      rw [hmap, hproduct]
      exact (entriesAt_perm hptrs (nodup_ptrIndices t) hltp hfits.left _ hexactp).product
        (entriesAt_perm hints (nodup_intIndices t) hlti hfits.right _ hexacti)
  · rw [if_neg hfits] at h
    rw [if_neg hfits]
    cases h
    exact enumerates_nil_iff

theorem entriesAt_nil (us : List Nat) :
    entriesAt us "undefined" [] = List.replicate us.length "undefined" := by
  rw [entriesAt, ← List.map_const']
  exact List.map_congr_left (fun n _ => by rw [List.getD_nil])

theorem noData_iff (hints : ints.Nodup) :
    selections (intIndices t).length ints =
        [List.replicate (intIndices t).length "undefined"] <-> NoData ints t := by
  rw [NoData]
  generalize (intIndices t).length = u
  constructor
  · intro h
    have hlength := congrArg List.length h
    rw [length_selections, List.length_singleton, descFactorial_eq_one] at hlength
    rcases hlength with hzero | ⟨hone, rfl⟩
    · exact Or.inl hzero
    · right
      constructor
      · rfl
      · rcases List.length_eq_one_iff.mp hone with ⟨x, rfl⟩
        have hx : [x] ∈ selections 1 [x] :=
          (mem_selections hints).mpr ⟨List.nodup_singleton x, List.Subset.refl _, rfl⟩
        rw [h, List.mem_singleton] at hx
        rw [hx]
        rfl
  · intro h
    rcases h with rfl | ⟨rfl, rfl⟩
    · rfl
    · rfl

theorem selections_of_heap (ht : t.Supported st) (hptrs : ptrs.Nodup) (hints : ints.Nodup)
    {ps : List (List String)} {bodies : List (Option ParseTree)} (hbodies : bodies =
      ((ps ×ˢ [[]]).map (instanceOf t)).map (fun x => some (instantiate st t x)))
    (hne : instances ptrs ints t ≠ [])
    (hall : bodies.Perm ((instances ptrs ints t).map (fun x => some (instantiate st t x)))) :
    selections (intIndices t).length ints = [List.replicate (intIndices t).length "undefined"] := by
  have hsame : forall s s', s ∈ selections (ptrIndices t).length ptrs ->
      s' ∈ selections (intIndices t).length ints ->
      s' = List.replicate (intIndices t).length "undefined" := by
    intro s s' hs hs'
    have hmem : some (instantiate st t (s, s')) ∈ bodies :=
      hall.mem_iff.mpr (List.mem_map_of_mem (f := fun x => some (instantiate st t x))
        (List.mem_product.mpr ⟨hs, hs'⟩))
    rw [hbodies] at hmem
    rcases List.mem_map.mp hmem with ⟨y, hy, heq⟩
    rcases List.mem_map.mp hy with ⟨x, hx, rfl⟩
    have hx2 : x.2 = [] := List.mem_singleton.mp (List.mem_product.mp hx).right
    rcases length_instanceOf t x with ⟨hl1, hl2⟩
    have hinstance := instantiate_injective ht hl1 hl2
      ((mem_selections hptrs).mp hs).right.right ((mem_selections hints).mp hs').right.right
      (Option.some.inj heq)
    have hsecond : entriesAt (intIndices t) "undefined" x.2 = s' :=
      congrArg Prod.snd hinstance
    rw [← hsecond, hx2, entriesAt_nil]
  rcases List.exists_mem_of_ne_nil _ hne with ⟨⟨s, s'⟩, hmem⟩
  rcases List.mem_product.mp hmem with ⟨hs, hs'⟩
  rw [← List.perm_singleton, List.perm_ext_iff_of_nodup (selections_nodup hints)
    (List.nodup_singleton _)]
  intro x
  rw [List.mem_singleton]
  constructor
  · exact hsame s x hs
  · rintro rfl
    exact hsame s s' hs hs' ▸ hs'

theorem heap_enumerates_iff (hst : st.Valid) (hptrs : ptrs.Nodup) (hints : ints.Nodup)
    (hp : forall x, x ∈ ptrs -> isIdent x = true) (ht : t.Predicate st) {fuel : Nat}
    {vs : List Invariant} (h : List.Forall₂ (PrintedFor st fuel t) vs (heapSelections ptrs t)) :
    Enumerates st ptrs ints t vs <-> HeapCondition ptrs ints t := by
  rw [heapSelections_eq ht] at h
  rw [HeapCondition]
  by_cases hfits : (numptrs t).toNat ≤ ptrs.length
  · rw [if_pos hfits] at h
    rw [if_pos hfits]
    have hxs : forall x, x ∈ selections (numptrs t).toNat ptrs ×ˢ [([] : List String)] ->
        (forall y, y ∈ x.1 -> isIdent y = true) ∧ forall y, y ∈ x.2 -> isIdent y = true := by
      intro x hx
      rcases List.mem_product.mp hx with ⟨h1, h2⟩
      constructor
      · exact isIdent_of_selections hptrs hp h1
      · rw [List.mem_singleton.mp h2]
        simp
    have hltp := fun n (hn : n ∈ ptrIndices t) => lt_numptrs ht hn
    have hup := length_le_of_lt (nodup_ptrIndices t) hltp
    have hpos := Nat.descFactorial_pos.mpr hfits
    constructor
    · intro hall
      have hlength := hall.length_eq
      rw [List.length_map, List.length_map, h.length_eq, List.length_product,
        length_selections, List.length_singleton, Nat.mul_one, length_instances] at hlength
      have hne : selections (numptrs t).toNat ptrs ×ˢ [([] : List String)] ≠ [] := by
        intro hnil
        have hzero := congrArg List.length hnil
        rw [List.length_product, length_selections, List.length_singleton, Nat.mul_one,
          List.length_nil] at hzero
        exact absurd hzero (Nat.ne_of_gt hpos)
      have horder := hall.inOrder hst ht.right hxs hne h
      have hinstances : instances ptrs ints t ≠ [] := by
        intro hnil
        have hzero := congrArg List.length hnil
        rw [length_instances, ← hlength, List.length_nil] at hzero
        exact absurd hzero (Nat.ne_of_gt hpos)
      have hselections := selections_of_heap ht.right hptrs hints
        (forall₂_parse hst ht.right horder hxs h) hinstances hall
      have hone := congrArg List.length hselections
      rw [length_selections, List.length_singleton] at hone
      rw [hone, Nat.mul_one] at hlength
      exact ⟨horder, (descFactorial_eq_iff hup hfits).mp hlength,
        (noData_iff hints).mp hselections⟩
    · intro ⟨horder, hexact, hdata⟩
      rw [Enumerates, forall₂_parse hst ht.right horder hxs h]
      apply List.Perm.map
      have hproduct := map_product (entriesAt (ptrIndices t) "undefined")
        (entriesAt (intIndices t) "undefined") (selections (numptrs t).toNat ptrs)
        [([] : List String)]
      have hmap : instanceOf t = Prod.map (entriesAt (ptrIndices t) "undefined")
          (entriesAt (intIndices t) "undefined") := rfl
      rw [hmap, hproduct, List.map_singleton, entriesAt_nil, ← (noData_iff hints).mpr hdata]
      exact (entriesAt_perm hptrs (nodup_ptrIndices t) hltp hfits _ hexact).product
        (List.Perm.refl _)
  · rw [if_neg hfits] at h
    rw [if_neg hfits]
    cases h
    exact enumerates_nil_iff

theorem printsAll_of_inOrder (hst : st.Valid) (ht : t.Supported st) (horder : t.InOrder)
    {xs : List (List String × List String)}
    (hxs : forall x, x ∈ xs -> (forall y, y ∈ x.1 -> isIdent y = true) ∧
      forall y, y ∈ x.2 -> isIdent y = true) : PrintsAll st t xs :=
  printsAll (fun x hx =>
    terminates_of_inOrder hst (hxs x hx).left (hxs x hx).right ht horder)

theorem printsAll_heap (hst : st.Valid) (hptrs : ptrs.Nodup)
    (hp : forall x, x ∈ ptrs -> isIdent x = true) (ht : t.Predicate st)
    (h : HeapCondition ptrs ints t) : PrintsAll st t (heapSelections ptrs t) := by
  rw [heapSelections_eq ht]
  rw [HeapCondition] at h
  by_cases hfits : (numptrs t).toNat ≤ ptrs.length
  · rw [if_pos hfits] at h
    rw [if_pos hfits]
    apply printsAll_of_inOrder hst ht.right h.left
    intro x hx
    rcases List.mem_product.mp hx with ⟨h1, h2⟩
    constructor
    · exact isIdent_of_selections hptrs hp h1
    · rw [List.mem_singleton.mp h2]
      simp
  · rw [if_neg hfits]
    exact printsAll (by simp)

theorem printsAll_data (hst : st.Valid) (hptrs : ptrs.Nodup) (hints : ints.Nodup)
    (hp : forall x, x ∈ ptrs -> isIdent x = true)
    (hi : forall x, x ∈ ints -> isIdent x = true) (ht : t.Predicate st)
    (h : DataCondition ptrs ints t) : PrintsAll st t (dataSelections ptrs ints t) := by
  rw [dataSelections_eq ht]
  rw [DataCondition] at h
  by_cases hfits : (numptrs t).toNat ≤ ptrs.length ∧ (numints t).toNat ≤ ints.length
  · rw [if_pos hfits] at h
    rw [if_pos hfits]
    apply printsAll_of_inOrder hst ht.right h.left
    intro x hx
    rcases List.mem_product.mp hx with ⟨h1, h2⟩
    exact ⟨isIdent_of_selections hptrs hp h1, isIdent_of_selections hints hi h2⟩
  · rw [if_neg hfits]
    exact printsAll (by simp)

theorem forall₂_iff_forall {A B : Type} {R Q : A -> B -> Prop} {P : A -> Prop} {as : List A}
    {bs : List B} (h : List.Forall₂ R as bs)
    (hiff : forall a b, a ∈ as -> R a b -> (Q a b <-> P a)) :
    List.Forall₂ Q as bs <-> forall a, a ∈ as -> P a := by
  induction h with
  | nil => simp
  | @cons a b as bs hab _ ih =>
    rw [List.forall₂_cons, List.forall_mem_cons,
      hiff a b (List.mem_cons_self ..) hab,
      ih (fun x y hx => hiff x y (List.mem_cons_of_mem _ hx))]

end Conditions

section Lists

variable {st : Settings} {ptrs ints : List String} {patterns_heap patterns_data : List Term}

theorem conditions_of_generates (hst : st.Valid) (hptrs : ptrs.Nodup) (hints : ints.Nodup)
    (hp : forall x, x ∈ ptrs -> isIdent x = true) (hi : forall x, x ∈ ints -> isIdent x = true)
    (hheap : forall t, t ∈ patterns_heap -> t.Predicate st)
    (hdata : forall t, t ∈ patterns_data -> t.Predicate st)
    (h : Generates st ptrs ints patterns_heap patterns_data) :
    (forall t, t ∈ patterns_heap -> HeapCondition ptrs ints t) ∧
      forall t, t ∈ patterns_data -> DataCondition ptrs ints t := by
  rcases h ⟨0, ""⟩ with ⟨fuel, r, g', hrun, hcomplete⟩
  rcases main_returns hrun with ⟨hheaps, hdatas, _, _⟩
  exact ⟨(forall₂_iff_forall hheaps (fun t vs ht hprinted =>
      heap_enumerates_iff hst hptrs hints hp (hheap t ht) hprinted)).mp hcomplete.heap,
    (forall₂_iff_forall hdatas (fun t vs ht hprinted =>
      data_enumerates_iff hst hptrs hints hp hi (hdata t ht) hprinted)).mp hcomplete.data⟩

theorem generates_of_conditions (hst : st.Valid) (hptrs : ptrs.Nodup) (hints : ints.Nodup)
    (hp : forall x, x ∈ ptrs -> isIdent x = true) (hi : forall x, x ∈ ints -> isIdent x = true)
    (hheap : forall t, t ∈ patterns_heap -> t.Predicate st)
    (hdata : forall t, t ∈ patterns_data -> t.Predicate st)
    (hheapcond : forall t, t ∈ patterns_heap -> HeapCondition ptrs ints t)
    (hdatacond : forall t, t ∈ patterns_data -> DataCondition ptrs ints t) :
    Generates st ptrs ints patterns_heap patterns_data := by
  intro g
  rcases main_terminates
    (fun t ht => printsAll_heap hst hptrs hp (hheap t ht) (hheapcond t ht))
    (fun t ht => printsAll_data hst hptrs hints hp hi (hdata t ht) (hdatacond t ht)) g
    with ⟨fuel, r, g', hrun⟩
  rcases main_returns hrun with ⟨hheaps, hdatas, hguards, hconsts⟩
  exists fuel, r, g'
  constructor
  · exact hrun
  · constructor
    · exact (forall₂_iff_forall hheaps (fun t vs ht hprinted =>
        heap_enumerates_iff hst hptrs hints hp (hheap t ht) hprinted)).mpr hheapcond
    · exact (forall₂_iff_forall hdatas (fun t vs ht hprinted =>
        data_enumerates_iff hst hptrs hints hp hi (hdata t ht) hprinted)).mpr hdatacond
    · exact nodup_guards hguards
    · exact hconsts

/-- The list is complete when all patterns meet their conditions, and only then. -/
theorem generates_iff (hst : st.Valid) (hptrs : ptrs.Nodup) (hints : ints.Nodup)
    (hp : forall x, x ∈ ptrs -> isIdent x = true) (hi : forall x, x ∈ ints -> isIdent x = true)
    (hheap : forall t, t ∈ patterns_heap -> t.Predicate st)
    (hdata : forall t, t ∈ patterns_data -> t.Predicate st) :
    Generates st ptrs ints patterns_heap patterns_data <->
      (forall t, t ∈ patterns_heap -> HeapCondition ptrs ints t) ∧
        forall t, t ∈ patterns_data -> DataCondition ptrs ints t :=
  ⟨conditions_of_generates hst hptrs hints hp hi hheap hdata,
    fun h => generates_of_conditions hst hptrs hints hp hi hheap hdata h.left h.right⟩

end Lists

/-- `['implies', ['non_null', 0], ['lt', ['key', 0], -1]]` -/
def keyBelow : Term :=
  .app .implies [.app .nonNull [.num 0], .app .lt [.app .key [.num 0], .num (-1)]]

theorem keyBelow_predicate : keyBelow.Predicate sllSettings :=
  ⟨⟨_, _, rfl⟩, by simp only [keyBelow, Term.Supported, Term.AllSupported]; decide⟩

/-- `['list', 0]` -/
def isList : Term :=
  .app .list [.num 0]

theorem isList_predicate : isList.Predicate sllSettings :=
  ⟨⟨_, _, rfl⟩, by simp only [isList, Term.Supported, Term.AllSupported]; decide⟩

theorem generates_iff_isList_keyBelow :
    Generates sllSettings ["P#x", "L#curr"] ["P#k"] [isList] [keyBelow] <->
      (forall t, t ∈ [isList] -> HeapCondition ["P#x", "L#curr"] ["P#k"] t) ∧
        forall t, t ∈ [keyBelow] -> DataCondition ["P#x", "L#curr"] ["P#k"] t :=
  generates_iff sllSettings_valid (by decide) (by decide) (by decide) (by decide)
    (by simpa using isList_predicate) (by simpa using keyBelow_predicate)

/-- `['ge_zero', -1]` -/
def geZero : Term :=
  .app .geZero [.num (-1)]

theorem geZero_predicate : geZero.Predicate sllSettings :=
  ⟨⟨_, _, rfl⟩, by simp only [geZero, Term.Supported, Term.AllSupported]; decide⟩

theorem geZero_not_dataCondition : ¬DataCondition ["x", "y"] ["k"] geZero := by
  intro h
  rw [DataCondition, if_pos (by decide)] at h
  exact absurd h.right.left (by rw [Exact]; decide)

theorem dataSelections_geZero :
    dataSelections ["x", "y"] ["k"] geZero = [(["x"], ["k"]), (["y"], ["k"])] := by
  rw [dataSelections_eq geZero_predicate]
  decide

/-- With two pointers a predicate without pointers is printed twice. -/
theorem geZero_twice :
    (exists consts g', PredGenList.main sllSettings ["x", "y"] ["k"] [] [geZero] 5 ⟨0, ""⟩ =
      .returns ⟨[], [[⟨guard 0, "(k >= 0)"⟩, ⟨guard 1, "(k >= 0)"⟩]], consts⟩ g') ∧
      ¬forall (st : Settings) (ptrs ints : List String) (heap data : List Term), st.Valid ->
        ptrs.Nodup -> ints.Nodup -> (forall x, x ∈ ptrs -> isIdent x = true) ->
        (forall x, x ∈ ints -> isIdent x = true) ->
        (forall t, t ∈ heap -> t.Predicate st) -> (forall t, t ∈ data -> t.Predicate st) ->
        Generates st ptrs ints heap data := by
  have hdata : forall t, t ∈ [geZero] -> t.Predicate sllSettings := by
    simpa using geZero_predicate
  constructor
  · exists [constText (guard 0), constText (guard 1)], ⟨0, ""⟩
    rw [PredGenList.main, printPatterns]
    simp only [Outcome.andThen, printPatterns, dataSelections_geZero, printAll,
      printInvariant]
    rfl
  · intro h
    have hgenerates := h sllSettings ["x", "y"] ["k"] [] [geZero] sllSettings_valid
      (by decide) (by decide) (by decide) (by decide) (by simp) hdata
    have hconditions := conditions_of_generates sllSettings_valid (by decide) (by decide)
      (by decide) (by decide) (by simp) hdata hgenerates
    exact geZero_not_dataCondition (hconditions.right geZero (List.mem_singleton_self _))

end Heaps
end Boogie
