import Boogie.Foundation.Partition
import Boogie.Foundation.Traversal
import Boogie.Houdini.C5Domain

/-!
# Equalities between arguments

An element is a partition of the arguments of an existential function, the
arguments of one set being equal.  Elements of a model are compared by the text
they are shown as.
-/

namespace Boogie

namespace Model.Element

mutual

protected def toString : Element -> String
  | boolean b => if b then "true" else "false"
  | integer n => toString n
  | datatypeValue constructorName arguments =>
    "(" ++ constructorName ++ argumentsToString arguments ++ ")"
  | uninterpreted name => name

def argumentsToString : List Element -> String
  | [] => ""
  | a :: as => " " ++ Element.toString a ++ argumentsToString as

end

end Model.Element

structure EqualitiesDomain where
  isBottom : Bool
  equalities : List (List Nat)
deriving DecidableEq, Repr

namespace EqualitiesDomain

def getBottom : EqualitiesDomain :=
  ⟨true, []⟩

/-!
# Join

An index that is out of range, an index without a set and the minimum of an
empty set are exceptions, `none` here.
-/

section Join

variable {Element : Type} (text : Element -> String)

def textAt (state : List Element) (i : Nat) : Option String :=
  state[i]?.map text

def findEqual (state : List Element) : List (List Nat) :=
  (List.range state.length).foldl
    (fun eq i =>
      addPoint (fun i sv => textAt text state i = textAt text state sv) i eq)
    []

/-- `ret[i] = s` for each index `i` of `s`. -/
def setAll (n : Nat) (ret : Nat -> Option (List Nat)) (s : List Nat) :
    Option (Nat -> Option (List Nat)) :=
  s.foldlM
    (fun ret i => if i < n then some (Function.update ret i (some s)) else none)
    ret

def getMap (eq : List (List Nat)) (n : Nat) :
    Option (Nat -> Option (List Nat)) :=
  eq.foldlM (setAll n) (fun _ => none)

/-- `m2[i].Intersect(m1[i])` -/
def intersectAt (m1 m2 : Nat -> Option (List Nat)) (i : Nat) :
    Option (List Nat) :=
  match m2 i, m1 i with
  | some s, some t => some (s.filter (fun j => j ∈ t))
  | _, _ => none

def addToRep (repToSet : Dictionary Nat (List Nat)) (s : List Nat) :
    Option (Dictionary Nat (List Nat)) :=
  s.min?.map (fun rep => keepFirst repToSet rep s)

def join (d : EqualitiesDomain) (state : List Element) :
    Option EqualitiesDomain :=
  let eq := findEqual text state
  if d.isBottom then some ⟨false, eq⟩
  else
    match getMap d.equalities state.length, getMap eq state.length with
    | some m1, some m2 =>
      match (List.range state.length).mapM (intersectAt m1 m2) with
      | none => none
      | some sets =>
        (sets.foldlM addToRep Dictionary.empty).map (fun repToSet =>
          ⟨false, repToSet.entries.map Prod.snd⟩)
    | _, _ => none

/-- The element after all states, `none` when a `Join` throws. -/
def joinAll (d : EqualitiesDomain) (states : List (List Element)) :
    Option EqualitiesDomain :=
  states.foldlM (join text) d

end Join

/-!
# Gamma
-/

def link (vars : List Expr) : Expr -> Nat -> List Nat -> Option Expr
  | ret, _, [] => some ret
  | ret, prev, i :: rest =>
    match vars[prev]?, vars[i]? with
    | some a, some b => link vars (Expr.and ret (.eq a b)) i rest
    | _, _ => none

def linkSet (vars : List Expr) (ret : Expr) : List Nat -> Option Expr
  | [] => none
  | [_] => some ret
  | prev :: rest => link vars ret prev rest

def gamma (d : EqualitiesDomain) (vars : List Expr) : Option Expr :=
  if d.isBottom then some .falseExpr
  else d.equalities.foldlM (linkSet vars) .trueExpr

/-!
# The sets of an element
-/

section Sets

variable {Element : Type} {text : Element -> String} {state : List Element}
  {states : List (List Element)} {d : EqualitiesDomain} {n : Nat}
  {r : Setoid Nat}

theorem findEqual_partitions (text : Element -> String) (state : List Element) :
    Partitions (Setoid.ker (textAt text state)) (List.range state.length)
      (findEqual text state) := by
  have hsame : forall i sv,
      decide (textAt text state i = textAt text state sv) = true <->
        Setoid.ker (textAt text state) i sv := by
    intro i sv
    rw [decide_eq_true_eq, Setoid.ker_def]
  exact Partitions.addAll hsame (Partitions.nil _) List.nodup_range

theorem setAll_eq_some (ret : Nat -> Option (List Nat)) (s : List Nat)
    {t : List Nat} (hlt : forall i, i ∈ t -> i < n) :
    exists ret', t.foldlM (fun ret i =>
          if i < n then some (Function.update ret i (some s)) else none) ret =
        some ret' ∧ (forall i, i ∈ t -> ret' i = some s) ∧ forall i, i ∉ t -> ret' i = ret i := by
  induction t generalizing ret with
  | nil => exact ⟨ret, rfl, by simp, by simp⟩
  | cons j t ih =>
    rcases ih (Function.update ret j (some s))
      (fun i hi => hlt i (List.mem_cons_of_mem j hi)) with
      ⟨ret', hret', hin, hout⟩
    refine ⟨ret', ?_, ?_, ?_⟩
    · rw [List.foldlM_cons, if_pos (hlt j List.mem_cons_self)]
      exact hret'
    · intro i hi
      by_cases hmem : i ∈ t
      · exact hin i hmem
      · rw [hout i hmem]
        rcases List.mem_cons.mp hi with rfl | hi
        · exact Function.update_self ..
        · exact absurd hi hmem
    · intro i hi
      rw [List.mem_cons, not_or] at hi
      rw [hout i hi.2]
      exact Function.update_of_ne hi.1 _ _

theorem foldlM_setAll {eq : List (List Nat)} (ret : Nat -> Option (List Nat))
    (hlt : forall s, s ∈ eq -> forall i, i ∈ s -> i < n) (hdisjoint : eq.Pairwise List.Disjoint) :
    exists m, eq.foldlM (setAll n) ret = some m ∧
      (forall s, s ∈ eq -> forall i, i ∈ s -> m i = some s) ∧
      forall i, (forall s, s ∈ eq -> i ∉ s) -> m i = ret i := by
  induction eq generalizing ret with
  | nil => exact ⟨ret, rfl, by simp, by simp⟩
  | cons s eq ih =>
    rw [List.pairwise_cons] at hdisjoint
    rcases setAll_eq_some ret s
      (hlt s List.mem_cons_self) with ⟨ret', hret', hin, hout⟩
    rcases ih ret' (fun t ht => hlt t (List.mem_cons_of_mem s ht))
      hdisjoint.2 with ⟨m, hm, hmin, hmout⟩
    refine ⟨m, ?_, ?_, ?_⟩
    · rw [List.foldlM_cons, setAll, hret']
      exact hm
    · intro t ht i hi
      rcases List.mem_cons.mp ht with rfl | ht
      · rw [hmout i (fun u hu hiu => hdisjoint.1 u hu hi hiu)]
        exact hin i hi
      · exact hmin t ht i hi
    · intro i hi
      rw [hmout i (fun t ht => hi t (List.mem_cons_of_mem s ht))]
      exact hout i (hi s List.mem_cons_self)

theorem getMap_partitions {eq : List (List Nat)} (h : Partitions r (List.range n) eq) :
    exists m, getMap eq n = some m ∧ forall i, i < n -> exists s, m i = some s ∧ s.Nodup ∧
        forall j, j ∈ s <-> j < n ∧ r i j := by
  rcases foldlM_setAll (fun _ => none)
    (fun s hs i hi => List.mem_range.mp (h.subset hs hi)) h.disjoint with
    ⟨m, hm, hin, _⟩
  refine ⟨m, hm, ?_⟩
  intro i hi
  rcases h.covers i (List.mem_range.mpr hi) with ⟨s, hs, his⟩
  refine ⟨s, hin s hs i his, h.nodup s hs, ?_⟩
  intro j
  rw [h.mem s hs i his j, List.mem_range]

theorem min_eq_iff {classOf : Nat -> List Nat} {rep : Nat -> Nat}
    (hclass : forall i, i < n -> forall j, j ∈ classOf i <-> j < n ∧ r i j)
    (hrep : forall i, i < n -> (classOf i).min? = some (rep i)) :
    forall i, i < n -> forall j, j < n -> (rep i = rep j <-> r i j) := by
  intro i hi j hj
  have hmem : forall k, k < n -> r k (rep k) := by
    intro k hk
    exact ((hclass k hk _).mp (List.min?_mem (hrep k hk))).2
  constructor
  · intro heq
    have hri := hmem i hi
    rw [heq] at hri
    exact r.trans hri (r.symm (hmem j hj))
  · intro hr
    have hsame : forall k, k ∈ classOf i <-> k ∈ classOf j := by
      intro k
      rw [hclass i hi, hclass j hj]
      constructor
      · rintro ⟨hk, hik⟩
        exact ⟨hk, r.trans (r.symm hr) hik⟩
      · rintro ⟨hk, hjk⟩
        exact ⟨hk, r.trans hr hjk⟩
    have hi' := List.min?_eq_some_iff.mp (hrep i hi)
    have hj' := List.min?_eq_some_iff.mp (hrep j hj)
    apply Nat.le_antisymm
    · exact hi'.2 _ ((hsame _).mpr hj'.1)
    · exact hj'.2 _ ((hsame _).mp hi'.1)

theorem foldlM_addToRep {classOf : Nat -> List Nat} {rep : Nat -> Nat}
    (xs ys : List Nat) {repToSet : Dictionary Nat (List Nat)}
    (hrep : forall i, i ∈ ys -> (classOf i).min? = some (rep i))
    (h : Collected classOf rep xs repToSet) :
    exists repToSet', (ys.map classOf).foldlM addToRep repToSet =
        some repToSet' ∧ Collected classOf rep (xs ++ ys) repToSet' := by
  induction ys generalizing xs repToSet with
  | nil => exact ⟨repToSet, rfl, by simpa using h⟩
  | cons i ys ih =>
    rcases ih (xs ++ [i]) (fun j hj => hrep j (List.mem_cons_of_mem i hj))
      (h.add (x := i)) with ⟨repToSet', heq, hcollected⟩
    refine ⟨repToSet', ?_, by simpa using hcollected⟩
    rw [List.map_cons, List.foldlM_cons, addToRep,
      hrep i List.mem_cons_self]
    exact heq

theorem join_partitions (hbottom : d.isBottom = false)
    (h : Partitions r (List.range n) d.equalities) (hlength : state.length = n) :
    exists d', join text d state = some d' ∧ d'.isBottom = false ∧
      Partitions (r ⊓ Setoid.ker (textAt text state)) (List.range n) d'.equalities := by
  have hnew := findEqual_partitions text state
  rw [hlength] at hnew
  rcases getMap_partitions h with ⟨m1, hm1, hclass1⟩
  rcases getMap_partitions hnew with ⟨m2, hm2, hclass2⟩
  have hclass : forall i, i < n -> exists s, intersectAt m1 m2 i = some s ∧
      s.Nodup ∧ forall j, j ∈ s <->
        j < n ∧ (r ⊓ Setoid.ker (textAt text state)) i j := by
    intro i hi
    rcases hclass1 i hi with ⟨t, ht, _, hmemt⟩
    rcases hclass2 i hi with ⟨s, hs, hnodup, hmems⟩
    refine ⟨s.filter (fun j => j ∈ t), ?_, hnodup.filter _, ?_⟩
    · rw [intersectAt, ht, hs]
    · intro j
      rw [List.mem_filter, decide_eq_true_eq, hmems, hmemt, Setoid.inf_iff_and]
      tauto
  choose! classOf hclassOf hnodup hmem using hclass
  have hmin : forall i, i < n -> exists m, (classOf i).min? = some m := by
    intro i hi
    apply Option.isSome_iff_exists.mp
    rw [List.isSome_min?_iff]
    exact List.ne_nil_of_mem ((hmem i hi i).mpr ⟨hi, Setoid.refl' _ i⟩)
  choose! rep hrep using hmin
  have hsets : (List.range n).mapM (intersectAt m1 m2) =
      some ((List.range n).map classOf) :=
    Traversal.mapM_eq_map (fun i hi => hclassOf i (List.mem_range.mp hi))
  rcases foldlM_addToRep [] (List.range n)
    (fun i hi => hrep i (List.mem_range.mp hi))
    (Collected.empty classOf rep) with ⟨repToSet, hfold, hcollected⟩
  refine ⟨⟨false, repToSet.entries.map Prod.snd⟩, ?_, rfl, ?_⟩
  · unfold join
    rw [hbottom, hlength]
    simp only [Bool.false_eq_true, if_false, hm1, hm2, hsets]
    rw [hfold]
    rfl
  · apply hcollected.partitions
    · intro i hi
      exact hnodup i (List.mem_range.mp hi)
    · intro i hi j
      rw [hmem i (List.mem_range.mp hi) j, List.nil_append, List.mem_range]
    · intro i hi j hj
      exact min_eq_iff hmem hrep i (List.mem_range.mp hi) j
        (List.mem_range.mp hj)

def sameIn (text : Element -> String) (states : List (List Element)) :
    Setoid Nat :=
  Setoid.ker (fun i => states.map (fun state => textAt text state i))

theorem sameIn_iff {i j : Nat} : sameIn text states i j <->
    forall state, state ∈ states -> textAt text state i = textAt text state j := by
  rw [sameIn, Setoid.ker_def, List.map_inj_left]

theorem sameIn_append : sameIn text (states ++ [state]) =
    sameIn text states ⊓ Setoid.ker (textAt text state) := by
  apply Setoid.ext
  intro i j
  rw [Setoid.inf_iff_and, sameIn_iff, sameIn_iff, Setoid.ker_def]
  simp only [List.forall_mem_append, List.forall_mem_singleton]

theorem sameIn_singleton : sameIn text [state] = Setoid.ker (textAt text state) := by
  apply Setoid.ext
  intro i j
  rw [sameIn_iff, Setoid.ker_def]
  simp

theorem joinAll_partitions (text : Element -> String) (hne : states ≠ [])
    (hlength : forall state, state ∈ states -> state.length = n) :
    exists d, joinAll text getBottom states = some d ∧ d.isBottom = false ∧
      Partitions (sameIn text states) (List.range n) d.equalities := by
  induction states using List.reverseRecOn with
  | nil => exact absurd rfl hne
  | append_singleton states state ih =>
    have hstate := hlength state (List.mem_append_right _ List.mem_cons_self)
    by_cases hnil : states = []
    · subst hnil
      refine ⟨⟨false, findEqual text state⟩, rfl, rfl, ?_⟩
      rw [List.nil_append, sameIn_singleton, ← hstate]
      exact findEqual_partitions text state
    · rcases ih hnil (fun s hs => hlength s (List.mem_append_left _ hs)) with
        ⟨d, hd, hbottom, hpartitions⟩
      rcases join_partitions hbottom hpartitions hstate with
        ⟨d', hd', hbottom', hpartitions'⟩
      refine ⟨d', ?_, hbottom', ?_⟩
      · unfold joinAll at hd ⊢
        rw [List.foldlM_append, hd]
        simpa using hd'
      · rw [sameIn_append]
        exact hpartitions'

end Sets

/-!
# The meaning of Gamma
-/

section Meaning

variable {U : Type} [DecidableEq U] {I : Interp U} {ρ₀ ρ : Env U}
  {vars : List Expr} {ret : Expr} {n : Nat}

noncomputable def valueAt (I : Interp U) (ρ₀ ρ : Env U) (vars : List Expr)
    (i : Nat) : Option (Value U) :=
  vars[i]?.map (fun v => v.eval I ρ₀ ρ)

theorem link_holds (I : Interp U) (ρ₀ ρ : Env U) (ret : Expr) {prev : Nat}
    {rest : List Nat} (hlt : forall i, i ∈ prev :: rest -> i < vars.length) :
    exists e, link vars ret prev rest = some e ∧
      (e.Holds I ρ₀ ρ <-> ret.Holds I ρ₀ ρ ∧ forall i, i ∈ rest ->
        valueAt I ρ₀ ρ vars i = valueAt I ρ₀ ρ vars prev) := by
  induction rest generalizing ret prev with
  | nil => exact ⟨ret, rfl, by simp⟩
  | cons i rest ih =>
    have hprev : exists a, vars[prev]? = some a :=
      ⟨_, List.getElem?_eq_getElem (hlt prev List.mem_cons_self)⟩
    have hi : exists b, vars[i]? = some b :=
      ⟨_, List.getElem?_eq_getElem
        (hlt i (List.mem_cons_of_mem prev List.mem_cons_self))⟩
    rcases hprev with ⟨a, hprev⟩
    rcases hi with ⟨b, hi⟩
    rcases ih (Expr.and ret (.eq a b))
      (fun j hj => hlt j (List.mem_cons_of_mem prev hj)) with
      ⟨e, he, hholds⟩
    refine ⟨e, ?_, ?_⟩
    · rw [link, hprev, hi]
      exact he
    · have heq : valueAt I ρ₀ ρ vars i = valueAt I ρ₀ ρ vars prev <->
          a.eval I ρ₀ ρ = b.eval I ρ₀ ρ := by
        rw [valueAt, valueAt, hprev, hi, Option.map_some, Option.map_some,
          Option.some.injEq]
        exact eq_comm
      rw [hholds, Expr.holds_and, Expr.holds_eq, ← heq, List.forall_mem_cons]
      constructor
      · rintro ⟨⟨hret, hfirst⟩, hrest⟩
        exact ⟨hret, hfirst, fun j hj => (hrest j hj).trans hfirst⟩
      · rintro ⟨hret, hfirst, hrest⟩
        exact ⟨⟨hret, hfirst⟩,
          fun j hj => (hrest j hj).trans hfirst.symm⟩

theorem linkSet_holds (I : Interp U) (ρ₀ ρ : Env U) (ret : Expr) {s : List Nat} (hne : s ≠ [])
    (hlt : forall i, i ∈ s -> i < vars.length) :
    exists e, linkSet vars ret s = some e ∧
      (e.Holds I ρ₀ ρ <-> ret.Holds I ρ₀ ρ ∧ forall i, i ∈ s -> forall j,
        j ∈ s -> valueAt I ρ₀ ρ vars i = valueAt I ρ₀ ρ vars j) := by
  match s with
  | [] => exact absurd rfl hne
  | [i] => exact ⟨ret, rfl, by simp⟩
  | prev :: next :: rest =>
    rcases link_holds I ρ₀ ρ ret hlt with
      ⟨e, he, hholds⟩
    refine ⟨e, he, hholds.trans (and_congr_right (fun _ => ?_))⟩
    constructor
    · intro h
      have hall : forall i, i ∈ prev :: next :: rest ->
          valueAt I ρ₀ ρ vars i = valueAt I ρ₀ ρ vars prev := by
        intro i hi
        rcases List.mem_cons.mp hi with rfl | hi
        · rfl
        · exact h i hi
      exact fun i hi j hj => (hall i hi).trans (hall j hj).symm
    · exact fun h i hi =>
        h i (List.mem_cons_of_mem prev hi) prev List.mem_cons_self

theorem foldlM_linkSet_holds (I : Interp U) (ρ₀ ρ : Env U) (ret : Expr)
    {eq : List (List Nat)} (hne : forall s, s ∈ eq -> s ≠ [])
    (hlt : forall s, s ∈ eq -> forall i, i ∈ s -> i < vars.length) :
    exists e, eq.foldlM (linkSet vars) ret = some e ∧
      (e.Holds I ρ₀ ρ <-> ret.Holds I ρ₀ ρ ∧ forall s, s ∈ eq ->
        forall i, i ∈ s -> forall j, j ∈ s -> valueAt I ρ₀ ρ vars i = valueAt I ρ₀ ρ vars j) := by
  induction eq generalizing ret with
  | nil => exact ⟨ret, rfl, by simp⟩
  | cons s eq ih =>
    rcases linkSet_holds I ρ₀ ρ ret
      (hne s List.mem_cons_self) (hlt s List.mem_cons_self) with
      ⟨e, he, hholds⟩
    rcases ih e (fun t ht => hne t (List.mem_cons_of_mem s ht))
      (fun t ht => hlt t (List.mem_cons_of_mem s ht)) with
      ⟨e', he', hholds'⟩
    refine ⟨e', ?_, ?_⟩
    · rw [List.foldlM_cons, he]
      exact he'
    · rw [hholds', hholds, List.forall_mem_cons, and_assoc]

theorem gamma_holds (I : Interp U) (ρ₀ ρ : Env U) {d : EqualitiesDomain}
    {r : Setoid Nat} (hbottom : d.isBottom = false) (h : Partitions r (List.range n) d.equalities)
    (hlength : vars.length = n) :
    exists e, gamma d vars = some e ∧
      (e.Holds I ρ₀ ρ <-> forall i, i < n -> forall j, j < n -> r i j ->
        valueAt I ρ₀ ρ vars i = valueAt I ρ₀ ρ vars j) := by
  have hlt : forall s, s ∈ d.equalities -> forall i, i ∈ s ->
      i < vars.length := by
    intro s hs i hi
    rw [hlength]
    exact List.mem_range.mp (h.subset hs hi)
  rcases foldlM_linkSet_holds I ρ₀ ρ .trueExpr
    h.nonempty hlt with ⟨e, he, hholds⟩
  refine ⟨e, ?_, ?_⟩
  · rw [gamma, hbottom]
    exact he
  · rw [hholds]
    constructor
    · rintro ⟨_, hall⟩ i hi j hj hr
      rcases (h.together_iff (List.mem_range.mpr hi)
        (List.mem_range.mpr hj)).mpr hr with ⟨s, hs, his, hjs⟩
      exact hall s hs i his j hjs
    · intro hall
      refine ⟨Expr.holds_trueExpr, ?_⟩
      intro s hs i his j hjs
      have hi := h.subset hs his
      have hj := h.subset hs hjs
      exact hall i (List.mem_range.mp hi) j (List.mem_range.mp hj)
        (((h.mem s hs i his j).mp hjs).2)

end Meaning

/-!
# Exactness
-/

section Exactness

variable {Element Val : Type}

def EqualIn (value : Element -> Val) (states : List (List Element))
    (i j : Nat) : Prop :=
  forall state, state ∈ states -> state[i]?.map value = state[j]?.map value

/--
The sets form a partition of the indices, which are together exactly if their
values are equal in all states, and `Gamma` states exactly these equalities.
-/
structure Exact (value : Element -> Val) (n : Nat)
    (states : List (List Element)) (d : EqualitiesDomain) : Prop where
  bounded : forall s, s ∈ d.equalities -> forall i, i ∈ s -> i < n
  unique : forall i, i < n ->
    ∃! k : Nat, exists s, d.equalities[k]? = some s ∧ i ∈ s
  together : forall i, i < n -> forall j, j < n ->
    ((exists s, s ∈ d.equalities ∧ i ∈ s ∧ j ∈ s) <->
      EqualIn value states i j)
  gamma : forall {U : Type} [DecidableEq U] (I : Interp U) (ρ₀ ρ : Env U)
    (vars : List Expr), vars.length = n ->
      exists e, d.gamma vars = some e ∧
        (e.Holds I ρ₀ ρ <-> forall i, i < n -> forall j, j < n ->
          EqualIn value states i j ->
            valueAt I ρ₀ ρ vars i = valueAt I ρ₀ ρ vars j)

variable {text : Element -> String} {value : Element -> Val} {n : Nat}
  {states : List (List Element)} {d : EqualitiesDomain}

theorem exact_iff (value : Element -> Val) (hbottom : d.isBottom = false)
    (h : Partitions (sameIn text states) (List.range n) d.equalities) :
    Exact value n states d <-> forall i, i < n -> forall j, j < n ->
      (sameIn text states i j <-> EqualIn value states i j) := by
  constructor
  · intro hexact i hi j hj
    rw [← h.together_iff (List.mem_range.mpr hi) (List.mem_range.mpr hj)]
    exact hexact.together i hi j hj
  · intro hsame
    refine ⟨?_, ?_, ?_, ?_⟩
    · exact fun s hs i hi => List.mem_range.mp (h.subset hs hi)
    · exact fun i hi => h.existsUnique_place (List.mem_range.mpr hi)
    · intro i hi j hj
      rw [h.together_iff (List.mem_range.mpr hi) (List.mem_range.mpr hj)]
      exact hsame i hi j hj
    · intro U _ I ρ₀ ρ vars hlength
      rcases gamma_holds I ρ₀ ρ hbottom h hlength with
        ⟨e, he, hholds⟩
      refine ⟨e, he, hholds.trans ?_⟩
      constructor
      · exact fun hall i hi j hj heq =>
          hall i hi j hj ((hsame i hi j hj).mpr heq)
      · exact fun hall i hi j hj hr =>
          hall i hi j hj ((hsame i hi j hj).mp hr)

/--
The element after any nonempty sequence of joins is exact if and only if equal
texts of two arguments in all states mean equal values in all states, and the
other way round.
-/
theorem joinAll_exact_iff (text : Element -> String) (value : Element -> Val)
    (n : Nat) (states : List (List Element)) (hne : states ≠ [])
    (hlength : forall state, state ∈ states -> state.length = n) :
    (exists d, joinAll text getBottom states = some d ∧ Exact value n states d) <->
    forall i, i < n -> forall j, j < n ->
      (EqualIn text states i j <-> EqualIn value states i j) := by
  rcases joinAll_partitions text hne hlength with
    ⟨d, hd, hbottom, hpartitions⟩
  have hiff := exact_iff value hbottom hpartitions
  simp only [sameIn_iff] at hiff
  constructor
  · rintro ⟨d', hd', hexact⟩
    rw [hd] at hd'
    cases hd'
    exact hiff.mp hexact
  · exact fun hsame => ⟨d, hd, hiff.mpr hsame⟩

theorem equalIn_iff_of_text {states : List (List Element)} (h : forall state,
      state ∈ states -> forall a, a ∈ state -> forall b, b ∈ state ->
        (text a = text b <-> value a = value b)) (i j : Nat) :
    EqualIn text states i j <-> EqualIn value states i j := by
  unfold EqualIn
  apply forall_congr'
  intro state
  apply forall_congr'
  intro hstate
  cases hi : state[i]? with
  | none => simp
  | some a =>
    cases hj : state[j]? with
    | none => simp
    | some b =>
      simpa using h state hstate a (List.mem_of_getElem? hi) b (List.mem_of_getElem? hj)

/-- The first state puts the arguments 0 and 1 and the arguments 2 and 3 together, the
second one the first three. -/
def twoStates : List (List Model.Element) :=
  [[.integer 1, .integer 1, .integer 2, .integer 2],
    [.integer 3, .integer 3, .integer 3, .integer (-4)]]

theorem joinAll_exact_of_two_states :
    joinAll Model.Element.toString getBottom twoStates =
        some ⟨false, [[0, 1], [2], [3]]⟩ ∧
      Exact (Model.Element.value (U := Unit)) 4 twoStates
        ⟨false, [[0, 1], [2], [3]]⟩ := by
  have hsets : joinAll Model.Element.toString getBottom twoStates =
      some ⟨false, [[0, 1], [2], [3]]⟩ := by decide
  have hexact := (joinAll_exact_iff Model.Element.toString
    (Model.Element.value (U := Unit)) 4 twoStates (by decide) (by decide)).mpr
    (fun i _ j _ => equalIn_iff_of_text (by decide) i j)
  rcases hexact with ⟨d, hd, hexact⟩
  rw [hsets] at hd
  cases hd
  exact ⟨hsets, hexact⟩

/-- A variable whose value is given as the term `(- 5)`, next to the numeral. -/
def negativeState : List Model.Element :=
  [.datatypeValue "-" [.integer 5], .integer (-5)]

theorem negativeState_not_exact :
    ¬ exists d, joinAll Model.Element.toString getBottom [negativeState] = some d ∧
      Exact (Model.Element.value (U := Unit)) 2 [negativeState] d := by
  rintro ⟨d, hd, hexact⟩
  have hsets : joinAll Model.Element.toString getBottom [negativeState] =
      some ⟨false, [[0], [1]]⟩ := by decide
  rw [hsets] at hd
  cases hd
  have hequal : EqualIn (Model.Element.value (U := Unit)) [negativeState]
      0 1 := by
    intro state hstate
    rw [List.mem_singleton.mp hstate]
    rfl
  rcases (hexact.together 0 (by decide) 1 (by decide)).mpr hequal with
    ⟨s, hs, h0, h1⟩
  revert h0 h1
  revert s
  decide

end Exactness

end EqualitiesDomain

end Boogie
