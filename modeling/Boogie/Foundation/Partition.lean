import Mathlib.Data.List.Lattice
import Mathlib.Data.List.Nodup
import Mathlib.Data.Setoid.Basic
import Boogie.Foundation.Dictionary

/-!
# Partitions as lists of classes

The classes of an equivalence relation on the points of a list.  They are found
by adding one point at a time, or from the class of each point, of which every
one is kept once.
-/

variable {α : Type}

/-- The lists are the classes of `r` on the points `xs`, each of them once. -/
structure Partitions (r : Setoid α) (xs : List α) (classes : List (List α)) :
    Prop where
  nonempty : forall c, c ∈ classes -> c ≠ []
  nodup : forall c, c ∈ classes -> c.Nodup
  mem : forall c, c ∈ classes -> forall x, x ∈ c -> forall y,
    y ∈ c <-> y ∈ xs ∧ r x y
  covers : forall x, x ∈ xs -> exists c, c ∈ classes ∧ x ∈ c
  disjoint : classes.Pairwise List.Disjoint

namespace Partitions

variable {r : Setoid α} {xs : List α} {classes : List (List α)} {c : List α}
  {x y : α}

theorem nil (r : Setoid α) : Partitions r [] [] where
  nonempty := by simp
  nodup := by simp
  mem := by simp
  covers := by simp
  disjoint := List.Pairwise.nil

theorem subset (h : Partitions r xs classes) (hc : c ∈ classes) (hx : x ∈ c) :
    x ∈ xs :=
  ((h.mem c hc x hx x).mp hx).1

theorem together_iff (h : Partitions r xs classes) (hx : x ∈ xs) (hy : y ∈ xs) :
    (exists c, c ∈ classes ∧ x ∈ c ∧ y ∈ c) <-> r x y := by
  constructor
  · rintro ⟨c, hc, hxc, hyc⟩
    exact ((h.mem c hc x hxc y).mp hyc).2
  · intro hr
    rcases h.covers x hx with ⟨c, hc, hxc⟩
    exact ⟨c, hc, hxc, (h.mem c hc x hxc y).mpr ⟨hy, hr⟩⟩

theorem existsUnique_place (h : Partitions r xs classes) (hx : x ∈ xs) :
    ∃! k : Nat, exists c, classes[k]? = some c ∧ x ∈ c := by
  rcases h.covers x hx with ⟨c, hc, hxc⟩
  rcases List.mem_iff_getElem?.mp hc with ⟨k, hk⟩
  refine ⟨k, ⟨c, hk, hxc⟩, ?_⟩
  rintro l ⟨d, hl, hxd⟩
  rcases List.getElem?_eq_some_iff.mp hk with ⟨hklt, rfl⟩
  rcases List.getElem?_eq_some_iff.mp hl with ⟨hllt, rfl⟩
  have hdisjoint := List.pairwise_iff_getElem.mp h.disjoint
  rcases Nat.lt_trichotomy l k with hlt | heq | hlt
  · exact absurd hxc (hdisjoint l k hllt hklt hlt hxd)
  · exact heq
  · exact absurd hxd (hdisjoint k l hklt hllt hlt hxc)

end Partitions

/-!
# One point at a time
-/

def addPoint (same : α -> α -> Bool) (x : α) : List (List α) -> List (List α)
  | [] => [[x]]
  | [] :: classes => [] :: addPoint same x classes
  | (y :: c) :: classes =>
    if same x y then (y :: (c ++ [x])) :: classes
    else (y :: c) :: addPoint same x classes

section AddPoint

variable {r : Setoid α} {same : α -> α -> Bool} {xs : List α}
  {classes : List (List α)} {x : α}

theorem addPoint_cases (hsame : forall x y, same x y = true <-> r x y)
    (classes : List (List α)) (x : α) :
    (addPoint same x classes = classes ++ [[x]] ∧ forall y c, y :: c ∈ classes -> ¬ r x y) ∨
    exists before y c after, classes = before ++ (y :: c) :: after ∧
      addPoint same x classes = before ++ (y :: (c ++ [x])) :: after ∧ r x y := by
  induction classes with
  | nil => exact Or.inl ⟨rfl, by simp⟩
  | cons c classes ih =>
    cases c with
    | nil =>
      rcases ih with ⟨heq, hnone⟩ | ⟨before, y, c, after, rfl, heq, hr⟩
      · exact Or.inl ⟨by simp [addPoint, heq], by simpa using hnone⟩
      · exact Or.inr ⟨[] :: before, y, c, after, rfl,
          by simp [addPoint, heq], hr⟩
    | cons z d =>
      by_cases hz : r x z
      · have htrue := (hsame x z).mpr hz
        exact Or.inr ⟨[], z, d, classes, rfl, by simp [addPoint, htrue], hz⟩
      · have hfalse : same x z = false :=
          Bool.eq_false_iff.mpr (fun h => hz ((hsame x z).mp h))
        rcases ih with ⟨heq, hnone⟩ | ⟨before, y, c, after, rfl, heq, hr⟩
        · left
          constructor
          · simp [addPoint, hfalse, heq]
          · intro y c hmem
            rcases List.mem_cons.mp hmem with heq | hmem
            · cases heq
              exact hz
            · exact hnone y c hmem
        · exact Or.inr ⟨(z :: d) :: before, y, c, after, rfl,
            by simp [addPoint, hfalse, heq], hr⟩

theorem Partitions.addOwnClass (h : Partitions r xs classes) (hx : x ∉ xs)
    (hnone : forall y c, y :: c ∈ classes -> ¬ r x y) :
    Partitions r (xs ++ [x]) (classes ++ [[x]]) := by
  have hunrelated : forall c, c ∈ classes -> forall y, y ∈ c -> ¬ r y x := by
    intro c hc y hy hr
    cases c with
    | nil => cases hy
    | cons z d =>
      apply hnone z d hc
      have hyz := ((h.mem _ hc y hy z).mp List.mem_cons_self).2
      exact r.trans (r.symm hr) hyz
  constructor
  · intro c hc
    rcases List.mem_append.mp hc with hc | hc
    · exact h.nonempty c hc
    · rw [List.mem_singleton.mp hc]
      simp
  · intro c hc
    rcases List.mem_append.mp hc with hc | hc
    · exact h.nodup c hc
    · rw [List.mem_singleton.mp hc]
      exact List.nodup_singleton x
  · intro c hc y hy z
    rcases List.mem_append.mp hc with hold | hc
    · rw [h.mem c hold y hy z, List.mem_append, List.mem_singleton]
      constructor
      · rintro ⟨hz, hr⟩
        exact ⟨Or.inl hz, hr⟩
      · rintro ⟨hz | rfl, hr⟩
        · exact ⟨hz, hr⟩
        · exact absurd hr (hunrelated c hold y hy)
    · rw [List.mem_singleton.mp hc, List.mem_singleton] at hy ⊢
      subst hy
      constructor
      · rintro rfl
        exact ⟨List.mem_append_right _ List.mem_cons_self, r.refl z⟩
      · rintro ⟨hz, hr⟩
        rcases List.mem_append.mp hz with hz | hz
        · rcases h.covers z hz with ⟨c, hc', hzc⟩
          exact absurd (r.symm hr) (hunrelated c hc' z hzc)
        · exact List.mem_singleton.mp hz
  · intro y hy
    rcases List.mem_append.mp hy with hy | hy
    · rcases h.covers y hy with ⟨c, hc, hyc⟩
      exact ⟨c, List.mem_append_left _ hc, hyc⟩
    · exact ⟨[x], List.mem_append_right _ List.mem_cons_self, hy⟩
  · rw [List.pairwise_append]
    refine ⟨h.disjoint, List.pairwise_singleton _ _, ?_⟩
    intro c hc d hd y hyc hyd
    rw [List.mem_singleton.mp hd, List.mem_singleton] at hyd
    subst hyd
    exact hx (h.subset hc hyc)

theorem Partitions.growClass {before after : List (List α)} {y : α}
    {c : List α} (h : Partitions r xs (before ++ (y :: c) :: after)) (hx : x ∉ xs) (hr : r x y) :
    Partitions r (xs ++ [x]) (before ++ (y :: (c ++ [x])) :: after) := by
  have hgrown : y :: c ∈ before ++ (y :: c) :: after :=
    List.mem_append_right _ List.mem_cons_self
  have hother : forall d, d ∈ before ++ (y :: (c ++ [x])) :: after ->
      d = y :: (c ++ [x]) ∨
        (d ∈ before ++ (y :: c) :: after ∧ d.Disjoint (y :: c)) := by
    intro d hd
    have hdisjoint := h.disjoint
    rw [List.pairwise_append, List.pairwise_cons] at hdisjoint
    rcases List.mem_append.mp hd with hd | hd
    · exact Or.inr ⟨List.mem_append_left _ hd,
        hdisjoint.2.2 d hd _ List.mem_cons_self⟩
    · rcases List.mem_cons.mp hd with hd | hd
      · exact Or.inl hd
      · exact Or.inr ⟨List.mem_append_right _ (List.mem_cons_of_mem _ hd),
          (hdisjoint.2.1.1 d hd).symm⟩
  constructor
  · intro d hd
    rcases hother d hd with rfl | ⟨hd, _⟩
    · simp
    · exact h.nonempty d hd
  · intro d hd
    rcases hother d hd with rfl | ⟨hd, _⟩
    · have hnodup := h.nodup _ hgrown
      have hfresh : x ∉ y :: c := fun hmem => hx (h.subset hgrown hmem)
      rw [← List.cons_append]
      exact List.nodup_append_comm.mp (List.nodup_cons.mpr ⟨hfresh, hnodup⟩)
    · exact h.nodup d hd
  · intro d hd z hz w
    rcases hother d hd with rfl | ⟨hold, hdisjoint⟩
    · have hzy : r y z := by
        rw [← List.cons_append] at hz
        rcases List.mem_append.mp hz with hz | hz
        · exact ((h.mem _ hgrown y List.mem_cons_self z).mp hz).2
        · rw [List.mem_singleton.mp hz]
          exact r.symm hr
      rw [← List.cons_append, List.mem_append, List.mem_append,
        h.mem _ hgrown y List.mem_cons_self w, List.mem_singleton]
      constructor
      · rintro (⟨hw, hyw⟩ | rfl)
        · exact ⟨Or.inl hw, r.trans (r.symm hzy) hyw⟩
        · exact ⟨Or.inr rfl, r.trans (r.symm hzy) (r.symm hr)⟩
      · rintro ⟨hw | rfl, hzw⟩
        · exact Or.inl ⟨hw, r.trans hzy hzw⟩
        · exact Or.inr rfl
    · rw [h.mem d hold z hz w, List.mem_append, List.mem_singleton]
      constructor
      · rintro ⟨hw, hzw⟩
        exact ⟨Or.inl hw, hzw⟩
      · rintro ⟨hw | rfl, hzw⟩
        · exact ⟨hw, hzw⟩
        · have hyd : y ∈ d := by
            have hy := h.subset hgrown List.mem_cons_self
            exact (h.mem d hold z hz y).mpr ⟨hy, r.trans hzw hr⟩
          exact absurd List.mem_cons_self (hdisjoint hyd)
  · intro z hz
    rcases List.mem_append.mp hz with hz | hz
    · rcases h.covers z hz with ⟨d, hd, hzd⟩
      rcases List.mem_append.mp hd with hd | hd
      · exact ⟨d, List.mem_append_left _ hd, hzd⟩
      · rcases List.mem_cons.mp hd with rfl | hd
        · exact ⟨_, List.mem_append_right _ List.mem_cons_self,
            List.mem_append_left [x] hzd⟩
        · exact ⟨d, List.mem_append_right _ (List.mem_cons_of_mem _ hd), hzd⟩
    · exact ⟨_, List.mem_append_right _ List.mem_cons_self,
        List.mem_append_right (y :: c) hz⟩
  · have hdisjoint := h.disjoint
    rw [List.pairwise_append, List.pairwise_cons] at hdisjoint ⊢
    have hfresh : forall d, d ∈ before ++ (y :: c) :: after -> x ∉ d :=
      fun d hd hmem => hx (h.subset hd hmem)
    have hgrow : forall d, d ∈ before ++ (y :: c) :: after ->
        d.Disjoint (y :: c) -> d.Disjoint (y :: (c ++ [x])) := by
      intro d hd hdis z hzd hz
      rw [← List.cons_append] at hz
      rcases List.mem_append.mp hz with hz | hz
      · exact hdis hzd hz
      · rw [List.mem_singleton.mp hz] at hzd
        exact hfresh d hd hzd
    refine ⟨hdisjoint.1, ⟨?_, hdisjoint.2.1.2⟩, ?_⟩
    · intro d hd
      have hmem := List.mem_append_right before (List.mem_cons_of_mem (y :: c) hd)
      exact (hgrow d hmem (List.Disjoint.symm (hdisjoint.2.1.1 d hd))).symm
    · intro d hd e he
      rcases List.mem_cons.mp he with rfl | he
      · exact hgrow d (List.mem_append_left _ hd)
          (hdisjoint.2.2 d hd _ List.mem_cons_self)
      · exact hdisjoint.2.2 d hd e (List.mem_cons_of_mem _ he)

theorem Partitions.add (h : Partitions r xs classes)
    (hsame : forall x y, same x y = true <-> r x y) (hx : x ∉ xs) :
    Partitions r (xs ++ [x]) (addPoint same x classes) := by
  rcases addPoint_cases hsame classes x with
    ⟨heq, hnone⟩ | ⟨before, y, c, after, rfl, heq, hr⟩
  · rw [heq]
    exact h.addOwnClass hx hnone
  · rw [heq]
    exact h.growClass hx hr

theorem Partitions.addAll (hsame : forall x y, same x y = true <-> r x y)
    {ys : List α} (h : Partitions r xs classes) (hnodup : (xs ++ ys).Nodup) :
    Partitions r (xs ++ ys) (ys.foldl (fun classes y => addPoint same y classes) classes) := by
  induction ys generalizing xs classes with
  | nil => simpa using h
  | cons y ys ih =>
    have hy : y ∉ xs := by
      intro hmem
      exact (List.nodup_append.mp hnodup).2.2 y hmem y List.mem_cons_self rfl
    have hnext := ih (h.add hsame hy) (by simpa using hnodup)
    simpa using hnext

end AddPoint

/-!
# From the class of each point
-/

section FromClasses

variable {Key : Type} {r : Setoid α} {xs : List α}
  {classOf : α -> List α} {key : α -> Key}

structure Collected (classOf : α -> List α) (key : α -> Key) (xs : List α)
    (d : Dictionary Key (List α)) : Prop where
  sound : forall k c, (k, c) ∈ d.entries ->
    exists x, x ∈ xs ∧ k = key x ∧ c = classOf x
  complete : forall x, x ∈ xs -> key x ∈ d.keys

theorem Collected.empty (classOf : α -> List α) (key : α -> Key) :
    Collected classOf key [] Dictionary.empty where
  sound := by
    intro k c h
    cases h
  complete := by simp

theorem Collected.partitions {d : Dictionary Key (List α)} (h : Collected classOf key xs d)
    (hnodup : forall x, x ∈ xs -> (classOf x).Nodup) (hclass : forall x, x ∈ xs -> forall y,
      y ∈ classOf x <-> y ∈ xs ∧ r x y) (hkey : forall x, x ∈ xs -> forall y, y ∈ xs ->
      (key x = key y <-> r x y)) :
    Partitions r xs (d.entries.map Prod.snd) where
  nonempty := by
    intro c hc
    rcases List.mem_map.mp hc with ⟨⟨k, c⟩, hmem, rfl⟩
    rcases h.sound k c hmem with ⟨x, hx, _, rfl⟩
    exact List.ne_nil_of_mem ((hclass x hx x).mpr ⟨hx, r.refl x⟩)
  nodup := by
    intro c hc
    rcases List.mem_map.mp hc with ⟨⟨k, c⟩, hmem, rfl⟩
    rcases h.sound k c hmem with ⟨x, hx, _, rfl⟩
    exact hnodup x hx
  mem := by
    intro c hc y hy z
    rcases List.mem_map.mp hc with ⟨⟨k, c⟩, hmem, rfl⟩
    rcases h.sound k c hmem with ⟨x, hx, _, rfl⟩
    have hxy := ((hclass x hx y).mp hy).2
    show z ∈ classOf x <-> _
    rw [hclass x hx z]
    constructor
    · rintro ⟨hz, hxz⟩
      exact ⟨hz, r.trans (r.symm hxy) hxz⟩
    · rintro ⟨hz, hyz⟩
      exact ⟨hz, r.trans hxy hyz⟩
  covers := by
    intro x hx
    rcases List.mem_map.mp (h.complete x hx) with ⟨⟨k, c⟩, hmem, hk⟩
    rcases h.sound k c hmem with ⟨y, hy, hky, rfl⟩
    have hyx := (hkey y hy x hx).mp (hky.symm.trans hk)
    exact ⟨classOf y, List.mem_map.mpr ⟨(k, classOf y), hmem, rfl⟩,
      (hclass y hy x).mpr ⟨hx, hyx⟩⟩
  disjoint := by
    have hdistinct := d.distinct
    rw [List.nodup_iff_pairwise_ne, List.pairwise_map] at hdistinct
    rw [List.pairwise_map]
    apply List.Pairwise.imp_of_mem _ hdistinct
    rintro ⟨k, c⟩ ⟨l, e⟩ hk hl hne z hzc hze
    rcases h.sound k c hk with ⟨x, hx, rfl, rfl⟩
    rcases h.sound l e hl with ⟨y, hy, rfl, rfl⟩
    have hxz := (hclass x hx z).mp hzc
    have hyz := (hclass y hy z).mp hze
    exact hne ((hkey x hx y hy).mpr (r.trans hxz.2 (r.symm hyz.2)))

variable [DecidableEq Key]

def keepFirst (d : Dictionary Key (List α)) (k : Key) (c : List α) :
    Dictionary Key (List α) :=
  if d.containsKey k then d else d.set k c

theorem mem_entries_keepFirst {d : Dictionary Key (List α)} {k l : Key}
    {c e : List α} (h : (l, e) ∈ (keepFirst d k c).entries) :
    (l, e) ∈ d.entries ∨ (l = k ∧ e = c) := by
  unfold keepFirst at h
  split at h
  · exact Or.inl h
  · rw [← Dictionary.tryGetValue_eq_some, Dictionary.tryGetValue_set] at h
    split at h
    · rename_i hl
      exact Or.inr ⟨hl, (Option.some.inj h).symm⟩
    · exact Or.inl (Dictionary.tryGetValue_eq_some.mp h)

theorem mem_keys_keepFirst {d : Dictionary Key (List α)} {k l : Key}
    {c : List α} : l ∈ (keepFirst d k c).keys <-> l ∈ d.keys ∨ l = k := by
  unfold keepFirst
  split
  · rename_i hk
    constructor
    · exact Or.inl
    · rintro (hl | rfl)
      · exact hl
      · exact Dictionary.containsKey_iff.mp hk
  · exact Dictionary.mem_keys_set

theorem Collected.add {d : Dictionary Key (List α)} {x : α} (h : Collected classOf key xs d) :
    Collected classOf key (xs ++ [x]) (keepFirst d (key x) (classOf x)) where
  sound := by
    intro k c hmem
    rcases mem_entries_keepFirst hmem with hold | ⟨rfl, rfl⟩
    · rcases h.sound k c hold with ⟨y, hy, hk, hc⟩
      exact ⟨y, List.mem_append_left _ hy, hk, hc⟩
    · exact ⟨x, List.mem_append_right _ List.mem_cons_self, rfl, rfl⟩
  complete := by
    intro y hy
    rw [mem_keys_keepFirst]
    rcases List.mem_append.mp hy with hy | hy
    · exact Or.inl (h.complete y hy)
    · exact Or.inr (congrArg key (List.mem_singleton.mp hy))

end FromClasses
