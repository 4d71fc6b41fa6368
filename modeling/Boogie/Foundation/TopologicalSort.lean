import Mathlib.Data.Finite.Defs
import Mathlib.Data.Fintype.Card
import Mathlib.Data.List.Perm.Basic
import Mathlib.Data.List.Nodup
import Mathlib.Data.Set.Finite.Basic
import Mathlib.Logic.Function.Basic
import Mathlib.Order.WellFounded

/-!
# Topological sorting

Items with distinct keys need the items with certain other keys. The sort takes
an item with no open needs off a stack and lowers the number of open needs of
the items that need it.
-/

namespace TopologicalSort

variable {Item K : Type} [DecidableEq K] (key : Item -> K)
  (needs : Item -> List K) (items : List Item)

def occurrences (b : Item) : List Item :=
  items.filter (fun b2 => key b ∈ needs b2)

def degree (b : Item) : Nat :=
  ((needs b).filter (fun v => v ∈ items.map key)).length

def lower : List Item -> List Item × (K -> Nat) -> List Item × (K -> Nat)
  | [], state => state
  | b2 :: rest, (roots, num) =>
    let num := Function.update num (key b2) (num (key b2) - 1)
    lower rest (if num (key b2) = 0 then b2 :: roots else roots, num)

/-- The loop over the stack. Each round moves one item, so it takes no more
rounds than there are items. -/
def sortFrom : Nat -> List Item × (K -> Nat) -> List Item -> List Item
  | 0, _, sorted => sorted
  | _ + 1, ([], _), sorted => sorted
  | rounds + 1, (b :: roots, num), sorted =>
    sortFrom rounds (lower key (occurrences key needs items b) (roots, num))
      (sorted ++ [b])

def initial : List Item × (K -> Nat) :=
  ((items.filter (fun b => degree key needs items b = 0)).reverse,
    fun k =>
      match items.find? (fun b => key b = k) with
      | some b => degree key needs items b
      | none => 0)

def sort : List Item :=
  sortFrom key needs items items.length (initial key needs items) []

/-!
# The order
-/

def Ordered (sorted : List Item) : Prop :=
  forall pre b post, sorted = pre ++ b :: post ->
    forall v, v ∈ needs b -> v ∈ items.map key -> v ∈ pre.map key

def Needs (y x : K) : Prop :=
  exists b, b ∈ items ∧ key b = x ∧ y ∈ needs b ∧ y ∈ items.map key

def Acyclic : Prop :=
  forall x, ¬ Relation.TransGen (Needs key needs items) x x

variable {key needs items}

theorem wellFounded_of_acyclic {K : Type*} {r : K -> K -> Prop} {domain : List K}
    (hdomain : forall y x, r y x -> y ∈ domain)
    (h : forall x, ¬ Relation.TransGen r x x) : WellFounded r := by
  have hfinite : Finite { x // x ∈ domain } :=
    (List.finite_toSet domain).to_subtype
  have hsub : WellFounded (fun y x : { x // x ∈ domain } =>
      Relation.TransGen r y.1 x.1) := by
    have htrans : IsTrans { x // x ∈ domain }
        (fun y x => Relation.TransGen r y.1 x.1) :=
      ⟨fun a b c hab hbc => hab.trans hbc⟩
    have hirrefl : Std.Irrefl (fun y x : { x // x ∈ domain } =>
        Relation.TransGen r y.1 x.1) :=
      ⟨fun a ha => h a.1 ha⟩
    exact Finite.wellFounded_of_trans_of_irrefl _
  have hacc : forall x : { x // x ∈ domain }, Acc r x.1 := by
    intro x
    induction x using hsub.induction with
    | _ x ih =>
      constructor
      intro y hy
      exact ih ⟨y, hdomain y x.1 hy⟩ (.single hy)
  constructor
  intro x
  constructor
  intro y hy
  exact hacc ⟨y, hdomain y x hy⟩

omit [DecidableEq K] in
theorem Acyclic.wellFounded (h : Acyclic key needs items) :
    WellFounded (Needs key needs items) := by
  refine @wellFounded_of_acyclic K _ (items.map key) ?_ h
  intro y x ⟨b, _, _, _, hmem⟩
  exact hmem

/-!
# One round
-/

theorem lower_spec {occ : List Item} (hocc : (occ.map key).Nodup)
    (roots : List Item) (num : K -> Nat) :
    (lower key occ (roots, num)).1 = (occ.filter (fun b => num (key b) - 1 = 0)).reverse ++ roots ∧
      forall k, (lower key occ (roots, num)).2 k =
        if k ∈ occ.map key then num k - 1 else num k := by
  induction occ generalizing roots num with
  | nil => simp [lower]
  | cons b rest ih =>
    rcases List.nodup_cons.mp hocc with ⟨hb, hrest⟩
    rw [lower]
    rcases ih hrest (if Function.update num (key b) (num (key b) - 1) (key b) = 0
      then b :: roots else roots) (Function.update num (key b) (num (key b) - 1))
      with ⟨hroots, hnum⟩
    have hother : forall c, c ∈ rest -> key c ≠ key b := by
      intro c hc heq
      exact hb (List.mem_map.mpr ⟨c, hc, heq⟩)
    have hfilter : rest.filter (fun c =>
          Function.update num (key b) (num (key b) - 1) (key c) - 1 = 0) =
        rest.filter (fun c => num (key c) - 1 = 0) := by
      apply List.filter_congr
      intro c hc
      rw [Function.update_of_ne (hother c hc)]
    constructor
    · rw [hroots, hfilter, Function.update_self, List.filter_cons]
      split
      next hzero =>
        rw [if_pos (by simpa using hzero)]
        simp
      next hzero => rw [if_neg (by simpa using hzero)]
    · intro k
      rw [hnum, List.map_cons]
      cases hk : decide (k = key b) with
      | true =>
        have heq := of_decide_eq_true hk
        rw [heq, if_neg hb, if_pos List.mem_cons_self, Function.update_self]
      | false =>
        have hne := of_decide_eq_false hk
        rw [Function.update_of_ne hne]
        simp [hne]

def openNeeds (key : Item -> K) (needs : Item -> List K)
    (items sorted : List Item) (b : Item) : List K :=
  (needs b).filter (fun v => v ∈ items.map key ∧ v ∉ sorted.map key)

structure Sorting (key : Item -> K) (needs : Item -> List K)
    (items roots : List Item) (num : K -> Nat) (sorted : List Item) : Prop where
  nodup : ((sorted ++ roots).map key).Nodup
  subset : forall b, b ∈ sorted ++ roots -> b ∈ items
  counted : forall b, b ∈ items ->
    num (key b) = (openNeeds key needs items sorted b).length
  zero : forall b, b ∈ items -> (b ∈ sorted ++ roots <-> num (key b) = 0)
  ordered : Ordered key needs items sorted

omit [DecidableEq K] in
theorem eq_of_key_eq (hkeys : (items.map key).Nodup) {a b : Item}
    (ha : a ∈ items) (hb : b ∈ items) (h : key a = key b) : a = b :=
  List.inj_on_of_nodup_map hkeys ha hb h

theorem openNeeds_nil (b : Item) : (openNeeds key needs items [] b).length =
    degree key needs items b := by
  simp [openNeeds, degree]

variable (needs) in
theorem sorting_initial (hkeys : (items.map key).Nodup) :
    Sorting key needs items (initial key needs items).1 (initial key needs items).2 [] := by
  have hnum : forall b, b ∈ items ->
      (initial key needs items).2 (key b) = degree key needs items b := by
    intro b hb
    unfold initial
    dsimp only
    cases hfind : items.find? (fun c => key c = key b) with
    | none =>
      have hnone := List.find?_eq_none.mp hfind b hb
      simp at hnone
    | some c =>
      have hkey : key c = key b := by simpa using List.find?_some hfind
      rw [eq_of_key_eq hkeys (List.mem_of_find?_eq_some hfind) hb hkey]
  refine ⟨?_, ?_, ?_, ?_, ?_⟩
  · rw [List.nil_append, initial, List.map_reverse, List.nodup_reverse]
    exact hkeys.sublist (List.filter_sublist.map key)
  · intro b hb
    simp [initial] at hb
    exact hb.1
  · intro b hb
    rw [hnum b hb, openNeeds_nil]
  · intro b hb
    rw [hnum b hb]
    simp [initial, hb]
  · intro pre b post h
    simp at h

omit [DecidableEq K] in
theorem ordered_append {sorted : List Item} {b : Item} (h : Ordered key needs items sorted)
    (hb : forall v, v ∈ needs b -> v ∈ items.map key -> v ∈ sorted.map key) :
    Ordered key needs items (sorted ++ [b]) := by
  intro pre c post heq v hv hmem
  rcases List.eq_nil_or_concat post with rfl | ⟨post', z, rfl⟩
  · rcases List.append_inj' heq rfl with ⟨hpre, hc⟩
    cases hc
    rw [← hpre]
    exact hb v hv hmem
  · have heq' : sorted ++ [b] = (pre ++ c :: post') ++ [z] := by
      simpa using heq
    rcases List.append_inj' heq' rfl with ⟨hsorted, _⟩
    exact h pre c post' hsorted v hv hmem

theorem openNeeds_append {sorted : List Item} {b c : Item}
    (hneeds : (needs c).Nodup) (hb : b ∈ items) (hnew : key b ∉ sorted.map key) :
    (openNeeds key needs items (sorted ++ [b]) c).length =
      if key b ∈ needs c then (openNeeds key needs items sorted c).length - 1
      else (openNeeds key needs items sorted c).length := by
  have hmem : key b ∈ items.map key := List.mem_map_of_mem hb
  have hfilter : openNeeds key needs items (sorted ++ [b]) c =
      (openNeeds key needs items sorted c).erase (key b) := by
    have hnodup : (openNeeds key needs items sorted c).Nodup := hneeds.filter _
    rw [hnodup.erase_eq_filter]
    unfold openNeeds
    rw [List.filter_filter]
    apply List.filter_congr
    intro v _
    rw [List.map_append, List.map_singleton, Bool.eq_iff_iff]
    simp only [List.mem_append, List.mem_singleton, decide_eq_true_eq,
      Bool.and_eq_true, bne_iff_ne]
    tauto
  rw [hfilter]
  split
  next hin =>
    apply List.length_erase_of_mem
    exact List.mem_filter.mpr ⟨hin, by simp [hmem, hnew]⟩
  next hout =>
    rw [List.erase_of_not_mem]
    intro hin
    exact hout (List.mem_of_mem_filter hin)

theorem Sorting.step {b : Item} {roots sorted : List Item} {num : K -> Nat}
    (hkeys : (items.map key).Nodup) (hneeds : forall c, c ∈ items -> (needs c).Nodup)
    (h : Sorting key needs items (b :: roots) num sorted) :
    Sorting key needs items (lower key (occurrences key needs items b) (roots, num)).1
      (lower key (occurrences key needs items b) (roots, num)).2 (sorted ++ [b]) := by
  have hb : b ∈ items := h.subset b (by simp)
  have hocc : ((occurrences key needs items b).map key).Nodup :=
    hkeys.sublist (List.filter_sublist.map key)
  rcases lower_spec hocc roots num with ⟨hroots, hnum⟩
  have hsplit : (sorted.map key ++ key b :: roots.map key).Nodup := by
    simpa using h.nodup
  have hnew : key b ∉ sorted.map key := by
    intro hin
    exact (List.nodup_append.mp hsplit).2.2 _ hin _ List.mem_cons_self rfl
  have hkeyOcc : forall c, c ∈ items ->
      (key c ∈ (occurrences key needs items b).map key <-> key b ∈ needs c) := by
    intro c hc
    constructor
    · intro hin
      rcases List.mem_map.mp hin with ⟨d, hd, hkey⟩
      rcases List.mem_filter.mp hd with ⟨hditems, hdneeds⟩
      rw [eq_of_key_eq hkeys hditems hc hkey] at hdneeds
      simpa using hdneeds
    · intro hin
      exact List.mem_map_of_mem (List.mem_filter.mpr ⟨hc, by simpa using hin⟩)
  have hnum' : forall c, c ∈ items ->
      (lower key (occurrences key needs items b) (roots, num)).2 (key c) =
        (openNeeds key needs items (sorted ++ [b]) c).length := by
    intro c hc
    rw [hnum, openNeeds_append (hneeds c hc) hb hnew, h.counted c hc]
    simp only [hkeyOcc c hc]
  have hmem : forall c, c ∈ (sorted ++ [b]) ++
        (lower key (occurrences key needs items b) (roots, num)).1 <->
      c ∈ sorted ++ b :: roots ∨ (c ∈ items ∧ key b ∈ needs c ∧
        num (key c) - 1 = 0) := by
    intro c
    rw [hroots]
    simp only [occurrences, List.mem_append, List.mem_cons, List.mem_reverse,
      List.mem_filter, List.not_mem_nil, or_false, decide_eq_true_eq]
    tauto
  -- What is pushed was not on the stack before.
  have hpushed : forall c, c ∈ items -> key b ∈ needs c ->
      c ∉ sorted ++ b :: roots := by
    intro c hc hbc hin
    have hzero := (h.zero c hc).mp hin
    rw [h.counted c hc] at hzero
    have hopen : key b ∈ openNeeds key needs items sorted c :=
      List.mem_filter.mpr ⟨hbc, by simp [List.mem_map_of_mem hb, hnew]⟩
    rw [List.length_eq_zero_iff.mp hzero] at hopen
    cases hopen
  refine ⟨?_, ?_, hnum', ?_, ?_⟩
  · rw [hroots]
    have hperm : ((sorted ++ [b]) ++ (((occurrences key needs items b).filter
          (fun c => num (key c) - 1 = 0)).reverse ++ roots)).Perm
        (((occurrences key needs items b).filter
          (fun c => num (key c) - 1 = 0)).reverse ++ (sorted ++ b :: roots)) := by
      have hcomm := List.perm_append_comm_assoc (sorted ++ [b])
        ((occurrences key needs items b).filter
          (fun c => num (key c) - 1 = 0)).reverse roots
      simpa using hcomm
    rw [(hperm.map key).nodup_iff, List.map_append, List.nodup_append]
    refine ⟨?_, h.nodup, ?_⟩
    · rw [List.map_reverse, List.nodup_reverse]
      exact hocc.sublist (List.filter_sublist.map key)
    · intro k hk l hl heq
      rcases List.mem_map.mp hk with ⟨c, hc, rfl⟩
      rcases List.mem_map.mp hl with ⟨d, hd, rfl⟩
      have hc' : c ∈ items ∧ key b ∈ needs c := by
        rw [List.mem_reverse] at hc
        simpa using List.mem_filter.mp (List.mem_of_mem_filter hc)
      have hcd := eq_of_key_eq hkeys hc'.1 (h.subset d hd) heq
      rw [← hcd] at hd
      exact hpushed c hc'.1 hc'.2 hd
  · intro c hc
    rcases (hmem c).mp hc with hold | ⟨hitem, _⟩
    · exact h.subset c hold
    · exact hitem
  · intro c hc
    rw [hmem c, hnum, h.zero c hc]
    simp only [hkeyOcc c hc]
    split
    next hin =>
      constructor
      · intro hcases
        rcases hcases with hzero | ⟨_, _, hzero⟩
        · omega
        · exact hzero
      · intro hzero
        exact Or.inr ⟨hc, hin, hzero⟩
    next hout =>
      constructor
      · intro hcases
        rcases hcases with hzero | ⟨_, hin, _⟩
        · exact hzero
        · exact absurd hin hout
      · exact Or.inl
  · refine ordered_append h.ordered ?_
    intro v hv hmem
    have hzero := (h.zero b hb).mp (by simp)
    rw [h.counted b hb] at hzero
    by_contra hopen
    have hin : v ∈ openNeeds key needs items sorted b :=
      List.mem_filter.mpr ⟨hv, by simp only [decide_eq_true_eq]; exact ⟨hmem, hopen⟩⟩
    rw [List.length_eq_zero_iff.mp hzero] at hin
    cases hin

/-!
# The sorted list
-/

theorem sortFrom_sorting (hkeys : (items.map key).Nodup)
    (hneeds : forall c, c ∈ items -> (needs c).Nodup) (rounds : Nat)
    {roots sorted : List Item} {num : K -> Nat} (h : Sorting key needs items roots num sorted)
    (hrounds : items.length ≤ sorted.length + rounds) :
    exists num', Sorting key needs items [] num'
      (sortFrom key needs items rounds (roots, num) sorted) := by
  induction rounds generalizing roots num sorted with
  | zero =>
    have hsub : (sorted ++ roots).length ≤ items.length := by
      have hle : ((sorted ++ roots).map key).length ≤ (items.map key).length := by
        refine h.nodup.length_le_of_subset ?_
        intro k hk
        rcases List.mem_map.mp hk with ⟨c, hc, rfl⟩
        exact List.mem_map_of_mem (h.subset c hc)
      simpa using hle
    rw [List.length_append] at hsub
    have hnil : roots = [] := List.length_eq_zero_iff.mp (by omega)
    rw [hnil] at h
    exact ⟨num, h⟩
  | succ rounds ih =>
    cases roots with
    | nil => exact ⟨num, h⟩
    | cons b roots =>
      rw [sortFrom]
      refine ih (h.step hkeys hneeds) ?_
      simp
      omega

theorem sort_spec (hkeys : (items.map key).Nodup) (hneeds : forall c, c ∈ items -> (needs c).Nodup)
    (hacyclic : Acyclic key needs items) :
    (sort key needs items).Perm items ∧ Ordered key needs items (sort key needs items) := by
  rcases sortFrom_sorting hkeys hneeds items.length
    (sorting_initial needs hkeys) (by simp) with ⟨num, h⟩
  change Sorting key needs items [] num (sort key needs items) at h
  have hall : forall k c, c ∈ items -> key c = k -> c ∈ sort key needs items := by
    intro k
    induction k using hacyclic.wellFounded.induction with
    | _ k ih =>
      intro c hc hkey
      have hopen : openNeeds key needs items (sort key needs items) c = [] := by
        apply List.filter_eq_nil_iff.mpr
        intro v hv
        simp only [decide_eq_true_eq, not_and, not_not]
        intro hmem
        rcases List.mem_map.mp hmem with ⟨d, hd, rfl⟩
        have hsorted := ih (key d) ⟨c, hc, hkey, hv, hmem⟩ d hd rfl
        exact List.mem_map_of_mem hsorted
      have hzero := h.counted c hc
      rw [hopen] at hzero
      have hin := (h.zero c hc).mpr hzero
      simpa using hin
  have hnodup : (sort key needs items).Nodup := by
    have hmap := h.nodup
    rw [List.append_nil] at hmap
    exact hmap.of_map key
  refine ⟨(List.perm_ext_iff_of_nodup hnodup (hkeys.of_map key)).mpr ?_, h.ordered⟩
  intro c
  constructor
  · intro hc
    exact h.subset c (by simpa using hc)
  · intro hc
    exact hall (key c) c hc rfl

end TopologicalSort
