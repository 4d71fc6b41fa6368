import Mathlib.Algebra.GroupWithZero.Nat
import Mathlib.Data.List.FinRange
import Mathlib.Data.List.GetD
import Mathlib.Data.List.Nodup
import Mathlib.Data.List.NodupEquivFin
import Mathlib.Data.List.Perm.Subperm
import Mathlib.Data.Nat.Factorial.Basic

/-!
# Ordered selections

The ways to take elements of a list one after the other, each at most once, in the
order in which a search over the positions of the list finds them.
-/

namespace Selections

variable {α : Type*}

def without (l : List α) (i : Nat) : List α :=
  l.take i ++ l.drop (i + 1)

def selections : Nat -> List α -> List (List α)
  | 0, _ => [[]]
  | n + 1, l =>
    (List.finRange l.length).flatMap
      (fun (i : Fin l.length) => (selections n (without l i)).map (l[i] :: ·))

/-!
# One element less
-/

theorem without_eq_eraseIdx (l : List α) (i : Nat) : without l i = l.eraseIdx i :=
  (List.eraseIdx_eq_take_drop_succ l i).symm

theorem length_without {l : List α} {i : Nat} (h : i < l.length) :
    (without l i).length + 1 = l.length := by
  rw [without_eq_eraseIdx, List.length_eraseIdx_of_lt h]
  exact Nat.sub_add_cancel (Nat.zero_lt_of_lt h)

theorem nodup_without {l : List α} {i : Nat} (h : l.Nodup) : (without l i).Nodup := by
  rw [without_eq_eraseIdx]
  exact h.sublist (List.eraseIdx_sublist l i)

theorem mem_without {l : List α} (h : l.Nodup) (i : Fin l.length) {x : α} :
    x ∈ without l i <-> x ∈ l ∧ x ≠ l[i] := by
  classical
  rw [without_eq_eraseIdx, ← h.erase_getElem i i.2, h.mem_erase_iff]
  exact And.comm

/-!
# The selections of a list without repetitions
-/

theorem mem_selections_succ {n : Nat} {l s : List α} :
    s ∈ selections (n + 1) l <-> exists (i : Fin l.length) (rest : List α),
        rest ∈ selections n (without l i) ∧ l[i] :: rest = s := by
  rw [selections, List.mem_flatMap]
  constructor
  · rintro ⟨i, _, hs⟩
    rcases List.mem_map.mp hs with ⟨rest, hrest, heq⟩
    exact ⟨i, rest, hrest, heq⟩
  · rintro ⟨i, rest, hrest, heq⟩
    exact ⟨i, List.mem_finRange i, List.mem_map.mpr ⟨rest, hrest, heq⟩⟩

theorem subset_of_mem_selections {n : Nat} {l s : List α} (h : s ∈ selections n l) :
    s ⊆ l := by
  induction n generalizing l s with
  | zero =>
    rw [selections, List.mem_singleton] at h
    rw [h]
    exact List.nil_subset l
  | succ n ih =>
    rcases mem_selections_succ.mp h with ⟨i, rest, hrest, rfl⟩
    refine List.cons_subset.mpr ⟨List.getElem_mem i.isLt, ?_⟩
    have hsubset := ih hrest
    rw [without_eq_eraseIdx] at hsubset
    exact List.Subset.trans hsubset List.eraseIdx_subset

theorem mem_selections {n : Nat} {l s : List α} (h : l.Nodup) :
    s ∈ selections n l <-> s.Nodup ∧ s ⊆ l ∧ s.length = n := by
  induction n generalizing l s with
  | zero =>
    rw [selections, List.mem_singleton]
    constructor
    · rintro rfl
      exact ⟨List.nodup_nil, List.nil_subset l, rfl⟩
    · rintro ⟨_, _, hlength⟩
      exact List.length_eq_zero_iff.mp hlength
  | succ n ih =>
    rw [mem_selections_succ]
    constructor
    · rintro ⟨i, rest, hrest, rfl⟩
      rcases (ih (nodup_without h)).mp hrest with ⟨hnodup, hsubset, hlength⟩
      refine ⟨?_, ?_, by rw [List.length_cons, hlength]⟩
      · rw [List.nodup_cons]
        refine ⟨?_, hnodup⟩
        intro hmem
        exact ((mem_without h i).mp (hsubset hmem)).2 rfl
      · intro x hx
        rcases List.mem_cons.mp hx with rfl | hmem
        · exact List.getElem_mem i.2
        · exact ((mem_without h i).mp (hsubset hmem)).1
    · rintro ⟨hnodup, hsubset, hlength⟩
      cases s with
      | nil => cases hlength
      | cons x rest =>
        rcases List.nodup_cons.mp hnodup with ⟨hx, hrest⟩
        rcases List.mem_iff_getElem.mp (hsubset List.mem_cons_self) with
          ⟨i, hi, hget⟩
        refine ⟨⟨i, hi⟩, rest, (ih (nodup_without h)).mpr ?_, ?_⟩
        · refine ⟨hrest, ?_, Nat.succ_injective hlength⟩
          intro y hy
          refine (mem_without h ⟨i, hi⟩).mpr ⟨hsubset (List.mem_cons_of_mem x hy), ?_⟩
          rintro rfl
          exact hx (hget ▸ hy)
        · exact congrArg (· :: rest) hget

theorem selections_nodup {n : Nat} {l : List α} (h : l.Nodup) :
    (selections n l).Nodup := by
  induction n generalizing l with
  | zero => exact List.nodup_singleton []
  | succ n ih =>
    rw [selections, List.nodup_flatMap]
    constructor
    · intro i _
      apply (ih (nodup_without h)).map
      intro rest rest' heq
      exact (List.cons.inj heq).2
    · refine (List.nodup_finRange l.length).imp ?_
      intro i j hne s hi hj
      rcases List.mem_map.mp hi with ⟨rest, _, rfl⟩
      rcases List.mem_map.mp hj with ⟨rest', _, heq⟩
      apply hne
      have hget : l[i] = l[j] := (List.cons.inj heq).1.symm
      exact Fin.ext ((List.Nodup.getElem_inj_iff h).mp hget)

theorem count_selections [DecidableEq α] {n : Nat} {l : List α} (h : l.Nodup) (s : List α) :
    (selections n l).count s = if s.Nodup ∧ s ⊆ l ∧ s.length = n then 1 else 0 := by
  split
  next hs => exact List.count_eq_one_of_mem (selections_nodup h) ((mem_selections h).mpr hs)
  next hs => exact List.count_eq_zero_of_not_mem (fun hmem => hs ((mem_selections h).mp hmem))

/-!
# Selections seen at some positions
-/

theorem length_selections (n : Nat) (l : List α) :
    (selections n l).length = l.length.descFactorial n := by
  induction n generalizing l with
  | zero => rfl
  | succ n ih =>
    have hrest : forall i : Fin l.length,
        ((selections n (without l i)).map (l[i] :: ·)).length =
          (l.length - 1).descFactorial n := by
      intro i
      have hlength := length_without i.2
      rw [List.length_map, ih, show (without l i).length = l.length - 1 by omega]
    rw [selections, List.length_flatMap, List.map_congr_left (fun i _ => hrest i),
      List.map_const', List.sum_replicate_nat, List.length_finRange]
    cases l.length with
    | zero => simp
    | succ k => rw [Nat.succ_descFactorial_succ]; rfl

def entriesAt (us : List Nat) (d : α) (s : List α) : List α :=
  us.map (fun n => s.getD n d)

theorem length_filter_not_mem [DecidableEq α] {l s : List α} (hl : l.Nodup) (hs : s.Nodup)
    (hsubset : s ⊆ l) :
    (l.filter (fun x => !decide (x ∈ s))).length + s.length = l.length := by
  have hperm : (l.filter (fun x => decide (x ∈ s))).Perm s := by
    rw [List.perm_ext_iff_of_nodup (hl.filter _) hs]
    intro x
    rw [List.mem_filter, decide_eq_true_eq]
    exact ⟨And.right, fun hx => ⟨hsubset hx, hx⟩⟩
  have hsplit := List.length_eq_length_filter_add (l := l) (fun x => decide (x ∈ s))
  rw [hperm.length_eq] at hsplit
  omega

theorem getD_idxOf_inj [DecidableEq α] {us : List Nat} {s : List α} (hs : s.Nodup)
    (hlength : us.length ≤ s.length) (d : α) {a b : Nat} (ha : a ∈ us) (hb : b ∈ us)
    (h : s.getD (us.idxOf a) d = s.getD (us.idxOf b) d) : a = b := by
  have hia := List.idxOf_lt_length_of_mem ha
  have hib := List.idxOf_lt_length_of_mem hb
  rw [List.getD_eq_getElem _ _ (by omega), List.getD_eq_getElem _ _ (by omega)] at h
  exact (List.idxOf_inj ha).mp ((List.Nodup.getElem_inj_iff hs).mp h)

theorem getD_idxOf_mem [DecidableEq α] {us : List Nat} {s : List α}
    (hlength : us.length ≤ s.length) (d : α) {a : Nat} (ha : a ∈ us) :
    s.getD (us.idxOf a) d ∈ s := by
  have hia := List.idxOf_lt_length_of_mem ha
  rw [List.getD_eq_getElem _ _ (by omega)]
  exact List.getElem_mem _

theorem exists_extension {l s : List α} (hl : l.Nodup) {us : List Nat} (hus : us.Nodup)
    {m : Nat} (hlt : forall n, n ∈ us -> n < m) (hm : m ≤ l.length) (d : α)
    (hs : s ∈ selections us.length l) :
    exists s', s' ∈ selections m l ∧ entriesAt us d s' = s := by
  classical
  rcases (mem_selections hl).mp hs with ⟨hnodup, hsubset, hlength⟩
  let others := (List.range m).filter (fun n => !decide (n ∈ us))
  let rest := l.filter (fun x => !decide (x ∈ s))
  let fill : Nat -> α := fun n =>
    if n ∈ us then s.getD (us.idxOf n) d else rest.getD (others.idxOf n) d
  have hrange : us ⊆ List.range m := fun n hn => List.mem_range.mpr (hlt n hn)
  have hothers : others.length ≤ rest.length := by
    have hpositions := length_filter_not_mem List.nodup_range hus hrange
    have hnames := length_filter_not_mem hl hnodup hsubset
    rw [List.length_range] at hpositions
    simp only [others, rest]
    omega
  have hrest : rest.Nodup := hl.filter _
  have hin : forall n, n ∈ us -> fill n = s.getD (us.idxOf n) d := fun n hn => if_pos hn
  have hout : forall n, n ∉ us -> fill n = rest.getD (others.idxOf n) d :=
    fun n hn => if_neg hn
  have hmem : forall n, n < m -> n ∉ us -> n ∈ others := by
    intro n hn hnot
    simp [others, hn, hnot]
  have hapart : forall a b, a ∈ us -> b < m -> b ∉ us -> fill a ≠ fill b := by
    intro a b ha hb hnot heq
    rw [hin a ha, hout b hnot] at heq
    have hfirst := getD_idxOf_mem (Nat.le_of_eq hlength.symm) d ha
    have hsecond := getD_idxOf_mem hothers d (hmem b hb hnot)
    rw [← heq, List.mem_filter, decide_eq_true hfirst] at hsecond
    cases hsecond.right
  refine ⟨(List.range m).map fill, (mem_selections hl).mpr ⟨?_, ?_, by simp⟩, ?_⟩
  · apply List.Nodup.map_on _ List.nodup_range
    intro a ha b hb heq
    rw [List.mem_range] at ha hb
    by_cases hain : a ∈ us
    · by_cases hbin : b ∈ us
      · rw [hin a hain, hin b hbin] at heq
        exact getD_idxOf_inj hnodup (Nat.le_of_eq hlength.symm) d hain hbin heq
      · exact absurd heq (hapart a b hain hb hbin)
    · by_cases hbin : b ∈ us
      · exact absurd heq.symm (hapart b a hbin ha hain)
      · rw [hout a hain, hout b hbin] at heq
        exact getD_idxOf_inj hrest hothers d (hmem a ha hain) (hmem b hb hbin) heq
  · intro x hx
    rcases List.mem_map.mp hx with ⟨n, hn, rfl⟩
    rw [List.mem_range] at hn
    by_cases hnin : n ∈ us
    · rw [hin n hnin]
      exact hsubset (getD_idxOf_mem (Nat.le_of_eq hlength.symm) d hnin)
    · rw [hout n hnin]
      exact List.mem_of_mem_filter (getD_idxOf_mem hothers d (hmem n hn hnin))
  · apply List.ext_getElem
    · rw [entriesAt, List.length_map, hlength]
    · intro j hj hj'
      rw [entriesAt, List.length_map] at hj
      have hget : us[j] < ((List.range m).map fill).length := by
        rw [List.length_map, List.length_range]
        exact hlt _ (List.getElem_mem hj)
      have hfill := hin us[j] (List.getElem_mem hj)
      rw [hus.idxOf_getElem, List.getD_eq_getElem _ _ hj'] at hfill
      simp only [entriesAt, List.getElem_map]
      rw [List.getD_eq_getElem _ _ hget, List.getElem_map, List.getElem_range, hfill]

theorem descFactorial_eq_one {n k : Nat} : n.descFactorial k = 1 <-> k = 0 ∨ (n = 1 ∧ k = 1) := by
  constructor
  · intro h
    cases k with
    | zero => exact Or.inl rfl
    | succ k =>
      cases n with
      | zero => rw [Nat.zero_descFactorial_succ] at h; cases h
      | succ n =>
        rw [Nat.succ_descFactorial_succ] at h
        have hn : n = 0 := Nat.succ_injective (Nat.dvd_one.mp ⟨_, h.symm⟩)
        rw [hn] at h ⊢
        cases k with
        | zero => exact Or.inr ⟨rfl, rfl⟩
        | succ k =>
          rw [Nat.zero_descFactorial_succ] at h
          cases h
  · rintro (rfl | ⟨rfl, rfl⟩)
    · rfl
    · rfl

/-- The numbers of selections of `u` and of `m` elements agree when one element is left
over at most, and then all others are taken. -/
theorem descFactorial_eq_iff {l u m : Nat} (hum : u ≤ m) (hml : m ≤ l) :
    l.descFactorial m = l.descFactorial u <-> m = u ∨ (m = u + 1 ∧ l = m) := by
  have hpos : 0 < l.descFactorial u := Nat.descFactorial_pos.mpr (hum.trans hml)
  rw [← Nat.descFactorial_mul_descFactorial hum, Nat.mul_eq_right (Nat.ne_of_gt hpos),
    descFactorial_eq_one]
  omega

theorem length_le_of_lt {us : List Nat} (hus : us.Nodup) {m : Nat}
    (hlt : forall n, n ∈ us -> n < m) : us.length ≤ m := by
  have hsub := hus.subperm (fun n hn => List.mem_range.mpr (hlt n hn))
  have hle := hsub.length_le
  rwa [List.length_range] at hle

theorem descFactorial_le {l u m : Nat} (hum : u ≤ m) (hml : m ≤ l) :
    l.descFactorial u ≤ l.descFactorial m := by
  rw [← Nat.descFactorial_mul_descFactorial hum]
  exact Nat.le_mul_of_pos_left _ (Nat.descFactorial_pos.mpr (Nat.sub_le_sub_right hml u))

theorem entriesAt_perm {l : List α} (hl : l.Nodup) {us : List Nat} (hus : us.Nodup)
    {m : Nat} (hlt : forall n, n ∈ us -> n < m) (hm : m ≤ l.length) (d : α)
    (hexact : m = us.length ∨ (m = us.length + 1 ∧ l.length = m)) :
    ((selections m l).map (entriesAt us d)).Perm (selections us.length l) := by
  have hum := length_le_of_lt hus hlt
  have hsubperm : (selections us.length l).Subperm ((selections m l).map (entriesAt us d)) := by
    apply (selections_nodup hl).subperm
    intro s hs
    rcases exists_extension hl hus hlt hm d hs with ⟨s', hs', rfl⟩
    exact List.mem_map_of_mem hs'
  refine (hsubperm.perm_of_length_le ?_).symm
  rw [List.length_map, length_selections, length_selections,
    (descFactorial_eq_iff hum hm).mpr hexact]

end Selections
