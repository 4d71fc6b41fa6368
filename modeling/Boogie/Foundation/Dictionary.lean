import Mathlib.Data.List.Basic
import Mathlib.Data.List.Induction
import Mathlib.Data.List.Nodup

/-!
# Dictionaries that remember the order of their keys

A table that is only ever extended or overwritten.  A key keeps the place at
which it was first set, so the keys are enumerated in the order in which they
came.
-/

structure Dictionary (Key Val : Type) where
  entries : List (Key × Val)
  distinct : (entries.map Prod.fst).Nodup

namespace Dictionary

variable {Key Val : Type}

def empty : Dictionary Key Val where
  entries := []
  distinct := List.nodup_nil

def keys (d : Dictionary Key Val) : List Key :=
  d.entries.map Prod.fst

def count (d : Dictionary Key Val) : Nat :=
  d.entries.length

@[simp] theorem keys_empty : (empty : Dictionary Key Val).keys = [] := rfl

theorem keys_nodup (d : Dictionary Key Val) : d.keys.Nodup :=
  d.distinct

@[simp] theorem length_keys (d : Dictionary Key Val) :
    d.keys.length = d.count :=
  List.length_map Prod.fst

variable [DecidableEq Key]

def tryGetValue (d : Dictionary Key Val) (k : Key) : Option Val :=
  (d.entries.find? (fun e => e.1 = k)).map Prod.snd

def containsKey (d : Dictionary Key Val) (k : Key) : Bool :=
  (d.tryGetValue k).isSome

def overwrite (entries : List (Key × Val)) (k : Key) (v : Val) :
    List (Key × Val) :=
  entries.map (fun e => if e.1 = k then (k, v) else e)

theorem keys_overwrite {entries : List (Key × Val)} {k : Key} {v : Val} :
    (overwrite entries k v).map Prod.fst = entries.map Prod.fst := by
  unfold overwrite
  rw [List.map_map]
  apply List.map_congr_left
  intro e _
  by_cases h : e.1 = k
  · simp [h]
  · simp [h]

/-- The indexer of the source, `d[k] = v`. -/
def set (d : Dictionary Key Val) (k : Key) (v : Val) : Dictionary Key Val :=
  if h : k ∈ d.keys then
    { entries := overwrite d.entries k v
      distinct := by
        rw [keys_overwrite]
        exact d.distinct }
  else
    { entries := d.entries ++ [(k, v)]
      distinct := by
        rw [List.map_append, List.nodup_append]
        refine ⟨d.distinct, List.nodup_singleton k, ?_⟩
        intro a ha b hb hab
        rw [List.map_singleton, List.mem_singleton] at hb
        subst hb
        subst hab
        exact h ha }

/-!
# Lookups
-/

section Lookup

variable {d : Dictionary Key Val} {k l : Key} {v w : Val}

@[simp] theorem tryGetValue_empty :
    (empty : Dictionary Key Val).tryGetValue k = none := rfl

theorem tryGetValue_eq_some : d.tryGetValue k = some v <-> (k, v) ∈ d.entries := by
  unfold tryGetValue
  constructor
  · intro h
    rcases Option.map_eq_some_iff.mp h with ⟨e, he, rfl⟩
    have hkey : e.1 = k := by simpa using List.find?_some he
    rw [← hkey]
    exact List.mem_of_find?_eq_some he
  · intro hmem
    rcases hfind : d.entries.find? (fun e => e.1 = k) with _ | e
    · rw [List.find?_eq_none] at hfind
      exact absurd (decide_eq_true rfl) (hfind (k, v) hmem)
    · have hkey : e.1 = k := by simpa using List.find?_some hfind
      have hsame : e = (k, v) := List.inj_on_of_nodup_map d.distinct
        (List.mem_of_find?_eq_some hfind) hmem hkey
      rw [hfind, Option.map_some, hsame]

theorem mem_keys : k ∈ d.keys <-> exists v, d.tryGetValue k = some v := by
  simp only [keys, List.mem_map, tryGetValue_eq_some]
  constructor
  · rintro ⟨⟨l, v⟩, hmem, rfl⟩
    exact ⟨v, hmem⟩
  · rintro ⟨v, hmem⟩
    exact ⟨(k, v), hmem, rfl⟩

theorem containsKey_iff : d.containsKey k = true <-> k ∈ d.keys := by
  rw [mem_keys, containsKey, Option.isSome_iff_exists]

theorem tryGetValue_eq_none : d.tryGetValue k = none <-> k ∉ d.keys := by
  rw [← containsKey_iff, containsKey]
  simp

/-!
# Changing a dictionary
-/

theorem keys_set_of_mem (h : k ∈ d.keys) : (d.set k v).keys = d.keys := by
  rw [set, dif_pos h]
  exact keys_overwrite

theorem keys_set_of_not_mem (h : k ∉ d.keys) :
    (d.set k v).keys = d.keys ++ [k] := by
  rw [set, dif_neg h]
  simp [keys]

theorem mem_keys_set : l ∈ (d.set k v).keys <-> l ∈ d.keys ∨ l = k := by
  by_cases h : k ∈ d.keys
  · rw [keys_set_of_mem h]
    constructor
    · exact Or.inl
    · rintro (hl | rfl)
      · exact hl
      · exact h
  · rw [keys_set_of_not_mem h, List.mem_append, List.mem_singleton]

@[simp] theorem tryGetValue_set_self : (d.set k v).tryGetValue k = some v := by
  rw [tryGetValue_eq_some]
  by_cases h : k ∈ d.keys
  · rw [set, dif_pos h]
    rcases List.mem_map.mp h with ⟨e, he, hkey⟩
    exact List.mem_map.mpr ⟨e, he, by simp [hkey]⟩
  · rw [set, dif_neg h]
    exact List.mem_append_right _ List.mem_cons_self

theorem tryGetValue_set_of_ne (hne : l ≠ k) :
    (d.set k v).tryGetValue l = d.tryGetValue l := by
  apply Option.ext
  intro w
  rw [tryGetValue_eq_some, tryGetValue_eq_some]
  by_cases h : k ∈ d.keys
  · rw [set, dif_pos h]
    constructor
    · intro hmem
      rcases List.mem_map.mp hmem with ⟨e, he, heq⟩
      by_cases hkey : e.1 = k
      · rw [if_pos hkey] at heq
        exact absurd (congrArg Prod.fst heq).symm hne
      · rw [if_neg hkey] at heq
        rwa [← heq]
    · intro hmem
      exact List.mem_map.mpr ⟨(l, w), hmem, by simp [hne]⟩
  · rw [set, dif_neg h]
    simp [hne]

theorem tryGetValue_set :
    (d.set k v).tryGetValue l = if l = k then some v else d.tryGetValue l := by
  by_cases h : l = k
  · rw [if_pos h, h, tryGetValue_set_self]
  · rw [if_neg h, tryGetValue_set_of_ne h]

theorem count_set_of_not_mem (h : k ∉ d.keys) :
    (d.set k v).count = d.count + 1 := by
  rw [← length_keys, keys_set_of_not_mem h, List.length_append, length_keys,
    List.length_singleton]

end Lookup

/-!
# Filling a dictionary
-/

section Fill

variable {α : Type} {key : α -> Key} {val : α -> Val} {as : List α}
  {d : Dictionary Key Val}

theorem tryGetValue_foldl_set {k : Key} :
    (as.foldl (fun d a => d.set (key a) (val a)) d).tryGetValue k =
      ((as.reverse.find? (fun a => key a = k)).map val).or (d.tryGetValue k) := by
  induction as using List.reverseRecOn with
  | nil => rfl
  | append_singleton as a ih =>
    rw [List.foldl_concat, tryGetValue_set, ih, List.reverse_append,
      List.reverse_singleton, List.singleton_append, List.find?_cons]
    by_cases hkey : key a = k
    · rw [if_pos hkey.symm]
      simp [hkey]
    · rw [if_neg (fun h => hkey h.symm)]
      simp [hkey]

theorem tryGetValue_foldl_set_of_inj {a : α} (ha : a ∈ as)
    (hinj : forall b, b ∈ as -> key b = key a -> b = a) :
    (as.foldl (fun d a => d.set (key a) (val a)) d).tryGetValue (key a) = some (val a) := by
  rw [tryGetValue_foldl_set]
  cases hfind : as.reverse.find? (fun b => key b = key a) with
  | none =>
    rw [List.find?_eq_none] at hfind
    exact absurd (decide_eq_true rfl) (hfind a (List.mem_reverse.mpr ha))
  | some b =>
    have hkey : key b = key a := by simpa using List.find?_some hfind
    have hmem := List.mem_reverse.mp (List.mem_of_find?_eq_some hfind)
    rw [hinj b hmem hkey, Option.map_some, Option.some_or]

end Fill

/-!
# Numbered keys
-/

def Numbered (d : Dictionary Key Nat) : Prop :=
  forall k i, d.tryGetValue k = some i <-> d.keys[i]? = some k

theorem numbered_empty : (empty : Dictionary Key Nat).Numbered := by
  intro k i
  simp

theorem Numbered.set {d : Dictionary Key Nat} {k : Key} (h : d.Numbered)
    (hk : k ∉ d.keys) : (d.set k d.count).Numbered := by
  intro l i
  rw [tryGetValue_set, keys_set_of_not_mem hk]
  by_cases hl : l = k
  · subst hl
    rw [if_pos rfl, List.getElem?_append]
    by_cases hi : i < d.keys.length
    · rw [if_pos hi]
      constructor
      · intro heq
        cases heq
        exact absurd hi (by simp)
      · intro hget
        exact absurd (List.mem_of_getElem? hget) hk
    · rw [if_neg hi, List.getElem?_singleton, length_keys]
      rw [length_keys] at hi
      constructor
      · intro heq
        cases heq
        simp
      · intro hget
        have hzero : i - d.count = 0 := by
          by_contra hne
          rw [if_neg hne] at hget
          cases hget
        rw [show i = d.count by omega]
  · rw [if_neg hl, h l i, List.getElem?_append]
    by_cases hi : i < d.keys.length
    · rw [if_pos hi]
    · rw [if_neg hi, List.getElem?_singleton]
      constructor
      · intro hget
        exact absurd (List.getElem?_eq_some_iff.mp hget).1 hi
      · intro hget
        split at hget
        · exact absurd (Option.some.inj hget).symm hl
        · cases hget

theorem Numbered.lt_count {d : Dictionary Key Nat} {k : Key} {i : Nat}
    (h : d.Numbered) (hk : d.tryGetValue k = some i) : i < d.count := by
  rw [h k i] at hk
  rw [← length_keys]
  exact (List.getElem?_eq_some_iff.mp hk).1

theorem Numbered.injective {d : Dictionary Key Nat} {k l : Key} {i : Nat}
    (h : d.Numbered) (hk : d.tryGetValue k = some i) (hl : d.tryGetValue l = some i) : k = l := by
  rw [h k i] at hk
  rw [h l i] at hl
  exact Option.some.inj (hk.symm.trans hl)

theorem Numbered.surjective {d : Dictionary Key Nat} {i : Nat}
    (h : d.Numbered) (hi : i < d.count) : exists k, d.tryGetValue k = some i := by
  rw [← length_keys] at hi
  exact ⟨d.keys[i], (h _ i).mpr (List.getElem?_eq_getElem hi)⟩

end Dictionary
