import Boogie.Houdini.C5Files
import Boogie.Houdini.Recording

/-!
# Coherence of the sample tables

The classes and the numbers of the points are kept in two dictionaries, and the
rows of the data file are written in the order of one of them while
implications refer to the numbers in the other.  Both list the same points in
the same order.
-/

namespace Boogie

namespace MLHoudini

/-!
# Rows
-/

def columns (fs : DeclaredFunctions) (p : DataPoint) : List String :=
  fs.functions.flatMap (fun F =>
    if F.name = p.functionName then p.value.map toString
    else F.inParams.map (fun _ => "?"))

theorem foldl_columns {α : Type} {column : α -> String} {as : List α}
    {ret : String} :
    as.foldl (fun ret a => ret ++ "," ++ column a) ret = Text.join ',' ret (as.map column) := by
  induction as generalizing ret with
  | nil => rfl
  | cons a as ih => exact ih

theorem join_join {sep : Char} {first : String} {parts parts' : List String} :
    Text.join sep (Text.join sep first parts) parts' = Text.join sep first (parts ++ parts') := by
  induction parts generalizing first with
  | nil => rfl
  | cons part parts ih => exact ih

theorem outputDataPoint_eq {fs : DeclaredFunctions} {p : DataPoint} :
    outputDataPoint fs p = Text.join ',' p.functionName (columns fs p) := by
  have hfold : forall (Fs : List DeclaredFunction) (ret : String),
      Fs.foldl
        (fun ret exFunc =>
          if exFunc.name = p.functionName then
            p.value.foldl (fun ret x => ret ++ "," ++ toString x) ret
          else exFunc.inParams.foldl (fun ret _ => ret ++ ",?") ret) ret =
        Text.join ',' ret (Fs.flatMap (fun F =>
          if F.name = p.functionName then p.value.map toString
          else F.inParams.map (fun _ => "?"))) := by
    intro Fs
    induction Fs with
    | nil => intro ret; rfl
    | cons F Fs ih =>
      intro ret
      rw [List.foldl_cons, ih, List.flatMap_cons, ← join_join]
      by_cases hname : F.name = p.functionName
      · rw [if_pos hname, if_pos hname, foldl_columns]
      · rw [if_neg hname, if_neg hname]
        have hunknown : forall ret : String,
            ret ++ ",?" = ret ++ "," ++ "?" := by
          intro ret
          rw [String.append_assoc]
          rfl
        simp only [hunknown]
        rw [foldl_columns]
  exact hfold fs.functions p.functionName

theorem mem_toList_toString_nat {c : Char} {n : Nat}
    (h : c ∈ (toString n).toList) : c.isDigit = true := by
  have hrepr : (toString n).toList = Nat.toDigits 10 n := by
    simp [ToString.toString, Nat.repr]
  rw [hrepr] at h
  exact Nat.isDigit_of_mem_toDigits (by omega) (by omega) h

theorem mem_toList_toString_int {c : Char} {n : Int}
    (h : c ∈ (toString n).toList) : c = '-' ∨ c.isDigit = true := by
  rw [Int.toString_eq_repr, Int.repr_eq_if] at h
  split at h
  · exact Or.inr (mem_toList_toString_nat h)
  · rw [String.toList_append, List.mem_append] at h
    rcases h with h | h
    · exact Or.inl (by simpa using h)
    · exact Or.inr (mem_toList_toString_nat h)

def pairLine (t : Nat × Nat) : String :=
  toString t.1 ++ " " ++ toString t.2

theorem not_mem_pairLine {t : Nat × Nat} : '\n' ∉ (pairLine t).toList := by
  rw [pairLine, String.toList_append, String.toList_append, List.mem_append,
    List.mem_append]
  rintro ((h | h) | h)
  · exact absurd (mem_toList_toString_nat h) (by decide)
  · exact absurd h (by decide)
  · exact absurd (mem_toList_toString_nat h) (by decide)

def separators : List Char :=
  [',', ':', ' ', '\n', '+', '-']

theorem IsIdentifier.not_separator {name : String} {c : Char}
    (h : IsIdentifier name) (hc : c ∈ separators) : c ∉ name.toList := by
  intro hmem
  have hchar := h c hmem
  revert hchar
  simp only [separators, List.mem_cons, List.not_mem_nil, or_false] at hc
  rcases hc with rfl | rfl | rfl | rfl | rfl | rfl
  all_goals decide

theorem not_mem_columns {fs : DeclaredFunctions} {p : DataPoint} {c : Char}
    {column : String} (hsep : c = ',' ∨ c = '\n')
    (h : column ∈ columns fs p) : c ∉ column.toList := by
  intro hc
  rcases List.mem_flatMap.mp h with ⟨F, _, hcolumn⟩
  split at hcolumn
  · rcases List.mem_map.mp hcolumn with ⟨n, _, rfl⟩
    have hdigit := mem_toList_toString_int hc
    revert hdigit
    rcases hsep with rfl | rfl
    all_goals decide
  · rcases List.mem_map.mp hcolumn with ⟨_, _, rfl⟩
    rcases hsep with rfl | rfl
    all_goals revert hc; decide

def classColumn (classAttr : Nat) : String :=
  if classAttr = unknown then "?"
  else if classAttr = positive then "true"
  else "false"

def row (fs : DeclaredFunctions) (p : DataPoint) (classAttr : Nat) : String :=
  outputDataPoint fs p ++ "," ++ classColumn classAttr

theorem classSuffix_eq {classAttr : Nat} (h : classAttr ≤ negative) :
    classSuffix classAttr = "," ++ classColumn classAttr ++ "\n" := by
  have hcases : classAttr = 0 ∨ classAttr = 1 ∨ classAttr = 2 := by
    unfold negative at h
    omega
  rcases hcases with rfl | rfl | rfl
  all_goals decide

theorem mem_classColumn {classAttr : Nat} {c : Char}
    (hsep : c = ',' ∨ c = '\n') : c ∉ (classColumn classAttr).toList := by
  unfold classColumn
  rcases hsep with rfl | rfl
  all_goals
    split
    · decide
    · split
      · decide
      · decide

theorem row_eq {fs : DeclaredFunctions} {p : DataPoint} {classAttr : Nat} :
    row fs p classAttr =
      Text.join ',' p.functionName (columns fs p ++ [classColumn classAttr]) := by
  rw [row, outputDataPoint_eq, ← join_join]
  rfl

theorem not_mem_row {fs : DeclaredFunctions} {p : DataPoint} {classAttr : Nat}
    (hname : IsIdentifier p.functionName) :
    '\n' ∉ (row fs p classAttr).toList := by
  rw [row_eq]
  intro h
  rcases Text.mem_toList_join h with hfirst | hsep | ⟨part, hpart, hc⟩
  · exact hname.not_separator (by decide) hfirst
  · exact absurd hsep (by decide)
  · rcases List.mem_append.mp hpart with hcolumn | hclass
    · exact not_mem_columns (Or.inr rfl) hcolumn hc
    · rw [List.mem_singleton] at hclass
      subst hclass
      exact mem_classColumn (Or.inr rfl) hc

theorem splitAt_row {fs : DeclaredFunctions} {p : DataPoint} {classAttr : Nat}
    (hname : IsIdentifier p.functionName) :
    Text.splitAt ',' (row fs p classAttr) =
      p.functionName :: (columns fs p ++ [classColumn classAttr]) := by
  rw [row_eq]
  apply Text.splitAt_join (hname.not_separator (by decide))
  intro part hpart
  rcases List.mem_append.mp hpart with hcolumn | hclass
  · exact not_mem_columns (Or.inl rfl) hcolumn
  · rw [List.mem_singleton] at hclass
    subst hclass
    exact mem_classColumn (Or.inl rfl)

/-!
# Coherent tables
-/

namespace SampleTables

structure Coherent (s : SampleTables) : Prop where
  sameKeys : s.samplePointToIndex.keys = s.samplePointToClassAttr.keys
  numbered : s.samplePointToIndex.Numbered
  counted : s.dataPointsIndex = s.samplePointToIndex.count
  classes : forall d c, s.samplePointToClassAttr.tryGetValue d = some c ->
    c ≤ negative

theorem empty_coherent : empty.Coherent where
  sameKeys := rfl
  numbered := Dictionary.numbered_empty
  counted := rfl
  classes := by
    intro d c h
    cases h

def KeepsIndices (s s' : SampleTables) : Prop :=
  forall d i, s.samplePointToIndex.tryGetValue d = some i ->
    s'.samplePointToIndex.tryGetValue d = some i

theorem KeepsIndices.refl (s : SampleTables) : KeepsIndices s s :=
  fun _ _ h => h

theorem KeepsIndices.trans {s₁ s₂ s₃ : SampleTables} (h : KeepsIndices s₁ s₂)
    (h' : KeepsIndices s₂ s₃) : KeepsIndices s₁ s₃ :=
  fun d i hd => h' d i (h d i hd)

def KeepsClasses (s s' : SampleTables) : Prop :=
  forall d c, s.samplePointToClassAttr.tryGetValue d = some c ->
    s'.samplePointToClassAttr.tryGetValue d = some c

section Steps

variable {s : SampleTables} {d : DataPoint} {classAttr : Nat}

theorem addPoint_coherent (h : s.Coherent)
    (hd : d ∉ s.samplePointToIndex.keys) (hclass : classAttr ≤ negative) :
    (s.addPoint d classAttr).Coherent where
  sameKeys := by
    have hd' : d ∉ s.samplePointToClassAttr.keys := by
      rw [← h.sameKeys]
      exact hd
    rw [addPoint, Dictionary.keys_set_of_not_mem hd,
      Dictionary.keys_set_of_not_mem hd', h.sameKeys]
  numbered := by
    rw [addPoint, h.counted]
    exact h.numbered.set hd
  counted := by
    rw [addPoint, Dictionary.count_set_of_not_mem hd, h.counted]
  classes := by
    intro e c he
    rw [addPoint, Dictionary.tryGetValue_set] at he
    split at he
    · cases he
      exact hclass
    · exact h.classes e c he

theorem addPoint_keepsIndices (hd : d ∉ s.samplePointToIndex.keys) :
    KeepsIndices s (s.addPoint d classAttr) := by
  intro e i he
  have hne : e ≠ d := by
    intro heq
    subst heq
    exact hd (Dictionary.mem_keys.mpr ⟨i, he⟩)
  rw [addPoint, Dictionary.tryGetValue_set_of_ne hne]
  exact he

theorem addPoint_keepsClasses (h : s.Coherent) (hd : d ∉ s.samplePointToIndex.keys) :
    KeepsClasses s (s.addPoint d classAttr) := by
  intro e c he
  have hne : e ≠ d := by
    intro heq
    subst heq
    rw [h.sameKeys] at hd
    exact hd (Dictionary.mem_keys.mpr ⟨c, he⟩)
  rw [addPoint, Dictionary.tryGetValue_set_of_ne hne]
  exact he

theorem addSample_coherent (h : s.Coherent) (hclass : classAttr ≤ negative) :
    (s.addSample d classAttr).Coherent := by
  rw [addSample]
  split
  · rename_i hd
    rw [Dictionary.containsKey_iff] at hd
    constructor
    · have hd' : d ∈ s.samplePointToClassAttr.keys := by
        rw [← h.sameKeys]
        exact hd
      rw [Dictionary.keys_set_of_mem hd', h.sameKeys]
    · exact h.numbered
    · exact h.counted
    · intro e c he
      rw [Dictionary.tryGetValue_set] at he
      split at he
      · cases he
        exact hclass
      · exact h.classes e c he
  · rename_i hd
    rw [Dictionary.containsKey_iff] at hd
    exact addPoint_coherent h hd hclass

theorem addSample_keepsIndices : KeepsIndices s (s.addSample d classAttr) := by
  rw [addSample]
  split
  · exact KeepsIndices.refl s
  · rename_i hd
    rw [Dictionary.containsKey_iff] at hd
    exact addPoint_keepsIndices hd

@[simp] theorem addSample_implications :
    (s.addSample d classAttr).implications = s.implications := by
  rw [addSample]
  split
  · rfl
  · rfl

theorem addSample_points {e : DataPoint}
    (he : e ∈ (s.addSample d classAttr).samplePointToClassAttr.keys) :
    e ∈ s.samplePointToClassAttr.keys ∨ e = d := by
  rw [addSample] at he
  split at he
  · exact Dictionary.mem_keys_set.mp he
  · exact Dictionary.mem_keys_set.mp he

structure Adds (s : SampleTables) (d : DataPoint) (r : Nat × SampleTables) :
    Prop where
  coherent : r.2.Coherent
  index : r.2.samplePointToIndex.tryGetValue d = some r.1
  keepsIndices : KeepsIndices s r.2
  keepsClasses : KeepsClasses s r.2
  implications : r.2.implications = s.implications
  points : forall e, e ∈ r.2.samplePointToClassAttr.keys ->
    e ∈ s.samplePointToClassAttr.keys ∨ e = d

theorem addUnknown_adds (h : s.Coherent) : Adds s d (s.addUnknown d) := by
  rw [addUnknown]
  split
  · rename_i index hindex
    exact ⟨h, hindex, KeepsIndices.refl s, fun _ _ hc => hc, rfl,
      fun _ he => Or.inl he⟩
  · rename_i hnone
    rw [Dictionary.tryGetValue_eq_none] at hnone
    exact ⟨addPoint_coherent h hnone (by decide),
      Dictionary.tryGetValue_set_self, addPoint_keepsIndices hnone,
      addPoint_keepsClasses h hnone, rfl,
      fun _ he => Dictionary.mem_keys_set.mp he⟩

theorem tryGetValue_addSample :
    (s.addSample d classAttr).samplePointToClassAttr.tryGetValue d = some classAttr := by
  rw [addSample]
  split
  · exact Dictionary.tryGetValue_set_self
  · exact Dictionary.tryGetValue_set_self

theorem tryGetValue_addUnknown (h : s.Coherent) (p : DataPoint) :
    (s.addUnknown d).2.samplePointToClassAttr.tryGetValue p =
      if p = d then some ((s.samplePointToClassAttr.tryGetValue p).getD unknown)
      else s.samplePointToClassAttr.tryGetValue p := by
  rw [addUnknown]
  split
  · rename_i index hindex
    split
    · rename_i hp
      have hd : d ∈ s.samplePointToClassAttr.keys := by
        rw [← h.sameKeys]
        exact Dictionary.mem_keys.mpr ⟨index, hindex⟩
      rcases Dictionary.mem_keys.mp hd with ⟨c, hc⟩
      rw [hp, hc]
      rfl
    · rfl
  · rename_i hnone
    rw [Dictionary.tryGetValue_eq_none, h.sameKeys, ← Dictionary.tryGetValue_eq_none] at hnone
    rw [addPoint, Dictionary.tryGetValue_set]
    split
    · rename_i hp
      rw [hp, hnone]
      rfl
    · rfl

theorem addImplication_coherent {t : Nat × Nat} (h : s.Coherent) :
    (s.addImplication t).Coherent :=
  ⟨h.sameKeys, h.numbered, h.counted, h.classes⟩

end Steps

/-!
# Recording
-/

def implicationOf (cex : Cex × Bool) : Option (DataPoint × DataPoint) :=
  if cex.1.IsImplication ∧ cex.2 = true then do
    let antecedent <- cex.1.kept
    let consequent <- cex.1.asserted
    return (antecedent, consequent)
  else none

def RefersTo (s : SampleTables) (t : Nat × Nat) (p : DataPoint × DataPoint) :
    Prop :=
  s.samplePointToIndex.tryGetValue p.1 = some t.1 ∧
    s.samplePointToIndex.tryGetValue p.2 = some t.2

structure Records (cex : Cex × Bool) (s s' : SampleTables) : Prop where
  coherent : s'.Coherent
  keepsIndices : KeepsIndices s s'
  keepsClasses : cex.1.IsImplication -> KeepsClasses s s'
  implications : exists ts, s'.implications = s.implications ++ ts ∧
    List.Forall₂ s'.RefersTo ts (implicationOf cex).toList
  points : forall d, d ∈ s'.samplePointToClassAttr.keys ->
    d ∈ s.samplePointToClassAttr.keys ∨ cex.1.kept = some d ∨
      cex.1.asserted = some d

theorem addSample_records {cex : Cex × Bool} {s : SampleTables} {d : DataPoint}
    {classAttr : Nat} (h : s.Coherent) (hclass : classAttr ≤ negative)
    (hcex : ¬ cex.1.IsImplication) (hd : cex.1.kept = some d ∨ cex.1.asserted = some d) :
    Records cex s (s.addSample d classAttr) where
  coherent := addSample_coherent h hclass
  keepsIndices := addSample_keepsIndices
  keepsClasses := fun himplication => absurd himplication hcex
  implications := by
    have hnone : implicationOf cex = none := if_neg (fun hc => hcex hc.1)
    rw [hnone, addSample_implications]
    exact ⟨[], (List.append_nil _).symm, List.Forall₂.nil⟩
  points := by
    intro e he
    rcases addSample_points he with hold | rfl
    · exact Or.inl hold
    · exact Or.inr hd

theorem addUnknown_records {cex : Cex × Bool} {s : SampleTables}
    {d e : DataPoint} (h : s.Coherent) (himplication : cex.1.IsImplication)
    (hkept : cex.1.kept = some d) (hasserted : cex.1.asserted = some e) :
    Records cex s (if cex.2 = true then
        ((s.addUnknown d).2.addUnknown e).2.addImplication
          ((s.addUnknown d).1, ((s.addUnknown d).2.addUnknown e).1)
      else ((s.addUnknown d).2.addUnknown e).2) := by
  have hd : Adds s d (s.addUnknown d) := addUnknown_adds h
  have he := addUnknown_adds (d := e) hd.coherent
  have hindices := hd.keepsIndices.trans he.keepsIndices
  have hclasses : KeepsClasses s ((s.addUnknown d).2.addUnknown e).2 :=
    fun p c hp => he.keepsClasses p c (hd.keepsClasses p c hp)
  have himplications := he.implications.trans hd.implications
  have hpoints : forall p,
      p ∈ ((s.addUnknown d).2.addUnknown e).2.samplePointToClassAttr.keys ->
        p ∈ s.samplePointToClassAttr.keys ∨ cex.1.kept = some p ∨
          cex.1.asserted = some p := by
    intro p hp
    rcases he.points p hp with hp | rfl
    · rcases hd.points p hp with hp | rfl
      · exact Or.inl hp
      · exact Or.inr (Or.inl hkept)
    · exact Or.inr (Or.inr hasserted)
  cases hflag : cex.2 with
  | false =>
    have hnone : implicationOf cex = none := by
      rw [implicationOf, hflag]
      simp
    rw [if_neg (by simp)]
    constructor
    · exact he.coherent
    · exact hindices
    · exact fun _ => hclasses
    · rw [hnone, himplications]
      exact ⟨[], (List.append_nil _).symm, List.Forall₂.nil⟩
    · exact hpoints
  | true =>
    have hsome : implicationOf cex = some (d, e) := by
      rw [implicationOf, if_pos ⟨himplication, hflag⟩, hkept, hasserted]
      rfl
    rw [if_pos rfl]
    constructor
    · exact addImplication_coherent he.coherent
    · exact hindices
    · exact fun _ => hclasses
    · rw [hsome, addImplication, himplications]
      exact ⟨_, rfl, List.Forall₂.cons
        ⟨he.keepsIndices d _ hd.index, he.index⟩ List.Forall₂.nil⟩
    · exact hpoints

theorem recordCexForC5_records {cex : Cex × Bool} {s s' : SampleTables}
    (h : s.Coherent) (hs : recordCexForC5 cex.1 cex.2 s = some s') :
    Records cex s s' := by
  unfold recordCexForC5 at hs
  split at hs
  · rename_i hlhs
    rcases Option.bind_eq_some_iff.mp hs with ⟨call, hcall, hs⟩
    rcases Option.bind_eq_some_iff.mp hs with ⟨d, hd, hs⟩
    cases hs
    apply addSample_records h (by decide)
    · intro himplication
      exact himplication.1 (List.length_eq_zero_iff.mp hlhs)
    · rw [Cex.asserted, hcall]
      exact Or.inr hd
  · rename_i hlhs
    split at hs
    · rename_i hrhs
      rcases Option.bind_eq_some_iff.mp hs with ⟨call, hcall, hs⟩
      rcases Option.bind_eq_some_iff.mp hs with ⟨d, hd, hs⟩
      cases hs
      apply addSample_records h (by decide)
      · intro himplication
        exact himplication.2 (List.length_eq_zero_iff.mp hrhs)
      · rw [Cex.kept, hcall]
        exact Or.inl hd
    · rename_i hrhs
      rcases Option.bind_eq_some_iff.mp hs with ⟨call, hcall, hs⟩
      rcases Option.bind_eq_some_iff.mp hs with ⟨d, hd, hs⟩
      rcases Option.bind_eq_some_iff.mp hs with ⟨call', hcall', hs⟩
      rcases Option.bind_eq_some_iff.mp hs with ⟨e, he, hs⟩
      cases hs
      have hkept : cex.1.kept = some d := by
        rw [Cex.kept, hcall]
        exact hd
      have hasserted : cex.1.asserted = some e := by
        rw [Cex.asserted, hcall']
        exact he
      exact addUnknown_records h
        ⟨fun hnil => hlhs (by rw [hnil]; rfl),
          fun hnil => hrhs (by rw [hnil]; rfl)⟩ hkept hasserted

/-- The points of a counterexample are in the tables, a single one with its label and
those of an implication with the label that they had. -/
structure Labels (cex : Cex × Bool) (s s' : SampleTables) : Prop where
  positive : cex.1.lhs = [] -> exists d, cex.1.asserted = some d ∧
    s'.samplePointToClassAttr.tryGetValue d = some MLHoudini.positive
  negative : cex.1.lhs ≠ [] -> cex.1.rhs = [] -> exists d, cex.1.kept = some d ∧
    s'.samplePointToClassAttr.tryGetValue d = some MLHoudini.negative
  implication : cex.1.IsImplication -> exists d e, cex.1.kept = some d ∧
    cex.1.asserted = some e ∧ forall p, p = d ∨ p = e ->
      s'.samplePointToClassAttr.tryGetValue p =
        some ((s.samplePointToClassAttr.tryGetValue p).getD unknown)

theorem recordCexForC5_labels {cex : Cex × Bool} {s s' : SampleTables}
    (h : s.Coherent) (hs : recordCexForC5 cex.1 cex.2 s = some s') :
    Labels cex s s' := by
  unfold recordCexForC5 at hs
  split at hs
  · rename_i hlhs
    rw [List.length_eq_zero_iff] at hlhs
    rcases Option.bind_eq_some_iff.mp hs with ⟨call, hcall, hs⟩
    rcases Option.bind_eq_some_iff.mp hs with ⟨d, hd, hs⟩
    cases hs
    refine ⟨?_, fun hne => absurd hlhs hne, fun himplication => absurd hlhs himplication.1⟩
    intro _
    exists d
    constructor
    · rw [Cex.asserted, hcall]
      exact hd
    · exact tryGetValue_addSample
  · rename_i hlhs
    rw [List.length_eq_zero_iff] at hlhs
    split at hs
    · rename_i hrhs
      rw [List.length_eq_zero_iff] at hrhs
      rcases Option.bind_eq_some_iff.mp hs with ⟨call, hcall, hs⟩
      rcases Option.bind_eq_some_iff.mp hs with ⟨d, hd, hs⟩
      cases hs
      refine ⟨fun heq => absurd heq hlhs, ?_,
        fun himplication => absurd hrhs himplication.2⟩
      intro _ _
      exists d
      constructor
      · rw [Cex.kept, hcall]
        exact hd
      · exact tryGetValue_addSample
    · rename_i hrhs
      rw [List.length_eq_zero_iff] at hrhs
      rcases Option.bind_eq_some_iff.mp hs with ⟨call, hcall, hs⟩
      rcases Option.bind_eq_some_iff.mp hs with ⟨d, hd, hs⟩
      rcases Option.bind_eq_some_iff.mp hs with ⟨call', hcall', hs⟩
      rcases Option.bind_eq_some_iff.mp hs with ⟨e, he, hs⟩
      cases hs
      refine ⟨fun heq => absurd heq hlhs, fun _ heq => absurd heq hrhs, ?_⟩
      intro _
      refine ⟨d, e, ?_, ?_, ?_⟩
      · rw [Cex.kept, hcall]
        exact hd
      · rw [Cex.asserted, hcall']
        exact he
      · intro p hp
        have hboth : ((s.addUnknown d).2.addUnknown e).2.samplePointToClassAttr.tryGetValue p =
            some ((s.samplePointToClassAttr.tryGetValue p).getD unknown) := by
          rw [tryGetValue_addUnknown (addUnknown_adds h).coherent, tryGetValue_addUnknown h]
          by_cases hpd : p = d
          · simp [hpd]
          · rw [if_pos (hp.resolve_left hpd), if_neg hpd]
        cases cex.2 with
        | false => exact hboth
        | true => exact hboth

structure RecordsAll (cexs : List (Cex × Bool)) (s s' : SampleTables) :
    Prop where
  coherent : s'.Coherent
  keepsIndices : KeepsIndices s s'
  implications : exists ts, s'.implications = s.implications ++ ts ∧
    List.Forall₂ s'.RefersTo ts (cexs.filterMap implicationOf)
  points : forall d, d ∈ s'.samplePointToClassAttr.keys ->
    d ∈ s.samplePointToClassAttr.keys ∨ exists cex, cex ∈ cexs ∧
      (cex.1.kept = some d ∨ cex.1.asserted = some d)

theorem recordAll_records {cexs : List (Cex × Bool)} {s s' : SampleTables}
    (h : s.Coherent) (hs : recordAll cexs s = some s') :
    RecordsAll cexs s s' := by
  induction cexs generalizing s with
  | nil =>
    cases hs
    exact ⟨h, KeepsIndices.refl _, ⟨[], (List.append_nil _).symm,
      List.Forall₂.nil⟩, fun _ hd => Or.inl hd⟩
  | cons cex cexs ih =>
    rw [recordAll, List.foldlM_cons] at hs
    rcases Option.bind_eq_some_iff.mp hs with ⟨s₁, hs₁, hs⟩
    have hfirst := recordCexForC5_records h hs₁
    have hrest := ih hfirst.coherent hs
    rcases hfirst.implications with ⟨ts, hts, hrefers⟩
    rcases hrest.implications with ⟨us, hus, hrefers'⟩
    constructor
    · exact hrest.coherent
    · exact hfirst.keepsIndices.trans hrest.keepsIndices
    · have hold : List.Forall₂ s'.RefersTo ts (implicationOf cex).toList :=
        hrefers.imp (fun t p ht => ⟨hrest.keepsIndices p.1 t.1 ht.1,
          hrest.keepsIndices p.2 t.2 ht.2⟩)
      have hpoints : (cex :: cexs).filterMap implicationOf =
          (implicationOf cex).toList ++ cexs.filterMap implicationOf := by
        rw [List.filterMap_cons]
        cases implicationOf cex with
        | none => rfl
        | some p => rfl
      rw [hpoints]
      exact ⟨ts ++ us, by rw [hus, hts, List.append_assoc],
        List.rel_append hold hrefers'⟩
    · intro d hd
      rcases hrest.points d hd with hd | ⟨c, hc, hd⟩
      · rcases hfirst.points d hd with hd | hd
        · exact Or.inl hd
        · exact Or.inr ⟨cex, List.mem_cons_self, hd⟩
      · exact Or.inr ⟨c, List.mem_cons_of_mem _ hc, hd⟩

end SampleTables

/-!
# The tables as functions
-/

structure SampleTables.Represents (t : SampleTables) (s : C5Samples) : Prop where
  classes : forall d,
    t.samplePointToClassAttr.tryGetValue d = s.samplePointToClassAttr d
  indices : forall d, t.samplePointToIndex.tryGetValue d = s.samplePointToIndex d
  implications : t.implications = s.implications
  dataPointsIndex : t.dataPointsIndex = s.dataPointsIndex

namespace SampleTables.Represents

variable {t : SampleTables} {s : C5Samples} {d e : DataPoint} {classAttr : Nat}

theorem empty : SampleTables.empty.Represents C5Samples.empty :=
  ⟨fun _ => rfl, fun _ => rfl, rfl, rfl⟩

theorem addPoint (h : t.Represents s) :
    (t.addPoint d classAttr).Represents ((s.addPoint d).setClass d classAttr) where
  classes := by
    intro e
    rw [SampleTables.addPoint, Dictionary.tryGetValue_set, h.classes]
    exact (Function.update_apply _ _ _ _).symm
  indices := by
    intro e
    rw [SampleTables.addPoint, Dictionary.tryGetValue_set, h.indices,
      h.dataPointsIndex]
    exact (Function.update_apply _ _ _ _).symm
  implications := h.implications
  dataPointsIndex := congrArg (· + 1) h.dataPointsIndex

theorem addSample (h : t.Represents s) :
    (t.addSample d classAttr).Represents (s.addSample d classAttr) := by
  rw [SampleTables.addSample, Dictionary.containsKey, h.indices,
    C5Samples.addSample]
  cases s.samplePointToIndex d with
  | none => exact h.addPoint
  | some i =>
    constructor
    · intro e
      show (t.samplePointToClassAttr.set d classAttr).tryGetValue e = _
      rw [Dictionary.tryGetValue_set, h.classes]
      exact (Function.update_apply _ _ _ _).symm
    · exact h.indices
    · exact h.implications
    · exact h.dataPointsIndex

theorem addUnknown (h : t.Represents s) :
    (t.addUnknown d).2.Represents (s.addUnknown d) := by
  rw [SampleTables.addUnknown, h.indices, C5Samples.addUnknown]
  cases s.samplePointToIndex d with
  | none => exact h.addPoint
  | some i => exact h

theorem addImplication (h : t.Represents s) {i j : Nat}
    (hd : t.samplePointToIndex.tryGetValue d = some i)
    (he : t.samplePointToIndex.tryGetValue e = some j) :
    (t.addImplication (i, j)).Represents (s.addImplication d e) := by
  rw [h.indices] at hd he
  rw [C5Samples.addImplication]
  split
  · rename_i i' j' hi' hj'
    rw [hd] at hi'
    rw [he] at hj'
    cases hi'
    cases hj'
    constructor
    · exact h.classes
    · exact h.indices
    · exact congrArg (· ++ [(i, j)]) h.implications
    · exact h.dataPointsIndex
  · rename_i hnot
    exact absurd he (hnot i j hd)

theorem recordCexForC5 {cex : Cex} {recordImplications : Bool}
    (h : t.Represents s) (hcoherent : t.Coherent) :
    Option.Rel SampleTables.Represents (t.recordCexForC5 cex recordImplications)
      (MLHoudini.recordCexForC5 cex recordImplications s) := by
  unfold SampleTables.recordCexForC5 MLHoudini.recordCexForC5
  split
  · cases cex.rhs[0]? with
    | none => exact Option.Rel.none
    | some call =>
      cases hd : call.dataPoint with
      | none => simp [hd]
      | some d => simpa [hd] using Option.Rel.some h.addSample
  · split
    · cases (lastOnly cex.lhs)[0]? with
      | none => exact Option.Rel.none
      | some call =>
        cases hd : call.dataPoint with
        | none => simp [hd]
        | some d => simpa [hd] using Option.Rel.some h.addSample
    · rcases (lastOnly cex.lhs)[0]? with _ | call
      · exact Option.Rel.none
      rcases hd : call.dataPoint with _ | d
      · simp [hd]
      rcases cex.rhs[0]? with _ | call'
      · simp
      rcases he : call'.dataPoint with _ | e
      · simp [he]
      have hadds := addUnknown_adds (d := d) hcoherent
      have hadds' := addUnknown_adds (d := e) hadds.coherent
      cases recordImplications with
      | false =>
        simpa [hd, he] using Option.Rel.some h.addUnknown.addUnknown
      | true =>
        simpa [hd, he] using Option.Rel.some
          (h.addUnknown.addUnknown.addImplication
            (hadds'.keepsIndices d _ hadds.index) hadds'.index)

end SampleTables.Represents

/-!
# Points of calls
-/

namespace DeclaredFunctions

def IsCall (fs : DeclaredFunctions) (call : CallState) : Prop :=
  exists F, F ∈ fs.functions ∧ F.name = call.1 ∧
    F.inParams.length = call.2.length

def HasPoint (fs : DeclaredFunctions) (p : DataPoint) : Prop :=
  exists F, F ∈ fs.functions ∧ F.name = p.functionName ∧
    F.inParams.length = p.value.length

def CallsOf (fs : DeclaredFunctions) (cexs : List (Cex × Bool)) : Prop :=
  forall cex, cex ∈ cexs -> forall call, call ∈ cex.1.lhs ∨ call ∈ cex.1.rhs ->
    fs.IsCall call

theorem IsCall.hasPoint {fs : DeclaredFunctions} {call : CallState}
    {p : DataPoint} (h : fs.IsCall call) (hp : call.dataPoint = some p) :
    fs.HasPoint p := by
  rcases h with ⟨F, hF, hname, hlength⟩
  rcases Option.map_eq_some_iff.mp hp with ⟨value, hvalue, rfl⟩
  have hmap : forall (lm : List Model.Element) (value : List Int),
      lm.mapM encodeElement = some value -> lm.length = value.length := by
    intro lm
    induction lm with
    | nil =>
      intro value hvalue
      cases hvalue
      rfl
    | cons m lm ih =>
      intro value hvalue
      simp only [List.mapM_cons, Option.pure_def, Option.bind_eq_bind,
        Option.bind_eq_some_iff, Option.some.injEq] at hvalue
      rcases hvalue with ⟨n, _, ns, hns, rfl⟩
      rw [List.length_cons, List.length_cons, ih ns hns]
  exact ⟨F, hF, hname, hlength.trans (hmap call.2 value hvalue)⟩

theorem HasPoint.identifier {fs : DeclaredFunctions} {p : DataPoint}
    (h : fs.HasPoint p) : IsIdentifier p.functionName := by
  rcases h with ⟨F, _, hname, _⟩
  rw [← hname]
  exact F.identifier

theorem mem_of_mem_lastOnly {lhs : List CallState} {call : CallState}
    (h : call ∈ lastOnly lhs) : call ∈ lhs := by
  unfold lastOnly at h
  split at h
  · exact List.mem_of_mem_drop h
  · exact h

theorem CallsOf.hasPoint {fs : DeclaredFunctions} {cexs : List (Cex × Bool)}
    {s : SampleTables} (hcalls : fs.CallsOf cexs)
    (hs : SampleTables.RecordsAll cexs .empty s) {p : DataPoint}
    (hp : p ∈ s.samplePointToClassAttr.keys) : fs.HasPoint p := by
  rcases hs.points p hp with hold | ⟨cex, hcex, hkept | hasserted⟩
  · cases hold
  · rcases Option.bind_eq_some_iff.mp hkept with ⟨call, hcall, hd⟩
    exact (hcalls cex hcex call (Or.inl
      (mem_of_mem_lastOnly (List.mem_of_getElem? hcall)))).hasPoint hd
  · rcases Option.bind_eq_some_iff.mp hasserted with ⟨call, hcall, hd⟩
    exact (hcalls cex hcex call (Or.inr
      (List.mem_of_getElem? hcall))).hasPoint hd

end DeclaredFunctions

/-!
# Contents of the files
-/

theorem lines_writeLine {newLine : NewLine} {rows : List String}
    (h : forall row, row ∈ rows -> '\n' ∉ row.toList) :
    Text.lines (writeLine newLine (Text.unlines rows)) = rows ++ [newLine.carriage, ""] := by
  have hend : Text.lines newLine.text = [newLine.carriage, ""] := by
    cases newLine with
    | lf => decide
    | crlf => decide
  rw [writeLine, Text.lines_unlines_append h, hend]

namespace SampleTables

def rows (fs : DeclaredFunctions) (s : SampleTables) : List String :=
  s.samplePointToClassAttr.entries.map (fun e => row fs e.1 e.2)

theorem generateC5Files_data {newLine : NewLine} {fs : DeclaredFunctions}
    {s : SampleTables} (h : s.Coherent) :
    (generateC5Files newLine fs s).data = writeLine newLine (Text.unlines (s.rows fs)) := by
  have hfold : forall (entries : List (DataPoint × Nat)) (dataFile : String),
      (forall e, e ∈ entries -> e.2 ≤ negative) ->
        entries.foldl
          (fun dataFile model =>
            dataFile ++ outputDataPoint fs model.1 ++ classSuffix model.2)
          dataFile =
          dataFile ++ Text.unlines (entries.map (fun e => row fs e.1 e.2)) := by
    intro entries
    induction entries with
    | nil =>
      intro dataFile _
      exact (String.append_empty).symm
    | cons e entries ih =>
      intro dataFile hclasses
      rw [List.foldl_cons,
        ih _ (fun e' he' => hclasses e' (List.mem_cons_of_mem _ he')),
        classSuffix_eq (hclasses e List.mem_cons_self), List.map_cons,
        Text.unlines, row]
      simp only [String.append_assoc]
  have hclasses : forall e, e ∈ s.samplePointToClassAttr.entries ->
      e.2 ≤ negative :=
    fun e he => h.classes e.1 e.2 (Dictionary.tryGetValue_eq_some.mpr he)
  rw [generateC5Files, hfold _ _ hclasses, String.empty_append, rows]

theorem generateC5Files_implications {newLine : NewLine}
    {fs : DeclaredFunctions} {s : SampleTables} :
    (generateC5Files newLine fs s).implications =
      writeLine newLine (Text.unlines (s.implications.map pairLine)) := by
  have hfold : forall (ts : List (Nat × Nat)) (implicationsFile : String),
      ts.foldl
        (fun implicationsFile implication =>
          implicationsFile ++ toString implication.1 ++ " " ++
            toString implication.2 ++ "\n") implicationsFile =
        implicationsFile ++ Text.unlines (ts.map pairLine) := by
    intro ts
    induction ts with
    | nil =>
      intro implicationsFile
      exact (String.append_empty).symm
    | cons t ts ih =>
      intro implicationsFile
      rw [List.foldl_cons, ih, List.map_cons, Text.unlines, pairLine]
      simp only [String.append_assoc]
  rw [generateC5Files, hfold, String.empty_append]

theorem lines_implications {newLine : NewLine} {fs : DeclaredFunctions}
    {s : SampleTables} :
    Text.lines (generateC5Files newLine fs s).implications =
      s.implications.map pairLine ++ [newLine.carriage, ""] := by
  rw [generateC5Files_implications]
  apply lines_writeLine
  intro line hline
  rcases List.mem_map.mp hline with ⟨t, _, rfl⟩
  exact not_mem_pairLine

theorem lines_data {newLine : NewLine} {fs : DeclaredFunctions}
    {s : SampleTables} (h : s.Coherent)
    (hpoints : forall p, p ∈ s.samplePointToClassAttr.keys -> fs.HasPoint p) :
    Text.lines (generateC5Files newLine fs s).data = s.rows fs ++ [newLine.carriage, ""] := by
  rw [generateC5Files_data h]
  apply lines_writeLine
  intro line hline
  rcases List.mem_map.mp hline with ⟨e, he, rfl⟩
  exact not_mem_row (hpoints e.1 (List.mem_map_of_mem he)).identifier

theorem rows_getElem? {fs : DeclaredFunctions} {s : SampleTables}
    (h : s.Coherent) {d : DataPoint} {i c : Nat} (hi : s.samplePointToIndex.tryGetValue d = some i)
    (hc : s.samplePointToClassAttr.tryGetValue d = some c) :
    (s.rows fs)[i]? = some (row fs d c) := by
  have hkey := (h.numbered d i).mp hi
  rw [h.sameKeys, Dictionary.keys, List.getElem?_map] at hkey
  rcases Option.map_eq_some_iff.mp hkey with ⟨e, he, rfl⟩
  have hvalue : s.samplePointToClassAttr.tryGetValue e.1 = some e.2 :=
    Dictionary.tryGetValue_eq_some.mpr (List.mem_of_getElem? he)
  rw [hvalue] at hc
  cases hc
  rw [rows, List.getElem?_map, he, Option.map_some]

theorem length_rows {fs : DeclaredFunctions} {s : SampleTables}
    (h : s.Coherent) : (s.rows fs).length = s.samplePointToIndex.count := by
  rw [rows, List.length_map, ← Dictionary.length_keys, h.sameKeys,
    Dictionary.length_keys, Dictionary.count]

/-- The tables agree with each other and with the files written from them. -/
structure Agree (newLine : NewLine) (fs : DeclaredFunctions)
    (cexs : List (Cex × Bool)) (s : SampleTables) : Prop where
  sameKeys : forall d, d ∈ s.samplePointToClassAttr.keys <->
    d ∈ s.samplePointToIndex.keys
  bounded : forall d i, s.samplePointToIndex.tryGetValue d = some i ->
    i < s.samplePointToIndex.count
  injective : forall d e i, s.samplePointToIndex.tryGetValue d = some i ->
    s.samplePointToIndex.tryGetValue e = some i -> d = e
  surjective : forall i, i < s.samplePointToIndex.count ->
    exists d, s.samplePointToIndex.tryGetValue d = some i
  stable : forall more s', recordAll more s = some s' -> KeepsIndices s s'
  rows : exists rows : List String,
    Text.lines (generateC5Files newLine fs s).data =
      rows ++ [newLine.carriage, ""] ∧
    rows.length = s.samplePointToIndex.count ∧
    forall d i c, s.samplePointToIndex.tryGetValue d = some i ->
      s.samplePointToClassAttr.tryGetValue d = some c ->
        rows[i]? = some (row fs d c)
  keepsClasses : forall (cex : Cex × Bool) s', cex.1.IsImplication ->
    recordCexForC5 cex.1 cex.2 s = some s' -> KeepsClasses s s'
  labels : forall (cex : Cex × Bool) s',
    recordCexForC5 cex.1 cex.2 s = some s' -> Labels cex s s'
  implications : List.Forall₂ s.RefersTo s.implications
    (cexs.filterMap implicationOf)
  implicationLines : Text.lines (generateC5Files newLine fs s).implications =
    s.implications.map pairLine ++ [newLine.carriage, ""]

/-- Whatever counterexamples were recorded, tables and files agree. -/
theorem recordAll_agree {newLine : NewLine} {fs : DeclaredFunctions}
    {cexs : List (Cex × Bool)} {s : SampleTables} (hcalls : fs.CallsOf cexs)
    (hs : recordAll cexs empty = some s) : Agree newLine fs cexs s := by
  have h := recordAll_records empty_coherent hs
  constructor
  · intro d
    rw [h.coherent.sameKeys]
  · exact fun d i hd => h.coherent.numbered.lt_count hd
  · exact fun d e i hd he => h.coherent.numbered.injective hd he
  · exact fun i hi => h.coherent.numbered.surjective hi
  · exact fun more s' hmore => (recordAll_records h.coherent hmore).keepsIndices
  · exact ⟨s.rows fs, lines_data h.coherent (fun p => hcalls.hasPoint h),
      length_rows h.coherent, fun d i c => rows_getElem? h.coherent⟩
  · exact fun cex s' himplication hcex =>
      (recordCexForC5_records h.coherent hcex).keepsClasses himplication
  · exact fun cex s' hcex => recordCexForC5_labels h.coherent hcex
  · rcases h.implications with ⟨ts, hts, hrefers⟩
    rw [hts]
    exact hrefers
  · exact lines_implications

theorem invParameter_types (p : TypedIdent) (hp : p ∈ [⟨"x", .int⟩]) :
    p.type = .bool ∨ p.type = .int := by
  rw [List.mem_singleton.mp hp]
  exact Or.inr rfl

def loopInvariant : DeclaredFunctions where
  functions :=
    [{ name := "inv"
       inParams := [⟨"x", .int⟩]
       types := invParameter_types
       registered := by decide
       identifier := by decide
       identifiers := by decide }]
  distinct := by decide

/-- A loop from zero, of which a step was found that is not covered. -/
def loopSamples : List (Cex × Bool) :=
  [(⟨[], [("inv", [.integer 0])]⟩, true),
    (⟨[("inv", [.integer 0])], [("inv", [.integer 1])]⟩, true)]

theorem loopSamples_calls : loopInvariant.CallsOf loopSamples := by
  intro cex hcex call hcall
  have hinv : call.1 = "inv" ∧ call.2.length = 1 := by
    simp only [loopSamples, List.mem_cons, List.not_mem_nil, or_false] at hcex
    rcases hcex with rfl | rfl
    · rcases hcall with hcall | hcall
      · cases hcall
      · rw [List.mem_singleton.mp hcall]
        exact ⟨rfl, rfl⟩
    · rcases hcall with hcall | hcall
      · rw [List.mem_singleton.mp hcall]
        exact ⟨rfl, rfl⟩
      · rw [List.mem_singleton.mp hcall]
        exact ⟨rfl, rfl⟩
  exact ⟨_, List.mem_singleton_self _, hinv.1.symm, hinv.2.symm⟩

theorem recordAll_agree_loop : exists s, recordAll loopSamples empty = some s ∧
      Agree .lf loopInvariant loopSamples s :=
  ⟨_, rfl, recordAll_agree loopSamples_calls rfl⟩

end SampleTables

end MLHoudini

end Boogie
