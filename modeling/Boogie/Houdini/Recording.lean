import Boogie.Houdini.MLHoudini

/-!
# Samples that a batch of counterexamples leaves

Positive and negative samples are recorded at once, implications only when the
batch has no other samples.  As long as no point is relabelled, no sample is
lost.
-/

namespace Boogie

namespace MLHoudini

/-!
# Satisfied samples
-/

structure Satisfies (accepts : DataPoint -> Prop) (s : C5Samples) : Prop where
  positive : forall d, s.samplePointToClassAttr d = some positive -> accepts d
  negative : forall d, s.samplePointToClassAttr d = some negative ->
    ¬ accepts d
  implication : forall d e i j, s.samplePointToIndex d = some i ->
    s.samplePointToIndex e = some j -> (i, j) ∈ s.implications ->
    accepts d -> accepts e

structure Extends (s s' : C5Samples) : Prop where
  positive : forall d, s.samplePointToClassAttr d = some positive ->
    s'.samplePointToClassAttr d = some MLHoudini.positive
  negative : forall d, s.samplePointToClassAttr d = some negative ->
    s'.samplePointToClassAttr d = some MLHoudini.negative
  index : forall d i, s.samplePointToIndex d = some i ->
    s'.samplePointToIndex d = some i
  implications : forall t, t ∈ s.implications -> t ∈ s'.implications

theorem Extends.refl (s : C5Samples) : Extends s s :=
  ⟨fun _ h => h, fun _ h => h, fun _ _ h => h, fun _ h => h⟩

theorem Extends.trans {s₁ s₂ s₃ : C5Samples} (h : Extends s₁ s₂)
    (h' : Extends s₂ s₃) : Extends s₁ s₃ where
  positive := fun d hd => h'.positive d (h.positive d hd)
  negative := fun d hd => h'.negative d (h.negative d hd)
  index := fun d i hd => h'.index d i (h.index d i hd)
  implications := fun t ht => h'.implications t (h.implications t ht)

theorem Satisfies.of_extends {accepts : DataPoint -> Prop} {s s' : C5Samples}
    (h : Satisfies accepts s') (hextends : Extends s s') :
    Satisfies accepts s where
  positive := fun d hd => h.positive d (hextends.positive d hd)
  negative := fun d hd => h.negative d (hextends.negative d hd)
  implication := by
    intro d e i j hd he ht
    exact h.implication d e i j (hextends.index d i hd)
      (hextends.index e j he) (hextends.implications _ ht)

def Indexed (s : C5Samples) : Prop :=
  forall d c, s.samplePointToClassAttr d = some c ->
    exists i, s.samplePointToIndex d = some i

/-!
# Recording
-/

section Recording

variable {s : C5Samples} {d e : DataPoint} {classAttr : Nat}

theorem addSample_class :
    (s.addSample d classAttr).samplePointToClassAttr =
      Function.update s.samplePointToClassAttr d (some classAttr) := by
  unfold C5Samples.addSample
  split
  · rfl
  · rfl

theorem addSample_index {i : Nat} (h : s.samplePointToIndex e = some i) :
    (s.addSample d classAttr).samplePointToIndex e = some i := by
  unfold C5Samples.addSample
  split
  · exact h
  · rename_i hnone
    have hne : e ≠ d := by
      intro heq
      rw [heq, hnone] at h
      cases h
    show Function.update s.samplePointToIndex d _ e = some i
    rw [Function.update_of_ne hne]
    exact h

theorem addSample_self :
    exists i, (s.addSample d classAttr).samplePointToIndex d = some i := by
  unfold C5Samples.addSample
  split
  · rename_i i hi
    exact ⟨i, hi⟩
  · exact ⟨_, Function.update_self _ _ _⟩

theorem addSample_implications :
    (s.addSample d classAttr).implications = s.implications := by
  unfold C5Samples.addSample
  split
  · rfl
  · rfl

theorem addSample_indexed (h : Indexed s) :
    Indexed (s.addSample d classAttr) := by
  intro e c hc
  by_cases he : e = d
  · rw [he]
    exact addSample_self
  · rw [addSample_class, Function.update_of_ne he] at hc
    rcases h e c hc with ⟨i, hi⟩
    exact ⟨i, addSample_index hi⟩

theorem addSample_extends (hpositive : s.samplePointToClassAttr d = some positive ->
      classAttr = positive) (hnegative : s.samplePointToClassAttr d = some negative ->
      classAttr = negative) : Extends s (s.addSample d classAttr) where
  positive := by
    intro e he
    rw [addSample_class]
    by_cases heq : e = d
    · subst heq
      rw [Function.update_self, hpositive he]
    · rw [Function.update_of_ne heq, he]
  negative := by
    intro e he
    rw [addSample_class]
    by_cases heq : e = d
    · subst heq
      rw [Function.update_self, hnegative he]
    · rw [Function.update_of_ne heq, he]
  index := fun e i => addSample_index
  implications := by
    intro t ht
    rw [addSample_implications]
    exact ht

theorem addUnknown_extends (h : Indexed s) : Extends s (s.addUnknown d) ∧ Indexed (s.addUnknown d) ∧
      exists i, (s.addUnknown d).samplePointToIndex d = some i := by
  unfold C5Samples.addUnknown
  cases hd : s.samplePointToIndex d with
  | some i => exact ⟨Extends.refl s, h, i, hd⟩
  | none =>
    have hnone : s.samplePointToClassAttr d = none := by
      cases hclass : s.samplePointToClassAttr d with
      | none => rfl
      | some c =>
        rcases h d c hclass with ⟨i, hi⟩
        rw [hd] at hi
        cases hi
    have hsample : (s.addPoint d).setClass d unknown =
        s.addSample d unknown := by
      rw [C5Samples.addSample, hd]
    simp only [hsample]
    refine ⟨addSample_extends ?_ ?_, addSample_indexed h, addSample_self⟩
    · intro hc
      rw [hnone] at hc
      cases hc
    · intro hc
      rw [hnone] at hc
      cases hc

theorem addImplication_extends (h : Indexed s) {i j : Nat} (hd : s.samplePointToIndex d = some i)
    (he : s.samplePointToIndex e = some j) :
    Extends s (s.addImplication d e) ∧ Indexed (s.addImplication d e) ∧
      (s.addImplication d e).samplePointToIndex = s.samplePointToIndex ∧
      (i, j) ∈ (s.addImplication d e).implications := by
  unfold C5Samples.addImplication
  split
  · rename_i i' j' hi' hj'
    rw [hd] at hi'
    rw [he] at hj'
    cases hi'
    cases hj'
    refine ⟨⟨fun _ h => h, fun _ h => h, fun _ _ h => h, ?_⟩, h, rfl, ?_⟩
    · exact fun t ht => List.mem_append_left _ ht
    · exact List.mem_append_right _ (List.mem_singleton.mpr rfl)
  · rename_i hnot
    exact absurd he (hnot i j hd)

end Recording

/-!
# Counterexamples of a batch
-/

namespace Cex

def kept (cex : Cex) : Option DataPoint := do
  (<- (lastOnly cex.lhs)[0]?).dataPoint

def asserted (cex : Cex) : Option DataPoint := do
  (<- cex.rhs[0]?).dataPoint

def PositiveAt (cex : Cex) (d : DataPoint) : Prop :=
  cex.lhs = [] ∧ cex.asserted = some d

def NegativeAt (cex : Cex) (d : DataPoint) : Prop :=
  cex.lhs ≠ [] ∧ cex.rhs = [] ∧ cex.kept = some d

def IsReal (cex : Cex) : Prop :=
  cex.lhs = [] ∧ cex.rhs = []

def IsImplication (cex : Cex) : Prop :=
  cex.lhs ≠ [] ∧ cex.rhs ≠ []

instance (cex : Cex) : Decidable cex.IsReal :=
  decidable_of_iff (cex.lhs.length = 0 ∧ cex.rhs.length = 0)
    (by simp [IsReal])

instance (cex : Cex) : Decidable cex.IsImplication :=
  decidable_of_iff (cex.lhs.length ≠ 0 ∧ cex.rhs.length ≠ 0)
    (by simp [IsImplication])

end Cex

structure RecordedIn (cex : Cex) (s : C5Samples) : Prop where
  positive : cex.lhs = [] -> cex.rhs ≠ [] -> exists d, cex.PositiveAt d ∧
    s.samplePointToClassAttr d = some MLHoudini.positive
  negative : cex.lhs ≠ [] -> cex.rhs = [] -> exists d, cex.NegativeAt d ∧
    s.samplePointToClassAttr d = some MLHoudini.negative
  implication : cex.IsImplication -> exists d e i j, cex.kept = some d ∧
    cex.asserted = some e ∧ s.samplePointToIndex d = some i ∧
      s.samplePointToIndex e = some j ∧ (i, j) ∈ s.implications

theorem RecordedIn.of_extends {cex : Cex} {s s' : C5Samples}
    (h : RecordedIn cex s) (hextends : Extends s s') : RecordedIn cex s' where
  positive := by
    intro hlhs hrhs
    rcases h.positive hlhs hrhs with ⟨d, hd, hclass⟩
    exact ⟨d, hd, hextends.positive d hclass⟩
  negative := by
    intro hlhs hrhs
    rcases h.negative hlhs hrhs with ⟨d, hd, hclass⟩
    exact ⟨d, hd, hextends.negative d hclass⟩
  implication := by
    intro himplication
    rcases h.implication himplication with ⟨d, e, i, j, hd, he, hi, hj, ht⟩
    exact ⟨d, e, i, j, hd, he, hextends.index d i hi, hextends.index e j hj,
      hextends.implications _ ht⟩

theorem addCounterExample_sample {cex : Cex} {s s' : C5Samples} (himplication : ¬ cex.IsImplication)
    (h : addCounterExample cex s = some s') :
    exists d classAttr, s' = s.addSample d classAttr ∧ ((cex.PositiveAt d ∧ classAttr = positive) ∨
        (cex.NegativeAt d ∧ classAttr = negative)) := by
  unfold addCounterExample recordCexForC5 at h
  split at h
  · rename_i hlhs
    rcases Option.bind_eq_some_iff.mp h with ⟨call, hcall, h⟩
    rcases Option.bind_eq_some_iff.mp h with ⟨d, hd, h⟩
    cases h
    have hasserted : cex.asserted = some d := by
      rw [Cex.asserted, hcall]
      exact hd
    exact ⟨d, positive, rfl,
      Or.inl ⟨⟨List.length_eq_zero_iff.mp hlhs, hasserted⟩, rfl⟩⟩
  · rename_i hlhs
    have hne : cex.lhs ≠ [] := fun hnil => hlhs (by rw [hnil]; rfl)
    have hrhs : cex.rhs = [] := by
      by_contra hrhs
      exact himplication ⟨hne, hrhs⟩
    rw [if_pos (by rw [hrhs]; rfl)] at h
    rcases Option.bind_eq_some_iff.mp h with ⟨call, hcall, h⟩
    rcases Option.bind_eq_some_iff.mp h with ⟨d, hd, h⟩
    cases h
    have hkept : cex.kept = some d := by
      rw [Cex.kept, hcall]
      exact hd
    exact ⟨d, negative, rfl, Or.inr ⟨⟨hne, hrhs, hkept⟩, rfl⟩⟩

theorem addCounterExample_implication {cex : Cex} {s s' : C5Samples}
    (hindexed : Indexed s) (himplication : cex.IsImplication)
    (h : addCounterExample cex s = some s') :
    Extends s s' ∧ Indexed s' ∧ RecordedIn cex s' := by
  unfold addCounterExample recordCexForC5 at h
  rw [if_neg (by simpa using himplication.1),
    if_neg (by simpa using himplication.2)] at h
  rcases Option.bind_eq_some_iff.mp h with ⟨call, hcall, h⟩
  rcases Option.bind_eq_some_iff.mp h with ⟨d, hd, h⟩
  rcases Option.bind_eq_some_iff.mp h with ⟨call', hcall', h⟩
  rcases Option.bind_eq_some_iff.mp h with ⟨e, he, h⟩
  simp only [if_true] at h
  cases h
  have hkept : cex.kept = some d := by
    rw [Cex.kept, hcall]
    exact hd
  have hasserted : cex.asserted = some e := by
    rw [Cex.asserted, hcall']
    exact he
  rcases addUnknown_extends (d := d) hindexed with ⟨hextends₁, hindexed₁, i, hi⟩
  rcases addUnknown_extends (d := e) hindexed₁ with
    ⟨hextends₂, hindexed₂, j, hj⟩
  have hi' := hextends₂.index d i hi
  rcases addImplication_extends hindexed₂ hi' hj with
    ⟨hextends₃, hindexed₃, hindex, hmem⟩
  refine ⟨(hextends₁.trans hextends₂).trans hextends₃, hindexed₃, ?_⟩
  constructor
  · intro hlhs _
    exact absurd hlhs himplication.1
  · intro _ hrhs
    exact absurd hrhs himplication.2
  · intro _
    rw [hindex]
    exact ⟨d, e, i, j, hkept, hasserted, hi', hj, hmem⟩

/--
No counterexample contradicts a sample that was recorded before or another one
of the batch.
-/
structure Compatible (s : C5Samples) (cexs : List Cex) : Prop where
  positive : forall cex, cex ∈ cexs -> forall d, cex.PositiveAt d ->
    s.samplePointToClassAttr d ≠ some negative
  negative : forall cex, cex ∈ cexs -> forall d, cex.NegativeAt d ->
    s.samplePointToClassAttr d ≠ some MLHoudini.positive
  batch : forall cex cex', cex ∈ cexs -> cex' ∈ cexs -> forall d,
    cex.PositiveAt d -> ¬ cex'.NegativeAt d

theorem Compatible.tail {s : C5Samples} {cex : Cex} {cexs : List Cex}
    (h : Compatible s (cex :: cexs)) : Compatible s cexs where
  positive := fun c hc => h.positive c (List.mem_cons_of_mem cex hc)
  negative := fun c hc => h.negative c (List.mem_cons_of_mem cex hc)
  batch := fun c c' hc hc' => h.batch c c' (List.mem_cons_of_mem cex hc)
    (List.mem_cons_of_mem cex hc')

theorem Compatible.record {s s' : C5Samples} {cex : Cex} {cexs : List Cex}
    (h : Compatible s (cex :: cexs)) (hindexed : Indexed s) (himplication : ¬ cex.IsImplication)
    (hs' : addCounterExample cex s = some s') :
    Extends s s' ∧ Indexed s' ∧ RecordedIn cex s' ∧ Compatible s' cexs := by
  rcases addCounterExample_sample himplication hs' with
    ⟨d, classAttr, rfl, hkind⟩
  have hself : cex ∈ cex :: cexs := List.mem_cons_self
  have hclass : forall e c,
      (s.addSample d classAttr).samplePointToClassAttr e = some c ->
        s.samplePointToClassAttr e = some c ∨ (e = d ∧ c = classAttr) := by
    intro e c hc
    rw [addSample_class] at hc
    by_cases he : e = d
    · subst he
      rw [Function.update_self] at hc
      exact Or.inr ⟨rfl, (Option.some.inj hc).symm⟩
    · rw [Function.update_of_ne he] at hc
      exact Or.inl hc
  have hsample : (s.addSample d classAttr).samplePointToClassAttr d =
      some classAttr := by
    rw [addSample_class, Function.update_self]
  rcases hkind with ⟨hpos, rfl⟩ | ⟨hneg, rfl⟩
  · refine ⟨addSample_extends (fun _ => rfl) ?_, addSample_indexed hindexed,
      ⟨?_, ?_, fun himp => absurd himp himplication⟩, ?_, ?_, h.tail.batch⟩
    · intro hold
      exact absurd hold (h.positive cex hself d hpos)
    · intro _ _
      exact ⟨d, hpos, hsample⟩
    · intro hlhs _
      exact absurd hpos.1 hlhs
    · intro c hc e he hold
      rcases hclass e _ hold with hold | ⟨_, hne⟩
      · exact h.tail.positive c hc e he hold
      · cases hne
    · intro c hc e he hold
      rcases hclass e _ hold with hold | ⟨rfl, _⟩
      · exact h.tail.negative c hc e he hold
      · exact h.batch cex c hself (List.mem_cons_of_mem cex hc) e hpos he
  · refine ⟨addSample_extends ?_ (fun _ => rfl), addSample_indexed hindexed,
      ⟨?_, ?_, fun himp => absurd himp himplication⟩, ?_, ?_, h.tail.batch⟩
    · intro hold
      exact absurd hold (h.negative cex hself d hneg)
    · intro hlhs _
      exact absurd hlhs hneg.1
    · intro _ _
      exact ⟨d, hneg, hsample⟩
    · intro c hc e he hold
      rcases hclass e _ hold with hold | ⟨rfl, _⟩
      · exact h.tail.positive c hc e he hold
      · exact h.batch c cex (List.mem_cons_of_mem cex hc) hself e he hneg
    · intro c hc e he hold
      rcases hclass e _ hold with hold | ⟨_, hne⟩
      · exact h.tail.negative c hc e he hold
      · cases hne

/-!
# Batches
-/

open MLHoudiniCounterexampleCollector

structure Collected (cexs : List Cex)
    (collector : MLHoudiniCounterexampleCollector) (s : SampleState)
    (collector' : MLHoudiniCounterexampleCollector) (s' : SampleState) :
    Prop where
  growth : Extends s.samples s'.samples
  indexed : Indexed s'.samples
  recorded : forall cex, cex ∈ cexs -> ¬ cex.IsImplication ->
    RecordedIn cex s'.samples
  waiting : s'.implicationCounterExamples =
    s.implicationCounterExamples ++ cexs.filter (fun cex => cex.IsImplication)
  realErrors : collector'.realErrors =
    collector.realErrors ++ cexs.filter (fun cex => cex.IsReal)
  conjectureErrors : collector'.conjectureErrors = collector.conjectureErrors ++
    cexs.filter (fun cex => ¬ cex.IsReal ∧ ¬ cex.IsImplication)

section Batch

variable {cex : Cex} {cexs : List Cex}
  {collector collector' : MLHoudiniCounterexampleCollector}
  {s s' : SampleState}

theorem handleCounterExample_real (h : cex.IsReal) :
    handleCounterExample cex s = some (.real, s) := by
  unfold handleCounterExample
  rw [if_pos (by simpa [Cex.IsReal] using h)]

theorem handleCounterExample_implication (h : cex.IsImplication) :
    handleCounterExample cex s = some (.implication,
      { s with
        implicationCounterExamples :=
          s.implicationCounterExamples ++ [cex] }) := by
  unfold handleCounterExample
  rw [if_neg (fun hreal => h.1 (List.length_eq_zero_iff.mp hreal.1)), if_neg]
  intro hempty
  rcases hempty with hlhs | hrhs
  · exact h.1 (List.length_eq_zero_iff.mp hlhs)
  · exact h.2 (List.length_eq_zero_iff.mp hrhs)

theorem handleCounterExample_conjecture (hreal : ¬ cex.IsReal)
    (himplication : ¬ cex.IsImplication) :
    handleCounterExample cex s = (addCounterExample cex s.samples).map
      (fun samples => (.conjecture, { s with samples := samples })) := by
  have hempty : cex.lhs.length = 0 ∨ cex.rhs.length = 0 := by
    by_contra hnot
    push Not at hnot
    apply himplication
    constructor
    · exact fun hnil => hnot.1 (by rw [hnil]; rfl)
    · exact fun hnil => hnot.2 (by rw [hnil]; rfl)
  unfold handleCounterExample
  rw [if_neg, if_pos hempty]
  · cases addCounterExample cex s.samples with
    | none => rfl
    | some samples => rfl
  · intro hnil
    exact hreal ⟨List.length_eq_zero_iff.mp hnil.1,
      List.length_eq_zero_iff.mp hnil.2⟩

theorem Cex.IsReal.recordedIn (h : cex.IsReal) {samples : C5Samples} :
    RecordedIn cex samples where
  positive := fun _ hrhs => absurd h.2 hrhs
  negative := fun hlhs _ => absurd h.1 hlhs
  implication := fun himplication => absurd h.1 himplication.1

theorem onCounterexample_spec (hcompatible : Compatible s.samples (cex :: cexs))
    (hindexed : Indexed s.samples)
    (h : onCounterexample cex (collector, s) = some (collector', s')) :
    Collected [cex] collector s collector' s' ∧ Compatible s'.samples cexs := by
  unfold onCounterexample at h
  by_cases hreal : cex.IsReal
  · have himplication : ¬ cex.IsImplication := fun h => h.1 hreal.1
    rw [handleCounterExample_real hreal] at h
    cases h
    refine ⟨⟨Extends.refl _, hindexed, ?_, ?_, ?_, ?_⟩, hcompatible.tail⟩
    · intro c hc _
      rw [List.mem_singleton.mp hc]
      exact hreal.recordedIn
    · simp [himplication]
    · simp [hreal]
    · simp [hreal]
  · by_cases himplication : cex.IsImplication
    · rw [handleCounterExample_implication himplication] at h
      cases h
      refine ⟨⟨Extends.refl _, hindexed, ?_, ?_, ?_, ?_⟩, hcompatible.tail⟩
      · intro c hc hnot
        rw [List.mem_singleton.mp hc] at hnot
        exact absurd himplication hnot
      · simp [himplication]
      · simp [hreal]
      · simp [himplication]
    · rw [handleCounterExample_conjecture hreal himplication] at h
      cases hadd : addCounterExample cex s.samples with
      | none =>
        rw [hadd] at h
        cases h
      | some samples =>
        rw [hadd] at h
        cases h
        rcases hcompatible.record hindexed himplication hadd with
          ⟨hextends, hindexed', hrecorded, hcompatible'⟩
        refine ⟨⟨hextends, hindexed', ?_, ?_, ?_, ?_⟩, hcompatible'⟩
        · intro c hc _
          rw [List.mem_singleton.mp hc]
          exact hrecorded
        · simp [himplication]
        · simp [hreal]
        · simp [hreal, himplication]

theorem foldlM_onCounterexample
    (hcompatible : Compatible s.samples cexs) (hindexed : Indexed s.samples)
    (h : cexs.foldlM (fun state cex => onCounterexample cex state)
      (collector, s) = some (collector', s')) :
    Collected cexs collector s collector' s' := by
  induction cexs generalizing collector s with
  | nil =>
    cases h
    exact ⟨Extends.refl _, hindexed, by simp, by simp, by simp, by simp⟩
  | cons cex cexs ih =>
    rw [List.foldlM_cons] at h
    rcases Option.bind_eq_some_iff.mp h with ⟨⟨collector₁, s₁⟩, hone, hrest⟩
    rcases onCounterexample_spec hcompatible hindexed hone with
      ⟨hfirst, hcompatible'⟩
    have hothers := ih hcompatible' hfirst.indexed hrest
    refine ⟨hfirst.growth.trans hothers.growth, hothers.indexed,
      ?_, ?_, ?_, ?_⟩
    · intro c hc himplication
      rcases List.mem_cons.mp hc with rfl | hc
      · exact (hfirst.recorded c (List.mem_singleton.mpr rfl)
          himplication).of_extends hothers.growth
      · exact hothers.recorded c hc himplication
    · rw [hothers.waiting, hfirst.waiting, List.append_assoc,
        ← List.filter_append]
      rfl
    · rw [hothers.realErrors, hfirst.realErrors, List.append_assoc,
        ← List.filter_append]
      rfl
    · rw [hothers.conjectureErrors, hfirst.conjectureErrors,
        List.append_assoc, ← List.filter_append]
      rfl

theorem foldlM_addCounterExample {samples samples' : C5Samples} (hindexed : Indexed samples)
    (himplication : forall cex, cex ∈ cexs -> cex.IsImplication)
    (h : cexs.foldlM (fun samples cex => addCounterExample cex samples) samples = some samples') :
    Extends samples samples' ∧ Indexed samples' ∧
      forall cex, cex ∈ cexs -> RecordedIn cex samples' := by
  induction cexs generalizing samples with
  | nil =>
    cases h
    exact ⟨Extends.refl _, hindexed, by simp⟩
  | cons cex cexs ih =>
    rw [List.foldlM_cons] at h
    rcases Option.bind_eq_some_iff.mp h with ⟨samples₁, hone, hrest⟩
    rcases addCounterExample_implication hindexed
      (himplication cex List.mem_cons_self) hone with
      ⟨hextends, hindexed₁, hrecorded⟩
    rcases ih hindexed₁
      (fun c hc => himplication c (List.mem_cons_of_mem cex hc)) hrest with
      ⟨hextends', hindexed', hothers⟩
    refine ⟨hextends.trans hextends', hindexed', ?_⟩
    intro c hc
    rcases List.mem_cons.mp hc with rfl | hc
    · exact hrecorded.of_extends hextends'
    · exact hothers c hc

theorem collect_addImplications {samples : SampleState}
    (hcompatible : Compatible s.samples cexs) (hindexed : Indexed s.samples)
    (hcollect : collect cexs s = some (collector, samples))
    (hadd : addImplications collector samples = some s') :
    Extends s.samples s'.samples ∧ Indexed s'.samples ∧ forall cex, cex ∈ cexs ->
        (cex.IsImplication -> forall other, other ∈ cexs ->
          other.IsReal ∨ other.IsImplication) -> RecordedIn cex s'.samples := by
  have hcollected := foldlM_onCounterexample (s := s.clearImplications)
    hcompatible hindexed hcollect
  have hconjectures := hcollected.conjectureErrors
  have hwaiting := hcollected.waiting
  simp only [reset, SampleState.clearImplications, List.nil_append]
    at hconjectures hwaiting
  unfold addImplications at hadd
  split at hadd
  · rename_i hnone
    rcases Option.bind_eq_some_iff.mp hadd with ⟨samples', hfold, hadd⟩
    cases hadd
    rcases foldlM_addCounterExample hcollected.indexed (by
      intro c hc
      rw [hwaiting] at hc
      simpa using (List.mem_filter.mp hc).2) hfold with
      ⟨hextends, hindexed', hrecorded⟩
    refine ⟨hcollected.growth.trans hextends, hindexed', ?_⟩
    intro cex hcex _
    by_cases himplication : cex.IsImplication
    · apply hrecorded
      rw [hwaiting]
      exact List.mem_filter.mpr ⟨hcex, by simpa using himplication⟩
    · exact (hcollected.recorded cex hcex himplication).of_extends hextends
  · rename_i hsome
    cases hadd
    refine ⟨hcollected.growth, hcollected.indexed, ?_⟩
    intro cex hcex honly
    apply hcollected.recorded cex hcex
    intro himplication
    -- the batch has a counterexample of another kind
    apply hsome
    rw [hconjectures]
    apply List.filter_eq_nil_iff.mpr
    intro other hother
    rcases honly himplication other hother with hreal | himp
    · simp [hreal]
    · simp [himp]

end Batch

end MLHoudini

end Boogie
