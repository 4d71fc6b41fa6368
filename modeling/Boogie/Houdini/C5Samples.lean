import Boogie.Houdini.C5Domain
import Mathlib.Logic.Function.Basic

/-!
# Samples of the learner

A counterexample to a formula consists of the calls of existential functions
that were assumed and of those that were asserted.  It becomes a positive
sample, a negative sample or an implication between two data points.
-/

namespace Boogie

namespace MLHoudini

/-!
# The tables of samples
-/

def unknown : Nat := 0

def positive : Nat := 1

def negative : Nat := 2

structure C5Samples where
  samplePointToClassAttr : DataPoint -> Option Nat
  samplePointToIndex : DataPoint -> Option Nat
  implications : List (Nat × Nat)
  dataPointsIndex : Nat
  bounded : forall d i, samplePointToIndex d = some i -> i < dataPointsIndex
  injective : forall d e i, samplePointToIndex d = some i ->
    samplePointToIndex e = some i -> d = e
  refers : forall t, t ∈ implications ->
    t.1 < dataPointsIndex ∧ t.2 < dataPointsIndex

namespace C5Samples

def empty : C5Samples where
  samplePointToClassAttr := fun _ => none
  samplePointToIndex := fun _ => none
  implications := []
  dataPointsIndex := 0
  bounded := by simp
  injective := by simp
  refers := by simp

def setClass (s : C5Samples) (d : DataPoint) (classAttr : Nat) : C5Samples :=
  { s with
    samplePointToClassAttr :=
      Function.update s.samplePointToClassAttr d (some classAttr) }

def addPoint (s : C5Samples) (d : DataPoint) : C5Samples where
  samplePointToClassAttr := s.samplePointToClassAttr
  samplePointToIndex :=
    Function.update s.samplePointToIndex d (some s.dataPointsIndex)
  implications := s.implications
  dataPointsIndex := s.dataPointsIndex + 1
  bounded := by
    intro e i h
    by_cases he : e = d
    · rw [he, Function.update_self] at h
      cases h
      exact Nat.lt_succ_self _
    · rw [Function.update_of_ne he] at h
      exact Nat.lt_succ_of_lt (s.bounded e i h)
  injective := by
    intro e f i he hf
    by_cases hed : e = d
    · by_cases hfd : f = d
      · rw [hed, hfd]
      · rw [hed, Function.update_self] at he
        rw [Function.update_of_ne hfd] at hf
        cases he
        exact absurd (s.bounded f _ hf) (Nat.lt_irrefl _)
    · rw [Function.update_of_ne hed] at he
      by_cases hfd : f = d
      · rw [hfd, Function.update_self] at hf
        cases hf
        exact absurd (s.bounded e _ he) (Nat.lt_irrefl _)
      · rw [Function.update_of_ne hfd] at hf
        exact s.injective e f i he hf
  refers := by
    intro t ht
    exact ⟨Nat.lt_succ_of_lt (s.refers t ht).1,
      Nat.lt_succ_of_lt (s.refers t ht).2⟩

def addSample (s : C5Samples) (d : DataPoint) (classAttr : Nat) : C5Samples :=
  match s.samplePointToIndex d with
  | some _ => s.setClass d classAttr
  | none => (s.addPoint d).setClass d classAttr

def addUnknown (s : C5Samples) (d : DataPoint) : C5Samples :=
  match s.samplePointToIndex d with
  | some _ => s
  | none => (s.addPoint d).setClass d unknown

def addImplication (s : C5Samples) (antecedent consequent : DataPoint) :
    C5Samples :=
  match hd : s.samplePointToIndex antecedent,
      he : s.samplePointToIndex consequent with
  | some i, some j =>
    { s with
      implications := s.implications ++ [(i, j)]
      refers := by
        intro t ht
        rcases List.mem_append.mp ht with ht | ht
        · exact s.refers t ht
        · rw [List.mem_singleton.mp ht]
          exact ⟨s.bounded _ i hd, s.bounded _ j he⟩ }
  | _, _ => s

end C5Samples

/-!
# Recording counterexamples
-/

abbrev CallState := String × List Model.Element

structure Cex where
  lhs : List CallState
  rhs : List CallState

def CallState.dataPoint (call : CallState) : Option DataPoint :=
  MLHoudini.dataPoint call.1 call.2

def lastOnly (lhs : List CallState) : List CallState :=
  if lhs.length > 1 then lhs.drop (lhs.length - 1) else lhs

def recordCexForC5 (cex : Cex) (recordImplications : Bool) (s : C5Samples) :
    Option C5Samples :=
  if cex.lhs.length = 0 then do
    let argsval <- (<- cex.rhs[0]?).dataPoint
    return s.addSample argsval positive
  else if cex.rhs.length = 0 then do
    let argsval <- (<- (lastOnly cex.lhs)[0]?).dataPoint
    return s.addSample argsval negative
  else do
    let argsval1 <- (<- (lastOnly cex.lhs)[0]?).dataPoint
    let argsval2 <- (<- cex.rhs[0]?).dataPoint
    let s := (s.addUnknown argsval1).addUnknown argsval2
    return if recordImplications then s.addImplication argsval1 argsval2 else s

def addCounterExample (cex : Cex) (s : C5Samples) : Option C5Samples :=
  recordCexForC5 cex true s

inductive ErrorKind where
  | real
  | conjecture
  | implication
deriving DecidableEq, Repr

/--
The samples with the counterexamples that wait until it is known whether there
are samples of the other kinds.
-/
structure SampleState where
  samples : C5Samples
  implicationCounterExamples : List Cex

def handleCounterExample (cex : Cex) (s : SampleState) :
    Option (ErrorKind × SampleState) :=
  if cex.lhs.length = 0 ∧ cex.rhs.length = 0 then some (.real, s)
  else if cex.lhs.length = 0 ∨ cex.rhs.length = 0 then do
    let samples <- addCounterExample cex s.samples
    return (.conjecture, { s with samples := samples })
  else
    some (.implication,
      { s with
        implicationCounterExamples := s.implicationCounterExamples ++ [cex] })

end MLHoudini

end Boogie
