import Mathlib.Data.Set.Basic

/-!
# Executions of systems with silent steps

A step shows a label or is silent.  A simulation may answer a step by several ones
and leave silent steps unanswered for some time; the behaviours it preserves
include the infinite ones.
-/

namespace Executions

structure System (Config Label Exit : Type) where
  step : Config -> Option Label -> Config -> Prop
  final : Config -> Exit -> Prop

variable {Config Config' Label Exit : Type}

inductive Runs (S : System Config Label Exit) :
    Config -> List Label -> Config -> Prop where
  | refl (c : Config) : Runs S c [] c
  | cons {c d e : Config} {o : Option Label} {l : List Label}
      (hstep : S.step c o d) (hruns : Runs S d l e) : Runs S c (o.toList ++ l) e

/-- Silent steps for ever: a set of configurations, none of which is without a
silent step into the set. -/
def Diverges (S : System Config Label Exit) (c : Config) : Prop :=
  exists inside : Config -> Prop, inside c ∧
    forall d, inside d -> exists e, S.step d none e ∧ inside e

/-- Labels for ever: at every time a set of configurations that can show the
next label. -/
def Shows (S : System Config Label Exit) (c : Config) (labels : Nat -> Label) : Prop :=
  exists inside : Nat -> Config -> Prop, inside 0 c ∧
    forall n d, inside n d -> exists e, Runs S d [labels n] e ∧ inside (n + 1) e

inductive Behaviour (Label Exit : Type) where
  | reached (l : List Label)
  | ended (l : List Label) (e : Exit)
  | silent (l : List Label)
  | forever (labels : Nat -> Label)

def Behaves (S : System Config Label Exit) (c : Config) :
    Behaviour Label Exit -> Prop
  | .reached l => exists d, Runs S c l d
  | .ended l e => exists d, Runs S c l d ∧ S.final d e
  | .silent l => exists d, Runs S c l d ∧ Diverges S d
  | .forever labels => Shows S c labels

def behaviours (S : System Config Label Exit) (c : Config) :
    Set (Behaviour Label Exit) :=
  { x | Behaves S c x }

section Runs

variable {S : System Config Label Exit} {c d e : Config} {l l' : List Label}

theorem Runs.trans (h : Runs S c l d) (h' : Runs S d l' e) : Runs S c (l ++ l') e := by
  induction h with
  | refl c => exact h'
  | cons hstep _ ih =>
    rw [List.append_assoc]
    exact Runs.cons hstep (ih h')

theorem Runs.single {o : Option Label} (h : S.step c o d) : Runs S c o.toList d := by
  have hruns := Runs.cons h (Runs.refl d)
  rwa [List.append_nil] at hruns

theorem Runs.silent (h : S.step c none d) : Runs S c [] d :=
  Runs.single h

theorem Runs.silent_cases (h : Runs S c [] e) :
    c = e ∨ exists d, S.step c none d ∧ Runs S d [] e := by
  generalize hl : ([] : List Label) = l at h
  cases h with
  | refl => exact Or.inl rfl
  | cons hstep hruns =>
    rename_i d o l
    rcases List.append_eq_nil_iff.mp hl.symm with ⟨ho, rfl⟩
    cases o with
    | none => exact Or.inr ⟨d, hstep, hruns⟩
    | some a => cases ho

end Runs

/-!
# Simulations
-/

def Advances (S : System Config Label Exit) (c : Config) (o : Option Label)
    (e : Config) : Prop :=
  match o with
  | some a => Runs S c [a] e
  | none => exists d, S.step c none d ∧ Runs S d [] e

theorem Advances.runs {S : System Config Label Exit} {c e : Config}
    {o : Option Label} (h : Advances S c o e) : Runs S c o.toList e := by
  cases o with
  | some a => exact h
  | none =>
    rcases h with ⟨d, hstep, hruns⟩
    exact Runs.cons hstep hruns

theorem Advances.single {S : System Config Label Exit} {c e : Config}
    {o : Option Label} (h : S.step c o e) : Advances S c o e := by
  cases o with
  | some a => exact Runs.single h
  | none => exact ⟨e, h, Runs.refl e⟩

structure Simulates (S : System Config Label Exit) (S' : System Config' Label Exit)
    (related : Config -> Config' -> Prop) (rank : Config -> Nat) : Prop where
  step : forall c c' o d, related c c' -> S.step c o d ->
    (exists d', Advances S' c' o d' ∧ related d d') ∨
      (o = none ∧ related d c' ∧ rank d < rank c)
  final : forall c c' e, related c c' -> S.final c e ->
    exists d', Runs S' c' [] d' ∧ S'.final d' e

section Simulates

variable {S : System Config Label Exit} {S' : System Config' Label Exit}
variable {related : Config -> Config' -> Prop} {rank : Config -> Nat}
variable {c : Config} {c' : Config'}

theorem Simulates.runs (h : Simulates S S' related rank) {l : List Label}
    {d : Config} (hruns : Runs S c l d) (hrel : related c c') :
    exists d', Runs S' c' l d' ∧ related d d' := by
  induction hruns generalizing c' with
  | refl c => exact ⟨c', Runs.refl c', hrel⟩
  | cons hstep _ ih =>
    rcases h.step _ _ _ _ hrel hstep with ⟨e', hadv, hrel'⟩ | ⟨rfl, hrel', _⟩
    · rcases ih hrel' with ⟨d', hruns', hd⟩
      exact ⟨d', hadv.runs.trans hruns', hd⟩
    · exact ih hrel'

theorem Simulates.exists_silent (h : Simulates S S' related rank)
    {inside : Config -> Prop} (hinside : forall d, inside d -> exists e, S.step d none e ∧ inside e)
    (hc : inside c) (hrel : related c c') :
    exists d d', inside d ∧ Advances S' c' none d' ∧ related d d' := by
  induction hrank : rank c using Nat.strong_induction_on generalizing c with
  | _ k ih =>
    rcases hinside c hc with ⟨e, hstep, he⟩
    rcases h.step _ _ _ _ hrel hstep with ⟨e', hadv, hrel'⟩ | ⟨_, hrel', hlower⟩
    · exact ⟨e, e', he, hadv, hrel'⟩
    · exact ih _ (hrank ▸ hlower) he hrel' rfl

theorem Simulates.diverges (h : Simulates S S' related rank) (hc : Diverges S c)
    (hrel : related c c') : Diverges S' c' := by
  rcases hc with ⟨inside, hc, hinside⟩
  refine ⟨fun x => exists d d', inside d ∧ related d d' ∧ Runs S' x [] d',
    ⟨c, c', hc, hrel, Runs.refl c'⟩, ?_⟩
  intro x ⟨d, d', hd, hrel', hruns⟩
  rcases hruns.silent_cases with rfl | ⟨y, hstep, hruns'⟩
  · rcases h.exists_silent hinside hd hrel' with ⟨e, e', he, ⟨y, hstep, hruns'⟩, hrel''⟩
    exact ⟨y, hstep, e, e', he, hrel'', hruns'⟩
  · exact ⟨y, hstep, d, d', hd, hrel', hruns'⟩

theorem Simulates.shows (h : Simulates S S' related rank) {labels : Nat -> Label}
    (hc : Shows S c labels) (hrel : related c c') : Shows S' c' labels := by
  rcases hc with ⟨inside, hc, hinside⟩
  refine ⟨fun n d' => exists d, inside n d ∧ related d d', ⟨c, hc, hrel⟩, ?_⟩
  intro n d' ⟨d, hd, hrel'⟩
  rcases hinside n d hd with ⟨e, hruns, he⟩
  rcases h.runs hruns hrel' with ⟨e', hruns', hrel''⟩
  exact ⟨e', hruns', e, he, hrel''⟩

theorem Simulates.behaviours_subset (h : Simulates S S' related rank)
    (hrel : related c c') : behaviours S c ⊆ behaviours S' c' := by
  intro x hx
  cases x with
  | reached l =>
    rcases hx with ⟨d, hruns⟩
    rcases h.runs hruns hrel with ⟨d', hruns', _⟩
    exact ⟨d', hruns'⟩
  | ended l e =>
    rcases hx with ⟨d, hruns, hfinal⟩
    rcases h.runs hruns hrel with ⟨d', hruns', hrel'⟩
    rcases h.final _ _ _ hrel' hfinal with ⟨e', hend, hfinal'⟩
    have hall := hruns'.trans hend
    rw [List.append_nil] at hall
    exact ⟨e', hall, hfinal'⟩
  | silent l =>
    rcases hx with ⟨d, hruns, hdiv⟩
    rcases h.runs hruns hrel with ⟨d', hruns', hrel'⟩
    exact ⟨d', hruns', h.diverges hdiv hrel'⟩
  | forever labels => exact h.shows hx hrel

end Simulates

end Executions
