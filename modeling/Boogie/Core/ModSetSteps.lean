import Mathlib.Data.Finset.Prod
import Mathlib.Logic.Relation
import Boogie.Core.ModSetCollector

/-!
# What a walk can add

A walk over the program is a sequence of additions, each of which follows from the
program and from what has been found before.
-/

namespace Boogie
namespace ModSetCollector

section Walks

variable {Procedure Global Other : Type}
variable {program : Program Procedure Global Other}

/-!
# Facts about a program
-/

def Implements (program : Program Procedure Global Other) (p : Procedure) : Prop :=
  exists blocks, Declaration.implementation p blocks ∈ program.topLevelDeclarations

def Contains (program : Program Procedure Global Other) (p : Procedure)
    (c : Cmd Procedure Global Other) : Prop :=
  exists blocks cmds,
    Declaration.implementation p blocks ∈ program.topLevelDeclarations ∧
      cmds ∈ blocks ∧ c ∈ cmds

def Assigns (program : Program Procedure Global Other) (p : Procedure)
    (g : Global) : Prop :=
  exists c, Contains program p c ∧ Variable.global g ∈ c.assigned

def Calls (program : Program Procedure Global Other) (p q : Procedure) : Prop :=
  exists c, Contains program p c ∧ q ∈ c.callees

def Declares (program : Program Procedure Global Other) (p : Procedure) : Prop :=
  Declaration.procedure p ∈ program.topLevelDeclarations

/-- Sets that contain the declared globals of the procedures without
implementation, and for the others what they assign and what they call. -/
structure Closed (program : Program Procedure Global Other)
    (modifies : Procedure -> Set Global) : Prop where
  declared : forall p g, ¬ Implements program p ->
    Variable.global g ∈ program.modifies p -> g ∈ modifies p
  assigned : forall p g, Assigns program p g -> g ∈ modifies p
  called : forall p q, Calls program p q -> modifies q ⊆ modifies p

theorem Calls.declares {p q : Procedure} (h : Calls program p q) :
    Declares program q := by
  rcases h with ⟨c, ⟨blocks, cmds, hdecl, hcmds, hc⟩, hq⟩
  exact program.callee_declared p blocks cmds c q hdecl hcmds hc hq

theorem Assigns.implements {p : Procedure} {g : Global} (h : Assigns program p g) :
    Implements program p := by
  rcases h with ⟨c, ⟨blocks, cmds, hdecl, _⟩, _⟩
  exact ⟨blocks, hdecl⟩

theorem Calls.implements {p q : Procedure} (h : Calls program p q) :
    Implements program p := by
  rcases h with ⟨c, ⟨blocks, cmds, hdecl, _⟩, _⟩
  exact ⟨blocks, hdecl⟩

theorem Implements.declares {p : Procedure} (h : Implements program p) :
    Declares program p := by
  rcases h with ⟨blocks, hdecl⟩
  exact program.proc_declared p blocks hdecl

/-!
# Additions
-/

variable [DecidableEq Procedure]

def State.addGlobal (s : State Procedure Global) (p : Procedure) (g : Global) :
    State Procedure Global :=
  { s with
    moreProcessingRequired := true
    modSets := s.modSets.set p (s.modSet p ++ [g]) }

def State.addEntry (s : State Procedure Global) (p : Procedure) :
    State Procedure Global :=
  { s with modSets := s.modSets.set p [] }

def State.addYields (s : State Procedure Global) (p : Procedure) :
    State Procedure Global :=
  { s with
    yieldingProcs := p :: s.yieldingProcs
    moreProcessingRequired := true }

theorem modSet_addGlobal (s : State Procedure Global) (p q : Procedure) (g : Global) :
    (s.addGlobal p g).modSet q = if q = p then s.modSet p ++ [g] else s.modSet q := by
  unfold State.modSet State.addGlobal
  by_cases h : q = p
  · subst h
    simp [Dictionary.tryGetValue_set_self, State.modSet]
  · simp [Dictionary.tryGetValue_set_of_ne h, h]

theorem modSet_addEntry {s : State Procedure Global} {p : Procedure}
    (hnew : s.modSets.containsKey p = false) (q : Procedure) :
    (s.addEntry p).modSet q = s.modSet q := by
  unfold State.modSet State.addEntry
  by_cases h : q = p
  · subst h
    have hnone : s.modSets.tryGetValue q = none := by
      simpa [Dictionary.containsKey] using hnew
    simp [Dictionary.tryGetValue_set_self, hnone]
  · simp [Dictionary.tryGetValue_set_of_ne h]

inductive Infers (program : Program Procedure Global Other) :
    State Procedure Global -> State Procedure Global -> Prop where
  | global {s : State Procedure Global} {p : Procedure} {g : Global}
      (himplements : Implements program p)
      (hreason : Assigns program p g ∨ exists q, Calls program p q ∧ g ∈ s.modSet q)
      (hnew : g ∉ s.modSet p) : Infers program s (s.addGlobal p g)
  | entry {s : State Procedure Global} {p : Procedure}
      (himplements : Implements program p)
      (hnew : s.modSets.containsKey p = false) : Infers program s (s.addEntry p)
  | yields {s : State Procedure Global} {p : Procedure}
      (hdeclares : Declares program p)
      (hnew : p ∉ s.yieldingProcs) : Infers program s (s.addYields p)
  | target {s : State Procedure Global} {p : Procedure} :
      Infers program s (addTargetProc p s)

def Walk (program : Program Procedure Global Other) :
    State Procedure Global -> State Procedure Global -> Prop :=
  Relation.ReflTransGen (Infers program)

section Invariants

variable {s s' : State Procedure Global}

theorem Infers.modSet_subset (h : Infers program s s') (q : Procedure) :
    s.modSet q ⊆ s'.modSet q := by
  cases h with
  | global _ _ _ =>
    rename_i p g
    rw [modSet_addGlobal]
    split
    · next h =>
        rw [h]
        exact List.subset_append_left _ _
    · exact List.Subset.refl _
  | entry _ hnew =>
    rw [modSet_addEntry hnew]
    exact List.Subset.refl _
  | yields _ _ => exact List.Subset.refl _
  | target => exact List.Subset.refl _

theorem Walk.modSet_subset (h : Walk program s s') (q : Procedure) :
    s.modSet q ⊆ s'.modSet q := by
  induction h with
  | refl => exact List.Subset.refl _
  | tail _ hstep ih => exact List.Subset.trans ih (hstep.modSet_subset q)

theorem Infers.more (h : Infers program s s')
    (hmore : s.moreProcessingRequired = true) : s'.moreProcessingRequired = true := by
  cases h with
  | global _ _ _ => rfl
  | entry _ _ => exact hmore
  | yields _ _ => rfl
  | target => exact hmore

theorem Infers.modSet_eq (h : Infers program s s')
    (hmore : s'.moreProcessingRequired = false) (q : Procedure) :
    s'.modSet q = s.modSet q := by
  cases h with
  | global _ _ _ => cases hmore
  | entry _ hnew => exact modSet_addEntry hnew q
  | yields _ _ => cases hmore
  | target => rfl

theorem Walk.modSet_eq (h : Walk program s s')
    (hmore : s'.moreProcessingRequired = false) (q : Procedure) :
    s'.modSet q = s.modSet q := by
  induction h with
  | refl => rfl
  | tail _ hstep ih =>
    rename_i s'' s''' _
    have hbefore : s''.moreProcessingRequired = false := by
      cases hflag : s''.moreProcessingRequired with
      | false => rfl
      | true =>
        rw [hstep.more hflag] at hmore
        cases hmore
    rw [hstep.modSet_eq hmore, ih hbefore]

def State.Minimal (program : Program Procedure Global Other)
    (s : State Procedure Global) : Prop :=
  forall modifies, Closed program modifies ->
    forall p g, g ∈ s.modSet p -> g ∈ modifies p

theorem Infers.minimal (h : Infers program s s') (hs : s.Minimal program) :
    s'.Minimal program := by
  intro modifies hclosed q g hg
  cases h with
  | global _ hreason _ =>
    rename_i p g' _ _
    rw [modSet_addGlobal] at hg
    split at hg
    · next hq =>
        rw [hq]
        rcases List.mem_append.mp hg with hg | hg
        · exact hs modifies hclosed p g hg
        · rw [List.mem_singleton.mp hg]
          rcases hreason with hassigns | ⟨r, hcalls, hr⟩
          · exact hclosed.assigned p g' hassigns
          · exact hclosed.called p r hcalls (hs modifies hclosed r g' hr)
    · exact hs modifies hclosed q g hg
  | entry _ hnew =>
    rw [modSet_addEntry hnew] at hg
    exact hs modifies hclosed q g hg
  | yields _ _ => exact hs modifies hclosed q g hg
  | target => exact hs modifies hclosed q g hg

theorem Walk.minimal (h : Walk program s s') (hs : s.Minimal program) :
    s'.Minimal program := by
  induction h with
  | refl => exact hs
  | tail _ hstep ih => exact hstep.minimal ih

theorem Infers.tryGetValue_eq (h : Infers program s s') {q : Procedure}
    (hq : ¬ Implements program q) :
    s'.modSets.tryGetValue q = s.modSets.tryGetValue q := by
  cases h with
  | global himplements _ _ =>
    exact Dictionary.tryGetValue_set_of_ne (fun heq => hq (heq ▸ himplements))
  | entry himplements _ =>
    exact Dictionary.tryGetValue_set_of_ne (fun heq => hq (heq ▸ himplements))
  | yields _ _ => rfl
  | target => rfl

theorem Walk.tryGetValue_eq (h : Walk program s s') {q : Procedure} (hq : ¬ Implements program q) :
    s'.modSets.tryGetValue q = s.modSets.tryGetValue q := by
  induction h with
  | refl => rfl
  | tail _ hstep ih => rw [hstep.tryGetValue_eq hq, ih]

theorem Infers.containsKey (h : Infers program s s') {q : Procedure}
    (hq : s.modSets.containsKey q = true) : s'.modSets.containsKey q = true := by
  have hset : forall {p vars}, (s.modSets.set p vars).containsKey q = true := by
    intro p vars
    by_cases heq : q = p
    · subst heq
      simp [Dictionary.containsKey, Dictionary.tryGetValue_set_self]
    · rw [Dictionary.containsKey, Dictionary.tryGetValue_set_of_ne heq]
      exact hq
  cases h with
  | global _ _ _ => exact hset
  | entry _ _ => exact hset
  | yields _ _ => exact hq
  | target => exact hq

theorem Walk.containsKey (h : Walk program s s') {q : Procedure}
    (hq : s.modSets.containsKey q = true) : s'.modSets.containsKey q = true := by
  induction h with
  | refl => exact hq
  | tail _ hstep ih => exact hstep.containsKey ih

end Invariants

/-!
# Additions are finitely many
-/

section Rank

def Program.procedures (program : Program Procedure Global Other) :
    Finset Procedure :=
  (program.topLevelDeclarations.filterMap Declaration.procedure?).toFinset

theorem mem_procedures {p : Procedure} :
    p ∈ program.procedures <-> Declares program p := by
  rw [Program.procedures, List.mem_toFinset, List.mem_filterMap]
  constructor
  · intro ⟨d, hd, hp⟩
    cases d with
    | procedure q =>
      cases hp
      exact hd
    | implementation q blocks => cases hp
    | other => cases hp
  · intro h
    exact ⟨_, h, rfl⟩

variable [DecidableEq Global]

def Program.globals (program : Program Procedure Global Other) : Finset Global :=
  (program.topLevelDeclarations.flatMap (fun d =>
    match d with
    | .procedure p => (program.modifies p).filterMap Variable.global?
    | .implementation _ blocks =>
      blocks.flatten.flatMap (fun c => c.assigned.filterMap Variable.global?)
    | .other => [])).toFinset

def State.room (program : Program Procedure Global Other)
    (s : State Procedure Global) : Nat :=
  ((program.procedures ×ˢ program.globals).filter
      (fun pg => pg.2 ∉ s.modSet pg.1)).card +
    (program.procedures.filter (fun p => p ∉ s.yieldingProcs)).card

omit [DecidableEq Procedure] in
theorem closed_globals : Closed program
    (fun p => { g | Declares program p -> g ∈ program.globals }) where
  declared := by
    intro p g _ hg hdeclares
    refine List.mem_toFinset.mpr (List.mem_flatMap.mpr ⟨_, hdeclares, ?_⟩)
    exact List.mem_filterMap.mpr ⟨_, hg, rfl⟩
  assigned := by
    intro p g ⟨c, ⟨blocks, cmds, hdecl, hcmds, hc⟩, hg⟩ _
    refine List.mem_toFinset.mpr (List.mem_flatMap.mpr ⟨_, hdecl, ?_⟩)
    refine List.mem_flatMap.mpr ⟨c, List.mem_flatten.mpr ⟨cmds, hcmds, hc⟩, ?_⟩
    exact List.mem_filterMap.mpr ⟨_, hg, rfl⟩
  called := by
    intro p q hcalls g hg _
    exact hg hcalls.declares

variable {s s' : State Procedure Global}

theorem Infers.room (h : Infers program s s') (hs : s.Minimal program) :
    s'.room program ≤ s.room program ∧
      (s.moreProcessingRequired = false -> s'.moreProcessingRequired = true ->
        s'.room program < s.room program) := by
  have hsets : (program.procedures ×ˢ program.globals).filter
      (fun pg => pg.2 ∉ s'.modSet pg.1) ⊆
        (program.procedures ×ˢ program.globals).filter
          (fun pg => pg.2 ∉ s.modSet pg.1) := by
    apply Finset.monotone_filter_right
    intro pg _ hnew hold
    exact hnew (h.modSet_subset pg.1 hold)
  have hminimal := h.minimal hs
  cases h with
  | global himplements _ hnew =>
    rename_i p g _
    have hless : (s.addGlobal p g).room program < s.room program := by
      apply Nat.add_lt_add_right
      apply Finset.card_lt_card
      refine ⟨hsets, fun hback => ?_⟩
      have hmem : g ∈ (s.addGlobal p g).modSet p := by
        rw [modSet_addGlobal, if_pos rfl]
        exact List.mem_append_right _ (List.mem_singleton_self g)
      have hglobal : g ∈ program.globals :=
        hminimal _ closed_globals p g hmem himplements.declares
      have hpair : (p, g) ∈ (program.procedures ×ˢ program.globals).filter
          (fun pg => pg.2 ∉ s.modSet pg.1) :=
        Finset.mem_filter.mpr ⟨Finset.mem_product.mpr
          ⟨mem_procedures.mpr himplements.declares, hglobal⟩, hnew⟩
      exact (Finset.mem_filter.mp (hback hpair)).2 hmem
    exact ⟨le_of_lt hless, fun _ _ => hless⟩
  | entry _ _ =>
    refine ⟨Nat.add_le_add_right (Finset.card_le_card hsets) _, ?_⟩
    intro hbefore hafter
    exact absurd (hbefore.symm.trans hafter) (by decide)
  | yields hdeclares hnew =>
    rename_i p
    have hless : (s.addYields p).room program < s.room program := by
      apply Nat.add_lt_add_left
      apply Finset.card_lt_card
      refine ⟨?_, fun hback => ?_⟩
      · apply Finset.monotone_filter_right
        intro q _ hq hold
        exact hq (List.mem_cons_of_mem p hold)
      · have hmem := hback (Finset.mem_filter.mpr
          ⟨mem_procedures.mpr hdeclares, hnew⟩)
        exact (Finset.mem_filter.mp hmem).2 List.mem_cons_self
    exact ⟨le_of_lt hless, fun _ _ => hless⟩
  | target =>
    refine ⟨le_refl _, ?_⟩
    intro hbefore hafter
    exact absurd (hbefore.symm.trans hafter) (by decide)

theorem Walk.room (h : Walk program s s') (hs : s.Minimal program) :
    s'.room program ≤ s.room program ∧
      (s.moreProcessingRequired = false -> s'.moreProcessingRequired = true ->
        s'.room program < s.room program) := by
  induction h with
  | refl =>
    refine ⟨le_refl _, ?_⟩
    intro hbefore hafter
    exact absurd (hbefore.symm.trans hafter) (by decide)
  | tail hwalk hstep ih =>
    rename_i t t'
    have hlast := hstep.room (Walk.minimal hwalk hs)
    refine ⟨le_trans hlast.1 ih.1, ?_⟩
    intro hbefore hafter
    cases hflag : t.moreProcessingRequired with
    | false => exact lt_of_lt_of_le (hlast.2 hflag hafter) ih.1
    | true => exact lt_of_le_of_lt hlast.1 (ih.2 hbefore hflag)

end Rank

end Walks

end ModSetCollector
end Boogie
