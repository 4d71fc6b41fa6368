import Mathlib.Order.Bounds.Basic
import Boogie.Core.ModSetSteps

/-!
# The least modifies clauses

Each visitor records what its command assigns and calls.  The walk that adds
nothing has therefore seen closed sets, and no walk adds more than closed sets
contain.
-/

namespace Boogie
namespace ModSetCollector

section Analysis

variable {Procedure Global Other : Type} [DecidableEq Procedure]
variable {program : Program Procedure Global Other}
variable {s s' s'' : State Procedure Global} {p : Procedure}

/-!
# Visitors
-/

/-- What a visitor has done for the variables and the callees of a command. -/
structure Records (program : Program Procedure Global Other) (p : Procedure)
    (vars : List (Variable Global Other)) (callees : List Procedure)
    (s s' : State Procedure Global) : Prop where
  walk : Walk program s s'
  assigned : forall g, Variable.global g ∈ vars -> g ∈ s'.modSet p
  called : forall q, q ∈ callees -> forall g, g ∈ s.modSet q -> g ∈ s'.modSet p

theorem Records.of_walk (h : Walk program s s') : Records program p [] [] s s' where
  walk := h
  assigned := by simp
  called := by simp

theorem Records.append {vars vars' : List (Variable Global Other)}
    {callees callees' : List Procedure} (h : Records program p vars callees s s')
    (h' : Records program p vars' callees' s' s'') :
    Records program p (vars ++ vars') (callees ++ callees') s s'' where
  walk := Relation.ReflTransGen.trans h.walk h'.walk
  assigned := by
    intro g hg
    rcases List.mem_append.mp hg with hg | hg
    · exact h'.walk.modSet_subset p (h.assigned g hg)
    · exact h'.assigned g hg
  called := by
    intro q hq g hg
    rcases List.mem_append.mp hq with hq | hq
    · exact h'.walk.modSet_subset p (h.called q hq g hg)
    · exact h'.called q hq g (h.walk.modSet_subset q hg)

def Visits (program : Program Procedure Global Other) (p : Procedure)
    (vars : List (Variable Global Other)) (callees : List Procedure)
    (visit : State Procedure Global -> Option (State Procedure Global)) : Prop :=
  forall s, exists s', visit s = some s' ∧ Records program p vars callees s s'

theorem Visits.bind {vars vars' : List (Variable Global Other)}
    {callees callees' : List Procedure}
    {visit visit' : State Procedure Global -> Option (State Procedure Global)}
    (h : Visits program p vars callees visit) (h' : Visits program p vars' callees' visit') :
    Visits program p (vars ++ vars') (callees ++ callees') (fun s => (visit s).bind visit') := by
  intro s
  rcases h s with ⟨t, ht, hrec⟩
  rcases h' t with ⟨t', ht', hrec'⟩
  refine ⟨t', ?_, hrec.append hrec'⟩
  show (visit s).bind visit' = some t'
  rw [ht, Option.bind_some, ht']

theorem Visits.congr {vars : List (Variable Global Other)} {callees : List Procedure}
    {visit visit' : State Procedure Global -> Option (State Procedure Global)}
    (h : Visits program p vars callees visit) (heq : forall s, visit' s = visit s) :
    Visits program p vars callees visit' := by
  intro s
  rw [heq]
  exact h s

theorem flatMap_nil {Item Val : Type} (items : List Item) :
    items.flatMap (fun _ => ([] : List Val)) = [] :=
  List.flatMap_eq_nil_iff.mpr (fun _ _ => rfl)

theorem Visits.foldlM {Item : Type} {vars : Item -> List (Variable Global Other)}
    {callees : Item -> List Procedure}
    {visit : State Procedure Global -> Item -> Option (State Procedure Global)}
    {items : List Item} (h : forall i, i ∈ items ->
      Visits program p (vars i) (callees i) (fun s => visit s i)) :
    Visits program p (items.flatMap vars) (items.flatMap callees)
      (fun s => items.foldlM visit s) := by
  induction items with
  | nil =>
    intro s
    exact ⟨s, rfl, Records.of_walk Relation.ReflTransGen.refl⟩
  | cons i items ih =>
    have hhead := h i List.mem_cons_self
    have htail := ih (fun j hj => h j (List.mem_cons_of_mem i hj))
    exact hhead.bind htail

theorem Visits.foldl {Item : Type} {vars : Item -> List (Variable Global Other)}
    {callees : Item -> List Procedure}
    {visit : State Procedure Global -> Item -> State Procedure Global}
    {items : List Item} (h : forall i, i ∈ items ->
      Visits program p (vars i) (callees i) (fun s => some (visit s i))) :
    Visits program p (items.flatMap vars) (items.flatMap callees)
      (fun s => some (items.foldl visit s)) := by
  intro s
  rcases Visits.foldlM h s with ⟨s', hs', hrec⟩
  refine ⟨s', ?_, hrec⟩
  rw [← hs']
  exact (List.foldlM_pure (m := Option)).symm

/-- The procedure encloses the command, and the command is one of the program. -/
structure Encloses (program : Program Procedure Global Other) (p : Procedure)
    (vars : List (Variable Global Other)) (callees : List Procedure) : Prop where
  implements : Implements program p
  assigns : forall g, Variable.global g ∈ vars -> Assigns program p g
  calls : forall q, q ∈ callees -> Calls program p q

variable [DecidableEq Global]

theorem processGlobal_eq (s : State Procedure Global) (p : Procedure) (g : Global) :
    exists t, (t = s ∨ s.modSets.containsKey p = false ∧ t = s.addEntry p) ∧
      processGlobal p g s = if g ∈ t.modSet p then t else t.addGlobal p g := by
  cases hkey : s.modSets.containsKey p with
  | true =>
    refine ⟨s, Or.inl rfl, ?_⟩
    simp only [processGlobal, hkey, if_true]
    rfl
  | false =>
    refine ⟨s.addEntry p, Or.inr ⟨rfl, rfl⟩, ?_⟩
    simp only [processGlobal, hkey, Bool.false_eq_true, if_false]
    rfl

theorem processGlobal_walk (himplements : Implements program p) {g : Global}
    (hreason : Assigns program p g ∨ exists q, Calls program p q ∧ g ∈ s.modSet q) :
    Walk program s (processGlobal p g s) ∧ g ∈ (processGlobal p g s).modSet p := by
  rcases processGlobal_eq s p g with ⟨t, ht, heq⟩
  have hwalk : Walk program s t := by
    rcases ht with rfl | ⟨hkey, rfl⟩
    · exact Relation.ReflTransGen.refl
    · exact Relation.ReflTransGen.single (Infers.entry himplements hkey)
  rw [heq]
  split
  · next hmem => exact ⟨hwalk, hmem⟩
  · next hnew =>
      have hreason' : Assigns program p g ∨
          exists q, Calls program p q ∧ g ∈ t.modSet q := by
        rcases hreason with hassigns | ⟨q, hcalls, hq⟩
        · exact Or.inl hassigns
        · exact Or.inr ⟨q, hcalls, hwalk.modSet_subset q hq⟩
      refine ⟨hwalk.tail (Infers.global himplements hreason' hnew), ?_⟩
      rw [modSet_addGlobal, if_pos rfl]
      exact List.mem_append_right _ (List.mem_singleton_self g)

theorem processVariable_visits (himplements : Implements program p)
    {v : Variable Global Other}
    (hassigns : forall g, v = Variable.global g -> Assigns program p g) :
    Visits program p [v] [] (fun s => some (processVariable p v s)) := by
  intro s
  cases v with
  | other x =>
    refine ⟨s, rfl, Relation.ReflTransGen.refl, ?_, by simp⟩
    intro g hg
    cases List.mem_singleton.mp hg
  | global g =>
    have h := @processGlobal_walk _ _ _ _ program s p _ himplements g
      (Or.inl (hassigns g rfl))
    refine ⟨processGlobal p g s, rfl, h.1, ?_, by simp⟩
    intro g' hg'
    rw [Variable.global.inj (List.mem_singleton.mp hg')]
    exact h.2

theorem modSet_processGlobal {q : Procedure} {g : Global} (h : g ∈ s.modSet q) :
    (processGlobal p g s).modSet q = s.modSet q := by
  rcases processGlobal_eq s p g with ⟨t, ht, heq⟩
  have hsame : t.modSet q = s.modSet q := by
    rcases ht with rfl | ⟨hkey, rfl⟩
    · rfl
    · exact modSet_addEntry hkey q
  rw [heq]
  split
  · exact hsame
  · next hnew =>
      have hne : q ≠ p := by
        intro heq'
        rw [← heq', hsame] at hnew
        exact hnew h
      rw [modSet_addGlobal, if_neg hne, hsame]

theorem processModSet_visits {q : Procedure} (himplements : Implements program p)
    (hcalls : Calls program p q) :
    Visits program p ([] : List (Variable Global Other)) [q]
      (fun s => processModSet p q (s.modSet q) s) := by
  intro s
  have hloop : forall vars t, vars ⊆ s.modSet q -> t.modSet q = s.modSet q ->
      exists t', vars.foldlM (fun s' g =>
          let s'' := processGlobal p g s'
          if s''.modSet q = s.modSet q then some s'' else none) t = some t' ∧
        Walk program t t' ∧ forall g, g ∈ vars -> g ∈ t'.modSet p := by
    intro vars
    induction vars with
    | nil =>
      intro t _ _
      exact ⟨t, rfl, Relation.ReflTransGen.refl, by simp⟩
    | cons g vars ih =>
      intro t hsub hsame
      have hg : g ∈ t.modSet q := by
        rw [hsame]
        exact hsub List.mem_cons_self
      have hkept : (processGlobal p g t).modSet q =
          s.modSet q := (modSet_processGlobal hg).trans hsame
      have hstep := @processGlobal_walk _ _ _ _ program t p _ himplements g
        (Or.inr ⟨q, hcalls, hg⟩)
      rcases ih _ (fun x hx => hsub (List.mem_cons_of_mem g hx)) hkept with
        ⟨t', ht', hwalk, hmem⟩
      refine ⟨t', ?_, Relation.ReflTransGen.trans hstep.1 hwalk, ?_⟩
      · rw [List.foldlM_cons]
        simp only [hkept, if_true]
        exact ht'
      · intro g' hg'
        rcases List.mem_cons.mp hg' with rfl | hg'
        · exact Walk.modSet_subset hwalk p hstep.2
        · exact hmem g' hg'
  rcases hloop (s.modSet q) s (List.Subset.refl _) rfl with ⟨s', hs', hwalk, hmem⟩
  refine ⟨s', hs', hwalk, by simp, ?_⟩
  intro q' hq' g hg
  rw [List.mem_singleton.mp hq'] at hg
  exact hmem g hg

omit [DecidableEq Global] in
theorem addYieldingProc_walk (hdeclares : Declares program p) :
    Walk program s (addYieldingProc p s) := by
  unfold addYieldingProc
  split
  · exact Relation.ReflTransGen.refl
  · next hnew => exact Relation.ReflTransGen.single (Infers.yields hdeclares hnew)

omit [DecidableEq Global] in
theorem addTargetProc_walk : Walk program s (addTargetProc p s) :=
  Relation.ReflTransGen.single Infers.target

omit [DecidableEq Global] in
theorem Visits.of_walk
    {visit : State Procedure Global -> State Procedure Global}
    (h : forall s, Walk program s (visit s)) :
    Visits program p ([] : List (Variable Global Other)) [] (fun s => some (visit s)) := by
  intro s
  exact ⟨visit s, rfl, Records.of_walk (h s)⟩

theorem visitCallCmd_visits {callCmd : CallCmd Procedure Global Other}
    (h : Encloses program p callCmd.outVariables [callCmd.proc]) :
    Visits program p callCmd.outVariables [callCmd.proc] (visitCallCmd p callCmd) := by
  have hcalls : Calls program p callCmd.proc :=
    h.calls callCmd.proc (List.mem_singleton_self _)
  have houts : Visits program p
      (callCmd.outs.flatMap (fun ie => ie.toList)) (callCmd.outs.flatMap (fun _ => []))
      (fun s => some (callCmd.outs.foldl
        (fun s ie => ie.elim s (fun v => processVariable p v s)) s)) := by
    apply Visits.foldl
    intro ie hie
    cases ie with
    | none => exact Visits.of_walk (fun s => Relation.ReflTransGen.refl)
    | some v =>
      apply processVariable_visits h.implements
      intro g hg
      apply h.assigns g
      exact List.mem_filterMap.mpr ⟨_, hie, hg ▸ rfl⟩
  have hset := processModSet_visits h.implements hcalls
  have hyields : Visits program p ([] : List (Variable Global Other)) []
      (fun s => some (
        let s := if callCmd.proc ∈ s.yieldingProcs ∨ callCmd.isAsync then
            addYieldingProc p s
          else s
        if callCmd.isAsync then
          addYieldingProc callCmd.proc (addTargetProc callCmd.proc s)
        else s)) := by
    apply Visits.of_walk
    intro s
    have hfirst : Walk program s
        (if callCmd.proc ∈ s.yieldingProcs ∨ callCmd.isAsync then addYieldingProc p s
          else s) := by
      split
      · exact addYieldingProc_walk h.implements.declares
      · exact Relation.ReflTransGen.refl
    dsimp only
    split
    · exact Relation.ReflTransGen.trans hfirst
        (Relation.ReflTransGen.trans addTargetProc_walk
          (addYieldingProc_walk hcalls.declares))
    · exact hfirst
  have hall := (houts.bind hset).bind hyields
  have hvars : callCmd.outs.flatMap (fun ie => ie.toList) ++ [] ++ [] =
      callCmd.outVariables := by
    rw [List.append_nil, List.append_nil, CallCmd.outVariables]
    exact (List.filterMap_eq_flatMap_toList _ _).symm
  have hcallees : callCmd.outs.flatMap (fun _ => []) ++ [callCmd.proc] ++ [] =
      [callCmd.proc] := by
    simp
  rw [hvars, hcallees] at hall
  intro s
  rcases hall s with ⟨s', hs', hrec⟩
  exact ⟨s', hs', hrec⟩

theorem visitParCallCmd_visits {callCmds : List (CallCmd Procedure Global Other)}
    (h : Encloses program p (callCmds.flatMap CallCmd.outVariables) (callCmds.map CallCmd.proc)) :
    Visits program p (callCmds.flatMap CallCmd.outVariables)
      (callCmds.map CallCmd.proc) (visitParCallCmd p callCmds) := by
  have hcalls : Visits program p (callCmds.flatMap CallCmd.outVariables)
      (callCmds.flatMap (fun c => [c.proc]))
      (fun s => callCmds.foldlM (fun s c => visitCallCmd p c s) s) := by
    apply Visits.foldlM
    intro c hc
    apply visitCallCmd_visits
    refine ⟨h.implements, ?_, ?_⟩
    · exact fun g hg => h.assigns g (List.mem_flatMap.mpr ⟨c, hc, hg⟩)
    · intro q hq
      rw [List.mem_singleton.mp hq]
      exact h.calls _ (List.mem_map_of_mem hc)
  have hyields : Visits program p ([] : List (Variable Global Other)) []
      (fun s => some (callCmds.foldl
        (fun s c => addYieldingProc c.proc (addTargetProc c.proc s))
        (addYieldingProc p s))) := by
    apply Visits.of_walk
    intro s
    have hloop : forall cs t, cs ⊆ callCmds -> Walk program t
        (cs.foldl (fun s c => addYieldingProc c.proc (addTargetProc c.proc s)) t) := by
      intro cs
      induction cs with
      | nil => exact fun t _ => Relation.ReflTransGen.refl
      | cons c cs ih =>
        intro t hsub
        have hc : Calls program p c.proc :=
          h.calls _ (List.mem_map_of_mem (hsub List.mem_cons_self))
        exact Relation.ReflTransGen.trans addTargetProc_walk
          (Relation.ReflTransGen.trans (addYieldingProc_walk hc.declares)
            (ih _ (fun x hx => hsub (List.mem_cons_of_mem c hx))))
    exact Relation.ReflTransGen.trans (addYieldingProc_walk h.implements.declares)
      (hloop callCmds _ (List.Subset.refl _))
  have hall := hcalls.bind hyields
  rw [List.append_nil, List.append_nil, ← List.map_eq_flatMap] at hall
  exact hall

omit [DecidableEq Procedure] [DecidableEq Global] in
theorem Encloses.of_append {vars vars' : List (Variable Global Other)}
    {callees callees' : List Procedure}
    (h : Encloses program p (vars ++ vars') (callees ++ callees')) :
    Encloses program p vars callees ∧ Encloses program p vars' callees' :=
  ⟨⟨h.implements, fun g hg => h.assigns g (List.mem_append_left _ hg),
      fun q hq => h.calls q (List.mem_append_left _ hq)⟩,
    ⟨h.implements, fun g hg => h.assigns g (List.mem_append_right _ hg),
      fun q hq => h.calls q (List.mem_append_right _ hq)⟩⟩

mutual

theorem visitCmd_visits (p : Procedure) : forall c : Cmd Procedure Global Other,
    Encloses program p c.assigned c.callees -> Visits program p c.assigned c.callees (visitCmd p c)
  | .assign lhss, h => by
    simp only [Cmd.assigned, Cmd.callees] at h ⊢
    have hall : Visits program p (lhss.flatMap (fun lhs => [lhs.deepAssignedVariable]))
        (lhss.flatMap (fun _ => []))
        (fun s => some (lhss.foldl
          (fun s lhs => processVariable p lhs.deepAssignedVariable s) s)) := by
      apply Visits.foldl
      intro lhs hlhs
      apply processVariable_visits h.implements
      exact fun g hg => h.assigns g (List.mem_map.mpr ⟨lhs, hlhs, hg⟩)
    rw [← List.map_eq_flatMap, flatMap_nil] at hall
    exact hall.congr (fun s => by rw [visitCmd])
  | .havoc vars, h => by
    simp only [Cmd.assigned, Cmd.callees] at h ⊢
    have hall : Visits program p (vars.flatMap (fun v => [v]))
        (vars.flatMap (fun _ => []))
        (fun s => some (vars.foldl (fun s v => processVariable p v s) s)) := by
      apply Visits.foldl
      intro v hv
      apply processVariable_visits h.implements
      exact fun g hg => h.assigns g (hg ▸ hv)
    rw [List.flatMap_singleton', flatMap_nil] at hall
    exact hall.congr (fun s => by rw [visitCmd])
  | .call callCmd, h => by
    simp only [Cmd.assigned, Cmd.callees] at h ⊢
    exact (visitCallCmd_visits h).congr (fun s => by rw [visitCmd])
  | .parCall callCmds, h => by
    simp only [Cmd.assigned, Cmd.callees] at h ⊢
    exact (visitParCallCmd_visits h).congr (fun s => by rw [visitCmd])
  | .yield, h => by
    have hwalk : Visits program p ([] : List (Variable Global Other)) []
        (fun s => some (addYieldingProc p s)) :=
      Visits.of_walk (fun s => addYieldingProc_walk h.implements.declares)
    simp only [Cmd.assigned, Cmd.callees]
    exact hwalk.congr (fun s => by rw [visitCmd])
  | .state cmds, h => by
    simp only [Cmd.assigned, Cmd.callees] at h ⊢
    exact (visitCmdSeq_visits p cmds h).congr (fun s => by rw [visitCmd])
  | .other, _ => by
    have hwalk : Visits program p ([] : List (Variable Global Other)) []
        (fun s => some s) :=
      Visits.of_walk (fun s => Relation.ReflTransGen.refl)
    simp only [Cmd.assigned, Cmd.callees]
    exact hwalk.congr (fun s => by rw [visitCmd])

theorem visitCmdSeq_visits (p : Procedure) :
    forall cmds : List (Cmd Procedure Global Other),
      Encloses program p (Cmd.allAssigned cmds) (Cmd.allCallees cmds) ->
        Visits program p (Cmd.allAssigned cmds) (Cmd.allCallees cmds) (visitCmdSeq p cmds)
  | [], _ => by
    have hwalk : Visits program p ([] : List (Variable Global Other)) []
        (fun s => some s) :=
      Visits.of_walk (fun s => Relation.ReflTransGen.refl)
    simp only [Cmd.allAssigned, Cmd.allCallees]
    exact hwalk.congr (fun s => by rw [visitCmdSeq])
  | c :: cmds, h => by
    simp only [Cmd.allAssigned, Cmd.allCallees] at h ⊢
    have hparts := h.of_append
    have hall := (visitCmd_visits p c hparts.1).bind (visitCmdSeq_visits p cmds hparts.2)
    exact hall.congr (fun s => by rw [visitCmdSeq])

end

/-!
# One walk over the program
-/

omit [DecidableEq Procedure] [DecidableEq Global] in
theorem allAssigned_eq (cmds : List (Cmd Procedure Global Other)) :
    Cmd.allAssigned cmds = cmds.flatMap Cmd.assigned := by
  induction cmds with
  | nil => rw [Cmd.allAssigned, List.flatMap_nil]
  | cons c cmds ih => rw [Cmd.allAssigned, List.flatMap_cons, ih]

omit [DecidableEq Procedure] [DecidableEq Global] in
theorem allCallees_eq (cmds : List (Cmd Procedure Global Other)) :
    Cmd.allCallees cmds = cmds.flatMap Cmd.callees := by
  induction cmds with
  | nil => rw [Cmd.allCallees, List.flatMap_nil]
  | cons c cmds ih => rw [Cmd.allCallees, List.flatMap_cons, ih]

theorem visitImplementation_visits {blocks : List (List (Cmd Procedure Global Other))}
    (hdecl : Declaration.implementation p blocks ∈ program.topLevelDeclarations) :
    Visits program p (blocks.flatMap Cmd.allAssigned) (blocks.flatMap Cmd.allCallees)
      (visitDeclaration (Declaration.implementation p blocks)) := by
  have hall : Visits program p (blocks.flatMap Cmd.allAssigned)
      (blocks.flatMap Cmd.allCallees)
      (fun s => blocks.foldlM (fun s cmds => visitCmdSeq p cmds s) s) := by
    apply Visits.foldlM
    intro cmds hcmds
    apply visitCmdSeq_visits
    refine ⟨⟨blocks, hdecl⟩, ?_, ?_⟩
    · intro g hg
      rw [allAssigned_eq] at hg
      rcases List.mem_flatMap.mp hg with ⟨c, hc, hg⟩
      exact ⟨c, ⟨blocks, cmds, hdecl, hcmds, hc⟩, hg⟩
    · intro q hq
      rw [allCallees_eq] at hq
      rcases List.mem_flatMap.mp hq with ⟨c, hc, hq⟩
      exact ⟨c, ⟨blocks, cmds, hdecl, hcmds, hc⟩, hq⟩
  exact hall

structure Seen (program : Program Procedure Global Other)
    (s s' : State Procedure Global) : Prop where
  assigned : forall p g, Assigns program p g -> g ∈ s'.modSet p
  called : forall p q, Calls program p q -> forall g, g ∈ s.modSet q -> g ∈ s'.modSet p

theorem visitDeclarations_records
    {decls : List (Declaration Procedure Global Other)}
    (hdecls : decls ⊆ program.topLevelDeclarations) (s : State Procedure Global) :
    exists s', decls.foldlM (fun s d => visitDeclaration d s) s = some s' ∧
      Walk program s s' ∧ forall p blocks, Declaration.implementation p blocks ∈ decls ->
          Records program p (blocks.flatMap Cmd.allAssigned)
            (blocks.flatMap Cmd.allCallees) s s' := by
  induction decls generalizing s with
  | nil => exact ⟨s, rfl, Relation.ReflTransGen.refl, by simp⟩
  | cons d decls ih =>
    have hd := hdecls List.mem_cons_self
    have hfirst : exists t, visitDeclaration d s = some t ∧ Walk program s t ∧
        forall p blocks, d = Declaration.implementation p blocks ->
          Records program p (blocks.flatMap Cmd.allAssigned)
            (blocks.flatMap Cmd.allCallees) s t := by
      cases d with
      | implementation p blocks =>
        rcases visitImplementation_visits hd s with ⟨t, ht, hrec⟩
        refine ⟨t, ht, hrec.walk, ?_⟩
        intro p' blocks' heq
        cases heq
        exact hrec
      | procedure p =>
        refine ⟨s, rfl, Relation.ReflTransGen.refl, ?_⟩
        intro p' blocks' heq
        cases heq
      | other =>
        refine ⟨s, rfl, Relation.ReflTransGen.refl, ?_⟩
        intro p' blocks' heq
        cases heq
    rcases hfirst with ⟨t, ht, hwalk, hrec⟩
    rcases ih (fun x hx => hdecls (List.mem_cons_of_mem d hx)) t with
      ⟨s', hs', hwalk', hrec'⟩
    refine ⟨s', ?_, Relation.ReflTransGen.trans hwalk hwalk', ?_⟩
    · rw [List.foldlM_cons, ht]
      exact hs'
    · intro p blocks hmem
      rcases List.mem_cons.mp hmem with heq | hmem
      · have hall := (hrec p blocks heq.symm).append (Records.of_walk hwalk')
        rwa [List.append_nil, List.append_nil] at hall
      · exact (Records.of_walk hwalk).append (hrec' p blocks hmem)

def State.fresh (s : State Procedure Global) : State Procedure Global :=
  { s with moreProcessingRequired := false }

theorem visitProgram_seen (program : Program Procedure Global Other) (s : State Procedure Global) :
    exists s', visitProgram program s = some s' ∧ Walk program s.fresh s' ∧ Seen program s s' := by
  rcases visitDeclarations_records (List.Subset.refl _) s.fresh with
    ⟨s', hs', hwalk, hrec⟩
  refine ⟨s', hs', hwalk, ?_, ?_⟩
  · intro p g ⟨c, ⟨blocks, cmds, hdecl, hcmds, hc⟩, hg⟩
    apply (hrec p blocks hdecl).assigned g
    refine List.mem_flatMap.mpr ⟨cmds, hcmds, ?_⟩
    rw [allAssigned_eq]
    exact List.mem_flatMap.mpr ⟨c, hc, hg⟩
  · intro p q ⟨c, ⟨blocks, cmds, hdecl, hcmds, hc⟩, hq⟩
    apply (hrec p blocks hdecl).called q
    refine List.mem_flatMap.mpr ⟨cmds, hcmds, ?_⟩
    rw [allCallees_eq]
    exact List.mem_flatMap.mpr ⟨c, hc, hq⟩

/-!
# Before the first walk
-/

omit [DecidableEq Global] in
theorem implemented_iff : program.implemented p = true <-> Implements program p := by
  rw [Program.implemented, List.any_eq_true]
  constructor
  · intro ⟨d, hd, himplements⟩
    cases d with
    | implementation q blocks =>
      have hq : q = p := of_decide_eq_true himplements
      exact ⟨blocks, hq ▸ hd⟩
    | procedure q => cases himplements
    | other => cases himplements
  · intro ⟨blocks, hdecl⟩
    exact ⟨_, hdecl, decide_eq_true rfl⟩

theorem tryGetValue_processVariable {q : Procedure} (h : q ≠ p) (v : Variable Global Other) :
    (processVariable p v s).modSets.tryGetValue q = s.modSets.tryGetValue q := by
  cases v with
  | other x => rfl
  | global g =>
    rcases processGlobal_eq s p g with ⟨t, ht, heq⟩
    have hsame : t.modSets.tryGetValue q = s.modSets.tryGetValue q := by
      rcases ht with rfl | ⟨_, rfl⟩
      · rfl
      · exact Dictionary.tryGetValue_set_of_ne h
    rw [processVariable, heq]
    split
    · exact hsame
    · rw [← hsame]
      exact Dictionary.tryGetValue_set_of_ne h

theorem mem_modSet_processVariable {v : Variable Global Other} {g : Global} :
    g ∈ (processVariable p v s).modSet p <-> g ∈ s.modSet p ∨ v = Variable.global g := by
  cases v with
  | other x => simp [processVariable]
  | global g' =>
    rcases processGlobal_eq s p g' with ⟨t, ht, heq⟩
    have hsame : t.modSet p = s.modSet p := by
      rcases ht with rfl | ⟨hkey, rfl⟩
      · rfl
      · exact modSet_addEntry hkey p
    rw [processVariable, heq]
    split
    · next hmem =>
        rw [hsame]
        constructor
        · exact Or.inl
        · intro h
          rcases h with h | h
          · exact h
          · cases h
            rwa [hsame] at hmem
    · rw [modSet_addGlobal, if_pos rfl, hsame, List.mem_append, List.mem_singleton]
      constructor
      · intro h
        rcases h with h | rfl
        · exact Or.inl h
        · exact Or.inr rfl
      · intro h
        rcases h with h | h
        · exact Or.inl h
        · cases h
          exact Or.inr rfl

theorem foldl_processVariable (vars : List (Variable Global Other)) (s : State Procedure Global) :
    (forall q, q ≠ p -> (vars.foldl (fun s v => processVariable p v s) s).modSets.tryGetValue
      q = s.modSets.tryGetValue q) ∧
    forall g, g ∈ (vars.foldl (fun s v => processVariable p v s) s).modSet p <->
      g ∈ s.modSet p ∨ Variable.global g ∈ vars := by
  induction vars generalizing s with
  | nil => simp
  | cons v vars ih =>
    rcases ih (processVariable p v s) with ⟨hother, hmem⟩
    constructor
    · intro q hq
      rw [List.foldl_cons, hother q hq, tryGetValue_processVariable hq]
    · intro g
      rw [List.foldl_cons, hmem, mem_modSet_processVariable, List.mem_cons, or_assoc,
        eq_comm]

structure Entered (program : Program Procedure Global Other)
    (s : State Procedure Global) : Prop where
  implemented : forall p, Implements program p -> s.modSets.containsKey p = true
  declared : forall p, Declares program p -> ¬ Implements program p ->
    forall g, g ∈ s.modSet p <-> Variable.global g ∈ program.modifies p
  undeclared : forall p, ¬ Declares program p -> s.modSets.tryGetValue p = none

omit [DecidableEq Global] in
theorem Entered.fresh (h : Entered program s) : Entered program s.fresh :=
  ⟨h.implemented, h.declared, h.undeclared⟩

omit [DecidableEq Global] in
theorem Walk.entered (h : Walk program s s') (hs : Entered program s) :
    Entered program s' where
  implemented := fun p hp => h.containsKey (hs.implemented p hp)
  declared := by
    intro p hdeclares himplements g
    rw [← hs.declared p hdeclares himplements, State.modSet, State.modSet,
      h.tryGetValue_eq himplements]
  undeclared := by
    intro p hdeclares
    rw [h.tryGetValue_eq (fun himplements => hdeclares himplements.declares),
      hs.undeclared p hdeclares]

theorem enterDeclarations_spec {decls : List (Declaration Procedure Global Other)}
    {s : State Procedure Global} (honce : (decls.filterMap Declaration.procedure?).Nodup)
    (hnew : forall p, p ∈ decls.filterMap Declaration.procedure? ->
      s.modSets.tryGetValue p = none) :
    exists s', decls.foldlM (fun s d => enterDeclaration program d s) s = some s' ∧
      (forall p, p ∉ decls.filterMap Declaration.procedure? ->
        s'.modSets.tryGetValue p = s.modSets.tryGetValue p) ∧
      forall p, p ∈ decls.filterMap Declaration.procedure? ->
        (Implements program p -> s'.modSets.tryGetValue p = some []) ∧ (¬ Implements program p ->
          forall g, g ∈ s'.modSet p <-> Variable.global g ∈ program.modifies p) := by
  induction decls generalizing s with
  | nil => exact ⟨s, rfl, by simp, by simp⟩
  | cons d decls ih =>
    cases d with
    | implementation q blocks => exact ih honce hnew
    | other => exact ih honce hnew
    | procedure q =>
      have honce' := List.nodup_cons.mp honce
      -- the entry of the first procedure, and no other one
      have hfirst : exists t, enterDeclaration program (Declaration.procedure q) s =
          some t ∧
          (forall p, p ≠ q -> t.modSets.tryGetValue p = s.modSets.tryGetValue p) ∧
          (Implements program q -> t.modSets.tryGetValue q = some []) ∧
          (¬ Implements program q -> forall g,
            g ∈ t.modSet q <-> Variable.global g ∈ program.modifies q) := by
        have hnone := hnew q List.mem_cons_self
        cases himplemented : program.implemented q with
        | true =>
          have hkey : s.modSets.containsKey q = false := by
            rw [Dictionary.containsKey, hnone]
            rfl
          refine ⟨s.addEntry q, ?_, ?_, ?_, ?_⟩
          · simp only [enterDeclaration, himplemented, hkey, if_true,
              Bool.false_eq_true, if_false]
            rfl
          · exact fun p hp => Dictionary.tryGetValue_set_of_ne hp
          · exact fun _ => Dictionary.tryGetValue_set_self
          · exact fun h => absurd (implemented_iff.mp himplemented) h
        | false =>
          have hempty : s.modSet q = [] := by
            rw [State.modSet, hnone]
            rfl
          rcases @foldl_processVariable _ _ _ _ q _ (program.modifies q) s with
            ⟨hother, hmem⟩
          refine ⟨_, ?_, hother, ?_, ?_⟩
          · simp only [enterDeclaration, himplemented, Bool.false_eq_true, if_false]
          · intro h
            rw [implemented_iff.mpr h] at himplemented
            cases himplemented
          · intro _ g
            rw [hmem g, hempty]
            simp
      rcases hfirst with ⟨t, ht, hkept, himplements, hdeclared⟩
      have hnew' : forall p, p ∈ decls.filterMap Declaration.procedure? ->
          t.modSets.tryGetValue p = none := by
        intro p hp
        have hne : p ≠ q := fun heq => honce'.1 (heq ▸ hp)
        rw [hkept p hne]
        exact hnew p (List.mem_cons_of_mem q hp)
      rcases ih honce'.2 hnew' with ⟨s', hs', hother, hentered⟩
      have hq : s'.modSets.tryGetValue q = t.modSets.tryGetValue q :=
        hother q honce'.1
      refine ⟨s', ?_, ?_, ?_⟩
      · rw [List.foldlM_cons, ht]
        exact hs'
      · intro p hp
        rw [hother p (fun hmem => hp (List.mem_cons_of_mem q hmem))]
        exact hkept p (fun heq => hp (heq ▸ List.mem_cons_self))
      · intro p hp
        rcases List.mem_cons.mp hp with rfl | hp
        · rw [hq, State.modSet, hq]
          exact ⟨himplements, hdeclared⟩
        · exact hentered p hp

theorem initial_entered (program : Program Procedure Global Other) :
    exists s, program.topLevelDeclarations.foldlM
        (fun s d => enterDeclaration program d s) State.initial = some s ∧
      Entered program s ∧ s.Minimal program := by
  have hnone : forall p, (State.initial : State Procedure Global).modSets.tryGetValue p =
      none := fun p => rfl
  rcases @enterDeclarations_spec _ _ _ _ program _ _ State.initial
    program.declared_once (fun p _ => hnone p) with ⟨s, hs, hother, hentered⟩
  have hdeclares : forall p, Declares program p <->
      p ∈ program.topLevelDeclarations.filterMap Declaration.procedure? := by
    intro p
    rw [← mem_procedures, Program.procedures, List.mem_toFinset]
  have hentry : Entered program s := by
    refine ⟨?_, ?_, ?_⟩
    · intro p himplements
      have h := (hentered p ((hdeclares p).mp himplements.declares)).1 himplements
      rw [Dictionary.containsKey, h]
      rfl
    · intro p hp himplements
      exact (hentered p ((hdeclares p).mp hp)).2 himplements
    · intro p hp
      exact (hother p (fun hmem => hp ((hdeclares p).mpr hmem))).trans (hnone p)
  refine ⟨s, hs, hentry, ?_⟩
  intro modifies hclosed p g hg
  by_cases himplements : Implements program p
  · have h := (hentered p ((hdeclares p).mp himplements.declares)).1 himplements
    rw [State.modSet, h] at hg
    cases hg
  · by_cases hp : Declares program p
    · exact hclosed.declared p g himplements ((hentry.declared p hp himplements g).mp hg)
    · rw [State.modSet, hentry.undeclared p hp] at hg
      cases hg

/-!
# The result
-/

omit [DecidableEq Global] in
theorem mem_result_of_implements (hs : Entered program s) (hp : Implements program p) (g : Global) :
    Variable.global g ∈ (s.result program).modifies p <-> g ∈ s.modSet p := by
  have hkey := hs.implemented p hp
  cases hvars : s.modSets.tryGetValue p with
  | none =>
    rw [Dictionary.containsKey, hvars] at hkey
    cases hkey
  | some vars => simp [State.result, State.modSet, hvars]

omit [DecidableEq Global] in
theorem mem_result_of_not_implements (hs : Entered program s)
    (hp : ¬ Implements program p) (g : Global) :
    Variable.global g ∈ (s.result program).modifies p <->
      Variable.global g ∈ program.modifies p := by
  cases hvars : s.modSets.tryGetValue p with
  | none => simp [State.result, hvars]
  | some vars =>
    have hdeclares : Declares program p := by
      by_contra hnot
      rw [hs.undeclared p hnot] at hvars
      cases hvars
    rw [← hs.declared p hdeclares hp]
    simp [State.result, State.modSet, hvars]

omit [DecidableEq Global] in
theorem mem_result_subset (hs : Entered program s) (hminimal : s.Minimal program)
    {modifies : Procedure -> Set Global} (hclosed : Closed program modifies) {g : Global}
    (hg : Variable.global g ∈ (s.result program).modifies p) : g ∈ modifies p := by
  by_cases hp : Implements program p
  · rw [mem_result_of_implements hs hp] at hg
    exact hminimal modifies hclosed p g hg
  · rw [mem_result_of_not_implements hs hp] at hg
    exact hclosed.declared p g hp hg

/-- The analysis ends with the least closed sets, and the procedures without
implementation keep their globals. -/
theorem doModSetAnalysis_least (program : Program Procedure Global Other) :
    exists n result, (forall m, n ≤ m -> doModSetAnalysis m program = some result) ∧
        IsLeast { modifies | Closed program modifies }
          (fun p => { g | Variable.global g ∈ result.modifies p }) ∧
        forall p, ¬ Implements program p -> forall g, Variable.global g ∈ result.modifies p <->
            Variable.global g ∈ program.modifies p := by
  rcases initial_entered program with ⟨s₀, hs₀, hentered₀, hminimal₀⟩
  have hround : forall s, Entered program s ∧ s.Minimal program ->
      exists s', visitProgram program s = some s' ∧
        (s'.moreProcessingRequired = true ->
          (Entered program s' ∧ s'.Minimal program) ∧
            s'.room program < s.room program) := by
    intro s ⟨hentered, hminimal⟩
    rcases visitProgram_seen program s with ⟨s', hs', hwalk, _⟩
    exact ⟨s', hs', fun hmore =>
      ⟨⟨hwalk.entered hentered.fresh, hwalk.minimal hminimal⟩,
        (hwalk.room hminimal).2 rfl hmore⟩⟩
  rcases Rounds.exists_repeatWhile hround ⟨hentered₀, hminimal₀⟩ with
    ⟨n, s, hruns, last, ⟨hentered, hminimal⟩, hlast, hagain⟩
  rcases visitProgram_seen program last with ⟨s', hs', hwalk, hseen⟩
  rw [hlast] at hs'
  cases hs'
  -- the last walk has changed no set, so what it has seen is closed
  have hsame : forall q, s.modSet q = last.modSet q :=
    fun q => hwalk.modSet_eq hagain q
  have hs := hwalk.entered hentered.fresh
  have hsmin := hwalk.minimal hminimal
  refine ⟨n, s.result program, ?_, ⟨⟨?_, ?_, ?_⟩, ?_⟩, ?_⟩
  · intro m hm
    rw [doModSetAnalysis, hs₀, Option.bind_eq_bind, Option.bind_some, hruns m hm]
    rfl
  · intro p g hp hg
    exact (mem_result_of_not_implements hs hp g).mpr hg
  · intro p g hassigns
    exact (mem_result_of_implements hs hassigns.implements g).mpr
      (hseen.assigned p g hassigns)
  · intro p q hcalls g hg
    apply (mem_result_of_implements hs hcalls.implements g).mpr
    apply hseen.called p q hcalls
    rw [← hsame]
    by_cases hq : Implements program q
    · exact (mem_result_of_implements hs hq g).mp hg
    · rw [hs.declared q hcalls.declares hq]
      exact (mem_result_of_not_implements hs hq g).mp hg
  · intro modifies hclosed p g hg
    exact mem_result_subset hs hsmin hclosed hg
  · intro p hp g
    exact mem_result_of_not_implements hs hp g

end Analysis

/-!
# Mutual recursion and a procedure without implementation
-/

def exchangeCallee : List (Cmd String String String) :=
  [Cmd.assign [AssignLhs.map (AssignLhs.simple (Variable.global "g"))],
    Cmd.call ⟨"q", [], false⟩]

def exchangeCaller : List (Cmd String String String) :=
  [Cmd.call ⟨"p", [some (Variable.global "h"), none], false⟩, Cmd.call ⟨"r", [], false⟩]

/-- `p` and `q` call each other, and `r` has only a modifies clause. -/
def exchangeDeclarations : List (Declaration String String String) :=
  [Declaration.procedure "p", Declaration.procedure "q", Declaration.procedure "r",
    Declaration.implementation "p" [exchangeCallee],
    Declaration.implementation "q" [exchangeCaller]]

theorem exchange_implementation {p : String} {blocks : List (List (Cmd String String String))}
    (h : Declaration.implementation p blocks ∈ exchangeDeclarations) :
    p = "p" ∧ blocks = [exchangeCallee] ∨ p = "q" ∧ blocks = [exchangeCaller] := by
  simpa [exchangeDeclarations] using h

theorem exchange_callees {p q : String} {blocks : List (List (Cmd String String String))}
    {cmds : List (Cmd String String String)} {c : Cmd String String String}
    (hdecl : Declaration.implementation p blocks ∈ exchangeDeclarations)
    (hcmds : cmds ∈ blocks) (hc : c ∈ cmds) (hq : q ∈ c.callees) :
    p = "p" ∧ q = "q" ∨ p = "q" ∧ (q = "p" ∨ q = "r") := by
  rcases exchange_implementation hdecl with ⟨rfl, rfl⟩ | ⟨rfl, rfl⟩
  · cases List.mem_singleton.mp hcmds
    simp only [exchangeCallee, List.mem_cons, List.not_mem_nil, or_false] at hc
    rcases hc with rfl | rfl
    · simp [Cmd.callees] at hq
    · exact Or.inl ⟨rfl, by simpa [Cmd.callees] using hq⟩
  · cases List.mem_singleton.mp hcmds
    simp only [exchangeCaller, List.mem_cons, List.not_mem_nil, or_false] at hc
    rcases hc with rfl | rfl
    · exact Or.inr ⟨rfl, Or.inl (by simpa [Cmd.callees] using hq)⟩
    · exact Or.inr ⟨rfl, Or.inr (by simpa [Cmd.callees] using hq)⟩

theorem exchange_declared_once :
    (exchangeDeclarations.filterMap Declaration.procedure?).Nodup := by
  show ["p", "q", "r"].Nodup
  decide

theorem exchange_proc_declared (p : String) (blocks : List (List (Cmd String String String)))
    (h : Declaration.implementation p blocks ∈ exchangeDeclarations) :
    Declaration.procedure p ∈ exchangeDeclarations := by
  rcases exchange_implementation h with ⟨rfl, _⟩ | ⟨rfl, _⟩ <;> simp [exchangeDeclarations]

theorem exchange_callee_declared (p : String) (blocks : List (List (Cmd String String String)))
    (cmds : List (Cmd String String String)) (c : Cmd String String String) (q : String)
    (hdecl : Declaration.implementation p blocks ∈ exchangeDeclarations)
    (hcmds : cmds ∈ blocks) (hc : c ∈ cmds) (hq : q ∈ Cmd.callees c) :
    Declaration.procedure q ∈ exchangeDeclarations := by
  rcases exchange_callees hdecl hcmds hc hq with ⟨_, rfl⟩ | ⟨_, rfl | rfl⟩ <;>
    simp [exchangeDeclarations]

def exchangeProgram : Program String String String where
  topLevelDeclarations := exchangeDeclarations
  modifies := fun p => if p = "r" then [Variable.global "k"] else []
  yields := fun _ => false
  stable := fun _ => false
  declared_once := exchange_declared_once
  proc_declared := exchange_proc_declared
  callee_declared := exchange_callee_declared

def exchangeModifies (p : String) : Set String :=
  if p = "r" then {"k"} else {"g", "h", "k"}

theorem exchange_closed : Closed exchangeProgram exchangeModifies := by
  refine ⟨?_, ?_, ?_⟩
  · intro p g _ hg
    by_cases hp : p = "r" <;> simp_all [exchangeProgram, exchangeModifies]
  · intro p g ⟨c, ⟨blocks, cmds, hdecl, hcmds, hc⟩, hg⟩
    rcases exchange_implementation hdecl with ⟨rfl, rfl⟩ | ⟨rfl, rfl⟩
    · cases List.mem_singleton.mp hcmds
      simp only [exchangeCallee, List.mem_cons, List.not_mem_nil, or_false] at hc
      rcases hc with rfl | rfl <;>
        simp_all [Cmd.assigned, CallCmd.outVariables, AssignLhs.deepAssignedVariable,
          exchangeModifies]
    · cases List.mem_singleton.mp hcmds
      simp only [exchangeCaller, List.mem_cons, List.not_mem_nil, or_false] at hc
      rcases hc with rfl | rfl <;>
        simp_all [Cmd.assigned, CallCmd.outVariables, exchangeModifies]
  · intro p q ⟨c, ⟨blocks, cmds, hdecl, hcmds, hc⟩, hq⟩
    rcases exchange_callees hdecl hcmds hc hq with ⟨rfl, rfl⟩ | ⟨rfl, rfl | rfl⟩ <;>
      simp [exchangeModifies]

theorem exchange_least {modifies : String -> Set String}
    (h : Closed exchangeProgram modifies) (p : String) (hp : p = "p" ∨ p = "q") :
    {"g", "h", "k"} ⊆ modifies p := by
  have hcallee : Declaration.implementation "p" [exchangeCallee] ∈
      exchangeProgram.topLevelDeclarations := by
    simp [exchangeProgram, exchangeDeclarations]
  have hcaller : Declaration.implementation "q" [exchangeCaller] ∈
      exchangeProgram.topLevelDeclarations := by
    simp [exchangeProgram, exchangeDeclarations]
  have hpq : Calls exchangeProgram "p" "q" :=
    ⟨Cmd.call ⟨"q", [], false⟩, ⟨_, _, hcallee, List.mem_singleton_self _,
      by simp [exchangeCallee]⟩, by simp [Cmd.callees]⟩
  have hqp : Calls exchangeProgram "q" "p" :=
    ⟨Cmd.call ⟨"p", [some (Variable.global "h"), none], false⟩,
      ⟨_, _, hcaller, List.mem_singleton_self _, by simp [exchangeCaller]⟩,
      by simp [Cmd.callees]⟩
  have hqr : Calls exchangeProgram "q" "r" :=
    ⟨Cmd.call ⟨"r", [], false⟩, ⟨_, _, hcaller, List.mem_singleton_self _,
      by simp [exchangeCaller]⟩, by simp [Cmd.callees]⟩
  have hg : "g" ∈ modifies "p" := h.assigned "p" "g"
    ⟨_, ⟨_, _, hcallee, List.mem_singleton_self _, List.mem_cons_self⟩,
      by simp [Cmd.assigned, AssignLhs.deepAssignedVariable]⟩
  have hh : "h" ∈ modifies "q" := h.assigned "q" "h"
    ⟨_, ⟨_, _, hcaller, List.mem_singleton_self _, List.mem_cons_self⟩,
      by simp [Cmd.assigned, CallCmd.outVariables]⟩
  have hr : ¬ Implements exchangeProgram "r" := by
    rintro ⟨blocks, hdecl⟩
    rcases exchange_implementation hdecl with ⟨heq, _⟩ | ⟨heq, _⟩ <;> simp at heq
  have hk : "k" ∈ modifies "q" := h.called "q" "r" hqr
    (h.declared "r" "k" hr (by simp [exchangeProgram]))
  rintro g (rfl | rfl | rfl) <;> rcases hp with rfl | rfl
  · exact hg
  · exact h.called "q" "p" hqp hg
  · exact h.called "p" "q" hpq hh
  · exact hh
  · exact h.called "p" "q" hpq hk
  · exact hk

theorem doModSetAnalysis_least_exchange :
    exists n result, doModSetAnalysis n exchangeProgram = some result ∧
      (forall p, p = "p" ∨ p = "q" ->
        { g | Variable.global g ∈ result.modifies p } = {"g", "h", "k"}) ∧
      { g | Variable.global g ∈ result.modifies "r" } = {"k"} := by
  rcases doModSetAnalysis_least exchangeProgram with ⟨n, result, hruns, ⟨hclosed, hleast⟩, _⟩
  have hbelow := hleast exchange_closed
  refine ⟨n, result, hruns n (Nat.le_refl n), ?_, ?_⟩
  · intro p hp
    apply Set.Subset.antisymm
    · intro g hg
      have hmem := hbelow p hg
      rcases hp with rfl | rfl <;> simpa [exchangeModifies] using hmem
    · exact exchange_least hclosed p hp
  · apply Set.Subset.antisymm
    · intro g hg
      simpa [exchangeModifies] using hbelow "r" hg
    · rintro g rfl
      apply hclosed.declared "r" "k"
      · rintro ⟨blocks, hdecl⟩
        rcases exchange_implementation hdecl with ⟨heq, _⟩ | ⟨heq, _⟩ <;> simp at heq
      · simp [exchangeProgram]

end ModSetCollector
end Boogie
