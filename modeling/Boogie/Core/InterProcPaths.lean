import Boogie.Core.InterProcSettled

/-!
# Paths

The paths of a procedure from its first block to a block that returns, with those of
the procedures that it calls.  The summaries are above the paths, without the reads
that the weights do not count.
-/

namespace Boogie
namespace InterProcGenKill

open GenKill (Effect Weight readFirst overwritten ofPath)

section Paths

variable {ProcName BlockId : Type} [DecidableEq ProcName]
variable {program : Program ProcName BlockId}

/-!
# Steps of paths
-/

inductive Part (ProcName BlockId : Type) where
  | cmds (cmds : List (Cmd ProcName))
  | block (b : BlockId)

def Inside (program : Program ProcName BlockId) (c : Cmd ProcName) : Prop :=
  forall q, c.callee? = some q -> ¬ Analysed program q

inductive Trace (program : Program ProcName BlockId) (r : Reads) :
    ProcName -> Part ProcName BlockId -> List (Effect Variable) -> Prop where
  | nil (p : ProcName) : Trace program r p (.cmds []) []
  | cmd (p : ProcName) (c : Cmd ProcName) (cmds : List (Cmd ProcName))
      (t : List (Effect Variable)) (hc : Inside program c)
      (ht : Trace program r p (.cmds cmds) t) :
      Trace program r p (.cmds (c :: cmds)) (effects r (program.scope p) c ++ t)
  | call (p : ProcName) (c : CallCmd ProcName) (desugaring : Cmd ProcName)
      (cmds : List (Cmd ProcName)) (t t' : List (Effect Variable))
      (hq : Analysed program c.proc)
      (ht : Trace program r c.proc (.block (program.cfg c.proc).first) t)
      (ht' : Trace program r p (.cmds cmds) t') :
      Trace program r p (.cmds (.call c desugaring :: cmds))
        (callEffects r (program.procedures c.proc) c t ++ t')
  | exit (p : ProcName) (b : BlockId) (t : List (Effect Variable))
      (hexit : (program.cfg p).isExit b = true)
      (ht : Trace program r p (.cmds ((program.cfg p).cmds b)) t) :
      Trace program r p (.block b) t
  | goto (p : ProcName) (b b' : BlockId) (t t' : List (Effect Variable))
      (hedge : (program.cfg p).Edge b b')
      (ht : Trace program r p (.cmds ((program.cfg p).cmds b)) t)
      (ht' : Trace program r p (.block b') t') :
      Trace program r p (.block b) (t ++ t')

def PathOf (program : Program ProcName BlockId) (r : Reads) (p : ProcName)
    (t : List (Effect Variable)) : Prop :=
  Trace program r p (.block (program.cfg p).first) t

theorem Trace.counted {p : ProcName} {part : Part ProcName BlockId}
    {t : List (Effect Variable)} (h : Trace program .all p part t) :
    exists t', Trace program .counted p part t' ∧ overwritten t' = overwritten t := by
  induction h with
  | nil p => exact ⟨[], .nil p, rfl⟩
  | cmd p c cmds t hc _ ih =>
    rcases ih with ⟨u, hu, heq⟩
    refine ⟨_, .cmd p c cmds u hc hu, ?_⟩
    rw [GenKill.overwritten_append, GenKill.overwritten_append, heq,
      overwritten_effects]
  | call p c desugaring cmds t t' hq _ _ ih ih' =>
    rcases ih with ⟨u, hu, heq⟩
    rcases ih' with ⟨u', hu', heq'⟩
    refine ⟨_, .call p c desugaring cmds u u' hq hu hu', ?_⟩
    rw [GenKill.overwritten_append, GenKill.overwritten_append, heq',
      overwritten_callEffects, overwritten_callEffects, heq]
  | exit p b t hexit _ ih =>
    rcases ih with ⟨u, hu, heq⟩
    exact ⟨u, .exit p b u hexit hu, heq⟩
  | goto p b b' t t' hedge _ _ ih ih' =>
    rcases ih with ⟨u, hu, heq⟩
    rcases ih' with ⟨u', hu', heq'⟩
    refine ⟨_, .goto p b b' u u' hedge hu hu', ?_⟩
    rw [GenKill.overwritten_append, GenKill.overwritten_append, heq, heq']

/-!
# Summaries are above paths
-/

variable [DecidableEq BlockId] {d : Discovery ProcName BlockId}
variable {s : ValueState ProcName BlockId}

def AbovePath (program : Program ProcName BlockId) (procICFG : List ProcName)
    (s : ValueState ProcName BlockId) (p : ProcName) (part : Part ProcName BlockId)
    (t : List (Effect Variable)) : Prop :=
  match part with
  | .cmds cmds => forall t' w, ofPath t' ≤ w ->
      ofPath (t ++ t') ≤ blockValue program procICFG s.summary p cmds w
  | .block b => b ∈ (program.cfg p).blocks ->
      ofPath t ≤ s.itemValue program procICFG (p, b)

theorem Trace.abovePath (hd : Discovered program d)
    (hs : ValueState.Invariant program d s) (hempty : s.workList = []) {p : ProcName}
    {part : Part ProcName BlockId} {t : List (Effect Variable)}
    (h : Trace program .counted p part t) (hp : Analysed program p) :
    AbovePath program d.procICFG s p part t := by
  have hsettled : forall x, Analysed program x.1 -> x.2 ∈ (program.cfg x.1).blocks ->
      s.Settled program d.procICFG x := by
    intro x hx hblock
    apply hs.settled x hx hblock
    rw [hempty]
    exact List.not_mem_nil
  induction h with
  | nil p => exact fun t' w hw => hw
  | cmd p c cmds t hc _ ih =>
    intro t' w hw
    have hcmd : cmdValue program d.procICFG s.summary p c =
        ofPath (effects .counted (program.scope p) c) := by
      cases c with
      | call call desugaring =>
        exact if_neg (fun hmem => hc call.proc rfl ((hd.analysed _).mp hmem))
      | assign lhss rhss => rfl
      | havoc vars => rfl
      | predicate expr => rfl
      | comment => rfl
      | state locals cmds => rfl
    rw [List.append_assoc, GenKill.ofPath_append, blockValue, hcmd]
    exact GenKill.extend_mono le_rfl (ih hp t' w hw)
  | call p c desugaring cmds t t' hq _ _ ih ih' =>
    intro u w hw
    have hfirst : (program.cfg c.proc).first ∈ (program.cfg c.proc).blocks :=
      List.mem_cons_self
    have hsummary : ofPath t ≤ s.summary c.proc :=
      (ih hq hfirst).trans ((hsettled (c.proc, _) hq hfirst).2 rfl)
    have hcmd : cmdValue program d.procICFG s.summary p (.call c desugaring) =
        callValue (program.procedures c.proc) (s.summary c.proc) c :=
      if_pos ((hd.analysed _).mpr hq)
    rw [List.append_assoc, GenKill.ofPath_append, blockValue, hcmd]
    exact GenKill.extend_mono (ofPath_callEffects_le hsummary _ c) (ih' hp u w hw)
  | exit p b t hexit _ ih =>
    intro hblock
    have hafter := hs.exits (p, b)
      (mem_exitItems.mpr ⟨(hd.analysed p).mpr hp, hblock, hexit⟩)
    have hpath := ih hp [] _ hafter
    rwa [List.append_nil] at hpath
  | goto p b b' t t' hedge _ _ ih ih' =>
    intro hblock
    have hblock' : b' ∈ (program.cfg p).blocks :=
      (program.cfg p).targets_mem b hblock b' hedge
    have hpred : (p, b) ∈ predItems program (p, b') :=
      mem_predItems.mpr ⟨rfl, hblock, hedge⟩
    exact ih hp t' _ ((ih' hp hblock').trans ((hsettled (p, b') hp hblock').1 _ hpred))

theorem PathOf.le_summary (hd : Discovered program d)
    (hs : ValueState.Invariant program d s) (hempty : s.workList = []) {p : ProcName}
    {t : List (Effect Variable)} (h : PathOf program .counted p t)
    (hp : Analysed program p) : ofPath t ≤ s.summary p := by
  have hfirst : (program.cfg p).first ∈ (program.cfg p).blocks := List.mem_cons_self
  have hsettled : s.Settled program d.procICFG (p, (program.cfg p).first) := by
    apply hs.settled _ hp hfirst
    rw [hempty]
    exact List.not_mem_nil
  exact (h.abovePath hd hs hempty hp hfirst).trans (hsettled.2 rfl)

end Paths

end InterProcGenKill
end Boogie
