import Boogie.Houdini.Candidates
import Boogie.VCGeneration.LetVCSound

/-!
# Candidates in passive implementations

An implementation whose candidates are partly removed is compared with the
implementation before: its executions, the assertions they find false and its
correctness.
-/

namespace Boogie

/-!
# Failing assertions
-/

def PassiveProgram.cmds (P : PassiveProgram) : List Cmd :=
  P.blocks.flatMap Block.cmds

theorem acyclic_of_returns {blocks : List Block}
    (h : forall b, b ∈ blocks -> b.labelTargets = []) : Acyclic blocks := by
  apply VCGen.acyclic_of_forward
  intro b hb t ht
  rw [h b hb] at ht
  cases ht

def PassiveProgram.single (b : Block)
    (passive : forall c, c ∈ b.cmds -> c.passive = true)
    (returns : b.transferCmd = .returnCmd) (distinct : b.ids.Nodup)
    (positive : forall id, id ∈ b.ids -> 0 < id) : PassiveProgram where
  start := b
  rest := []
  passive := by simpa using passive
  transfers := by simp [returns]
  closed := by simp [Block.labelTargets, returns, TransferCmd.labelTargets]
  acyclic := by
    apply acyclic_of_returns
    intro b' hb'
    rw [List.mem_singleton.mp hb']
    simp [Block.labelTargets, returns, TransferCmd.labelTargets]
  distinct := by simpa using distinct
  positive := by simpa using positive

inductive Falsifies {U : Type} [DecidableEq U] (C : Context U)
    (blocks : List Block) (ac : AssertCmd) : Nat -> Env U -> Prop where
  | cmds {b : Block} {before after : List Cmd} {ρ ρ' : Env U} :
      b ∈ blocks -> b.cmds = before ++ .assertCmd ac :: after ->
      CmdsRun C before ρ ρ' -> ¬ C.Holds ρ' ac.expr ->
      Falsifies C blocks ac b.uniqueId ρ
  | jump {b : Block} {target : Nat} {ρ₁ ρ₂ : Env U} :
      b ∈ blocks -> CmdsRun C b.cmds ρ₁ ρ₂ -> target ∈ b.labelTargets ->
      Falsifies C blocks ac target ρ₂ ->
      Falsifies C blocks ac b.uniqueId ρ₁

section Falsifies

variable {U : Type} [DecidableEq U] {C : Context U} {P : PassiveProgram}
  {ac : AssertCmd} {id : Nat} {ρ σ : Env U}

theorem PassiveProgram.mem_cmds {b : Block} {c : Cmd} (hb : b ∈ P.blocks)
    (hc : c ∈ b.cmds) : c ∈ P.cmds :=
  List.mem_flatMap.mpr ⟨b, hb, hc⟩

theorem CmdsFail.split {cs : List Cmd} (h : CmdsFail C cs ρ)
    (hp : forall c, c ∈ cs -> c.passive = true) :
    exists before ac after, cs = before ++ .assertCmd ac :: after ∧
      CmdsRun C before ρ ρ ∧ ¬ C.Holds ρ ac.expr := by
  induction h with
  | here hfail =>
    rename_i c cs ρ
    have hc := hp c (by simp)
    cases c with
    | assertCmd ac => exact ⟨[], ac, cs, rfl, CmdsRun.nil ρ, hfail⟩
    | callCmd => simp [Cmd.passive] at hc
    | _ => cases hfail
  | later hstep hrest ih =>
    rename_i c cs ρ₁ ρ₂
    have hstate := hstep.passive_eq (hp c (by simp))
    subst hstate
    rcases ih (fun d hd => hp d (by simp [hd])) with
      ⟨before, ac, after, hcs, hrun, hfalse⟩
    exact ⟨c :: before, ac, after, by rw [hcs]; rfl, CmdsRun.cons hstep hrun,
      hfalse⟩

theorem CmdsFail.of_split {before after : List Cmd} {ρ' : Env U}
    (hrun : CmdsRun C before ρ ρ') (hfalse : ¬ C.Holds ρ' ac.expr) :
    CmdsFail C (before ++ .assertCmd ac :: after) ρ :=
  cmdsFail_append.mpr (Or.inr ⟨ρ', hrun, CmdsFail.here hfalse⟩)

theorem wrong_iff_falsifies :
    Wrong C P.blocks id ρ <-> exists ac, .assertCmd ac ∈ P.cmds ∧ Falsifies C P.blocks ac id ρ := by
  constructor
  · intro h
    induction h with
    | cmds hb hfail =>
      rename_i b ρ
      rcases hfail.split (P.passive b hb) with
        ⟨before, ac, after, hcmds, hrun, hfalse⟩
      have hmem : Cmd.assertCmd ac ∈ b.cmds := by simp [hcmds]
      exact ⟨ac, PassiveProgram.mem_cmds hb hmem,
        Falsifies.cmds hb hcmds hrun hfalse⟩
    | jump hb hrun ht _ ih =>
      rcases ih with ⟨ac, hac, hrest⟩
      exact ⟨ac, hac, Falsifies.jump hb hrun ht hrest⟩
  · intro ⟨ac, _, h⟩
    induction h with
    | cmds hb hcmds hrun hfalse =>
      apply Wrong.cmds hb
      rw [hcmds]
      exact CmdsFail.of_split hrun hfalse
    | jump hb hrun ht _ ih => exact Wrong.jump hb hrun ht ih

theorem CmdsRun.transfer {C' : Context U} {cs : List Cmd} {ρ' : Env U}
    (h : CmdsRun C cs ρ ρ') (hp : forall c, c ∈ cs -> c.passive = true)
    (hassume : forall a, .assumeCmd a ∈ cs -> C.Holds ρ a.expr -> C'.Holds σ a.expr) :
    CmdsRun C' cs σ σ := by
  induction h with
  | nil => exact CmdsRun.nil σ
  | cons hstep hrest ih =>
    rename_i c cs ρ₁ ρ₂ ρ₃
    have hc := hp c (by simp)
    have hstate : ρ₂ = ρ₁ := hstep.passive_eq hc
    have ihrest := ih (fun d hd => hp d (by simp [hd]))
      (fun a ha => by
        rw [hstate]
        exact hassume a (by simp [ha]))
    cases hstep with
    | assert a => exact CmdsRun.cons (CmdStep.assert a σ) ihrest
    | assume a _ ha =>
      exact CmdsRun.cons (CmdStep.assume a σ (hassume a (by simp) ha))
        ihrest
    | comment s => exact CmdsRun.cons (CmdStep.comment s σ) ihrest
    | assign => simp [Cmd.passive] at hc
    | havoc => simp [Cmd.passive] at hc
    | call => simp [Cmd.passive] at hc

theorem Falsifies.transfer {C' : Context U} (h : Falsifies C P.blocks ac id ρ)
    (hassume : forall a, .assumeCmd a ∈ P.cmds -> C.Holds ρ a.expr -> C'.Holds σ a.expr)
    (hassert : C'.Holds σ ac.expr -> C.Holds ρ ac.expr) :
    Falsifies C' P.blocks ac id σ := by
  induction h with
  | cmds hb hcmds hrun hfalse =>
    rename_i b before after ρ ρ'
    have hmem : forall c, c ∈ before -> c ∈ b.cmds := by
      intro c hc
      rw [hcmds]
      exact List.mem_append_left _ hc
    have hp : forall c, c ∈ before -> c.passive = true :=
      fun c hc => P.passive b hb c (hmem c hc)
    have hstate := hrun.passive_eq hp
    subst hstate
    refine Falsifies.cmds hb hcmds (hrun.transfer hp ?_)
      (fun hholds => hfalse (hassert hholds))
    intro a ha
    exact hassume a (PassiveProgram.mem_cmds hb (hmem _ ha))
  | jump hb hrun ht hrest ih =>
    rename_i b target ρ₁ ρ₂
    have hstate := hrun.passive_eq (P.passive b hb)
    subst hstate
    refine Falsifies.jump hb (hrun.transfer (P.passive b hb) ?_) ht
      (ih hassume hassert)
    intro a ha
    exact hassume a (PassiveProgram.mem_cmds hb ha)

theorem Falsifies.not_holds (h : Falsifies C P.blocks ac id ρ) :
    ¬ C.Holds ρ ac.expr := by
  induction h with
  | cmds hb hcmds hrun hfalse =>
    rename_i b before after ρ ρ'
    have hp : forall c, c ∈ before -> c.passive = true := by
      intro c hc
      apply P.passive b hb c
      rw [hcmds]
      exact List.mem_append_left _ hc
    rwa [hrun.passive_eq hp] at hfalse
  | jump hb hrun ht hrest ih =>
    rename_i b target ρ₁ ρ₂
    rwa [hrun.passive_eq (P.passive b hb)] at ih

end Falsifies

/-!
# Programs of one block
-/

section Single

variable {U : Type} [DecidableEq U] {C : Context U} {ρ : Env U} {cs : List Cmd}

@[simp] theorem not_cmdsFail_nil : ¬ CmdsFail C [] ρ := by
  intro h
  cases h

@[simp] theorem cmdsFail_assume {a : AssumeCmd} :
    CmdsFail C (.assumeCmd a :: cs) ρ <-> C.Holds ρ a.expr ∧ CmdsFail C cs ρ := by
  constructor
  · intro h
    cases h with
    | here hfail => exact hfail.elim
    | later hstep hrest =>
      cases hstep with
      | assume _ _ hholds => exact ⟨hholds, hrest⟩
  · intro ⟨hholds, hrest⟩
    exact CmdsFail.later (CmdStep.assume a ρ hholds) hrest

@[simp] theorem cmdsFail_assert {a : AssertCmd} :
    CmdsFail C (.assertCmd a :: cs) ρ <-> ¬ C.Holds ρ a.expr ∨ CmdsFail C cs ρ := by
  constructor
  · intro h
    cases h with
    | here hfail => exact Or.inl hfail
    | later hstep hrest =>
      cases hstep with
      | assert => exact Or.inr hrest
  · intro h
    rcases h with hfail | hrest
    · exact CmdsFail.here hfail
    · exact CmdsFail.later (CmdStep.assert a ρ) hrest

theorem cmdsRun_of_assumed (hp : forall c, c ∈ cs -> c.passive = true)
    (h : forall a, .assumeCmd a ∈ cs -> C.Holds ρ a.expr) :
    CmdsRun C cs ρ ρ := by
  induction cs with
  | nil => exact CmdsRun.nil ρ
  | cons c cs ih =>
    have hrest := ih (fun d hd => hp d (by simp [hd]))
      (fun a ha => h a (by simp [ha]))
    have hc := hp c (by simp)
    cases c with
    | assertCmd a => exact CmdsRun.cons (CmdStep.assert a ρ) hrest
    | assumeCmd a =>
      exact CmdsRun.cons (CmdStep.assume a ρ (h a (by simp))) hrest
    | commentCmd s => exact CmdsRun.cons (CmdStep.comment s ρ) hrest
    | _ => simp [Cmd.passive] at hc

theorem wrong_single {b : Block} (hreturns : b.transferCmd = .returnCmd) :
    Wrong C [b] b.uniqueId ρ <-> CmdsFail C b.cmds ρ := by
  constructor
  · intro h
    rcases h.cases_block with ⟨b', hb, _, hcase⟩
    rw [List.mem_singleton.mp hb] at hcase
    rcases hcase with hfail | ⟨target, ρ', _, htarget, _⟩
    · exact hfail
    · simp [Block.labelTargets, hreturns, TransferCmd.labelTargets] at htarget
  · exact Wrong.cmds List.mem_cons_self

end Single

namespace Houdini

/-!
# Counterexamples
-/

inductive Counterexample where
  | callCounterexample (failingCall : String) (failingRequires : Expr)
  | returnCounterexample (failingEnsures : Expr)
  | assertCounterexample (failingAssert : AssertCmd)
deriving DecidableEq, Repr

def assertCmdToCounterexample (cmd : AssertCmd) : Counterexample :=
  match cmd.kind with
  | .assertRequiresCmd callee condition => .callCounterexample callee condition
  | .assertEnsuresCmd condition => .returnCounterexample condition
  | _ => .assertCounterexample cmd

end Houdini

/-!
# Passive implementations

What `ConvertCFG2DAG` and `PassifyImpl` make of an implementation.  They give
variables new names and put arguments for parameters, but leave constants as
they are: a condition in which a candidate occurs comes from an annotation and
has its candidate.
-/

def Implementation.Checks (impl : Implementation) : Site -> Prop
  | .requiresOf proc => proc ∈ impl.callees
  | .ensuresOf proc => proc = impl.name
  | .bodyOf impl' => impl' = impl

def Implementation.Assumes (impl : Implementation) : Site -> Prop
  | .requiresOf proc => proc = impl.name
  | .ensuresOf proc => proc ∈ impl.callees
  | .bodyOf impl' => impl' = impl

def AssertCmd.annotation (impl : Implementation) (cmd : AssertCmd) :
    Option (Site × Expr) :=
  match cmd.kind with
  | .assertRequiresCmd callee condition => some (.requiresOf callee, condition)
  | .assertEnsuresCmd condition => some (.ensuresOf impl.name, condition)
  | _ => cmd.origExpr.map (fun e => (.bodyOf impl, e))

structure SameCandidates (p : Program) (e source : Expr) : Prop where
  mentions : forall c, c ∈ p.houdiniConstants ->
    (e.Mentions c <-> source.Mentions c)
  matched : p.matchCandidate e = p.matchCandidate source

structure PassifiedImpl (p : Program) (impl : Implementation) where
  passive : PassiveProgram
  resolves : forall cmd, cmd ∈ passive.cmds -> forall e,
    cmd.predicate = some e -> p.Resolves e
  asserts : forall ac, .assertCmd ac ∈ passive.cmds ->
    exists site source, ac.annotation impl = some (site, source) ∧
      impl.Checks site ∧ p.Annotates source site ∧
      SameCandidates p ac.expr source
  assumes : forall ac, .assumeCmd ac ∈ passive.cmds ->
    forall c, c ∈ p.houdiniConstants -> ac.expr.Mentions c ->
      exists site source, impl.Assumes site ∧ p.Annotates source site ∧
        SameCandidates p ac.expr source

namespace PassifiedImpl

variable {p : Program} {impl : Implementation}

def assertConstant (p : Program) : Cmd -> Option Variable
  | .assertCmd ac => p.matchCandidate ac.expr
  | _ => none

def assumeConstant (p : Program) : Cmd -> Option Variable
  | .assumeCmd ac => p.matchCandidate ac.expr
  | _ => none

/-- `ExistentialConstantCollector`, for assertions. -/
def houdiniAssertConstants (P : PassifiedImpl p impl) : List Variable :=
  (P.passive.cmds.filterMap (assertConstant p)).dedup

def houdiniAssumeConstants (P : PassifiedImpl p impl) : List Variable :=
  (P.passive.cmds.filterMap (assumeConstant p)).dedup

theorem mem_houdiniAssertConstants {P : PassifiedImpl p impl} {c : Variable} :
    c ∈ P.houdiniAssertConstants <-> exists ac, .assertCmd ac ∈ P.passive.cmds ∧
        p.matchCandidate ac.expr = some c := by
  simp only [houdiniAssertConstants, List.mem_dedup, List.mem_filterMap]
  constructor
  · intro ⟨cmd, hcmd, hmatch⟩
    cases cmd with
    | assertCmd ac => exact ⟨ac, hcmd, hmatch⟩
    | _ => cases hmatch
  · intro ⟨ac, hac, hmatch⟩
    exact ⟨.assertCmd ac, hac, hmatch⟩

theorem mem_houdiniAssumeConstants {P : PassifiedImpl p impl} {c : Variable} :
    c ∈ P.houdiniAssumeConstants <-> exists ac, .assumeCmd ac ∈ P.passive.cmds ∧
        p.matchCandidate ac.expr = some c := by
  simp only [houdiniAssumeConstants, List.mem_dedup, List.mem_filterMap]
  constructor
  · intro ⟨cmd, hcmd, hmatch⟩
    cases cmd with
    | assumeCmd ac => exact ⟨ac, hcmd, hmatch⟩
    | _ => cases hmatch
  · intro ⟨ac, hac, hmatch⟩
    exact ⟨.assumeCmd ac, hac, hmatch⟩

theorem guarded_of_same {e source : Expr} (h : SameCandidates p e source)
    (hg : p.Guarded source) : p.Guarded e := by
  intro c hc hmem
  rw [h.matched]
  exact hg c hc ((h.mentions c hc).mp hmem)

theorem guarded (P : PassifiedImpl p impl) (hp : p.CandidatesGuard) {cmd : Cmd}
    {e : Expr} (hcmd : cmd ∈ P.passive.cmds) (he : cmd.predicate = some e) :
    p.Guarded e := by
  cases cmd with
  | assertCmd ac =>
    cases he
    rcases P.asserts ac hcmd with ⟨site, source, _, _, hsource, hsame⟩
    exact guarded_of_same hsame (hp.guarded source site hsource)
  | assumeCmd ac =>
    cases he
    intro c hc hmem
    rcases P.assumes ac hcmd c hc hmem with
      ⟨site, source, _, hsource, hsame⟩
    exact guarded_of_same hsame (hp.guarded source site hsource) c hc hmem
  | _ => cases he

theorem mentions_iff_assume (P : PassifiedImpl p impl) (hp : p.CandidatesGuard)
    {c : Variable} (hc : c ∈ p.houdiniConstants) :
    c ∈ P.houdiniAssumeConstants <->
      exists ac, .assumeCmd ac ∈ P.passive.cmds ∧ ac.expr.Mentions c := by
  rw [mem_houdiniAssumeConstants]
  constructor
  · intro ⟨ac, hac, hmatch⟩
    exact ⟨ac, hac, (P.resolves _ hac _ rfl).mentions hmatch⟩
  · intro ⟨ac, hac, hmem⟩
    exact ⟨ac, hac, P.guarded hp hac rfl c hc hmem⟩

end PassifiedImpl

/-!
# Correctness under an assignment
-/

namespace Program

def AxiomsHold (p : Program) {U : Type} [DecidableEq U] (I : Interp U)
    (ρ : Env U) : Prop :=
  forall e, e ∈ p.axioms -> e.Holds I ρ ρ

def Agrees (p : Program) {U : Type} (assignment : Variable -> Option Bool)
    (ρ : Env U) : Prop :=
  forall c, c ∈ p.constants.map Constant.variable -> forall b,
    assignment c = some b -> (ρ c).truth = b

def Verified (p : Program) (P : PassiveProgram)
    (assignment : Variable -> Option Bool) : Prop :=
  forall (U : Type) [DecidableEq U] (C : Context U) (ρ : Env U),
    p.AxiomsHold C.interp ρ -> p.Agrees assignment ρ ->
      Safe C P.blocks P.start.uniqueId ρ

/-- Some execution under the assignment finds the assertion `ac` false. -/
def Refutes (p : Program) (P : PassiveProgram)
    (assignment : Variable -> Option Bool) (ac : AssertCmd) : Prop :=
  exists (U : Type) (_ : DecidableEq U) (C : Context U) (ρ : Env U),
    p.AxiomsHold C.interp ρ ∧ p.Agrees assignment ρ ∧
      Falsifies C P.blocks ac P.start.uniqueId ρ

theorem not_verified_iff {p : Program} {P : PassiveProgram}
    {assignment : Variable -> Option Bool} :
    ¬ p.Verified P assignment <->
      exists ac, .assertCmd ac ∈ P.cmds ∧ p.Refutes P assignment ac := by
  constructor
  · intro h
    unfold Verified at h
    push Not at h
    rcases h with ⟨U, hU, C, ρ, haxioms, hagrees, hwrong⟩
    rcases wrong_iff_falsifies.mp (not_not.mp hwrong) with ⟨ac, hac, hfalse⟩
    exact ⟨ac, hac, U, hU, C, ρ, haxioms, hagrees, hfalse⟩
  · intro ⟨ac, hac, U, hU, C, ρ, haxioms, hagrees, hfalse⟩ hverified
    exact hverified U C ρ haxioms hagrees
      (wrong_iff_falsifies.mpr ⟨ac, hac, hfalse⟩)

end Program

/-!
# Changing candidates

The assignment `low` makes the candidates in `D` false and agrees with `high`
on the other constants.
-/

structure Lowers (p : Program) (D : Variable -> Prop)
    (high low : Variable -> Option Bool) : Prop where
  candidates : forall c, D c -> c ∈ p.houdiniConstants
  high_true : forall c, D c -> high c = some true
  low_false : forall c, D c -> low c = some false
  same : forall c, ¬ D c -> high c = low c

section Lowers

variable {p : Program} {impl : Implementation} {P : PassifiedImpl p impl}
  {D : Variable -> Prop} {high low : Variable -> Option Bool}
  {U : Type} [DecidableEq U]

theorem Program.CandidatesGuard.axiomsHold_congr (hp : p.CandidatesGuard)
    (hD : forall c, D c -> c ∈ p.houdiniConstants) {I : Interp U}
    {ρ σ : Env U} (hsame : forall x, ¬ D x -> ρ x = σ x)
    (h : p.AxiomsHold I ρ) : p.AxiomsHold I σ := by
  intro e he
  have hagree : forall x, e.Mentions x -> ρ x = σ x := by
    intro x hx
    exact hsame x (fun hDx => hp.axioms x (hD x hDx) e he hx)
  exact (Expr.holds_congr hagree hagree).mp (h e he)

theorem holds_congr_of_not_mentions {C : Context U} {ρ σ : Env U} {e : Expr}
    (hsame : forall x, ¬ D x -> ρ x = σ x) (hnot : forall x, D x -> ¬ e.Mentions x) :
    C.Holds ρ e <-> C.Holds σ e :=
  Expr.holds_congr (fun _ _ => rfl)
    (fun x hx => hsame x (fun hDx => hnot x hDx hx))

theorem PassifiedImpl.holds_of_mentions (P : PassifiedImpl p impl)
    (hp : p.CandidatesGuard) {C : Context U} {σ : Env U} {cmd : Cmd}
    {e : Expr} {c : Variable} (hcmd : cmd ∈ P.passive.cmds)
    (he : cmd.predicate = some e) (hc : c ∈ p.houdiniConstants)
    (hmem : e.Mentions c) (hfalse : (σ c).truth = false) : C.Holds σ e :=
  (P.resolves cmd hcmd e he).holds (P.guarded hp hcmd he c hc hmem) hfalse

/--
A counterexample to an assertion in which no candidate of `D` occurs stays one
when the candidates of `D` are removed: the assumptions get weaker.
-/
theorem Lowers.refutes (h : Lowers p D high low) (hp : p.CandidatesGuard)
    {ac : AssertCmd} (hnot : forall c, D c -> ¬ ac.expr.Mentions c)
    (href : p.Refutes P.passive high ac) : p.Refutes P.passive low ac := by
  rcases href with ⟨U, hU, C, ρ, haxioms, hagrees, hfalse⟩
  classical
  let σ : Env U := fun x => if D x then .bool false else ρ x
  have hsame : forall x, ¬ D x -> ρ x = σ x := by
    intro x hx
    simp [σ, hx]
  have hlow : forall x, D x -> (σ x).truth = false := by
    intro x hx
    simp [σ, hx]
  refine ⟨U, hU, C, σ, hp.axiomsHold_congr h.candidates hsame haxioms, ?_, ?_⟩
  · intro c hc b hb
    by_cases hD : D c
    · rw [h.low_false c hD] at hb
      cases hb
      exact hlow c hD
    · rw [← hsame c hD]
      exact hagrees c hc b (by rw [h.same c hD, hb])
  · apply hfalse.transfer
    · intro a ha hholds
      by_cases hmem : exists c, D c ∧ a.expr.Mentions c
      · rcases hmem with ⟨c, hD, hmem⟩
        exact P.holds_of_mentions hp ha rfl (h.candidates c hD) hmem
          (hlow c hD)
      · push Not at hmem
        exact (holds_congr_of_not_mentions hsame hmem).mp hholds
    · exact (holds_congr_of_not_mentions hsame hnot).mpr

theorem Lowers.refutes_raised (h : Lowers p D high low) (hp : p.CandidatesGuard)
    (hassume : forall c, D c -> c ∉ P.houdiniAssumeConstants)
    {ac : AssertCmd} (hac : .assertCmd ac ∈ P.passive.cmds)
    (href : p.Refutes P.passive low ac) : p.Refutes P.passive high ac := by
  rcases href with ⟨U, hU, C, σ, haxioms, hagrees, hfalse⟩
  classical
  let ρ : Env U := fun x => if D x then .bool true else σ x
  have hsame : forall x, ¬ D x -> σ x = ρ x := by
    intro x hx
    simp [ρ, hx]
  have hmentions : forall a, .assumeCmd a ∈ P.passive.cmds ->
      forall c, D c -> ¬ a.expr.Mentions c := by
    intro a ha c hD hmem
    exact hassume c hD
      ((P.mentions_iff_assume hp (h.candidates c hD)).mpr ⟨a, ha, hmem⟩)
  refine ⟨U, hU, C, ρ, hp.axiomsHold_congr h.candidates hsame haxioms, ?_, ?_⟩
  · intro c hc b hb
    by_cases hD : D c
    · rw [h.high_true c hD] at hb
      cases hb
      simp [ρ, hD]
    · rw [← hsame c hD]
      exact hagrees c hc b (by rw [← h.same c hD, hb])
  · apply hfalse.transfer
    · intro a ha
      exact (holds_congr_of_not_mentions hsame (hmentions a ha)).mp
    · intro hholds
      by_cases hmem : exists c, D c ∧ ac.expr.Mentions c
      · rcases hmem with ⟨c, hD, hmem⟩
        have hc := h.candidates c hD
        exact P.holds_of_mentions hp hac rfl hc hmem
          (hagrees c (Program.houdiniConstants_subset hc) false
            (h.low_false c hD))
      · push Not at hmem
        exact (holds_congr_of_not_mentions hsame hmem).mpr hholds

theorem Lowers.verified (h : Lowers p D high low) (hp : p.CandidatesGuard)
    (hassume : forall c, D c -> c ∉ P.houdiniAssumeConstants)
    (hverified : p.Verified P.passive high) : p.Verified P.passive low := by
  by_contra hnot
  rcases Program.not_verified_iff.mp hnot with ⟨ac, hac, hrefutes⟩
  have hraised := h.refutes_raised hp hassume hac hrefutes
  exact Program.not_verified_iff.mpr ⟨ac, hac, hraised⟩ hverified

end Lowers

end Boogie
