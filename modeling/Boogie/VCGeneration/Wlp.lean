import Boogie.Core.Cmd
import Boogie.VCExpr.Boogie2VCExpr

/-!
# Weakest preconditions of passive commands

The formulas of single commands and of blocks, and what they say.  The
generator for inferred predicates, whose functions are named `p…`, differs from
the plain one in its treatment of assumptions only.
-/

namespace Boogie

/-!
# Options
-/

inductive SubsumptionOption where
  | never
  | notForQuantifiers
  | always
deriving DecidableEq, Repr

inductive VCVariety where
  | structured
  | block
  | localBlock
  | blockNested
  | blockReach
  | blockNestedReach
  | dag
  | dagIterative
  | doomed
  | unspecified
deriving DecidableEq, Repr

structure CommandLineOptions where
  useSubsumption : SubsumptionOption
  vcVariety : VCVariety
  stratifiedInlining : Nat
deriving DecidableEq, Repr

/-!
# The generator
-/

inductive Absy where
  | block (b : Block)
  | assertCmd (c : AssertCmd)
  | assumeCmd (c : AssumeCmd)

structure VCContext where
  label2absy : Option (Nat -> Option Absy)
  controlFlowVariableExpr : Option VCExpr
  assertionCount : Nat

namespace VCContext

/-- `Label2absy[id] = absy`, when there is a dictionary. -/
def record (ctxt : VCContext) (id : Nat) (absy : Absy) : VCContext :=
  { ctxt with
    label2absy :=
      ctxt.label2absy.map (fun d => Function.update d id (some absy)) }

def countAssertion (ctxt : VCContext) : VCContext :=
  { ctxt with assertionCount := ctxt.assertionCount + 1 }

@[simp] theorem record_controlFlow (ctxt : VCContext) (id : Nat) (absy : Absy) :
    (ctxt.record id absy).controlFlowVariableExpr = ctxt.controlFlowVariableExpr :=
  rfl

@[simp] theorem record_isSome (ctxt : VCContext) (id : Nat) (absy : Absy) :
    (ctxt.record id absy).label2absy.isSome = ctxt.label2absy.isSome := by
  simp [record]

@[simp] theorem countAssertion_controlFlow (ctxt : VCContext) :
    ctxt.countAssertion.controlFlowVariableExpr = ctxt.controlFlowVariableExpr :=
  rfl

@[simp] theorem countAssertion_label2absy (ctxt : VCContext) :
    ctxt.countAssertion.label2absy = ctxt.label2absy :=
  rfl

end VCContext

mutual

def collectFunctions : Expr -> List String
  | .literal _ => []
  | .ident _ => []
  | .old e => collectFunctions e
  | .nary (.functionCall name) args => name :: collectFunctionsOfArgs args
  | .nary _ args => collectFunctionsOfArgs args
  | .quantifier _ _ body => collectFunctions body

def collectFunctionsOfArgs : List Expr -> List String
  | [] => []
  | a :: as => collectFunctions a ++ collectFunctionsOfArgs as

end

namespace Wlp

open VCExpressionGenerator

def subsumption (o : CommandLineOptions) (ac : AssertCmd) :
    SubsumptionOption :=
  match QKeyValue.findIntAttribute ac.attributes "subsumption" (-1) with
  | 0 => .never
  | 1 => .notForQuantifiers
  | 2 => .always
  | _ => o.useSubsumption

def isQuantifier : VCExpr -> Bool
  | .quantifier _ _ _ => true
  | _ => false

def isFunctionCall : Expr -> Bool
  | .nary (.functionCall _) _ => true
  | _ => false

/-- The part of the formula of an assertion that comes after the assertion. -/
def subsume (o : CommandLineOptions) (ac : AssertCmd) (C N : VCExpr) :
    VCExpr :=
  match subsumption o ac with
  | .never => N
  | .always => implies C N
  | .notForQuantifiers => if isQuantifier C then N else implies C N

/-- The control-flow function names a failing command by its negated number. -/
def failure (controlFlow : VCExpr) (b : Block) (id : Nat) : VCExpr :=
  eq (controlFlowFunctionApplication controlFlow (.intLit b.uniqueId))
    (.intLit (-(id : Int)))

def assertCmd (o : CommandLineOptions) (b : Block) (ac : AssertCmd)
    (N : VCExpr) (ctxt : VCContext) : Option (VCExpr × VCContext) :=
  match translate ac.expr with
  | none => none
  | some C =>
    if o.vcVariety = .doomed then some (implies C N, ctxt)
    else
      let id := ac.uniqueId
      let N := subsume o ac C N
      let ctxt := (ctxt.record id (.assertCmd ac)).countAssertion
      match ctxt.controlFlowVariableExpr, ctxt.label2absy.isSome with
      | none, false => none
      | none, true => some (andSimp (labelNeg (toString id) C) N, ctxt)
      | some e, false =>
        some (andSimp (implies (failure e b id) C) N, ctxt)
      | some e, true =>
        some (andSimp
          (labelNeg (toString id) (implies (failure e b id) C)) N, ctxt)

def cmd (o : CommandLineOptions) (b : Block) (c : Cmd) (N : VCExpr)
    (ctxt : VCContext) : Option (VCExpr × VCContext) :=
  match c with
  | .assertCmd ac => assertCmd o b ac N ctxt
  | .assumeCmd ac =>
    match translate ac.expr with
    | none => none
    | some E =>
      if o.stratifiedInlining > 0 then
        match QKeyValue.findStringAttribute ac.attributes "candidate" with
        | some pname =>
          some (impliesSimp (labelPos ("candidate_" ++ pname) E) N, ctxt)
        | none =>
          if isFunctionCall ac.expr then
            -- the dictionary is written without a test for null here
            if ctxt.label2absy.isSome then
              some (impliesSimp
                (labelPos ("si_fcall_" ++ toString ac.uniqueId) E) N,
                ctxt.record ac.uniqueId (.assumeCmd ac))
            else none
          else some (impliesSimp E N, ctxt)
      else some (impliesSimp E N, ctxt)
  | _ => none

def mentions (constantsAssumed : List String) (e : Expr) : Bool :=
  (collectFunctions e).any (fun name => constantsAssumed.contains name)

def pCmd (o : CommandLineOptions) (b : Block)
    (constantsAssumed : Option (List String)) (c : Cmd) (N : VCExpr)
    (ctxt : VCContext) : Option (VCExpr × VCContext) :=
  match c with
  | .assertCmd ac => assertCmd o b ac N ctxt
  | .assumeCmd ac =>
    if o.stratifiedInlining > 0 then none
    else
      match translate ac.expr, constantsAssumed with
      | none, _ => none
      | some E, none => some (impliesSimp E N, ctxt)
      | some E, some names =>
        if mentions names ac.expr then
          let id := ac.uniqueId
          let ctxt := ctxt.record id (.assumeCmd ac)
          match ctxt.controlFlowVariableExpr, ctxt.label2absy.isSome with
          | _, false => none
          | none, true =>
            some (impliesSimp (labelPos (toString id) E) N, ctxt)
          | some e, true =>
            some (impliesSimp
              (labelPos (toString id) (implies (failure e b id) E)) N,
              ctxt)
        else some (impliesSimp E N, ctxt)
  | _ => none

/-- The commands of a block are processed from the last one to the first. -/
def cmds (wlpCmd : Cmd -> VCExpr -> VCContext -> Option (VCExpr × VCContext)) :
    List Cmd -> VCExpr -> VCContext -> Option (VCExpr × VCContext)
  | [], N, ctxt => some (N, ctxt)
  | c :: cs, N, ctxt =>
    match cmds wlpCmd cs N ctxt with
    | none => none
    | some (res, ctxt) => wlpCmd c res ctxt

def blockOf (wlpCmd : Cmd -> VCExpr -> VCContext -> Option (VCExpr × VCContext))
    (b : Block) (N : VCExpr) (ctxt : VCContext) :
    Option (VCExpr × VCContext) :=
  match cmds wlpCmd b.cmds N ctxt with
  | none => none
  | some (res, ctxt) =>
    let id := b.uniqueId
    let ctxt := ctxt.record id (.block b)
    if ctxt.label2absy.isSome then
      some (implies (labelPos (toString id) True) res, ctxt)
    else some (res, ctxt)

def block (o : CommandLineOptions) (b : Block) (N : VCExpr)
    (ctxt : VCContext) : Option (VCExpr × VCContext) :=
  blockOf (cmd o b) b N ctxt

def pBlock (o : CommandLineOptions) (constantsAssumed : Option (List String))
    (b : Block) (N : VCExpr) (ctxt : VCContext) :
    Option (VCExpr × VCContext) :=
  blockOf (pCmd o b constantsAssumed) b N ctxt

/-!
# What the formulas say

A control-flow function selects one outcome for every block: the successor an
execution goes to, or the command it stops at.  Without a control-flow variable
every outcome counts as selected.
-/

def isControlFlowVariable : VCExpr -> Bool
  | .intLit _ => true
  | .var (.ofVariable _) => true
  | _ => false

def subsumes (o : CommandLineOptions) (ac : AssertCmd) : Bool :=
  match subsumption o ac with
  | .never => false
  | .always => true
  | .notForQuantifiers =>
    match translate ac.expr with
    | some C => !isQuantifier C
    | none => false

/-- The assumptions that `pCmd` guards by the control-flow function. -/
def guarded (cfv : Option VCExpr) (constantsAssumed : Option (List String))
    (ac : AssumeCmd) : Bool :=
  match cfv, constantsAssumed with
  | some _, some names => mentions names ac.expr
  | _, _ => false

end Wlp

def Cmd.passive : Cmd -> Bool
  | .assertCmd c => c.expr.passive
  | .assumeCmd c => c.expr.passive
  | _ => false

namespace Wlp

open VCExpressionGenerator

section Meaning

variable {U : Type} [DecidableEq U]

def controlFlowValue (ρ : Env U) : VCExpr -> Int
  | .intLit n => n
  | .var (.ofVariable x) => (ρ x).toInt
  | _ => 0

def Selects (cf : Int -> Int -> Int) (ρ : Env U) (cfv : Option VCExpr)
    (b : Nat) (outcome : Int) : Prop :=
  match cfv with
  | none => True
  | some e => cf (controlFlowValue ρ e) b = outcome

def CmdCorrect (C : Context U) (ρ : Env U) (selects : Int -> Prop)
    (o : CommandLineOptions) (weak : AssumeCmd -> Bool) :
    Cmd -> Prop -> Prop
  | .assertCmd ac, N =>
    (selects (-(ac.uniqueId : Int)) -> C.Holds ρ ac.expr) ∧
      ((subsumes o ac = true -> C.Holds ρ ac.expr) -> N)
  | .assumeCmd ac, N =>
    ((weak ac = true -> selects (-(ac.uniqueId : Int))) ->
      C.Holds ρ ac.expr) -> N
  | _, N => N

def CmdsCorrect (C : Context U) (ρ : Env U) (selects : Int -> Prop)
    (o : CommandLineOptions) (weak : AssumeCmd -> Bool) (cs : List Cmd)
    (N : Prop) : Prop :=
  cs.foldr (CmdCorrect C ρ selects o weak) N

def vcInterp (C : Context U) (cf : Int -> Int -> Int) : VCInterp U :=
  { C.interp with controlFlow := cf }

theorem eval_controlFlow
    {e : VCExpr} (he : isControlFlowVariable e = true) (M : VCInterp U) (η : VCEnv U) :
    (e.eval M η).toInt = controlFlowValue η.state e := by
  cases e with
  | intLit n => simp [controlFlowValue]
  | var x =>
    cases x with
    | ofVariable x => simp [controlFlowValue, VCEnv.state]
    | letVariable number name => simp [isControlFlowVariable] at he
  | _ => simp [isControlFlowVariable] at he

theorem holds_selection
    {C : Context U} {cf : Int -> Int -> Int} {η : VCEnv U} {e : VCExpr}
    {b : Nat} {outcome : Int} (he : isControlFlowVariable e = true) :
    (eq (controlFlowFunctionApplication e (.intLit b))
        (.intLit outcome)).Holds (vcInterp C cf) η <-> Selects cf η.state (some e) b outcome := by
  simp [controlFlowFunctionApplication, VCInterp.apply, Selects,
    eval_controlFlow he, vcInterp]

theorem holds_failure
    {C : Context U} {cf : Int -> Int -> Int} {η : VCEnv U} {e : VCExpr}
    {b : Block} {id : Nat} (he : isControlFlowVariable e = true) :
    (failure e b id).Holds (vcInterp C cf) η <->
      Selects cf η.state (some e) b.uniqueId (-(id : Int)) :=
  holds_selection he

theorem holds_context
    {C : Context U} {cf : Int -> Int -> Int} {η : VCEnv U} {e : Expr}
    {t : VCExpr} (h : translate e = some t) :
    t.Holds (vcInterp C cf) η <-> C.Holds η.state e :=
  holds_translate C.oldState h

theorem holds_subsume
    {C : Context U} {cf : Int -> Int -> Int} {η : VCEnv U}
    {o : CommandLineOptions} {ac : AssertCmd} {t N : VCExpr} (h : translate ac.expr = some t) :
    (subsume o ac t N).Holds (vcInterp C cf) η <->
      ((subsumes o ac = true -> C.Holds η.state ac.expr) -> N.Holds (vcInterp C cf) η) := by
  unfold subsume subsumes
  rw [h]
  cases subsumption o ac with
  | never => simp
  | always => simp [holds_context h]
  | notForQuantifiers =>
    cases hq : isQuantifier t with
    | false => simp [hq, holds_context h]
    | true => simp [hq]

end Meaning

structure Mode where
  controlFlowVariableExpr : Option VCExpr
  labels : Bool

end Wlp

def VCContext.mode (ctxt : VCContext) : Wlp.Mode where
  controlFlowVariableExpr := ctxt.controlFlowVariableExpr
  labels := ctxt.label2absy.isSome

@[simp] theorem VCContext.mode_record (ctxt : VCContext) (id : Nat)
    (absy : Absy) : (ctxt.record id absy).mode = ctxt.mode := by
  simp [VCContext.mode]

namespace Wlp

@[simp] theorem VCContext.mode_countAssertion (ctxt : VCContext) :
    ctxt.countAssertion.mode = ctxt.mode :=
  rfl

structure Mode.Ready (o : CommandLineOptions) (m : Mode) : Prop where
  notDoomed : o.vcVariety ≠ .doomed
  controlFlow : forall e, m.controlFlowVariableExpr = some e ->
    isControlFlowVariable e = true
  labels : m.labels = true ∨
    (m.controlFlowVariableExpr.isSome = true ∧ o.stratifiedInlining = 0)

/-- The modes in which the generator for inferred predicates succeeds. -/
structure Mode.PReady (o : CommandLineOptions) (m : Mode) : Prop where
  notDoomed : o.vcVariety ≠ .doomed
  controlFlow : forall e, m.controlFlowVariableExpr = some e ->
    isControlFlowVariable e = true
  labels : m.labels = true
  noInlining : o.stratifiedInlining = 0

theorem Mode.PReady.ready {o : CommandLineOptions} {m : Mode} (h : m.PReady o) : m.Ready o :=
  ⟨h.notDoomed, h.controlFlow, Or.inl h.labels⟩

/--
In the mode `m` the generator `wlpOf` succeeds, keeps the mode, and the formula
it returns says `meaning` of what the formula it is given says.
-/
def Generates (m : Mode)
    (wlpOf : VCExpr -> VCContext -> Option (VCExpr × VCContext))
    (meaning : forall {U : Type} [DecidableEq U], Context U ->
      (Int -> Int -> Int) -> Env U -> Prop -> Prop) : Prop :=
  forall N ctxt, ctxt.mode = m -> exists res ctxt',
    wlpOf N ctxt = some (res, ctxt') ∧ ctxt'.mode = m ∧
      forall {U : Type} [DecidableEq U] (C : Context U)
        (cf : Int -> Int -> Int) (η : VCEnv U),
        res.Holds (vcInterp C cf) η <->
          meaning C cf η.state (N.Holds (vcInterp C cf) η)

def commandMeaning (o : CommandLineOptions) (weak : AssumeCmd -> Bool)
    (m : Mode) (b : Block) (c : Cmd) {U : Type} [DecidableEq U]
    (C : Context U) (cf : Int -> Int -> Int) (ρ : Env U) (N : Prop) : Prop :=
  CmdCorrect C ρ (Selects cf ρ m.controlFlowVariableExpr b.uniqueId) o weak c N

def commandsMeaning (o : CommandLineOptions) (weak : AssumeCmd -> Bool)
    (m : Mode) (b : Block) (cs : List Cmd) {U : Type} [DecidableEq U]
    (C : Context U) (cf : Int -> Int -> Int) (ρ : Env U) (N : Prop) : Prop :=
  CmdsCorrect C ρ (Selects cf ρ m.controlFlowVariableExpr b.uniqueId) o weak
    cs N

theorem assertCmd_generates
    {o : CommandLineOptions} {m : Mode} {b : Block} {ac : AssertCmd}
    (weak : AssumeCmd -> Bool) (hm : m.Ready o) (hp : ac.expr.passive = true) :
    Generates m (assertCmd o b ac) (commandMeaning o weak m b (.assertCmd ac)) := by
  intro N ctxt hmode
  rcases translate_isSome hp with ⟨t, ht⟩
  subst hmode
  unfold assertCmd
  rw [ht]
  simp only [if_neg hm.notDoomed, VCContext.countAssertion_controlFlow,
    VCContext.record_controlFlow, VCContext.countAssertion_label2absy,
    VCContext.record_isSome]
  cases hcf : ctxt.controlFlowVariableExpr with
  | none =>
    have hlabels : ctxt.label2absy.isSome = true := by
      rcases hm.labels with h | ⟨h, _⟩
      · exact h
      · simp [VCContext.mode, hcf] at h
    rw [hlabels]
    refine ⟨_, _, rfl, by simp, ?_⟩
    intro U _ C cf η
    simp [commandMeaning, CmdCorrect, Selects, VCContext.mode, hcf,
      holds_context ht, holds_subsume ht]
  | some e =>
    have he := hm.controlFlow e hcf
    cases hlabels : ctxt.label2absy.isSome with
    | false =>
      refine ⟨_, _, rfl, by simp, ?_⟩
      intro U _ C cf η
      simp [commandMeaning, CmdCorrect, VCContext.mode, hcf,
        holds_context ht, holds_subsume ht, holds_failure he]
    | true =>
      refine ⟨_, _, rfl, by simp, ?_⟩
      intro U _ C cf η
      simp [commandMeaning, CmdCorrect, VCContext.mode, hcf,
        holds_context ht, holds_subsume ht, holds_failure he]

theorem cmd_generates
    {o : CommandLineOptions} {m : Mode} {b : Block} {c : Cmd}
    (hm : m.Ready o) (hp : c.passive = true) :
    Generates m (cmd o b c) (commandMeaning o (fun _ => false) m b c) := by
  cases c with
  | assertCmd ac => exact assertCmd_generates _ hm hp
  | assumeCmd ac =>
    intro N ctxt hmode
    rcases translate_isSome (e := ac.expr) hp with ⟨t, ht⟩
    subst hmode
    have hplain : forall {U : Type} [DecidableEq U] (C : Context U)
        (cf : Int -> Int -> Int) (η : VCEnv U),
        (t.Holds (vcInterp C cf) η -> N.Holds (vcInterp C cf) η) <->
          commandMeaning o (fun _ => false) ctxt.mode b (.assumeCmd ac) C cf
            η.state (N.Holds (vcInterp C cf) η) := by
      intro U _ C cf η
      simp [commandMeaning, CmdCorrect, holds_context ht]
    simp only [cmd, ht]
    split
    · split
      · refine ⟨_, _, rfl, rfl, ?_⟩
        intro U _ C cf η
        simpa using hplain C cf η
      · split
        · have hlabels : ctxt.label2absy.isSome = true := by
            rcases hm.labels with h | ⟨_, h⟩
            · exact h
            · omega
          rw [if_pos hlabels]
          refine ⟨_, _, rfl, by simp, ?_⟩
          intro U _ C cf η
          simpa using hplain C cf η
        · refine ⟨_, _, rfl, rfl, ?_⟩
          intro U _ C cf η
          simpa using hplain C cf η
    · refine ⟨_, _, rfl, rfl, ?_⟩
      intro U _ C cf η
      simpa using hplain C cf η
  | assignCmd lhss rhss => simp [Cmd.passive] at hp
  | havocCmd vars => simp [Cmd.passive] at hp
  | callCmd c => simp [Cmd.passive] at hp
  | commentCmd s => simp [Cmd.passive] at hp

theorem pCmd_generates
    {o : CommandLineOptions} {m : Mode} {b : Block} {c : Cmd}
    {constantsAssumed : Option (List String)} (hm : m.PReady o) (hp : c.passive = true) :
    Generates m (pCmd o b constantsAssumed c)
      (commandMeaning o (guarded m.controlFlowVariableExpr constantsAssumed) m b c) := by
  cases c with
  | assertCmd ac => exact assertCmd_generates _ hm.ready hp
  | assumeCmd ac =>
    intro N ctxt hmode
    rcases translate_isSome (e := ac.expr) hp with ⟨t, ht⟩
    subst hmode
    have hlabels : ctxt.label2absy.isSome = true := hm.labels
    simp only [pCmd, ht, hm.noInlining, Nat.lt_irrefl, gt_iff_lt, if_false]
    cases constantsAssumed with
    | none =>
      refine ⟨_, _, rfl, rfl, ?_⟩
      intro U _ C cf η
      simp [commandMeaning, CmdCorrect, guarded, holds_context ht]
    | some names =>
      cases hmention : mentions names ac.expr with
      | false =>
        simp only [hmention, Bool.false_eq_true, if_false]
        refine ⟨_, _, rfl, rfl, ?_⟩
        intro U _ C cf η
        cases hcf : ctxt.mode.controlFlowVariableExpr <;>
          simp [commandMeaning, CmdCorrect, guarded, hmention,
            holds_context ht]
      | true =>
        simp only [hmention, if_true, VCContext.record_controlFlow,
          VCContext.record_isSome, hlabels]
        cases hcf : ctxt.controlFlowVariableExpr with
        | none =>
          refine ⟨_, _, rfl, by simp, ?_⟩
          intro U _ C cf η
          simp [commandMeaning, CmdCorrect, guarded, VCContext.mode,
            hcf, holds_context ht]
        | some e =>
          refine ⟨_, _, rfl, by simp, ?_⟩
          intro U _ C cf η
          simp [commandMeaning, CmdCorrect, guarded, VCContext.mode,
            hcf, hmention, holds_context ht,
            holds_failure (hm.controlFlow e hcf)]
  | assignCmd lhss rhss => simp [Cmd.passive] at hp
  | havocCmd vars => simp [Cmd.passive] at hp
  | callCmd c => simp [Cmd.passive] at hp
  | commentCmd s => simp [Cmd.passive] at hp

theorem cmds_generates
    {o : CommandLineOptions} {weak : AssumeCmd -> Bool} {m : Mode} {b : Block}
    {wlpCmd : Cmd -> VCExpr -> VCContext -> Option (VCExpr × VCContext)}
    (hcmd : forall c, c.passive = true -> Generates m (wlpCmd c) (commandMeaning o weak m b c))
    {cs : List Cmd} (hp : forall c, c ∈ cs -> c.passive = true) :
    Generates m (cmds wlpCmd cs) (commandsMeaning o weak m b cs) := by
  induction cs with
  | nil =>
    intro N ctxt hmode
    refine ⟨N, ctxt, rfl, hmode, ?_⟩
    intro U _ C cf η
    exact Iff.rfl
  | cons c cs ih =>
    intro N ctxt hmode
    rcases ih (fun d hd => hp d (by simp [hd])) N ctxt hmode with
      ⟨rest, ctxt₁, hrest, hmode₁, hmeaning₁⟩
    rcases hcmd c (hp c (by simp)) rest ctxt₁ hmode₁ with
      ⟨res, ctxt₂, hres, hmode₂, hmeaning₂⟩
    refine ⟨res, ctxt₂, by simp [cmds, hrest, hres], hmode₂, ?_⟩
    intro U _ C cf η
    rw [hmeaning₂ C cf η, hmeaning₁ C cf η]
    exact Iff.rfl

theorem blockOf_generates
    {o : CommandLineOptions} {weak : AssumeCmd -> Bool} {m : Mode} {b : Block}
    {wlpCmd : Cmd -> VCExpr -> VCContext -> Option (VCExpr × VCContext)}
    (hcmd : forall c, c.passive = true -> Generates m (wlpCmd c) (commandMeaning o weak m b c))
    (hp : forall c, c ∈ b.cmds -> c.passive = true) :
    Generates m (blockOf wlpCmd b) (commandsMeaning o weak m b b.cmds) := by
  intro N ctxt hmode
  rcases cmds_generates hcmd hp N ctxt hmode with
    ⟨res, ctxt₁, hres, hmode₁, hmeaning⟩
  simp only [blockOf, hres]
  split
  · refine ⟨_, _, rfl, by simpa using hmode₁, ?_⟩
    intro U _ C cf η
    simpa using hmeaning C cf η
  · exact ⟨_, _, rfl, by simpa using hmode₁, hmeaning⟩

end Wlp

end Boogie
