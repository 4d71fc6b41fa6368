import Boogie.Foundation.FixedPoint
import Boogie.Graph.Graph
import Boogie.VCGeneration.Wlp

/-!
# Formulas with one `let` binding for each block

The iterative generator binds a fresh variable to the formula of every block,
in an order in which the successors of a block come before the block.
-/

namespace Boogie

/-!
# The generator
-/

namespace VCGen

open VCExpressionGenerator

def addEdges (dag : Graph Nat) (b : Block) : Graph Nat :=
  b.labelTargets.foldl (fun dag dest => dag.addEdge dest b.uniqueId) dag

def letDag (start : Block) (blocks : List Block) : Graph Nat :=
  blocks.foldl addEdges (Graph.empty.addSource start.uniqueId)

def findBlock (blocks : List Block) (id : Nat) : Option Block :=
  blocks.find? (fun b => b.uniqueId = id)

structure LetVCState where
  bindings : List (VCExprVar × VCExpr)
  blockVariables : Nat -> Option VCExprVar
  label2absy : Option (Nat -> Option Absy)
  assertionCount : Nat

namespace LetVCState

def blockVariable (st : LetVCState) (block : Block) : VCExprVar :=
  .letVariable st.bindings.length (block.label ++ "_correct")

def addBinding (st : LetVCState) (block : Block) (vc : VCExpr)
    (context : VCContext) : LetVCState where
  bindings := st.bindings ++ [(st.blockVariable block, vc)]
  blockVariables :=
    Function.update st.blockVariables block.uniqueId
      (some (st.blockVariable block))
  label2absy := context.label2absy
  assertionCount := st.assertionCount + context.assertionCount

@[simp] theorem addBinding_self (st : LetVCState) (block : Block)
    (vc : VCExpr) (context : VCContext) :
    (st.addBinding block vc context).blockVariables block.uniqueId =
      some (st.blockVariable block) := by
  simp [addBinding]

theorem addBinding_of_ne (st : LetVCState) (block : Block) (vc : VCExpr)
    (context : VCContext) {id : Nat} (h : id ≠ block.uniqueId) :
    (st.addBinding block vc context).blockVariables id = st.blockVariables id := by
  simp [addBinding, Function.update_of_ne h]

@[simp] theorem bindings_addBinding (st : LetVCState) (block : Block)
    (vc : VCExpr) (context : VCContext) :
    (st.addBinding block vc context).bindings = st.bindings ++ [(st.blockVariable block, vc)] :=
  rfl

end LetVCState

def successorFormula (controlFlowVariableExpr : Option VCExpr) (block : Block)
    (successor : Nat) (s : VCExprVar) : VCExpr :=
  match controlFlowVariableExpr with
  | none => .var s
  | some e =>
    implies
      (eq (controlFlowFunctionApplication e (.intLit block.uniqueId))
        (.intLit successor))
      (.var s)

/-- `none` when a successor has no variable yet. -/
def successorFormulas (controlFlowVariableExpr : Option VCExpr)
    (blockVariables : Nat -> Option VCExprVar) (block : Block) :
    List Nat -> Option (List VCExpr)
  | [] => some []
  | successor :: rest =>
    match blockVariables successor,
      successorFormulas controlFlowVariableExpr blockVariables block rest with
    | some s, some formulas =>
      some (successorFormula controlFlowVariableExpr block successor s ::
        formulas)
    | _, _ => none

def succCorrect (controlFlowVariableExpr : Option VCExpr)
    (isPositiveContext : Bool) (blockVariables : Nat -> Option VCExprVar)
    (block : Block) : Option VCExpr :=
  match block.transferCmd with
  | .returnCmd => some True
  | .returnExprCmd e =>
    match translate e with
    | none => none
    | some t => some (if isPositiveContext then not t else t)
  | .gotoCmd labelTargets =>
    match successorFormulas controlFlowVariableExpr blockVariables block
      labelTargets with
    | none => none
    | some succCorrectVars => some (naryAnd succCorrectVars)

section Generator

variable
  (wlpBlock : Block -> VCExpr -> VCContext -> Option (VCExpr × VCContext))
  (controlFlowVariableExpr : Option VCExpr) (isPositiveContext : Bool)

def letVCStep (block : Block) (st : LetVCState) : Option LetVCState :=
  match succCorrect controlFlowVariableExpr isPositiveContext
    st.blockVariables block with
  | none => none
  | some N =>
    let context : VCContext :=
      { label2absy := st.label2absy
        controlFlowVariableExpr := controlFlowVariableExpr
        assertionCount := 0 }
    match wlpBlock block N context with
    | none => none
    | some (vc, context) => some (st.addBinding block vc context)

def letVCLoop (blocks : List Block) :
    List Nat -> LetVCState -> Option LetVCState
  | [], st => some st
  | id :: sortedNodes, st =>
    match findBlock blocks id with
    | none => none
    | some block =>
      match letVCStep wlpBlock controlFlowVariableExpr isPositiveContext
        block st with
      | none => none
      | some st => letVCLoop blocks sortedNodes st

/--
The common body of `letVCIterative` and `pLetVCIterative`: the formula, the
labels and the number of assertions.
-/
def letVCIterativeOf (label2absy : Option (Nat -> Option Absy))
    (blocks : List Block) :
    Option (VCExpr × Option (Nat -> Option Absy) × Nat) :=
  match blocks with
  | [] => none
  | start :: _ =>
    let dag := letDag start blocks
    let initial : LetVCState :=
      { bindings := []
        blockVariables := fun _ => none
        label2absy := label2absy
        assertionCount := 0 }
    match letVCLoop wlpBlock controlFlowVariableExpr isPositiveContext blocks
      (dag.topologicalSort false) initial with
    | none => none
    | some st =>
      match st.blockVariables start.uniqueId with
      | none => none
      | some v =>
        some (letBindings st.bindings (.var v), st.label2absy,
          st.assertionCount)

end Generator

def letVCIterative (o : CommandLineOptions) (blocks : List Block)
    (controlFlowVariableExpr : Option VCExpr)
    (label2absy : Option (Nat -> Option Absy)) (isPositiveContext : Bool) :
    Option (VCExpr × Option (Nat -> Option Absy) × Nat) :=
  letVCIterativeOf (Wlp.block o) controlFlowVariableExpr isPositiveContext
    label2absy blocks

def pLetVCIterative (o : CommandLineOptions) (blocks : List Block)
    (constantsAssumed : Option (List String))
    (controlFlowVariableExpr : Option VCExpr)
    (label2absy : Option (Nat -> Option Absy)) (isPositiveContext : Bool) :
    Option (VCExpr × Option (Nat -> Option Absy) × Nat) :=
  letVCIterativeOf (Wlp.pBlock o constantsAssumed) controlFlowVariableExpr
    isPositiveContext label2absy blocks

end VCGen

/-!
# Passive programs
-/

def Cmd.uniqueId? : Cmd -> Option Nat
  | .assertCmd c => some c.uniqueId
  | .assumeCmd c => some c.uniqueId
  | _ => none

/-- The numbers of a block and of its assertions and assumptions. -/
def Block.ids (b : Block) : List Nat :=
  b.uniqueId :: b.cmds.filterMap Cmd.uniqueId?

structure PassiveProgram where
  start : Block
  rest : List Block
  passive : forall b, b ∈ start :: rest -> forall c, c ∈ b.cmds ->
    c.passive = true
  transfers : forall b, b ∈ start :: rest -> forall e,
    b.transferCmd ≠ .returnExprCmd e
  closed : forall b, b ∈ start :: rest -> forall t, t ∈ b.labelTargets ->
    exists b', b' ∈ start :: rest ∧ b'.uniqueId = t
  acyclic : Acyclic (start :: rest)
  distinct : ((start :: rest).flatMap Block.ids).Nodup
  positive : forall b, b ∈ start :: rest -> forall id, id ∈ b.ids -> 0 < id

namespace PassiveProgram

def blocks (P : PassiveProgram) : List Block :=
  P.start :: P.rest

theorem block_ids_disjoint (P : PassiveProgram) :
    (P.blocks.map Block.uniqueId).Nodup := by
  have hsub : List.Sublist (P.blocks.map Block.uniqueId)
      (P.blocks.flatMap Block.ids) := by
    generalize P.blocks = bs
    induction bs with
    | nil => simp
    | cons b bs ih =>
      simp only [List.map_cons, List.flatMap_cons, Block.ids,
        List.cons_append]
      exact (ih.trans (List.sublist_append_right _ _)).cons_cons _
  exact hsub.nodup P.distinct

theorem block_unique (P : PassiveProgram) {b b' : Block} (hb : b ∈ P.blocks) (hb' : b' ∈ P.blocks)
    (h : b.uniqueId = b'.uniqueId) : b = b' :=
  List.inj_on_of_nodup_map P.block_ids_disjoint hb hb' h

theorem findBlock_eq (P : PassiveProgram) {b : Block} (hb : b ∈ P.blocks) :
    VCGen.findBlock P.blocks b.uniqueId = some b := by
  unfold VCGen.findBlock
  cases hfind : P.blocks.find? (fun b' => b'.uniqueId = b.uniqueId) with
  | none =>
    have := List.find?_eq_none.mp hfind b hb
    simp at this
  | some b' =>
    have hid : b'.uniqueId = b.uniqueId := by
      simpa using List.find?_some hfind
    rw [P.block_unique (List.mem_of_find?_eq_some hfind) hb hid]

end PassiveProgram

/-!
# The graph of the blocks
-/

namespace VCGen

theorem edge_addEdges {dag : Graph Nat} {b : Block} {u v : Nat} :
    (addEdges dag b).Edge u v <-> dag.Edge u v ∨ (v = b.uniqueId ∧ u ∈ b.labelTargets) := by
  unfold addEdges
  induction b.labelTargets generalizing dag with
  | nil => simp
  | cons t ts ih =>
    simp only [List.foldl_cons, ih, Graph.edge_addEdge, List.mem_cons]
    tauto

theorem mem_ns_addEdges {dag : Graph Nat} {b : Block} {id : Nat} :
    id ∈ (addEdges dag b).ns -> id ∈ dag.ns ∨ id = b.uniqueId ∨ id ∈ b.labelTargets := by
  unfold addEdges
  induction b.labelTargets generalizing dag with
  | nil => exact fun h => Or.inl h
  | cons t ts ih =>
    simp only [List.foldl_cons, List.mem_cons]
    intro h
    rcases ih h with h | h | h
    · rw [Graph.mem_ns_addEdge] at h
      tauto
    · exact Or.inr (Or.inl h)
    · exact Or.inr (Or.inr (Or.inr h))

theorem ns_subset_addEdges {dag : Graph Nat} {b : Block} {id : Nat}
    (h : id ∈ dag.ns) : id ∈ (addEdges dag b).ns := by
  unfold addEdges
  induction b.labelTargets generalizing dag with
  | nil => exact h
  | cons t ts ih => exact ih (Graph.mem_ns_addEdge.mpr (Or.inl h))

theorem edge_letDag {start : Block} {blocks : List Block} {u v : Nat} :
    (letDag start blocks).Edge u v <-> Jumps blocks v u := by
  have hfold : forall (bs : List Block) (dag : Graph Nat),
      (bs.foldl addEdges dag).Edge u v <->
        dag.Edge u v ∨ Jumps bs v u := by
    intro bs
    induction bs with
    | nil => simp [Jumps]
    | cons b bs ih =>
      intro dag
      simp only [List.foldl_cons, ih, edge_addEdges, Jumps, List.mem_cons]
      constructor
      · rintro ((h | ⟨hv, hu⟩) | ⟨c, hc, hv, hu⟩)
        · exact Or.inl h
        · exact Or.inr ⟨b, Or.inl rfl, hv.symm, hu⟩
        · exact Or.inr ⟨c, Or.inr hc, hv, hu⟩
      · rintro (h | ⟨c, rfl | hc, hv, hu⟩)
        · exact Or.inl (Or.inl h)
        · exact Or.inl (Or.inr ⟨hv.symm, hu⟩)
        · exact Or.inr ⟨c, hc, hv, hu⟩
  simp [letDag, hfold]

theorem start_mem_letDag {start : Block} {blocks : List Block} :
    start.uniqueId ∈ (letDag start blocks).ns := by
  have hfold : forall (bs : List Block) (dag : Graph Nat),
      start.uniqueId ∈ dag.ns -> start.uniqueId ∈ (bs.foldl addEdges dag).ns := by
    intro bs
    induction bs with
    | nil => exact fun _ h => h
    | cons b bs ih => exact fun dag h => ih _ (ns_subset_addEdges h)
  exact hfold blocks _ (by simp)

theorem mem_letDag {start : Block} {blocks : List Block} {id : Nat}
    (h : id ∈ (letDag start blocks).ns) :
    id = start.uniqueId ∨ exists b, b ∈ blocks ∧ (id = b.uniqueId ∨ id ∈ b.labelTargets) := by
  have hfold : forall (bs : List Block) (dag : Graph Nat),
      id ∈ (bs.foldl addEdges dag).ns -> id ∈ dag.ns ∨
        exists b, b ∈ bs ∧ (id = b.uniqueId ∨ id ∈ b.labelTargets) := by
    intro bs
    induction bs with
    | nil => exact fun _ h => Or.inl h
    | cons b bs ih =>
      intro dag hid
      rcases ih _ hid with hdag | ⟨c, hc, hcase⟩
      · rcases mem_ns_addEdges hdag with h | h
        · exact Or.inl h
        · exact Or.inr ⟨b, by simp, h⟩
      · exact Or.inr ⟨c, by simp [hc], hcase⟩
  rcases hfold blocks _ h with h | h
  · exact Or.inl (by simpa [Graph.empty] using h)
  · exact Or.inr h

end VCGen

namespace PassiveProgram

def dag (P : PassiveProgram) : Graph Nat :=
  VCGen.letDag P.start P.blocks

theorem dag_acyclic (P : PassiveProgram) : P.dag.Acyclic := by
  have hreverse : forall u v, Relation.TransGen P.dag.Edge u v ->
      Relation.TransGen (Jumps P.blocks) v u := by
    intro u v h
    induction h with
    | single h => exact Relation.TransGen.single (VCGen.edge_letDag.mp h)
    | tail _ h ih => exact Relation.TransGen.head (VCGen.edge_letDag.mp h) ih
  intro n hn
  exact P.acyclic n (hreverse n n hn)

theorem exists_block (P : PassiveProgram) {id : Nat} (h : id ∈ P.dag.ns) :
    exists b, b ∈ P.blocks ∧ b.uniqueId = id := by
  rcases VCGen.mem_letDag h with rfl | ⟨b, hb, rfl | ht⟩
  · exact ⟨P.start, by simp [blocks], rfl⟩
  · exact ⟨b, hb, rfl⟩
  · exact P.closed b hb id ht

theorem jumps_wellFounded (P : PassiveProgram) :
    WellFounded (fun target source => Jumps P.blocks source target) := by
  refine Subrelation.wf ?_ P.dag_acyclic.wellFounded
  intro target source h
  exact VCGen.edge_letDag.mpr h

end PassiveProgram

/-!
# What the generated formula says

The truth values of the block variables solve a system of equations, one for
each block, in which a block depends on its successors.
-/

namespace VCGen

open Wlp

section Equations

variable (o : CommandLineOptions) (weak : AssumeCmd -> Bool) (m : Mode)

def SuccessorsCorrect {U : Type} (cf : Int -> Int -> Int) (ρ : Env U)
    (b : Block) (correct : Nat -> Prop) : Prop :=
  forall t, t ∈ b.labelTargets ->
    Selects cf ρ m.controlFlowVariableExpr b.uniqueId t -> correct t

def BlockEquation {U : Type} [DecidableEq U] (blocks : List Block)
    (C : Context U) (cf : Int -> Int -> Int) (ρ : Env U) (id : Nat)
    (correct : Nat -> Prop) : Prop :=
  forall b, b ∈ blocks -> b.uniqueId = id ->
    commandsMeaning o weak m b b.cmds C cf ρ
      (SuccessorsCorrect m cf ρ b correct)

theorem commandsMeaning_congr {U : Type} [DecidableEq U] {b : Block}
    {cs : List Cmd} {C : Context U} {cf : Int -> Int -> Int} {ρ : Env U}
    {N N' : Prop} (h : N <-> N') :
    commandsMeaning o weak m b cs C cf ρ N <-> commandsMeaning o weak m b cs C cf ρ N' := by
  rw [propext h]

theorem blockEquation_local {U : Type} [DecidableEq U] (P : PassiveProgram)
    (C : Context U) (cf : Int -> Int -> Int) (ρ : Env U) :
    FixedPoint.Local (fun target source => Jumps P.blocks source target)
      (BlockEquation o weak m P.blocks C cf ρ) := by
  intro id p q hpq
  have hsuccs : forall b, b ∈ P.blocks -> b.uniqueId = id ->
      (SuccessorsCorrect m cf ρ b p <-> SuccessorsCorrect m cf ρ b q) := by
    intro b hb hid
    have htarget : forall t, t ∈ b.labelTargets -> (p t <-> q t) :=
      fun t ht => hpq t ⟨b, hb, hid, ht⟩
    constructor
    · intro h t ht hsel
      exact (htarget t ht).mp (h t ht hsel)
    · intro h t ht hsel
      exact (htarget t ht).mpr (h t ht hsel)
  constructor
  · intro h b hb hid
    exact (commandsMeaning_congr o weak m (hsuccs b hb hid)).mp (h b hb hid)
  · intro h b hb hid
    exact (commandsMeaning_congr o weak m (hsuccs b hb hid)).mpr (h b hb hid)

end Equations

section Loop

variable {o : CommandLineOptions} {weak : AssumeCmd -> Bool} {m : Mode}
  {wlpBlock : Block -> VCExpr -> VCContext -> Option (VCExpr × VCContext)}

def VariableHolds {U : Type} (vars : Nat -> Option VCExprVar) (η : VCEnv U)
    (id : Nat) : Prop :=
  exists v, vars id = some v ∧ (η v).truth = true

def BindingMeaning (o : CommandLineOptions) (weak : AssumeCmd -> Bool)
    (m : Mode) (vars : Nat -> Option VCExprVar) (b : Block) (vc : VCExpr) :
    Prop :=
  forall {U : Type} [DecidableEq U] (C : Context U) (cf : Int -> Int -> Int)
    (η : VCEnv U),
    vc.Holds (vcInterp C cf) η <->
      commandsMeaning o weak m b b.cmds C cf η.state
        (SuccessorsCorrect m cf η.state b (VariableHolds vars η))

structure LetInvariant (o : CommandLineOptions) (weak : AssumeCmd -> Bool)
    (m : Mode) (blocks : List Block) (done : List Nat) (st : LetVCState) :
    Prop where
  labels : st.label2absy.isSome = m.labels
  defined : forall id, (exists v, st.blockVariables id = some v) <-> id ∈ done
  fresh : forall id v, st.blockVariables id = some v ->
    exists k name, v = .letVariable k name ∧ k < st.bindings.length
  injective : forall i j v, st.blockVariables i = some v ->
    st.blockVariables j = some v -> i = j
  covered : forall id v, st.blockVariables id = some v ->
    v ∈ st.bindings.map Prod.fst
  bound : forall v vc, (v, vc) ∈ st.bindings -> exists b, b ∈ blocks ∧
    st.blockVariables b.uniqueId = some v ∧
    (forall t, t ∈ b.labelTargets -> t ∈ done) ∧
    BindingMeaning o weak m st.blockVariables b vc

theorem successorFormula_holds
    {U : Type} [DecidableEq U] {C : Context U} {cf : Int -> Int -> Int}
    {η : VCEnv U} {b : Block} {t : Nat} {v : VCExprVar} (hm : m.Ready o) :
    (successorFormula m.controlFlowVariableExpr b t v).Holds (vcInterp C cf) η <->
      (Selects cf η.state m.controlFlowVariableExpr b.uniqueId t -> (η v).truth = true) := by
  have hvar : (VCExpr.var v).Holds (vcInterp C cf) η <->
      (η v).truth = true := by
    simp [VCExpr.Holds]
  unfold successorFormula
  cases hcf : m.controlFlowVariableExpr with
  | none => simp [Selects, hvar]
  | some e =>
    simp only [VCExpressionGenerator.holds_implies, holds_selection (hm.controlFlow e hcf), hvar]

theorem successorFormulas_spec
    {vars : Nat -> Option VCExprVar} {b : Block} {ts : List Nat} (hm : m.Ready o)
    (hvars : forall t, t ∈ ts -> exists v, vars t = some v) :
    exists formulas, successorFormulas m.controlFlowVariableExpr vars b ts = some formulas ∧
        forall {U : Type} [DecidableEq U] (C : Context U) (cf : Int -> Int -> Int) (η : VCEnv U),
          (forall f, f ∈ formulas -> f.Holds (vcInterp C cf) η) <-> forall t, t ∈ ts ->
              Selects cf η.state m.controlFlowVariableExpr b.uniqueId t ->
              VariableHolds vars η t := by
  induction ts with
  | nil => exact ⟨[], rfl, by simp⟩
  | cons t ts ih =>
    rcases hvars t (by simp) with ⟨v, hv⟩
    rcases ih (fun u hu => hvars u (by simp [hu])) with
      ⟨formulas, hformulas, hmeaning⟩
    refine ⟨_, by simp only [successorFormulas, hv, hformulas]; rfl, ?_⟩
    intro U _ C cf η
    have hhead : VariableHolds vars η t <-> (η v).truth = true := by
      simp [VariableHolds, hv]
    simp only [List.forall_mem_cons, hmeaning C cf η,
      successorFormula_holds hm, hhead]

theorem succCorrect_spec (isPositiveContext : Bool) {vars : Nat -> Option VCExprVar} {b : Block}
    (hm : m.Ready o) (htransfer : forall e, b.transferCmd ≠ .returnExprCmd e)
    (hvars : forall t, t ∈ b.labelTargets -> exists v, vars t = some v) :
    exists N, succCorrect m.controlFlowVariableExpr isPositiveContext vars b = some N ∧
        forall {U : Type} [DecidableEq U] (C : Context U) (cf : Int -> Int -> Int) (η : VCEnv U),
          N.Holds (vcInterp C cf) η <->
            SuccessorsCorrect m cf η.state b (VariableHolds vars η) := by
  unfold succCorrect SuccessorsCorrect
  unfold Block.labelTargets at hvars ⊢
  cases htransferCmd : b.transferCmd with
  | gotoCmd targets =>
    rw [htransferCmd] at hvars
    simp only [TransferCmd.labelTargets] at hvars ⊢
    rcases successorFormulas_spec (b := b) hm hvars with
      ⟨formulas, hformulas, hmeaning⟩
    rw [hformulas]
    refine ⟨VCExpressionGenerator.naryAnd formulas, rfl, ?_⟩
    intro U _ C cf η
    rw [VCExpressionGenerator.holds_naryAnd, hmeaning C cf η]
  | returnCmd => exact ⟨_, rfl, by simp [TransferCmd.labelTargets]⟩
  | returnExprCmd e => exact absurd htransferCmd (htransfer e)

theorem BindingMeaning.congr
    {vars vars' : Nat -> Option VCExprVar} {b : Block} {vc : VCExpr}
    (h : BindingMeaning o weak m vars b vc)
    (heq : forall t, t ∈ b.labelTargets -> vars' t = vars t) :
    BindingMeaning o weak m vars' b vc := by
  intro U _ C cf η
  rw [h C cf η]
  apply commandsMeaning_congr
  have hvar : forall t, t ∈ b.labelTargets ->
      (VariableHolds vars η t <-> VariableHolds vars' η t) := by
    intro t ht
    simp [VariableHolds, heq t ht]
  constructor
  · intro hall t ht hsel
    exact (hvar t ht).mp (hall t ht hsel)
  · intro hall t ht hsel
    exact (hvar t ht).mpr (hall t ht hsel)

theorem LetInvariant.addBinding
    {blocks : List Block} {done : List Nat} {st : LetVCState} {b : Block}
    {vc : VCExpr} {context : VCContext} (hinv : LetInvariant o weak m blocks done st)
    (hb : b ∈ blocks) (hfresh : b.uniqueId ∉ done)
    (htargets : forall t, t ∈ b.labelTargets -> t ∈ done)
    (hlabels : context.label2absy.isSome = m.labels)
    (hvc : BindingMeaning o weak m st.blockVariables b vc) :
    LetInvariant o weak m blocks (done ++ [b.uniqueId]) (st.addBinding b vc context) := by
  have hdone : forall id, id ∈ done -> id ≠ b.uniqueId :=
    fun id hid heq => hfresh (heq ▸ hid)
  have hnewvar : forall id v, st.blockVariables id = some v ->
      v ≠ st.blockVariable b := by
    intro id v hv heq
    rcases hinv.fresh id v hv with ⟨k, name, hname, hk⟩
    rw [hname, LetVCState.blockVariable] at heq
    cases heq
    exact Nat.lt_irrefl _ hk
  constructor
  · exact hlabels
  · intro id
    by_cases hid : id = b.uniqueId
    · simp [hid]
    · simp [st.addBinding_of_ne b vc context hid, hid, hinv.defined id]
  · intro id v hv
    by_cases hid : id = b.uniqueId
    · rw [hid, LetVCState.addBinding_self, Option.some.injEq] at hv
      exact ⟨_, _, hv.symm, by simp⟩
    · rw [st.addBinding_of_ne b vc context hid] at hv
      rcases hinv.fresh id v hv with ⟨k, name, hname, hk⟩
      refine ⟨k, name, hname, ?_⟩
      simp only [LetVCState.bindings_addBinding, List.length_append,
        List.length_singleton]
      omega
  · intro i j v hi hj
    by_cases hib : i = b.uniqueId
    · by_cases hjb : j = b.uniqueId
      · rw [hib, hjb]
      · rw [hib, LetVCState.addBinding_self, Option.some.injEq] at hi
        rw [st.addBinding_of_ne b vc context hjb] at hj
        exact absurd hi.symm (hnewvar j v hj)
    · rw [st.addBinding_of_ne b vc context hib] at hi
      by_cases hjb : j = b.uniqueId
      · rw [hjb, LetVCState.addBinding_self, Option.some.injEq] at hj
        exact absurd hj.symm (hnewvar i v hi)
      · rw [st.addBinding_of_ne b vc context hjb] at hj
        exact hinv.injective i j v hi hj
  · intro id v hv
    rw [LetVCState.bindings_addBinding, List.map_append, List.mem_append]
    by_cases hid : id = b.uniqueId
    · rw [hid, LetVCState.addBinding_self, Option.some.injEq] at hv
      exact Or.inr (by simp [hv])
    · rw [st.addBinding_of_ne b vc context hid] at hv
      exact Or.inl (hinv.covered id v hv)
  · intro v vc' hmem
    rw [LetVCState.bindings_addBinding, List.mem_append] at hmem
    rcases hmem with hold | hnew
    · rcases hinv.bound v vc' hold with ⟨b', hb', hv, hdone', hmeaning⟩
      have hid : b'.uniqueId ∈ done := (hinv.defined _).mp ⟨v, hv⟩
      refine ⟨b', hb', ?_, ?_, ?_⟩
      · rw [st.addBinding_of_ne b vc context (hdone _ hid)]
        exact hv
      · intro t ht
        exact List.mem_append.mpr (Or.inl (hdone' t ht))
      · exact hmeaning.congr (fun t ht =>
          st.addBinding_of_ne b vc context (hdone t (hdone' t ht)))
    · rw [List.mem_singleton, Prod.mk.injEq] at hnew
      rcases hnew with ⟨rfl, rfl⟩
      refine ⟨b, hb, by simp, ?_, ?_⟩
      · intro t ht
        exact List.mem_append.mpr (Or.inl (htargets t ht))
      · exact hvc.congr (fun t ht =>
          st.addBinding_of_ne b vc' context (hdone t (htargets t ht)))

theorem letVCStep_spec (isPositiveContext : Bool) {blocks : List Block} {done : List Nat}
    {st : LetVCState} {b : Block} (hm : m.Ready o)
    (hblock : Generates m (wlpBlock b) (commandsMeaning o weak m b b.cmds))
    (hinv : LetInvariant o weak m blocks done st) (hb : b ∈ blocks) (hfresh : b.uniqueId ∉ done)
    (htransfer : forall e, b.transferCmd ≠ .returnExprCmd e)
    (htargets : forall t, t ∈ b.labelTargets -> t ∈ done) :
    exists st', letVCStep wlpBlock m.controlFlowVariableExpr isPositiveContext b st = some st' ∧
      LetInvariant o weak m blocks (done ++ [b.uniqueId]) st' := by
  rcases succCorrect_spec isPositiveContext hm htransfer
    (fun t ht => (hinv.defined t).mpr (htargets t ht)) with ⟨N, hN, hNmeaning⟩
  have hmode : VCContext.mode
      { label2absy := st.label2absy
        controlFlowVariableExpr := m.controlFlowVariableExpr
        assertionCount := 0 } = m := by
    simp [VCContext.mode, hinv.labels]
  rcases hblock N _ hmode with ⟨vc, context, hvc, hcontext, hmeaning⟩
  refine ⟨st.addBinding b vc context, by simp only [letVCStep, hN, hvc], ?_⟩
  apply hinv.addBinding hb hfresh htargets
  · exact congrArg Mode.labels hcontext
  · intro U _ C cf η
    rw [hmeaning C cf η]
    exact commandsMeaning_congr o weak m (hNmeaning C cf η)

theorem letVCLoop_spec (isPositiveContext : Bool) (P : PassiveProgram) {done rest : List Nat}
    {st : LetVCState} (hm : m.Ready o) (hblock : forall b, b ∈ P.blocks ->
      Generates m (wlpBlock b) (commandsMeaning o weak m b b.cmds))
    (horder : P.dag.IsTopologicalOrder (done ++ rest))
    (hinv : LetInvariant o weak m P.blocks done st) :
    exists st', letVCLoop wlpBlock m.controlFlowVariableExpr
        isPositiveContext P.blocks rest st = some st' ∧
      LetInvariant o weak m P.blocks (done ++ rest) st' := by
  induction rest generalizing done st with
  | nil => exact ⟨st, rfl, by simpa using hinv⟩
  | cons id rest ih =>
    have hmem : id ∈ P.dag.ns := (horder.mem_iff id).mp (by simp)
    rcases P.exists_block hmem with ⟨b, hb, rfl⟩
    have hfresh : b.uniqueId ∉ done := by
      have := horder.nodup
      rw [List.nodup_append] at this
      intro h
      exact this.2.2 _ h _ (by simp) rfl
    have htargets : forall t, t ∈ b.labelTargets -> t ∈ done := by
      intro t ht
      exact horder.ordered done b.uniqueId rest rfl t
        (edge_letDag.mpr ⟨b, hb, rfl, ht⟩)
    rcases letVCStep_spec isPositiveContext hm (hblock b hb) hinv hb hfresh
      (P.transfers b hb) htargets with ⟨st₁, hst₁, hinv₁⟩
    have horder₁ :
        P.dag.IsTopologicalOrder ((done ++ [b.uniqueId]) ++ rest) := by
      simpa using horder
    rcases ih horder₁ hinv₁ with ⟨st', hst', hinv'⟩
    refine ⟨st', ?_, by simpa using hinv'⟩
    simp only [letVCLoop, P.findBlock_eq hb, hst₁, hst']

/-!
# The formula as a whole
-/

open Classical in
noncomputable def solutionEnv {U : Type} (vars : Nat -> Option VCExprVar)
    (p : Nat -> Prop) (η : VCEnv U) : VCEnv U := fun x =>
  if h : exists id, vars id = some x then .bool (decide (p h.choose)) else η x

section Solutions

variable {P : PassiveProgram} {done : List Nat} {st : LetVCState}

theorem solutionEnv_var {U : Type} {p : Nat -> Prop} {η : VCEnv U} {id : Nat}
    {v : VCExprVar} (hinv : LetInvariant o weak m P.blocks done st)
    (hv : st.blockVariables id = some v) :
    (solutionEnv st.blockVariables p η v).truth = true <-> p id := by
  have h : exists id, st.blockVariables id = some v := ⟨id, hv⟩
  have hid : h.choose = id := hinv.injective _ _ v h.choose_spec hv
  simp [solutionEnv, h, hid]

theorem variableHolds_solutionEnv {U : Type} {p : Nat -> Prop} {η : VCEnv U}
    {id : Nat} (hinv : LetInvariant o weak m P.blocks done st) (hid : id ∈ done) :
    VariableHolds st.blockVariables (solutionEnv st.blockVariables p η) id <-> p id := by
  rcases (hinv.defined id).mpr hid with ⟨v, hv⟩
  constructor
  · rintro ⟨v', hv', htruth⟩
    exact (solutionEnv_var hinv hv').mp htruth
  · intro hp
    exact ⟨v, hv, (solutionEnv_var hinv hv).mpr hp⟩

theorem solutionEnv_state {U : Type} {p : Nat -> Prop} {η : VCEnv U}
    (hinv : LetInvariant o weak m P.blocks done st) :
    (solutionEnv st.blockVariables p η).state = η.state := by
  funext x
  have hnone : ¬ exists id, st.blockVariables id = some (.ofVariable x) := by
    rintro ⟨id, hid⟩
    rcases hinv.fresh id _ hid with ⟨k, name, hname, _⟩
    cases hname
  simp [VCEnv.state, solutionEnv, hnone]

theorem blockEquation_iff {U : Type} [DecidableEq U] {C : Context U}
    {cf : Int -> Int -> Int} {ρ : Env U} {p : Nat -> Prop} {b : Block} (hb : b ∈ P.blocks) :
    BlockEquation o weak m P.blocks C cf ρ b.uniqueId p <-> commandsMeaning o weak m b b.cmds C cf ρ
        (SuccessorsCorrect m cf ρ b p) := by
  constructor
  · intro h
    exact h b hb rfl
  · intro h b' hb' hid
    rw [P.block_unique hb' hb hid]
    exact h

theorem exists_letSolution {U : Type} [DecidableEq U] {C : Context U}
    {cf : Int -> Int -> Int} {η : VCEnv U} {p : Nat -> Prop}
    (hinv : LetInvariant o weak m P.blocks done st) (hp : FixedPoint.IsSolution
      (BlockEquation o weak m P.blocks C cf η.state) p) :
    VCExpr.IsSolution (vcInterp C cf) st.bindings η (solutionEnv st.blockVariables p η) := by
  constructor
  · intro x hx
    have hnone : ¬ exists id, st.blockVariables id = some x := by
      rintro ⟨id, hid⟩
      exact hx (hinv.covered id x hid)
    simp [solutionEnv, hnone]
  · rintro ⟨v, vc⟩ hmem
    rcases hinv.bound v vc hmem with ⟨b, hb, hv, htargets, hmeaning⟩
    have hsuccs :
        SuccessorsCorrect m cf η.state b (VariableHolds st.blockVariables
            (solutionEnv st.blockVariables p η)) <->
          SuccessorsCorrect m cf η.state b p := by
      constructor
      · intro h t ht hsel
        exact (variableHolds_solutionEnv hinv (htargets t ht)).mp (h t ht hsel)
      · intro h t ht hsel
        exact (variableHolds_solutionEnv hinv (htargets t ht)).mpr
          (h t ht hsel)
    have hvc : vc.Holds (vcInterp C cf) (solutionEnv st.blockVariables p η) <->
        p b.uniqueId := by
      rw [hmeaning C cf _, solutionEnv_state hinv, hp b.uniqueId,
        blockEquation_iff hb]
      exact commandsMeaning_congr o weak m hsuccs
    have hvar : solutionEnv st.blockVariables p η v =
        .bool (solutionEnv st.blockVariables p η v).truth := by
      have h : exists id, st.blockVariables id = some v := ⟨_, hv⟩
      simp [solutionEnv, h]
    rw [hvar]
    congr 1
    rw [Bool.eq_iff_iff, solutionEnv_var hinv hv]
    exact hvc.symm

theorem variableHolds_iff {U : Type} [DecidableEq U] {C : Context U}
    {cf : Int -> Int -> Int} {η η' : VCEnv U} (hinv : LetInvariant o weak m P.blocks done st)
    (hη' : VCExpr.IsSolution (vcInterp C cf) st.bindings η η')
    {id : Nat} (hid : id ∈ done) :
    VariableHolds st.blockVariables η' id <-> BlockEquation o weak m P.blocks C cf η'.state id
        (VariableHolds st.blockVariables η') := by
  rcases (hinv.defined id).mpr hid with ⟨v, hv⟩
  rcases List.mem_map.mp (hinv.covered id v hv) with ⟨⟨v', vc⟩, hmem, rfl⟩
  rcases hinv.bound v' vc hmem with ⟨b, hb, hv', _, hmeaning⟩
  have hb' : b.uniqueId = id := hinv.injective _ _ v' hv' hv
  subst hb'
  rw [blockEquation_iff hb, ← hmeaning C cf η']
  have hsolves := hη'.solves _ hmem
  constructor
  · rintro ⟨w, hw, htruth⟩
    rw [hv', Option.some.injEq] at hw
    rw [← hw, hsolves] at htruth
    exact htruth
  · intro hvc
    refine ⟨v', hv', ?_⟩
    rw [hsolves]
    exact hvc

theorem state_eq_of_solution {U : Type} [DecidableEq U] {C : Context U}
    {cf : Int -> Int -> Int} {η η' : VCEnv U} (hinv : LetInvariant o weak m P.blocks done st)
    (hη' : VCExpr.IsSolution (vcInterp C cf) st.bindings η η') :
    η'.state = η.state := by
  funext x
  apply hη'.agrees
  intro hx
  rcases List.mem_map.mp hx with ⟨⟨v, vc⟩, hmem, rfl⟩
  rcases hinv.bound _ vc hmem with ⟨b, _, hv, _, _⟩
  rcases hinv.fresh _ _ hv with ⟨k, name, hname, _⟩
  cases hname

end Solutions

theorem letVCIterativeOf_spec (isPositiveContext : Bool) (P : PassiveProgram) (hm : m.Ready o)
    (hblock : forall b, b ∈ P.blocks ->
      Generates m (wlpBlock b) (commandsMeaning o weak m b b.cmds))
    {label2absy : Option (Nat -> Option Absy)} (hlabels : label2absy.isSome = m.labels) :
    exists vc labels n, letVCIterativeOf wlpBlock m.controlFlowVariableExpr isPositiveContext
          label2absy P.blocks = some (vc, labels, n) ∧
        forall {U : Type} [DecidableEq U] (C : Context U)
          (cf : Int -> Int -> Int) (η : VCEnv U) (p : Nat -> Prop), FixedPoint.IsSolution
              (BlockEquation o weak m P.blocks C cf η.state) p ->
            (vc.Holds (vcInterp C cf) η <-> p P.start.uniqueId) := by
  have hinitial : LetInvariant o weak m P.blocks []
      { bindings := []
        blockVariables := fun _ => none
        label2absy := label2absy
        assertionCount := 0 } := by
    constructor <;> simp [hlabels]
  have horder := Graph.topologicalSort_order false P.dag_acyclic
  have hsplit :
      P.dag.IsTopologicalOrder ([] ++ P.dag.topologicalSort false) := horder
  rcases letVCLoop_spec isPositiveContext P hm hblock hsplit hinitial with
    ⟨st, hst, hinv⟩
  rw [List.nil_append] at hinv
  have hstart : P.start.uniqueId ∈ P.dag.topologicalSort false :=
    (horder.mem_iff _).mpr start_mem_letDag
  rcases (hinv.defined _).mpr hstart with ⟨v, hv⟩
  have hne : st.bindings.isEmpty = false := by
    have := hinv.covered _ v hv
    cases hb : st.bindings with
    | nil => simp [hb] at this
    | cons => rfl
  refine ⟨VCExpressionGenerator.letBindings st.bindings (.var v),
    st.label2absy, st.assertionCount, ?_, ?_⟩
  · have hloop : letVCLoop wlpBlock m.controlFlowVariableExpr
        isPositiveContext P.blocks
        ((letDag P.start P.blocks).topologicalSort false)
        { bindings := []
          blockVariables := fun _ => none
          label2absy := label2absy
          assertionCount := 0 } = some st := hst
    simp only [letVCIterativeOf, PassiveProgram.blocks] at hloop ⊢
    rw [hloop]
    simp only [hv]
  · intro U _ C cf η p hp
    simp only [VCExpressionGenerator.letBindings, hne, Bool.false_eq_true,
      if_false]
    apply VCExpr.holds_letExpr
    · exact ⟨_, exists_letSolution hinv hp⟩
    · intro η' hη'
      have hstate := state_eq_of_solution hinv hη'
      have hagree := FixedPoint.solution_unique P.jumps_wellFounded
        (blockEquation_local o weak m P C cf η.state)
        (s := fun id => id ∈ P.dag.ns)
        (fun id t hid hjump => (P.dag.endpoints _ (edge_letDag.mpr hjump)).1)
        (fun id hid => by
          have := variableHolds_iff hinv hη' ((horder.mem_iff id).mpr hid)
          rwa [hstate] at this)
        (fun id _ => hp id) P.start.uniqueId
        ((horder.mem_iff _).mp hstart)
      rw [← hagree]
      simp [VCExpr.Holds, VariableHolds, hv]

end Loop

end VCGen

end Boogie
