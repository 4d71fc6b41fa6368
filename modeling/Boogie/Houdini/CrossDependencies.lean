import Boogie.Houdini.CandidateChecks
import Boogie.Houdini.WorklistSound

/-!
# Cross dependencies

A visitor records for every candidate the implementations in which it occurs.
It remembers the implementation that it visited last, also while it visits a
declaration of another kind.
-/

namespace Boogie

/-!
# The identifiers a visit meets

Formals, local variables and the variables of modifies clauses are no
constants.  Types, attributes and jump targets hold no identifiers or are not
visited.
-/

def AssignLhs.identifiers : AssignLhs -> List Variable
  | .simpleAssignLhs x => [x]
  | .mapAssignLhs map indexes => map.identifiers ++ Expr.identifiersOfArgs indexes

def assignIdentifiers : List AssignLhs -> List Expr -> List Variable
  | lhs :: lhss, rhs :: rhss =>
    lhs.identifiers ++ rhs.identifiers ++ assignIdentifiers lhss rhss
  | _, _ => []

def AssertCmd.identifiers (c : AssertCmd) : List Variable :=
  match c.kind with
  | .assertRequiresCmd _ condition => condition.identifiers ++ c.expr.identifiers
  | .assertEnsuresCmd condition => condition.identifiers ++ c.expr.identifiers
  | _ => c.expr.identifiers

def Cmd.identifiers : Cmd -> List Variable
  | .assertCmd c => c.identifiers
  | .assumeCmd c => c.expr.identifiers
  | .assignCmd lhss rhss => assignIdentifiers lhss rhss
  | .havocCmd vars => vars
  | .callCmd c => Expr.identifiersOfArgs c.ins ++ c.outs
  | .commentCmd _ => []

def TransferCmd.identifiers : TransferCmd -> List Variable
  | .returnExprCmd e => e.identifiers
  | _ => []

def Block.identifiers (b : Block) : List Variable :=
  b.cmds.flatMap Cmd.identifiers ++ b.transferCmd.identifiers

def Procedure.identifiers (proc : Procedure) : List Variable :=
  proc.ensures.flatMap (fun e => e.condition.identifiers) ++
    proc.requires.flatMap (fun r => r.condition.identifiers)

def Implementation.identifiers (impl : Implementation) : List Variable :=
  impl.blocks.flatMap Block.identifiers

namespace CrossDependencies

/-!
# Declarations in their order
-/

inductive Declaration where
  | typeDeclaration (name : String)
  | constant (c : Constant)
  | globalVariable (x : TypedIdent)
  | function (name : String) (body : Option Expr)
  | axiomDeclaration (e : Expr)
  | procedure (proc : Procedure)
  | implementation (impl : Implementation) (proc : Procedure)

namespace Declaration

def identifiers : Declaration -> List Variable
  | function _ (some body) => body.identifiers
  | axiomDeclaration e => e.identifiers
  | procedure proc => proc.identifiers
  | implementation impl proc => impl.identifiers ++ proc.identifiers
  | globalVariable x => [.globalVariable x]
  | _ => []

def constant? : Declaration -> Option Constant
  | constant c => some c
  | _ => none

def axiomExpr? : Declaration -> Option Expr
  | axiomDeclaration e => some e
  | _ => none

def procedure? : Declaration -> Option Procedure
  | procedure proc => some proc
  | _ => none

def implementation? : Declaration -> Option Implementation
  | implementation impl _ => some impl
  | _ => none

end Declaration

structure TopLevelDeclarations where
  declarations : List Declaration
  names : forall c c', Declaration.constant c ∈ declarations ->
    Declaration.constant c' ∈ declarations ->
    c.ident.name = c'.ident.name -> c = c'

def TopLevelDeclarations.program (P : TopLevelDeclarations) : Program where
  constants := P.declarations.filterMap Declaration.constant?
  axioms := P.declarations.filterMap Declaration.axiomExpr?
  procedures := P.declarations.filterMap Declaration.procedure?
  implementations := P.declarations.filterMap Declaration.implementation?

end CrossDependencies

/-!
# The visitor

In the table and in `curImpl`, `none` is the null reference.
-/

structure CrossDependencies where
  curImpl : Option Implementation
  assumedInImpl : String -> Option (List (Option Implementation))

namespace CrossDependencies

def visitVariable (constants : List Variable) (s : CrossDependencies)
    (node : Variable) : CrossDependencies :=
  if node.isConstant = true ∧ node ∈ constants then
    { s with
      assumedInImpl := Function.update s.assumedInImpl node.name
        (some (hashSetAdd ((s.assumedInImpl node.name).getD []) s.curImpl)) }
  else s

def visitDeclaration (constants : List Variable) (s : CrossDependencies)
    (d : Declaration) : CrossDependencies :=
  match d with
  | .implementation impl _ =>
    d.identifiers.foldl (visitVariable constants)
      { s with curImpl := some impl }
  | _ => d.identifiers.foldl (visitVariable constants) s

def visitProgram (constants : List Variable) (decls : List Declaration) :
    CrossDependencies :=
  decls.foldl (visitDeclaration constants) ⟨none, fun _ => none⟩

def Assumed (s : CrossDependencies) (name : String)
    (o : Option Implementation) : Prop :=
  exists impls, s.assumedInImpl name = some impls ∧ o ∈ impls

/-!
# What a visit records
-/

def Names (constants : List Variable) (name : String) (xs : List Variable) :
    Prop :=
  exists x, x ∈ xs ∧ x.isConstant = true ∧ x ∈ constants ∧ x.name = name

theorem Names.cons_iff {constants : List Variable} {name : String}
    {x : Variable} {xs : List Variable} :
    Names constants name (x :: xs) <-> (x.isConstant = true ∧ x ∈ constants ∧ x.name = name) ∨
        Names constants name xs := by
  simp [Names]

section Visits

variable {constants : List Variable} {s : CrossDependencies} {name : String}
  {o : Option Implementation}

theorem visitVariable_curImpl (x : Variable) :
    (visitVariable constants s x).curImpl = s.curImpl := by
  unfold visitVariable
  split <;> rfl

theorem visitVariable_assumed (x : Variable) :
    (visitVariable constants s x).Assumed name o <->
      s.Assumed name o ∨ (o = s.curImpl ∧ x.isConstant = true ∧ x ∈ constants ∧ x.name = name) := by
  unfold visitVariable
  split
  · rename_i hx
    by_cases hname : x.name = name
    · subst hname
      have hset : (exists impls, s.assumedInImpl x.name = some impls ∧
          o ∈ impls) <-> o ∈ (s.assumedInImpl x.name).getD [] := by
        cases s.assumedInImpl x.name <;> simp
      simp [Assumed, hx, hset]
    · simp [Assumed, hname, Function.update_of_ne (Ne.symm hname)]
  · rename_i hx
    constructor
    · exact Or.inl
    · rintro (h | ⟨_, hconst, hmem, _⟩)
      · exact h
      · exact absurd ⟨hconst, hmem⟩ hx

theorem visitVariables_curImpl (xs : List Variable) :
    (xs.foldl (visitVariable constants) s).curImpl = s.curImpl := by
  induction xs generalizing s with
  | nil => rfl
  | cons x xs ih => rw [List.foldl_cons, ih, visitVariable_curImpl]

theorem visitVariables_assumed (xs : List Variable) :
    (xs.foldl (visitVariable constants) s).Assumed name o <->
      s.Assumed name o ∨ (o = s.curImpl ∧ Names constants name xs) := by
  induction xs generalizing s with
  | nil => simp [Names]
  | cons x xs ih =>
    rw [List.foldl_cons, ih, visitVariable_assumed, visitVariable_curImpl,
      Names.cons_iff]
    tauto

def Declaration.current (d : Declaration) (last : Option Implementation) :
    Option Implementation :=
  match d with
  | implementation impl _ => some impl
  | _ => last

theorem visitDeclaration_curImpl (d : Declaration) :
    (visitDeclaration constants s d).curImpl = d.current s.curImpl := by
  cases d <;> exact visitVariables_curImpl _

theorem visitDeclaration_assumed (d : Declaration) :
    (visitDeclaration constants s d).Assumed name o <->
      s.Assumed name o ∨ (o = d.current s.curImpl ∧ Names constants name d.identifiers) := by
  cases d <;> exact visitVariables_assumed _

def lastImplementation (decls : List Declaration)
    (last : Option Implementation) : Option Implementation :=
  decls.foldl (fun last d => d.current last) last

theorem visitDeclarations_assumed (decls : List Declaration) :
    (decls.foldl (visitDeclaration constants) s).Assumed name o <->
      s.Assumed name o ∨ exists before d after, decls = before ++ d :: after ∧
        Names constants name d.identifiers ∧
        o = d.current (lastImplementation before s.curImpl) := by
  induction decls generalizing s with
  | nil => simp
  | cons d decls ih =>
    rw [List.foldl_cons, ih, visitDeclaration_assumed,
      visitDeclaration_curImpl, or_assoc]
    apply or_congr Iff.rfl
    constructor
    · rintro (⟨ho, hnames⟩ | ⟨before, d', after, hsplit, hnames, ho⟩)
      · exact ⟨[], d, decls, rfl, hnames, ho⟩
      · exact ⟨d :: before, d', after, by rw [hsplit]; rfl, hnames, ho⟩
    · rintro ⟨before, d', after, hsplit, hnames, ho⟩
      cases before with
      | nil =>
        injection hsplit with hhead htail
        subst hhead
        exact Or.inl ⟨ho, hnames⟩
      | cons first before =>
        injection hsplit with hhead htail
        subst hhead
        exact Or.inr ⟨before, d', after, htail, hnames, ho⟩

end Visits

theorem visitProgram_assumed {constants : List Variable} {name : String}
    {o : Option Implementation} (decls : List Declaration) :
    (visitProgram constants decls).Assumed name o <->
      exists before d after, decls = before ++ d :: after ∧ Names constants name d.identifiers ∧
        o = d.current (lastImplementation before none) := by
  unfold visitProgram
  rw [visitDeclarations_assumed]
  simp [Assumed]

/-!
# Putting implementations back on the work list
-/

open Houdini (HoudiniState)

/--
The loop of `FindImplementationsToEnqueue` for a refuted assertion.  The lookup
of a session fails for the null reference, and what it finds is not checked.
-/
def implementationsToEnqueue (H : Houdini) (s : HoudiniState) (v : Variable) :
    List (Option Implementation) -> Option (List Implementation)
  | [] => some []
  | none :: _ => none
  | some impl :: os =>
    match H.houdiniSession impl, implementationsToEnqueue H s v os with
    | some _, some found =>
      some (if s.inUnsatCore impl v then impl :: found else found)
    | _, _ => none

def findAssumers (H : Houdini) (s : HoudiniState) (v : Variable)
    (crossDependencies : CrossDependencies) : Option (List Implementation) :=
  match crossDependencies.assumedInImpl v.name with
  | some os => implementationsToEnqueue H s v os
  | none => some []

section Enqueue

variable {H : Houdini} {s : HoudiniState} {v : Variable}
  {os : List (Option Implementation)} {found : List Implementation}

theorem implementationsToEnqueue_isSome :
    (implementationsToEnqueue H s v os).isSome = true <->
      forall o, o ∈ os -> exists impl, o = some impl ∧ (H.houdiniSession impl).isSome = true := by
  induction os with
  | nil => simp [implementationsToEnqueue]
  | cons o os ih =>
    cases o with
    | none => simp [implementationsToEnqueue]
    | some impl =>
      have hhead : (implementationsToEnqueue H s v
          (some impl :: os)).isSome = true <->
          (H.houdiniSession impl).isSome = true ∧
            (implementationsToEnqueue H s v os).isSome = true := by
        rw [implementationsToEnqueue]
        cases H.houdiniSession impl <;>
          cases implementationsToEnqueue H s v os <;> simp
      rw [hhead, ih]
      simp

theorem mem_implementationsToEnqueue {impl : Implementation}
    (h : implementationsToEnqueue H s v os = some found) :
    impl ∈ found <-> some impl ∈ os ∧ s.inUnsatCore impl v = true := by
  induction os generalizing found with
  | nil =>
    cases h
    simp
  | cons o os ih =>
    cases o with
    | none => cases h
    | some first =>
      rw [implementationsToEnqueue] at h
      split at h
      · rename_i rest _ hrest
        cases h
        have hmem := ih hrest
        by_cases hfirst : impl = first
        · subst hfirst
          by_cases hcore : s.inUnsatCore impl v = true <;>
            simp [hcore, hmem]
        · split <;> simp [hfirst, hmem]
      · cases h

theorem findAssumers_isSome {crossDependencies : CrossDependencies} :
    (findAssumers H s v crossDependencies).isSome = true <->
      forall o, crossDependencies.Assumed v.name o -> exists impl,
        o = some impl ∧ (H.houdiniSession impl).isSome = true := by
  unfold findAssumers Assumed
  cases crossDependencies.assumedInImpl v.name with
  | none => simp
  | some os => simp [implementationsToEnqueue_isSome]

theorem mem_findAssumers {crossDependencies : CrossDependencies}
    {impl : Implementation} (h : findAssumers H s v crossDependencies = some found) :
    impl ∈ found <-> crossDependencies.Assumed v.name (some impl) ∧
      s.inUnsatCore impl v = true := by
  unfold findAssumers at h
  unfold Assumed
  cases htable : crossDependencies.assumedInImpl v.name with
  | none =>
    rw [htable] at h
    cases h
    simp
  | some os =>
    rw [htable] at h
    simp [mem_implementationsToEnqueue h]

end Enqueue

/-!
# Correct dependencies
-/

/-- An implementation mentions `c` in its blocks or in the specification of its
procedure. -/
def TopLevelDeclarations.Mentions (P : TopLevelDeclarations)
    (impl : Implementation) (c : Variable) : Prop :=
  exists proc, Declaration.implementation impl proc ∈ P.declarations ∧
    (c ∈ impl.identifiers ∨ c ∈ proc.identifiers)

structure AssumedInImplCorrect (P : TopLevelDeclarations)
    (s : CrossDependencies) (c : Variable) : Prop where
  complete : forall impl proc,
    Declaration.implementation impl proc ∈ P.declarations ->
    c ∈ impl.identifiers -> s.Assumed c.name (some impl)
  sound : forall o, s.Assumed c.name o ->
    exists impl, o = some impl ∧ P.Mentions impl c

/-- A refutation of `c` puts back every implementation that may have used it. -/
def ReenqueuesCorrectly (H : Houdini) (P : TopLevelDeclarations)
    (s : CrossDependencies) (c : Variable) : Prop :=
  forall state, exists found, findAssumers H state c s = some found ∧
    forall impl proc, Declaration.implementation impl proc ∈ P.declarations ->
      c ∈ impl.identifiers -> state.inUnsatCore impl c = true -> impl ∈ found

/--
A declaration of another kind mentions `c` only where the last implementation
before it does.
-/
def FollowsMention (P : TopLevelDeclarations) (c : Variable) : Prop :=
  forall before d after, P.declarations = before ++ d :: after ->
    d.implementation? = none -> c ∈ d.identifiers ->
    exists impl, lastImplementation before none = some impl ∧ P.Mentions impl c

def HaveSessions (H : Houdini) (P : TopLevelDeclarations) (c : Variable) :
    Prop :=
  forall impl, P.Mentions impl c -> (H.houdiniSession impl).isSome = true

section Correct

variable {H : Houdini} {P : TopLevelDeclarations} {c : Variable}

theorem names_iff (hprogram : H.program = P.program)
    (hc : c ∈ H.houdiniConstants) (xs : List Variable) :
    Names H.houdiniConstants c.name xs <-> c ∈ xs := by
  have hconst : forall x, x ∈ H.houdiniConstants -> exists k,
      x = .constant k.ident ∧ Declaration.constant k ∈ P.declarations := by
    intro x hx
    have hmem := Program.houdiniConstants_subset hx
    rw [hprogram] at hmem
    rcases List.mem_map.mp hmem with ⟨k, hk, rfl⟩
    rcases List.mem_filterMap.mp hk with ⟨d, hd, heq⟩
    cases d with
    | constant k' =>
      cases heq
      exact ⟨k, rfl, hd⟩
    | _ => cases heq
  rcases hconst c hc with ⟨k, rfl, hk⟩
  constructor
  · intro ⟨x, hx, _, hmem, hname⟩
    rcases hconst x hmem with ⟨k', rfl, hk'⟩
    rwa [P.names k k' hk hk' hname.symm]
  · intro hx
    exact ⟨_, hx, rfl, hc, rfl⟩

theorem visitProgram_iff (hprogram : H.program = P.program)
    (hc : c ∈ H.houdiniConstants) {o : Option Implementation} :
    (visitProgram H.houdiniConstants P.declarations).Assumed c.name o <->
      exists before d after, P.declarations = before ++ d :: after ∧ c ∈ d.identifiers ∧
        o = d.current (lastImplementation before none) := by
  simp only [visitProgram_assumed, names_iff hprogram hc]

theorem assumed_of_mentions (hprogram : H.program = P.program)
    (hc : c ∈ H.houdiniConstants) {impl : Implementation} (h : P.Mentions impl c) :
    (visitProgram H.houdiniConstants P.declarations).Assumed c.name (some impl) := by
  rcases h with ⟨proc, hdecl, hmem⟩
  rcases List.append_of_mem hdecl with ⟨before, after, hsplit⟩
  apply (visitProgram_iff hprogram hc).mpr
  exact ⟨before, .implementation impl proc, after, hsplit,
    List.mem_append.mpr hmem, rfl⟩

theorem assumedInImplCorrect_iff (hprogram : H.program = P.program) (hc : c ∈ H.houdiniConstants) :
    AssumedInImplCorrect P (visitProgram H.houdiniConstants P.declarations) c <->
      FollowsMention P c := by
  constructor
  · intro h before d after hsplit hkind hmem
    apply h.sound
    apply (visitProgram_iff hprogram hc).mpr
    exists before, d, after
    constructor
    · exact hsplit
    · constructor
      · exact hmem
      · cases d with
        | implementation impl proc => cases hkind
        | _ => rfl
  · intro h
    constructor
    · intro impl proc hdecl hmem
      exact assumed_of_mentions hprogram hc ⟨proc, hdecl, Or.inl hmem⟩
    · intro o ho
      rcases (visitProgram_iff hprogram hc).mp ho with
        ⟨before, d, after, hsplit, hmem, rfl⟩
      cases d with
      | implementation impl proc =>
        have hdecl : Declaration.implementation impl proc ∈
            P.declarations := by simp [hsplit]
        exact ⟨impl, rfl, proc, hdecl, List.mem_append.mp hmem⟩
      | _ => exact h before _ after hsplit rfl hmem

theorem reenqueuesCorrectly_iff (hprogram : H.program = P.program)
    (hc : c ∈ H.houdiniConstants) (hfollows : FollowsMention P c) :
    ReenqueuesCorrectly H P (visitProgram H.houdiniConstants P.declarations) c <->
      HaveSessions H P c := by
  have hcorrect := (assumedInImplCorrect_iff hprogram hc).mpr hfollows
  constructor
  · intro h impl himpl
    let state : HoudiniState :=
      { workQueue := ⟨[], List.nodup_nil⟩
        blackList := []
        assignment := fun _ => true
        implementationOutcomes := fun _ => none
        unsatCoreSet := fun _ => none
        control := .outerLoop }
    rcases h state with ⟨found, hfound, _⟩
    have hsome := findAssumers_isSome.mp (Option.isSome_of_eq_some hfound)
      (some impl) (assumed_of_mentions hprogram hc himpl)
    rcases hsome with ⟨impl', heq, hsession⟩
    cases heq
    exact hsession
  · intro h state
    have hsome : (findAssumers H state c
        (visitProgram H.houdiniConstants P.declarations)).isSome = true := by
      apply findAssumers_isSome.mpr
      intro o ho
      rcases hcorrect.sound o ho with ⟨impl, rfl, himpl⟩
      exact ⟨impl, rfl, h impl himpl⟩
    rcases Option.isSome_iff_exists.mp hsome with ⟨found, hfound⟩
    exists found
    constructor
    · exact hfound
    · intro impl proc hdecl hmem hcore
      exact (mem_findAssumers hfound).mpr
        ⟨hcorrect.complete impl proc hdecl hmem, hcore⟩

/--
The dependencies are right exactly when no declaration is put down to a foreign
implementation, or to none, and the implementations found have a session.
-/
theorem crossDependencies_correct_iff (hprogram : H.program = P.program) :
    (forall c, c ∈ H.houdiniConstants ->
      AssumedInImplCorrect P (visitProgram H.houdiniConstants P.declarations) c ∧
        ReenqueuesCorrectly H P (visitProgram H.houdiniConstants P.declarations) c) <->
      forall c, c ∈ H.houdiniConstants -> FollowsMention P c ∧ HaveSessions H P c := by
  apply forall_congr'
  intro c
  apply forall_congr'
  intro hc
  rw [assumedInImplCorrect_iff hprogram hc]
  apply and_congr_right
  intro hfollows
  exact reenqueuesCorrectly_iff hprogram hc hfollows

end Correct

/-!
# Two orders of one program
-/

section Orders

open Houdini (callee caller candidate callProgram callerAndCallee guarded
  parameter)

def calleeProcedure : Procedure :=
  ⟨"A", [⟨false, guarded (parameter "q")⟩], []⟩

def callerProcedure : Procedure :=
  ⟨"B", [], []⟩

/-- The callee, whose procedure mentions the candidate, precedes all
procedures. -/
def implementationFirst : TopLevelDeclarations where
  declarations :=
    [.constant candidate, .implementation callee calleeProcedure,
      .procedure calleeProcedure, .procedure callerProcedure,
      .implementation caller callerProcedure]
  names := by
    intro c c' hc hc' _
    simp only [List.mem_cons, Declaration.constant.injEq, List.not_mem_nil,
      reduceCtorEq, or_false] at hc hc'
    rw [hc, hc']

def procedureFirst : TopLevelDeclarations where
  declarations :=
    [.constant candidate, .procedure calleeProcedure,
      .procedure callerProcedure, .implementation callee calleeProcedure,
      .implementation caller callerProcedure]
  names := by
    intro c c' hc hc' _
    simp only [List.mem_cons, Declaration.constant.injEq, List.not_mem_nil,
      reduceCtorEq, or_false] at hc hc'
    rw [hc, hc']

theorem implementationFirst_mentions {impl : Implementation} :
    implementationFirst.Mentions impl candidate.variable <-> impl = callee := by
  have hcaller : candidate.variable ∉ caller.identifiers ∧
      candidate.variable ∉ callerProcedure.identifiers := by decide
  constructor
  · intro ⟨proc, hdecl, hmem⟩
    simp only [implementationFirst, List.mem_cons,
      Declaration.implementation.injEq, List.not_mem_nil, reduceCtorEq,
      or_false, false_or] at hdecl
    rcases hdecl with ⟨rfl, rfl⟩ | ⟨rfl, rfl⟩
    · rfl
    · rcases hmem with hmem | hmem
      · exact absurd hmem hcaller.1
      · exact absurd hmem hcaller.2
  · rintro rfl
    exists calleeProcedure
    constructor
    · simp [implementationFirst]
    · exact Or.inr (by decide)

theorem implementationFirst_follows :
    FollowsMention implementationFirst candidate.variable := by
  intro before d after hsplit hkind hmem
  have hprocedure : d = .procedure calleeProcedure := by
    have hd : d ∈ implementationFirst.declarations := by simp [hsplit]
    simp only [implementationFirst, List.mem_cons, List.not_mem_nil,
      or_false] at hd
    rcases hd with rfl | rfl | rfl | rfl | rfl
    · exact absurd hmem (by decide)
    · cases hkind
    · rfl
    · exact absurd hmem (by decide)
    · cases hkind
  subst hprocedure
  exists callee
  constructor
  · rcases before with _ | ⟨d₁, _ | ⟨d₂, _ | ⟨d₃, before⟩⟩⟩
    · cases hsplit
    · cases hsplit
    · cases hsplit
      rfl
    · injection hsplit with _ hsplit
      injection hsplit with _ hsplit
      injection hsplit with _ hsplit
      have habsent : Declaration.procedure calleeProcedure ∈
          [Declaration.procedure callerProcedure,
            .implementation caller callerProcedure] := by
        rw [hsplit]
        simp
      simp [calleeProcedure, callerProcedure] at habsent
  · exact implementationFirst_mentions.mpr rfl

theorem crossDependencies_correct_implementationFirst :
    AssumedInImplCorrect implementationFirst (visitProgram callerAndCallee.houdiniConstants
          implementationFirst.declarations) candidate.variable ∧
      ReenqueuesCorrectly callerAndCallee implementationFirst
        (visitProgram callerAndCallee.houdiniConstants
          implementationFirst.declarations) candidate.variable := by
  have hcandidate : candidate.variable ∈ callerAndCallee.houdiniConstants :=
    Houdini.mem_callProgram_constants.mpr rfl
  apply (crossDependencies_correct_iff (P := implementationFirst)
    (H := callerAndCallee) rfl).mpr _ _ hcandidate
  intro c hc
  rw [Houdini.mem_callProgram_constants.mp hc]
  constructor
  · exact implementationFirst_follows
  · intro impl himpl
    rw [implementationFirst_mentions.mp himpl]
    apply Houdini.houdiniSession_isSome.mpr
    decide

/-- The precondition is put down to no implementation at all. -/
theorem procedureFirst_incorrect :
    ¬ forall c, c ∈ callerAndCallee.houdiniConstants -> AssumedInImplCorrect procedureFirst
        (visitProgram callerAndCallee.houdiniConstants procedureFirst.declarations) c ∧
      ReenqueuesCorrectly callerAndCallee procedureFirst
        (visitProgram callerAndCallee.houdiniConstants procedureFirst.declarations) c := by
  intro h
  have hcandidate : candidate.variable ∈ callerAndCallee.houdiniConstants :=
    Houdini.mem_callProgram_constants.mpr rfl
  have hnull : (visitProgram callerAndCallee.houdiniConstants
      procedureFirst.declarations).Assumed candidate.variable.name none := by
    apply (visitProgram_iff (P := procedureFirst) rfl hcandidate).mpr
    exact ⟨[.constant candidate], .procedure calleeProcedure,
      [.procedure callerProcedure, .implementation callee calleeProcedure,
        .implementation caller callerProcedure], rfl, by decide, rfl⟩
  rcases (h _ hcandidate).1.sound none hnull with ⟨impl, heq, _⟩
  cases heq

end Orders

end CrossDependencies

end Boogie
