import Boogie.Core.Cmd
import Boogie.Graph.Graph

/-!
# Programs and their call graph
-/

namespace Boogie

/-!
# Declarations

An implementation is the object with its unique identifier.  Its name is the
name of its procedure, which may have several implementations.
-/

structure Requires where
  free : Bool
  condition : Expr
deriving DecidableEq, Repr

structure Ensures where
  free : Bool
  condition : Expr
deriving DecidableEq, Repr

structure Procedure where
  name : String
  requires : List Requires
  ensures : List Ensures
deriving DecidableEq, Repr

structure Implementation where
  uniqueId : Nat
  name : String
  blocks : List Block
  skipVerification : Bool
deriving DecidableEq, Repr

structure Constant where
  ident : TypedIdent
  attributes : List QKeyValue
deriving DecidableEq, Repr

structure Program where
  constants : List Constant
  axioms : List Expr
  procedures : List Procedure
  implementations : List Implementation
deriving DecidableEq, Repr

def Constant.variable (c : Constant) : Variable :=
  .constant c.ident

def Cmd.callee? : Cmd -> Option String
  | .callCmd c => some c.callee
  | _ => none

def Implementation.callees (impl : Implementation) : List String :=
  impl.blocks.flatMap (fun b => b.cmds.filterMap Cmd.callee?)

/-!
# The call graph
-/

namespace Program

def verified (p : Program) : List Implementation :=
  p.implementations.filter (fun impl => !impl.skipVerification)

def procToImpls (p : Program) (proc : String) : List Implementation :=
  p.verified.filter (fun impl => impl.name = proc)

def addCalls (p : Program) (g : Graph Implementation) (impl : Implementation) :
    Graph Implementation :=
  impl.callees.foldl
    (fun g proc =>
      (p.procToImpls proc).foldl (fun g callee => g.addEdge impl callee) g)
    g

def buildCallGraph (p : Program) : Graph Implementation :=
  p.verified.foldl p.addCalls (p.verified.foldl Graph.addSource Graph.empty)

theorem mem_procToImpls {p : Program} {proc : String} {impl : Implementation} :
    impl ∈ p.procToImpls proc <-> impl ∈ p.verified ∧ impl.name = proc := by
  simp [procToImpls]

section CallGraph

variable {p : Program} {g : Graph Implementation} {x y : Implementation}

theorem foldl_addSource_ns {impls : List Implementation} :
    x ∈ (impls.foldl Graph.addSource g).ns <-> x ∈ g.ns ∨ x ∈ impls := by
  induction impls generalizing g with
  | nil => simp
  | cons impl impls ih => simp [ih, or_assoc]

theorem foldl_addSource_edge {impls : List Implementation} :
    (impls.foldl Graph.addSource g).Edge x y <-> g.Edge x y := by
  induction impls generalizing g with
  | nil => simp
  | cons impl impls ih => simp [ih]

theorem foldl_addEdge_ns {impl : Implementation}
    {callees : List Implementation} (himpl : impl ∈ g.ns)
    (hcallees : forall c, c ∈ callees -> c ∈ g.ns) :
    x ∈ (callees.foldl (fun g c => g.addEdge impl c) g).ns <-> x ∈ g.ns := by
  induction callees generalizing g with
  | nil => simp
  | cons c callees ih =>
    have hc : c ∈ g.ns := hcallees c (by simp)
    rw [List.foldl_cons, ih (by simp [himpl])
      (fun d hd => by simp [hcallees d (List.mem_cons_of_mem _ hd)])]
    simp only [Graph.mem_ns_addEdge]
    constructor
    · intro h
      rcases h with h | rfl | rfl
      · exact h
      · exact himpl
      · exact hc
    · exact Or.inl

theorem foldl_addEdge_edge {impl : Implementation}
    {callees : List Implementation} :
    (callees.foldl (fun g c => g.addEdge impl c) g).Edge x y <->
      g.Edge x y ∨ (x = impl ∧ y ∈ callees) := by
  induction callees generalizing g with
  | nil => simp
  | cons c callees ih =>
    rw [List.foldl_cons, ih, Graph.edge_addEdge, List.mem_cons]
    tauto

theorem addCalls_edge {impl : Implementation} :
    (p.addCalls g impl).Edge x y <-> g.Edge x y ∨ (x = impl ∧ exists proc, proc ∈ impl.callees ∧
        y ∈ p.procToImpls proc) := by
  unfold addCalls
  generalize impl.callees = procs
  induction procs generalizing g with
  | nil => simp
  | cons proc procs ih =>
    rw [List.foldl_cons, ih, foldl_addEdge_edge]
    simp only [List.mem_cons, exists_eq_or_imp]
    tauto

theorem addCalls_ns {impl : Implementation}
    (hg : forall z, z ∈ p.verified -> z ∈ g.ns) (himpl : impl ∈ p.verified) :
    x ∈ (p.addCalls g impl).ns <-> x ∈ g.ns := by
  unfold addCalls
  generalize impl.callees = procs
  induction procs generalizing g with
  | nil => simp
  | cons proc procs ih =>
    have hns : forall z,
        z ∈ ((p.procToImpls proc).foldl
          (fun g callee => g.addEdge impl callee) g).ns <-> z ∈ g.ns :=
      fun z => foldl_addEdge_ns (hg impl himpl)
        (fun c hc => hg c (mem_procToImpls.mp hc).1)
    rw [List.foldl_cons, ih (fun z hz => (hns z).mpr (hg z hz)), hns]

theorem foldl_addCalls_edge {impls : List Implementation} :
    (impls.foldl p.addCalls g).Edge x y <->
      g.Edge x y ∨ (x ∈ impls ∧ exists proc, proc ∈ x.callees ∧ y ∈ p.procToImpls proc) := by
  induction impls generalizing g with
  | nil => simp
  | cons impl impls ih =>
    rw [List.foldl_cons, ih, addCalls_edge, List.mem_cons]
    constructor
    · intro h
      rcases h with (h | ⟨rfl, h⟩) | ⟨hx, h⟩
      · exact Or.inl h
      · exact Or.inr ⟨Or.inl rfl, h⟩
      · exact Or.inr ⟨Or.inr hx, h⟩
    · intro h
      rcases h with h | ⟨rfl | hx, h⟩
      · exact Or.inl (Or.inl h)
      · exact Or.inl (Or.inr ⟨rfl, h⟩)
      · exact Or.inr ⟨hx, h⟩

theorem foldl_addCalls_ns {impls : List Implementation} (hg : forall z, z ∈ p.verified -> z ∈ g.ns)
    (himpls : forall z, z ∈ impls -> z ∈ p.verified) :
    x ∈ (impls.foldl p.addCalls g).ns <-> x ∈ g.ns := by
  induction impls generalizing g with
  | nil => simp
  | cons impl impls ih =>
    have himpl := himpls impl (by simp)
    rw [List.foldl_cons,
      ih (fun z hz => (addCalls_ns hg himpl).mpr (hg z hz))
        (fun z hz => himpls z (List.mem_cons_of_mem _ hz)),
      addCalls_ns hg himpl]

theorem mem_buildCallGraph_ns :
    x ∈ p.buildCallGraph.ns <-> x ∈ p.verified := by
  unfold buildCallGraph
  rw [foldl_addCalls_ns (fun z hz => foldl_addSource_ns.mpr (Or.inr hz))
    (fun z hz => hz), foldl_addSource_ns]
  simp [Graph.empty]

theorem buildCallGraph_edge :
    p.buildCallGraph.Edge x y <-> x ∈ p.verified ∧ y ∈ p.verified ∧ y.name ∈ x.callees := by
  unfold buildCallGraph
  rw [foldl_addCalls_edge, foldl_addSource_edge]
  simp only [Graph.not_edge_empty, false_or, mem_procToImpls]
  constructor
  · rintro ⟨hx, proc, hproc, hy, hname⟩
    exact ⟨hx, hy, hname ▸ hproc⟩
  · rintro ⟨hx, hy, hname⟩
    exact ⟨hx, y.name, hname, hy, rfl⟩

end CallGraph

end Program

/-!
# Resolved programs
-/

namespace InterproceduralReachability

/-- What name resolution guarantees; a block is in one implementation only. -/
structure Resolved (p : Program) : Prop where
  blockIds : (p.implementations.flatMap
    (fun impl => impl.blocks.map Block.uniqueId)).Nodup
  implIds : (p.implementations.map Implementation.uniqueId).Nodup
  nonempty : forall impl, impl ∈ p.implementations -> impl.blocks ≠ []
  targets : forall impl, impl ∈ p.implementations -> forall b,
    b ∈ impl.blocks -> forall t, t ∈ b.labelTargets ->
      t ∈ impl.blocks.map Block.uniqueId
  procedures : forall impl, impl ∈ p.implementations ->
    impl.name ∈ p.procedures.map Procedure.name
  callees : forall impl, impl ∈ p.implementations -> forall b,
    b ∈ impl.blocks -> forall c, .callCmd c ∈ b.cmds ->
      c.callee ∈ p.procedures.map Procedure.name

end InterproceduralReachability

end Boogie
