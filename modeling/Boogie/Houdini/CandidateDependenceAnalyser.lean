import Mathlib.Data.List.AList
import Boogie.Graph.Graph
import Boogie.Graph.StronglyConnectedComponents

/-!
# Stages of candidates

The graph of the dependences between candidates is condensed to a graph of its
components, which are then assigned to numbered stages.  An exception of the
planner is `none`.
-/

namespace Boogie

namespace Houdini

/-!
# The dependence graph
-/

def constructCandidateDependenceGraph {VariableDescriptor : Type}
    (candidates : List String)
    (candidateDependsOn : String -> List VariableDescriptor)
    (variableDirectlyReferredToByCandidates : VariableDescriptor -> List String)
    (mayReach : String -> String -> Bool) : Graph String :=
  candidates.foldl
    (fun g c =>
      (candidateDependsOn c).foldl
        (fun g vd =>
          (variableDirectlyReferredToByCandidates vd).foldl
            (fun g d => if mayReach d c then g.addEdge c d else g) g)
        (g.addEdge c c))
    Graph.empty

structure CandidateDependenceAnalyser where
  candidates : List String
  candidateDependences : Graph String
  nodes : forall c, c ∈ candidateDependences.ns <-> c ∈ candidates

section DependenceGraph

variable {VariableDescriptor : Type} {candidates : List String}
  {candidateDependsOn : String -> List VariableDescriptor}
  {referred : VariableDescriptor -> List String}
  {mayReach : String -> String -> Bool}

theorem addDependencesOf_keeps {P : Graph String -> Prop} (c : String)
    (g : Graph String) (hg : P (g.addEdge c c))
    (hedge : forall g vd d, d ∈ referred vd -> P g -> P (g.addEdge c d)) :
    P ((candidateDependsOn c).foldl (fun g vd =>
        (referred vd).foldl (fun g d => if mayReach d c then g.addEdge c d else g) g)
      (g.addEdge c c)) := by
  apply List.foldlRecOn _ _ hg
  intro g hg vd _
  apply List.foldlRecOn _ _ hg
  intro g hg d hd
  split
  · exact hedge g vd d hd hg
  · exact hg

theorem mem_constructCandidateDependenceGraph
    (hreferred : forall vd d, d ∈ referred vd -> d ∈ candidates) (c : String) :
    c ∈ (constructCandidateDependenceGraph candidates candidateDependsOn
      referred mayReach).ns <-> c ∈ candidates := by
  constructor
  · revert c
    apply List.foldlRecOn
      (motive := fun g : Graph String => forall c, c ∈ g.ns -> c ∈ candidates)
    · simp [Graph.empty]
    · intro g hg c hc
      apply addDependencesOf_keeps
        (P := fun g : Graph String => forall c, c ∈ g.ns -> c ∈ candidates)
      · intro x hx
        rcases Graph.mem_ns_addEdge.mp hx with hx | rfl | rfl
        · exact hg x hx
        · exact hc
        · exact hc
      · intro g vd d hd hg x hx
        rcases Graph.mem_ns_addEdge.mp hx with hx | rfl | rfl
        · exact hg x hx
        · exact hc
        · exact hreferred vd x hd
  · intro hc
    have hkept : forall (cs : List String) (g : Graph String),
        c ∈ cs ∨ c ∈ g.ns ->
        c ∈ (cs.foldl
          (fun g c => (candidateDependsOn c).foldl
            (fun g vd => (referred vd).foldl
              (fun g d => if mayReach d c then g.addEdge c d else g) g)
            (g.addEdge c c)) g).ns := by
      intro cs
      induction cs with
      | nil =>
        intro g h
        rcases h with h | h
        · cases h
        · exact h
      | cons b cs ih =>
        intro g h
        apply ih
        by_cases hrest : c ∈ cs
        · exact Or.inl hrest
        · right
          apply addDependencesOf_keeps (P := fun g : Graph String => c ∈ g.ns)
          · rcases h with h | h
            · rcases List.mem_cons.mp h with rfl | h
              · exact Graph.mem_ns_addEdge.mpr (Or.inr (Or.inl rfl))
              · exact absurd h hrest
            · exact Graph.mem_ns_addEdge.mpr (Or.inl h)
          · exact fun g _ d _ hg => Graph.mem_ns_addEdge.mpr (Or.inl hg)
    exact hkept candidates Graph.empty (Or.inl hc)

/-- The analysis without the option that merges ignored candidates. -/
def analyse (candidates : List String)
    (candidateDependsOn : String -> List VariableDescriptor)
    (referred : VariableDescriptor -> List String)
    (mayReach : String -> String -> Bool)
    (hreferred : forall vd d, d ∈ referred vd -> d ∈ candidates) :
    CandidateDependenceAnalyser where
  candidates := candidates
  candidateDependences :=
    constructCandidateDependenceGraph candidates candidateDependsOn referred
      mayReach
  nodes := mem_constructCandidateDependenceGraph hreferred

end DependenceGraph

/-!
# The graph of the components

A component is its list of candidates.  All are disjoint and nonempty except
the dummy, so that equal lists are the same object.
-/

abbrev SCC := List String

def repOf (sccs : List SCC) : String -> Option SCC :=
  sccs.foldl
    (fun rep scc =>
      scc.foldl (fun rep s => Function.update rep s (some scc)) rep)
    (fun _ => none)

def addStagesEdge (rep : String -> Option SCC) (dag : Graph SCC)
    (edge : String × String) : Option (Graph SCC) :=
  match rep edge.1, rep edge.2 with
  | some source, some dest =>
    some (if source ≠ dest then dag.addEdge source dest else dag)
  | _, _ => none

def dummy : SCC := []

def constructStagesDAG (g : Graph String) : Option (Graph SCC) :=
  let sccs :=
    StronglyConnectedComponents.compute g.ns g.successors g.predecessors
  match g.es.foldlM (addStagesEdge (repOf sccs)) Graph.empty with
  | none => none
  | some dag => some (sccs.foldl (fun dag scc => dag.addEdge scc dummy) dag)

def getStartNodeOfStagesDAG (dag : Graph SCC) : Option SCC :=
  (dag.ns.filter (fun n => (dag.successors n).length = 0)).head?

/-!
# The plan

A stage is known by its number; `candidates` is the contents of the stages.
-/

structure StagedHoudiniPlan where
  scheduledStages : Graph Nat
  candidates : Nat -> List String

def StagedHoudiniPlan.stageForCandidate (plan : StagedHoudiniPlan)
    (c : String) : Option Nat :=
  plan.scheduledStages.ns.find? (fun s => c ∈ plan.candidates s)

structure Planning where
  dependences : Graph Nat
  candidates : Nat -> List String
  done : AList (fun _ : SCC => Nat)

def addCandidates (candidates : Nat -> List String) (stage : Nat) (n : SCC) :
    Nat -> List String :=
  Function.update candidates stage (n.foldl hashSetAdd (candidates stage))

def addDependences (dag : Graph SCC) (done : AList (fun _ : SCC => Nat))
    (stage : Nat) (n : SCC) (dependences : Graph Nat) : Option (Graph Nat) :=
  (dag.successors n).foldlM
    (fun g s => (done.lookup s).map (fun t => g.addEdge stage t))
    dependences

/-!
# Coarse and balanced stages

The two loops differ in the size of a stage, which only the second bounds.
Sizes are natural numbers: the bound is doubled only while some component is
larger.
-/

structure Filling where
  dependences : Graph Nat
  candidates : Nat -> List String
  stageSize : Nat
  assignedToThisStage : List SCC

def exceeds (maxStageSize : Option Nat) (size : Nat) : Bool :=
  match maxStageSize with
  | none => false
  | some max => size > max

def ready (dag : Graph SCC) (done : AList (fun _ : SCC => Nat)) (n : SCC) :
    Bool :=
  (dag.successors n).all (fun s => s ∈ done)

def assignComponent (dag : Graph SCC) (done : AList (fun _ : SCC => Nat))
    (stageId : Nat) (maxStageSize : Option Nat) (f : Filling) (n : SCC) :
    Option Filling :=
  if exceeds maxStageSize (f.stageSize + n.length) then some f
  else if ready dag done n then
    match addDependences dag done stageId n f.dependences with
    | none => none
    | some dependences =>
      some
        { dependences := dependences
          candidates := addCandidates f.candidates stageId n
          stageSize := f.stageSize + n.length
          assignedToThisStage := hashSetAdd f.assignedToThisStage n }
  else some f

def fillStage (dag : Graph SCC) (p : Planning) (stageId : Nat)
    (maxStageSize : Option Nat) : Option Filling :=
  (dag.ns.filter (fun n => n ∉ p.done)).foldlM
    (assignComponent dag p.done stageId maxStageSize)
    ⟨p.dependences, p.candidates, 0, []⟩

/-- `done` is updated when the stage is complete. -/
def finishStage (p : Planning) (stageId : Nat) (f : Filling) : Planning where
  dependences := f.dependences
  candidates := f.candidates
  done := f.assignedToThisStage.foldl (fun done n => done.insert n stageId)
    p.done

def stagesLoop (dag : Graph SCC) :
    Nat -> Nat -> Option Nat -> Planning -> Option Planning
  | 0, _, _, _ => none
  | iterations + 1, stageId, maxStageSize, p =>
    if p.done.keys.length = dag.ns.length then some p
    else
      match fillStage dag p stageId maxStageSize with
      | none => none
      | some f =>
        stagesLoop dag iterations (stageId + 1)
          (if f.stageSize = 0 then maxStageSize.map (fun max => max * 2)
            else maxStageSize)
          (finishStage p stageId f)

def computeStages (dag : Graph SCC) (iterations : Nat)
    (maxStageSize : Option Nat) : Option StagedHoudiniPlan :=
  match getStartNodeOfStagesDAG dag with
  | none => none
  | some start =>
    match stagesLoop dag iterations 1 maxStageSize
        ⟨Graph.empty, fun _ => [], AList.insert start 0 ∅⟩ with
    | none => none
    | some p => some ⟨p.dependences, p.candidates⟩

def computeCoarseStages (dag : Graph SCC) (iterations : Nat) :
    Option StagedHoudiniPlan :=
  computeStages dag iterations none

def computeBalancedStages (dag : Graph SCC) (iterations : Nat) :
    Option StagedHoudiniPlan :=
  computeStages dag iterations (some 200)

/-!
# Fine stages
-/

def fineLoop (dag : Graph SCC) :
    List SCC -> Nat -> Planning -> Option Planning
  | [], _, p => some p
  | n :: components, i, p =>
    let done := p.done.insert n i
    match addDependences dag done i n p.dependences with
    | none => none
    | some dependences =>
      fineLoop dag components (i + 1)
        { dependences := dependences
          candidates := addCandidates p.candidates i n
          done := done }

def computeFineStages (dag : Graph SCC) : Option StagedHoudiniPlan :=
  match fineLoop dag (dag.topologicalSort false).reverse 0
      ⟨Graph.empty, fun _ => [], ∅⟩ with
  | none => none
  | some p => some ⟨p.dependences, p.candidates⟩

/-!
# The choice of a strategy
-/

inductive StagedHoudini where
  | coarse
  | fine
  | balanced
deriving DecidableEq

def noStages (candidates : List String) (dag : Graph SCC) : Bool :=
  candidates.length = 0 || dag.ns.length = 0

/-- The first part of `ApplyStages`, whose result may be no plan. -/
def assignCandidatesToStages (analyser : CandidateDependenceAnalyser)
    (strategy : StagedHoudini) (iterations : Nat) :
    Option (Option StagedHoudiniPlan) :=
  match constructStagesDAG analyser.candidateDependences with
  | none => none
  | some dag =>
    if noStages analyser.candidates dag then some none
    else
      match strategy with
      | StagedHoudini.coarse =>
        (computeCoarseStages dag iterations).map some
      | StagedHoudini.fine => (computeFineStages dag).map some
      | StagedHoudini.balanced =>
        (computeBalancedStages dag iterations).map some

end Houdini

end Boogie
