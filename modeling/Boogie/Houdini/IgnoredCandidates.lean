import Boogie.Core.GenKillWeight
import Boogie.Foundation.Dictionary
import Boogie.Foundation.Text
import Boogie.Foundation.Traversal
import Boogie.Houdini.Candidates
import Boogie.Houdini.StagePlanning

/-!
# Merging ignored candidates

Candidates that mention ignored variables only, and the same ones, are meant to
be solved together.  The sets of ignored variables are objects, and two of them
are equal when they are the same object.
-/

namespace Boogie

namespace Houdini

open VariableCollector (usedVars allUsedVars)

/-!
# The list of ignored variables
-/

inductive VariableDescriptor where
  | localDescriptor (proc name : String)
  | globalDescriptor (name : String)
deriving DecidableEq, Repr

def ignoredVariable (line : String) : Option VariableDescriptor :=
  match Text.splitAt ' ' line with
  | [name] => some (.globalDescriptor name)
  | [proc, name] => some (.localDescriptor proc name)
  | _ => none

def makeIgnoreList (lines : List String) : List VariableDescriptor :=
  lines.filterMap ignoredVariable

def ignoring (ignoredVariables : List VariableDescriptor) (v : Variable)
    (proc : String) : Bool :=
  .localDescriptor proc v.name ∈ ignoredVariables ||
    .globalDescriptor v.name ∈ ignoredVariables

def variableRelevantToAnalysis (ignoredVariables : List VariableDescriptor)
    (v : Variable) (proc : String) : Bool :=
  !(v.isConstant || ignoring ignoredVariables v proc)

/-!
# The instances of the candidates
-/

structure CandidateInstance where
  candidate : String
  proc : String
  expr : Expr

def candidateInstance (candidates : List String) (proc : String) (e : Expr) :
    Option CandidateInstance :=
  (matchCandidate candidates e).map (fun c => ⟨c, proc, e⟩)

def implementationInstances (candidates : List String)
    (impl : Implementation) : List CandidateInstance :=
  ((impl.blocks.flatMap Block.cmds).filterMap Cmd.predicate).filterMap
    (candidateInstance candidates impl.name)

def procedureInstances (candidates : List String) (proc : Procedure) :
    List CandidateInstance :=
  (proc.requires.map Requires.condition).filterMap
      (candidateInstance candidates proc.name) ++
    (proc.ensures.map Ensures.condition).filterMap
      (candidateInstance candidates proc.name)

def candidateInstances (prog : Program) (candidates : List String) :
    List CandidateInstance :=
  prog.implementations.flatMap (implementationInstances candidates) ++
    prog.procedures.flatMap (procedureInstances candidates)

/-!
# The dependences of the candidates

`nodes` and `dependsOn` are what the analysis of the variables has found.  A
variable without a descriptor is an exception, `none`.
-/

def makeDescriptor (nodes : List VariableDescriptor) (proc : String)
    (v : Variable) : Option VariableDescriptor :=
  match nodes.find? (fun n => n = .localDescriptor proc v.name) with
  | some n => some n
  | none => nodes.find? (fun n => n = .globalDescriptor v.name)

structure CandidateVariableDependences where
  candidateDependsOn : String -> List VariableDescriptor
  variableDirectlyReferredToByCandidates : VariableDescriptor -> List String

def CandidateVariableDependences.empty : CandidateVariableDependences where
  candidateDependsOn := fun _ => []
  variableDirectlyReferredToByCandidates := fun _ => []

def addVariable (nodes : List VariableDescriptor)
    (dependsOn : VariableDescriptor -> List VariableDescriptor)
    (ci : CandidateInstance) (deps : CandidateVariableDependences)
    (v : Variable) : Option CandidateVariableDependences :=
  (makeDescriptor nodes ci.proc v).map (fun vd =>
    { candidateDependsOn :=
        Function.update deps.candidateDependsOn ci.candidate
          ((dependsOn vd).foldl hashSetAdd
            (deps.candidateDependsOn ci.candidate))
      variableDirectlyReferredToByCandidates :=
        Function.update deps.variableDirectlyReferredToByCandidates vd
          (hashSetAdd (deps.variableDirectlyReferredToByCandidates vd)
            ci.candidate) })

def addInstance (ignoredVariables nodes : List VariableDescriptor)
    (dependsOn : VariableDescriptor -> List VariableDescriptor)
    (deps : CandidateVariableDependences) (ci : CandidateInstance) :
    Option CandidateVariableDependences :=
  (((usedVars ci.expr).foldl hashSetAdd []).filter (fun v =>
      variableRelevantToAnalysis ignoredVariables v ci.proc)).foldlM
    (addVariable nodes dependsOn ci) deps

def determineCandidateVariableDependences (prog : Program)
    (ignoredVariables nodes : List VariableDescriptor)
    (dependsOn : VariableDescriptor -> List VariableDescriptor)
    (candidates : List String) : Option CandidateVariableDependences :=
  (candidateInstances prog candidates).foldlM
    (addInstance ignoredVariables nodes dependsOn)
    CandidateVariableDependences.empty

/-!
# The merge
-/

structure VariableSet where
  object : Nat
  elements : List Variable

/-- `HashSet` has the `Equals` of every object. -/
def VariableSet.equals (s t : VariableSet) : Bool :=
  s.object = t.object

abbrev IgnoredCandidatesToVariables := Dictionary String VariableSet

def newSets (candidates : List String) : IgnoredCandidatesToVariables :=
  candidates.zipIdx.foldl (fun sets c => sets.set c.1 ⟨c.2, []⟩)
    Dictionary.empty

def collectIgnored (ignoredVariables : List VariableDescriptor)
    (sets : IgnoredCandidatesToVariables) (ci : CandidateInstance) :
    IgnoredCandidatesToVariables :=
  match sets.tryGetValue ci.candidate with
  | none => sets
  | some s =>
    let used := (usedVars ci.expr).foldl hashSetAdd []
    if (used.map (fun v =>
        variableRelevantToAnalysis ignoredVariables v ci.proc)).length ≠ 0 then
      sets
    else
      sets.set ci.candidate
        ⟨s.object,
          (used.filter (fun v => ignoring ignoredVariables v ci.proc)).foldl
            hashSetAdd s.elements⟩

def mergePair (sets : IgnoredCandidatesToVariables) (c : String)
    (g : Graph String) (d : String) : Graph String :=
  if c = d then g
  else
    match sets.tryGetValue c, sets.tryGetValue d with
    | some s, some t => if s.equals t then g.addEdge c d else g
    | _, _ => g

def mergePairs (sets : IgnoredCandidatesToVariables) (g : Graph String) :
    Graph String :=
  sets.keys.foldl (fun g c => sets.keys.foldl (mergePair sets c) g) g

def mergeIgnoredCandidates (prog : Program)
    (ignoredVariables : List VariableDescriptor) (candidates : List String)
    (candidateDependences : Graph String) : Graph String :=
  mergePairs
    ((candidateInstances prog candidates).foldl
      (collectIgnored ignoredVariables) (newSets candidates))
    candidateDependences

/-!
# Nothing is collected
-/

section Collecting

variable {candidates : List String} {c : String} {e : Expr}

theorem usedVars_ne_nil (h : matchCandidate candidates e = some c) :
    usedVars e ≠ [] := by
  fun_induction matchCandidate candidates e with
  | case1 x consequent => simp [usedVars, allUsedVars]
  | case2 x consequent => simp [usedVars, allUsedVars]
  | case3 antecedent consequent hident ih =>
    intro hnil
    rw [usedVars, allUsedVars, allUsedVars] at hnil
    exact ih h (List.append_eq_nil_iff.mp
      (List.append_eq_nil_iff.mp hnil).2).1
  | case4 => cases h

theorem matchCandidate_of_mem_candidateInstances {prog : Program}
    {ci : CandidateInstance} (h : ci ∈ candidateInstances prog candidates) :
    matchCandidate candidates ci.expr = some ci.candidate := by
  have hmatch : forall {proc : String} {exprs : List Expr},
      ci ∈ exprs.filterMap (candidateInstance candidates proc) ->
      matchCandidate candidates ci.expr = some ci.candidate := by
    intro proc exprs hmem
    rcases List.mem_filterMap.mp hmem with ⟨e, _, he⟩
    rcases Option.map_eq_some_iff.mp he with ⟨c, hc, rfl⟩
    exact hc
  rcases List.mem_append.mp h with h | h
  · rcases List.mem_flatMap.mp h with ⟨impl, _, h⟩
    exact hmatch h
  · rcases List.mem_flatMap.mp h with ⟨proc, _, h⟩
    rcases List.mem_append.mp h with h | h
    · exact hmatch h
    · exact hmatch h

theorem collectIgnored_of_used {ignoredVariables : List VariableDescriptor}
    {sets : IgnoredCandidatesToVariables} {ci : CandidateInstance} (h : usedVars ci.expr ≠ []) :
    collectIgnored ignoredVariables sets ci = sets := by
  unfold collectIgnored
  split
  · rfl
  · dsimp only
    rw [if_pos]
    rw [List.length_map]
    intro hlength
    rcases List.exists_mem_of_ne_nil _ h with ⟨v, hv⟩
    have hmem := (mem_foldl_hashSetAdd (usedVars ci.expr) []).mpr (Or.inr hv)
    rw [List.length_eq_zero_iff.mp hlength] at hmem
    exact List.not_mem_nil hmem

theorem foldl_collectIgnored {ignoredVariables : List VariableDescriptor}
    {sets : IgnoredCandidatesToVariables} {instances : List CandidateInstance}
    (h : forall ci, ci ∈ instances -> usedVars ci.expr ≠ []) :
    instances.foldl (collectIgnored ignoredVariables) sets = sets := by
  induction instances with
  | nil => rfl
  | cons ci instances ih =>
    rw [List.foldl_cons,
      collectIgnored_of_used (h ci List.mem_cons_self)]
    exact ih (fun ci' hci => h ci' (List.mem_cons_of_mem ci hci))

end Collecting

/-!
# Nothing is merged
-/

section Merging

variable {candidates : List String} {sets : IgnoredCandidatesToVariables}
  {g : Graph String}

theorem newSets_object {c : String} {s : VariableSet}
    (h : (newSets candidates).tryGetValue c = some s) :
    candidates[s.object]? = some c := by
  unfold newSets at h
  rw [Dictionary.tryGetValue_foldl_set, Dictionary.tryGetValue_empty,
    Option.or_none] at h
  rcases Option.map_eq_some_iff.mp h with ⟨x, hx, rfl⟩
  have hname : x.1 = c := by simpa using List.find?_some hx
  have hmem := List.mem_reverse.mp (List.mem_of_find?_eq_some hx)
  rw [← hname]
  exact List.mem_zipIdx_iff_getElem?.mp hmem

theorem mergePair_eq (h : forall c d s t, sets.tryGetValue c = some s ->
      sets.tryGetValue d = some t -> s.object = t.object -> c = d)
    (c d : String) : mergePair sets c g d = g := by
  unfold mergePair
  by_cases hcd : c = d
  · rw [if_pos hcd]
  · rw [if_neg hcd]
    split
    · rename_i s t hs ht
      rw [if_neg]
      intro hequals
      exact hcd (h c d s t hs ht (of_decide_eq_true hequals))
    · rfl

theorem mergePairs_eq (h : forall c d s t, sets.tryGetValue c = some s ->
      sets.tryGetValue d = some t -> s.object = t.object -> c = d) :
    mergePairs sets g = g := by
  unfold mergePairs
  apply List.foldlRecOn (motive := fun g' => g' = g) _ _ rfl
  rintro _ rfl c _
  apply List.foldlRecOn (motive := fun g' => g' = _) _ _ rfl
  rintro _ rfl d _
  exact mergePair_eq h c d

end Merging

theorem mergeIgnoredCandidates_eq (prog : Program)
    (ignoredVariables : List VariableDescriptor) (candidates : List String) (g : Graph String) :
    mergeIgnoredCandidates prog ignoredVariables candidates g = g := by
  unfold mergeIgnoredCandidates
  rw [foldl_collectIgnored (fun ci hci =>
    usedVars_ne_nil (matchCandidate_of_mem_candidateInstances hci))]
  apply mergePairs_eq
  intro c d s t hs ht hobject
  have hc := newSets_object hs
  rw [hobject, newSets_object ht] at hc
  exact (Option.some.inj hc).symm

/-!
# What the merge is for
-/

/-- All instances mention variables only that do not matter to the analysis. -/
def OnlyIgnored (prog : Program) (ignoredVariables : List VariableDescriptor)
    (candidates : List String) (c : String) : Prop :=
  forall ci, ci ∈ candidateInstances prog candidates -> ci.candidate = c ->
    forall v, v ∈ usedVars ci.expr ->
      variableRelevantToAnalysis ignoredVariables v ci.proc = false

def MentionsIgnored (prog : Program)
    (ignoredVariables : List VariableDescriptor) (candidates : List String)
    (c : String) (v : Variable) : Prop :=
  exists ci, ci ∈ candidateInstances prog candidates ∧ ci.candidate = c ∧
    v ∈ usedVars ci.expr ∧ ignoring ignoredVariables v ci.proc = true

structure Mergeable (prog : Program)
    (ignoredVariables : List VariableDescriptor) (candidates : List String)
    (c d : String) : Prop where
  left : c ∈ candidates
  right : d ∈ candidates
  distinct : c ≠ d
  leftOnly : OnlyIgnored prog ignoredVariables candidates c
  rightOnly : OnlyIgnored prog ignoredVariables candidates d
  nonempty : exists v, MentionsIgnored prog ignoredVariables candidates c v
  same : forall v, MentionsIgnored prog ignoredVariables candidates c v <->
    MentionsIgnored prog ignoredVariables candidates d v

/-- From the graph `g` the merge makes the graph `g'`. -/
structure MergesIgnored (prog : Program)
    (ignoredVariables : List VariableDescriptor) (candidates : List String)
    (g g' : Graph String) : Prop where
  component : forall c d, Mergeable prog ignoredVariables candidates c d ->
    Mutually g' c d
  noOther : forall c d, g'.Edge c d -> ¬ g.Edge c d ->
    Mergeable prog ignoredVariables candidates c d

/-!
# Candidates to merge do not depend on each other
-/

section Dependences

variable {candidates : List String} {c d : String}
  {ignoredVariables nodes : List VariableDescriptor}
  {dependsOn : VariableDescriptor -> List VariableDescriptor}

theorem addInstance_keeps {deps deps' : CandidateVariableDependences}
    {ci : CandidateInstance} (hci : ci.candidate = c -> forall v, v ∈ usedVars ci.expr ->
      variableRelevantToAnalysis ignoredVariables v ci.proc = false)
    (hadd : addInstance ignoredVariables nodes dependsOn deps ci = some deps')
    (hnil : deps.candidateDependsOn c = []) :
    deps'.candidateDependsOn c = [] := by
  unfold addInstance at hadd
  apply Traversal.foldlM_keeps
    (P := fun deps => deps.candidateDependsOn c = []) _ hnil hadd
  intro deps v deps' hv hnil hstep
  rcases List.mem_filter.mp hv with ⟨hv, hrelevant⟩
  have hused : v ∈ usedVars ci.expr := by
    rcases (mem_foldl_hashSetAdd _ _).mp hv with hv | hv
    · cases hv
    · exact hv
  rcases Option.map_eq_some_iff.mp hstep with ⟨vd, _, rfl⟩
  dsimp only
  rw [Function.update_of_ne]
  · exact hnil
  · intro hc
    rw [hci hc.symm v hused] at hrelevant
    cases hrelevant

theorem candidateDependsOn_eq_nil {prog : Program}
    {deps : CandidateVariableDependences}
    (h : determineCandidateVariableDependences prog ignoredVariables nodes
      dependsOn candidates = some deps) (hc : OnlyIgnored prog ignoredVariables candidates c) :
    deps.candidateDependsOn c = [] := by
  unfold determineCandidateVariableDependences at h
  apply Traversal.foldlM_keeps
    (P := fun deps => deps.candidateDependsOn c = []) _ rfl h
  intro deps ci deps' hci hnil hstep
  exact addInstance_keeps (hc ci hci) hstep hnil

theorem eq_of_edge {candidateDependsOn : String -> List VariableDescriptor}
    {referred : VariableDescriptor -> List String}
    {mayReach : String -> String -> Bool} (hc : candidateDependsOn c = [])
    (hedge : (constructCandidateDependenceGraph candidates candidateDependsOn
      referred mayReach).Edge c d) : d = c := by
  revert d
  unfold constructCandidateDependenceGraph
  apply List.foldlRecOn
    (motive := fun g : Graph String => forall {d}, g.Edge c d -> d = c)
  · intro d hedge
    exact absurd hedge Graph.not_edge_empty
  · intro g hg b _ e hedge
    by_cases hb : b = c
    · rw [hb, hc] at hedge
      rcases Graph.edge_addEdge.mp hedge with hedge | ⟨_, he⟩
      · exact hg hedge
      · exact he
    · have hother : forall (g : Graph String) (e : String),
          (forall d, g.Edge c d -> d = c) ->
          forall d, (g.addEdge b e).Edge c d -> d = c := by
        intro g e hg d hedge
        rcases Graph.edge_addEdge.mp hedge with hedge | ⟨hcb, _⟩
        · exact hg d hedge
        · exact absurd hcb.symm hb
      revert e
      apply addDependencesOf_keeps
        (P := fun g : Graph String => forall d, g.Edge c d -> d = c)
      · exact hother g b (fun d => hg)
      · exact fun g _ e _ hg => hother g e hg

theorem not_mergeable_of_merges {prog : Program}
    {deps : CandidateVariableDependences} {mayReach : String -> String -> Bool}
    {g : Graph String} (hdeps : determineCandidateVariableDependences prog ignoredVariables nodes
      dependsOn candidates = some deps) (hg : g = constructCandidateDependenceGraph candidates
      deps.candidateDependsOn deps.variableDirectlyReferredToByCandidates mayReach)
    (h : MergesIgnored prog ignoredVariables candidates g
      (mergeIgnoredCandidates prog ignoredVariables candidates g)) :
    ¬ Mergeable prog ignoredVariables candidates c d := by
  intro hmergeable
  rw [mergeIgnoredCandidates_eq] at h
  have hreach := (h.component c d hmergeable).1
  have hnil := candidateDependsOn_eq_nil hdeps hmergeable.leftOnly
  have hself : forall e,
      StronglyConnectedComponents.Reach g.ns g.successors c e -> e = c := by
    intro e he
    induction he with
    | refl => rfl
    | tail _ hstep ih =>
      rw [ih, Condensation.step_iff, hg] at hstep
      exact eq_of_edge hnil hstep
  exact hmergeable.distinct (hself d hreach).symm

end Dependences

/--
The merge does what it is for if and only if there are no candidates to merge.
-/
theorem mergeIgnoredCandidates_merges_iff (prog : Program)
    (ignoredVariables nodes : List VariableDescriptor)
    (dependsOn : VariableDescriptor -> List VariableDescriptor)
    (candidates : List String) (deps : CandidateVariableDependences)
    (mayReach : String -> String -> Bool) (g : Graph String)
    (hdeps : determineCandidateVariableDependences prog ignoredVariables nodes
      dependsOn candidates = some deps) (hg : g = constructCandidateDependenceGraph candidates
      deps.candidateDependsOn deps.variableDirectlyReferredToByCandidates mayReach) :
    MergesIgnored prog ignoredVariables candidates g
        (mergeIgnoredCandidates prog ignoredVariables candidates g) <->
      forall c d, ¬ Mergeable prog ignoredVariables candidates c d := by
  constructor
  · exact fun h c d => not_mergeable_of_merges hdeps hg h
  · intro h
    rw [mergeIgnoredCandidates_eq]
    constructor
    · exact fun c d hmergeable => absurd hmergeable (h c d)
    · exact fun c d hedge hno => absurd hedge hno

/-!
# Two candidates about one ignored variable
-/

/-- Two preconditions about `x`, guarded by different candidates. -/
def twoIgnoredCandidates : Program where
  constants := [
    ⟨⟨"b1", .bool⟩, [⟨"existential", [.expr (.literal (.bool true))]⟩]⟩,
    ⟨⟨"b2", .bool⟩, [⟨"existential", [.expr (.literal (.bool true))]⟩]⟩]
  axioms := []
  procedures := [
    { name := "p"
      requires := [
        ⟨false, Expr.imp (.ident (.constant ⟨"b1", .bool⟩))
          (.ident (.globalVariable ⟨"x", .bool⟩))⟩,
        ⟨false, Expr.imp (.ident (.constant ⟨"b2", .bool⟩))
          (.ident (.globalVariable ⟨"x", .bool⟩))⟩]
      ensures := [] }]
  implementations := []

def selfDependences : Graph String :=
  constructCandidateDependenceGraph ["b1", "b2"]
    (fun _ => ([] : List VariableDescriptor)) (fun _ => []) (fun _ _ => true)

theorem determine_two :
    determineCandidateVariableDependences twoIgnoredCandidates
        (makeIgnoreList ["x"]) [] (fun vd => [vd]) ["b1", "b2"] =
      some CandidateVariableDependences.empty :=
  rfl

theorem mergeIgnoredCandidates_merges_iff_two :
    MergesIgnored twoIgnoredCandidates (makeIgnoreList ["x"]) ["b1", "b2"] selfDependences
        (mergeIgnoredCandidates twoIgnoredCandidates (makeIgnoreList ["x"])
          ["b1", "b2"] selfDependences) <->
      forall c d, ¬ Mergeable twoIgnoredCandidates (makeIgnoreList ["x"]) ["b1", "b2"] c d :=
  mergeIgnoredCandidates_merges_iff twoIgnoredCandidates (makeIgnoreList ["x"])
    [] (fun vd => [vd]) ["b1", "b2"] CandidateVariableDependences.empty
    (fun _ _ => true) selfDependences determine_two rfl

def instanceOf (name : String) : CandidateInstance where
  candidate := name
  proc := "p"
  expr := Expr.imp (.ident (.constant ⟨name, .bool⟩))
    (.ident (.globalVariable ⟨"x", .bool⟩))

theorem candidateInstances_two :
    candidateInstances twoIgnoredCandidates ["b1", "b2"] = [instanceOf "b1", instanceOf "b2"] :=
  rfl

theorem mentionsIgnored_two {c : String} {v : Variable} (hc : c ∈ ["b1", "b2"]) :
    MentionsIgnored twoIgnoredCandidates (makeIgnoreList ["x"]) ["b1", "b2"]
      c v <-> v = .globalVariable ⟨"x", .bool⟩ := by
  have hinstances : [instanceOf "b1", instanceOf "b2"] =
      ["b1", "b2"].map instanceOf := rfl
  unfold MentionsIgnored
  rw [candidateInstances_two, hinstances]
  constructor
  · rintro ⟨ci, hci, _, hv, hignoring⟩
    rcases List.mem_map.mp hci with ⟨name, hname, rfl⟩
    have hused : v = .constant ⟨name, .bool⟩ ∨
        v = .globalVariable ⟨"x", .bool⟩ := by
      simpa [instanceOf, Expr.imp, Expr.binary, usedVars, allUsedVars] using hv
    rcases hused with rfl | hx
    · have hnot : forall name, name ∈ ["b1", "b2"] ->
          ignoring (makeIgnoreList ["x"]) (.constant ⟨name, .bool⟩) "p" =
            false := by decide
      exact absurd hignoring (by rw [instanceOf, hnot name hname]; simp)
    · exact hx
  · rintro rfl
    have hx : ignoring (makeIgnoreList ["x"])
        (.globalVariable ⟨"x", .bool⟩) "p" = true := by decide
    have hused : .globalVariable ⟨"x", .bool⟩ ∈ usedVars (instanceOf c).expr := by
      simp [instanceOf, Expr.imp, Expr.binary, usedVars, allUsedVars]
    exact ⟨instanceOf c, List.mem_map_of_mem hc, rfl, hused, hx⟩

theorem mergeable_two : Mergeable twoIgnoredCandidates (makeIgnoreList ["x"])
    ["b1", "b2"] "b1" "b2" := by
  constructor
  · decide
  · decide
  · decide
  · unfold OnlyIgnored
    rw [candidateInstances_two]
    decide
  · unfold OnlyIgnored
    rw [candidateInstances_two]
    decide
  · exact ⟨_, (mentionsIgnored_two (by decide)).mpr rfl⟩
  · intro v
    rw [mentionsIgnored_two (by decide), mentionsIgnored_two (by decide)]

theorem not_mergesIgnored_two :
    ¬ MergesIgnored twoIgnoredCandidates (makeIgnoreList ["x"]) ["b1", "b2"] selfDependences
      (mergeIgnoredCandidates twoIgnoredCandidates (makeIgnoreList ["x"])
        ["b1", "b2"] selfDependences) :=
  fun h => not_mergeable_of_merges determine_two rfl h mergeable_two

end Houdini

end Boogie
