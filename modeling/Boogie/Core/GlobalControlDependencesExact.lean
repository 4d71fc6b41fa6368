import Boogie.Core.GlobalControlDependences
import Boogie.Graph.Condensation

/-!
# The exact global control dependences

The relation that is closed joins local control dependence with the blocks behind
the calls of controlled blocks.  The computation finds these blocks through the
first implementation of the procedure called and the call graph of the verified
implementations.
-/

namespace Boogie

namespace VariableDependenceAnalyser

open Boogie.Graph (dependencesOf Related)
open Implementation (IsPruned IsBlockGraph WellFormed)
open InterproceduralReachability (Resolved)

/-!
# Joined dependences
-/

def ControlDependentIn (dummy : Nat) (g : Graph Nat) (x y : Nat) : Prop :=
  exists bound, forall fuel, bound ≤ fuel -> exists deps,
    g.controlDependence fuel dummy = some deps ∧ y ∈ dependencesOf deps x

/-- What `ProcessLoops` leaves of each implementation, with the block graph. -/
def IsProcessed (prune : Bool) (prog : Program)
    (processed : List (Implementation × Graph Nat)) : Prop :=
  List.Forall₂
    (fun impl a => exists bound, forall fuel, bound ≤ fuel ->
      impl.processLoops fuel prune = some a)
    prog.implementations processed

def withProcessed (prog : Program) (processed : List (Implementation × Graph Nat)) :
    Program :=
  { prog with implementations := processed.map Prod.fst }

section Joined

variable (dummy : Nat) (prog : Program)
  (processed : List (Implementation × Graph Nat))

def LocalDep (x y : Nat) : Prop :=
  exists a, a ∈ processed ∧ ControlDependentIn dummy a.2 x y

def Calls (impl callee : Implementation) : Prop :=
  impl ∈ prog.implementations ∧ callee ∈ prog.implementations ∧
    callee.name ∈ impl.callees

/-- `y` is a block of an implementation that is reached by calls from a block
controlled by `x`. -/
def CallDep (x y : Nat) : Prop :=
  exists a, a ∈ processed ∧ exists b, b ∈ a.1.blocks ∧
    ControlDependentIn dummy a.2 x b.uniqueId ∧
    exists impl, impl ∈ (withProcessed prog processed).implementations ∧
      impl.name ∈ callees b ∧
      exists c, Relation.ReflTransGen (Calls (withProcessed prog processed)) impl c ∧
        y ∈ c.blockIds

def Joined (x y : Nat) : Prop :=
  LocalDep dummy processed x y ∨ CallDep dummy prog processed x y

def FoundDep (x y : Nat) : Prop :=
  exists a, a ∈ processed ∧ exists b, b ∈ a.1.blocks ∧
    ControlDependentIn dummy a.2 x b.uniqueId ∧
    exists callee, callee ∈ callees b ∧
      Callable (withProcessed prog processed) callee y

def Found (x y : Nat) : Prop :=
  LocalDep dummy processed x y ∨ FoundDep dummy prog processed x y

def FirstVerified : Prop :=
  forall impl, impl ∈ (withProcessed prog processed).implementations ->
    forall callee, callee ∈ impl.callees -> forall first,
      getImplementation (withProcessed prog processed) callee = some first ->
        first.skipVerification = false

/-- What lies behind other implementations of a callee is found in another way. -/
def Covered : Prop :=
  forall x y, CallDep dummy prog processed x y ->
    Relation.TransGen (Found dummy prog processed) x y

end Joined

/-!
# Local dependences
-/

theorem exists_mem_of_forall₂ {A B : Type} {R : A -> B -> Prop} {as : List A}
    {bs : List B} (h : List.Forall₂ R as bs) {b : B} (hb : b ∈ bs) :
    exists a, a ∈ as ∧ R a b := by
  induction h with
  | nil => cases hb
  | cons hab hrest ih =>
    rcases List.mem_cons.mp hb with heq | hb
    · exact ⟨_, List.mem_cons_self, heq ▸ hab⟩
    · rcases ih hb with ⟨a, ha, hr⟩
      exact ⟨a, List.mem_cons_of_mem _ ha, hr⟩

theorem pairwise_of_forall₂ {A B : Type} {R : A -> B -> Prop} {as : List A}
    {bs : List B} {P : A -> A -> Prop} {Q : B -> B -> Prop}
    (h : List.Forall₂ R as bs) (hP : as.Pairwise P)
    (hPQ : forall a a' b b', R a b -> R a' b' -> P a a' -> Q b b') :
    bs.Pairwise Q := by
  induction h with
  | nil => exact List.Pairwise.nil
  | cons hab hrest ih =>
    rw [List.pairwise_cons] at hP ⊢
    constructor
    · intro b' hb'
      rcases exists_mem_of_forall₂ hrest hb' with ⟨a', ha', hr⟩
      exact hPQ _ a' _ b' hab hr (hP.1 a' ha')
    · exact ih hP.2

structure IsLocal (dummy : Nat) (g : Graph Nat) (deps : Dictionary Nat (List Nat)) :
    Prop where
  keys : forall x, x ∈ deps.keys -> x ∈ g.ns
  related : forall x y, Related deps x y <-> ControlDependentIn dummy g x y
  targets : forall x y, Related deps x y -> y ∈ g.ns ∨ y = dummy

theorem exists_isLocal (dummy : Nat) (g : Graph Nat) :
    exists bound, forall fuel, bound ≤ fuel -> exists deps,
      g.controlDependence fuel dummy = some deps ∧ IsLocal dummy g deps := by
  rcases Graph.controlDependence_spec g dummy with
    ⟨bound, d, s, h, _, hrun⟩
  exists bound
  intro fuel hfuel
  rcases hrun fuel hfuel with ⟨_, deps, hdeps, hkeys, hmem⟩
  exists deps
  constructor
  · exact hdeps
  · constructor
    · exact hkeys
    · intro x y
      constructor
      · intro hxy
        exists bound
        intro fuel' hfuel'
        rcases hrun fuel' hfuel' with ⟨_, deps', hdeps', _, hmem'⟩
        exact ⟨deps', hdeps', (hmem' x y).mpr ((hmem x y).mp hxy)⟩
      · intro ⟨bound', hbound'⟩
        rcases hbound' (bound' + bound) (Nat.le_add_right _ _) with
          ⟨deps', hdeps', hxy⟩
        rcases hrun (bound' + bound) (Nat.le_add_left _ _) with
          ⟨_, deps'', hdeps'', _, hmem''⟩
        rw [hdeps'] at hdeps''
        cases hdeps''
        exact (hmem x y).mpr ((hmem'' x y).mp hxy)
    · intro x y hxy
      rcases (hmem x y).mp hxy with ⟨S, hedge, _, hy, _⟩
      have hS := h.all S (g.endpoints _ hedge).2
      rcases h.nodes y (hy.mem h.mem (h.reaches S hS)) with hy | heq
      · exact Or.inl hy
      · rcases h.exit with hs | hs
        · exact Or.inr (heq.trans hs)
        · exact Or.inl (heq ▸ hs.1)

section Processed

variable {prune : Bool} {dummy : Nat} {prog : Program}
  {processed : List (Implementation × Graph Nat)}

theorem wellFormed_of_resolved (h : Resolved prog) {impl : Implementation}
    (himpl : impl ∈ prog.implementations) : impl.WellFormed where
  nodup := (List.nodup_flatMap.mp h.blockIds).1 impl himpl
  nonempty := h.nonempty impl himpl
  targets := h.targets impl himpl

theorem subset_blockIds {impl impl' : Implementation}
    (h : IsPruned prune impl impl') {x : Nat} (hx : x ∈ impl'.blockIds) :
    x ∈ impl.blockIds := by
  rcases List.mem_map.mp hx with ⟨b', hb', heq⟩
  rcases h.blocks b' hb' with ⟨b, hb, hsame⟩
  rw [← heq, hsame, Implementation.uniqueId_pruned]
  exact List.mem_map_of_mem hb

theorem exists_impl (hprog : Resolved prog) (h : IsProcessed prune prog processed)
    {a : Implementation × Graph Nat} (ha : a ∈ processed) :
    exists impl, impl ∈ prog.implementations ∧ IsPruned prune impl a.1 ∧
      exists start, IsBlockGraph a.1 a.2 start := by
  rcases exists_mem_of_forall₂ h ha with ⟨impl, himpl, hrun⟩
  exact ⟨impl, himpl,
    Implementation.exists_pruned_of_processLoops (wellFormed_of_resolved hprog himpl) hrun⟩

theorem pruned_forall₂ (hprog : Resolved prog) (h : IsProcessed prune prog processed) :
    List.Forall₂ (fun impl a => IsPruned prune impl a.1) prog.implementations processed := by
  have hboth := (List.forall₂_and_left prog.implementations processed).mpr
    ⟨fun impl himpl => wellFormed_of_resolved hprog himpl, h⟩
  exact hboth.imp (fun impl a hab => (Implementation.exists_pruned_of_processLoops hab.1 hab.2).1)

theorem pairwise_disjoint (hprog : Resolved prog) (h : IsProcessed prune prog processed) :
    processed.Pairwise (fun a a' => List.Disjoint a.1.blockIds a'.1.blockIds) := by
  apply pairwise_of_forall₂ (pruned_forall₂ hprog h)
    (List.nodup_flatMap.mp hprog.blockIds).2
  intro impl impl' a a' ha ha' hdisjoint x hx hx'
  exact hdisjoint (subset_blockIds ha hx) (subset_blockIds ha' hx')

theorem eq_of_mem_blockIds (hprog : Resolved prog)
    (h : IsProcessed prune prog processed) {a a' : Implementation × Graph Nat}
    (ha : a ∈ processed) (ha' : a' ∈ processed) {x : Nat}
    (hx : x ∈ a.1.blockIds) (hx' : x ∈ a'.1.blockIds) : a = a' := by
  by_contra hne
  have hsymm : Std.Symm (fun a a' : Implementation × Graph Nat =>
      List.Disjoint a.1.blockIds a'.1.blockIds) :=
    ⟨fun _ _ hdisjoint => hdisjoint.symm⟩
  exact (pairwise_disjoint hprog h).forall ha ha' hne hx hx'

theorem exists_locals (dummy : Nat) (hprog : IsProcessed prune prog processed) :
    exists bound, forall fuel, bound ≤ fuel -> exists locals,
      prog.implementations.mapM (localCtrlDeps fuel prune dummy) = some locals ∧
      List.Forall₂ (fun a l => l.1 = a.1 ∧ IsLocal dummy a.2 l.2) processed locals := by
  unfold IsProcessed at hprog
  generalize prog.implementations = impls at hprog
  induction hprog with
  | nil => exact ⟨0, fun _ _ => ⟨[], rfl, List.Forall₂.nil⟩⟩
  | cons hab hrest ih =>
    rename_i impl a impls processed
    rcases hab with ⟨bound, hrun⟩
    rcases exists_isLocal dummy a.2 with ⟨bound', hlocal⟩
    rcases ih with ⟨bound'', hlocals⟩
    exists bound + bound' + bound''
    intro fuel hfuel
    have hfuels : bound ≤ fuel ∧ bound' ≤ fuel ∧ bound'' ≤ fuel := by omega
    rcases hlocal fuel hfuels.2.1 with ⟨deps, hdeps, hisLocal⟩
    rcases hlocals fuel hfuels.2.2 with ⟨locals, hmapM, hforall⟩
    exists (a.1, deps) :: locals
    constructor
    · have hone : localCtrlDeps fuel prune dummy impl = some (a.1, deps) := by
        rw [localCtrlDeps, hrun fuel hfuels.1]
        dsimp only
        rw [hdeps]
      rw [List.mapM_cons, hone, hmapM]
      rfl
    · exact List.Forall₂.cons ⟨rfl, hisLocal⟩ hforall

end Processed

/-!
# The union of the local dictionaries
-/

theorem foldlM_addEntry (entries : List (Nat × List Nat)) (d : Dictionary Nat (List Nat))
    (hnodup : ((d.entries ++ entries).map Prod.fst).Nodup) :
    exists d', entries.foldlM addEntry d = some d' ∧ d'.entries = d.entries ++ entries := by
  induction entries generalizing d with
  | nil => exact ⟨d, rfl, (List.append_nil _).symm⟩
  | cons entry entries ih =>
    have hnew : entry.1 ∉ d.keys := by
      rw [List.map_append, List.nodup_append] at hnodup
      intro hmem
      exact hnodup.2.2 entry.1 hmem entry.1 List.mem_cons_self rfl
    have hcontains : d.containsKey entry.1 ≠ true :=
      fun htrue => hnew (Dictionary.containsKey_iff.mp htrue)
    have hentries : (d.set entry.1 entry.2).entries = d.entries ++ [entry] := by
      rw [Dictionary.set, dif_neg hnew]
    rcases ih (d.set entry.1 entry.2) (by
        rw [hentries, List.append_assoc]
        exact hnodup) with ⟨d', hrun, hd'⟩
    exists d'
    constructor
    · rw [List.foldlM_cons, addEntry, if_neg hcontains]
      exact hrun
    · rw [hd', hentries, List.append_assoc]
      rfl

theorem related_iff {d : Dictionary Nat (List Nat)} {x y : Nat} :
    Related d x y <-> exists value, (x, value) ∈ d.entries ∧ y ∈ value := by
  unfold Related Graph.dependencesOf
  constructor
  · intro h
    cases hlookup : d.tryGetValue x with
    | none =>
      rw [hlookup] at h
      cases h
    | some value =>
      rw [hlookup] at h
      exact ⟨value, Dictionary.tryGetValue_eq_some.mp hlookup, h⟩
  · intro ⟨value, hmem, hy⟩
    rw [Dictionary.tryGetValue_eq_some.mpr hmem]
    exact hy

section Union

variable {prune : Bool} {dummy : Nat} {prog : Program}
  {processed : List (Implementation × Graph Nat)}
  {locals : List (Implementation × Dictionary Nat (List Nat))}

theorem keys_subset {a : Implementation × Graph Nat}
    {deps : Dictionary Nat (List Nat)} (hgraph : exists start,
      IsBlockGraph a.1 a.2 start) (h : IsLocal dummy a.2 deps) {x : Nat}
    (hx : x ∈ deps.keys) : x ∈ a.1.blockIds := by
  rcases hgraph with ⟨start, hgraph⟩
  exact (hgraph.nodes x).mp (h.keys x hx)

/-- What the first pass leaves: the local dictionaries side by side. -/
structure IsUnion (dummy : Nat) (processed : List (Implementation × Graph Nat))
    (globalCtrlDep : Dictionary Nat (List Nat)) : Prop where
  keys : forall x, x ∈ globalCtrlDep.keys ->
    x ∈ processed.flatMap (fun a => a.1.blockIds)
  related : forall x y, Related globalCtrlDep x y <-> LocalDep dummy processed x y

theorem exists_union (hprog : Resolved prog) (h : IsProcessed prune prog processed)
    (hlocals : List.Forall₂ (fun a l => l.1 = a.1 ∧ IsLocal dummy a.2 l.2) processed locals) :
    exists globalCtrlDep, (locals.flatMap (fun l => l.2.entries)).foldlM addEntry
        Dictionary.empty = some globalCtrlDep ∧ IsUnion dummy processed globalCtrlDep ∧
      forall l, l ∈ locals -> forall x, x ∈ l.2.keys -> x ∈ globalCtrlDep.keys := by
  have hgraphs : forall a, a ∈ processed ->
      exists start, IsBlockGraph a.1 a.2 start := by
    intro a ha
    rcases exists_impl hprog h ha with ⟨_, _, _, hgraph⟩
    exact hgraph
  have hstrong := (List.forall₂_and_left processed locals).mpr ⟨hgraphs, hlocals⟩
  have hpairwise : locals.Pairwise
      (fun l l' => List.Disjoint l.2.keys l'.2.keys) := by
    apply pairwise_of_forall₂ hstrong (pairwise_disjoint hprog h)
    intro a a' l l' ha ha' hdisjoint x hx hx'
    exact hdisjoint (keys_subset ha.1 ha.2.2 hx) (keys_subset ha'.1 ha'.2.2 hx')
  have hkeys : (locals.flatMap (fun l => l.2.entries)).map Prod.fst =
      locals.flatMap (fun l => l.2.keys) := by
    rw [List.map_flatMap]
    rfl
  have hnodup : (((Dictionary.empty : Dictionary Nat (List Nat)).entries ++
      locals.flatMap (fun l => l.2.entries)).map Prod.fst).Nodup := by
    change ((locals.flatMap (fun l => l.2.entries)).map Prod.fst).Nodup
    rw [hkeys, List.nodup_flatMap]
    exact ⟨fun l _ => l.2.keys_nodup, hpairwise⟩
  rcases foldlM_addEntry _ Dictionary.empty hnodup with
    ⟨globalCtrlDep, hrun, hentries⟩
  have hglobal : globalCtrlDep.keys = locals.flatMap (fun l => l.2.keys) := by
    rw [Dictionary.keys, hentries, ← hkeys]
    rfl
  exists globalCtrlDep
  constructor
  · exact hrun
  · constructor
    · constructor
      · intro x hx
        rw [hglobal] at hx
        rcases List.mem_flatMap.mp hx with ⟨l, hl, hx⟩
        rcases exists_mem_of_forall₂ hstrong hl with ⟨a, ha, hgraph, _, hlocal⟩
        exact List.mem_flatMap.mpr ⟨a, ha, keys_subset hgraph hlocal hx⟩
      · intro x y
        rw [related_iff, hentries]
        constructor
        · rintro ⟨value, hmem, hy⟩
          rcases List.mem_append.mp hmem with hmem | hmem
          · cases hmem
          · rcases List.mem_flatMap.mp hmem with ⟨l, hl, hmem⟩
            rcases exists_mem_of_forall₂ hlocals hl with ⟨a, ha, _, hlocal⟩
            exact ⟨a, ha, (hlocal.related x y).mp
              (related_iff.mpr ⟨value, hmem, hy⟩)⟩
        · rintro ⟨a, ha, hxy⟩
          rcases exists_mem_of_forall₂ hlocals.flip ha with ⟨l, hl, _, hlocal⟩
          rcases related_iff.mp ((hlocal.related x y).mpr hxy) with
            ⟨value, hmem, hy⟩
          exact ⟨value, List.mem_append_right _
            (List.mem_flatMap.mpr ⟨l, hl, hmem⟩), hy⟩
    · intro l hl x hx
      rw [hglobal]
      exact List.mem_flatMap.mpr ⟨l, hl, hx⟩

end Union

/-!
# Controlled calls
-/

section CallSites

variable {prune : Bool} {dummy fuel : Nat} {prog : Program}
  {processed : List (Implementation × Graph Nat)}
  {locals : List (Implementation × Dictionary Nat (List Nat))}
  {globalCtrlDep : Dictionary Nat (List Nat)}

theorem mem_callSites {call : CallSite} :
    call ∈ locals.flatMap (fun l => callSites l.1 l.2) <->
      exists l, l ∈ locals ∧ exists b, b ∈ l.1.blocks ∧ exists callee, callee ∈ callees b ∧
          call = ⟨l.2.keys, b.uniqueId, callee⟩ := by
  simp only [List.mem_flatMap, callSites, List.mem_map, eq_comm]

theorem mem_withProcessed {impl : Implementation} :
    impl ∈ (withProcessed prog processed).implementations <->
      exists a, a ∈ processed ∧ a.1 = impl :=
  List.mem_map

theorem mem_implementation_callees {impl : Implementation} {b : Block}
    {callee : String} (hb : b ∈ impl.blocks) (hcallee : callee ∈ callees b) :
    callee ∈ impl.callees :=
  List.mem_flatMap.mpr ⟨b, hb, hcallee⟩

theorem mem_of_edge {prog : Program} {impl c : Implementation}
    (hreach : Relation.ReflTransGen prog.buildCallGraph.Edge impl c)
    (himpl : impl ∈ prog.verified) : c ∈ prog.verified := by
  rcases Relation.ReflTransGen.cases_tail hreach with heq | ⟨c', _, hedge⟩
  · exact heq ▸ himpl
  · exact (Program.buildCallGraph_edge.mp hedge).2.1

theorem verified_of_first (hfirst : FirstVerified prog processed)
    {a : Implementation × Graph Nat} (ha : a ∈ processed) {b : Block}
    (hb : b ∈ a.1.blocks) {callee : String} (hcallee : callee ∈ callees b)
    {first : Implementation}
    (h : getImplementation (withProcessed prog processed) callee = some first) :
    first ∈ (withProcessed prog processed).verified := by
  apply List.mem_filter.mpr
  constructor
  · exact (getImplementation_some h).1
  · rw [hfirst a.1 (mem_withProcessed.mpr ⟨a, ha, rfl⟩) callee
      (mem_implementation_callees hb hcallee) first h]
    rfl

theorem exists_of_callable {callee : String} {y : Nat}
    (h : Callable (withProcessed prog processed) callee y) :
    exists a, a ∈ processed ∧ y ∈ a.1.blockIds := by
  rcases h with ⟨first, hfound, c, hreach, hy⟩
  have hc : c ∈ (withProcessed prog processed).implementations := by
    rcases Relation.ReflTransGen.cases_tail hreach with heq | ⟨c', _, hedge⟩
    · rw [heq]
      exact (getImplementation_some hfound).1
    · exact (List.mem_filter.mp (Program.buildCallGraph_edge.mp hedge).2.1).1
  rcases mem_withProcessed.mp hc with ⟨a, ha, heq⟩
  exact ⟨a, ha, heq ▸ hy⟩

theorem Callable.trans (hprog : Resolved prog) (h : IsProcessed prune prog processed)
    (hfirst : FirstVerified prog processed) {a a' : Implementation × Graph Nat}
    (ha : a ∈ processed) (ha' : a' ∈ processed) {b b' : Block}
    (hb : b ∈ a.1.blocks) (hb' : b' ∈ a'.1.blocks) {callee callee' : String}
    (hcallee : callee ∈ callees b) (hcallee' : callee' ∈ callees b') {y : Nat}
    (hblock : Callable (withProcessed prog processed) callee' b.uniqueId)
    (hy : Callable (withProcessed prog processed) callee y) :
    Callable (withProcessed prog processed) callee' y := by
  rcases hblock with ⟨first', hfound', c', hreach', hmem'⟩
  rcases hy with ⟨first, hfound, c, hreach, hmem⟩
  have hc' : c' ∈ (withProcessed prog processed).verified :=
    mem_of_edge hreach' (verified_of_first hfirst ha' hb' hcallee' hfound')
  have hsame : c' = a.1 := by
    rcases mem_withProcessed.mp (List.mem_filter.mp hc').1 with
      ⟨a'', ha'', heq⟩
    have hin : b.uniqueId ∈ a.1.blockIds := List.mem_map_of_mem hb
    rw [← heq] at hmem' ⊢
    rw [eq_of_mem_blockIds hprog h ha'' ha hmem' hin]
  have hedge : (withProcessed prog processed).buildCallGraph.Edge c' first := by
    apply Program.buildCallGraph_edge.mpr
    constructor
    · exact hc'
    · constructor
      · exact verified_of_first hfirst ha hb hcallee hfound
      · rw [(getImplementation_some hfound).2, hsame]
        exact mem_implementation_callees hb hcallee
  exact ⟨first', hfound', c, (hreach'.tail hedge).trans hreach, hmem⟩

theorem foldlM_addCall_found (hprog : Resolved prog) (h : IsProcessed prune prog processed)
    (hfirst : FirstVerified prog processed)
    (hlocals : List.Forall₂ (fun a l => l.1 = a.1 ∧ IsLocal dummy a.2 l.2) processed locals)
    (hunion : IsUnion dummy processed globalCtrlDep)
    (hkeys : forall l, l ∈ locals -> forall x, x ∈ l.2.keys -> x ∈ globalCtrlDep.keys)
    (hfuel : (withProcessed prog processed).buildCallGraph.ns.length < fuel) :
    exists next, (locals.flatMap (fun l => callSites l.1 l.2)).foldlM
        (addCall fuel (withProcessed prog processed)
          (withProcessed prog processed).buildCallGraph) globalCtrlDep = some next ∧
      next.keys = globalCtrlDep.keys ∧
      forall x y, Related next x y <-> Found dummy prog processed x y := by
  have hsite : forall call, call ∈ locals.flatMap (fun l => callSites l.1 l.2) ->
      exists a l b callee, a ∈ processed ∧ l ∈ locals ∧ b ∈ a.1.blocks ∧
        IsLocal dummy a.2 l.2 ∧ callee ∈ callees b ∧
        call = ⟨l.2.keys, b.uniqueId, callee⟩ := by
    intro call hcall
    rcases mem_callSites.mp hcall with ⟨l, hl, b, hb, callee, hcallee, heq⟩
    rcases exists_mem_of_forall₂ hlocals hl with ⟨a, ha, hsame, hlocal⟩
    exact ⟨a, l, b, callee, ha, hl, hsame ▸ hb, hlocal, hcallee, heq⟩
  have hcontrolled : forall {a l}, a ∈ processed -> l ∈ locals ->
      IsLocal dummy a.2 l.2 -> forall {x y}, x ∈ l.2.keys ->
        LocalDep dummy processed x y -> ControlDependentIn dummy a.2 x y := by
    intro a l ha hl hlocal x y hx ⟨a', ha', hxy⟩
    rcases exists_mem_of_forall₂ hlocals.flip ha' with ⟨l', hl', _, hlocal'⟩
    rcases exists_impl hprog h ha with ⟨_, _, _, hgraph⟩
    rcases exists_impl hprog h ha' with ⟨_, _, _, hgraph'⟩
    have hx' : x ∈ l'.2.keys := ((hlocal'.related x y).mpr hxy).mem_keys
    have hsame := eq_of_mem_blockIds hprog h ha' ha
      (keys_subset hgraph' hlocal' hx') (keys_subset hgraph hlocal hx)
    rw [← hsame]
    exact hxy
  have hallowed : forall call,
      call ∈ locals.flatMap (fun l => callSites l.1 l.2) -> forall x y,
      x ∈ call.keys -> Found dummy prog processed x call.block ->
      Callable (withProcessed prog processed) call.callee y ->
        Found dummy prog processed x y := by
    intro call hcall x y hx hblock hy
    rcases hsite call hcall with
      ⟨a, l, b, callee, ha, hl, hb, hlocal, hcallee, heq⟩
    subst heq
    right
    rcases hblock with hblock | ⟨a', ha', b', hb', hxb', callee', hcallee', hblock⟩
    · exact ⟨a, ha, b, hb, hcontrolled ha hl hlocal hx hblock, callee,
        hcallee, hy⟩
    · exact ⟨a', ha', b', hb', hxb', callee', hcallee',
        Callable.trans hprog h hfirst ha ha' hb hb' hcallee hcallee' hblock hy⟩
  have hverified : forall call,
      call ∈ locals.flatMap (fun l => callSites l.1 l.2) -> forall first,
      getImplementation (withProcessed prog processed) call.callee = some first ->
        first.skipVerification = false := by
    intro call hcall first hfound
    rcases hsite call hcall with ⟨a, l, b, callee, ha, _, hb, _, hcallee, heq⟩
    subst heq
    exact hfirst a.1 (mem_withProcessed.mpr ⟨a, ha, rfl⟩) callee
      (mem_implementation_callees hb hcallee) first hfound
  have hcallKeys : forall call,
      call ∈ locals.flatMap (fun l => callSites l.1 l.2) -> forall key,
      key ∈ call.keys -> key ∈ globalCtrlDep.keys := by
    intro call hcall key hkey
    rcases hsite call hcall with ⟨a, l, b, callee, _, hl, _, _, _, heq⟩
    subst heq
    exact hkeys l hl key hkey
  rcases foldlM_addCall _ globalCtrlDep hverified hfuel hcallKeys
    (fun x y hxy => Or.inl ((hunion.related x y).mp hxy)) hallowed
    with ⟨next, hrun, hsame, hgrows, hsound, hcalls⟩
  exists next
  constructor
  · exact hrun
  · constructor
    · exact hsame
    · intro x y
      constructor
      · exact hsound x y
      · intro hxy
        rcases hxy with hxy | ⟨a, ha, b, hb, hxb, callee, hcallee, hy⟩
        · exact hgrows x y ((hunion.related x y).mpr hxy)
        · rcases exists_mem_of_forall₂ hlocals.flip ha with
            ⟨l, hl, hsame', hlocal⟩
          apply hcalls ⟨l.2.keys, b.uniqueId, callee⟩
          · exact mem_callSites.mpr
              ⟨l, hl, b, hsame' ▸ hb, callee, hcallee, rfl⟩
          · exact ((hlocal.related x b.uniqueId).mpr hxb).mem_keys
          · exact (hunion.related x b.uniqueId).mpr ⟨a, ha, hxb⟩
          · exact hy

end CallSites

/-!
# The result
-/

section Result

variable {prune : Bool} {dummy : Nat} {prog : Program}
  {processed : List (Implementation × Graph Nat)}

theorem map_fst_locals {locals : List (Implementation × Dictionary Nat (List Nat))}
    (hlocals : List.Forall₂ (fun a l => l.1 = a.1 ∧ IsLocal dummy a.2 l.2) processed locals) :
    locals.map Prod.fst = processed.map Prod.fst := by
  induction hlocals with
  | nil => rfl
  | cons hab hrest ih => rw [List.map_cons, List.map_cons, hab.1, ih]

theorem found_targets (hprog : Resolved prog) (h : IsProcessed prune prog processed) {x y : Nat}
    (hxy : Found dummy prog processed x y) :
    y ∈ dummy :: processed.flatMap (fun a => a.1.blockIds) := by
  rcases hxy with ⟨a, ha, hxy⟩ | ⟨a, ha, b, hb, hxb, callee, hcallee, hy⟩
  · rcases exists_isLocal dummy a.2 with ⟨bound, hbound⟩
    rcases hbound bound (Nat.le_refl bound) with ⟨deps, _, hlocal⟩
    rcases exists_impl hprog h ha with ⟨_, _, _, start, hgraph⟩
    rcases hlocal.targets x y ((hlocal.related x y).mpr hxy) with hy | heq
    · exact List.mem_cons_of_mem _ (List.mem_flatMap.mpr
        ⟨a, ha, (hgraph.nodes y).mp hy⟩)
    · rw [heq]
      exact List.mem_cons_self
  · rcases exists_of_callable hy with ⟨a', ha', hy⟩
    exact List.mem_cons_of_mem _ (List.mem_flatMap.mpr ⟨a', ha', hy⟩)

theorem length_keys_le {d : Dictionary Nat (List Nat)} (hkeys : forall x, x ∈ d.keys ->
      x ∈ processed.flatMap (fun a => a.1.blockIds)) :
    d.keys.length ≤ (processed.flatMap (fun a => a.1.blockIds)).length :=
  (List.subperm_of_subset d.keys_nodup hkeys).length_le

def enoughFuel (prog : Program) (processed : List (Implementation × Graph Nat)) :
    Nat :=
  let blocks := (processed.flatMap (fun a => a.1.blockIds)).length
  (withProcessed prog processed).buildCallGraph.ns.length +
    blocks * (blocks + 1) + 1

theorem compute_found (hprog : Resolved prog) (h : IsProcessed prune prog processed)
    (hfirst : FirstVerified prog processed) :
    exists bound, forall fuel, bound ≤ fuel -> exists r,
      computeGlobalControlDependences fuel prune dummy prog = some r ∧
      forall x y, x ∈ dependencesOf r y <-> Relation.TransGen (Found dummy prog processed) x y := by
  rcases exists_locals dummy h with ⟨bound, hlocals⟩
  exists bound + enoughFuel prog processed
  intro fuel hfuel
  rcases hlocals fuel (Nat.le_trans (Nat.le_add_right _ _) hfuel) with
    ⟨locals, hmapM, hforall⟩
  have henough := Nat.le_trans (Nat.le_add_left (enoughFuel prog processed) bound)
    hfuel
  unfold enoughFuel at henough
  dsimp only at henough
  have himplementations := map_fst_locals hforall
  rcases exists_union hprog h hforall with ⟨globalCtrlDep, hrun, hunion, hkeys⟩
  have hns : (withProcessed prog processed).buildCallGraph.ns.length < fuel := by
    omega
  rcases foldlM_addCall_found hprog h hfirst hforall hunion hkeys hns with
    ⟨next, hcalls, hsame, hfound⟩
  have hrelated : Related next = Found dummy prog processed := by
    funext x y
    exact propext (hfound x y)
  have hless : next.keys.length *
      (dummy :: processed.flatMap (fun a => a.1.blockIds)).length < fuel := by
    have hle := length_keys_le hunion.keys
    rw [hsame, List.length_cons]
    have hmul := Nat.mul_le_mul_right
      ((processed.flatMap (fun a => a.1.blockIds)).length + 1) hle
    omega
  rcases Graph.transitiveClosure_spec next
    (fun x y hxy => found_targets hprog h ((hfound x y).mp hxy)) hless with
    ⟨closed, hclosed, _, hclosure⟩
  exists reversed closed
  constructor
  · unfold computeGlobalControlDependences
    rw [hmapM]
    dsimp only
    rw [hrun]
    dsimp only
    rw [himplementations]
    unfold withProcessed at hcalls
    rw [hcalls]
    dsimp only
    rw [hclosed]
  · intro x y
    rw [mem_reversed, hclosure, hrelated]

theorem firstVerified_of_compute (dummy : Nat) (h : IsProcessed prune prog processed) :
    exists bound, forall fuel, bound ≤ fuel -> forall r,
      computeGlobalControlDependences fuel prune dummy prog = some r ->
        FirstVerified prog processed := by
  rcases exists_locals dummy h with ⟨bound, hlocals⟩
  exists bound
  intro fuel hfuel r hr impl himpl callee hcallee first hfound
  rcases hlocals fuel hfuel with ⟨locals, hmapM, hforall⟩
  have himplementations := map_fst_locals hforall
  by_contra hskip
  rw [Bool.not_eq_false] at hskip
  rcases mem_withProcessed.mp himpl with ⟨a, ha, heq⟩
  rcases exists_mem_of_forall₂ hforall.flip ha with ⟨l, hl, hsame, _⟩
  rcases List.mem_flatMap.mp hcallee with ⟨b, hb, hcallee⟩
  have hcall := mem_callSites.mpr
    ⟨l, hl, b, hsame ▸ heq ▸ hb, callee, hcallee, rfl⟩
  have hnone := Traversal.foldlM_eq_none hcall (fun globalCtrlDep =>
    addCall_eq_none globalCtrlDep fuel hfound hskip)
  unfold computeGlobalControlDependences at hr
  rw [hmapM] at hr
  dsimp only at hr
  rw [himplementations] at hr
  unfold withProcessed at hnone
  split at hr
  · cases hr
  · rw [hnone] at hr
    cases hr

theorem found_joined {x y : Nat} (h : Found dummy prog processed x y) :
    Joined dummy prog processed x y := by
  rcases h with h | ⟨a, ha, b, hb, hxb, callee, hcallee, first, hfound, c, hc, hy⟩
  · exact Or.inl h
  · have hfirst := getImplementation_some hfound
    right
    exists a
    constructor
    · exact ha
    · exists b
      constructor
      · exact hb
      · constructor
        · exact hxb
        · exists first
          constructor
          · exact hfirst.1
          · constructor
            · exact hfirst.2 ▸ hcallee
            · exists c
              constructor
              · apply Relation.ReflTransGen.mono _ _ _ hc
                intro impl callee hedge
                rcases Program.buildCallGraph_edge.mp hedge with
                  ⟨himpl, hcallee, hname⟩
                exact ⟨(List.mem_filter.mp himpl).1,
                  (List.mem_filter.mp hcallee).1, hname⟩
              · exact hy

theorem transGen_joined (h : Covered dummy prog processed) {x y : Nat} :
    Relation.TransGen (Joined dummy prog processed) x y <->
      Relation.TransGen (Found dummy prog processed) x y := by
  have hone : forall x y, Joined dummy prog processed x y ->
      Relation.TransGen (Found dummy prog processed) x y := by
    intro x y hxy
    rcases hxy with hxy | hxy
    · exact Relation.TransGen.single (Or.inl hxy)
    · exact h x y hxy
  constructor
  · intro hxy
    induction hxy with
    | single hstep => exact hone _ _ hstep
    | tail hbefore hstep ih => exact ih.trans (hone _ _ hstep)
  · intro hxy
    have hmono : forall x y, Found dummy prog processed x y ->
        Joined dummy prog processed x y := fun _ _ => found_joined
    exact Relation.TransGen.mono hmono _ _ hxy

/-- The result is the inverse of the closure of the joined dependences. -/
def ComputesJoined (fuel : Nat) (prune : Bool) (dummy : Nat) (prog : Program)
    (processed : List (Implementation × Graph Nat)) : Prop :=
  exists r, computeGlobalControlDependences fuel prune dummy prog = some r ∧
    forall x y, x ∈ dependencesOf r y <->
      Relation.TransGen (Joined dummy prog processed) x y

theorem computesJoined_iff (dummy : Nat) (hprog : Resolved prog)
    (h : IsProcessed prune prog processed) :
    exists bound, forall fuel, bound ≤ fuel -> (ComputesJoined fuel prune dummy prog processed <->
        FirstVerified prog processed ∧ Covered dummy prog processed) := by
  rcases firstVerified_of_compute dummy h with ⟨bound, hthrows⟩
  have hcompute : exists bound, FirstVerified prog processed -> forall fuel,
      bound ≤ fuel -> exists r,
        computeGlobalControlDependences fuel prune dummy prog = some r ∧
        forall x y, x ∈ dependencesOf r y <->
          Relation.TransGen (Found dummy prog processed) x y := by
    by_cases hfirst : FirstVerified prog processed
    · rcases compute_found hprog h hfirst with ⟨bound', hbound'⟩
      exact ⟨bound', fun _ => hbound'⟩
    · exact ⟨0, fun hyes => absurd hyes hfirst⟩
  rcases hcompute with ⟨bound', hcompute⟩
  exists bound + bound'
  intro fuel hfuel
  have hle := Nat.le_trans (Nat.le_add_right bound bound') hfuel
  have hle' := Nat.le_trans (Nat.le_add_left bound' bound) hfuel
  constructor
  · intro ⟨r, hr, hjoined⟩
    have hfirst := hthrows fuel hle r hr
    rcases hcompute hfirst fuel hle' with ⟨r', hr', hfound⟩
    rw [hr] at hr'
    cases hr'
    constructor
    · exact hfirst
    · intro x y hxy
      rw [← hfound, hjoined]
      exact Relation.TransGen.single (Or.inr hxy)
  · intro ⟨hfirst, hcovered⟩
    rcases hcompute hfirst fuel hle' with ⟨r, hr, hfound⟩
    exists r
    constructor
    · exact hr
    · intro x y
      rw [hfound, transGen_joined hcovered]

end Result

end VariableDependenceAnalyser

end Boogie
