import Boogie.Core.Program
import Boogie.Core.ProcessLoops
import Boogie.Foundation.Traversal
import Boogie.Graph.TransitiveClosure

/-!
# Global control dependence

The local control dependences are united, a block that controls a call controls
all blocks of the implementations behind the call, and the closure of both is
turned around.  The sets of the local dictionaries are those of the global one,
so that they grow with it.
-/

namespace Boogie

namespace VariableDependenceAnalyser

open Boogie.Graph (dependencesOf addDependences Related)

/-!
# The computation
-/

def localCtrlDeps (fuel : Nat) (pruneInfeasibleEdges : Bool) (dummy : Nat)
    (impl : Implementation) :
    Option (Implementation × Dictionary Nat (List Nat)) :=
  match impl.processLoops fuel pruneInfeasibleEdges with
  | none => none
  | some (impl, blockGraph) =>
    match blockGraph.controlDependence fuel dummy with
    | none => none
    | some deps => some (impl, deps)

/-- `Dictionary.Add` fails for a key that is present. -/
def addEntry (globalCtrlDep : Dictionary Nat (List Nat))
    (entry : Nat × List Nat) : Option (Dictionary Nat (List Nat)) :=
  if globalCtrlDep.containsKey entry.1 = true then none
  else some (globalCtrlDep.set entry.1 entry.2)

def getImplementation (prog : Program) (proc : String) : Option Implementation :=
  prog.implementations.find? (fun impl => impl.name = proc)

def computeIndirectCallees (callGraph : Graph Implementation) :
    Nat -> Implementation -> List Implementation ->
      Option (List Implementation × List Implementation)
  | 0, _, _ => none
  | depth + 1, directCallee, seen =>
    if directCallee ∈ seen then some ([], seen)
    else
      match callGraph.successorsAsList directCallee with
      | none => none
      | some successors =>
        successors.foldlM
          (fun st succ =>
            match computeIndirectCallees callGraph depth succ st.2 with
            | none => none
            | some (callees, seen) =>
              some (callees.foldl hashSetAdd st.1, seen))
          ([directCallee], hashSetAdd seen directCallee)

def getControllingBlocks (globalCtrlDep : Dictionary Nat (List Nat))
    (keys : List Nat) (b : Nat) : List Nat :=
  keys.filter (fun key => b ∈ dependencesOf globalCtrlDep key)

def addControlled (control : Nat) (globalCtrlDep : Dictionary Nat (List Nat))
    (c : Nat) : Option (Dictionary Nat (List Nat)) :=
  match globalCtrlDep.tryGetValue control with
  | none => none
  | some controlled =>
    some (globalCtrlDep.set control (hashSetAdd controlled c))

structure CallSite where
  keys : List Nat
  block : Nat
  callee : String

def callees (b : Block) : List String :=
  b.cmds.filterMap Cmd.callee?

def callSites (impl : Implementation) (deps : Dictionary Nat (List Nat)) :
    List CallSite :=
  impl.blocks.flatMap (fun b =>
    (callees b).map (fun callee => ⟨deps.keys, b.uniqueId, callee⟩))

def addCall (fuel : Nat) (prog : Program) (callGraph : Graph Implementation)
    (globalCtrlDep : Dictionary Nat (List Nat)) (call : CallSite) :
    Option (Dictionary Nat (List Nat)) :=
  match getImplementation prog call.callee with
  | none => some globalCtrlDep
  | some directCallee =>
    match computeIndirectCallees callGraph fuel directCallee [] with
    | none => none
    | some (indirectCallees, _) =>
      (getControllingBlocks globalCtrlDep call.keys call.block).foldlM
        (fun globalCtrlDep control =>
          (indirectCallees.flatMap Implementation.blockIds).foldlM
            (addControlled control) globalCtrlDep)
        globalCtrlDep

def reversed (globalCtrlDep : Dictionary Nat (List Nat)) :
    Dictionary Nat (List Nat) :=
  globalCtrlDep.entries.foldl
    (fun result entry =>
      entry.2.foldl (fun result v => addDependences result v [entry.1]) result)
    Dictionary.empty

def computeGlobalControlDependences (fuel : Nat) (pruneInfeasibleEdges : Bool)
    (dummy : Nat) (prog : Program) : Option (Dictionary Nat (List Nat)) :=
  match prog.implementations.mapM
      (localCtrlDeps fuel pruneInfeasibleEdges dummy) with
  | none => none
  | some locals =>
    match (locals.flatMap (fun l => l.2.entries)).foldlM addEntry
        Dictionary.empty with
    | none => none
    | some globalCtrlDep =>
      let prog := { prog with implementations := locals.map Prod.fst }
      match (locals.flatMap (fun l => callSites l.1 l.2)).foldlM
          (addCall fuel prog prog.buildCallGraph) globalCtrlDep with
      | none => none
      | some globalCtrlDep =>
        match Graph.transitiveClosure fuel globalCtrlDep with
        | none => none
        | some globalCtrlDep => some (reversed globalCtrlDep)

/-!
# Indirect callees
-/

section Callees

open DepthFirst

variable {callGraph : Graph Implementation} {impl callee : Implementation}

theorem closed_successors : Closed callGraph.successors callGraph.ns :=
  fun _ _ _ h => (callGraph.endpoints _ (Graph.mem_successors.mp h)).2

theorem computeIndirectCallees_explored (depth : Nat) (impl : Implementation)
    (seen : List Implementation) (hmem : impl ∈ callGraph.ns)
    (hdepth : unvisited callGraph.ns seen < depth) :
    exists new callees, computeIndirectCallees callGraph depth impl seen =
        some (callees, seen ++ new) ∧ Explored callGraph.successors [impl] seen new ∧
      forall c, c ∈ callees <-> c ∈ new := by
  induction depth generalizing impl seen with
  | zero => exact absurd hdepth (Nat.not_lt_zero _)
  | succ depth ih =>
    rw [computeIndirectCallees]
    by_cases hseen : impl ∈ seen
    · rw [if_pos hseen]
      exists [], []
      constructor
      · rw [List.append_nil]
      · exact ⟨Explored.nothing hseen, fun c => Iff.rfl⟩
    · rw [if_neg hseen, Graph.successorsAsList, if_pos hmem, hashSetAdd,
        if_neg hseen]
      dsimp only
      have hless : unvisited callGraph.ns (seen ++ [impl]) < depth :=
        Nat.lt_of_lt_of_le (unvisited_lt hmem hseen) (Nat.le_of_lt_succ hdepth)
      -- The loop over the callees, from any state that is reached in it.
      have hloop : forall (xs result seen : List Implementation),
          (forall x, x ∈ xs -> x ∈ callGraph.ns) ->
          unvisited callGraph.ns seen < depth ->
          exists new callees, xs.foldlM
              (fun st succ =>
                match computeIndirectCallees callGraph depth succ st.2 with
                | none => none
                | some (callees, seen) =>
                  some (callees.foldl hashSetAdd st.1, seen))
              (result, seen) = some (callees, seen ++ new) ∧
            Explored callGraph.successors xs seen new ∧
            forall c, c ∈ callees <-> c ∈ result ∨ c ∈ new := by
        intro xs
        induction xs with
        | nil =>
          intro result seen _ _
          exists [], result
          constructor
          · rw [List.append_nil]
            rfl
          · exact ⟨Explored.nil, by simp⟩
        | cons x xs ihxs =>
          intro result seen hxs hless
          rcases ih x seen (hxs x List.mem_cons_self) hless with
            ⟨new, callees, hfirst, hnew, hcallees⟩
          have hless' : unvisited callGraph.ns (seen ++ new) < depth :=
            Nat.lt_of_le_of_lt
              (unvisited_le (List.subset_append_left seen new)) hless
          rcases ihxs (callees.foldl hashSetAdd result) (seen ++ new)
            (fun y hy => hxs y (List.mem_cons_of_mem x hy)) hless' with
            ⟨new', callees', hrest, hnew', hcallees'⟩
          exists new ++ new', callees'
          constructor
          · rw [List.foldlM_cons, hfirst, ← List.append_assoc]
            exact hrest
          · constructor
            · exact hnew.append hnew'
            · intro c
              rw [hcallees', mem_foldl_hashSetAdd, hcallees,
                List.mem_append, or_assoc]
      rcases hloop (callGraph.successors impl) [impl] (seen ++ [impl])
        (closed_successors impl hmem) hless with
        ⟨new, callees, hrun, hnew, hcallees⟩
      exists impl :: new, callees
      constructor
      · rw [hrun, List.append_assoc, List.singleton_append]
      · constructor
        · exact hnew.cons hseen
        · intro c
          rw [hcallees, List.mem_singleton, List.mem_cons]

theorem computeIndirectCallees_spec {fuel : Nat} (hmem : impl ∈ callGraph.ns)
    (hfuel : callGraph.ns.length < fuel) :
    exists callees seen, computeIndirectCallees callGraph fuel impl [] = some (callees, seen) ∧
      forall c, c ∈ callees <-> Relation.ReflTransGen callGraph.Edge impl c := by
  have hle : unvisited callGraph.ns [] < fuel := by
    apply Nat.lt_of_le_of_lt _ hfuel
    apply Nat.le_trans (Finset.card_le_card Finset.sdiff_subset)
    exact List.toFinset_card_le callGraph.ns
  rcases computeIndirectCallees_explored fuel impl [] hmem hle with
    ⟨new, callees, hrun, hnew, hcallees⟩
  have hsame : Reaches callGraph.successors impl =
      Relation.ReflTransGen callGraph.Edge impl := by
    unfold Reaches
    simp only [Graph.mem_successors]
  exists callees, [] ++ new
  constructor
  · exact hrun
  · intro c
    rw [hcallees, ← hsame]
    constructor
    · intro hc
      rcases hnew.reached c hc with ⟨r, hr, hreaches⟩
      rwa [List.mem_singleton.mp hr] at hreaches
    · intro hreaches
      induction hreaches with
      | refl => exact hnew.roots impl List.mem_cons_self
      | tail hbefore hstep ih => exact hnew.closed _ ih _ hstep

theorem computeIndirectCallees_eq_none (fuel : Nat) (hmem : impl ∉ callGraph.ns) :
    computeIndirectCallees callGraph fuel impl [] = none := by
  cases fuel with
  | zero => rfl
  | succ fuel =>
    rw [computeIndirectCallees, if_neg List.not_mem_nil,
      Graph.successorsAsList, if_neg hmem]

end Callees

/-!
# Calls
-/

section Calls

variable {globalCtrlDep : Dictionary Nat (List Nat)} {x y : Nat}

theorem foldlM_addControlled (control : Nat) (cs : List Nat)
    (globalCtrlDep : Dictionary Nat (List Nat)) (hcontrol : control ∈ globalCtrlDep.keys) :
    exists next, cs.foldlM (addControlled control) globalCtrlDep = some next ∧
      next.keys = globalCtrlDep.keys ∧ forall x y, Related next x y <->
        Related globalCtrlDep x y ∨ (x = control ∧ y ∈ cs) := by
  induction cs generalizing globalCtrlDep with
  | nil => exact ⟨globalCtrlDep, rfl, rfl, by simp⟩
  | cons c cs ih =>
    rcases Dictionary.mem_keys.mp hcontrol with ⟨controlled, hlookup⟩
    have hkeys := Dictionary.keys_set_of_mem
      (v := hashSetAdd controlled c) hcontrol
    rcases ih (globalCtrlDep.set control (hashSetAdd controlled c))
      (hkeys ▸ hcontrol) with ⟨next, hrun, hkeys', hmem⟩
    exists next
    constructor
    · rw [List.foldlM_cons, addControlled, hlookup]
      exact hrun
    · constructor
      · rw [hkeys', hkeys]
      · intro x y
        rw [hmem, List.mem_cons]
        unfold Related
        rw [Graph.dependencesOf_set]
        by_cases hx : x = control
        · rw [if_pos hx, mem_hashSetAdd, hx, Graph.dependencesOf, hlookup]
          simp [or_assoc]
        · rw [if_neg hx]
          simp [hx]

theorem foldlM_controls (controls cs : List Nat) (globalCtrlDep : Dictionary Nat (List Nat))
    (hcontrols : forall control, control ∈ controls -> control ∈ globalCtrlDep.keys) :
    exists next, controls.foldlM (fun globalCtrlDep control =>
          cs.foldlM (addControlled control) globalCtrlDep) globalCtrlDep = some next ∧
      next.keys = globalCtrlDep.keys ∧ forall x y, Related next x y <->
        Related globalCtrlDep x y ∨ (x ∈ controls ∧ y ∈ cs) := by
  induction controls generalizing globalCtrlDep with
  | nil => exact ⟨globalCtrlDep, rfl, rfl, by simp⟩
  | cons control controls ih =>
    rcases foldlM_addControlled control cs globalCtrlDep
      (hcontrols control List.mem_cons_self) with ⟨next, hfirst, hkeys, hmem⟩
    rcases ih next (fun c hc =>
      hkeys ▸ hcontrols c (List.mem_cons_of_mem control hc)) with
      ⟨next', hrest, hkeys', hmem'⟩
    exists next'
    constructor
    · rw [List.foldlM_cons, hfirst]
      exact hrest
    · constructor
      · exact hkeys'.trans hkeys
      · intro x y
        rw [hmem', hmem, List.mem_cons, or_assoc, ← or_and_right]

def Callable (prog : Program) (callee : String) (y : Nat) : Prop :=
  exists directCallee, getImplementation prog callee = some directCallee ∧
    exists c, Relation.ReflTransGen prog.buildCallGraph.Edge directCallee c ∧
      y ∈ c.blockIds

theorem getImplementation_some {prog : Program} {proc : String}
    {impl : Implementation} (h : getImplementation prog proc = some impl) :
    impl ∈ prog.implementations ∧ impl.name = proc := by
  constructor
  · exact List.mem_of_find?_eq_some h
  · simpa using List.find?_some h

theorem addCall_eq_none {prog : Program} {call : CallSite}
    {impl : Implementation} (globalCtrlDep : Dictionary Nat (List Nat))
    (fuel : Nat) (hcallee : getImplementation prog call.callee = some impl)
    (hskip : impl.skipVerification = true) :
    addCall fuel prog prog.buildCallGraph globalCtrlDep call = none := by
  have hmem : impl ∉ prog.buildCallGraph.ns := by
    rw [Program.mem_buildCallGraph_ns]
    intro hverified
    have htrue := (List.mem_filter.mp hverified).2
    rw [hskip] at htrue
    cases htrue
  rw [addCall, hcallee]
  dsimp only
  rw [computeIndirectCallees_eq_none fuel hmem]

theorem addCall_spec {prog : Program} {call : CallSite} {fuel : Nat}
    (hverified : forall impl, getImplementation prog call.callee = some impl ->
      impl.skipVerification = false) (hfuel : prog.buildCallGraph.ns.length < fuel)
    (hkeys : forall key, key ∈ call.keys -> key ∈ globalCtrlDep.keys) :
    exists next, addCall fuel prog prog.buildCallGraph globalCtrlDep call = some next ∧
      next.keys = globalCtrlDep.keys ∧ forall x y, Related next x y <-> Related globalCtrlDep x y ∨
        (x ∈ call.keys ∧ Related globalCtrlDep x call.block ∧ Callable prog call.callee y) := by
  unfold addCall
  cases hcallee : getImplementation prog call.callee with
  | none =>
    exists globalCtrlDep
    constructor
    · rfl
    · constructor
      · rfl
      · intro x y
        simp [Callable, hcallee]
  | some directCallee =>
    have hmem : directCallee ∈ prog.buildCallGraph.ns := by
      rw [Program.mem_buildCallGraph_ns]
      apply List.mem_filter.mpr
      constructor
      · exact (getImplementation_some hcallee).1
      · rw [hverified directCallee hcallee]
        rfl
    rcases computeIndirectCallees_spec hmem hfuel with
      ⟨indirectCallees, seen, hrun, hcallees⟩
    dsimp only
    rw [hrun]
    dsimp only
    rcases foldlM_controls
      (getControllingBlocks globalCtrlDep call.keys call.block)
      (indirectCallees.flatMap Implementation.blockIds) globalCtrlDep
      (fun control hcontrol =>
        hkeys control (List.mem_filter.mp hcontrol).1) with
      ⟨next, hnext, hsame, hrelated⟩
    exists next
    constructor
    · exact hnext
    · constructor
      · exact hsame
      · intro x y
        rw [hrelated]
        apply or_congr_right
        unfold getControllingBlocks
        rw [List.mem_filter, List.mem_flatMap, decide_eq_true_iff, and_assoc]
        apply and_congr_right
        intro _
        apply and_congr_right
        intro _
        constructor
        · rintro ⟨c, hc, hy⟩
          exact ⟨directCallee, hcallee, c, (hcallees c).mp hc, hy⟩
        · rintro ⟨impl, himpl, c, hc, hy⟩
          rw [hcallee] at himpl
          cases himpl
          exact ⟨c, (hcallees c).mpr hc, hy⟩

theorem foldlM_addCall {prog : Program} {fuel : Nat}
    (calls : List CallSite) (globalCtrlDep : Dictionary Nat (List Nat))
    (hverified : forall call, call ∈ calls -> forall impl,
      getImplementation prog call.callee = some impl -> impl.skipVerification = false)
    (hfuel : prog.buildCallGraph.ns.length < fuel)
    (hkeys : forall call, call ∈ calls -> forall key, key ∈ call.keys -> key ∈ globalCtrlDep.keys)
    {allowed : Nat -> Nat -> Prop} (hstart : forall x y, Related globalCtrlDep x y -> allowed x y)
    (hallowed : forall call, call ∈ calls -> forall x y, x ∈ call.keys ->
      allowed x call.block -> Callable prog call.callee y -> allowed x y) :
    exists next, calls.foldlM (addCall fuel prog prog.buildCallGraph) globalCtrlDep = some next ∧
      next.keys = globalCtrlDep.keys ∧ (forall x y, Related globalCtrlDep x y -> Related next x y) ∧
      (forall x y, Related next x y -> allowed x y) ∧
      forall call, call ∈ calls -> forall x y, x ∈ call.keys ->
        Related globalCtrlDep x call.block -> Callable prog call.callee y -> Related next x y := by
  induction calls generalizing globalCtrlDep with
  | nil =>
    exists globalCtrlDep
    constructor
    · rfl
    · constructor
      · rfl
      · constructor
        · exact fun _ _ hxy => hxy
        · constructor
          · exact hstart
          · intro call hcall
            cases hcall
  | cons call calls ih =>
    rcases addCall_spec (hverified call List.mem_cons_self) hfuel
      (hkeys call List.mem_cons_self) with ⟨next, hfirst, hsame, hrelated⟩
    have hrest : forall c, c ∈ calls -> c ∈ call :: calls :=
      fun c hc => List.mem_cons_of_mem call hc
    rcases ih next (fun c hc => hverified c (hrest c hc))
      (fun c hc => hsame ▸ hkeys c (hrest c hc))
      (by
        intro x y hxy
        rcases (hrelated x y).mp hxy with hxy | ⟨hx, hblock, hy⟩
        · exact hstart x y hxy
        · exact hallowed call List.mem_cons_self x y hx
            (hstart x call.block hblock) hy)
      (fun c hc => hallowed c (hrest c hc)) with
      ⟨next', hrun, hsame', hgrows, hsound, hcalls⟩
    exists next'
    constructor
    · rw [List.foldlM_cons, hfirst]
      exact hrun
    · constructor
      · exact hsame'.trans hsame
      · constructor
        · intro x y hxy
          exact hgrows x y ((hrelated x y).mpr (Or.inl hxy))
        · constructor
          · exact hsound
          · intro c hc x y hx hblock hy
            rcases List.mem_cons.mp hc with heq | hc
            · rw [heq] at hx hblock hy
              exact hgrows x y ((hrelated x y).mpr (Or.inr ⟨hx, hblock, hy⟩))
            · exact hcalls c hc x y hx
                ((hrelated x c.block).mpr (Or.inl hblock)) hy

end Calls

/-!
# The dependences turned around
-/

section Reversed

variable {x y : Nat}

theorem mem_foldl_reversed (entries : List (Nat × List Nat)) (result : Dictionary Nat (List Nat)) :
    x ∈ dependencesOf (entries.foldl (fun result entry =>
          entry.2.foldl (fun result v => addDependences result v [entry.1]) result) result) y <->
      x ∈ dependencesOf result y ∨ exists entry, entry ∈ entries ∧ x = entry.1 ∧ y ∈ entry.2 := by
  have hone : forall (vs : List Nat) (key : Nat)
      (result : Dictionary Nat (List Nat)),
      x ∈ dependencesOf
          (vs.foldl (fun result v => addDependences result v [key]) result) y <->
        x ∈ dependencesOf result y ∨ (x = key ∧ y ∈ vs) := by
    intro vs key
    induction vs with
    | nil => simp
    | cons v vs ih =>
      intro result
      rw [List.foldl_cons, ih, Graph.mem_dependencesOf_addDependences,
        List.mem_singleton, List.mem_cons, or_assoc, and_comm, and_or_left]
  induction entries generalizing result with
  | nil => simp
  | cons entry entries ih =>
    rw [List.foldl_cons]
    apply (ih _).trans
    rw [hone, or_assoc]
    simp [or_and_right, exists_or]

theorem mem_reversed {d : Dictionary Nat (List Nat)} :
    x ∈ dependencesOf (reversed d) y <-> Related d x y := by
  rw [reversed, mem_foldl_reversed]
  unfold Related Graph.dependencesOf
  constructor
  · intro h
    rcases h with h | ⟨entry, hentry, hx, hy⟩
    · cases h
    · have hlookup : d.tryGetValue x = some entry.2 :=
        Dictionary.tryGetValue_eq_some.mpr (hx ▸ hentry)
      rw [hlookup]
      exact hy
  · intro h
    right
    cases hlookup : d.tryGetValue x with
    | none =>
      rw [hlookup] at h
      cases h
    | some value =>
      rw [hlookup] at h
      exact ⟨(x, value), Dictionary.tryGetValue_eq_some.mp hlookup, rfl, h⟩

end Reversed

end VariableDependenceAnalyser

end Boogie
