import Boogie.Houdini.WorklistSound

/-!
# Concurrent Houdini

Several instances of the inference run over copies of a program.  They publish
the annotations they refute in one table, and whenever a query was answered
`Invalid` they import what the others have published.
-/

namespace Boogie

open Houdini

/-!
# Distinct names
-/

def Program.DistinctImplementations (p : Program) : Prop :=
  forall impl impl', impl ∈ p.implementations -> impl' ∈ p.implementations ->
    impl.name = impl'.name -> impl = impl'

def Program.DistinctCandidates (p : Program) : Prop :=
  forall v v', v ∈ p.houdiniConstants -> v' ∈ p.houdiniConstants ->
    v.name = v'.name -> v = v'

theorem Program.DistinctImplementations.names {H : Houdini}
    (h : H.program.DistinctImplementations) : H.DistinctNames := by
  intro impl impl' himpl himpl' hname
  rw [callGraph, mem_buildCallGraph_ns] at himpl himpl'
  exact h impl impl' (List.mem_of_mem_filter himpl)
    (List.mem_of_mem_filter himpl') hname

/-!
# Instances

Each instance has verification conditions of its own: an option can take the
loop invariants out of what an instance checks.
-/

structure ConcurrentHoudini (Id : Type) where
  program : Program
  options : HoudiniOptions
  vcgen : Id -> (impl : Implementation) -> Option (PassifiedImpl program impl)
  crossDependencies : String -> List Implementation
  stage : Id -> Int
  completedStages : Id -> Option (List Int)
  initialAssignment : Id -> Variable -> Bool

namespace ConcurrentHoudini

variable {Id : Type}

abbrev houdini (K : ConcurrentHoudini Id) (id : Id) : Houdini where
  program := K.program
  options := K.options
  vcgen := K.vcgen id
  crossDependencies := K.crossDependencies
  stage := K.stage id
  completedStages := K.completedStages id

/-- An instance that fails has thrown an exception. -/
inductive Instance where
  | created
  | starting (rest : List Variable) (assignment : Variable -> Bool)
  | running (s : HoudiniState)
  | failed

abbrev SharedAnnotations := List (String × RefutedAnnotation)

structure State (Id : Type) where
  refutedSharedAnnotations : SharedAnnotations
  instances : Id -> Instance

def State.set [DecidableEq Id] (σ : State Id) (id : Id) (i : Instance) :
    State Id :=
  { σ with instances := Function.update σ.instances id i }

def SharedAnnotations.keys (shared : SharedAnnotations) : List String :=
  shared.map Prod.fst

/-- `TryAdd`, under the name of the constant: an entry never changes. -/
def SharedAnnotations.tryAdd (shared : SharedAnnotations)
    (r : RefutedAnnotation) : SharedAnnotations :=
  if r.constant.name ∈ shared.keys then shared
  else shared ++ [(r.constant.name, r)]

/-!
# The exchange
-/

def buildRefuted (p : Program) (shared : RefutedAnnotation) (v : Variable) :
    Option RefutedAnnotation :=
  match p.implementations.find?
      (fun impl => impl.name = shared.refutationSite.name) with
  | none => none
  | some refutationSite =>
    match shared.kind with
    | .requires =>
      match shared.calleeProc with
      | some callee =>
        (p.procedures.find? (fun proc => proc.name = callee)).map
          (fun proc => ⟨v, .requires, some proc.name, refutationSite⟩)
      | none => none
    | .ensures => some ⟨v, .ensures, none, refutationSite⟩
    | .assert => some ⟨v, .assert, none, refutationSite⟩

/--
`ExchangeRefutedAnnotations` for the keys of the table and the number of the
annotations imported.
-/
def exchangeRefutedAnnotations (H : Houdini) (shared : SharedAnnotations) :
    List String -> HoudiniState -> Nat -> Option (HoudiniState × Nat)
  | [], s, count => some (s, count)
  | key :: keys, s, count =>
    match H.houdiniConstants.find?
        (fun v => v.name = key ∧ s.assignment v = true) with
    | none => exchangeRefutedAnnotations H shared keys s count
    | some v =>
      match (shared.lookup key).bind (buildRefuted H.program · v) with
      | none => none
      | some ra =>
        match addRelatedToWorkList H ra s with
        | none => none
        | some s' => exchangeRefutedAnnotations H shared keys
            (s'.falsify v) (count + 1)

def leaveOrVerifyAgain (impl : Implementation) (dequeue : Bool)
    (s : HoudiniState) : HoudiniState :=
  if dequeue = true then s.dequeue.goto .outerLoop
  else s.goto (.verifyCurrent impl)

def publish (p : Program) (s : HoudiniState) (shared : SharedAnnotations) :
    SharedAnnotations :=
  match s.control with
  | .refuting impl (error :: _) _ =>
    match extractRefutedAnnotation p impl error with
    | some r => shared.tryAdd r
    | none => shared
  | _ => shared

/-!
# Steps

The keys of the table are a snapshot, and entries never change, so that an
exchange reads the table at one moment; it writes to its own instance only.
The loop that starts an instance reads the table for one constant at a time.
-/

inductive Action where
  | start
  | inference (event : Event)
  | exchange

def Exchanges (s : HoudiniState) : Prop :=
  exists impl dequeue, s.control = .refuting impl [] dequeue

inductive Step [DecidableEq Id] (K : ConcurrentHoudini Id)
    (prover : forall id, Prover (K.houdini id)) :
    State Id -> Id -> Action -> State Id -> Prop where
  | begin {σ : State Id} {id : Id} :
      σ.instances id = .created ->
      Step K prover σ id .start
        (σ.set id (.starting
          (if σ.refutedSharedAnnotations = [] then []
            else K.program.houdiniConstants)
          (K.initialAssignment id)))
  | check {σ : State Id} {id : Id} {v : Variable} {vs : List Variable}
      {assignment : Variable -> Bool} :
      σ.instances id = .starting (v :: vs) assignment ->
      Step K prover σ id .start
        (σ.set id (.starting vs
          (if v.name ∈ σ.refutedSharedAnnotations.keys then
            Function.update assignment v false
          else assignment)))
  | enter {σ : State Id} {id : Id} {assignment : Variable -> Bool}
      {s : HoudiniState} :
      σ.instances id = .starting [] assignment ->
      (K.houdini id).Initial assignment s ->
      Step K prover σ id .start (σ.set id (.running s))
  | inference {σ : State Id} {id : Id} {s s' : HoudiniState} {event : Event} :
      σ.instances id = .running s -> ¬ Exchanges s ->
      Houdini.Step (K.houdini id) (prover id) s event s' ->
      Step K prover σ id (.inference event)
        { refutedSharedAnnotations :=
            publish K.program s σ.refutedSharedAnnotations
          instances := Function.update σ.instances id (.running s') }
  | exchange {σ : State Id} {id : Id} {s s' : HoudiniState}
      {impl : Implementation} {dequeue : Bool} {keys : List String}
      {count : Nat} :
      σ.instances id = .running s -> s.control = .refuting impl [] dequeue ->
      keys.Perm σ.refutedSharedAnnotations.keys ->
      exchangeRefutedAnnotations (K.houdini id) σ.refutedSharedAnnotations
        keys s 0 = some (s', count) ->
      Step K prover σ id .exchange
        (σ.set id (.running
          (leaveOrVerifyAgain impl (dequeue && count == 0) s')))
  | exchangeFails {σ : State Id} {id : Id} {s : HoudiniState}
      {impl : Implementation} {dequeue : Bool} {keys : List String} :
      σ.instances id = .running s -> s.control = .refuting impl [] dequeue ->
      keys.Perm σ.refutedSharedAnnotations.keys ->
      exchangeRefutedAnnotations (K.houdini id) σ.refutedSharedAnnotations
        keys s 0 = none ->
      Step K prover σ id .exchange (σ.set id .failed)

structure Initial (σ : State Id) : Prop where
  shared : σ.refutedSharedAnnotations = []
  created : forall id, σ.instances id = .created

/-- The states reached by steps of the instances that meet a condition. -/
def Reaches [DecidableEq Id] (K : ConcurrentHoudini Id)
    (prover : forall id, Prover (K.houdini id))
    (ok : State Id -> Id -> Action -> Prop) : State Id -> State Id -> Prop :=
  Relation.ReflTransGen
    (fun σ σ' => exists id action, ok σ id action ∧ Step K prover σ id action σ')

section Exchange

variable {H : Houdini} {s s' : HoudiniState} {impl : Implementation}
  {shared : SharedAnnotations} {keys : List String}

/-!
# Entries of the table
-/

theorem extract_calleeProc {p : Program} {error : Counterexample}
    {r : RefutedAnnotation} (h : extractRefutedAnnotation p impl error = some r) :
    (r.kind = .requires -> r.calleeProc.isSome = true) ∧
      (r.kind ≠ .requires -> r.calleeProc = none) := by
  cases error with
  | callCounterexample failingCall failingRequires =>
    rcases Option.map_eq_some_iff.mp h with ⟨c, _, rfl⟩
    simp
  | returnCounterexample failingEnsures =>
    rcases Option.map_eq_some_iff.mp h with ⟨c, _, rfl⟩
    simp
  | assertCounterexample failingAssert =>
    unfold extractRefutedAnnotation at h
    cases horig : failingAssert.origExpr with
    | none => simp [horig] at h
    | some e =>
      simp only [horig] at h
      rcases Option.map_eq_some_iff.mp h with ⟨c, _, rfl⟩
      simp

theorem buildRefuted_eq {p : Program} {error : Counterexample}
    {r r' : RefutedAnnotation} (hnames : p.DistinctImplementations)
    (himpl : impl ∈ p.implementations) (hr : extractRefutedAnnotation p impl error = some r)
    (hsite : r.refutationSite = impl) (h : buildRefuted p r r.constant = some r') : r' = r := by
  have hcallee := extract_calleeProc hr
  unfold buildRefuted at h
  split at h
  · cases h
  · rename_i site hfind
    have hname := List.find?_some hfind
    have hsame : site = impl := by
      apply hnames site impl (List.mem_of_find?_eq_some hfind) himpl
      rw [← hsite]
      exact of_decide_eq_true hname
    subst hsame
    rcases r with ⟨c, kind, calleeProc, refutationSite⟩
    simp only at hsite hcallee h
    subst hsite
    cases kind with
    | requires =>
      cases calleeProc with
      | none => cases h
      | some callee =>
        rcases Option.map_eq_some_iff.mp h with ⟨proc, hproc, rfl⟩
        have hfound := List.find?_some hproc
        rw [of_decide_eq_true hfound]
    | ensures =>
      cases h
      rw [hcallee.2 (by simp)]
    | assert =>
      cases h
      rw [hcallee.2 (by simp)]

theorem mem_of_lookup {key : String} {r : RefutedAnnotation}
    (h : shared.lookup key = some r) : key ∈ shared.keys := by
  rcases List.lookup_eq_some_iff.mp h with ⟨before, after, rfl, _⟩
  simp [SharedAnnotations.keys]

theorem lookup_tryAdd {key : String} {r r' : RefutedAnnotation}
    (h : (shared.tryAdd r').lookup key = some r) :
    shared.lookup key = some r ∨ (key = r'.constant.name ∧ r = r' ∧ key ∉ shared.keys) := by
  unfold SharedAnnotations.tryAdd at h
  split at h
  · exact Or.inl h
  · rename_i hnew
    rw [List.lookup_append] at h
    rcases Option.or_eq_some_iff.mp h with hold | ⟨_, hadded⟩
    · exact Or.inl hold
    · right
      by_cases hkey : key = r'.constant.name
      · subst hkey
        simp only [List.lookup_cons, beq_self_eq_true] at hadded
        cases hadded
        exact ⟨rfl, rfl, hnew⟩
      · have hne : (key == r'.constant.name) = false := by simpa using hkey
        simp [List.lookup_cons, hne] at hadded

/-!
# What an exchange does
-/

theorem inCore_congr {v : Variable} {test : Implementation -> Bool}
    {impls : List Implementation} (h : s'.unsatCoreSet = s.unsatCoreSet) :
    inCore H s' v test impls = inCore H s v test impls := by
  induction impls with
  | nil => rfl
  | cons impl impls ih =>
    have hcore : s'.inUnsatCore impl v = s.inUnsatCore impl v := by
      unfold HoudiniState.inUnsatCore
      rw [h]
    unfold inCore
    rw [ih, hcore]

theorem findImplementationsToEnqueue_congr {r : RefutedAnnotation}
    (h : s'.unsatCoreSet = s.unsatCoreSet) :
    findImplementationsToEnqueue H s' r = findImplementationsToEnqueue H s r := by
  unfold findImplementationsToEnqueue
  simp only [inCore_congr h]

theorem onlyEnqueued_assigned (h : OnlyEnqueued s s') (assignment : Variable -> Bool) :
    OnlyEnqueued { s with assignment := assignment }
      { s' with assignment := assignment } :=
  ⟨h.blackList, rfl, h.outcomes, h.cores, h.head, h.subset, h.added⟩

/--
The candidates with the names `keys` are removed, and the implementations
related to those that were still true are put back.
-/
structure Imported (H : Houdini) (shared : SharedAnnotations)
    (keys : List String) (s s' : HoudiniState) : Prop where
  enqueued : OnlyEnqueued { s with assignment := s'.assignment } s'
  assignment : forall v, s'.assignment v = true <->
    s.assignment v = true ∧ ¬ (v ∈ H.houdiniConstants ∧ v.name ∈ keys)
  related : forall v, v ∈ H.houdiniConstants -> v.name ∈ keys ->
    s.assignment v = true -> exists r r' found,
      shared.lookup v.name = some r ∧ buildRefuted H.program r v = some r' ∧
      findImplementationsToEnqueue H s r' = some found ∧
      forall other, other ∈ found -> other.name ∉ s.blackList ->
        other ∈ s'.workQueue.queue

theorem imported_cons {key : String} {v : Variable} {r ra : RefutedAnnotation}
    {s₁ : HoudiniState} (hconstants : H.program.DistinctCandidates)
    (hfind : H.houdiniConstants.find? (fun v => v.name = key ∧ s.assignment v = true) = some v)
    (hlookup : shared.lookup key = some r) (hbuild : buildRefuted H.program r v = some ra)
    (hadd : addRelatedToWorkList H ra s = some s₁)
    (hrest : Imported H shared keys (s₁.falsify v) s') :
    Imported H shared (key :: keys) s s' := by
  unfold addRelatedToWorkList at hadd
  split at hadd
  · rename_i found hfound
    cases hadd
    have hv : v ∈ H.houdiniConstants := List.mem_of_find?_eq_some hfind
    have hfirst := List.find?_some hfind
    have hname : v.name = key := (of_decide_eq_true hfirst).1
    have hspec := foldl_enqueue_spec found s
    have hvalue : forall w,
        ((found.foldl enqueueUnlessBlackListed s).falsify v).assignment w =
            true <->
          s.assignment w = true ∧ w ≠ v := by
      intro w
      by_cases hw : w = v
      · simp [HoudiniState.falsify, hw]
      · simp [HoudiniState.falsify, hw, hspec.1.assignment]
    have hsame : forall w, w ∈ H.houdiniConstants -> w.name = key -> w = v :=
      fun w hw hwname => hconstants w v hw hv (hwname.trans hname.symm)
    refine ⟨(onlyEnqueued_assigned hspec.1 s'.assignment).trans
      hrest.enqueued, ?_, ?_⟩
    · intro w
      rw [hrest.assignment w, hvalue w, List.mem_cons]
      constructor
      · rintro ⟨⟨htrue, hne⟩, hnot⟩
        refine ⟨htrue, ?_⟩
        rintro ⟨hw, hwname⟩
        rcases hwname with hwname | hwname
        · exact hne (hsame w hw hwname)
        · exact hnot ⟨hw, hwname⟩
      · rintro ⟨htrue, hnot⟩
        refine ⟨⟨htrue, ?_⟩, fun hw => hnot ⟨hw.1, Or.inr hw.2⟩⟩
        intro hw
        rw [hw] at hnot
        exact hnot ⟨hv, Or.inl hname⟩
    · intro w hw hwname htrue
      by_cases hne : w = v
      · subst hne
        refine ⟨r, ra, found, by rwa [hname], hbuild, hfound, ?_⟩
        intro other hother hblack
        exact hrest.enqueued.subset other (hspec.2 other hother hblack)
      · have hmem : w.name ∈ keys := by
          rcases List.mem_cons.mp hwname with hkey | hmem
          · exact absurd (hsame w hw hkey) hne
          · exact hmem
        rcases hrest.related w hw hmem ((hvalue w).mpr ⟨htrue, hne⟩) with
          ⟨r₁, ra₁, found₁, hlookup₁, hbuild₁, hfound₁, hqueued⟩
        refine ⟨r₁, ra₁, found₁, hlookup₁, hbuild₁, ?_, ?_⟩
        · have hcores : ((found.foldl enqueueUnlessBlackListed s).falsify
              v).unsatCoreSet = s.unsatCoreSet := hspec.1.cores
          rwa [findImplementationsToEnqueue_congr hcores] at hfound₁
        · intro other hother hblack
          apply hqueued other hother
          show other.name ∉
            (found.foldl enqueueUnlessBlackListed s).blackList
          rwa [hspec.1.blackList]
  · cases hadd

theorem exchange_imported {count count' : Nat} (hconstants : H.program.DistinctCandidates)
    (h : exchangeRefutedAnnotations H shared keys s count =
      some (s', count')) : Imported H shared keys s s' := by
  induction keys generalizing s count with
  | nil =>
    cases h
    exact ⟨OnlyEnqueued.refl _, by simp, by simp⟩
  | cons key keys ih =>
    unfold exchangeRefutedAnnotations at h
    cases hfind : H.houdiniConstants.find?
        (fun v => v.name = key ∧ s.assignment v = true) with
    | none =>
      simp only [hfind] at h
      have hrest := ih h
      have hfalse : forall v, v ∈ H.houdiniConstants -> v.name = key ->
          s.assignment v ≠ true := by
        intro v hv hname htrue
        have := List.find?_eq_none.mp hfind v hv
        simp [hname, htrue] at this
      refine ⟨hrest.enqueued, ?_, ?_⟩
      · intro v
        rw [hrest.assignment v, List.mem_cons]
        constructor
        · intro ⟨htrue, hnot⟩
          refine ⟨htrue, ?_⟩
          intro ⟨hv, hname⟩
          rcases hname with hname | hname
          · exact hfalse v hv hname htrue
          · exact hnot ⟨hv, hname⟩
        · intro ⟨htrue, hnot⟩
          exact ⟨htrue, fun hv => hnot ⟨hv.1, Or.inr hv.2⟩⟩
      · intro v hv hname htrue
        rcases List.mem_cons.mp hname with hname | hname
        · exact absurd htrue (hfalse v hv hname)
        · exact hrest.related v hv hname htrue
    | some v =>
      simp only [hfind] at h
      cases hbuilt : (shared.lookup key).bind
          (buildRefuted H.program · v) with
      | none => simp [hbuilt] at h
      | some ra =>
        simp only [hbuilt] at h
        rcases Option.bind_eq_some_iff.mp hbuilt with
          ⟨r, hlookup, hbuild⟩
        cases hadd : addRelatedToWorkList H ra s with
        | none => simp [hadd] at h
        | some s₁ =>
          simp only [hadd] at h
          exact imported_cons hconstants hfind hlookup hbuild hadd
            (ih h)

end Exchange

end ConcurrentHoudini

end Boogie
