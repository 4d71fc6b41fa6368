import Boogie.Foundation.Enumeration
import Boogie.Houdini.Checker
import Boogie.Provers.ContextBalance
import Boogie.VCGeneration.FailurePaths

/-!
# Several errors from one formula

In the control-flow encoding the labels of a counterexample are the blocks of
its path and the assertion at the end.  The clause that is asserted next excludes
this assertion in this block and nothing else.
-/

namespace Boogie

namespace SMTLib

open Wlp

/-!
# The prover
-/

/-- `CalculatePath` from a block on; `none` means that fuel ran out. -/
def calculatePath (controlFlow : Int -> Int) : Nat -> Nat -> Option (List Nat)
  | 0, _ => none
  | fuel + 1, block =>
    let v := controlFlow block
    if v < 0 then some [v.natAbs]
    else
      match calculatePath controlFlow fuel v.natAbs with
      | some path => some (v.natAbs :: path)
      | none => none

/-- The block and the assertion that the clause after a path is about. -/
def failingPair (labels : List Nat) : Option (Nat × Nat) :=
  match labels.reverse with
  | target :: source :: _ => some (source, target)
  | _ => none

def startingProcId : Int := 0

structure Interpretation where
  U : Type
  decEq : DecidableEq U
  interp : VCInterp U
  env : VCEnv U
  ints : String -> Int
  labels : List Nat -> Prop

attribute [instance] Interpretation.decEq

namespace Interpretation

def Holds (I : Interpretation) : Assertion VCExpr Nat -> Prop
  | .formula vc => vc.Holds I.interp I.env
  | .named vc _ => vc.Holds I.interp I.env
  | .relaxed a relaxVar i => I.Holds a ∨ I.ints relaxVar = i
  | .blockedPath source target =>
    ¬ I.interp.controlFlow startingProcId source = -(target : Int)
  | .blockedLabels labels => ¬ I.labels labels

def Satisfies (I : Interpretation) (stack : Stack VCExpr Nat) : Prop :=
  forall a, a ∈ stack.assertions -> I.Holds a

end Interpretation

/--
A prover that answers consistently with the assertions made so far.  After an
answer it may give the values of the control-flow function, and after `sat` it
does.
-/
structure Solver where
  respond : Nat -> Stack VCExpr Nat -> Response
  controlFlow : Nat -> Stack VCExpr Nat -> Option (Int -> Int -> Int)
  unsat : forall n stack, respond n stack = .unsat ->
    ¬ exists I : Interpretation, I.Satisfies stack
  sat : forall n stack, respond n stack = .sat ->
    (controlFlow n stack).isSome = true
  values : forall n stack cf, controlFlow n stack = some cf ->
    exists I : Interpretation, I.Satisfies stack ∧ I.interp.controlFlow = cf

theorem Solver.ne_sat (S : Solver) {n : Nat} {stack : Stack VCExpr Nat}
    (h : S.controlFlow n stack = none) : S.respond n stack ≠ .sat := by
  intro hsat
  have hsome := S.sat n stack hsat
  rw [h] at hsome
  cases hsome

def Solver.path (S : Solver) (fuel n : Nat) (stack : Stack VCExpr Nat) :
    List Nat :=
  match S.controlFlow n stack with
  | some cf => (calculatePath (cf startingProcId) fuel 0).getD []
  | none => []

def Solver.process (S : Solver) (fuel : Nat) : Process VCExpr Nat where
  respond := S.respond
  labels := fun n stack => S.path fuel (n - 1) stack
  getValue := fun _ _ _ => none
  unsatCore := fun _ _ => []
  unsatCore_named := by
    intro n stack name hname
    cases hname

/-- `BeginCheck` asserts the axioms and the negated formula. -/
def beginCheck (vc : VCExpr) (s : ProverState VCExpr Nat) :
    ProverState VCExpr Nat :=
  s.assertAxioms.push.send
    (.assert (.formula (VCExpressionGenerator.not vc)))

/-!
# Formulas in the control-flow encoding
-/

structure Query where
  clo : CommandLineOptions
  program : PassiveProgram
  label2absy : Option (Nat -> Option Absy)
  isPositiveContext : Bool
  axioms : List { e : Expr // e.passive = true }
  ready : (VCGen.controlFlowMode label2absy.isSome).Ready clo

namespace Query

def vc (q : Query) : Option VCExpr :=
  match VCGen.letVCIterative q.clo q.program.blocks (some (.intLit 0))
    q.label2absy q.isPositiveContext with
  | some (vc, _) =>
    some (VCExpressionGenerator.implies (entryCondition q.program) vc)
  | none => none

def IsAxiom (q : Query) (a : Assertion VCExpr Nat) : Prop :=
  exists e t, e ∈ q.axioms ∧ translate e.val = some t ∧ a = .formula t

/-- The axioms are asserted or wait to be asserted, and nothing else is. -/
def Prepared (q : Query) (s : ProverState VCExpr Nat) : Prop :=
  forall a, (a ∈ s.stack.assertions ∨
    exists f, f ∈ s.pendingAxioms ∧ a = .formula f) <-> q.IsAxiom a

/--
The assertion `ac` can fail in the block `last`, in an execution from the first
block in a context in which the axioms hold.
-/
def CanFail (q : Query) (last : Block) (ac : AssertCmd) : Prop :=
  exists (U : Type) (_ : DecidableEq U) (C : Context U) (ρ : Env U),
    (forall e, e ∈ q.axioms -> C.Holds ρ e.val) ∧
      FailsAt C (subsumes q.clo) q.program.blocks ρ last ac
        q.program.start.uniqueId

theorem vc_spec (q : Query) :
    exists vc, q.vc = some vc ∧ forall {U : Type} [DecidableEq U] (C : Context U)
        (cf : Int -> Int -> Int) (η : VCEnv U) (p : Nat -> Prop), FixedPoint.IsSolution
            (VCGen.BlockEquations q.clo q.label2absy.isSome q.program C cf η.state) p ->
          (vc.Holds (vcInterp C cf) η <-> (cf 0 0 = q.program.start.uniqueId ->
              p q.program.start.uniqueId)) := by
  have hblock : forall b, b ∈ q.program.blocks ->
      Generates (VCGen.controlFlowMode q.label2absy.isSome)
        (Wlp.block q.clo b)
        (commandsMeaning q.clo (fun _ => false)
          (VCGen.controlFlowMode q.label2absy.isSome) b b.cmds) :=
    fun b hb => blockOf_generates (fun c hc => cmd_generates q.ready hc)
      (q.program.passive b hb)
  rcases VCGen.letVCIterativeOf_spec q.isPositiveContext q.program q.ready
    hblock rfl with ⟨vc, labels, n, hvc, hmeaning⟩
  have hgenerated : q.vc = some
      (VCExpressionGenerator.implies (entryCondition q.program) vc) := by
    unfold Query.vc VCGen.letVCIterative
    rw [hvc]
  constructor
  · constructor
    · exact hgenerated
    · intro U _ C cf η p hp
      rw [VCExpressionGenerator.holds_implies, holds_entryCondition,
        hmeaning C cf η p hp]

end Query

/-!
# Counterexamples and their paths
-/

section Paths

variable {cf : Int -> Int} {blocks : List Block} {id last k fuel : Nat}
  {path : List Nat}

theorem calculatePath_follows (h : Follows blocks cf id path last)
    (hlast : cf last = -(k : Int)) (hk : 0 < k) (hfuel : path.length < fuel) :
    calculatePath cf fuel id = some (path ++ [k]) := by
  induction h generalizing fuel with
  | stop id =>
    rcases Nat.exists_eq_succ_of_ne_zero (Nat.ne_of_gt hfuel) with ⟨n, rfl⟩
    have hneg : -(k : Int) < 0 := by omega
    simp only [calculatePath, hlast, hneg, if_true, Int.natAbs_neg,
      Int.natAbs_natCast, List.nil_append]
  | jump _ hselected _ ih =>
    rename_i id target last path _ _
    rw [List.length_cons] at hfuel
    rcases Nat.exists_eq_succ_of_ne_zero
      (Nat.ne_of_gt (Nat.lt_of_le_of_lt (Nat.zero_le _) hfuel)) with ⟨n, rfl⟩
    have hrest := ih hlast (Nat.lt_of_succ_lt_succ hfuel)
    have hnonneg : ¬ (target : Int) < 0 := by omega
    simp [calculatePath, hselected, hnonneg, hrest]

theorem failingPair_append (h : path.getLast? = some last) :
    failingPair (path ++ [k]) = some (last, k) := by
  rw [← List.head?_reverse] at h
  rcases List.head?_eq_some_iff.mp h with ⟨rest, hrest⟩
  unfold failingPair
  rw [List.reverse_append, hrest]
  rfl

theorem failingPair_cons {b : Nat} (h : 2 ≤ path.length) :
    failingPair (b :: path) = failingPair path := by
  have hlength : path.reverse.length = path.length := List.length_reverse
  unfold failingPair
  rw [List.reverse_cons]
  cases hrev : path.reverse with
  | nil =>
    rw [hrev] at hlength
    simp only [List.length_nil] at hlength
    omega
  | cons target rest =>
    cases rest with
    | nil =>
      rw [hrev] at hlength
      simp only [List.length_singleton] at hlength
      omega
    | cons source rest => rfl

theorem calculatePath_ne_nil (h : calculatePath cf fuel id = some path) :
    path ≠ [] := by
  cases fuel with
  | zero => cases h
  | succ fuel =>
    rw [calculatePath] at h
    split at h
    · cases h
      exact List.cons_ne_nil _ _
    · split at h
      · cases h
        exact List.cons_ne_nil _ _
      · cases h

theorem calculatePath_mono {fuel' : Nat}
    (h : calculatePath cf fuel id = some path) (hle : fuel ≤ fuel') :
    calculatePath cf fuel' id = some path := by
  induction fuel generalizing id path fuel' with
  | zero => cases h
  | succ fuel ih =>
    rcases Nat.exists_eq_succ_of_ne_zero
      (Nat.ne_of_gt (Nat.lt_of_lt_of_le (Nat.succ_pos fuel) hle)) with
      ⟨n, rfl⟩
    rw [calculatePath] at h ⊢
    by_cases hneg : cf id < 0
    · simpa only [hneg, if_true] using h
    · simp only [hneg, if_false] at h ⊢
      cases hrest : calculatePath cf fuel (cf id).natAbs with
      | none =>
        rw [hrest] at h
        cases h
      | some rest =>
        rw [hrest] at h
        rw [ih hrest (Nat.le_of_succ_le_succ hle)]
        exact h

theorem calculatePath_last {s t : Nat} (h : calculatePath cf fuel id = some path)
    (hpair : failingPair (id :: path) = some (s, t)) : cf s = -(t : Int) := by
  induction fuel generalizing id path with
  | zero => cases h
  | succ fuel ih =>
    rw [calculatePath] at h
    by_cases hneg : cf id < 0
    · simp only [hneg, if_true, Option.some.injEq] at h
      rw [← h] at hpair
      simp only [failingPair, List.reverse_cons, List.reverse_nil,
        List.nil_append, List.singleton_append, Option.some.injEq,
        Prod.mk.injEq] at hpair
      rcases hpair with ⟨rfl, rfl⟩
      omega
    · simp only [hneg, if_false] at h
      cases hrest : calculatePath cf fuel (cf id).natAbs with
      | none =>
        rw [hrest] at h
        cases h
      | some rest =>
        rw [hrest, Option.some.injEq] at h
        rw [← h] at hpair
        have hlength : 2 ≤ ((cf id).natAbs :: rest).length := by
          have hpos := List.length_pos_of_ne_nil (calculatePath_ne_nil hrest)
          rw [List.length_cons]
          omega
        rw [failingPair_cons hlength] at hpair
        exact ih hrest hpair

end Paths

def counterexamples : Enumeration Interpretation (Nat × Nat) where
  shows := fun I pair => exists fuel path,
    calculatePath (I.interp.controlFlow startingProcId) fuel 0 = some path ∧
      failingPair path = some pair
  excludes := fun pair I =>
    I.interp.controlFlow startingProcId pair.1 = -(pair.2 : Int)
  excludes_shown := by
    intro I pair h
    rcases h with ⟨fuel, path, hpath, hpair⟩
    have hlength : 2 ≤ path.length := by
      unfold failingPair at hpair
      split at hpair
      · rename_i target source rest hrev
        have hreverse : path.reverse.length = path.length := List.length_reverse
        rw [hrev] at hreverse
        simp only [List.length_cons] at hreverse
        omega
      · cases hpair
    apply calculatePath_last hpath
    rw [failingPair_cons hlength]
    exact hpair

namespace Query

variable {q : Query} {I : Interpretation} {vc : VCExpr}

structure Solves (q : Query) (vc : VCExpr) (I : Interpretation) : Prop where
  axioms : forall a, q.IsAxiom a -> I.Holds a
  negated : ¬ vc.Holds I.interp I.env

/-- The context in which the failing executions of a solution run. -/
def context (I : Interpretation) : Context I.U where
  interp := I.interp.toInterp
  oldState := I.env.state
  whereExpr := fun _ => none
  call := fun _ _ _ => False
  callFails := fun _ _ => False

theorem Solves.exists_path (hvc : q.vc = some vc) (h : q.Solves vc I) :
    exists path last ac, (forall fuel, q.program.blocks.length < fuel ->
        calculatePath (I.interp.controlFlow startingProcId) fuel 0 = some path) ∧
        failingPair path = some (last.uniqueId, ac.uniqueId) ∧
        0 < last.uniqueId ∧ 0 < ac.uniqueId ∧ q.CanFail last ac := by
  rcases q.vc_spec with ⟨vc', hvc', hmeaning⟩
  rw [hvc] at hvc'
  cases hvc'
  let C := context I
  let cf := I.interp.controlFlow
  have hsolution : exists p, FixedPoint.IsSolution
      (VCGen.BlockEquations q.clo q.label2absy.isSome q.program C cf
        I.env.state) p :=
    FixedPoint.exists_solution q.program.jumps_wellFounded
      (VCGen.blockEquation_local q.clo _ _ q.program C cf I.env.state)
  rcases hsolution with ⟨p, hp⟩
  have hfalse := h.negated
  have hinterp : I.interp = vcInterp C cf := rfl
  rw [hinterp, hmeaning C cf I.env p hp] at hfalse
  push Not at hfalse
  rcases hfalse with ⟨hentry, hstart⟩
  rcases VCGen.exists_path hp hstart with
    ⟨path, last, ac, hpath, hlast, hac, hstop, hfails⟩
  have hmem : q.program.start.uniqueId ∈ q.program.blocks.map Block.uniqueId :=
    List.mem_map_of_mem List.mem_cons_self
  have hpositive := PassiveProgram.assert_positive hlast hac
  have hlength := PassiveProgram.follows_length hpath hmem
  have hcalculated : forall fuel, q.program.blocks.length < fuel ->
      calculatePath (cf startingProcId) fuel 0 =
        some (q.program.start.uniqueId :: (path ++ [ac.uniqueId])) := by
    intro fuel hfuel
    rcases Nat.exists_eq_succ_of_ne_zero (Nat.ne_zero_of_lt hfuel) with
      ⟨n, rfl⟩
    have hrest : calculatePath (cf startingProcId) n
        q.program.start.uniqueId = some (path ++ [ac.uniqueId]) :=
      calculatePath_follows hpath hstop hpositive
        (Nat.lt_of_lt_of_le hlength (Nat.le_of_lt_succ hfuel))
    have hvalue : cf startingProcId ((0 : Nat) : Int) =
        q.program.start.uniqueId := hentry
    have hnonneg : ¬ (q.program.start.uniqueId : Int) < 0 := by omega
    simp only [calculatePath, hvalue, hnonneg, if_false, Int.natAbs_natCast,
      hrest]
  have haxioms : forall e, e ∈ q.axioms -> C.Holds I.env.state e.val := by
    intro e he
    rcases translate_isSome e.property with ⟨t, ht⟩
    have hholds := h.axioms (.formula t) ⟨e, t, he, ht, rfl⟩
    exact (@holds_context _ _ C cf _ _ _ ht).mp hholds
  exact ⟨_, last, ac, hcalculated, failingPair_append hpath.getLast,
    PassiveProgram.block_positive hlast, hpositive,
    I.U, I.decEq, C, I.env.state, haxioms, hfails⟩

theorem CanFail.isolated {last : Block} {ac : AssertCmd} (hvc : q.vc = some vc)
    (h : q.CanFail last ac) :
    exists I, q.Solves vc I ∧ counterexamples.Isolates (q.Solves vc)
      (last.uniqueId, ac.uniqueId) I := by
  rcases q.vc_spec with ⟨vc', hvc', hmeaning⟩
  rw [hvc] at hvc'
  cases hvc'
  rcases h with ⟨U, _, C, ρ, haxioms, hfails⟩
  rcases VCGen.exists_selection q.label2absy.isSome hfails with
    ⟨f, hf⟩
  -- the value at zero, which numbers no block, starts the path
  let cf : Int -> Int -> Int := fun _ i =>
    if i = 0 then q.program.start.uniqueId else f i.toNat
  let η : VCEnv U := VCEnv.withState (fun _ => .bool false) ρ
  let I : Interpretation :=
    { U := U
      decEq := inferInstance
      interp := vcInterp C cf
      env := η
      ints := fun _ => 0
      labels := fun _ => False }
  have hpositive : forall i, Relation.ReflTransGen (Jumps q.program.blocks)
      q.program.start.uniqueId i -> i ≠ 0 := by
    intro i hi
    cases hi with
    | refl =>
      exact Nat.ne_of_gt (PassiveProgram.block_positive List.mem_cons_self)
    | tail _ hjump =>
      rcases List.mem_map.mp (PassiveProgram.jumps_mem hjump) with
        ⟨b, hb, rfl⟩
      exact Nat.ne_of_gt (PassiveProgram.block_positive hb)
  have hcf : forall i : Nat, i ≠ 0 -> forall a, cf a i = f i := by
    intro i hi a
    simp [cf, hi]
  have hsolution : exists p, FixedPoint.IsSolution
      (VCGen.BlockEquations q.clo q.label2absy.isSome q.program C cf η.state)
      p :=
    FixedPoint.exists_solution q.program.jumps_wellFounded
      (VCGen.blockEquation_local q.clo _ _ q.program C cf η.state)
  rcases hsolution with ⟨p, hp⟩
  have hnegated : ¬ vc.Holds (vcInterp C cf) η := by
    rw [hmeaning C cf η p hp]
    intro hstart
    exact hf.falsifies cf (fun i hi => hcf i (hpositive i hi) 0) p hp
      (hstart (by simp [cf]))
  have hsolves : q.Solves vc I := by
    constructor
    · intro a ha
      rcases ha with ⟨e, t, he, ht, rfl⟩
      exact (@holds_context _ _ C cf η _ _ ht).mpr (haxioms e he)
    · exact hnegated
  have hisolates : counterexamples.Isolates (q.Solves vc)
      (last.uniqueId, ac.uniqueId) I := by
    intro pair I' hI' hshows hexcludes
    rcases hI'.exists_path hvc with
      ⟨path, last', ac', hpath, hpair, hlast', hac', _⟩
    rcases hshows with ⟨fuel, path', hpath', hpair'⟩
    have hsame : pair = (last'.uniqueId, ac'.uniqueId) := by
      have hmore := hpath (fuel + q.program.blocks.length + 1) (by omega)
      rw [calculatePath_mono hpath' (by omega), Option.some.injEq] at hmore
      rw [hmore, hpair, Option.some.injEq] at hpair'
      exact hpair'.symm
    subst hsame
    have hvalue : f last'.uniqueId = -(ac'.uniqueId : Int) := by
      rw [← hcf last'.uniqueId (Nat.ne_of_gt hlast') startingProcId]
      exact hexcludes
    have hlast : last'.uniqueId = last.uniqueId := by
      by_contra hne
      have hnonneg := hf.nonnegative last'.uniqueId hne
      omega
    rw [hlast, hf.stops] at hvalue
    have hac : ac'.uniqueId = ac.uniqueId := by omega
    rw [hlast, hac]
  exact ⟨I, hsolves, hisolates⟩

end Query

/-!
# The loop over the counterexamples
-/

section Loop

variable {q : Query} {vc : VCExpr} {S : Solver} {fuel : Nat}
  {s₀ s : ProverState VCExpr Nat} {pairs : List (Nat × Nat)}
  {I : Interpretation}

structure Searching (q : Query) (vc : VCExpr) (pairs : List (Nat × Nat))
    (s : ProverState VCExpr Nat) : Prop where
  asserted : forall a, a ∈ s.stack.assertions <->
    (q.IsAxiom a ∨ a = .formula (VCExpressionGenerator.not vc)) ∨
      exists pair, pair ∈ pairs ∧ a = .blockedPath pair.1 pair.2
  run : counterexamples.Run (q.Solves vc) pairs
  installed : s.currentErrorHandler = true

theorem Searching.satisfies (h : Searching q vc pairs s) :
    I.Satisfies s.stack <-> q.Solves vc I ∧ counterexamples.Avoids pairs I := by
  unfold Interpretation.Satisfies
  constructor
  · intro hall
    constructor
    · constructor
      · exact fun a ha => hall a ((h.asserted a).mpr (Or.inl (Or.inl ha)))
      · exact VCExpressionGenerator.holds_not.mp
          (hall _ ((h.asserted _).mpr (Or.inl (Or.inr rfl))))
    · intro pair hpair
      exact hall (.blockedPath pair.1 pair.2)
        ((h.asserted _).mpr (Or.inr ⟨pair, hpair, rfl⟩))
  · intro hsolves a ha
    rcases (h.asserted a).mp ha with (ha | rfl) | ⟨pair, hpair, rfl⟩
    · exact hsolves.1.axioms a ha
    · exact VCExpressionGenerator.holds_not.mpr hsolves.1.negated
    · exact hsolves.2 pair hpair

theorem Searching.path {cf : Int -> Int -> Int} (hvc : q.vc = some vc)
    (hfuel : q.program.blocks.length < fuel) (h : Searching q vc pairs s)
    (hvalues : S.controlFlow s.queries s.stack = some cf) :
    exists pair, failingPair (S.path fuel s.queries s.stack) = some pair ∧
      counterexamples.Run (q.Solves vc) (pairs ++ [pair]) := by
  rcases S.values s.queries s.stack cf hvalues with ⟨I, hI, rfl⟩
  have hsolves := h.satisfies.mp hI
  rcases hsolves.1.exists_path hvc with
    ⟨path, last, ac, hpath, hpair, _, _, _⟩
  have hlabels : S.path fuel s.queries s.stack = path := by
    unfold Solver.path
    rw [hvalues]
    simp only [hpath fuel hfuel, Option.getD_some]
  have hrun := Enumeration.Run.found h.run hsolves.1 hsolves.2
    ⟨fuel, path, hpath fuel hfuel, hpair⟩
  rw [hlabels]
  exact ⟨_, hpair, hrun⟩

/-- What the loop does with `rounds` errors left.  Every answer but the last one gives
a pair, and the last one does when it is `sat`. -/
structure Found (q : Query) (vc : VCExpr) (S : Solver) (rounds : Nat)
    (pairs : List (Nat × Nat)) (s : ProverState VCExpr Nat)
    (paths : List (List Nat)) (s' : ProverState VCExpr Nat) : Prop where
  reported : s'.reported = s.reported ++ paths
  asked : s.queries < s'.queries
  rounds : s'.queries ≤ s.queries + rounds
  answered : s'.queries ≤ s.queries + (paths.filterMap failingPair).length + 1
  sat : S.respond (s'.queries - 1) s'.stack = .sat ->
    s'.queries = s.queries + (paths.filterMap failingPair).length
  run : counterexamples.Run (q.Solves vc)
    (pairs ++ paths.filterMap failingPair)
  exhausted : S.respond (s'.queries - 1) s'.stack = .unsat ->
    ¬ exists I, q.Solves vc I ∧
      counterexamples.Avoids (pairs ++ paths.filterMap failingPair) I

theorem Searching.block {pair : Nat × Nat} {labels : List Nat} (h : Searching q vc pairs s)
    (hrun : counterexamples.Run (q.Solves vc) (pairs ++ [pair])) :
    Searching q vc (pairs ++ [pair]) ((s.answered.onModel labels).send
        (.assert (.blockedPath pair.1 pair.2))) := by
  constructor
  · intro a
    have hadd : a ∈ ((s.answered.onModel labels).send
        (.assert (.blockedPath pair.1 pair.2))).stack.assertions <->
          (.assert (.blockedPath pair.1 pair.2) : Command VCExpr Nat) =
            .assert a ∨ a ∈ s.stack.assertions := assertions_add
    rw [hadd, h.asserted a]
    constructor
    · intro hor
      rcases hor with hnew | hold | ⟨pair', hmem, ha⟩
      · cases hnew
        exact Or.inr ⟨pair, by simp, rfl⟩
      · exact Or.inl hold
      · exact Or.inr ⟨pair', List.mem_append_left _ hmem, ha⟩
    · intro hor
      rcases hor with hold | ⟨pair', hmem, ha⟩
      · exact Or.inr (Or.inl hold)
      · rcases List.mem_append.mp hmem with hbefore | hlast
        · exact Or.inr (Or.inr ⟨pair', hbefore, ha⟩)
        · rw [List.mem_singleton.mp hlast] at ha
          exact Or.inl (congrArg Command.assert ha.symm)
  · exact hrun
  · exact h.installed

theorem hasLabels_ne_unsat {response : Response}
    (h : hasLabels response.outcome = true) : response ≠ .unsat := by
  rintro rfl
  cases h

theorem Searching.stop (h : Searching q vc pairs s) (rounds : Nat)
    (hlabels : ¬ hasLabels (S.respond s.queries s.stack).outcome = true) :
    Found q vc S (rounds + 1) pairs s [] s.answered where
  reported := (List.append_nil _).symm
  asked := Nat.lt_succ_self _
  rounds := Nat.add_le_add_left (Nat.succ_le_succ (Nat.zero_le _)) _
  answered := Nat.le_refl _
  sat := by
    intro hsat
    have hsat' : S.respond s.queries s.stack = .sat := hsat
    rw [hsat'] at hlabels
    exact absurd rfl hlabels
  run := by
    rw [List.filterMap_nil, List.append_nil]
    exact h.run
  exhausted := by
    intro hunsat hexists
    rw [List.filterMap_nil, List.append_nil] at hexists
    rcases hexists with ⟨I, hI⟩
    exact S.unsat s.queries s.stack hunsat ⟨I, h.satisfies.mpr hI⟩

theorem Searching.run_empty (h : Searching q vc pairs s) :
    counterexamples.Run (q.Solves vc) (pairs ++ [([] : List Nat)].filterMap failingPair) := by
  have hnone : [([] : List Nat)].filterMap failingPair = [] := rfl
  rw [hnone, List.append_nil]
  exact h.run

theorem found_report {labels : List Nat} (rounds : Nat)
    (hlabels : hasLabels (S.respond s.queries s.stack).outcome = true)
    (hsat : S.respond s.queries s.stack = .sat -> (failingPair labels).isSome = true)
    (hrun : counterexamples.Run (q.Solves vc) (pairs ++ [labels].filterMap failingPair)) :
    Found q vc S (rounds + 1) pairs s [labels] (s.answered.onModel labels) where
  reported := rfl
  asked := Nat.lt_succ_self _
  rounds := Nat.add_le_add_left (Nat.succ_le_succ (Nat.zero_le _)) _
  answered := Nat.add_le_add_right (Nat.le_add_right _ _) 1
  sat := by
    intro h
    rcases Option.isSome_iff_exists.mp (hsat h) with ⟨pair, hpair⟩
    rw [List.filterMap_cons_some hpair]
    rfl
  run := hrun
  exhausted := fun hunsat => absurd hunsat (hasLabels_ne_unsat hlabels)

theorem Found.cons {rounds : Nat} {pair : Nat × Nat} {labels : List Nat}
    {paths : List (List Nat)} {s' : ProverState VCExpr Nat} (hpair : failingPair labels = some pair)
    (h : Found q vc S rounds (pairs ++ [pair]) ((s.answered.onModel labels).send
        (.assert (.blockedPath pair.1 pair.2))) paths s') :
    Found q vc S (rounds + 1) pairs s (labels :: paths) s' := by
  have hpairs : pairs ++ (labels :: paths).filterMap failingPair =
      (pairs ++ [pair]) ++ paths.filterMap failingPair := by
    rw [List.filterMap_cons_some hpair, List.append_assoc]
    rfl
  have hlength : ((labels :: paths).filterMap failingPair).length =
      (paths.filterMap failingPair).length + 1 := by
    rw [List.filterMap_cons_some hpair, List.length_cons]
  have hqueries : ((s.answered.onModel labels).send
    (.assert (.blockedPath pair.1 pair.2))).queries = s.queries + 1 := rfl
  constructor
  · rw [h.reported]
    exact List.append_assoc _ [labels] paths
  · exact Nat.lt_of_succ_lt h.asked
  · have hrounds := h.rounds
    rw [hqueries] at hrounds
    omega
  · have hanswered := h.answered
    rw [hqueries] at hanswered
    rw [hlength]
    omega
  · intro hsat
    have hcount := h.sat hsat
    rw [hqueries] at hcount
    rw [hlength]
    omega
  · rw [hpairs]
    exact h.run
  · rw [hpairs]
    exact h.exhausted

theorem checkOutcomeLoop_stop {options : Options} {process : Process VCExpr Nat}
    {globalResult : ProverInterface.Outcome} {rounds : Nat} (hs : s.currentErrorHandler = true)
    (h : ¬ hasLabels (process.respond s.queries s.stack).outcome = true) :
    checkOutcomeLoop process options (rounds + 1) globalResult s = .ok (globalOutcome globalResult
        (process.respond s.queries s.stack).outcome, s.answered) := by
  rw [checkOutcomeLoop, getResponse_installed hs]
  simp only [bind, Except.bind, h, if_false, pure, Except.pure, globalOutcome,
    Bool.false_eq_true]

theorem checkOutcomeLoop_report {options : Options}
    {process : Process VCExpr Nat} {globalResult : ProverInterface.Outcome}
    {rounds : Nat} {labels : List Nat} (hs : s.currentErrorHandler = true)
    (h : hasLabels (process.respond s.queries s.stack).outcome = true)
    (hlabels : process.labels (s.queries + 1) s.stack = labels) (hlast : labels = [] ∨ rounds = 0) :
    checkOutcomeLoop process options (rounds + 1) globalResult s = .ok (globalOutcome globalResult
        (process.respond s.queries s.stack).outcome, s.answered.onModel labels) := by
  have hcond : (labels.isEmpty || decide (rounds = 0)) = true := by
    rcases hlast with rfl | rfl
    · rfl
    · simp
  have hlabels' : process.labels s.answered.queries s.answered.stack =
      labels := hlabels
  rw [checkOutcomeLoop, getResponse_installed hs]
  simp only [bind, Except.bind, h, if_true, pure, Except.pure, globalOutcome,
    hlabels', hcond]

theorem checkOutcomeLoop_block {limit : Int} {process : Process VCExpr Nat}
    {globalResult : ProverInterface.Outcome} {rounds : Nat}
    {labels : List Nat} {pair : Nat × Nat} (hs : s.currentErrorHandler = true)
    (h : hasLabels (process.respond s.queries s.stack).outcome = true)
    (hlabels : process.labels (s.queries + 1) s.stack = labels)
    (hpair : failingPair labels = some pair) (hrounds : rounds ≠ 0) :
    checkOutcomeLoop process ⟨false, limit⟩ (rounds + 1) globalResult s =
      checkOutcomeLoop process ⟨false, limit⟩ rounds (globalOutcome globalResult
          (process.respond s.queries s.stack).outcome) ((s.answered.onModel labels).send
          (.assert (.blockedPath pair.1 pair.2))) := by
  have hlabels' : process.labels s.answered.queries s.answered.stack =
      labels := hlabels
  have hclause : blockingClause ⟨false, limit⟩ labels =
      .ok (.blockedPath pair.1 pair.2 : Assertion VCExpr Nat) := by
    unfold failingPair at hpair
    unfold blockingClause
    split at hpair
    · rename_i target source rest hrev
      cases hpair
      rw [hrev]
      rfl
    · cases hpair
  have hne : labels.isEmpty = false := by
    cases labels with
    | nil => cases hpair
    | cons => rfl
  rw [checkOutcomeLoop, getResponse_installed hs]
  simp only [bind, Except.bind, h, if_true, globalOutcome, hlabels', hne,
    hrounds, hclause, decide_false, Bool.or_false, Bool.false_eq_true, if_false]

theorem checkOutcomeLoop_found {limit : Int} (hvc : q.vc = some vc)
    (hfuel : q.program.blocks.length < fuel) (rounds : Nat) :
    forall (pairs : List (Nat × Nat)) (s : ProverState VCExpr Nat)
      (globalResult : ProverInterface.Outcome), Searching q vc pairs s -> exists s' paths,
        checkOutcomeLoop (S.process fuel) ⟨false, limit⟩ (rounds + 1) globalResult s =
          .ok (globalOutcome globalResult (S.respond s.queries s.stack).outcome, s') ∧
          Found q vc S (rounds + 1) pairs s paths s' := by
  induction rounds with
  | zero =>
    intro pairs s globalResult h
    by_cases hlabels :
        hasLabels (S.respond s.queries s.stack).outcome = true
    · have hrun : counterexamples.Run (q.Solves vc)
          (pairs ++ [S.path fuel s.queries s.stack].filterMap failingPair) ∧
            (S.respond s.queries s.stack = .sat ->
              (failingPair (S.path fuel s.queries s.stack)).isSome = true) := by
        cases hvalues : S.controlFlow s.queries s.stack with
        | none =>
          have hpath : S.path fuel s.queries s.stack = [] := by
            unfold Solver.path
            rw [hvalues]
          rw [hpath]
          exact ⟨h.run_empty, fun hsat => absurd hsat (S.ne_sat hvalues)⟩
        | some cf =>
          rcases h.path hvc hfuel hvalues with ⟨pair, hpair, hrun⟩
          rw [List.filterMap_cons_some hpair, hpair]
          exact ⟨hrun, fun _ => rfl⟩
      exact ⟨_, _, checkOutcomeLoop_report h.installed hlabels rfl
        (Or.inr rfl), found_report 0 hlabels hrun.2 hrun.1⟩
    · exact ⟨_, _, checkOutcomeLoop_stop h.installed hlabels, h.stop 0 hlabels⟩
  | succ rounds ih =>
    intro pairs s globalResult h
    by_cases hlabels :
        hasLabels (S.respond s.queries s.stack).outcome = true
    · cases hvalues : S.controlFlow s.queries s.stack with
      | none =>
        have hpath : (S.process fuel).labels (s.queries + 1) s.stack = [] := by
          simp [Solver.process, Solver.path, hvalues]
        have hrun : counterexamples.Run (q.Solves vc)
            (pairs ++ [([] : List Nat)].filterMap failingPair) :=
          h.run_empty
        exact ⟨_, _, checkOutcomeLoop_report h.installed hlabels hpath
          (Or.inl rfl), found_report (rounds + 1) hlabels
            (fun hsat => absurd hsat (S.ne_sat hvalues)) hrun⟩
      | some cf =>
        rcases h.path hvc hfuel hvalues with ⟨pair, hpair, hrun⟩
        have hblock : checkOutcomeLoop (S.process fuel) ⟨false, limit⟩
            (rounds + 1 + 1) globalResult s = _ :=
          checkOutcomeLoop_block h.installed hlabels rfl hpair
            (Nat.succ_ne_zero rounds)
        rcases ih _ _ (globalOutcome globalResult
            (S.respond s.queries s.stack).outcome) (h.block hrun) with
          ⟨s', paths, hloop, hfound⟩
        have hne : (S.respond s.queries s.stack).outcome ≠
            .undetermined := by
          intro hundetermined
          rw [hundetermined] at hlabels
          cases hlabels
        rw [globalOutcome_globalOutcome hne] at hloop
        exact ⟨s', _, hblock.trans hloop, hfound.cons hpair⟩
    · exact ⟨_, _, checkOutcomeLoop_stop h.installed hlabels,
        h.stop (rounds + 1) hlabels⟩

end Loop

/-!
# A whole check
-/

section Check

variable {q : Query} {vc : VCExpr} {s : ProverState VCExpr Nat}

theorem assertions_foldl_formula {fs : List VCExpr}
    {a : Assertion VCExpr Nat} :
    a ∈ (fs.foldl (fun s f => s.send (.assert (.formula f))) s).stack.assertions
      <-> a ∈ s.stack.assertions ∨ exists f, f ∈ fs ∧ a = .formula f := by
  induction fs generalizing s with
  | nil => simp
  | cons f fs ih =>
    have hsend : a ∈ (s.send (.assert (.formula f))).stack.assertions <->
        (.assert (.formula f) : Command VCExpr Nat) = .assert a ∨
          a ∈ s.stack.assertions := assertions_add
    rw [List.foldl_cons, ih, hsend]
    simp only [List.mem_cons, Command.assert.injEq, exists_eq_or_imp]
    constructor
    · intro h
      rcases h with (hf | hs) | hfs
      · exact Or.inr (Or.inl hf.symm)
      · exact Or.inl hs
      · exact Or.inr (Or.inr hfs)
    · intro h
      rcases h with hs | hf | hfs
      · exact Or.inl (Or.inr hs)
      · exact Or.inl (Or.inl hf.symm)
      · exact Or.inr hfs

theorem Query.Prepared.searching (h : q.Prepared s) :
    Searching q vc [] ((beginCheck vc s).setErrorHandler true) where
  asserted := by
    intro a
    have hpush : a ∈ s.assertAxioms.push.stack.assertions <->
        a ∈ s.assertAxioms.stack.assertions := Iff.rfl
    have haxioms : a ∈ s.assertAxioms.stack.assertions <->
        a ∈ s.stack.assertions ∨
          exists f, f ∈ s.pendingAxioms ∧ a = .formula f :=
      assertions_foldl_formula
    have hstack : ((beginCheck vc s).setErrorHandler true).stack =
        s.assertAxioms.push.stack.add
          (.assert (.formula (VCExpressionGenerator.not vc))) := rfl
    rw [hstack, assertions_add, hpush, haxioms, h a]
    simp only [Command.assert.injEq, List.not_mem_nil, false_and, exists_false,
      or_false]
    rw [or_comm, eq_comm]
  run := Enumeration.Run.start
  installed := rfl

/-- Every answer but the last one gives a pair, and the last one does when it is
`sat`. -/
structure ReportsErrors (q : Query) (S : Solver) (limit : Int)
    (s s' : ProverState VCExpr Nat) (outcome : ProverInterface.Outcome)
    (pairs : List (Nat × Nat)) : Prop where
  rounds : (s'.queries : Int) ≤ s.queries + max limit 1
  outcome : outcome = (S.respond s.queries s.stack).outcome
  distinct : pairs.Nodup
  genuine : forall pair, pair ∈ pairs -> exists last ac,
    pair = (last.uniqueId, ac.uniqueId) ∧ q.CanFail last ac
  answered : s'.queries ≤ s.queries + pairs.length + 1
  sat : S.respond (s'.queries - 1) s'.stack = .sat -> s'.queries = s.queries + pairs.length
  complete : S.respond (s'.queries - 1) s'.stack = .unsat ->
    forall last ac, q.CanFail last ac -> (last.uniqueId, ac.uniqueId) ∈ pairs

theorem Found.reportsErrors {S : Solver} {limit : Int} {rounds : Nat}
    {s' : ProverState VCExpr Nat} {paths : List (List Nat)}
    (hvc : q.vc = some vc) (hrounds : (rounds : Int) = max limit 1)
    (h : Found q vc S rounds [] s paths s') :
    ReportsErrors q S limit s s' (S.respond s.queries s.stack).outcome
      (paths.filterMap failingPair) := by
  have hrun := h.run
  rw [List.nil_append] at hrun
  constructor
  · have hle := h.rounds
    rw [← hrounds]
    omega
  · rfl
  · exact hrun.nodup
  · intro pair hpair
    rcases hrun.shown pair hpair with ⟨I, hI, fuel, path, hpath, hend⟩
    rcases hI.exists_path hvc with ⟨path', last, ac, hpath', hend', _, _, hfails⟩
    have hmore := hpath' (fuel + q.program.blocks.length + 1) (by omega)
    rw [calculatePath_mono hpath (by omega), Option.some.injEq] at hmore
    rw [hmore, hend', Option.some.injEq] at hend
    exact ⟨last, ac, hend.symm, hfails⟩
  · exact h.answered
  · exact h.sat
  · intro hunsat last ac hfails
    rcases hfails.isolated hvc with ⟨I, hI, hisolates⟩
    have hnone := h.exhausted hunsat
    rw [List.nil_append] at hnone
    exact hrun.complete hnone hI hisolates

/--
A check of a formula in the control-flow encoding ends, and the paths that it
reports are followed by the control-flow function.
-/
theorem checkOutcomeCore_reportsErrors (q : Query) (S : Solver) (limit : Int)
    (fuel : Nat) (s : ProverState VCExpr Nat)
    (hfuel : q.program.blocks.length < fuel) (hs : q.Prepared s) :
    exists vc outcome s' paths, q.vc = some vc ∧
      checkOutcomeCore (S.process fuel) ⟨false, limit⟩ (beginCheck vc s) = .ok (outcome, s') ∧
      s'.reported = (beginCheck vc s).reported ++ paths ∧
      ReportsErrors q S limit (beginCheck vc s) s' outcome (paths.filterMap failingPair) := by
  rcases q.vc_spec with ⟨vc, hvc, _⟩
  have herrors : (Options.mk false limit).errorsLeft =
      (max limit 1).toNat := rfl
  have hleft : exists n, (Options.mk false limit).errorsLeft = n + 1 := by
    apply Nat.exists_eq_succ_of_ne_zero
    rw [herrors]
    omega
  rcases hleft with ⟨n, hn⟩
  have hsearching : Searching q vc []
      ((beginCheck vc s).setErrorHandler true) := hs.searching
  rcases @checkOutcomeLoop_found _ _ S _ limit hvc hfuel n []
    ((beginCheck vc s).setErrorHandler true) .undetermined hsearching with
    ⟨s', paths, hloop, hfound⟩
  have hrounds : ((n + 1 : Nat) : Int) = max limit 1 := by
    rw [← hn, herrors]
    omega
  have hreports := hfound.reportsErrors hvc hrounds
  have hcore : checkOutcomeCore (S.process fuel) ⟨false, limit⟩
      (beginCheck vc s) = .ok
        ((S.respond (beginCheck vc s).queries (beginCheck vc s).stack).outcome,
          s'.setErrorHandler false) := by
    unfold checkOutcomeCore
    rw [hn, hloop]
    rfl
  exact ⟨vc, _, s'.setErrorHandler false, paths, hvc, hcore, hfound.reported,
    hreports.rounds, rfl, hreports.distinct, hreports.genuine,
    hreports.answered, hreports.sat, hreports.complete⟩

open Classical in
/-- The prover that decides every query and gives the values of a solution. -/
noncomputable def Solver.oracle : Solver where
  respond := fun _ stack =>
    if exists I : Interpretation, I.Satisfies stack then .sat else .unsat
  controlFlow := fun _ stack =>
    if h : exists I : Interpretation, I.Satisfies stack then
      some h.choose.interp.controlFlow
    else none
  unsat := by
    intro _ stack hunsat hexists
    rw [if_pos hexists] at hunsat
    cases hunsat
  sat := by
    intro _ stack hsat
    by_cases h : exists I : Interpretation, I.Satisfies stack
    · rw [dif_pos h]
      rfl
    · rw [if_neg h] at hsat
      cases hsat
  values := by
    intro _ stack cf hcf
    by_cases h : exists I : Interpretation, I.Satisfies stack
    · rw [dif_pos h, Option.some.injEq] at hcf
      exact ⟨h.choose, h.choose_spec, hcf⟩
    · rw [dif_neg h] at hcf
      cases hcf

/-- The block `assert x; assert y; return`. -/
def twoAssertsBlock : Block where
  uniqueId := 1
  label := "start"
  cmds :=
    [.assertCmd
        { uniqueId := 2
          expr := .ident (.localVariable ⟨"x", .bool⟩)
          attributes := []
          kind := .assertCmd
          origExpr := none },
      .assertCmd
        { uniqueId := 3
          expr := .ident (.localVariable ⟨"y", .bool⟩)
          attributes := []
          kind := .assertCmd
          origExpr := none }]
  transferCmd := .returnCmd

def twoAsserts : Query where
  clo :=
    { useSubsumption := .always
      vcVariety := .dagIterative
      stratifiedInlining := 0 }
  program := PassiveProgram.single twoAssertsBlock (by decide) rfl (by decide)
    (by decide)
  label2absy := none
  isPositiveContext := true
  axioms := []
  ready := by
    constructor
    · simp
    · intro e he
      cases he
      rfl
    · exact Or.inr ⟨rfl, rfl⟩

theorem prepared_initialState : twoAsserts.Prepared initialState := by
  intro a
  constructor
  · intro h
    rcases h with hstack | ⟨f, hf, _⟩
    · simp [initialState, Stack.assertions] at hstack
    · cases hf
  · intro h
    rcases h with ⟨e, t, he, _⟩
    cases he

theorem checkOutcomeCore_reportsErrors_twoAsserts :
    exists vc outcome s' paths, twoAsserts.vc = some vc ∧
      checkOutcomeCore (Solver.oracle.process 2) ⟨false, 5⟩
          (beginCheck vc initialState) = .ok (outcome, s') ∧
      s'.reported = (beginCheck vc initialState).reported ++ paths ∧
      ReportsErrors twoAsserts Solver.oracle 5 (beginCheck vc initialState) s'
        outcome (paths.filterMap failingPair) :=
  checkOutcomeCore_reportsErrors twoAsserts Solver.oracle 5 2 initialState
    (Nat.lt_succ_self 1) prepared_initialState

end Check

end SMTLib

end Boogie
