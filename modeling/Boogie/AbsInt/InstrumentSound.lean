import Boogie.AbsInt.AnalyzeSound

/-!
# What is inserted holds

The conditions that are inserted hold whenever an execution comes to them, so they
change no verdict.  This relies on the bottom element describing no state, since
the analysis does not start unless it learns more than that.
-/

namespace Boogie
namespace NativeAbstractInterpretation

variable {B Element U : Type} [DecidableEq U] {C : Context U}
variable {lattice : NativeLattice Element} {meaning : Element -> Env U -> Prop}
variable {options : Options} {impl : Implementation B}
variable {s : AnalysisState B Element} {initial : Env U -> Prop}
variable {b : B} {ρ ρ' : Env U} {inv : Expr}

theorem Describes.entryInvariant (h : Describes C lattice options impl initial s)
    (hreach : Reaches C impl initial b ρ)
    (hinv : entryInvariant lattice options impl s b = some inv) : C.Holds ρ inv := by
  unfold NativeAbstractInterpretation.entryInvariant at hinv
  split at hinv
  next =>
    rcases h.pre hreach with ⟨e, hpre, he⟩
    rw [hpre] at hinv
    cases hinv
    exact he
  next => cases hinv

theorem Describes.exitInvariant (h : Describes C lattice options impl initial s)
    (hreach : Reaches C impl initial b ρ) (hrun : AllRun C (impl.blocks b).cmds ρ ρ')
    (hinv : exitInvariant lattice options impl s b = some inv) : C.Holds ρ' inv := by
  unfold NativeAbstractInterpretation.exitInvariant at hinv
  rw [Option.bind_eq_some_iff] at hinv
  rcases hinv with ⟨_, _, hinv⟩
  rw [Option.map_eq_some_iff] at hinv
  rcases hinv with ⟨e, hpost, rfl⟩
  exact h.post hreach hrun hpost

theorem Describes.exists_entryInvariant (h : Describes C lattice options impl initial s)
    (hreach : Reaches C impl initial b ρ) (hplace : (impl.blocks b).widenBlock = true ∨
      options.instrumentInfer = .everywhere) :
    exists inv, NativeAbstractInterpretation.entryInvariant lattice options impl s b =
      some inv := by
  rcases h.pre hreach with ⟨e, hpre, _⟩
  refine ⟨lattice.toExpr e, ?_⟩
  unfold NativeAbstractInterpretation.entryInvariant
  rw [if_pos hplace, hpre]
  rfl

theorem Describes.exists_exitInvariant (h : Describes C lattice options impl initial s)
    (hreach : Reaches C impl initial b ρ) (heverywhere : options.instrumentInfer = .everywhere) :
    exists inv, NativeAbstractInterpretation.exitInvariant lattice options impl s b = some inv := by
  rcases h.exists_entryInvariant hreach (Or.inr heverywhere) with ⟨_, hentry⟩
  rcases h.visited hreach heverywhere with ⟨e, hpost⟩
  refine ⟨lattice.toExpr e, ?_⟩
  unfold NativeAbstractInterpretation.exitInvariant
  rw [hentry, hpost]
  rfl

theorem Describes.allRun_instrument (h : Describes C lattice options impl initial s)
    (hreach : Reaches C impl initial b ρ) :
    AllRun C ((instrument lattice options impl s).blocks b).cmds ρ ρ' <->
      AllRun C (impl.blocks b).cmds ρ ρ' := by
  change AllRun C (_ ++ _ ++ _) ρ ρ' <-> _
  rw [List.append_assoc, allRun_append]
  constructor
  · intro ⟨ρ₁, hentry, hrest⟩
    rw [allRun_predicateCmd] at hentry
    rw [hentry.1, allRun_append] at hrest
    rcases hrest with ⟨ρ₂, hrun, hexit⟩
    rw [allRun_predicateCmd] at hexit
    rw [hexit.1]
    exact hrun
  · intro hrun
    refine ⟨ρ, allRun_predicateCmd.mpr ⟨rfl, ?_⟩, allRun_append.mpr
      ⟨ρ', hrun, allRun_predicateCmd.mpr ⟨rfl, ?_⟩⟩⟩
    · exact fun inv hinv => h.entryInvariant hreach hinv
    · exact fun inv hinv => h.exitInvariant hreach hrun hinv

theorem Describes.anyFails_instrument (h : Describes C lattice options impl initial s)
    (hreach : Reaches C impl initial b ρ) :
    AnyFails C ((instrument lattice options impl s).blocks b).cmds ρ <->
      AnyFails C (impl.blocks b).cmds ρ := by
  change AnyFails C (_ ++ _ ++ _) ρ <-> _
  have hentryHolds : forall inv,
      NativeAbstractInterpretation.entryInvariant lattice options impl s b = some inv ->
        C.Holds ρ inv := fun inv hinv => h.entryInvariant hreach hinv
  rw [List.append_assoc, anyFails_append]
  constructor
  · intro hfails
    rcases hfails with hentry | ⟨ρ₁, hentry, hrest⟩
    · exact absurd hentry (not_anyFails_predicateCmd hentryHolds)
    · rw [allRun_predicateCmd] at hentry
      rw [hentry.1, anyFails_append] at hrest
      rcases hrest with hcmds | ⟨ρ₂, hrun, hexit⟩
      · exact hcmds
      · exact absurd hexit (not_anyFails_predicateCmd
          (fun inv hinv => h.exitInvariant hreach hrun hinv))
  · intro hfails
    exact Or.inr ⟨ρ, allRun_predicateCmd.mpr ⟨rfl, hentryHolds⟩,
      anyFails_append.mpr (Or.inl hfails)⟩

theorem Describes.reaches_instrument (h : Describes C lattice options impl initial s) :
    Reaches C (instrument lattice options impl s) initial b ρ <-> Reaches C impl initial b ρ := by
  constructor
  · intro hreach
    induction hreach with
    | start hρ => exact .start hρ
    | goto _ hrun hsucc ih => exact .goto ih ((h.allRun_instrument ih).mp hrun) hsucc
  · intro hreach
    induction hreach with
    | start hρ => exact .start hρ
    | goto hfrom hrun hsucc ih =>
      exact .goto ih ((h.allRun_instrument hfrom).mpr hrun) hsucc

theorem Describes.wrong_instrument (h : Describes C lattice options impl initial s) :
    Wrong C (instrument lattice options impl s) initial <-> Wrong C impl initial := by
  constructor
  · intro ⟨b, ρ, hreach, hfails⟩
    have hreach' := h.reaches_instrument.mp hreach
    exact ⟨b, ρ, hreach', (h.anyFails_instrument hreach').mp hfails⟩
  · intro ⟨b, ρ, hreach, hfails⟩
    exact ⟨b, ρ, h.reaches_instrument.mpr hreach,
      (h.anyFails_instrument hreach).mpr hfails⟩

variable [DecidableEq B]

/-- The analysis ends, what it inserts holds in the states that come there, and the
verdict is the same. -/
structure Faithful (C : Context U) (lattice : NativeLattice Element)
    (meaning : Element -> Env U -> Prop) (options : Options) (impl : Implementation B)
    (start : Element) : Prop where
  terminates : exists fuel, (analyze lattice options impl start fuel).isSome
  entry : forall {fuel s impl'},
    analyze lattice options impl start fuel = some (s, impl') -> forall b ρ,
      Reaches C impl (meaning start) b ρ ->
      (impl.blocks b).widenBlock = true ∨ options.instrumentInfer = .everywhere ->
      exists inv, entryInvariant lattice options impl s b = some inv ∧ C.Holds ρ inv
  exit : forall {fuel s impl'},
    analyze lattice options impl start fuel = some (s, impl') -> forall b ρ ρ',
      Reaches C impl (meaning start) b ρ -> AllRun C (impl.blocks b).cmds ρ ρ' ->
      options.instrumentInfer = .everywhere ->
      exists inv, exitInvariant lattice options impl s b = some inv ∧ C.Holds ρ' inv
  verdict : forall {fuel s impl'},
    analyze lattice options impl start fuel = some (s, impl') ->
      (Wrong C impl' (meaning start) <-> Wrong C impl (meaning start))

/-- With a bottom element that describes no state. -/
theorem analyze_faithful [Fintype B] (h : Lawful C lattice meaning)
    (hbottom : forall ρ, ¬ meaning lattice.bottom ρ) (hcycles : impl.CyclesWiden)
    (options : Options) (start : Element) :
    Faithful C lattice meaning options impl start := by
  have hdescribes : forall {fuel s impl'},
      analyze lattice options impl start fuel = some (s, impl') ->
        Describes C lattice options impl (meaning start) s ∧
          impl' = instrument lattice options impl s := by
    intro fuel s impl' hanalyze
    unfold analyze at hanalyze
    rw [Option.map_eq_some_iff] at hanalyze
    rcases hanalyze with ⟨_, hloop, heq⟩
    cases heq
    exact ⟨analyzeLoop_describes h hbottom hloop, rfl⟩
  constructor
  · rcases exists_analyzeLoop h hcycles options start with ⟨fuel, hfuel⟩
    refine ⟨fuel, ?_⟩
    unfold analyze
    rw [Option.isSome_map]
    exact hfuel
  · intro fuel s impl' hanalyze b ρ hreach hplace
    have hs := (hdescribes hanalyze).1
    rcases hs.exists_entryInvariant hreach hplace with ⟨inv, hinv⟩
    exact ⟨inv, hinv, hs.entryInvariant hreach hinv⟩
  · intro fuel s impl' hanalyze b ρ ρ' hreach hrun heverywhere
    have hs := (hdescribes hanalyze).1
    rcases hs.exists_exitInvariant hreach heverywhere with ⟨inv, hinv⟩
    exact ⟨inv, hinv, hs.exitInvariant hreach hrun hinv⟩
  · intro fuel s impl' hanalyze
    rcases hdescribes hanalyze with ⟨hs, rfl⟩
    exact hs.wrong_instrument

/-!
# The trivial domain
-/

def trivialDomain : NativeLattice Bool where
  top := true
  bottom := false
  below := fun a b => !a || b
  join := fun a b => if b then b else a
  widen := fun a b => if b then b else a
  constrain := fun element expr => if expr = .falseExpr then false else element
  update := fun element _ => element
  eliminate := fun element _ => element
  toExpr := fun element => .literal (.bool element)

theorem trivialDomain_lawful (C : Context U) :
    Lawful C trivialDomain (fun element _ => element = true) where
  refl := by decide
  trans := by
    intro a b c
    cases a <;> cases b <;> simp [trivialDomain]
  below := by
    intro a b ρ hbelow ha
    rw [ha] at hbelow
    exact hbelow
  join_left := by decide
  join_right := by decide
  widen_left := by decide
  widen_right := by decide
  widen_stabilizes := by
    intro x y hnext
    -- An element that grows is the top after it.
    cases hfirst : x 1 with
    | false => exact ⟨0, by rw [hfirst]; rfl⟩
    | true => exact ⟨1, by rw [hfirst]; exact Bool.or_true _⟩
  constrain := by
    intro a expr ρ ha hexpr
    change (if expr = Expr.falseExpr then false else a) = true
    rw [if_neg, ha]
    rintro rfl
    exact Expr.not_holds_falseExpr hexpr
  update := fun _ ha => ha
  eliminate := fun ha _ => ha
  toExpr := by
    intro a ρ ha
    rw [ha]
    exact Expr.holds_trueExpr

def plainContext : Context Unit where
  interp := ⟨fun _ => "", fun _ _ => .other (), fun _ => .other (), fun _ => .other ()⟩
  oldState := fun _ => .int 0
  whereExpr := fun _ => none
  call := fun _ _ _ => False
  callFails := fun _ _ => False

def counter : Variable := .localVariable ⟨"x", .int⟩

/-- `loop: havoc x; goto loop, exit;  exit: assert x == x;` -/
def loopAndExit : Implementation Bool where
  blocks := fun
    | false => ⟨[.havocCmd [counter]], [false, true], true⟩
    | true => ⟨[.assertCmd (.eq (.ident counter) (.ident counter))], [], false⟩
  start := false

theorem loopAndExit_cyclesWiden : loopAndExit.CyclesWiden := by
  intro b h
  have hnone : forall source target,
      ¬ (target ∈ (loopAndExit.blocks source).labelTargets ∧
        ¬ (loopAndExit.blocks source).widenBlock = true) := by
    intro source target
    cases source with
    | false => exact fun h => h.2 rfl
    | true => exact fun h => List.not_mem_nil h.1
  cases h with
  | single h => exact hnone _ _ h
  | tail _ h => exact hnone _ _ h

theorem analyze_faithful_loopAndExit :
    Faithful plainContext trivialDomain (fun element _ => element = true)
      ⟨.everywhere, 0, false⟩ loopAndExit true :=
  analyze_faithful (trivialDomain_lawful plainContext) (fun _ => by decide)
    loopAndExit_cyclesWiden _ _

/-!
# A bottom element that describes a state
-/

def zeroDomain : NativeLattice Bool where
  top := true
  bottom := false
  below := fun a b => !a || b
  join := fun a b => a || b
  widen := fun a b => a || b
  constrain := fun element _ => element
  update := fun _ _ => true
  eliminate := fun _ _ => true
  toExpr := fun element =>
    if element then .trueExpr else .eq (.ident counter) (.intLiteral 0)

def zeroMeaning (element : Bool) (ρ : Env Unit) : Prop :=
  element = true ∨ ρ counter = .int 0

theorem zeroDomain_lawful : Lawful plainContext zeroDomain zeroMeaning where
  refl := by decide
  trans := by
    intro a b c
    cases a <;> cases b <;> simp [zeroDomain]
  below := by
    intro a b ρ hbelow ha
    cases a with
    | true => exact Or.inl hbelow
    | false => exact Or.inr (ha.resolve_left (by decide))
  join_left := by decide
  join_right := by decide
  widen_left := by decide
  widen_right := by decide
  widen_stabilizes := by
    intro x y hnext
    cases hfirst : x 1 with
    | false => exact ⟨0, by rw [hfirst]; rfl⟩
    | true => exact ⟨1, by rw [hfirst]; exact Bool.or_true _⟩
  constrain := fun ha _ => ha
  update := fun _ _ => Or.inl rfl
  eliminate := fun _ _ => Or.inl rfl
  toExpr := by
    intro a ρ ha
    cases a with
    | true => exact Expr.holds_trueExpr
    | false =>
      have hzero : ρ counter = .int 0 := ha.resolve_left (by decide)
      refine Expr.holds_binary.mpr ?_
      rw [Expr.eval_ident, hzero]
      rfl

/-- `set: x := 1; goto exit;  exit:` -/
def setAndExit : Implementation Bool where
  blocks := fun
    | false => ⟨[.assignCmd [.simpleAssignLhs counter] [.intLiteral 1]], [true], false⟩
    | true => ⟨[], [], false⟩
  start := false

theorem setAndExit_cyclesWiden : setAndExit.CyclesWiden := by
  intro b h
  have hstep : forall source target,
      target ∈ (setAndExit.blocks source).labelTargets ∧
        ¬ (setAndExit.blocks source).widenBlock = true ->
      source = false ∧ target = true := by
    intro source target hedge
    cases source with
    | false => exact ⟨rfl, List.mem_singleton.mp hedge.1⟩
    | true => exact absurd hedge.1 List.not_mem_nil
  cases b with
  | false =>
    rcases Relation.TransGen.tail'_iff.mp h with ⟨c, _, hlast⟩
    exact absurd (hstep _ _ hlast).2 (by decide)
  | true =>
    rcases Relation.TransGen.head'_iff.mp h with ⟨c, hfirst, _⟩
    exact absurd (hstep _ _ hfirst).1 (by decide)

/-- The first block is not analysed, and its target is said to have the counter at
zero. -/
theorem not_faithful_of_bottom :
    Lawful plainContext zeroDomain zeroMeaning ∧ setAndExit.CyclesWiden ∧
      ¬ Faithful plainContext zeroDomain zeroMeaning ⟨.everywhere, 0, false⟩ setAndExit false := by
  refine ⟨zeroDomain_lawful, setAndExit_cyclesWiden, ?_⟩
  intro h
  have hstart : Reaches plainContext setAndExit (zeroMeaning false) false
      (fun _ => .int 0) := .start (Or.inr rfl)
  have hrun : AllRun plainContext (setAndExit.blocks false).cmds (fun _ => .int 0)
      (Function.update (fun _ => .int 0) counter (.int 1)) := by
    change exists ρ₁, Runs plainContext (.assignCmd _ _) _ ρ₁ ∧ AllRun plainContext [] ρ₁ _
    have hone : plainContext.value (fun _ => .int 0) (.intLiteral 1) = .int 1 :=
      Expr.eval_literal _ _ _ _
    rw [← hone]
    exact ⟨_, rfl, rfl⟩
  have hreach := Reaches.goto hstart hrun (List.mem_singleton_self true)
  have hanalyze : analyze zeroDomain ⟨.everywhere, 0, false⟩ setAndExit false 2 =
      some (_, _) := rfl
  rcases h.entry hanalyze true _ hreach (Or.inr rfl) with ⟨inv, hinv, hholds⟩
  cases hinv
  have heq := Expr.holds_binary.mp hholds
  rw [Expr.eval_ident, Function.update_self, Expr.intLiteral, Expr.eval_literal] at heq
  exact absurd heq (by decide)

end NativeAbstractInterpretation
end Boogie
