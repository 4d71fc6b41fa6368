import Boogie.AbsInt.NativeLattice

/-!
# The analysis is sound

The loop of the analysis is a worklist iteration, and what the elements mean is
kept by the abstract transition relation.
-/

namespace Boogie
namespace NativeAbstractInterpretation

variable {B Element U : Type} [DecidableEq U] {C : Context U}
variable {lattice : NativeLattice Element} {meaning : Element -> Env U -> Prop}
variable {ρ ρ' : Env U} {e : Element} {expr : Expr}

structure Lawful (C : Context U) (lattice : NativeLattice Element)
    (meaning : Element -> Env U -> Prop) : Prop where
  refl : forall a, lattice.below a a = true
  trans : forall {a b c}, lattice.below a b = true -> lattice.below b c = true ->
    lattice.below a c = true
  below : forall {a b ρ}, lattice.below a b = true -> meaning a ρ -> meaning b ρ
  join_left : forall a b, lattice.below a (lattice.join a b) = true
  join_right : forall a b, lattice.below b (lattice.join a b) = true
  widen_left : forall a b, lattice.below a (lattice.widen a b) = true
  widen_right : forall a b, lattice.below b (lattice.widen a b) = true
  widen_stabilizes : forall x y : Nat -> Element,
    (forall n, x (n + 1) = lattice.widen (x n) (y n)) ->
    exists n, lattice.below (x (n + 1)) (x n) = true
  constrain : forall {a expr ρ}, meaning a ρ -> C.Holds ρ expr ->
    meaning (lattice.constrain a expr) ρ
  update : forall {a ρ} (assigns : List (Variable × Expr)), meaning a ρ ->
    meaning (lattice.update a assigns)
      (assigned C ρ (assigns.map (fun assign => .simpleAssignLhs assign.1))
        (assigns.map Prod.snd) ρ)
  eliminate : forall {a x ρ ρ'}, meaning a ρ -> ρ'.Rebinds C.interp ρ [x] ->
    meaning (lattice.eliminate a x) ρ'
  toExpr : forall {a ρ}, meaning a ρ -> C.Holds ρ (lattice.toExpr a)

/-!
# The abstract transition relation
-/

theorem conjunctsOf_eq (args : List Expr) :
    conjunctsOf args = args.flatMap conjuncts := by
  induction args with
  | nil => rfl
  | cons ee args ih => rw [conjunctsOf, ih, List.flatMap_cons]

theorem holds_conjuncts (h : C.Holds ρ expr) :
    forall c, c ∈ conjuncts expr -> C.Holds ρ c := by
  induction expr with
  | nary f args ih =>
    intro c hc
    by_cases hand : f = .binary .and
    · rw [hand] at h hc
      rw [conjuncts, conjunctsOf_eq] at hc
      rcases List.mem_flatMap.mp hc with ⟨ee, hee, hc⟩
      refine ih ee hee ?_ c hc
      unfold Context.Holds Expr.Holds at h
      rw [Expr.eval_nary] at h
      -- A binary operator has two arguments.
      match args, hee, h with
      | [a, b], hee, h =>
        have hboth : C.Holds ρ a ∧ C.Holds ρ b := by
          simpa [Interp.apply, BinaryOperator.apply, Context.Holds, Expr.Holds] using h
        rcases List.mem_pair.mp hee with rfl | rfl
        · exact hboth.1
        · exact hboth.2
    · have hsingle : conjuncts (.nary f args) = [.nary f args] := by
        unfold conjuncts
        split
        next heq =>
          injection heq with hf _
          exact absurd hf hand
        next => rfl
      rw [hsingle, List.mem_singleton] at hc
      rw [hc]
      exact h
  | _ =>
    intro c hc
    rw [conjuncts, List.mem_singleton] at hc
    · rw [hc]
      exact h
    · intro args heq
      cases heq

theorem meaning_constrainAll (h : Lawful C lattice meaning) {exprs : List Expr}
    (he : meaning e ρ) (hexprs : forall c, c ∈ exprs -> C.Holds ρ c) :
    meaning (exprs.foldl lattice.constrain e) ρ := by
  induction exprs generalizing e with
  | nil => exact he
  | cons c exprs ih =>
    exact ih (h.constrain he (hexprs c List.mem_cons_self))
      (fun d hd => hexprs d (List.mem_cons_of_mem _ hd))

theorem meaning_eliminateAll (h : Lawful C lattice meaning) {vars : List Variable}
    (he : meaning e ρ) (hbind : ρ'.Rebinds C.interp ρ vars) :
    meaning (vars.foldl lattice.eliminate e) ρ' := by
  induction vars generalizing e ρ with
  | nil =>
    have hsame : ρ' = ρ := funext (fun x => hbind.1 x List.not_mem_nil)
    rw [hsame]
    exact he
  | cons x vars ih =>
    have hfirst : Env.Rebinds C.interp (Function.update ρ x (ρ' x)) ρ [x] := by
      constructor
      · intro y hy
        exact Function.update_of_ne (fun hyx => hy (by rw [hyx]; simp)) _ _
      · intro y hy
        rw [List.mem_singleton.mp hy, Function.update_self]
        exact hbind.2 x List.mem_cons_self
    refine ih (h.eliminate he hfirst) ⟨?_, ?_⟩
    · intro y hy
      by_cases hyx : y = x
      · rw [hyx, Function.update_self]
      · rw [Function.update_of_ne hyx]
        exact hbind.1 y (by simp [hyx, hy])
    · intro y hy
      exact hbind.2 y (List.mem_cons_of_mem _ hy)

theorem asSimpleAssignment_eq (lhs : AssignLhs) (rhs : Expr) :
    (lhs.asSimpleAssignment rhs).1 = lhs.deepAssignedVariable ∧
      C.value ρ (lhs.asSimpleAssignment rhs).2 = lhs.stored C ρ (C.value ρ rhs) := by
  induction lhs generalizing rhs with
  | simpleAssignLhs x => exact ⟨rfl, rfl⟩
  | mapAssignLhs map indexes ih =>
    rw [AssignLhs.asSimpleAssignment, AssignLhs.stored]
    refine ⟨(ih _).1, ?_⟩
    rw [(ih _).2]
    congr 1
    unfold Context.value
    rw [Expr.eval_nary, List.map_cons, List.map_append]
    rfl

theorem assigned_asSimpleAssignCmd (lhss : List AssignLhs) (rhss : List Expr) :
    assigned C ρ ((asSimpleAssignCmd lhss rhss).map (fun a => .simpleAssignLhs a.1))
        ((asSimpleAssignCmd lhss rhss).map Prod.snd) ρ' = assigned C ρ lhss rhss ρ' := by
  induction lhss generalizing rhss ρ' with
  | nil => rfl
  | cons lhs lhss ih =>
    cases rhss with
    | nil => rfl
    | cons rhs rhss =>
      rcases asSimpleAssignment_eq (C := C) (ρ := ρ) lhs rhs with ⟨hvar, hvalue⟩
      rw [asSimpleAssignCmd, List.zipWith_cons_cons, List.map_cons, List.map_cons,
        assigned, assigned, ← hvalue, ← hvar]
      exact ih rhss

mutual

theorem step_sound (h : Lawful C lattice meaning) : (cmd : Cmd) -> {e : Element} ->
    {ρ ρ' : Env U} -> meaning e ρ -> Runs C cmd ρ ρ' -> meaning (step lattice cmd e) ρ'
  | .assignCmd lhss rhss, e, ρ, ρ', he, hrun => by
    rw [Runs] at hrun
    rw [step, hrun, ← assigned_asSimpleAssignCmd]
    exact h.update _ he
  | .havocCmd vars, e, ρ, ρ', he, hrun => by
    rw [Runs] at hrun
    rw [step]
    exact meaning_eliminateAll h he hrun.1
  | .assertCmd expr, e, ρ, ρ', he, hrun => by
    rw [Runs] at hrun
    rw [step, hrun.2]
    exact meaning_constrainAll h he (holds_conjuncts hrun.1)
  | .assumeCmd expr, e, ρ, ρ', he, hrun => by
    rw [Runs] at hrun
    rw [step, hrun.2]
    exact meaning_constrainAll h he (holds_conjuncts hrun.1)
  | .stateCmd locals cmds, e, ρ, ρ', he, hrun => by
    rw [Runs] at hrun
    rcases hrun with ⟨_, ρ₁, hcmds, hbind⟩
    rw [step]
    exact meaning_eliminateAll h (steps_sound h cmds he hcmds) hbind
  | .sugaredCmd desugaring, e, ρ, ρ', he, hrun => by
    rw [Runs] at hrun
    rw [step]
    exact step_sound h desugaring he hrun
  | .commentCmd comment, e, ρ, ρ', he, hrun => by
    rw [Runs] at hrun
    rw [step, hrun]
    exact he

theorem steps_sound (h : Lawful C lattice meaning) : (cmds : List Cmd) ->
    {e : Element} -> {ρ ρ' : Env U} -> meaning e ρ -> AllRun C cmds ρ ρ' ->
    meaning (steps lattice cmds e) ρ'
  | [], e, ρ, ρ', he, hrun => by
    rw [AllRun] at hrun
    rw [steps, hrun]
    exact he
  | cmd :: cmds, e, ρ, ρ', he, hrun => by
    rw [AllRun] at hrun
    rcases hrun with ⟨ρ₁, hcmd, hcmds⟩
    rw [steps]
    exact steps_sound h cmds (step_sound h cmd he hcmd) hcmds

end

/-!
# The loop
-/

section Loop

variable [DecidableEq B] {options : Options} {impl : Implementation B}
variable {s s' : AnalysisState B Element} {start : Element} {initial : Env U -> Prop}

variable (lattice options impl) in
def dataflow : Dataflow B Element where
  below := lattice.below
  combine := fun b iterations pre e =>
    if (impl.blocks b).widenBlock ∧ options.stepsBeforeWidening ≤ iterations then
      lattice.widen pre e
    else lattice.join pre e
  transfer := fun b e => steps lattice (impl.blocks b).cmds e
  targets := fun b => (impl.blocks b).labelTargets

/-- The state of the analysis and that of the iteration.  What was found for the
end of a block belongs to what is known for its entry. -/
structure Tracks (lattice : NativeLattice Element) (options : Options)
    (impl : Implementation B) (s : AnalysisState B Element)
    (d : Dataflow.State B Element) : Prop where
  pre : forall b, s.pre b = some (d.info b)
  post : forall b e, s.post b = some e -> options.instrumentInfer = .everywhere ∧
    e = (dataflow lattice options impl).transfer b (d.info b)
  visited : options.instrumentInfer = .everywhere -> forall b,
    s.post b = none -> d.info b = lattice.bottom
  iterations : s.iterations = d.visits
  workItems : s.workItems = d.queue

variable {d : Dataflow.State B Element} {b : B} {pre : Element}

omit [DecidableEq B] in
theorem tracks_initialState : Tracks lattice options impl (initialState lattice impl start)
    ⟨fun _ => lattice.bottom, fun _ => 0, [(impl.start, start)]⟩ where
  pre := fun _ => rfl
  post := fun _ _ h => by cases h
  visited := fun _ _ _ => rfl
  iterations := rfl
  workItems := rfl

theorem propagate_post (h : (s.pre b).isSome) :
    (propagate lattice options impl s b e).post = if options.instrumentInfer = .everywhere then
        Function.update s.post b (some (steps lattice (impl.blocks b).cmds e))
      else s.post := by
  unfold propagate
  simp only [h, and_true]

theorem Tracks.propagate (h : Tracks lattice options impl s d) :
    Tracks lattice options impl (propagate lattice options impl
        { s with
          pre := Function.update s.pre b (some e)
          iterations := Function.update s.iterations b (s.iterations b + 1) } b e)
      ((dataflow lattice options impl).update d b e) := by
  refine ⟨?_, ?_, ?_, ?_, ?_⟩
  · intro b'
    change Function.update s.pre b (some e) b' = some (Function.update d.info b e b')
    by_cases hb : b' = b
    · rw [hb, Function.update_self, Function.update_self]
    · rw [Function.update_of_ne hb, Function.update_of_ne hb]
      exact h.pre b'
  · intro b' e' hpost
    change options.instrumentInfer = .everywhere ∧
      e' = (dataflow lattice options impl).transfer b' (Function.update d.info b e b')
    rw [propagate_post (by simp)] at hpost
    by_cases hb : b' = b
    · rw [hb] at hpost ⊢
      rw [Function.update_self]
      split at hpost
      next heverywhere =>
        rw [Function.update_self] at hpost
        cases hpost
        exact ⟨heverywhere, rfl⟩
      next hother => exact absurd (h.post b e' hpost).1 hother
    · rw [Function.update_of_ne hb]
      split at hpost
      next =>
        rw [Function.update_of_ne hb] at hpost
        exact h.post b' e' hpost
      next => exact h.post b' e' hpost
  · intro heverywhere b' hpost
    change Function.update d.info b e b' = lattice.bottom
    rw [propagate_post (by simp), if_pos heverywhere] at hpost
    by_cases hb : b' = b
    · rw [hb, Function.update_self] at hpost
      cases hpost
    · rw [Function.update_of_ne hb] at hpost ⊢
      exact h.visited heverywhere b' hpost
  · change Function.update s.iterations b (s.iterations b + 1) = _
    rw [h.iterations]
    rfl
  · change s.workItems ++ _ = _
    rw [h.workItems]
    rfl

theorem Tracks.visit (h : Tracks lattice options impl s d) :
    Tracks lattice options impl (visit lattice options impl s b e)
      ((dataflow lattice options impl).treat d b e) := by
  unfold NativeAbstractInterpretation.visit Dataflow.treat
  rw [h.pre b]
  dsimp only
  by_cases hbelow : lattice.below e (d.info b) = true
  · have hsame : (dataflow lattice options impl).below e (d.info b) = true := hbelow
    rw [if_pos hsame, if_pos hbelow]
    exact h
  · have hother : ¬ (dataflow lattice options impl).below e (d.info b) = true := hbelow
    rw [if_neg hother, if_neg hbelow]
    rw [← h.iterations]
    exact h.propagate

theorem Tracks.step (h : Tracks lattice options impl s d) {rest : List (B × Element)}
    (hitems : s.workItems = (b, e) :: rest) :
    Tracks lattice options impl (NativeAbstractInterpretation.visit lattice options impl
        { s with workItems := rest } b e) ((dataflow lattice options impl).step d) := by
  have hqueue : d.queue = (b, e) :: rest := by
    rw [← h.workItems, hitems]
  have hrest : Tracks lattice options impl { s with workItems := rest }
      { d with queue := rest } := ⟨h.pre, h.post, h.visited, h.iterations, rfl⟩
  unfold Dataflow.step
  rw [hqueue]
  exact hrest.visit

theorem Tracks.loop {fuel : Nat} (h : Tracks lattice options impl s d)
    (hloop : analyzeLoop lattice options impl fuel s = some s') :
    exists k, Tracks lattice options impl s' ((dataflow lattice options impl).run d k) ∧
      s'.workItems = [] := by
  induction fuel generalizing s d with
  | zero => cases hloop
  | succ fuel ih =>
    rw [analyzeLoop] at hloop
    cases hitems : s.workItems with
    | nil =>
      rw [hitems] at hloop
      cases hloop
      exact ⟨0, h, hitems⟩
    | cons item rest =>
      rw [hitems] at hloop
      rcases ih (h.step hitems) hloop with ⟨k, hk, hempty⟩
      exact ⟨k + 1, hk, hempty⟩

theorem Tracks.exists_done {k : Nat} (h : Tracks lattice options impl s d)
    (hempty : ((dataflow lattice options impl).run d k).queue = []) :
    (analyzeLoop lattice options impl (k + 1) s).isSome := by
  induction k generalizing s d with
  | zero =>
    have hitems : s.workItems = [] := h.workItems.trans hempty
    rw [analyzeLoop, hitems]
    rfl
  | succ k ih =>
    rw [analyzeLoop]
    cases hitems : s.workItems with
    | nil => rfl
    | cons item rest => exact ih (h.step hitems) hempty

/-!
# Termination and soundness
-/

variable (options) in
omit [DecidableEq B] in
theorem Lawful.terminating (h : Lawful C lattice meaning) (hcycles : impl.CyclesWiden) :
    (dataflow lattice options impl).Terminating (fun b => (impl.blocks b).widenBlock = true) where
  trans := h.trans
  right := by
    intro b visits pre e
    change lattice.below e (if _ then _ else _) = true
    split
    next => exact h.widen_right pre e
    next => exact h.join_right pre e
  stabilizes := by
    intro b hb
    refine ⟨options.stepsBeforeWidening, ?_⟩
    intro x y visits hvisits hnext
    apply h.widen_stabilizes x y
    intro n
    rw [hnext n]
    exact if_pos ⟨hb, hvisits n⟩
  acyclic := hcycles

omit [DecidableEq B] in
theorem Lawful.sound (h : Lawful C lattice meaning) :
    (dataflow lattice options impl).Sound meaning (fun b => AllRun C (impl.blocks b).cmds) where
  below := h.below
  left := by
    intro b visits pre e ρ hρ
    change meaning (if _ then _ else _) ρ
    split
    next => exact h.below (h.widen_left pre e) hρ
    next => exact h.below (h.join_left pre e) hρ
  right := by
    intro b visits pre e ρ hρ
    change meaning (if _ then _ else _) ρ
    split
    next => exact h.below (h.widen_right pre e) hρ
    next => exact h.below (h.join_right pre e) hρ
  transfer := fun hρ hrun => steps_sound h _ hρ hrun

variable (options impl start) in
omit [DecidableEq B] in
theorem covers_initial (hbottom : forall ρ, ¬ meaning lattice.bottom ρ) :
    Dataflow.Covers (dataflow lattice options impl) meaning (fun b => AllRun C (impl.blocks b).cmds)
      (fun b ρ => b = impl.start ∧ meaning start ρ)
      ⟨fun _ => lattice.bottom, fun _ => 0, [(impl.start, start)]⟩ where
  start := by
    rintro b ρ ⟨rfl, hρ⟩
    exact Or.inr ⟨start, List.mem_singleton_self _, hρ⟩
  targets := fun hρ => absurd hρ (hbottom _)

omit [DecidableEq B] in
theorem Reaches.arrives {initial : Env U -> Prop} (h : Reaches C impl initial b ρ) :
    Dataflow.Arrives (dataflow lattice options impl) (fun b => AllRun C (impl.blocks b).cmds)
      (fun b ρ => b = impl.start ∧ initial ρ) b ρ := by
  induction h with
  | start hρ => exact .start ⟨rfl, hρ⟩
  | goto _ hrun hsucc ih => exact .flow ih hrun hsucc

/-- The final state describes the states that come to a block and those that leave
it. -/
structure Describes (C : Context U) (lattice : NativeLattice Element)
    (options : Options) (impl : Implementation B) (initial : Env U -> Prop)
    (s : AnalysisState B Element) : Prop where
  pre : forall {b ρ}, Reaches C impl initial b ρ ->
    exists e, s.pre b = some e ∧ C.Holds ρ (lattice.toExpr e)
  post : forall {b ρ ρ' e}, Reaches C impl initial b ρ ->
    AllRun C (impl.blocks b).cmds ρ ρ' -> s.post b = some e ->
    C.Holds ρ' (lattice.toExpr e)
  visited : forall {b ρ}, Reaches C impl initial b ρ ->
    options.instrumentInfer = .everywhere -> exists e, s.post b = some e

theorem analyzeLoop_describes (h : Lawful C lattice meaning)
    (hbottom : forall ρ, ¬ meaning lattice.bottom ρ) {fuel : Nat}
    (hloop : analyzeLoop lattice options impl fuel (initialState lattice impl start) =
      some s) : Describes C lattice options impl (meaning start) s := by
  rcases tracks_initialState.loop hloop with ⟨k, hs, hempty⟩
  have hcovers := (covers_initial options impl start hbottom).run h.sound k
  generalize (dataflow lattice options impl).run
    ⟨fun _ => lattice.bottom, fun _ => 0, [(impl.start, start)]⟩ k = d at hs hcovers
  have hdescribes : forall {b ρ}, Reaches C impl (meaning start) b ρ ->
      meaning (d.info b) ρ := fun hreach =>
    hcovers.describes_info (hs.workItems.symm.trans hempty) hreach.arrives
  constructor
  · intro b ρ hreach
    exact ⟨_, hs.pre b, h.toExpr (hdescribes hreach)⟩
  · intro b ρ ρ' e hreach hrun hpost
    rw [(hs.post b e hpost).2]
    exact h.toExpr (steps_sound h _ (hdescribes hreach) hrun)
  · intro b ρ hreach heverywhere
    cases hpost : s.post b with
    | some e => exact ⟨e, rfl⟩
    | none =>
      have hinfo := hdescribes hreach
      rw [hs.visited heverywhere b hpost] at hinfo
      exact absurd hinfo (hbottom ρ)

theorem exists_analyzeLoop [Fintype B] (h : Lawful C lattice meaning)
    (hcycles : impl.CyclesWiden) (options : Options) (start : Element) :
    exists fuel, (analyzeLoop lattice options impl fuel
      (initialState lattice impl start)).isSome := by
  rcases Dataflow.exists_empty (s := ⟨fun _ => lattice.bottom, fun _ => 0,
    [(impl.start, start)]⟩) (h.terminating options hcycles)
    (fun b => Finset.mem_toList.mpr (Finset.mem_univ b)) with ⟨k, hempty⟩
  exact ⟨k + 1, tracks_initialState.exists_done hempty⟩

/-!
# Instrumentation
-/

omit [DecidableEq B] in
theorem allRun_append {cs ds : List Cmd} : AllRun C (cs ++ ds) ρ ρ' <->
    exists ρ₁, AllRun C cs ρ ρ₁ ∧ AllRun C ds ρ₁ ρ' := by
  induction cs generalizing ρ with
  | nil => simp [AllRun]
  | cons c cs ih =>
    rw [List.cons_append, AllRun]
    constructor
    · intro ⟨ρ₁, hc, hrest⟩
      rcases ih.mp hrest with ⟨ρ₂, hcs, hds⟩
      refine ⟨ρ₂, ?_, hds⟩
      rw [AllRun]
      exact ⟨ρ₁, hc, hcs⟩
    · intro ⟨ρ₂, hcs, hds⟩
      rw [AllRun] at hcs
      rcases hcs with ⟨ρ₁, hc, hcs⟩
      exact ⟨ρ₁, hc, ih.mpr ⟨ρ₂, hcs, hds⟩⟩

theorem anyFails_append {cs ds : List Cmd} : AnyFails C (cs ++ ds) ρ <->
    AnyFails C cs ρ ∨ exists ρ₁, AllRun C cs ρ ρ₁ ∧ AnyFails C ds ρ₁ := by
  induction cs generalizing ρ with
  | nil => simp [AllRun, AnyFails]
  | cons c cs ih =>
    rw [List.cons_append, AnyFails, AnyFails]
    constructor
    · intro h
      rcases h with hc | ⟨ρ₁, hc, hrest⟩
      · exact Or.inl (Or.inl hc)
      · rcases ih.mp hrest with hcs | ⟨ρ₂, hcs, hds⟩
        · exact Or.inl (Or.inr ⟨ρ₁, hc, hcs⟩)
        · refine Or.inr ⟨ρ₂, ?_, hds⟩
          rw [AllRun]
          exact ⟨ρ₁, hc, hcs⟩
    · intro h
      rcases h with (hc | ⟨ρ₁, hc, hcs⟩) | ⟨ρ₂, hcs, hds⟩
      · exact Or.inl hc
      · exact Or.inr ⟨ρ₁, hc, ih.mpr (Or.inl hcs)⟩
      · rw [AllRun] at hcs
        rcases hcs with ⟨ρ₁, hc, hcs⟩
        exact Or.inr ⟨ρ₁, hc, ih.mpr (Or.inr ⟨ρ₂, hcs, hds⟩)⟩

theorem allRun_predicateCmd {inv : Option Expr} :
    AllRun C (inv.toList.map (predicateCmd options)) ρ ρ' <->
      ρ' = ρ ∧ forall e, inv = some e -> C.Holds ρ e := by
  cases inv with
  | none => simp [AllRun]
  | some e =>
    unfold predicateCmd
    cases options.instrumentWithAsserts with
    | true =>
      simp only [Option.toList_some, List.map_cons, List.map_nil, AllRun, Runs,
        if_true, Option.some.injEq, forall_eq']
      exact ⟨fun ⟨ρ₁, ⟨he, h₁⟩, h⟩ => ⟨h.trans h₁, he⟩,
        fun ⟨h, he⟩ => ⟨ρ, ⟨he, rfl⟩, h⟩⟩
    | false =>
      simp only [Option.toList_some, List.map_cons, List.map_nil, AllRun, Runs,
        Bool.false_eq_true, if_false, Option.some.injEq, forall_eq']
      exact ⟨fun ⟨ρ₁, ⟨he, h₁⟩, h⟩ => ⟨h.trans h₁, he⟩,
        fun ⟨h, he⟩ => ⟨ρ, ⟨he, rfl⟩, h⟩⟩

theorem not_anyFails_predicateCmd {inv : Option Expr} (h : forall e, inv = some e -> C.Holds ρ e) :
    ¬ AnyFails C (inv.toList.map (predicateCmd options)) ρ := by
  cases inv with
  | none => simp [AnyFails]
  | some e =>
    unfold predicateCmd
    cases options.instrumentWithAsserts with
    | true => simp [AnyFails, Fails, h e rfl]
    | false => simp [AnyFails, Fails]

end Loop

end NativeAbstractInterpretation
end Boogie
