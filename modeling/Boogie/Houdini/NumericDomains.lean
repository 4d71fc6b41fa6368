import Mathlib.Algebra.GroupWithZero.Nat
import Mathlib.Data.List.Forall2
import Mathlib.Order.WellFounded
import Boogie.Foundation.MachineInt
import Boogie.Houdini.AbstractDomain

/-!
# Numeric domains

The states of existential functions over integers, the conditions `Gamma` gives
for them, and the two domains that the relational ones are built from: the
intervals, and one interval for each argument.
-/

namespace Boogie

/-!
# States and conditions
-/

/-- Values of `arity` arguments of type `int` that `AsInt` can read. -/
structure IntState (arity : Nat) where
  values : List Int
  length_eq : values.length = arity
  inRange : forall v, v ∈ values -> MachineInt.InRange v

namespace IntState

def elements {arity : Nat} (state : IntState arity) : List Model.Element :=
  state.values.map .integer

theorem asInt_integer {v : Int} (h : MachineInt.InRange v) :
    (Model.Element.integer v).asInt = some v :=
  if_pos h

theorem mapM_asInt {values : List Int} (h : forall v, v ∈ values -> MachineInt.InRange v) :
    (values.map Model.Element.integer).mapM Model.Element.asInt = some values := by
  induction values with
  | nil => rfl
  | cons v values ih =>
    have htail := ih (fun w hw => h w (List.mem_cons_of_mem v hw))
    rw [List.map_cons, List.mapM_cons, asInt_integer (h v List.mem_cons_self),
      htail]
    rfl

end IntState

/-- The element after all states, `none` when a `Join` throws. -/
def joinAll {D : Type} (join : D -> List Model.Element -> Option D) {arity : Nat}
    (d : D) (states : List (IntState arity)) : Option D :=
  states.foldlM (fun d state => join d state.elements) d

/-- What `Gamma` returns for an element; `none` when it throws. -/
abbrev Condition :=
  List Expr -> Option Expr

namespace Condition

/-- The condition holds for all arguments that have these values. -/
def SatisfiedBy (gamma : Condition) (values : List Int) : Prop :=
  forall {U : Type} [DecidableEq U] (I : Interp U) (ρ₀ ρ : Env U)
    (vars : List Expr),
    vars.map (fun v => v.eval I ρ₀ ρ) = values.map Value.int ->
      exists e, gamma vars = some e ∧ e.Holds I ρ₀ ρ

def Implies (gamma gamma' : Condition) : Prop :=
  forall {U : Type} [DecidableEq U] (I : Interp U) (ρ₀ ρ : Env U)
    (vars : List Expr),
    (exists e, gamma vars = some e ∧ e.Holds I ρ₀ ρ) ->
      exists e, gamma' vars = some e ∧ e.Holds I ρ₀ ρ

def Denotes (gamma : Condition) (mem : List Int -> Prop) : Prop :=
  forall {U : Type} [DecidableEq U] (I : Interp U) (ρ₀ ρ : Env U)
    (vars : List Expr),
    (exists e, gamma vars = some e ∧ e.Holds I ρ₀ ρ) <->
      mem (vars.map (fun v => (v.eval I ρ₀ ρ).toInt))

variable {gamma gamma' : Condition} {mem mem' : List Int -> Prop}

theorem Denotes.satisfiedBy (h : gamma.Denotes mem) {values : List Int}
    (hmem : mem values) : gamma.SatisfiedBy values := by
  intro U _ I ρ₀ ρ vars hvars
  rw [h I ρ₀ ρ vars]
  have hvalues : vars.map (fun v => (v.eval I ρ₀ ρ).toInt) = values := by
    have htoInt := congrArg (List.map Value.toInt) hvars
    rw [List.map_map, List.map_map] at htoInt
    exact htoInt.trans (List.map_id values)
  rwa [hvalues]

theorem Denotes.mem_of_satisfiedBy (h : gamma.Denotes mem) {values : List Int}
    (hvalues : gamma.SatisfiedBy values) : mem values := by
  let I : Interp Unit := ⟨fun _ => "", fun _ _ => .bool false,
    fun _ => .bool false, fun _ => .bool false⟩
  let ρ : Env Unit := fun _ => .bool false
  have heval : (values.map Expr.intLiteral).map (fun v => v.eval I ρ ρ) =
      values.map Value.int := by
    rw [List.map_map]
    apply List.map_congr_left
    intro n _
    exact Expr.eval_literal I ρ ρ (.int n)
  have hmem := (h I ρ ρ _).mp (hvalues I ρ ρ _ heval)
  have htoInt : (values.map Expr.intLiteral).map
      (fun v => (v.eval I ρ ρ).toInt) = values := by
    rw [List.map_map]
    refine (List.map_congr_left ?_).trans (List.map_id values)
    intro n _
    exact @Expr.toInt_intLiteral Unit _ I ρ ρ n
  rwa [htoInt] at hmem

theorem Denotes.implies (h : gamma.Denotes mem) (h' : gamma'.Denotes mem')
    (hmem : forall values, mem values -> mem' values) :
    gamma.Implies gamma' := by
  intro U _ I ρ₀ ρ vars hholds
  rw [h' I ρ₀ ρ vars]
  exact hmem _ ((h I ρ₀ ρ vars).mp hholds)

theorem Implies.refl (gamma : Condition) : gamma.Implies gamma := by
  intro U _ I ρ₀ ρ vars hholds
  exact hholds

theorem Implies.trans {gamma'' : Condition} (h : gamma.Implies gamma')
    (h' : gamma'.Implies gamma'') : gamma.Implies gamma'' := by
  intro U _ I ρ₀ ρ vars hholds
  exact h' I ρ₀ ρ vars (h I ρ₀ ρ vars hholds)

theorem SatisfiedBy.implies {values : List Int} (h : gamma.SatisfiedBy values)
    (himplies : gamma.Implies gamma') : gamma'.SatisfiedBy values := by
  intro U _ I ρ₀ ρ vars hvars
  exact himplies I ρ₀ ρ vars (h I ρ₀ ρ vars hvars)

end Condition

/-!
# Runs of joins
-/

/-- One `Join` with a state that is `allowed`: it succeeds, includes the state
and loses nothing.  The invariant may speak of the states joined so far. -/
def JoinsSoundly {D : Type} (join : D -> List Model.Element -> Option D)
    (gamma : D -> Condition) {arity : Nat}
    (invariant : List (IntState arity) -> D -> Prop)
    (allowed : IntState arity -> Prop) : Prop :=
  forall history d state, invariant history d -> allowed state ->
    exists d', join d state.elements = some d' ∧
      invariant (history ++ [state]) d' ∧
      (gamma d').SatisfiedBy state.values ∧ (gamma d).Implies (gamma d')

section Runs

variable {D : Type} {join : D -> List Model.Element -> Option D}
  {gamma : D -> Condition} {arity : Nat}
  {invariant : List (IntState arity) -> D -> Prop}
  {allowed : IntState arity -> Prop}

theorem joinAll_append (d : D) (states states' : List (IntState arity)) :
    joinAll join d (states ++ states') =
      (joinAll join d states).bind (fun d' => joinAll join d' states') :=
  List.foldlM_append

theorem JoinsSoundly.run (h : JoinsSoundly join gamma invariant allowed)
    (history : List (IntState arity)) {d : D} (hd : invariant history d)
    {states : List (IntState arity)} (hallowed : forall state, state ∈ states -> allowed state) :
    exists d', joinAll join d states = some d' ∧ invariant (history ++ states) d' ∧
      (forall state, state ∈ states -> (gamma d').SatisfiedBy state.values) ∧
      (gamma d).Implies (gamma d') := by
  induction states generalizing history d with
  | nil => exact ⟨d, rfl, by simpa using hd, by simp, Condition.Implies.refl _⟩
  | cons state states ih =>
    rcases h history d state hd (hallowed state List.mem_cons_self) with
      ⟨d1, hjoin, hinv, hstate, hgrows⟩
    rcases ih (history ++ [state]) hinv (fun s hs => hallowed s (List.mem_cons_of_mem state hs)) with
      ⟨d', hall, hinv', hstates, hgrows'⟩
    refine ⟨d', ?_, by simpa using hinv', ?_, hgrows.trans hgrows'⟩
    · show (join d state.elements).bind (fun d1 => joinAll join d1 states) = _
      rw [hjoin]
      exact hall
    · intro s hs
      rcases List.mem_cons.mp hs with rfl | hs
      · exact hstate.implies hgrows'
      · exact hstates s hs

theorem JoinsSoundly.run_of_append (h : JoinsSoundly join gamma invariant allowed)
    {d : D} (hd : invariant [] d) {earlier later : List (IntState arity)} {d' : D}
    (hallowed : forall state, state ∈ earlier ++ later -> allowed state)
    (hrun : joinAll join d (earlier ++ later) = some d') :
    exists e, joinAll join d earlier = some e ∧ (gamma e).Implies (gamma d') := by
  rcases h.run [] hd (fun s hs => hallowed s (List.mem_append_left later hs)) with
    ⟨e, hearlier, hinv, _, _⟩
  rcases h.run earlier hinv
    (fun s hs => hallowed s (List.mem_append_right earlier hs)) with ⟨e', hlater, _, _, himplies⟩
  rw [joinAll_append, hearlier, Option.bind_some, hlater] at hrun
  cases hrun
  exact ⟨e, hearlier, himplies⟩

end Runs

theorem Expr.holds_foldl_and {U : Type} [DecidableEq U] {I : Interp U}
    {ρ₀ ρ : Env U} {A : Type*} {f : A -> Expr} {as : List A} {e : Expr} :
    (as.foldl (fun ret a => Expr.and ret (f a)) e).Holds I ρ₀ ρ <->
      e.Holds I ρ₀ ρ ∧ forall a, a ∈ as -> (f a).Holds I ρ₀ ρ := by
  induction as generalizing e with
  | nil => simp
  | cons a as ih =>
    rw [List.foldl_cons, ih, Expr.holds_and, List.forall_mem_cons, and_assoc]

inductive Expr.BuiltFrom (vars : List Expr) : Expr -> Prop where
  | var {e : Expr} : e ∈ vars -> BuiltFrom vars e
  | literal (l : Literal) : BuiltFrom vars (.literal l)
  | binary (op : BinaryOperator) {e1 e2 : Expr} : BuiltFrom vars e1 ->
      BuiltFrom vars e2 -> BuiltFrom vars (.binary op e1 e2)

namespace Expr.BuiltFrom

variable {vars : List Expr} {e e1 e2 : Expr}

theorem and (h1 : BuiltFrom vars e1) (h2 : BuiltFrom vars e2) :
    BuiltFrom vars (Expr.and e1 e2) := by
  unfold Expr.and
  split
  · exact h2
  · split
    · exact h1
    · split
      · exact literal _
      · exact binary .and h1 h2

theorem passive (h : BuiltFrom vars e)
    (hvars : forall e, e ∈ vars -> e.passive = true) : e.passive = true := by
  induction h with
  | var hmem => exact hvars _ hmem
  | literal l => rfl
  | binary op _ _ ih1 ih2 =>
    simp [Expr.binary, Expr.passive, Expr.passiveArgs, Fun.arityOk, ih1, ih2]

theorem calls (h : BuiltFrom vars e) {name : String} (hname : name ∈ collectFunctions e) :
    name ∈ collectFunctionsOfArgs vars := by
  induction h with
  | @var e hmem =>
    induction vars with
    | nil => cases hmem
    | cons v vars ih =>
      rw [collectFunctionsOfArgs]
      rcases List.mem_cons.mp hmem with rfl | hmem
      · exact List.mem_append_left _ hname
      · exact List.mem_append_right _ (ih hmem)
  | literal l => simp [collectFunctions] at hname
  | binary op _ _ ih1 ih2 =>
    simp only [Expr.binary, collectFunctions, collectFunctionsOfArgs,
      List.append_nil, List.mem_append] at hname
    rcases hname with hname | hname
    · exact ih1 hname
    · exact ih2 hname

end Expr.BuiltFrom

/-!
# Intervals
-/

namespace Intervals

def maxJoin : Nat := 5

end Intervals

structure Intervals where
  upper : Int
  lower : Int
  isBottom : Bool
  nJoin : Nat
  ordered : lower ≤ upper
  counted : nJoin ≤ Intervals.maxJoin + 1
deriving DecidableEq, Repr

namespace Intervals

open MachineInt (minValue maxValue InRange)

def bottom : Intervals :=
  ⟨0, 0, true, 0, le_refl 0, Nat.zero_le _⟩

def joinValue (d : Intervals) (intval : Int) (h : InRange intval) : Intervals :=
  if d.isBottom then
    ⟨intval, intval, false, 1, le_refl intval, by decide⟩
  else if hin : d.lower ≤ intval ∧ intval ≤ d.upper then d
  else if hmax : maxJoin < d.nJoin then
    if hup : d.upper < intval then
      ⟨maxValue, d.lower, false, 1,
        le_trans d.ordered (le_trans (le_of_lt hup) h.2), by decide⟩
    else
      ⟨d.upper, minValue, false, 1, le_trans h.1 (not_lt.mp hup), by decide⟩
  else if hup : d.upper < intval then
    ⟨intval, d.lower, false, d.nJoin + 1, le_trans d.ordered (le_of_lt hup),
      Nat.succ_le_succ (not_lt.mp hmax)⟩
  else
    ⟨d.upper, intval, false, d.nJoin + 1, not_lt.mp hup,
      Nat.succ_le_succ (not_lt.mp hmax)⟩

def join (d : Intervals) : List Model.Element -> Option Intervals
  | [.integer n] => if h : InRange n then some (d.joinValue n h) else none
  | _ => none

/-- There is one variable, `vars[0]`. -/
def gamma (d : Intervals) (vars : List Expr) : Expr :=
  let v := vars.headD .falseExpr
  if d.isBottom then .falseExpr
  else
    let ret :=
      if d.lower ≠ minValue then
        Expr.and .trueExpr (.ge v (.intLiteral d.lower))
      else .trueExpr
    if d.upper ≠ maxValue then Expr.and ret (.le v (.intLiteral d.upper))
    else ret

theorem gamma_builtFrom (d : Intervals) (vars : List Expr) :
    Expr.BuiltFrom vars (d.gamma vars) := by
  have hvar : Expr.BuiltFrom vars (vars.headD .falseExpr) := by
    cases vars with
    | nil => exact Expr.BuiltFrom.literal _
    | cons v vars => exact Expr.BuiltFrom.var List.mem_cons_self
  have hlower : Expr.BuiltFrom vars
      (if d.lower ≠ minValue then
        Expr.and .trueExpr (.ge (vars.headD .falseExpr) (.intLiteral d.lower))
      else .trueExpr) := by
    split
    · exact Expr.BuiltFrom.and (Expr.BuiltFrom.literal _)
        (Expr.BuiltFrom.binary .ge hvar (Expr.BuiltFrom.literal _))
    · exact Expr.BuiltFrom.literal _
  unfold gamma
  split
  · exact Expr.BuiltFrom.literal _
  · dsimp only
    split
    · exact Expr.BuiltFrom.and hlower
        (Expr.BuiltFrom.binary .le hvar (Expr.BuiltFrom.literal _))
    · exact hlower

def domain : IAbstractDomain Intervals where
  bottom := bottom
  join := join
  gamma := gamma
  builtin := []
  gamma_passive := fun d vars hvars => (d.gamma_builtFrom vars).passive hvars
  gamma_calls := fun d vars _ hname =>
    Or.inl ((d.gamma_builtFrom vars).calls hname)

/-- Both ends of the range of `int` stand for infinity. -/
structure Mem (d : Intervals) (z : Int) : Prop where
  nonempty : d.isBottom = false
  lower : d.lower = minValue ∨ d.lower ≤ z
  upper : d.upper = maxValue ∨ z ≤ d.upper

theorem holds_gamma {U : Type} [DecidableEq U] {I : Interp U} {ρ₀ ρ : Env U}
    {d : Intervals} {v : Expr} :
    (d.gamma [v]).Holds I ρ₀ ρ <-> d.Mem (v.eval I ρ₀ ρ).toInt := by
  have hlower : forall e, Expr.Holds I ρ₀ ρ
      (if d.lower ≠ minValue then Expr.and .trueExpr e else .trueExpr) <->
        d.lower = minValue ∨ e.Holds I ρ₀ ρ := by
    intro e
    split
    · next h => simp [Expr.holds_and, h]
    · next h => simp [not_not.mp h]
  cases hbottom : d.isBottom with
  | true =>
    simp only [gamma, hbottom, if_true, Expr.not_holds_falseExpr, false_iff]
    intro hmem
    rw [hmem.nonempty] at hbottom
    cases hbottom
  | false =>
    simp only [gamma, hbottom, Bool.false_eq_true, if_false, List.headD_cons]
    constructor
    · intro h
      split at h
      · next hupper =>
          rw [Expr.holds_and, hlower, Expr.holds_ge, Expr.holds_le] at h
          exact ⟨hbottom, h.1, Or.inr h.2⟩
      · next hupper =>
          rw [hlower, Expr.holds_ge] at h
          exact ⟨hbottom, h, Or.inl (not_not.mp hupper)⟩
    · intro h
      split
      · next hupper =>
          rw [Expr.holds_and, hlower, Expr.holds_ge, Expr.holds_le]
          exact ⟨h.lower, h.upper.resolve_left hupper⟩
      · rw [hlower, Expr.holds_ge]
        exact h.lower

section Join

variable (d : Intervals) {v : Int}

theorem mem_joinValue (h : InRange v) : (d.joinValue v h).Mem v := by
  unfold joinValue
  split
  · exact ⟨rfl, Or.inr (le_refl v), Or.inr (le_refl v)⟩
  · next hbottom =>
      split
      · next hin => exact ⟨by simpa using hbottom, Or.inr hin.1, Or.inr hin.2⟩
      · split
        · split
          · next hup =>
              exact ⟨rfl, Or.inr (le_trans d.ordered (le_of_lt hup)), Or.inl rfl⟩
          · next hup => exact ⟨rfl, Or.inl rfl, Or.inr (not_lt.mp hup)⟩
        · split
          · next hup =>
              exact ⟨rfl, Or.inr (le_trans d.ordered (le_of_lt hup)),
                Or.inr (le_refl v)⟩
          · next hup => exact ⟨rfl, Or.inr (le_refl v), Or.inr (not_lt.mp hup)⟩

theorem le_of_upper (h : InRange v) {z : Int} (hz : d.upper = maxValue ∨ z ≤ d.upper)
    (hup : d.upper < v) : z ≤ v := by
  rcases hz with hmax | hz
  · rw [hmax] at hup
    exact absurd h.2 (not_le.mpr hup)
  · exact le_trans hz (le_of_lt hup)

theorem ge_of_lower (h : InRange v) {z : Int} (hz : d.lower = minValue ∨ d.lower ≤ z)
    (hdown : v < d.lower) : v ≤ z := by
  rcases hz with hmin | hz
  · rw [hmin] at hdown
    exact absurd h.1 (not_le.mpr hdown)
  · exact le_trans (le_of_lt hdown) hz

theorem mem_joinValue_of_mem (h : InRange v) {z : Int} (hz : d.Mem z) :
    (d.joinValue v h).Mem z := by
  unfold joinValue
  split
  · next hbottom =>
      rw [hz.nonempty] at hbottom
      cases hbottom
  · split
    · exact hz
    · next hout =>
        have hdown : ¬ d.upper < v -> v < d.lower := by
          intro hup
          exact not_le.mp (fun hle => hout ⟨hle, not_lt.mp hup⟩)
        split
        · split
          · exact ⟨rfl, hz.lower, Or.inl rfl⟩
          · exact ⟨rfl, Or.inl rfl, hz.upper⟩
        · split
          · next hup => exact ⟨rfl, hz.lower, Or.inr (d.le_of_upper h hz.upper hup)⟩
          · next hup =>
              exact ⟨rfl, Or.inr (d.ge_of_lower h hz.lower (hdown hup)), hz.upper⟩

end Join

def changesLeft (d : Intervals) : Nat :=
  if d.isBottom then 3 * (maxJoin + 1)
  else
    (if d.lower = minValue then 0 else maxJoin + 1) +
      (if d.upper = maxValue then 0 else maxJoin + 1) + (maxJoin + 1 - d.nJoin)

theorem changesLeft_joinValue (d : Intervals) {v : Int} (h : InRange v) :
    d.joinValue v h = d ∨ (d.joinValue v h).changesLeft < d.changesLeft := by
  have hv := h
  have hcounted := d.counted
  unfold InRange at hv
  unfold maxJoin at hcounted
  cases hbottom : d.isBottom with
  | true =>
    apply Or.inr
    rw [joinValue, if_pos hbottom]
    simp only [changesLeft, hbottom, if_true, Bool.false_eq_true, if_false,
      maxJoin]
    split_ifs <;> omega
  | false =>
    rw [joinValue, if_neg (by simp [hbottom])]
    split
    · exact Or.inl rfl
    · next hout =>
        apply Or.inr
        split
        · next hmax =>
            unfold maxJoin at hmax
            split <;>
              simp only [changesLeft, hbottom, Bool.false_eq_true, if_false,
                if_true, maxJoin] <;>
              split_ifs <;> omega
        · next hmax =>
            unfold maxJoin at hmax
            split <;>
              simp only [changesLeft, hbottom, Bool.false_eq_true, if_false,
                maxJoin] <;>
              split_ifs <;> omega

end Intervals

/-!
# One element for each argument
-/

/-- `varVal` is used when the element is not the least one. -/
structure IndependentAttribute (T : Type) where
  isBottom : Bool
  numVars : Nat
  varVal : List T
deriving DecidableEq, Repr

namespace IndependentAttribute

variable {T : Type}

def bottom : IndependentAttribute T :=
  ⟨true, 0, []⟩

def previous (underlying : IAbstractDomain T) (d : IndependentAttribute T)
    (count : Nat) : List T :=
  if d.isBottom then List.replicate count underlying.bottom else d.varVal

def join (underlying : IAbstractDomain T) (d : IndependentAttribute T)
    (state : List Model.Element) : Option (IndependentAttribute T) :=
  if d.isBottom = false ∧ d.numVars ≠ state.length then none
  else
    (((d.previous underlying state.length).zip state).mapM
      (fun p => underlying.join p.1 [p.2])).map
        (fun varVal => ⟨false, state.length, varVal⟩)

def gamma (underlying : IAbstractDomain T) (d : IndependentAttribute T) :
    Condition := fun vars =>
  if d.isBottom then some .falseExpr
  else if d.numVars ≠ vars.length then none
  else some ((d.varVal.zip vars).foldl
    (fun ret p => Expr.and ret (underlying.gamma p.1 [p.2])) .trueExpr)

def HasArity (d : IndependentAttribute T) (arity : Nat) : Prop :=
  d.isBottom = true ∨ d.numVars = arity ∧ d.varVal.length = arity

theorem HasArity.length_previous {underlying : IAbstractDomain T}
    {d : IndependentAttribute T} {arity : Nat} (h : d.HasArity arity) :
    (d.previous underlying arity).length = arity := by
  unfold previous
  split
  · exact List.length_replicate
  · next hbottom =>
      rcases h with h | h
      · exact absurd h hbottom
      · exact h.2

/-!
## Intervals of the arguments
-/

open Intervals (domain)

def Mem (d : IndependentAttribute Intervals) (values : List Int) : Prop :=
  d.isBottom = false ∧ List.Forall₂ Intervals.Mem d.varVal values

inductive Joined : List Intervals -> List Int -> List Intervals -> Prop where
  | nil : Joined [] [] []
  | cons {t : Intervals} {ts ts' : List Intervals} {v : Int} {vs : List Int}
      (h : MachineInt.InRange v) :
      Joined ts vs ts' -> Joined (t :: ts) (v :: vs) (t.joinValue v h :: ts')

namespace Joined

variable {ts ts' : List Intervals} {vs : List Int}

theorem mapM_join (hlength : ts.length = vs.length) (h : forall v, v ∈ vs -> MachineInt.InRange v) :
    exists ts', (ts.zip (vs.map Model.Element.integer)).mapM
        (fun p => Intervals.join p.1 [p.2]) = some ts' ∧ Joined ts vs ts' := by
  induction ts generalizing vs with
  | nil =>
    cases vs with
    | nil => exact ⟨[], rfl, nil⟩
    | cons v vs => cases hlength
  | cons t ts ih =>
    cases vs with
    | nil => cases hlength
    | cons v vs =>
      have hv := h v List.mem_cons_self
      rcases ih (Nat.succ.inj hlength)
        (fun w hw => h w (List.mem_cons_of_mem v hw)) with
        ⟨ts', hrest, hjoined⟩
      refine ⟨t.joinValue v hv :: ts', ?_, cons hv hjoined⟩
      rw [List.map_cons, List.zip_cons_cons, List.mapM_cons, hrest]
      simp [Intervals.join, hv]

theorem length_eq (h : Joined ts vs ts') : ts'.length = vs.length := by
  induction h with
  | nil => rfl
  | cons _ _ ih => rw [List.length_cons, List.length_cons, ih]

theorem mem (h : Joined ts vs ts') : List.Forall₂ Intervals.Mem ts' vs := by
  induction h with
  | nil => exact List.Forall₂.nil
  | cons hv _ ih => exact List.Forall₂.cons (Intervals.mem_joinValue _ hv) ih

theorem mem_of_mem (h : Joined ts vs ts') {zs : List Int}
    (hmem : List.Forall₂ Intervals.Mem ts zs) :
    List.Forall₂ Intervals.Mem ts' zs := by
  induction h generalizing zs with
  | nil => exact hmem
  | cons hv _ ih =>
    cases hmem with
    | cons hhead htail =>
      exact List.Forall₂.cons (Intervals.mem_joinValue_of_mem _ hv hhead)
        (ih htail)

theorem changesLeft (h : Joined ts vs ts') :
    ts' = ts ∨ (ts'.map Intervals.changesLeft).sum < (ts.map Intervals.changesLeft).sum := by
  induction h with
  | nil => exact Or.inl rfl
  | @cons t _ _ _ _ hv _ ih =>
    simp only [List.map_cons, List.sum_cons]
    rcases t.changesLeft_joinValue hv with hsame | hless
    · rw [hsame]
      rcases ih with rfl | ih
      · exact Or.inl rfl
      · exact Or.inr (Nat.add_lt_add_left ih _)
    · apply Or.inr
      rcases ih with rfl | ih
      · exact Nat.add_lt_add_right hless _
      · exact Nat.add_lt_add hless ih

end Joined

structure Extends (d d' : IndependentAttribute Intervals) {arity : Nat}
    (state : IntState arity) : Prop where
  joined : d.join domain state.elements = some d'
  numVars : d'.numVars = arity
  nonempty : d'.isBottom = false
  varVal : Joined (d.previous domain arity) state.values d'.varVal

theorem exists_extends {d : IndependentAttribute Intervals} {arity : Nat}
    (h : d.HasArity arity) (state : IntState arity) :
    exists d', d.Extends d' state := by
  have hlength : state.elements.length = arity := by
    rw [IntState.elements, List.length_map, state.length_eq]
  rcases Joined.mapM_join (h.length_previous.trans state.length_eq.symm)
    state.inRange with ⟨varVal, hmapM, hjoined⟩
  refine ⟨⟨false, arity, varVal⟩, ?_, rfl, rfl, hjoined⟩
  have hmatch : ¬ (d.isBottom = false ∧ d.numVars ≠ state.elements.length) := by
    intro ⟨hbottom, hne⟩
    rcases h with h | h
    · rw [h] at hbottom
      cases hbottom
    · exact hne (h.1.trans hlength.symm)
  rw [join, if_neg hmatch, hlength]
  exact congrArg (Option.map _) hmapM

variable {d d' : IndependentAttribute Intervals} {arity : Nat}

theorem gamma_denotes (h : d.HasArity arity) :
    (d.gamma domain).Denotes d.Mem := by
  intro U _ I ρ₀ ρ vars
  cases hbottom : d.isBottom with
  | true =>
    constructor
    · intro ⟨e, he, hholds⟩
      rw [gamma, if_pos hbottom] at he
      cases he
      exact absurd hholds Expr.not_holds_falseExpr
    · intro hmem
      rw [hmem.1] at hbottom
      cases hbottom
  | false =>
    have hcount : d.numVars = d.varVal.length := by
      rcases h with h | h
      · rw [h] at hbottom
        cases hbottom
      · rw [h.1, h.2]
    have hzip : forall (ts : List Intervals) (vs : List Expr),
        ts.length = vs.length ->
          ((forall p, p ∈ ts.zip vs ->
              (Intervals.gamma p.1 [p.2]).Holds I ρ₀ ρ) <->
            List.Forall₂ Intervals.Mem ts
              (vs.map (fun v => (v.eval I ρ₀ ρ).toInt))) := by
      intro ts
      induction ts with
      | nil =>
        intro vs hlength
        cases vs with
        | nil => simp
        | cons v vs => cases hlength
      | cons t ts ih =>
        intro vs hlength
        cases vs with
        | nil => cases hlength
        | cons v vs =>
          rw [List.zip_cons_cons, List.forall_mem_cons, List.map_cons,
            List.forall₂_cons, Intervals.holds_gamma,
            ih vs (Nat.succ.inj hlength)]
    constructor
    · intro ⟨e, he, hholds⟩
      simp only [gamma, hbottom, Bool.false_eq_true, if_false] at he
      split at he
      · cases he
      · next hvars =>
          cases he
          rw [Expr.holds_foldl_and] at hholds
          exact ⟨hbottom, (hzip d.varVal vars
            (hcount.symm.trans (not_not.mp hvars))).mp hholds.2⟩
    · intro hmem
      have hlength : d.varVal.length = vars.length := by
        simpa using hmem.2.length_eq
      simp only [gamma, hbottom, Bool.false_eq_true, if_false]
      rw [if_neg (not_not.mpr (hcount.trans hlength))]
      refine ⟨_, rfl, ?_⟩
      rw [Expr.holds_foldl_and]
      exact ⟨Expr.holds_trueExpr, (hzip d.varVal vars hlength).mpr hmem.2⟩

variable {state : IntState arity}

theorem Extends.hasArity (h : d.Extends d' state) : d'.HasArity arity :=
  Or.inr ⟨h.numVars, h.varVal.length_eq.trans state.length_eq⟩

theorem Extends.mem (h : d.Extends d' state) : d'.Mem state.values :=
  ⟨h.nonempty, h.varVal.mem⟩

theorem Extends.mem_of_mem (h : d.Extends d' state) {values : List Int}
    (hmem : d.Mem values) : d'.Mem values := by
  have hprevious : d.previous domain arity = d.varVal := by
    rw [previous, hmem.1]
    rfl
  have hjoined := h.varVal
  rw [hprevious] at hjoined
  exact ⟨h.nonempty, hjoined.mem_of_mem hmem.2⟩

theorem eq_of_fields {T : Type} {d d' : IndependentAttribute T}
    (hbottom : d'.isBottom = d.isBottom) (hnum : d'.numVars = d.numVars)
    (hval : d'.varVal = d.varVal) : d' = d := by
  cases d
  cases d'
  simp_all

def changesLeft (d : IndependentAttribute Intervals) (arity : Nat) : Nat :=
  ((d.previous domain arity).map Intervals.changesLeft).sum +
    (if d.isBottom then 1 else 0)

theorem Extends.changesLeft (h : d.Extends d' state) (hd : d.HasArity arity) :
    d' = d ∨ d'.changesLeft arity < d.changesLeft arity := by
  have hprevious : d'.previous domain arity = d'.varVal := by
    rw [previous, h.nonempty]
    rfl
  unfold IndependentAttribute.changesLeft
  rw [hprevious, h.nonempty]
  cases hbottom : d.isBottom with
  | true =>
    apply Or.inr
    rcases h.varVal.changesLeft with hsame | hless
    · rw [hsame]
      simp
    · exact Nat.lt_succ_of_lt hless
  | false =>
    rcases h.varVal.changesLeft with hsame | hless
    · apply Or.inl
      have hd' : d.numVars = arity ∧ d.varVal.length = arity := by
        rcases hd with hd | hd
        · rw [hd] at hbottom
          cases hbottom
        · exact hd
      rw [previous, hbottom] at hsame
      exact eq_of_fields (h.nonempty.trans hbottom.symm)
        (h.numVars.trans hd'.1.symm) hsame
    · exact Or.inr hless

end IndependentAttribute

end Boogie
