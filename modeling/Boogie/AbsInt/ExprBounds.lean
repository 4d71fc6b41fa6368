import Boogie.AbsInt.PartiallyEvaluateSound

/-!
# Bounds of expressions

The value of a well-typed expression over integers and Booleans is within the
evaluated bounds if no step is one that goes wrong, and an assignment of such
expressions leads to the updated state.
-/

namespace Boogie
namespace AbstractInterpretation

theorem eq_bool_of_type {K : Type*} {x : Value K} (h : x.type = .bool) :
    exists p, x = .bool p := by
  cases x with
  | bool p => exact ⟨p, rfl⟩
  | _ => cases h

theorem eq_int_of_type {K : Type*} {x : Value K} (h : x.type = .int) :
    exists z, x = .int z := by
  cases x with
  | int z => exact ⟨z, rfl⟩
  | _ => cases h

variable {K : Type*} [Field K] [LinearOrder K]
variable {Variable : Type*} {types : Variable -> Ty}

/-!
# Expressions
-/

def Numeric (t : Ty) : Prop :=
  t = .int ∨ t = .real

def OperandTypes : BinaryOp -> Ty -> Ty -> Prop
  | .and, s, t => s = .bool ∧ t = .bool
  | .or, s, t => s = .bool ∧ t = .bool
  | .imp, s, t => s = .bool ∧ t = .bool
  | .iff, s, t => s = .bool ∧ t = .bool
  | .eq, s, t => s = t
  | .neq, s, t => s = t
  | .div, s, t => s = .int ∧ t = .int
  | .mod, s, t => s = .int ∧ t = .int
  | .pow, s, t => s = .real ∧ t = .real
  | _, s, t => s = t ∧ Numeric s

def WellTyped (types : Variable -> Ty) : Expr Variable -> Prop
  | .literal _ => True
  | .ident _ => True
  | .unary .neg a => WellTyped types a ∧ Numeric (a.type types)
  | .unary .not a => WellTyped types a ∧ a.type types = .bool
  | .binary op a b =>
    WellTyped types a ∧ WellTyped types b ∧
      OperandTypes op (a.type types) (b.type types)
  | .ifThenElse c a b =>
    WellTyped types c ∧ WellTyped types a ∧ WellTyped types b ∧
      c.type types = .bool ∧ a.type types = b.type types
  | .identity a => WellTyped types a
  | .other _ => True

def Integral (types : Variable -> Ty) : Expr Variable -> Prop
  | .literal (.bigDec _) => False
  | .literal _ => True
  | .ident v => types v = .bool ∨ types v = .int
  | .unary _ a => Integral types a
  | .binary op a b =>
    op ≠ .realDiv ∧ op ≠ .pow ∧ Integral types a ∧ Integral types b
  | .ifThenElse c a b => Integral types c ∧ Integral types a ∧ Integral types b
  | .identity a => Integral types a
  | .other _ => False

/-!
# States
-/

variable [LinearOrder Variable] {node : List (Node Variable)}

/-- What holds of the states of the domain: the bounds of a Boolean variable say
that it is true, that it is false, or nothing. -/
structure IntervalState (types : Variable -> Ty) (node : List (Node Variable)) :
    Prop where
  wellFormed : WellFormed node
  boolean : forall v, types v = .bool -> OneSided (Node.getBounds node v)

/-- The assignment has the declared types and satisfies the state. -/
structure Satisfies (types : Variable -> Ty) (node : List (Node Variable))
    (σ : Variable -> Value K) : Prop where
  typed : forall v, (σ v).type = types v
  values : (fun v => (σ v).num) ∈ (Element.e node).denote

theorem Satisfies.within {σ : Variable -> Value K} (hnode : IntervalState types node)
    (h : Satisfies types node σ) (v : Variable) :
    Within (Node.getBounds node v) (σ v).num :=
  (mem_denote_iff hnode.wellFormed.sorted _).mp h.values v

/-- No step of the visitor is one that goes wrong: no operand of a negation has
exactly one bound, and no product of operands with negative lower bounds can be
above that of the lower bounds. -/
def StepsExact (types : Variable -> Ty) (node : List (Node Variable)) :
    Expr Variable -> Prop
  | .unary op a =>
    StepsExact types node a ∧
      (op = .neg -> NegExact (partiallyEvaluate types node a))
  | .binary op a b =>
    StepsExact types node a ∧ StepsExact types node b ∧
      (op = .mul -> MulExact (partiallyEvaluate types node a)
        (partiallyEvaluate types node b))
  | .ifThenElse c a b =>
    StepsExact types node c ∧ StepsExact types node a ∧ StepsExact types node b
  | .identity a => StepsExact types node a
  | _ => True

/-!
# Types
-/

section Types

variable {σ : Variable -> Value K}

omit [LinearOrder K] in
theorem type_evalUnary {op : UnaryOp} {x w : Value K} (h : evalUnary op x = some w) :
    w.type = if op = .not then .bool else x.type := by
  cases op with
  | neg =>
    cases x with
    | int z =>
      cases h
      rfl
    | real r =>
      cases h
      rfl
    | bool p => cases h
    | other => cases h
  | not =>
    cases x with
    | bool p =>
      cases h
      rfl
    | int z => cases h
    | real r => cases h
    | other => cases h

omit [LinearOrder Variable] in
theorem type_evalBinary {op : BinaryOp} {x y w : Value K} {a b : Expr Variable}
    (hx : x.type = a.type types) (h : evalBinary op x y = some w) :
    w.type = (Expr.binary op a b).type types := by
  cases x with
  | bool p =>
    cases y with
    | bool q =>
      cases op with
      | and | or | imp | iff | eq | neq =>
        cases h
        rfl
      | _ => cases h
    | _ => cases h
  | int m =>
    cases y with
    | int n =>
      cases op with
      | and | or | imp | iff | pow => cases h
      | add | sub | mul =>
        cases h
        exact hx
      | eq | neq | le | lt | ge | gt =>
        cases h
        rfl
      | div | mod | realDiv =>
        change (if n = 0 then none else _) = some w at h
        split at h
        next => cases h
        next =>
          cases h
          rfl
    | _ => cases h
  | real m =>
    cases y with
    | real n =>
      cases op with
      | and | or | imp | iff | pow | div | mod => cases h
      | add | sub | mul =>
        cases h
        exact hx
      | eq | neq | le | lt | ge | gt =>
        cases h
        rfl
      | realDiv =>
        change (if n = 0 then none else _) = some w at h
        split at h
        next => cases h
        next =>
          cases h
          rfl
    | _ => cases h
  | other => cases h

omit [LinearOrder Variable] in
theorem type_eval (htyped : forall v, (σ v).type = types v) (e : Expr Variable)
    (hwell : WellTyped types e) {w : Value K} (h : eval σ e = some w) :
    w.type = e.type types := by
  induction e generalizing w with
  | literal l =>
    cases h
    cases l with
    | bigNum n => rfl
    | bigDec d => rfl
    | bool p => rfl
  | ident v =>
    cases h
    exact htyped v
  | unary op a ih =>
    rw [eval, Option.bind_eq_some_iff] at h
    rcases h with ⟨x, hx, hw⟩
    have htype := type_evalUnary hw
    cases op with
    | neg => exact htype.trans (ih hwell.1 hx)
    | not => exact htype
  | binary op a b iha ihb =>
    rw [eval, Option.bind_eq_some_iff] at h
    rcases h with ⟨x, hx, h⟩
    rw [Option.bind_eq_some_iff] at h
    rcases h with ⟨y, _, hw⟩
    exact type_evalBinary (iha hwell.1 hx) hw
  | ifThenElse c a b ihc iha ihb =>
    rw [eval] at h
    split at h
    next => exact iha hwell.2.1 h
    next => exact (ihb hwell.2.2.1 h).trans hwell.2.2.2.2.symm
    next => cases h
  | identity a ih => exact ih hwell h
  | other t => cases h

omit [LinearOrder Variable] in
theorem type_integral (e : Expr Variable) (hwell : WellTyped types e)
    (h : Integral types e) : e.type types = .bool ∨ e.type types = .int := by
  induction e with
  | literal l =>
    cases l with
    | bigNum n => exact Or.inr rfl
    | bigDec d => exact h.elim
    | bool p => exact Or.inl rfl
  | ident v => exact h
  | unary op a ih =>
    cases op with
    | neg => exact ih hwell.1 h
    | not => exact Or.inl rfl
  | binary op a b iha ihb =>
    cases op with
    | add | sub | mul => exact iha hwell.1 h.2.2.1
    | div | mod => exact Or.inr rfl
    | realDiv => exact absurd rfl h.1
    | pow => exact absurd rfl h.2.1
    | _ => exact Or.inl rfl
  | ifThenElse c a b ihc iha ihb => exact iha hwell.2.1 h.2.1
  | identity a ih => exact ih hwell h
  | other t => exact h.elim

end Types

/-!
# Boolean operators
-/

theorem oneSided_visitIff (b c : Bounds) : OneSided (visitIff b c) :=
  oneSided_ite oneSided_isTrue (oneSided_ite oneSided_isTrue
    (oneSided_ite oneSided_isFalse (oneSided_ite oneSided_isFalse
      oneSided_unknown)))

theorem oneSided_visitEq (bool : Bool) (b c : Bounds) :
    OneSided (visitEq bool b c) :=
  oneSided_ite (oneSided_visitIff b c) (oneSided_ite oneSided_isFalse
    (oneSided_ite oneSided_isFalse (oneSided_ite oneSided_isTrue
      oneSided_unknown)))

theorem oneSided_visitLe (b c : Bounds) : OneSided (visitLe b c) :=
  oneSided_ite oneSided_isTrue (oneSided_ite oneSided_isFalse oneSided_unknown)

theorem oneSided_visitLt (b c : Bounds) : OneSided (visitLt b c) :=
  oneSided_ite oneSided_isTrue (oneSided_ite oneSided_isFalse oneSided_unknown)

theorem oneSided_partiallyEvaluate (hnode : IntervalState types node)
    (e : Expr Variable) (hwell : WellTyped types e) (htype : e.type types = .bool) :
    OneSided (partiallyEvaluate types node e) := by
  induction e with
  | literal l =>
    cases l with
    | bigNum n => cases htype
    | bigDec d => cases htype
    | bool p =>
      cases p with
      | true => exact oneSided_isTrue
      | false => exact oneSided_isFalse
  | ident v =>
    change types v = .bool at htype
    rw [partiallyEvaluate, htype]
    exact hnode.boolean v htype
  | unary op a ih =>
    cases op with
    | neg =>
      change a.type types = .bool at htype
      rcases hwell.2 with hint | hreal
      · rw [htype] at hint
        cases hint
      · rw [htype] at hreal
        cases hreal
    | not => exact (ih hwell.1 hwell.2).swap
  | binary op a b iha ihb =>
    cases op with
    | add | sub | mul =>
      change a.type types = .bool at htype
      rcases hwell.2.2.2 with hint | hreal
      · rw [htype] at hint
        cases hint
      · rw [htype] at hreal
        cases hreal
    | div | mod | realDiv | pow => cases htype
    | and | or | imp =>
      exact oneSided_ite (by first
          | exact oneSided_isTrue
          | exact oneSided_isFalse)
        (oneSided_ite (by first
          | exact oneSided_isTrue
          | exact oneSided_isFalse) oneSided_unknown)
    | iff => exact oneSided_visitIff _ _
    | eq => exact oneSided_visitEq _ _ _
    | neq => exact (oneSided_visitEq _ _ _).swap
    | le => exact oneSided_visitLe _ _
    | gt => exact (oneSided_visitLe _ _).swap
    | lt => exact oneSided_visitLt _ _
    | ge => exact (oneSided_visitLt _ _).swap
  | ifThenElse c a b ihc iha ihb =>
    have ha := iha hwell.2.1 htype
    have hb := ihb hwell.2.2.1 (hwell.2.2.2.2.symm.trans htype)
    refine oneSided_ite ha (oneSided_ite hb ?_)
    rcases ha with ha | ha | ha
    · rw [ha]
      exact oneSided_unknown
    · rw [ha]
      rcases hb with hb | hb | hb
      · rw [hb]
        exact oneSided_unknown
      · rw [hb]
        exact oneSided_isTrue
      · rw [hb]
        exact oneSided_unknown
    · rw [ha]
      rcases hb with hb | hb | hb
      · rw [hb]
        exact oneSided_unknown
      · rw [hb]
        exact oneSided_unknown
      · rw [hb]
        exact oneSided_isFalse
  | identity a ih => exact ih hwell htype
  | other t => exact oneSided_unknown

section Booleans

variable {K : Type*} [Field K] [LinearOrder K] [IsStrictOrderedRing K]
variable {b c : Bounds} {p q : Bool}

structure Decides (b : Bounds) (p : Bool) : Prop where
  isTrue : b.1.isSome = true -> p = true
  isFalse : b.2.isSome = true -> p = false

theorem OneSided.decides (h : OneSided b)
    (hp : Within b (Value.bool p : Value K).num) : Decides b p := by
  rcases h.cases_of_within hp with rfl | ⟨rfl, rfl⟩ | ⟨rfl, rfl⟩
  · exact ⟨fun h => (by cases h), fun h => (by cases h)⟩
  · exact ⟨fun _ => rfl, fun h => (by cases h)⟩
  · exact ⟨fun h => (by cases h), fun _ => rfl⟩

omit [IsStrictOrderedRing K] in
theorem within_isTrue_of (h : p = true) :
    Within isTrue (Value.bool p : Value K).num := by
  rw [h]
  exact within_isTrue

theorem within_isFalse_of (h : p = false) :
    Within isFalse (Value.bool p : Value K).num := by
  rw [h]
  exact within_isFalse

theorem and_sound (hb : Decides b p) (hc : Decides c q) :
    Within (visitBinary true .and b c) (Value.bool (p && q) : Value K).num := by
  rw [visitBinary]
  split
  next h =>
    rw [Bool.or_eq_true] at h
    apply within_isFalse_of
    rcases h with h | h
    · rw [hb.isFalse h, Bool.false_and]
    · rw [hc.isFalse h, Bool.and_false]
  next =>
    split
    next h =>
      rw [Bool.and_eq_true] at h
      apply within_isTrue_of
      rw [hb.isTrue h.1, hc.isTrue h.2, Bool.and_self]
    next => exact within_unknown _

theorem or_sound (hb : Decides b p) (hc : Decides c q) :
    Within (visitBinary true .or b c) (Value.bool (p || q) : Value K).num := by
  rw [visitBinary]
  split
  next h =>
    rw [Bool.or_eq_true] at h
    apply within_isTrue_of
    rcases h with h | h
    · rw [hb.isTrue h, Bool.true_or]
    · rw [hc.isTrue h, Bool.or_true]
  next =>
    split
    next h =>
      rw [Bool.and_eq_true] at h
      apply within_isFalse_of
      rw [hb.isFalse h.1, hc.isFalse h.2, Bool.or_self]
    next => exact within_unknown _

theorem imp_sound (hb : Decides b p) (hc : Decides c q) :
    Within (visitBinary true .imp b c) (Value.bool (!p || q) : Value K).num := by
  rw [visitBinary]
  split
  next h =>
    rw [Bool.or_eq_true] at h
    apply within_isTrue_of
    rcases h with h | h
    · rw [hb.isFalse h, Bool.not_false, Bool.true_or]
    · rw [hc.isTrue h, Bool.or_true]
  next =>
    split
    next h =>
      rw [Bool.and_eq_true] at h
      apply within_isFalse_of
      rw [hb.isTrue h.1, hc.isFalse h.2, Bool.not_true, Bool.or_self]
    next => exact within_unknown _

theorem iff_sound (hb : Decides b p) (hc : Decides c q) :
    Within (visitIff b c) (Value.bool (p == q) : Value K).num := by
  unfold visitIff
  split
  next h =>
    rw [Bool.and_eq_true] at h
    apply within_isTrue_of
    rw [hb.isTrue h.1, hc.isTrue h.2]
    rfl
  next =>
    split
    next h =>
      rw [Bool.and_eq_true] at h
      apply within_isTrue_of
      rw [hb.isFalse h.1, hc.isFalse h.2]
      rfl
    next =>
      split
      next h =>
        rw [Bool.and_eq_true] at h
        apply within_isFalse_of
        rw [hb.isTrue h.1, hc.isFalse h.2]
        rfl
      next =>
        split
        next h =>
          rw [Bool.and_eq_true] at h
          apply within_isFalse_of
          rw [hb.isFalse h.1, hc.isTrue h.2]
          rfl
        next => exact within_unknown _

theorem bool_sound (hb : Decides b p) (hc : Decides c q) {op : BinaryOp}
    {w : Value K} (h : evalBool op p q = some w) :
    Within (visitBinary true op b c) w.num := by
  cases op with
  | and =>
    cases h
    exact and_sound hb hc
  | or =>
    cases h
    exact or_sound hb hc
  | imp =>
    cases h
    exact imp_sound hb hc
  | iff =>
    cases h
    exact iff_sound hb hc
  | eq =>
    cases h
    exact iff_sound hb hc
  | neq =>
    cases h
    exact (oneSided_visitIff b c).within_swap (iff_sound hb hc)
  | _ => cases h

theorem int_sound {x y : Int} (hx : Within b x) (hy : Within c y) {op : BinaryOp}
    (hreal : op ≠ .realDiv) (hexact : op = .mul -> MulExact b c) {w : Value K}
    (h : evalInt op x y = some w) : Within (visitBinary false op b c) w.num := by
  cases op with
  | add =>
    cases h
    exact within_int.mpr (add_sound hx hy)
  | sub =>
    cases h
    exact within_int.mpr (sub_sound hx hy)
  | mul =>
    cases h
    exact within_int.mpr (mul_sound (hexact rfl) hx hy)
  | div =>
    change (if y = 0 then none else _) = some w at h
    split at h
    next => cases h
    next =>
      cases h
      exact within_int.mpr (div_sound hx hy)
  | mod =>
    change (if y = 0 then none else _) = some w at h
    split at h
    next => cases h
    next hne =>
      cases h
      exact within_int.mpr (mod_sound hy hne)
  | realDiv => exact absurd rfl hreal
  | eq =>
    cases h
    exact visitEq_sound hx hy
  | neq =>
    cases h
    rw [decide_not]
    exact (oneSided_visitEq false b c).within_swap (visitEq_sound hx hy)
  | le =>
    cases h
    exact visitLe_sound hx hy
  | gt =>
    cases h
    have hle := (oneSided_visitLe b c).within_swap (visitLe_sound (K := K) hx hy)
    rw [← decide_not, decide_eq_decide.mpr not_le] at hle
    exact hle
  | lt =>
    cases h
    exact visitLt_sound hx hy
  | ge =>
    cases h
    have hlt := (oneSided_visitLt b c).within_swap (visitLt_sound (K := K) hx hy)
    rw [← decide_not, decide_eq_decide.mpr not_lt] at hlt
    exact hlt
  | _ => cases h

end Booleans

/-!
# Soundness
-/

section Soundness

variable [IsStrictOrderedRing K] {σ : Variable -> Value K}

theorem within_partiallyEvaluate (hnode : IntervalState types node)
    (hσ : Satisfies types node σ) (e : Expr Variable) (hwell : WellTyped types e)
    (hint : Integral types e) (hexact : StepsExact types node e) {w : Value K}
    (h : eval σ e = some w) : Within (partiallyEvaluate types node e) w.num := by
  induction e generalizing w with
  | literal l =>
    cases h
    cases l with
    | bigNum n =>
      refine within_int.mpr (within_of ?_ ?_)
      · intro l hl
        cases hl
        exact le_refl n
      · intro u hu
        cases hu
        exact Int.lt_succ n
    | bigDec d => exact hint.elim
    | bool p =>
      cases p with
      | true => exact within_isTrue
      | false => exact within_isFalse
  | ident v =>
    cases h
    have hwithin := hσ.within hnode v
    rcases hint with hbool | hint
    · rw [partiallyEvaluate, hbool]
      exact hwithin
    · rw [partiallyEvaluate, hint]
      exact hwithin
  | unary op a ih =>
    rw [eval, Option.bind_eq_some_iff] at h
    rcases h with ⟨x, hx, hw⟩
    have htype := type_eval hσ.typed a (by cases op <;> exact hwell.1) hx
    cases op with
    | neg =>
      have hwithin := ih hwell.1 hint hexact.1 hx
      rcases type_integral a hwell.1 hint with hbool | hint'
      · rcases eq_bool_of_type (htype.trans hbool) with ⟨p, rfl⟩
        cases hw
      · rcases eq_int_of_type (htype.trans hint') with ⟨z, rfl⟩
        cases hw
        exact within_int.mpr
          (neg_sound (hexact.2 rfl) (within_int.mp hwithin))
    | not =>
      have hwithin := ih hwell.1 hint hexact.1 hx
      rcases eq_bool_of_type (htype.trans hwell.2) with ⟨p, rfl⟩
      cases hw
      exact (oneSided_partiallyEvaluate hnode a hwell.1 hwell.2).within_swap
        hwithin
  | binary op a b iha ihb =>
    rw [eval, Option.bind_eq_some_iff] at h
    rcases h with ⟨x, hx, h⟩
    rw [Option.bind_eq_some_iff] at h
    rcases h with ⟨y, hy, hw⟩
    have hxwithin := iha hwell.1 hint.2.2.1 hexact.1 hx
    have hywithin := ihb hwell.2.1 hint.2.2.2 hexact.2.1 hy
    have hxtype := type_eval hσ.typed a hwell.1 hx
    have hytype := type_eval hσ.typed b hwell.2.1 hy
    rw [partiallyEvaluate]
    rcases type_integral a hwell.1 hint.2.2.1 with ha | ha
    · rcases eq_bool_of_type (hxtype.trans ha) with ⟨p, rfl⟩
      cases y with
      | bool q =>
        have hone := oneSided_partiallyEvaluate hnode a hwell.1 ha
        have hone' := oneSided_partiallyEvaluate hnode b hwell.2.1 hytype.symm
        rw [decide_eq_true ha]
        exact bool_sound (hone.decides hxwithin) (hone'.decides hywithin) hw
      | _ => cases hw
    · rcases eq_int_of_type (hxtype.trans ha) with ⟨m, rfl⟩
      cases y with
      | int n =>
        rw [decide_eq_false (by rw [ha]; exact Ty.noConfusion)]
        exact int_sound (within_int.mp hxwithin) (within_int.mp hywithin)
          hint.1 hexact.2.2 hw
      | _ => cases hw
  | ifThenElse c a b ihc iha ihb =>
    have hguard := oneSided_partiallyEvaluate hnode c hwell.1 hwell.2.2.2.1
    have hjoin : forall p, eval σ c = some (.bool p) ->
        Within (if p then partiallyEvaluate types node a
          else partiallyEvaluate types node b) w.num ->
        Within (partiallyEvaluate types node (.ifThenElse c a b)) w.num := by
      intro p hp hbranch
      have hwithin := ihc hwell.1 hint.1 hexact.1 hp
      rw [partiallyEvaluate]
      rcases hguard.cases_of_within hwithin with hc | ⟨hc, rfl⟩ | ⟨hc, rfl⟩
      · rw [hc]
        cases p with
        | true => exact (tighter_join_left _ _).within hbranch
        | false => exact (tighter_join_right _ _).within hbranch
      · rw [hc]
        exact hbranch
      · rw [hc]
        exact hbranch
    rw [eval] at h
    split at h
    next hc => exact hjoin true hc (iha hwell.2.1 hint.2.1 hexact.2.1 h)
    next hc => exact hjoin false hc (ihb hwell.2.2.1 hint.2.2 hexact.2.2 h)
    next => cases h
  | identity a ih => exact ih hwell hint hexact h
  | other t => exact hint.elim

end Soundness

end AbstractInterpretation
end Boogie
