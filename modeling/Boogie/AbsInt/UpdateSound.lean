import Boogie.AbsInt.ExprBounds
import Mathlib.Algebra.Order.Ring.Rat

/-!
# Updates

A parallel assignment leads to the updated state, and the condition on the steps
of the visitor cannot be weakened for operators on variables.
-/

namespace Boogie
namespace AbstractInterpretation

variable {K : Type*} [Field K] [LinearOrder K] [IsStrictOrderedRing K]
variable {Variable : Type*} [LinearOrder Variable] {types : Variable -> Ty}
variable {node : List (Node Variable)}

/-- The value of the expression is within the computed bounds in every assignment
that satisfies the state. -/
def Sound (K : Type*) [Field K] [LinearOrder K] (types : Variable -> Ty)
    (node : List (Node Variable)) (e : Expr Variable) : Prop :=
  forall σ : Variable -> Value K, Satisfies types node σ ->
    forall w, eval σ e = some w -> Within (partiallyEvaluate types node e) w.num

/-- The right-hand sides are evaluated in `σ`, their values assigned to `σ'`. -/
def assign (σ : Variable -> Value K) : List (Variable × Expr Variable) ->
    (Variable -> Value K) -> Option (Variable -> Value K)
  | [], σ' => some σ'
  | (lhs, rhs) :: cmd, σ' =>
    (eval σ rhs).bind (fun w => assign σ cmd (Function.update σ' lhs w))

theorem IntervalState.updateOne (hnode : IntervalState types node) {v : Variable}
    {b : Bounds} (hb : types v = .bool -> OneSided b) :
    IntervalState types (updateOne node v b.1 b.2) := by
  rcases updateOne_spec hnode.wellFormed v b.1 b.2 with ⟨hwf, hbounds⟩
  refine ⟨hwf, ?_⟩
  intro u hu
  rw [hbounds]
  split
  next heq =>
    rw [heq] at hu
    exact hb hu
  next => exact hnode.boolean u hu

omit [IsStrictOrderedRing K] in
theorem Satisfies.updateOne {σ : Variable -> Value K}
    (hnode : IntervalState types node) (hσ : Satisfies types node σ) {v : Variable}
    {b : Bounds} {w : Value K} (htype : w.type = types v) (hw : Within b w.num) :
    Satisfies types (updateOne node v b.1 b.2) (Function.update σ v w) := by
  rcases updateOne_spec hnode.wellFormed v b.1 b.2 with ⟨hwf, hbounds⟩
  constructor
  · intro u
    rw [Function.update_apply]
    split
    next heq =>
      rw [heq]
      exact htype
    next => exact hσ.typed u
  · rw [mem_denote_iff hwf.sorted]
    intro u
    rw [hbounds, Function.update_apply]
    split
    next => exact hw
    next => exact hσ.within hnode u

structure Assignable (types : Variable -> Ty) (node : List (Node Variable))
    (p : Variable × Expr Variable) : Prop where
  wellTyped : WellTyped types p.2
  integral : Integral types p.2
  exact : StepsExact types node p.2
  type : p.2.type types = types p.1

theorem foldl_intervalState (hnode : IntervalState types node)
    {cmd : List (Variable × Expr Variable)} (hcmd : forall p, p ∈ cmd -> Assignable types node p)
    {nn : List (Node Variable)} (hnn : IntervalState types nn) :
    IntervalState types (cmd.foldl (fun nn (lhs, rhs) =>
      AbstractInterpretation.updateOne nn lhs (partiallyEvaluate types node rhs).1
        (partiallyEvaluate types node rhs).2) nn) := by
  induction cmd generalizing nn with
  | nil => exact hnn
  | cons p cmd ih =>
    have hp := hcmd p List.mem_cons_self
    refine ih (fun q hq => hcmd q (List.mem_cons_of_mem _ hq)) (hnn.updateOne ?_)
    intro hbool
    exact oneSided_partiallyEvaluate hnode p.2 hp.wellTyped (hp.type.trans hbool)

theorem assign_sound (hnode : IntervalState types node)
    {σ : Variable -> Value K} (hσ : Satisfies types node σ)
    {cmd : List (Variable × Expr Variable)} (hcmd : forall p, p ∈ cmd -> Assignable types node p)
    {nn : List (Node Variable)} (hnn : IntervalState types nn)
    {σ₁ σ' : Variable -> Value K} (hσ₁ : Satisfies types nn σ₁) (h : assign σ cmd σ₁ = some σ') :
    Satisfies types (cmd.foldl (fun nn (lhs, rhs) =>
      updateOne nn lhs (partiallyEvaluate types node rhs).1
        (partiallyEvaluate types node rhs).2) nn) σ' := by
  induction cmd generalizing nn σ₁ with
  | nil =>
    cases h
    exact hσ₁
  | cons p cmd ih =>
    rcases p with ⟨lhs, rhs⟩
    rw [assign, Option.bind_eq_some_iff] at h
    rcases h with ⟨w, hw, hrest⟩
    have hp := hcmd (lhs, rhs) List.mem_cons_self
    have htype := (type_eval hσ.typed rhs hp.wellTyped hw).trans hp.type
    have hwithin := within_partiallyEvaluate hnode hσ rhs hp.wellTyped hp.integral
      hp.exact hw
    have hone : types lhs = .bool ->
        OneSided (partiallyEvaluate types node rhs) := by
      intro hbool
      exact oneSided_partiallyEvaluate hnode rhs hp.wellTyped (hp.type.trans hbool)
    exact ih (fun q hq => hcmd q (List.mem_cons_of_mem _ hq))
      (hnn.updateOne hone) (hσ₁.updateOne hnn htype hwithin) hrest

/-!
# The steps that go wrong
-/

theorem Satisfies.update {σ : Variable -> Value K}
    (hnode : IntervalState types node) (hσ : Satisfies types node σ) {v : Variable}
    (hv : types v = .int) {z : Int} (hz : Within (Node.getBounds node v) z) :
    Satisfies types node (Function.update σ v (.int z)) := by
  constructor
  · intro u
    rw [Function.update_apply]
    split
    next heq =>
      rw [heq, hv]
      rfl
    next => exact hσ.typed u
  · rw [mem_denote_iff hnode.wellFormed.sorted]
    intro u
    rw [Function.update_apply]
    split
    next heq =>
      rw [heq]
      exact within_int.mpr hz
    next => exact hσ.within hnode u

theorem Satisfies.exists_int {σ : Variable -> Value K}
    (hnode : IntervalState types node) (hσ : Satisfies types node σ) {v : Variable}
    (hv : types v = .int) : exists z : Int, Within (Node.getBounds node v) z := by
  rcases eq_int_of_type ((hσ.typed v).trans hv) with ⟨z, hz⟩
  have hwithin := hσ.within hnode v
  rw [hz] at hwithin
  exact ⟨z, within_int.mp hwithin⟩

theorem exists_neg_of_not_negExact {b : Bounds} (h : ¬ NegExact b) :
    exists z : Int, Within b z ∧ ¬ Within (visitNeg b) (-z) := by
  rcases b with ⟨lo, hi⟩
  cases lo with
  | none =>
    cases hi with
    | none => exact absurd rfl h
    | some hi =>
      refine ⟨min (hi - 1) (-hi), within_of (fun l hl => by cases hl) ?_, ?_⟩
      · intro u hu
        cases hu
        omega
      · intro hneg
        have hlt := within_hi hneg rfl
        omega
  | some lo =>
    cases hi with
    | none =>
      refine ⟨max lo (1 - lo), within_of ?_ (fun u hu => by cases hu), ?_⟩
      · intro l hl
        cases hl
        omega
      · intro hneg
        have hle := within_lo hneg rfl
        omega
    | some hi => exact absurd rfl h

theorem exists_mul_of_not_mulExact {b c : Bounds} {x y : Int} (hx : Within b x)
    (hy : Within c y) (h : ¬ MulExact b c) :
    exists x y : Int, Within b x ∧ Within c y ∧ ¬ Within (visitMul b c) (x * y) := by
  unfold MulExact at h
  push Not at h
  rcases h with ⟨lo, lo', hlo, hlo', hneg, hneg', hbelow⟩
  have hcorner : 0 < lo * lo' := mul_pos_of_neg_of_neg hneg hneg'
  -- It is enough that the product of two numbers is too large.
  have hlarge : forall x y : Int, (forall u, b.2 = some u -> x < u) ->
      (forall u, c.2 = some u -> y < u) -> lo ≤ x -> lo' ≤ y -> lo * lo' < x * y ->
      exists x y : Int, Within b x ∧ Within c y ∧
        ¬ Within (visitMul b c) (x * y) := by
    intro x y hxhi hyhi hxlo hylo hlt
    refine ⟨x, y, within_of ?_ hxhi, within_of ?_ hyhi, ?_⟩
    · intro l hl
      rw [hlo] at hl
      cases hl
      exact hxlo
    · intro l hl
      rw [hlo'] at hl
      cases hl
      exact hylo
    · intro hwithin
      have hvisit : (visitMul b c).2 = some (lo * lo' + 1) := by
        unfold visitMul
        rw [hlo, hlo']
        change (if 0 ≤ lo ∧ 0 ≤ lo' then _ else _ : Bounds).2 = _
        rw [if_neg (by omega), if_pos ⟨hneg, hneg'⟩]
      have hhi := within_hi hwithin hvisit
      omega
  have hxlo := within_lo hx hlo
  have hylo := within_lo hy hlo'
  cases hb : b.2 with
  | none =>
    cases hc : c.2 with
    | none =>
      refine hlarge (lo * lo' + 1) 1 (fun u hu => ?_) (fun u hu => ?_)
        (by omega) (by omega) (by omega)
      · rw [hb] at hu
        cases hu
      · rw [hc] at hu
        cases hu
    | some hi' =>
      rw [hb, hc] at hbelow
      change ¬ hi' ≤ 1 at hbelow
      refine hlarge (lo * lo' + 1) 1 (fun u hu => ?_) (fun u hu => ?_)
        (by omega) (by omega) (by omega)
      · rw [hb] at hu
        cases hu
      · rw [hc] at hu
        cases hu
        omega
  | some hi =>
    have hxhi := within_hi hx hb
    cases hc : c.2 with
    | none =>
      rw [hb, hc] at hbelow
      change ¬ hi ≤ 1 at hbelow
      refine hlarge 1 (lo * lo' + 1) (fun u hu => ?_) (fun u hu => ?_)
        (by omega) (by omega) (by omega)
      · rw [hb] at hu
        cases hu
        omega
      · rw [hc] at hu
        cases hu
    | some hi' =>
      have hyhi := within_hi hy hc
      rw [hb, hc] at hbelow
      change ¬ (hi - 1) * (hi' - 1) ≤ lo * lo' at hbelow
      refine hlarge (hi - 1) (hi' - 1) (fun u hu => ?_) (fun u hu => ?_)
        (by omega) (by omega) (by omega)
      · rw [hb] at hu
        cases hu
        omega
      · rw [hc] at hu
        cases hu
        omega

omit [LinearOrder Variable] in
theorem wellTyped_neg {v : Variable} (hv : types v = .int) :
    WellTyped types (.unary .neg (.ident v)) :=
  ⟨trivial, Or.inl hv⟩

omit [LinearOrder Variable] in
theorem wellTyped_mul {u v : Variable} (hu : types u = .int) (hv : types v = .int) :
    WellTyped types (.binary .mul (.ident u) (.ident v)) :=
  ⟨trivial, trivial, hu.trans hv.symm, Or.inl hu⟩

theorem partiallyEvaluate_ident {v : Variable} (hv : types v = .int) :
    partiallyEvaluate types node (.ident v) = Node.getBounds node v := by
  rw [partiallyEvaluate, hv]

theorem sound_neg_iff (hnode : IntervalState types node) {v : Variable}
    (hv : types v = .int) (hsat : exists σ : Variable -> Value K, Satisfies types node σ) :
    Sound K types node (.unary .neg (.ident v)) <->
      StepsExact types node (.unary .neg (.ident v)) := by
  constructor
  · intro hsound
    refine ⟨trivial, ?_⟩
    intro _
    by_contra hnot
    rw [partiallyEvaluate_ident hv] at hnot
    rcases hsat with ⟨σ, hσ⟩
    rcases exists_neg_of_not_negExact hnot with ⟨z, hz, hneg⟩
    have heval : eval (Function.update σ v (.int z)) (.unary .neg (.ident v)) =
        some (.int (-z)) := by
      change (some (Function.update σ v (.int z) v)).bind (evalUnary .neg) = _
      rw [Function.update_self]
      rfl
    have hwithin := within_int.mp (hsound _ (hσ.update hnode hv hz) _ heval)
    change Within (visitNeg (partiallyEvaluate types node (.ident v))) (-z) at hwithin
    rw [partiallyEvaluate_ident hv] at hwithin
    exact hneg hwithin
  · intro hexact σ hσ w hw
    exact within_partiallyEvaluate hnode hσ _ (wellTyped_neg hv) (Or.inr hv) hexact hw

theorem sound_mul_iff (hnode : IntervalState types node) {u v : Variable}
    (huv : u ≠ v) (hu : types u = .int) (hv : types v = .int)
    (hsat : exists σ : Variable -> Value K, Satisfies types node σ) :
    Sound K types node (.binary .mul (.ident u) (.ident v)) <->
      StepsExact types node (.binary .mul (.ident u) (.ident v)) := by
  constructor
  · intro hsound
    refine ⟨trivial, trivial, ?_⟩
    intro _
    by_contra hnot
    rw [partiallyEvaluate_ident hu, partiallyEvaluate_ident hv] at hnot
    rcases hsat with ⟨σ, hσ⟩
    rcases hσ.exists_int hnode hu with ⟨x₀, hx₀⟩
    rcases hσ.exists_int hnode hv with ⟨y₀, hy₀⟩
    rcases exists_mul_of_not_mulExact hx₀ hy₀ hnot with ⟨x, y, hx, hy, hmul⟩
    have hσ' := (hσ.update hnode hu hx).update hnode hv hy
    have heval : eval (Function.update (Function.update σ u (.int x)) v (.int y))
        (.binary .mul (.ident u) (.ident v)) = some (.int (x * y)) := by
      change (some (Function.update (Function.update σ u (.int x)) v (.int y) u)).bind
        (fun a => (some (Function.update (Function.update σ u (.int x)) v
          (.int y) v)).bind (evalBinary .mul a)) = _
      rw [Function.update_self, Function.update_of_ne huv, Function.update_self]
      rfl
    have hwithin := within_int.mp (hsound _ hσ' _ heval)
    change Within (visitMul (partiallyEvaluate types node (.ident u))
      (partiallyEvaluate types node (.ident v))) (x * y) at hwithin
    rw [partiallyEvaluate_ident hu, partiallyEvaluate_ident hv] at hwithin
    exact hmul hwithin
  · intro hexact σ hσ w hw
    exact within_partiallyEvaluate hnode hσ _ (wellTyped_mul hu hv)
      ⟨BinaryOp.noConfusion, BinaryOp.noConfusion, Or.inr hu, Or.inr hv⟩ hexact hw

/-!
# The condition
-/

/-- Evaluation and updates are sound if no step of the visitor is one that goes
wrong, and for negations and products of variables only then. -/
theorem evaluation_sound_iff (hnode : IntervalState types node) :
    (forall e, WellTyped types e -> Integral types e -> StepsExact types node e ->
      Sound K types node e) ∧ (forall cmd, (forall p, p ∈ cmd -> Assignable types node p) ->
      exists node', update types (.e node) cmd = .e node' ∧ IntervalState types node' ∧
        forall σ σ' : Variable -> Value K, Satisfies types node σ ->
          assign σ cmd σ = some σ' -> Satisfies types node' σ') ∧
    ((exists σ : Variable -> Value K, Satisfies types node σ) ->
      (forall v, types v = .int -> (Sound K types node (.unary .neg (.ident v)) <->
        StepsExact types node (.unary .neg (.ident v)))) ∧
      forall u v, u ≠ v -> types u = .int -> types v = .int ->
        (Sound K types node (.binary .mul (.ident u) (.ident v)) <->
          StepsExact types node (.binary .mul (.ident u) (.ident v)))) := by
  refine ⟨?_, ?_, ?_⟩
  · intro e hwell hint hexact σ hσ w hw
    exact within_partiallyEvaluate hnode hσ e hwell hint hexact hw
  · intro cmd hcmd
    refine ⟨_, rfl, ?_, ?_⟩
    · exact foldl_intervalState hnode hcmd hnode
    · intro σ σ' hσ h
      exact assign_sound hnode hσ hcmd hnode hσ h
  · intro hsat
    exact ⟨fun v hv => sound_neg_iff hnode hv hsat,
      fun u v huv hu hv => sound_mul_iff hnode huv hu hv hsat⟩

theorem intervalState_above (lo : Int) :
    IntervalState (fun _ : Nat => .int) [⟨0, some lo, none⟩] :=
  ⟨⟨List.pairwise_singleton _ _, by simp⟩, fun _ h => by cases h⟩

theorem sound_above : Sound Rat (fun _ : Nat => .int) [⟨0, some 0, none⟩]
    (.binary .mul (.ident 0) (.ident 0)) :=
  (evaluation_sound_iff (K := Rat) (intervalState_above 0)).1 _
    ⟨trivial, trivial, rfl, Or.inl rfl⟩
    ⟨BinaryOp.noConfusion, BinaryOp.noConfusion, Or.inr rfl, Or.inr rfl⟩
    ⟨trivial, trivial, fun _ lo lo' hlo _ hneg _ => by cases hlo; omega⟩

theorem satisfies_above {lo : Int} {z : Int} (h : lo ≤ z) :
    Satisfies (K := Rat) (fun _ : Nat => .int) [⟨0, some lo, none⟩] (fun _ => .int z) := by
  refine ⟨fun _ => rfl, ?_⟩
  intro m hm
  rw [List.mem_singleton.mp hm]
  refine within_int.mpr (within_of ?_ (fun u hu => by cases hu))
  intro l hl
  cases hl
  exact h

/-- The negation of a number that is at least 5 is not between 5 and -4, and a
product of numbers that are at least -1 can be larger than 1. -/
theorem neg_and_mul_not_sound :
    ¬ Sound Rat (fun _ : Nat => .int) [⟨0, some 5, none⟩] (.unary .neg (.ident 0)) ∧
    ¬ Sound Rat (fun _ : Nat => .int) [⟨0, some (-1), none⟩]
      (.binary .mul (.ident 0) (.ident 0)) := by
  constructor
  · intro h
    have hwithin := within_int.mp (h _ (satisfies_above (z := 7) (by omega))
      (.int (-7)) rfl)
    have hle := within_lo (l := 5) hwithin rfl
    omega
  · intro h
    have hwithin := within_int.mp (h _ (satisfies_above (z := 10) (by omega))
      (.int 100) rfl)
    have hlt := within_hi (u := 2) hwithin rfl
    omega

end AbstractInterpretation
end Boogie
