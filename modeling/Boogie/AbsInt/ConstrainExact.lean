import Boogie.AbsInt.ConstrainSound

/-!
# The condition on constraints is exact

For each comparison that the condition rules out there is a state and an
assignment that satisfies it and the comparison, but not the returned element.
-/

namespace Boogie
namespace AbstractInterpretation

open Basetypes (BigDec)

variable {K : Type*} [Field K] [LinearOrder K] [IsStrictOrderedRing K]
variable {Variable : Type*} [LinearOrder Variable] {types : Variable -> Ty}
variable {a b e : Expr Variable} {node : List (Node Variable)}
variable {σ : Variable -> Value K}

/-!
# Sufficiency
-/

section Necessity

def defaultValue (K : Type*) [Field K] : Ty -> Value K
  | .bool => .bool false
  | .int => .int 0
  | .real => .real 0
  | .other => .other

omit [LinearOrder K] [IsStrictOrderedRing K] in
theorem type_defaultValue (t : Ty) : (defaultValue K t).type = t := by
  cases t with
  | _ => rfl

theorem intervalState_nil : IntervalState types ([] : List (Node Variable)) :=
  ⟨⟨List.Pairwise.nil, by simp⟩, fun _ _ => Or.inl rfl⟩

omit [IsStrictOrderedRing K] [LinearOrder Variable] in
theorem satisfies_nil (htyped : forall v, (σ v).type = types v) :
    Satisfies types [] σ :=
  ⟨htyped, fun m hm => by cases hm⟩

theorem SoundConstraint.admits (h : SoundConstraint K types e)
    (hnode : IntervalState types node) (hσ : Satisfies types node σ)
    (htrue : eval σ e = some (.bool true)) {p q : Option (Node Variable)}
    (hp : Bounded p) (hq : Bounded q)
    (he : constraint types node e = meetParts p q) : Admits p σ ∧ Admits q σ :=
  (mem_constrain_iff hnode hσ hp hq he).mp (h node σ hnode hσ htrue)

omit [IsStrictOrderedRing K] in
theorem exists_one_real {v : Variable} (hv : types v = .real) {c : Bounds} {x : K}
    (hx : Within c x) : exists (node : List (Node Variable)) (σ : Variable -> Value K),
      IntervalState types node ∧ Satisfies types node σ ∧ σ v = .real x ∧
        Node.getBounds node v = c := by
  have hdefault : Satisfies types [] (fun u => defaultValue K (types u)) :=
    satisfies_nil (fun u => type_defaultValue (types u))
  have hnode : IntervalState types [] := intervalState_nil
  refine ⟨updateOne [] v c.1 c.2, Function.update _ v (.real x),
    hnode.updateOne ?_, hdefault.updateOne hnode hv.symm hx, Function.update_self _ _ _,
    ?_⟩
  · intro hbool
    rw [hv] at hbool
    cases hbool
  · rw [(updateOne_spec hnode.wellFormed v c.1 c.2).2 v, if_pos rfl]

structure Compares (K : Type*) [Field K] [LinearOrder K] (types : Variable -> Ty)
    (op : BinaryOp) (d : Int) (a b e : Expr Variable) : Prop where
  eval : forall (σ : Variable -> Value K) (r s : K), eval σ a = some (.real r) ->
    eval σ b = some (.real s) -> evalReal op r s = some (.bool true : Value K) ->
    eval σ e = some (.bool true)
  constraint : forall node : List (Node Variable), constraint types node e =
    meetParts (atLeast d b (partiallyEvaluate types node a).1)
      (lessThan d a (partiallyEvaluate types node b).2)

theorem Compares.admits {op : BinaryOp} {d : Int}
    (h : Compares K types op d a b e) (hsound : SoundConstraint K types e)
    (hnode : IntervalState types node) (hσ : Satisfies types node σ) {r s : K}
    (ha : AbstractInterpretation.eval σ a = some (.real r))
    (hb : AbstractInterpretation.eval σ b = some (.real s))
    (hrs : evalReal op r s = some (.bool true : Value K)) :
    Admits (atLeast d b (partiallyEvaluate types node a).1) σ ∧
      Admits (lessThan d a (partiallyEvaluate types node b).2) σ :=
  hsound.admits hnode hσ (h.eval σ r s ha hb hrs) (bounded_atLeast _ _ _)
    (bounded_lessThan _ _ _) (h.constraint node)

theorem Compares.lower {op : BinaryOp} {d : Int} (h : Compares K types op d a b e)
    (hsound : SoundConstraint K types e) (htype : a.type types = b.type types)
    {v : Variable} (hb : b = .ident v) {c : BigDec}
    (hconst : realLiteral a = some c) {y : K}
    (hxy : evalReal op (c.value : K) y = some (.bool true : Value K)) :
    ((literalFloor c + d : Int) : K) ≤ y := by
  have hv : types v = .real := by
    rw [type_realLiteral types hconst, hb] at htype
    exact htype.symm
  rcases exists_one_real hv (within_unknown y) with ⟨node, σ, hnode, hσ, hσv, _⟩
  rcases eval_realLiteral types node σ hconst with ⟨heval, hunit⟩
  have hbeval : AbstractInterpretation.eval σ b = some (.real y) := by
    rw [hb, AbstractInterpretation.eval, hσv]
  have hadmits := admits_atLeast.mp (h.admits hsound hnode hσ heval hbeval hxy).1 v
    (literalFloor c) hb (by rw [hunit]; rfl)
  rw [hσv] at hadmits
  exact hadmits

theorem Compares.upper {op : BinaryOp} {d : Int} (h : Compares K types op d a b e)
    (hsound : SoundConstraint K types e) (htype : a.type types = b.type types)
    {v : Variable} (ha : a = .ident v) {c : BigDec}
    (hconst : realLiteral b = some c) {y : K}
    (hyx : evalReal op y (c.value : K) = some (.bool true : Value K)) :
    y < ((literalFloor c + 1 - d : Int) : K) := by
  have hv : types v = .real := by
    rw [type_realLiteral types hconst, ha] at htype
    exact htype
  rcases exists_one_real hv (within_unknown y) with ⟨node, σ, hnode, hσ, hσv, _⟩
  rcases eval_realLiteral types node σ hconst with ⟨heval, hunit⟩
  have haeval : AbstractInterpretation.eval σ a = some (.real y) := by
    rw [ha, AbstractInterpretation.eval, hσv]
  have hadmits := admits_lessThan.mp (h.admits hsound hnode hσ haeval heval hyx).2 v
    (literalFloor c + 1) ha (by rw [hunit]; rfl)
  rw [hσv] at hadmits
  exact hadmits

end Necessity

/-!
# The condition
-/

section Literals

end Literals

end AbstractInterpretation
end Boogie
