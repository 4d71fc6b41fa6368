import Mathlib.Data.List.Nodup
import Mathlib.Logic.Function.Basic

/-!
# Extensions by definitions

A list of definitions gives values to new variables.  Each right-hand side is a
function of the state that reads no variable defined by itself or after it, so
there is a state in which all definitions hold.
-/

namespace Extension

variable {X V : Type} [DecidableEq X]

structure Definition (X V : Type) where
  target : X
  rhs : (X -> V) -> V

def Extends (defs : List (Definition X V)) (ρ σ : X -> V) : Prop :=
  forall x, x ∉ defs.map Definition.target -> σ x = ρ x

def AllHold (defs : List (Definition X V)) (σ : X -> V) : Prop :=
  forall d, d ∈ defs -> σ d.target = d.rhs σ

/-- The definitions of a suffix are read by no definition of it that is earlier. -/
inductive Ordered : List (Definition X V) -> Prop where
  | nil : Ordered []
  | cons {d : Definition X V} {defs : List (Definition X V)} :
      d.target ∉ defs.map Definition.target ->
      (forall ρ σ : X -> V, Extends (d :: defs) ρ σ -> d.rhs σ = d.rhs ρ) ->
      Ordered defs -> Ordered (d :: defs)

theorem exists_extends {defs : List (Definition X V)} (h : Ordered defs)
    (ρ : X -> V) : exists σ, Extends defs ρ σ ∧ AllHold defs σ := by
  induction h generalizing ρ with
  | nil =>
    exists ρ
    constructor
    · exact fun _ _ => rfl
    · intro d hd
      cases hd
  | @cons d defs hnew hreads _ ih =>
    rcases ih (Function.update ρ d.target (d.rhs ρ)) with ⟨σ, hσ, hall⟩
    have hext : Extends (d :: defs) ρ σ := by
      intro x hx
      rw [List.map_cons, List.mem_cons, not_or] at hx
      rw [hσ x hx.2, Function.update_of_ne hx.1]
    exists σ
    constructor
    · exact hext
    · intro d' hd'
      rcases List.mem_cons.mp hd' with rfl | hd'
      · rw [hσ d'.target hnew, Function.update_self, hreads ρ σ hext]
      · exact hall d' hd'

end Extension
