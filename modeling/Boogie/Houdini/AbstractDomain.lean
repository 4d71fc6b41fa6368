import Boogie.Houdini.C5Domain
import Boogie.VCGeneration.Wlp

/-!
# Abstract domains of existential functions

A value of an abstract domain stands for a condition on the arguments of an
existential function.  The inference joins the arguments of counterexamples to
the value.
-/

namespace Boogie

/--
The objects of a domain.  `join` is `none` where an element of the state is not
of the expected type.  The functions that `gamma` calls by itself are builtin.
-/
structure IAbstractDomain (D : Type) where
  bottom : D
  join : D -> List Model.Element -> Option D
  gamma : D -> List Expr -> Expr
  builtin : List String
  gamma_passive : forall d vars, (forall e, e ∈ vars -> e.passive = true) ->
    (gamma d vars).passive = true
  gamma_calls : forall d vars name, name ∈ collectFunctions (gamma d vars) ->
    name ∈ collectFunctionsOfArgs vars ∨ name ∈ builtin

end Boogie
