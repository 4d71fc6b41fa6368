import Boogie.Foundation.SortedMerge
import Mathlib.Algebra.Order.Ring.Cast
import Mathlib.Data.Set.Basic

/-!
# The interval domain

An element of the domain is a list of nodes, one for each constrained variable,
sorted by the unique identifiers of the variables. A missing bound stands for
an infinity. The upper bound of a node is exclusive.
-/

namespace Boogie
namespace AbstractInterpretation

abbrev Bounds := Option Int × Option Int

structure Node (Variable : Type*) where
  v : Variable
  lo : Option Int
  hi : Option Int
deriving DecidableEq, Repr

/-- The nodes from `n` on, without the reference to the next one. -/
inductive Element (Variable : Type*) where
  | bottom
  | e (n : List (Node Variable))
deriving DecidableEq, Repr

namespace Node

def min (a b : Option Int) (treatNullAsUnit : Bool) : Option Int :=
  match a, b with
  | none, b => if treatNullAsUnit then b else none
  | some a, none => if treatNullAsUnit then some a else none
  | some a, some b => some (Min.min a b)

def max (a b : Option Int) (treatNullAsUnit : Bool) : Option Int :=
  match a, b with
  | none, b => if treatNullAsUnit then b else none
  | some a, none => if treatNullAsUnit then some a else none
  | some a, some b => some (Max.max a b)

variable {Variable : Type*} [LinearOrder Variable]

def getBounds : List (Node Variable) -> Variable -> Bounds
  | [], _ => (none, none)
  | n :: next, v =>
    if n.v = v then (n.lo, n.hi)
    else if v < n.v then (none, none)
    else getBounds next v

def merge (a b : List (Node Variable)) :
    List (Option (Node Variable) × Option (Node Variable)) :=
  SortedMerge.merge Node.v a b

end Node

variable {Variable : Type*} [LinearOrder Variable]

/-!
# Below, Meet and Join
-/

def belowNode : Option (Node Variable) × Option (Node Variable) -> Bool
  | (none, some _) => false
  | (_, none) => true
  | (some x, some y) =>
    if y.lo.any (fun l => x.lo.all (fun l' => l' < l)) then false
    else if y.hi.any (fun h => x.hi.all (fun h' => h < h')) then false
    else true

def below : Element Variable -> Element Variable -> Bool
  | .bottom, _ => true
  | .e _, .bottom => false
  | .e aa, .e bb => (Node.merge aa bb).all belowNode

def overconstrained (lo hi : Option Int) : Bool :=
  match lo, hi with
  | some l, some h => h ≤ l
  | _, _ => false

/-- The node of both constraints, unless they are overconstrained. -/
def meetNode : Option (Node Variable) × Option (Node Variable) ->
    Option (Node Variable)
  | (none, none) => none
  | (none, some y) => some ⟨y.v, y.lo, y.hi⟩
  | (some x, none) => some ⟨x.v, x.lo, x.hi⟩
  | (some x, some y) =>
    let lo := Node.max x.lo y.lo true
    let hi := Node.min x.hi y.hi true
    if overconstrained lo hi then none else some ⟨x.v, lo, hi⟩

def meet : Element Variable -> Element Variable -> Element Variable
  | .bottom, _ => .bottom
  | .e _, .bottom => .bottom
  | .e aa, .e bb =>
    match (Node.merge aa bb).mapM meetNode with
    | none => .bottom
    | some n => .e n

/-- A node with these bounds, unless they are no constraint. -/
def constrained (v : Variable) (lo hi : Option Int) : Option (Node Variable) :=
  if lo.isSome || hi.isSome then some ⟨v, lo, hi⟩ else none

def joinNode : Option (Node Variable) × Option (Node Variable) ->
    Option (Node Variable)
  | (some x, some y) =>
    constrained x.v (Node.min x.lo y.lo false) (Node.max x.hi y.hi false)
  | _ => none

def join : Element Variable -> Element Variable -> Element Variable
  | .bottom, b => b
  | .e aa, .bottom => .e aa
  | .e aa, .e bb => .e ((Node.merge aa bb).filterMap joinNode)

/-!
# Widen
-/

/-- The search of `RoundDown` between the indices `i` and `j`. -/
def roundDownFrom (downThresholds : List Int) (k : Int) (i j : Nat) : Nat :=
  if i < j then
    let mid := i + (j - i + 1) / 2
    if downThresholds.getD mid 0 ≤ k then
      roundDownFrom downThresholds k mid j
    else roundDownFrom downThresholds k i (mid - 1)
  else i
termination_by j - i

def roundDown (downThresholds : List Int) (k : Int) : Option Int :=
  if downThresholds.length = 0 ∨ k < downThresholds.getD 0 0 then none
  else
    let i := roundDownFrom downThresholds k 0 (downThresholds.length - 1)
    some (downThresholds.getD i 0)

/-- The search of `RoundUp` between the indices `i` and `j`. -/
def roundUpFrom (upThresholds : List Int) (k : Int) (i j : Nat) : Nat :=
  if i < j then
    let mid := i + (j - i) / 2
    if upThresholds.getD mid 0 < k then roundUpFrom upThresholds k (mid + 1) j
    else roundUpFrom upThresholds k i mid
  else i
termination_by j - i

def roundUp (upThresholds : List Int) (k : Int) : Option Int :=
  if upThresholds.length = 0 ∨
      upThresholds.getD (upThresholds.length - 1) 0 < k then none
  else
    let i := roundUpFrom upThresholds k 0 (upThresholds.length - 1)
    some (upThresholds.getD i 0)

structure Thresholds where
  upThresholds : List Int
  downThresholds : List Int

def widenLo (domain : Thresholds) : Option Int -> Option Int -> Option Int
  | some l, some l' =>
    if l ≤ l' then some l else roundDown domain.downThresholds l'
  | _, _ => none

def widenHi (domain : Thresholds) : Option Int -> Option Int -> Option Int
  | some h, some h' =>
    if h' ≤ h then some h else roundUp domain.upThresholds h'
  | _, _ => none

def widenNode (domain : Thresholds) :
    Option (Node Variable) × Option (Node Variable) -> Option (Node Variable)
  | (some x, some y) =>
    constrained x.v (widenLo domain x.lo y.lo) (widenHi domain x.hi y.hi)
  | _ => none

def widen (domain : Thresholds) :
    Element Variable -> Element Variable -> Element Variable
  | .bottom, b => b
  | .e aa, .bottom => .e aa
  | .e aa, .e bb => .e ((Node.merge aa bb).filterMap (widenNode domain))

/-!
# UpdateOne and Eliminate
-/

def splitAt (v : Variable) :
    List (Node Variable) -> List (Node Variable) × Bool × List (Node Variable)
  | [] => ([], false, [])
  | n :: next =>
    if v < n.v then ([], false, n :: next)
    else if n.v = v then ([], true, next)
    else
      let (head, foundV, rest) := splitAt v next
      (n :: head, foundV, rest)

def updateOne (nn : List (Node Variable)) (v : Variable)
    (lo hi : Option Int) : List (Node Variable) :=
  let (head, foundV, next) := splitAt v nn
  if lo = none ∧ hi = none then
    if foundV then head ++ next else nn
  else head ++ ⟨v, lo, hi⟩ :: next

def eliminate (element : Element Variable) (v : Variable) : Element Variable :=
  match element with
  | .bottom => .bottom
  | .e n => .e (updateOne n v none none)

end AbstractInterpretation
end Boogie
