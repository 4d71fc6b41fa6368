import Boogie.Core.Expr

/-!
# The domain of the decision-tree learner

The learner returns a tree that decides over the arguments of an existential
function and over the sums and differences of pairs of them.  The domain turns
the tree into a Boogie expression over the formal parameters.
-/

namespace Boogie

/-!
# Elements of a model
-/

inductive Model.Element where
  | boolean (value : Bool)
  | integer (numeral : Int)
  | datatypeValue (constructorName : String) (arguments : List Model.Element)
  | uninterpreted (name : String)
deriving Repr

namespace Model.Element

/-- `AsInt` parses a 32-bit integer. -/
def asInt : Element -> Option Int
  | integer n => if -2147483648 ≤ n ∧ n ≤ 2147483647 then some n else none
  | _ => none

/-- What an element stands for; a negative integer may come as a term. -/
def value : Element -> Option (Value U)
  | boolean b => some (.bool b)
  | integer n => some (.int n)
  | datatypeValue "-" [integer n] => some (.int (-n))
  | datatypeValue "+" [integer n] => some (.int n)
  | _ => none

end Model.Element

namespace MLHoudini

structure DataPoint where
  value : List Int
  functionName : String
deriving DecidableEq, Repr

def encodeElement : Model.Element -> Option Int
  | .boolean b => some (if b then 1 else 0)
  | .datatypeValue constructorName [arg] =>
    if constructorName = "-" then arg.asInt.map (fun n => -1 * n)
    else if constructorName = "+" then arg.asInt
    else none
  | .integer n => (Model.Element.integer n).asInt
  | _ => none

def dataPoint (funcName : String) (lm : List Model.Element) :
    Option DataPoint :=
  (lm.mapM encodeElement).map (fun value => ⟨value, funcName⟩)

def encode {U : Type} : Value U -> Int
  | .bool b => if b then 1 else 0
  | .int n => n
  | .other _ => 0

theorem encodeElement_value {U : Type} {m : Model.Element} {n : Int}
    (h : encodeElement m = some n) :
    exists v : Value U, m.value = some v ∧ encode v = n := by
  have hasInt : forall {arg : Model.Element} {k : Int}, arg.asInt = some k ->
      arg = .integer k := by
    intro arg k harg
    cases arg with
    | integer j =>
      simp only [Model.Element.asInt, Option.ite_none_right_eq_some,
        Option.some.injEq] at harg
      rw [harg.2]
    | _ => cases harg
  unfold encodeElement at h
  split at h
  · rename_i b
    cases h
    exact ⟨.bool b, rfl, rfl⟩
  · rename_i constructorName arg
    split at h
    · rename_i hname
      subst hname
      rcases Option.map_eq_some_iff.mp h with ⟨k, hk, rfl⟩
      rw [hasInt hk]
      exact ⟨.int (-k), rfl, (Int.neg_one_mul k).symm⟩
    · split at h
      · rename_i hname
        subst hname
        rw [hasInt h]
        exact ⟨.int n, rfl, rfl⟩
      · cases h
  · cases hasInt h
    exact ⟨.int n, rfl, rfl⟩
  · cases h

theorem dataPoint_value {U : Type} {funcName : String}
    {lm : List Model.Element} {d : DataPoint} (h : dataPoint funcName lm = some d) :
    exists vs : List (Value U), lm.mapM Model.Element.value = some vs ∧
      d.value = vs.map encode := by
  rcases Option.map_eq_some_iff.mp h with ⟨value, hvalue, rfl⟩
  clear h
  induction lm generalizing value with
  | nil =>
    cases hvalue
    exact ⟨[], rfl, rfl⟩
  | cons m lm ih =>
    simp only [List.mapM_cons, Option.pure_def, Option.bind_eq_bind,
      Option.bind_eq_some_iff, Option.some.injEq] at hvalue
    rcases hvalue with ⟨n, hn, ns, hns, rfl⟩
    rcases encodeElement_value (U := U) hn with ⟨v, hv, rfl⟩
    rcases ih ns hns with ⟨vs, hvs, hencode⟩
    refine ⟨v :: vs, ?_, ?_⟩
    · simp [hv, hvs]
    · simpa using hencode

/-!
# Existential functions
-/

def PlainName (name : String) : Prop :=
  '+' ∉ name.toList ∧ '-' ∉ name.toList

instance (name : String) : Decidable (PlainName name) :=
  inferInstanceAs (Decidable (_ ∧ _))

structure ExistentialFunction where
  name : String
  inParams : List TypedIdent
  types : forall p, p ∈ inParams -> p.type = .bool ∨ p.type = .int
  distinct : (inParams.map TypedIdent.name).Nodup
  plain : PlainName name
  plainParams : forall p, p ∈ inParams -> PlainName p.name

def ExistentialFunction.paramNames (F : ExistentialFunction) : List String :=
  F.inParams.map TypedIdent.name

def attrPrefix : String :=
  "$"

inductive Attribute (α : Type) where
  | parameter (x : α)
  | sum (x y : α)
  | difference (x y : α)
deriving DecidableEq, Repr

namespace Attribute

def map (f : α -> β) : Attribute α -> Attribute β
  | parameter x => parameter (f x)
  | sum x y => sum (f x) (f y)
  | difference x y => difference (f x) (f y)

def key (func : String) : Attribute TypedIdent -> String
  | parameter p => func ++ "$" ++ p.name
  | sum p q => attrPrefix ++ func ++ "$" ++ p.name ++ "+" ++ q.name
  | difference p q => attrPrefix ++ func ++ "$" ++ p.name ++ "-" ++ q.name

def formalExpr (p : TypedIdent) : Expr :=
  .ident (.formal p)

def expr : Attribute TypedIdent -> Expr
  | parameter p => formalExpr p
  | sum p q => .add (formalExpr p) (formalExpr q)
  | difference p q => .sub (formalExpr p) (formalExpr q)

def value : Attribute Int -> Int
  | parameter n => n
  | sum m n => m + n
  | difference m n => m - n

end Attribute

def pairs : List α -> List (α × α)
  | [] => []
  | x :: xs => xs.map (fun y => (x, y)) ++ pairs xs

def attributes (ident : α -> TypedIdent) (args : List α) :
    List (Attribute α) :=
  args.map .parameter ++
    (pairs args).flatMap (fun pair =>
      if (ident pair.1).type = .int ∧ (ident pair.2).type = .int then
        [.sum pair.1 pair.2, .difference pair.1 pair.2]
      else [])

namespace ExistentialFunction

def attr2Expr (F : ExistentialFunction) (key : String) : Option Expr :=
  ((attributes id F.inParams).reverse.find?
    (fun a => a.key F.name = key)).map Attribute.expr

/-- The attributes of a data point, as the names file defines them. -/
def attributeVector (F : ExistentialFunction) (point : List Int)
    (key : String) : Option Int :=
  ((attributes Prod.fst (F.inParams.zip point)).find?
    (fun a => (a.map Prod.fst).key F.name = key)).map
      (fun a => (a.map Prod.snd).value)

end ExistentialFunction

/-!
# Decision trees
-/

inductive C5TreeNode where
  | leaf (classification : String)
  | node (attr : String) (cut : Int) (children : List C5TreeNode)
deriving Repr

def decisionExpr (attExpr : Expr) (cut : Int) : Option Expr :=
  match attExpr.shallowType with
  | some .bool => if cut = 0 then some attExpr.not else none
  | some .int => some (.le attExpr (.intLiteral cut))
  | _ => none

/--
The conjunctions of the paths to positive leaves.  The stack holds the
conditions on the way to the node and is shared by all nodes, so it is
returned too.
-/
def C5TreeNode.constructBoogieExpr (attr2Expr : String -> Option Expr) :
    C5TreeNode -> List Expr -> Option (List (List Expr) × List Expr)
  | .leaf classification, stack =>
    if classification = "true" ∨ classification = "True" then
      some ([stack], stack)
    else some ([], stack)
  | .node attr cut [left, right], stack => do
      let attExpr <- attr2Expr attr
      let decision <- decisionExpr attExpr cut
      let (formulaLeft, stack) <-
        constructBoogieExpr attr2Expr left (stack ++ [decision])
      let (formulaRight, stack) <-
        constructBoogieExpr attr2Expr right (stack.dropLast ++ [decision.not])
      return (formulaLeft ++ formulaRight, stack.dropLast)
  | .node _ _ _, _ => none

/-!
# Expressions
-/

namespace ExtendsExpr

mutual

def replace (oldvars : List String) (newvars : List Expr) :
    Expr -> Option Expr
  | .literal l => some (.literal l)
  | .ident x =>
    match oldvars.idxOf? x.name with
    | some index => newvars[index]?
    | none => none
  | .nary f args => (replaceArgs oldvars newvars args).map (.nary f)
  | _ => none

def replaceArgs (oldvars : List String) (newvars : List Expr) :
    List Expr -> Option (List Expr)
  | [] => some []
  | a :: as =>
    match replace oldvars newvars a, replaceArgs oldvars newvars as with
    | some b, some bs => some (b :: bs)
    | _, _ => none

end

def conjunction : List Expr -> Expr
  | [] => .falseExpr
  | [e] => e
  | lhs :: exprs => .and lhs (conjunction exprs)

def disjunction : List (List Expr) -> Expr
  | [] => .falseExpr
  | [exprs] => conjunction exprs
  | lhs :: exprs => .or (conjunction lhs) (disjunction exprs)

def equalityComparer (model newmodel : Expr) : Bool :=
  decide (model = newmodel)

end ExtendsExpr

/-!
# The domain
-/

structure C5Domain where
  vars : List String
  model : Expr
deriving DecidableEq, Repr

namespace C5Domain

def new (functionFormalParams : List TypedIdent) : C5Domain where
  vars := functionFormalParams.map TypedIdent.name
  model := .trueExpr

def gamma (d : C5Domain) (newvars : List Expr) : Option Expr :=
  ExtendsExpr.replace d.vars newvars d.model

def constructModelOf (d : C5Domain) (node : C5TreeNode)
    (attr2Expr : String -> Option Expr) : Option (C5Domain × Bool) :=
  match node.constructBoogieExpr attr2Expr [.trueExpr] with
  | some (finalformula, _) =>
    let model :=
      if finalformula = [] then Expr.falseExpr
      else ExtendsExpr.disjunction finalformula
    some ({ d with model := model },
      !ExtendsExpr.equalityComparer model d.model)
  | none => none

/-- The root of the learner's tree has a child for every function. -/
def constructModel (d : C5Domain) (funcName : String) (root : C5TreeNode)
    (attribute2Expr : String -> Option (String -> Option Expr))
    (functionID : String -> Option Nat) : Option (C5Domain × Bool) := do
  let attr2Expr <- attribute2Expr funcName
  let id <- functionID funcName
  match root with
  | .node _ _ children =>
    let node <- children[id]?
    d.constructModelOf node attr2Expr
  | .leaf _ => none

end C5Domain

structure ExistentialFunctions where
  functions : List ExistentialFunction
  distinct : (functions.map ExistentialFunction.name).Nodup

namespace ExistentialFunctions

def attribute2Expr (fs : ExistentialFunctions) (name : String) :
    Option (String -> Option Expr) :=
  (fs.functions.find? (fun F => F.name = name)).map
    ExistentialFunction.attr2Expr

def functionID (fs : ExistentialFunctions) (name : String) : Option Nat :=
  (fs.functions.map ExistentialFunction.name).idxOf? name

end ExistentialFunctions

end MLHoudini

end Boogie
