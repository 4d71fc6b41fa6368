import Boogie.Basetypes.BigDecText
import Boogie.Foundation.Bracketed
import Mathlib.Data.List.DropRight

/-!
# The parser of templates

The tables are worked out by hand for the grammar `T -> (T) | T;T | T,T | Int`.
A failed assertion of the source is a message and nothing else.
-/

namespace Boogie
namespace Houdini
namespace TemplateParser

open Basetypes.BigDec (parseInt32)

inductive TemplateOperator where
  | disjunctionOp
  | conjunctionOp
deriving DecidableEq, Repr

abbrev Template := Bracketed.Tree Int TemplateOperator

inductive StackElementType where
  | templateType
  | intType
  | charType
  | noneType
deriving DecidableEq, Repr

structure StackElement where
  tempVal : Option Template
  intVal : Int
  charVal : Char
  t : StackElementType
  state : Nat
deriving DecidableEq, Repr

namespace StackElement

def ofInt (i : Int) (state : Nat) : StackElement :=
  ⟨none, i, '\x00', .intType, state⟩

def ofChar (c : Char) (state : Nat) : StackElement :=
  ⟨none, 0, c, .charType, state⟩

def ofTemplate (temp : Option Template) (state : Nat) : StackElement :=
  ⟨temp, 0, '\x00', .templateType, state⟩

def ofNone (state : Nat) : StackElement :=
  ⟨none, 0, '\x00', .noneType, state⟩

end StackElement

/-!
# The tables
-/

def shift : Nat -> Option (List (Char × Nat))
  | 0 => some [('(', 2), ('i', 3)]
  | 1 => some [(';', 4), (',', 5)]
  | 2 => some [('(', 2), ('i', 3)]
  | 4 => some [('(', 2), ('i', 3)]
  | 5 => some [('(', 2), ('i', 3)]
  | 6 => some [(')', 9), (';', 4), (',', 5)]
  | _ => none

def always (rule : Nat) : List (Char × Nat) :=
  [('(', rule), (')', rule), (';', rule), (',', rule), ('i', rule), ('$', rule)]

def reduce : Nat -> Option (List (Char × Nat))
  | 3 => some (always 4)
  | 7 => some (always 2)
  | 8 => some (always 3)
  | 9 => some (always 1)
  | _ => none

def goto_actions : Nat -> Option (List (Char × Nat))
  | 0 => some [('t', 1)]
  | 2 => some [('t', 6)]
  | 4 => some [('t', 7)]
  | 5 => some [('t', 8)]
  | _ => none

def lookup (table : Nat -> Option (List (Char × Nat))) (state : Nat) (c : Char) :
    Option Nat :=
  (table state).bind (fun row => row.lookup c)

/-!
# The lexer
-/

/-- The white space that `Int32.Parse` skips. -/
def isWhite (c : Char) : Bool :=
  c = ' ' || (9 ≤ c.toNat && c.toNat ≤ 13)

/-- `Int32.Parse`; `none` when it throws.  White space may stand around the
number and null characters at the end. -/
def int32Parse (cs : List Char) : Option Int :=
  parseInt32 (((cs.dropWhile isWhite).rdropWhile (· = '\x00')).rdropWhile isWhite)

def isDelimiter (c : Char) : Bool :=
  c = '(' || c = ')' || c = ';' || c = ','

def beforeDelimiter (str : List Char) : List Char :=
  str.takeWhile (fun c => !isDelimiter c)

def fromDelimiter (str : List Char) : List Char :=
  str.dropWhile (fun c => !isDelimiter c)

def invokeLexer : List Char -> Option (Char × Int)
  | [] => some ('$', 0)
  | c :: str =>
    if isDelimiter c then some (c, 0)
    else (int32Parse (beforeDelimiter (c :: str))).map (fun intVal => ('i', intVal))

/-!
# The steps
-/

structure State where
  stack : List StackElement
  str : List Char
deriving DecidableEq, Repr

/-- `goto_actions[stack.Peek().state]['t']` and the push of a template. -/
def pushTemplate (temp : Option Template) :
    List StackElement -> Option (List StackElement)
  | [] => none
  | top :: stack =>
    (lookup goto_actions top.state 't').map
      (fun newState => .ofTemplate temp newState :: top :: stack)

/-- A reduce rule.  The templates under an operator are never null in a run; the
model has no node for them. -/
def applyRule : Nat -> List StackElement -> Option (List StackElement)
  | 1, _ :: template :: _ :: stack => pushTemplate template.tempVal stack
  | 2, rightTemp :: _ :: leftTemp :: stack => do
      let right ← rightTemp.tempVal
      let left ← leftTemp.tempVal
      pushTemplate (some (.node .disjunctionOp left right)) stack
  | 3, rightTemp :: _ :: leftTemp :: stack => do
      let right ← rightTemp.tempVal
      let left ← leftTemp.tempVal
      pushTemplate (some (.node .conjunctionOp left right)) stack
  | 4, intElement :: stack => pushTemplate (some (.leaf intElement.intVal)) stack
  | _, _ => none

/-- `none` when the step throws.  Without an entry in the tables nothing but the
messages happens. -/
def processOneStep (lookahead : Char) (intVal : Int) (σ : State) : Option State :=
  match σ.stack with
  | [] => none
  | topElement :: _ =>
    match lookup shift topElement.state lookahead with
    | some tableValue =>
      if lookahead = 'i' then
        some ⟨.ofInt intVal tableValue :: σ.stack, fromDelimiter σ.str⟩
      else
        match σ.str with
        | [] => none
        | _ :: str => some ⟨.ofChar lookahead tableValue :: σ.stack, str⟩
    | none =>
      match lookup reduce topElement.state lookahead with
      | some rule =>
        (applyRule rule σ.stack).map (fun stack => ⟨stack, σ.str⟩)
      | none => some σ

inductive Outcome where
  | returned (ret : Option Template)
  | exception
  | running
deriving DecidableEq, Repr

/-- The loop of `Parse`.  The lexer is invoked in front of every test. -/
def parseLoop : Nat -> State -> Outcome
  | 0, _ => .running
  | fuel + 1, σ =>
    match invokeLexer σ.str, σ.stack with
    | some (lookahead, intVal), top :: _ =>
      if top.state ≠ 1 ∨ lookahead ≠ '$' then
        match processOneStep lookahead intVal σ with
        | some σ => parseLoop fuel σ
        | none => .exception
      else .returned top.tempVal
    | _, _ => .exception

/-- `initialize` and `Parse`. -/
def parse (fuel : Nat) (s : String) : Outcome :=
  parseLoop fuel ⟨[.ofNone 0], s.toList⟩

example : parse 20 "1;2,(3;4)" = .returned (some (.node .conjunctionOp
    (.node .disjunctionOp (.leaf 1) (.leaf 2))
    (.node .disjunctionOp (.leaf 3) (.leaf 4)))) := by decide +kernel

/-!
# The grammar
-/

def sign : TemplateOperator -> Char
  | .disjunctionOp => ';'
  | .conjunctionOp => ','

/-- The grammar of the source.  An integer is what `Int32.Parse` reads. -/
def grammar : Bracketed.Alphabet Char Int TemplateOperator where
  left := '('
  right := ')'
  op := sign
  Writes intVal text := int32Parse text = some intVal

/-- A text at the beginning of a token is no integer, and what is in front of it
begins a text of the grammar. -/
def MeetsUnreadable (str : List Char) : Prop :=
  exists front c post rest, str = front ++ c :: post ∧
    (forall d, d ∈ front.getLast? -> isDelimiter d = true) ∧
    isDelimiter c = false ∧ int32Parse (beforeDelimiter (c :: post)) = none ∧
    Bracketed.Derives grammar (front ++ rest)

/-- Exactly the strings of the grammar are read, with their trees, and an error
is reported on every other string. -/
structure ParsesCorrectly (s : String) : Prop where
  terminates : exists fuel, parse fuel s ≠ .running
  succeeds : (exists fuel ret, parse fuel s = .returned ret) <->
    Bracketed.Derives grammar s.toList
  grouped : forall t, (exists fuel, parse fuel s = .returned (some t)) <->
    Bracketed.Groups grammar .text s.toList t
  reports : ¬ Bracketed.Derives grammar s.toList ->
    exists fuel, parse fuel s = .exception

end TemplateParser
end Houdini
end Boogie
