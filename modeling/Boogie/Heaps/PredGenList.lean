import Boogie.Heaps.Permutations

/-!
# The generator of heap predicates

A predicate is a nested array, with an operator at the head of each array.  Numbers
from zero on stand for pointers, negative numbers for data.
-/

namespace Boogie
namespace Heaps

inductive Op where
  | list
  | list3
  | lseg
  | reach
  | reach3
  | keys
  | len
  | reachOld
  | keysOld
  | max
  | min
  | singletonO
  | singletonI
  | unionO
  | unionI
  | inO
  | inI
  | subsetO
  | subsetI
  | disjointO
  | disjointI
  | leO
  | leI
  | isNull
  | nonNull
  | next
  | prev
  | key
  | ltIntMax
  | ltUintMax
  | geZero
  | plus
  | minus
  | not
  | eq
  | neq
  | eqS
  | lt
  | le
  | and
  | implies
  | other (name : String)
deriving DecidableEq, Repr

inductive Term where
  | num (t : Int)
  | app (op : Op) (args : List Term)

/-- The globals that `init` sets. -/
structure Settings where
  lst : String
  lst2 : String
  lst3 : String
  node : String
  old : String
deriving DecidableEq, Repr

/-!
# Rendering
-/

/-- What the string of an operator is put together from: its own texts, and the
strings of its arguments. -/
inductive Piece where
  | text (s : String)
  | arg (n : Nat)
deriving DecidableEq, Repr

open Piece

def pieces (st : Settings) (arguments : Nat) : Op -> Option (List Piece)
  | .list => some [text ("F#" ++ st.lst ++ "($s,"), arg 1, text ")"]
  | .list3 => some [text ("F#" ++ st.lst3 ++ "($s,"), arg 1, text ")"]
  | .lseg => some [text ("F#" ++ st.lst ++ "_lseg($s,"), arg 1, text ",", arg 2, text ")"]
  | .reach =>
    if arguments > 1 then
      some [text ("F#" ++ st.lst ++ "_lseg_reach($s,"), arg 1, text ",", arg 2, text ")"]
    else some [text ("F#" ++ st.lst ++ "_reach($s,"), arg 1, text ")"]
  | .reach3 =>
    if arguments > 1 then
      some [text ("F#" ++ st.lst3 ++ "_lseg_reach($s,"), arg 1, text ",", arg 2, text ")"]
    else some [text ("F#" ++ st.lst3 ++ "_reach($s,"), arg 1, text ")"]
  | .keys =>
    if arguments > 1 then
      some [text ("F#" ++ st.lst2 ++ "_lseg_keys($s,"), arg 1, text ",", arg 2, text ")"]
    else some [text ("F#" ++ st.lst2 ++ "_keys($s,"), arg 1, text ")"]
  | .len =>
    if arguments > 1 then
      some [text ("F#" ++ st.lst2 ++ "_lseg_len_next($s,"), arg 1, text ",", arg 2, text ")"]
    else some [text ("F#" ++ st.lst2 ++ "_list_len_next($s,"), arg 1, text ")"]
  | .reachOld =>
    if arguments > 1 then
      some [text ("F#" ++ st.lst ++ "_lseg_reach(" ++ st.old ++ ","), arg 1, text ",",
        arg 2, text ")"]
    else some [text ("F#" ++ st.lst ++ "_reach(" ++ st.old ++ ","), arg 1, text ")"]
  | .keysOld =>
    if arguments > 1 then
      some [text ("F#" ++ st.lst2 ++ "_lseg_keys(" ++ st.old ++ ","), arg 1, text ",",
        arg 2, text ")"]
    else some [text ("F#" ++ st.lst2 ++ "_keys(" ++ st.old ++ ","), arg 1, text ")"]
  | .max =>
    if arguments > 1 then
      some [text ("F#" ++ st.lst2 ++ "_lseg_max_key($s,"), arg 1, text ",", arg 2, text ")"]
    else some [text ("F#" ++ st.lst2 ++ "_max_key($s,"), arg 1, text ")"]
  | .min =>
    if arguments > 1 then
      some [text ("F#" ++ st.lst2 ++ "_lseg_min_key($s,"), arg 1, text ",", arg 2, text ")"]
    else some [text ("F#" ++ st.lst2 ++ "_min_key($s,"), arg 1, text ")"]
  | .singletonO => some [text "$oset_singleton(", arg 1, text ")"]
  | .singletonI => some [text "$intset_singleton(", arg 1, text ")"]
  | .unionO => some [text "$oset_union(", arg 1, text ",", arg 2, text ")"]
  | .unionI => some [text "$intset_union(", arg 1, text ",", arg 2, text ")"]
  | .inO => some [text "$oset_in(", arg 1, text ",", arg 2, text ")"]
  | .inI => some [text "$intset_in(", arg 1, text ",", arg 2, text ")"]
  | .subsetO => some [text "$oset_subset(", arg 1, text ",", arg 2, text ")"]
  | .subsetI => some [text "$intset_subset(", arg 1, text ",", arg 2, text ")"]
  | .disjointO => some [text "$oset_disjoint(", arg 1, text ",", arg 2, text ")"]
  | .disjointI => some [text "$intset_disjoint(", arg 1, text ",", arg 2, text ")"]
  | .leO => some [text "$oset_le(", arg 1, text ",", arg 2, text ")"]
  | .leI => some [text "$intset_le(", arg 1, text ",", arg 2, text ")"]
  | .isNull => some [text "$is_null(", arg 1, text ")"]
  | .nonNull => some [text "$non_null(", arg 1, text ")"]
  | .next => some [text ("$rd_phys_ptr($s," ++ st.node ++ "_node.next,"), arg 1,
      text (",^" ++ st.node ++ "_node)")]
  | .prev => some [text ("$rd_phys_ptr($s," ++ st.node ++ "_node.prev,"), arg 1,
      text (",^" ++ st.node ++ "_node)")]
  | .key => some [text ("$rd_inv($s," ++ st.node ++ "_node.key,"), arg 1, text ")"]
  | .ltIntMax => some [text "(", arg 1, text " < ", text "2147483647", text ")"]
  | .ltUintMax => some [text "(", arg 1, text " < ", text "4294967295", text ")"]
  | .geZero => some [text "(", arg 1, text " >= ", text "0", text ")"]
  | .plus => some [text "(", arg 1, text " + ", arg 2, text ")"]
  | .minus => some [text "(", arg 1, text " - ", arg 2, text ")"]
  | .not => some [text "(!(", arg 1, text "))"]
  | .eq => some [text "(", arg 1, text " == ", arg 2, text ")"]
  | .neq => some [text "(", arg 1, text " != ", arg 2, text ")"]
  | .eqS => some [text "(", arg 1, text " == ", arg 2, text ")"]
  | .lt => some [text "(", arg 1, text " < ", arg 2, text ")"]
  | .le => some [text "(", arg 1, text " <= ", arg 2, text ")"]
  | .implies => some [text "(", arg 1, text " ==> ", arg 2, text ")"]
  | .and => none
  | .other _ => none

def Op.unknownName : Op -> String
  | .other name => name
  | _ => ""

/-- `k` and `str` have no declaration in `ts`: they are globals of the script. -/
structure Globals where
  k : Nat
  str : String
deriving DecidableEq, Repr

inductive Outcome (A : Type) where
  | returns (a : A) (g : Globals)
  | throws (message : String)
  | running
deriving DecidableEq, Repr

def Outcome.andThen {A B : Type} : Outcome A -> (A -> Globals -> Outcome B) -> Outcome B
  | .returns a g, f => f a g
  | .throws message, _ => .throws message
  | .running, _ => .running

def nameAt (names : List String) (n : Nat) : String :=
  names.getD n "undefined"

def tsNumber (st : Settings) (p i : List String) (t : Int) : String :=
  if t ≥ 0 then "$phys_ptr_cast(" ++ nameAt p t.toNat ++ ",^" ++ st.node ++ "_node)"
  else nameAt i ((-1 * t).toNat - 1)

def tsArgument (render : Term -> Globals -> Outcome String) (args : List Term) (n : Nat)
    (g : Globals) : Outcome String :=
  match args[n - 1]? with
  | some t => render t g
  | none => .throws "TypeError"

def tsPieces (render : Term -> Globals -> Outcome String) (args : List Term) :
    List Piece -> Globals -> Outcome String
  | [], g => .returns "" g
  | .text s :: rest, g =>
    (tsPieces render args rest g).andThen (fun r g => .returns (s ++ r) g)
  | .arg n :: rest, g =>
    (tsArgument render args n g).andThen (fun s g =>
      (tsPieces render args rest g).andThen (fun r g => .returns (s ++ r) g))

mutual

def ts (st : Settings) (p i : List String) :
    Nat -> Term -> Globals -> Outcome String
  | 0, _, _ => .running
  | _ + 1, .num t, g => .returns (tsNumber st p i t) g
  | fuel + 1, .app op args, g =>
    if op = .and then
      if args.length > 1 then
        (tsArgument (ts st p i fuel) args 1 g).andThen (fun s g =>
          tsAnd st p i fuel args { g with str := "(" ++ s, k := 2 })
      else .throws ("illegal arguments: and")
    else
      match pieces st args.length op with
      | some ps => tsPieces (ts st p i fuel) args ps g
      | none => .throws ("unknown op: " ++ op.unknownName)

/-- The `for` loop over the arguments of `and`.  The value of `str` on the left of `+=`
is read before `ts` is called, the value of `k` after the call is the one that the next
round starts from. -/
def tsAnd (st : Settings) (p i : List String) :
    Nat -> List Term -> Globals -> Outcome String
  | 0, _, _ => .running
  | fuel + 1, args, g =>
    if g.k < args.length + 1 then
      (tsArgument (ts st p i fuel) args g.k g).andThen (fun s g' =>
        tsAnd st p i fuel args { k := g'.k + 1, str := g.str ++ (" && " ++ s) })
    else .returns (g.str ++ ")") { g with str := g.str ++ ")" }

end

/-!
# The candidates
-/

mutual

def findmax : Term -> Int
  | .num _ => 0
  | .app _ args => maxArguments 0 args

def maxArguments (max : Int) : List Term -> Int
  | [] => max
  | .num n :: rest => maxArguments (Max.max max n) rest
  | .app op args :: rest => maxArguments (Max.max max (findmax (.app op args))) rest

end

def numptrs (t : Term) : Int :=
  findmax t + 1

mutual

def findmin : Term -> Int
  | .num _ => 0
  | .app _ args => minArguments 0 args

def minArguments (min : Int) : List Term -> Int
  | [] => min
  | .num n :: rest => minArguments (Min.min min n) rest
  | .app op args :: rest => minArguments (Min.min min (findmin (.app op args))) rest

end

def numints (t : Term) : Int :=
  findmin t * -1

def padLeft (length : Nat) (r : String) : String :=
  if r.length < length then padLeft length ("0" ++ r) else r
termination_by length - r.length
decreasing_by
  rw [String.length_append]
  have hzero : "0".length = 1 := rfl
  omega

def pad (num length : Nat) : String :=
  padLeft length (toString num)

def digits : Nat := 4

def guard (cnt : Nat) : String :=
  "b" ++ pad cnt digits

structure Invariant where
  guard : String
  body : String
deriving DecidableEq, Repr

def Invariant.text (v : Invariant) : String :=
  "invariant " ++ v.guard ++ " ==> (" ++ v.body ++ ");"

def printInvariant (st : Settings) (fuel : Nat) (t : Term) (p i : List String) (cnt : Nat)
    (g : Globals) : Outcome Invariant :=
  (ts st p i fuel t g).andThen (fun s g => .returns ⟨guard cnt, s⟩ g)

def printAll (st : Settings) (fuel : Nat) (t : Term) :
    List (List String × List String) -> Nat -> Globals -> Outcome (List Invariant)
  | [], _, g => .returns [] g
  | (p, i) :: rest, cnt, g =>
    (printInvariant st fuel t p i cnt g).andThen (fun v g =>
      (printAll st fuel t rest (cnt + 1) g).andThen (fun vs g => .returns (v :: vs) g))

def heapSelections (ptrs : List String) (t : Term) : List (List String × List String) :=
  if numptrs t ≤ ptrs.length then
    (((permutations ptrs)[(numptrs t).toNat]?).getD []).map (fun p => (p, []))
  else []

def dataSelections (ptrs ints : List String) (t : Term) :
    List (List String × List String) :=
  if numptrs t ≤ ptrs.length ∧ numints t ≤ ints.length then
    (((permutations ptrs)[(numptrs t).toNat]?).getD []).flatMap (fun p =>
      (((permutations ints)[(numints t).toNat]?).getD []).map (fun i => (p, i)))
  else []

/-- The loop over a list of patterns, with the candidates of each pattern. -/
def printPatterns (st : Settings) (fuel : Nat)
    (selections : Term -> List (List String × List String)) :
    List Term -> Nat -> Globals -> Outcome (List (List Invariant))
  | [], _, g => .returns [] g
  | t :: rest, cnt, g =>
    (printAll st fuel t (selections t) cnt g).andThen (fun vs g =>
      (printPatterns st fuel selections rest (cnt + vs.length) g).andThen (fun vss g =>
        .returns (vs :: vss) g))

/-- The printed text: the candidates pattern by pattern, and the declarations. -/
structure Generated where
  heap : List (List Invariant)
  data : List (List Invariant)
  consts : List String
deriving DecidableEq, Repr

def constText (guard : String) : String :=
  "const \x7b:existential true\x7d " ++ guard ++ " : bool;"

namespace Generated

def invariants (r : Generated) : List Invariant :=
  r.heap.flatten ++ r.data.flatten

def lines (r : Generated) : List String :=
  r.invariants.map Invariant.text ++ "INV" :: r.consts

end Generated

/-- `main` after `init`. -/
def PredGenList.main (st : Settings) (ptrs ints : List String) (patterns_heap patterns_data : List Term)
    (fuel : Nat) (g : Globals) : Outcome Generated :=
  (printPatterns st fuel (heapSelections ptrs) patterns_heap 0 g).andThen (fun heap g =>
    (printPatterns st fuel (dataSelections ptrs ints) patterns_data heap.flatten.length
        g).andThen (fun data g =>
      let cnt := heap.flatten.length + data.flatten.length
      .returns ⟨heap, data, (List.range cnt).map (fun i => constText (guard i))⟩ g))

end Heaps
end Boogie
