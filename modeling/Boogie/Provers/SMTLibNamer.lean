import Boogie.VCExpr.NameClashResolver

/-!
# Names for SMT-LIB

Inherent names that are keywords get a prefix, and names with other characters
than those of simple symbols are quoted.
-/

namespace Boogie
namespace SMTLib

open VCExprAST (Name UniqueNamer)

def idCharacters : List Char := "~!@$%^&*_-+=<>.?/".toList

def reservedSmtWords : List Name := [
  -- Basic symbols:
  "", "!", "_", "as", "DECIMAL", "exists", "forall", "let", "NUMERAL", "par",
  "STRING",
  -- Commands:
  "assert", "check-sat", "declare-sort", "declare-fun", "define-sort,",
  "define-fun", "exit", "get-assertions", "get-assignment", "get-info",
  "get-option,", "get-proof", "get-unsat-core", "get-value", "pop", "push",
  "set-logic", "set-info", "set-option",
  -- Core theory:
  "and", "or", "not", "iff", "true", "false", "xor", "distinct", "ite", "=",
  "Bool", "=>",
  -- Integers and reals
  "Int", "Real", "*", "/", "-", "+", "<", "<=", ">", ">=", "div", "mod",
  -- Bitvectors
  "extract", "concat", "bvnot", "bvneg", "bvand", "bvor", "bvadd", "bvmul",
  "bvudiv", "bvurem", "bvshl", "bvlshr", "bvult",
  -- arrays
  "store", "select", "const", "default", "map", "union", "intersect",
  "difference", "complement", "subset", "array-ext", "as-array", "Array",
  -- Z3 extensions to bitvectors
  "bit1", "bit0", "bvsub", "bvsdiv", "bvsrem", "bvsmod", "bvsdiv0", "bvudiv0",
  "bvsrem0", "bvurem0", "bvsmod0", "bvsdiv_i", "bvudiv_i", "bvsrem_i", "bvurem_i",
  "bvumod_i", "bvule", "bvsle", "bvuge", "bvsge", "bvslt", "bvugt", "bvsgt",
  "bvxor", "bvnand", "bvnor", "bvxnor", "sign_extend", "zero_extend", "repeat",
  "bvredor", "bvredand", "bvcomp", "bvumul_noovfl", "bvsmul_noovfl",
  "bvsmul_noudfl", "bvashr", "rotate_left", "rotate_right", "ext_rotate_left",
  "ext_rotate_right", "int2bv", "bv2int",
  -- floating point
  "plusInfinity", "minusInfinity", "NaN", "roundNearestTiesToEven",
  "roundNearestTiesToAway", "roundTowardPositive", "roundTowardNegative",
  "roundTowardZero", "+", "-", "/", "*", "==", "<", ">", "<=", ">=", "abs",
  "remainder", "fusedMA", "squareRoot", "roundToIntegral", "isZero", "isNZero",
  "isPZero", "isSignMinus", "min", "max", "asFloat",
  -- SMT v1 stuff
  "flet", "implies", "!=", "if_then_else",
  -- Z3 extensions
  "lblneg", "lblpos", "lbl-lit", "if", "&&", "||", "equals", "equiv", "bool",
  -- Boogie-defined
  "real_pow", "UOrdering2", "UOrdering3"].map String.toList

/-- `char.IsLetterOrDigit` for characters below 255. -/
def isLetterOrDigit (c : Char) : Bool :=
  c.isAlphanum || c.toNat = 0xAA || c.toNat = 0xB5 || c.toNat = 0xBA ||
    (0xC0 ≤ c.toNat && c.toNat ≠ 0xD7 && c.toNat ≠ 0xF7)

def validIdChar (c : Char) : Bool :=
  c.toNat < 255 && (isLetterOrDigit c || idCharacters.contains c)

def addQuotes (s : Name) : Name :=
  if s.all validIdChar then s else '|' :: s ++ ['|']

def replace (c : Char) (s : Name) : Name :=
  s.map (fun d => if d = c then '_' else d)

def nonKeyword (isDigit : Char -> Bool) (s : Name) : Name :=
  let s := if s ∈ reservedSmtWords ∨ s.head?.any isDigit then 'q' :: '@' :: s else s
  replace '\\' (replace '|' s)

/-!
# The operations of a namer
-/

inductive Class where
  | uniqueNamer
  | smtLibNamer
deriving DecidableEq

structure Namer (Obj : Type) where
  cls : Class
  names : UniqueNamer Obj

namespace Namer

variable {Obj : Type}

/-- `new SMTLibNamer()` -/
def initial : Namer Obj where
  cls := .smtLibNamer
  names := .initial

def baseName (isDigit : Char -> Bool) (n : Namer Obj) (inherentName : Name) : Name :=
  match n.cls with
  | .uniqueNamer => inherentName
  | .smtLibNamer => nonKeyword isDigit inherentName

def print (n : Namer Obj) (name : Name) : Name :=
  match n.cls with
  | .uniqueNamer => name
  | .smtLibNamer => addQuotes name

/-- `Clone` is not overridden: the copy is a `UniqueNamer`. -/
def clone (n : Namer Obj) : Namer Obj where
  cls := .uniqueNamer
  names := n.names

def pushScope (n : Namer Obj) : Namer Obj :=
  { n with names := n.names.pushScope }

def popScope (n : Namer Obj) : Option (Namer Obj) :=
  n.names.popScope.map (fun names => { n with names := names })

variable [DecidableEq Obj] (isDigit : Char -> Bool)

def getQuotedName (n : Namer Obj) (thingie : Obj) (inherentName : Name) :
    Name × Namer Obj :=
  let r := n.names.getName thingie (n.baseName isDigit inherentName)
  (n.print r.1, { n with names := r.2 })

def getQuotedLocalName (n : Namer Obj) (thingie : Obj) (inherentName : Name) :
    Option (Name × Namer Obj) :=
  (n.names.getLocalName thingie (n.baseName isDigit inherentName)).map
    (fun r => (n.print r.1, { n with names := r.2 }))

end Namer

/-- After `clone` the copy is used. -/
inductive Operation (Obj : Type) where
  | getQuotedName (thingie : Obj) (inherentName : Name)
  | getQuotedLocalName (thingie : Obj) (inherentName : Name)
  | pushScope
  | popScope
  | clone

section Runs

variable {Obj : Type} [DecidableEq Obj] (isDigit : Char -> Bool)

def step (n : Namer Obj) : Operation Obj -> Option (Namer Obj)
  | .getQuotedName o s => some (n.getQuotedName isDigit o s).2
  | .getQuotedLocalName o s => (n.getQuotedLocalName isDigit o s).map Prod.snd
  | .pushScope => some n.pushScope
  | .popScope => n.popScope
  | .clone => some n.clone

def run (n : Namer Obj) : List (Operation Obj) -> Option (Namer Obj)
  | [] => some n
  | op :: ops => (step isDigit n op).bind (fun n' => run n' ops)

def generates (n : Namer Obj) : Operation Obj -> List Name
  | .getQuotedName o s =>
    match n.names.nameOf o with
    | some _ => []
    | none => [(n.names.freeName (n.baseName isDigit s)).1]
  | .getQuotedLocalName _ s => [(n.names.freeName (n.baseName isDigit s)).1]
  | _ => []

def generated (n : Namer Obj) : List (Operation Obj) -> List Name
  | [] => []
  | op :: ops =>
    match step isDigit n op with
    | none => []
    | some n' => generates isDigit n op ++ generated n' ops

end Runs

/-- Operations that close the scopes they open and no other ones. -/
inductive Balanced {Obj : Type} : List (Operation Obj) -> Prop where
  | nil : Balanced []
  | getQuotedName (o : Obj) (s : Name) {ops : List (Operation Obj)}
      (hrest : Balanced ops) : Balanced (.getQuotedName o s :: ops)
  | getQuotedLocalName (o : Obj) (s : Name) {ops : List (Operation Obj)}
      (hrest : Balanced ops) : Balanced (.getQuotedLocalName o s :: ops)
  | clone {ops : List (Operation Obj)} (hrest : Balanced ops) :
      Balanced (.clone :: ops)
  | scope {inner ops : List (Operation Obj)} (hinner : Balanced inner)
      (hrest : Balanced ops) :
      Balanced (.pushScope :: (inner ++ .popScope :: ops))

/-- Operations that leave the scopes open and do not register the object again,
unless in a scope that they close. -/
inductive Keeps {Obj : Type} (o : Obj) : List (Operation Obj) -> Prop where
  | nil : Keeps o []
  | getQuotedName (o' : Obj) (s : Name) {ops : List (Operation Obj)}
      (hrest : Keeps o ops) : Keeps o (.getQuotedName o' s :: ops)
  | getQuotedLocalName {o' : Obj} (s : Name) {ops : List (Operation Obj)}
      (hne : o ≠ o') (hrest : Keeps o ops) :
      Keeps o (.getQuotedLocalName o' s :: ops)
  | clone {ops : List (Operation Obj)} (hrest : Keeps o ops) :
      Keeps o (.clone :: ops)
  | pushScope {ops : List (Operation Obj)} (hrest : Keeps o ops) :
      Keeps o (.pushScope :: ops)
  | scope {inner ops : List (Operation Obj)} (hinner : Balanced inner)
      (hrest : Keeps o ops) :
      Keeps o (.pushScope :: (inner ++ .popScope :: ops))

/-!
# Symbols
-/

def Quotable (s : Name) : Prop :=
  '|' ∉ s ∧ '\\' ∉ s

theorem not_mem_replace {c d : Char} {s : Name} (hd : '_' ≠ d)
    (h : d ∉ s ∨ c = d) : d ∉ replace c s := by
  intro hmem
  rcases List.mem_map.mp hmem with ⟨e, he, heq⟩
  split at heq
  next => exact hd heq
  next hec =>
    rcases h with hs | hcd
    · exact hs (heq ▸ he)
    · exact hec (heq.trans hcd.symm)

theorem quotable_nonKeyword (isDigit : Char -> Bool) (s : Name) :
    Quotable (nonKeyword isDigit s) := by
  unfold nonKeyword
  constructor
  · refine not_mem_replace (by simp) (Or.inl ?_)
    exact not_mem_replace (by simp) (Or.inr rfl)
  · exact not_mem_replace (by simp) (Or.inr rfl)

theorem Quotable.numbered {s : Name} (h : Quotable s) (counter : Nat) :
    Quotable (UniqueNamer.numbered s counter) := by
  have hother : forall c, c ∉ s -> c ≠ '@' -> c.isDigit = false ->
      c ∉ UniqueNamer.numbered s counter := by
    intro c hs hat hdigit hmem
    rcases List.mem_append.mp hmem with hfront | hdigits
    · rcases List.mem_append.mp hfront with hbase | hspacer
      · exact hs hbase
      · simp [UniqueNamer.spacer, hat] at hspacer
    · have hin := Nat.isDigit_of_mem_toDigits (by omega) (by omega) hdigits
      rw [hdigit] at hin
      cases hin
  exact ⟨hother _ h.1 (by simp) rfl, hother _ h.2 (by simp) rfl⟩

theorem quotable_freeName {Obj : Type} {n : UniqueNamer Obj} {s : Name}
    (h : Quotable s) : Quotable (n.freeName s).1 := by
  rcases n.freeName_cases s with heq | ⟨counter, heq⟩
  · rw [heq]
    exact h
  · rw [heq]
    exact h.numbered counter

end SMTLib
end Boogie
