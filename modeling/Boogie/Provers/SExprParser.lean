import Mathlib.Data.List.Basic

/-!
# Reading the responses of the prover

The prover writes lines. They are read one at a time into a buffer, from which
the parser takes the characters of symbolic expressions.
-/

namespace Boogie
namespace SMTLibProcess

/-- An expression with its name and its arguments; an atom has no arguments. -/
inductive SExpr where
  | mk (name : String) (arguments : List SExpr)

/-- The buffer of the process: the lines that were not read yet and, of the
current line, the characters from `linePos` on. The process has exited when no
line is left. -/
structure State where
  proverOutput : List (List Char)
  currLine : Option (List Char)
  /-- The messages given to the error handler. -/
  handled : List String
deriving DecidableEq, Repr

/-- An exception that ends a call. -/
inductive Failure where
  | indexOutOfRange
  | nullReference
  /-- The bound on the recursion was too small. -/
  | outOfFuel
deriving DecidableEq, Repr

/-- `char.IsWhiteSpace`: the space separators, the line and paragraph
separators, and the control characters of layout. -/
def isWhiteSpace (c : Char) : Bool :=
  let n := c.toNat
  n = 0x20 || (0x09 ≤ n && n ≤ 0x0D) || n = 0x85 || n = 0xA0 || n = 0x1680 ||
    (0x2000 ≤ n && n ≤ 0x200A) || n = 0x2028 || n = 0x2029 || n = 0x202F ||
    n = 0x205F || n = 0x3000

/-- The null character. -/
def nul : Char := Char.ofNat 0

/-!
# SkipWs and ParseId
-/

def skipLines (handled : List String) : List (List Char) -> Char × State
  | [] => (nul, ⟨[], none, handled⟩)
  | line :: rest =>
    match line.dropWhile isWhiteSpace with
    | [] => skipLines handled rest
    | c :: cs => (c, ⟨rest, some (c :: cs), handled⟩)

def skipWs (s : State) : Char × State :=
  match s.currLine with
  | none => skipLines s.handled s.proverOutput
  | some line =>
    match line.dropWhile isWhiteSpace with
    | [] => skipLines s.handled s.proverOutput
    | c :: cs => (c, { s with currLine := some (c :: cs) })

def State.shift (s : State) : State :=
  { s with currLine := s.currLine.map List.tail }

def State.parseError (s : State) (msg : String) : State :=
  { s with handled := s.handled ++ ["Error parsing prover output: " ++ msg] }

def parseQuoted (beg : Char) : List Char -> List (List Char) ->
    Except Failure (List Char × Option (List Char) × List (List Char))
  | [], [] => .ok (['\n'], none, [])
  -- A new line is read without a check that it has a character.
  | [], [] :: _ => .error .indexOutOfRange
  | [], (c :: cs) :: rest => do
      let (id, line, lines) ← parseQuoted beg (c :: cs) rest
      return ('\n' :: id, line, lines)
  | c :: cs, rest =>
    if c = beg then .ok ([], some cs, rest)
    else if c = '\\' ∧ cs.head? = some '"' then do
      let (id, line, lines) ← parseQuoted beg cs.tail rest
      return ('"' :: id, line, lines)
    else do
      let (id, line, lines) ← parseQuoted beg cs rest
      return (c :: id, line, lines)
termination_by line lines => (lines.length, line.length)
decreasing_by
  · exact Prod.Lex.left _ _ (Nat.lt_succ_self _)
  · refine Prod.Lex.right _ ?_
    simp only [List.length_tail, List.length_cons]
    omega
  · exact Prod.Lex.right _ (Nat.lt_succ_self _)

def isDelimiter (c : Char) : Bool :=
  isWhiteSpace c || c = '(' || c = ')'

def parseId (s : State) : Except Failure (String × State) :=
  let (beg, s) := skipWs s
  match s.currLine with
  | none => .error .nullReference
  | some line =>
    if beg = '"' || beg = '|' then do
      let (id, line, lines) ← parseQuoted beg line.tail s.proverOutput
      return (String.ofList id, ⟨lines, line, s.handled⟩)
    else
      .ok (String.ofList (line.takeWhile (fun c => !isDelimiter c)),
        { s with currLine := some (line.dropWhile (fun c => !isDelimiter c)) })

/-!
# ParseSExprs
-/

def parseHead (c : Char) (s : State) : Except Failure (String × State) :=
  if c = '(' then .ok ("", s) else parseId s

def closeList (id : String) (s : State) : State :=
  let (c, s) := skipWs s
  if c = ')' then s.shift else s.parseError ("unclosed '(" ++ id ++ "'")

def parseSExprs : Nat -> Bool -> State -> Except Failure (List SExpr × State)
  | 0, _, _ => .error .outOfFuel
  | fuel + 1, top, s =>
    let (c, s) := skipWs s
    if c = nul then .ok ([], s)
    else if c = ')' then
      .ok ([], if top then s.parseError "stray ')'" else s)
    else if c = '(' then
      let (c, s) := skipWs s.shift
      if c = nul then
        .ok ([], s.parseError "expecting something after '('")
      else do
        let (id, s) ← parseHead c s
        let (args, s) ← parseSExprs fuel false s
        let s := closeList id s
        if top then return ([.mk id args], s)
        else do
          let (more, s) ← parseSExprs fuel false s
          return (.mk id args :: more, s)
    else do
      let (id, s) ← parseId s
      if top then return ([.mk id []], s)
      else do
        let (more, s) ← parseSExprs fuel false s
        return (.mk id [] :: more, s)

end SMTLibProcess
end Boogie
