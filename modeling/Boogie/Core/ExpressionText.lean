import Boogie.Foundation.SharedIndex
import Mathlib.Data.List.Chain
import Mathlib.Data.List.TakeWhile
import Mathlib.Data.Nat.Digits.Defs
import Std.Data.String.ToNat

/-!
# The text of expressions

The part of the grammar of Boogie that has identifiers, calls, numbers, parentheses
and the operators below.  The parser keeps the parentheses.
-/

namespace Boogie
namespace ExpressionText

open SharedIndex (Rose)

inductive Opcode where
  | eq
  | neq
  | lt
  | le
  | gt
  | ge
  | add
  | sub
  | imp
deriving DecidableEq, Repr

inductive Production where
  | relOp
  | addOp
  | impliesOp
deriving DecidableEq, Repr

namespace Opcode

def production : Opcode -> Production
  | add => .addOp
  | sub => .addOp
  | imp => .impliesOp
  | _ => .relOp

def text : Opcode -> String
  | eq => "=="
  | neq => "!="
  | lt => "<"
  | le => "<="
  | gt => ">"
  | ge => ">="
  | add => "+"
  | sub => "-"
  | imp => "==>"

end Opcode

/-- A node of a parse tree.  A conjunction has all its conjuncts as children. -/
inductive Label where
  | ident (x : String)
  | nat (n : Nat)
  | call (f : String)
  | paren
  | not
  | binary (op : Opcode)
  | conj
deriving DecidableEq, Repr

abbrev ParseTree := Rose Label

namespace ParseTree

def ident (x : String) : ParseTree := Rose.node (.ident x) []

def nat (n : Nat) : ParseTree := Rose.node (.nat n) []

def call (f : String) (args : List ParseTree) : ParseTree := Rose.node (.call f) args

def paren (e : ParseTree) : ParseTree := Rose.node .paren [e]

def not (e : ParseTree) : ParseTree := Rose.node .not [e]

def binary (op : Opcode) (e0 e1 : ParseTree) : ParseTree := Rose.node (.binary op) [e0, e1]

def conj (es : List ParseTree) : ParseTree := Rose.node .conj es

end ParseTree

/-!
# The scanner
-/

inductive Token where
  | ident (x : String)
  | digits (n : Nat)
  | lparen
  | rparen
  | comma
  | neg
  | and
  | op (o : Opcode)
deriving DecidableEq, Repr

/-- `letter + special` -/
def isNondigit (c : Char) : Bool :=
  c.isAlpha || "'~#$^_.?`".toList.contains c

def isIdentChar (c : Char) : Bool :=
  isNondigit c || c.isDigit

def keywords : List String :=
  ["assert", "assume", "async", "axiom", "bool", "break", "call", "complete", "const",
    "div", "else", "ensures", "exists", "extends", "false", "forall", "free", "function",
    "goto", "havoc", "if", "implementation", "int", "invariant", "lambda", "mod",
    "modifies", "old", "par", "procedure", "real", "requires", "return", "returns",
    "then", "true", "type", "unique", "var", "where", "while", "yield"]

def isIdentText : List Char -> Bool
  | '\\' :: c :: cs => isNondigit c && cs.all isIdentChar
  | c :: cs => isNondigit c && cs.all isIdentChar
  | [] => false

theorem isIdentText_cons {c : Char} {cs : List Char} (h : c ≠ '\\') :
    isIdentText (c :: cs) = (isNondigit c && cs.all isIdentChar) := by
  cases cs with
  | nil => simp [isIdentText]
  | cons d cs => simp [isIdentText, h]

def isIdent (x : String) : Bool :=
  isIdentText x.toList && !keywords.contains x

def symbol : Char -> List Char -> Option (Token × Nat)
  | '(', _ => some (.lparen, 0)
  | ')', _ => some (.rparen, 0)
  | ',', _ => some (.comma, 0)
  | '+', '+' :: _ => none
  | '+', _ => some (.op .add, 0)
  | '-', _ => some (.op .sub, 0)
  | '!', '=' :: _ => some (.op .neq, 1)
  | '!', _ => some (.neg, 0)
  | '=', '=' :: '>' :: _ => some (.op .imp, 2)
  | '=', '=' :: _ => some (.op .eq, 1)
  | '<', '=' :: '=' :: _ => none
  | '<', '=' :: _ => some (.op .le, 1)
  | '<', ':' :: _ => none
  | '<', _ => some (.op .lt, 0)
  | '>', '=' :: _ => some (.op .ge, 1)
  | '>', _ => some (.op .gt, 0)
  | '&', '&' :: _ => some (.and, 1)
  | _, _ => none

def continuesNumber : List Char -> Bool
  | c :: _ => c = 'b' || c = 'e' || c = '.'
  | [] => false

/-- The tokens of a text; `none` when there are others than those above. -/
def scan : List Char -> Option (List Token)
  | [] => some []
  | c :: cs =>
    if c = ' ' || c = '\t' || c = '\r' || c = '\n' then scan cs
    else if c = '\\' || isNondigit c then
      let x := String.ofList (c :: cs.takeWhile isIdentChar)
      if isIdent x then (scan (cs.dropWhile isIdentChar)).map (.ident x :: ·)
      else none
    else if c.isDigit then
      let n := Nat.ofDigitChars 10 (c :: cs.takeWhile Char.isDigit) 0
      if continuesNumber (cs.dropWhile Char.isDigit) then none
      else (scan (cs.dropWhile Char.isDigit)).map (.digits n :: ·)
    else
      (symbol c cs).bind (fun found => (scan (cs.drop found.2)).map (found.1 :: ·))
termination_by cs => cs.length
decreasing_by
  · exact Nat.lt_succ_self _
  · exact Nat.lt_succ_of_le (List.dropWhile_suffix _).length_le
  · exact Nat.lt_succ_of_le (List.dropWhile_suffix _).length_le
  · exact Nat.lt_succ_of_le (List.drop_suffix _ _).length_le

/-!
# The parser
-/

mutual

def expression : Nat -> List Token -> Option (ParseTree × List Token)
  | 0, _ => none
  | fuel + 1, ts => do
      let (e0, ts) ← logicalExpression fuel ts
      match ts with
      | .op .imp :: ts => do
          let (e1, ts) ← expression fuel ts
          some (.binary .imp e0 e1, ts)
      | ts => some (e0, ts)

def logicalExpression : Nat -> List Token -> Option (ParseTree × List Token)
  | 0, _ => none
  | fuel + 1, ts => do
      let (e0, ts) ← relationalExpression fuel ts
      let (es, ts) ← conjuncts fuel ts
      some (if es.isEmpty then e0 else .conj (e0 :: es), ts)

/-- The loop over `AndOp`. -/
def conjuncts : Nat -> List Token -> Option (List ParseTree × List Token)
  | 0, _ => none
  | fuel + 1, .and :: ts => do
      let (e, ts) ← relationalExpression fuel ts
      let (es, ts) ← conjuncts fuel ts
      some (e :: es, ts)
  | _ + 1, ts => some ([], ts)

def relationalExpression : Nat -> List Token -> Option (ParseTree × List Token)
  | 0, _ => none
  | fuel + 1, ts => do
      let (e0, ts) ← term fuel ts
      match ts with
      | .op o :: ts =>
        if o.production = .relOp then do
          let (e1, ts) ← term fuel ts
          some (.binary o e0 e1, ts)
        else some (e0, .op o :: ts)
      | ts => some (e0, ts)

def term : Nat -> List Token -> Option (ParseTree × List Token)
  | 0, _ => none
  | fuel + 1, ts => do
      let (e0, ts) ← unaryExpression fuel ts
      summands fuel e0 ts

/-- The loop over `AddOp`. -/
def summands : Nat -> ParseTree -> List Token -> Option (ParseTree × List Token)
  | 0, _, _ => none
  | fuel + 1, e0, .op o :: ts =>
    if o.production = .addOp then do
      let (e1, ts) ← unaryExpression fuel ts
      summands fuel (.binary o e0 e1) ts
    else some (e0, .op o :: ts)
  | _ + 1, e0, ts => some (e0, ts)

def unaryExpression : Nat -> List Token -> Option (ParseTree × List Token)
  | 0, _ => none
  | fuel + 1, .neg :: ts => do
      let (e, ts) ← unaryExpression fuel ts
      some (.not e, ts)
  | fuel + 1, ts => atomExpression fuel ts

def atomExpression : Nat -> List Token -> Option (ParseTree × List Token)
  | 0, _ => none
  | _ + 1, .digits n :: ts => some (.nat n, ts)
  | _ + 1, .ident f :: .lparen :: .rparen :: ts => some (.call f [], ts)
  | fuel + 1, .ident f :: .lparen :: ts => do
      let (es, ts) ← expressions fuel ts
      match ts with
      | .rparen :: ts => some (.call f es, ts)
      | _ => none
  | _ + 1, .ident x :: ts => some (.ident x, ts)
  | fuel + 1, .lparen :: ts => do
      let (e, ts) ← expression fuel ts
      match ts with
      | .rparen :: ts => some (.paren e, ts)
      | _ => none
  | _ + 1, _ => none

def expressions : Nat -> List Token -> Option (List ParseTree × List Token)
  | 0, _ => none
  | fuel + 1, ts => do
      let (e, ts) ← expression fuel ts
      match ts with
      | .comma :: ts => do
          let (es, ts) ← expressions fuel ts
          some (e :: es, ts)
      | ts => some ([e], ts)

end

def parse (s : String) : Option ParseTree := do
  let ts ← scan s.toList
  match ← expression (8 * ts.length + 8) ts with
  | (e, []) => some e
  | _ => none

/-!
# The printed text
-/

def joined (sep : Token) : List (List Token) -> List Token
  | [] => []
  | [ts] => ts
  | ts :: us :: rest => ts ++ sep :: joined sep (us :: rest)

mutual

def tokens : ParseTree -> List Token
  | .node (.ident x) _ => [.ident x]
  | .node (.nat n) _ => [.digits n]
  | .node (.call f) cs => .ident f :: .lparen :: joined .comma (tokenLists cs) ++ [.rparen]
  | .node .paren cs => .lparen :: (tokenLists cs).flatten ++ [.rparen]
  | .node .not cs => .neg :: (tokenLists cs).flatten
  | .node (.binary op) cs => joined (.op op) (tokenLists cs)
  | .node .conj cs => joined .and (tokenLists cs)

def tokenLists : List ParseTree -> List (List Token)
  | [] => []
  | c :: cs => tokens c :: tokenLists cs

end

def tokenText : Token -> List Char
  | .ident x => x.toList
  | .digits n => (toString n).toList
  | .lparen => ['(']
  | .rparen => [')']
  | .comma => [',']
  | .neg => ['!']
  | .and => [' ', '&', '&', ' ']
  | .op o => ' ' :: o.text.toList ++ [' ']

def text (ts : List Token) : List Char :=
  ts.flatMap tokenText

def print (e : ParseTree) : String :=
  String.ofList (text (tokens e))

/-- Every operand is an atom: an identifier, a number, a call or in parentheses. -/
inductive FullyParenthesised : ParseTree -> Prop where
  | ident {x : String} (h : isIdent x = true) : FullyParenthesised (.ident x)
  | nat (n : Nat) : FullyParenthesised (.nat n)
  | call {f : String} {cs : List ParseTree} (hf : isIdent f = true) (hne : cs ≠ [])
      (h : forall c, c ∈ cs -> FullyParenthesised c) : FullyParenthesised (.call f cs)
  | paren {e : ParseTree} (h : FullyParenthesised e) : FullyParenthesised (.paren e)
  | not {e : ParseTree} (h : FullyParenthesised e) :
      FullyParenthesised (.paren (.not e))
  | binary {op : Opcode} {e0 e1 : ParseTree} (h0 : FullyParenthesised e0)
      (h1 : FullyParenthesised e1) : FullyParenthesised (.paren (.binary op e0 e1))
  | conj {cs : List ParseTree} (hlength : 2 ≤ cs.length)
      (h : forall c, c ∈ cs -> FullyParenthesised c) :
      FullyParenthesised (.paren (.conj cs))

/-!
# What the scanner makes of it
-/

def Token.isWord : Token -> Bool
  | .ident _ => true
  | .digits _ => true
  | _ => false

def Separated (ts : List Token) : Prop :=
  ts.IsChain (fun t u => t.isWord = false ∨ u.isWord = false)

theorem Separated.between {ts us : List Token} {sep : Token} (hts : Separated ts)
    (hus : Separated us) (hsep : sep.isWord = false) : Separated (ts ++ sep :: us) := by
  rw [Separated, List.isChain_append]
  refine ⟨hts, ?_, ?_⟩
  · rw [List.isChain_cons]
    exact ⟨fun _ _ => Or.inl hsep, hus⟩
  · intro _ _ y hy
    rw [List.head?_cons, Option.mem_some_iff] at hy
    exact Or.inr (hy ▸ hsep)

theorem separated_joined {sep : Token} (hsep : sep.isWord = false) :
    forall {tss : List (List Token)}, (forall ts, ts ∈ tss -> Separated ts) ->
      Separated (joined sep tss)
  | [], _ => List.isChain_nil
  | [ts], h => h ts (List.mem_singleton_self ts)
  | ts :: _ :: _, h =>
    (h ts (List.mem_cons_self ..)).between
      (separated_joined hsep (fun vs hvs => h vs (List.mem_cons_of_mem _ hvs))) hsep

theorem Separated.enclosed {ts : List Token} (h : Separated ts) :
    Separated (.lparen :: ts ++ [.rparen]) := by
  have hopen : Separated ([] ++ .lparen :: ts) := Separated.between List.isChain_nil h rfl
  exact hopen.between List.isChain_nil rfl

theorem tokenLists_eq (cs : List ParseTree) : tokenLists cs = cs.map tokens := by
  induction cs with
  | nil => rfl
  | cons c cs ih => rw [tokenLists, ih, List.map_cons]

theorem tokens_ident (x : String) : tokens (.ident x) = [.ident x] := rfl

theorem tokens_nat (n : Nat) : tokens (.nat n) = [.digits n] := rfl

theorem tokens_call (f : String) (cs : List ParseTree) :
    tokens (.call f cs) = .ident f :: .lparen :: joined .comma (cs.map tokens) ++ [.rparen] := by
  rw [ParseTree.call, tokens, tokenLists_eq]

theorem tokens_paren (e : ParseTree) : tokens (.paren e) = .lparen :: tokens e ++ [.rparen] := by
  rw [ParseTree.paren, tokens, tokenLists_eq, List.map_singleton, List.flatten_singleton]

theorem tokens_not (e : ParseTree) : tokens (.not e) = .neg :: tokens e := by
  rw [ParseTree.not, tokens, tokenLists_eq, List.map_singleton, List.flatten_singleton]

theorem tokens_binary (op : Opcode) (e0 e1 : ParseTree) :
    tokens (.binary op e0 e1) = tokens e0 ++ .op op :: tokens e1 := by
  rw [ParseTree.binary, tokens, tokenLists_eq]
  rfl

theorem tokens_conj (es : List ParseTree) :
    tokens (.conj es) = joined .and (es.map tokens) := by
  rw [ParseTree.conj, tokens, tokenLists_eq]

theorem FullyParenthesised.separated {e : ParseTree} (h : FullyParenthesised e) :
    Separated (tokens e) := by
  induction h with
  | ident _ => exact List.isChain_singleton _
  | nat _ => exact List.isChain_singleton _
  | @call f cs _ _ _ ih =>
    rw [tokens_call]
    have hargs : Separated (joined .comma (cs.map tokens)) := by
      apply separated_joined rfl
      intro ts hts
      rcases List.mem_map.mp hts with ⟨c, hc, rfl⟩
      exact ih c hc
    have hname : Separated [Token.ident f] := List.isChain_singleton _
    have hopen : Separated ([Token.ident f] ++ Token.lparen ::
        joined .comma (cs.map tokens)) :=
      hname.between hargs rfl
    have hclose := @Separated.between _ _ Token.rparen hopen List.isChain_nil rfl
    exact hclose
  | paren _ ih =>
    rw [tokens_paren]
    exact ih.enclosed
  | not _ ih =>
    rw [tokens_paren, tokens_not]
    exact (@Separated.between _ _ Token.neg List.isChain_nil ih rfl).enclosed
  | binary _ _ ih0 ih1 =>
    rw [tokens_paren, tokens_binary]
    exact (ih0.between ih1 rfl).enclosed
  | @conj cs _ _ ih =>
    rw [tokens_paren, tokens_conj]
    apply Separated.enclosed
    apply separated_joined rfl
    intro ts hts
    rcases List.mem_map.mp hts with ⟨c, hc, rfl⟩
    exact ih c hc

theorem mem_joined {sep t : Token} {tss : List (List Token)} (h : t ∈ joined sep tss) :
    t = sep ∨ exists ts, ts ∈ tss ∧ t ∈ ts := by
  induction tss with
  | nil => cases h
  | cons ts rest ih =>
    cases rest with
    | nil => exact Or.inr ⟨ts, List.mem_singleton_self ts, h⟩
    | cons us rest =>
      rw [joined, List.mem_append, List.mem_cons] at h
      rcases h with hmem | rfl | hmem
      · exact Or.inr ⟨ts, List.mem_cons_self .., hmem⟩
      · exact Or.inl rfl
      · rcases ih hmem with heq | ⟨vs, hvs, hin⟩
        · exact Or.inl heq
        · exact Or.inr ⟨vs, List.mem_cons_of_mem _ hvs, hin⟩

theorem isIdent_of_joined {x : String} {sep : Token} (hsep : sep.isWord = false)
    {cs : List ParseTree} (h : Token.ident x ∈ joined sep (cs.map tokens))
    (ih : forall c, c ∈ cs -> Token.ident x ∈ tokens c -> isIdent x = true) :
    isIdent x = true := by
  rcases mem_joined h with rfl | ⟨ts, hts, hmem⟩
  · cases hsep
  · rcases List.mem_map.mp hts with ⟨c, hc, rfl⟩
    exact ih c hc hmem

theorem FullyParenthesised.isIdent {e : ParseTree} (h : FullyParenthesised e) {x : String}
    (hx : Token.ident x ∈ tokens e) : isIdent x = true := by
  induction h with
  | ident hident =>
    rw [tokens_ident, List.mem_singleton, Token.ident.injEq] at hx
    rwa [hx]
  | nat _ =>
    rw [tokens_nat, List.mem_singleton] at hx
    cases hx
  | call hf _ _ ih =>
    rw [tokens_call] at hx
    simp only [List.cons_append, List.mem_cons, List.mem_append, Token.ident.injEq,
      reduceCtorEq, false_or, List.not_mem_nil, or_false] at hx
    rcases hx with rfl | hx
    · exact hf
    · exact isIdent_of_joined rfl hx (fun c hc h => ih c hc h)
  | paren _ ih =>
    rw [tokens_paren] at hx
    exact ih (by simpa using hx)
  | not _ ih =>
    rw [tokens_paren, tokens_not] at hx
    exact ih (by simpa using hx)
  | binary _ _ ih0 ih1 =>
    rw [tokens_paren, tokens_binary] at hx
    simp only [List.cons_append, List.mem_cons, List.mem_append, reduceCtorEq, false_or,
      List.not_mem_nil, or_false] at hx
    rcases hx with hx | hx
    · exact ih0 hx
    · exact ih1 hx
  | conj _ _ ih =>
    rw [tokens_paren, tokens_conj] at hx
    simp only [List.cons_append, List.mem_cons, List.mem_append, reduceCtorEq, false_or,
      List.not_mem_nil, or_false] at hx
    exact isIdent_of_joined rfl hx (fun c hc h => ih c hc h)

def Ends (cs : List Char) : Prop :=
  forall c, cs.head? = some c -> isIdentChar c = false

theorem isIdentChar_of_isIdent {c : Char} {cs : List Char}
    (h : isIdent (String.ofList (c :: cs)) = true) :
    (c = '\\' ∨ isNondigit c = true) ∧ forall d, d ∈ cs -> isIdentChar d = true := by
  rw [isIdent, Bool.and_eq_true, String.toList_ofList] at h
  have htext := h.left
  unfold isIdentText at htext
  split at htext
  next c' cs' heq =>
    rw [List.cons.injEq] at heq
    rcases heq with ⟨rfl, rfl⟩
    rw [Bool.and_eq_true, List.all_eq_true] at htext
    refine ⟨Or.inl rfl, ?_⟩
    intro d hd
    rcases List.mem_cons.mp hd with rfl | hmem
    · rw [isIdentChar, htext.left, Bool.true_or]
    · exact htext.right d hmem
  next c' cs' _ heq =>
    rw [List.cons.injEq] at heq
    rcases heq with ⟨rfl, rfl⟩
    rw [Bool.and_eq_true, List.all_eq_true] at htext
    exact ⟨Or.inr htext.left, htext.right⟩
  next heq => cases heq

theorem takeWhile_append_ends {p : Char -> Bool} {cs rest : List Char}
    (hcs : forall c, c ∈ cs -> p c = true) (hrest : forall c, rest.head? = some c -> p c = false) :
    (cs ++ rest).takeWhile p = cs ∧ (cs ++ rest).dropWhile p = rest := by
  rw [List.takeWhile_append_of_pos hcs, List.dropWhile_append_of_pos hcs]
  cases rest with
  | nil => simp
  | cons c rest =>
    have hc := hrest c rfl
    rw [List.takeWhile_cons_of_neg (by simp [hc]), List.dropWhile_cons_of_neg (by simp [hc]),
      List.append_nil]
    exact ⟨rfl, rfl⟩

theorem not_blank {c : Char} (h : c = '\\' ∨ isIdentChar c = true) :
    ¬(c = ' ' || c = '\t' || c = '\r' || c = '\n') = true := by
  rcases h with rfl | h
  · decide
  · intro hblank
    simp only [Bool.or_eq_true, decide_eq_true_eq] at hblank
    rcases hblank with ((rfl | rfl) | rfl) | rfl <;> revert h <;> decide

theorem scan_ident {x : String} (hx : isIdent x = true) {rest : List Char} (hrest : Ends rest) :
    scan (x.toList ++ rest) = (scan rest).map (.ident x :: ·) := by
  rcases hchars : x.toList with _ | ⟨c, cs⟩
  · rw [isIdent, hchars] at hx
    cases hx
  · have hof : String.ofList (c :: cs) = x := by rw [← hchars, String.ofList_toList]
    rcases isIdentChar_of_isIdent (hof ▸ hx) with ⟨hc, hcs⟩
    rcases takeWhile_append_ends hcs hrest with ⟨htake, hdrop⟩
    have hstart : (c = '\\' || isNondigit c) = true := by
      rw [Bool.or_eq_true, decide_eq_true_eq]
      exact hc
    have hchar : c = '\\' ∨ isIdentChar c = true :=
      hc.imp_right (fun h => by rw [isIdentChar, h, Bool.true_or])
    rw [List.cons_append, scan, if_neg (not_blank hchar), if_pos hstart, htake, hdrop, hof,
      if_pos hx]

theorem not_isNondigit_of_isDigit {c : Char} (h : c.isDigit = true) :
    (c = '\\' || isNondigit c) = false := by
  rw [Char.isDigit, Bool.and_eq_true, decide_eq_true_eq, decide_eq_true_eq] at h
  have hlow : 48 ≤ c.toNat := h.left
  have hhigh : c.toNat ≤ 57 := h.right
  rw [← Char.ofNat_toNat c]
  generalize c.toNat = n at hlow hhigh
  have hcheck : forall n, n ∈ List.range' 48 10 ->
      (Char.ofNat n = '\\' || isNondigit (Char.ofNat n)) = false := by decide
  exact hcheck n (List.mem_range'_1.mpr ⟨hlow, Nat.lt_succ_of_le hhigh⟩)

theorem toDigits_ne_nil (n : Nat) : Nat.toDigits 10 n ≠ [] := by
  intro h
  have hread := Nat.ofDigitChars_ten_toDigits (n := n)
  rw [h, Nat.ofDigitChars_nil] at hread
  rw [← hread] at h
  exact absurd h (by decide)

theorem continuesNumber_of_ends {rest : List Char} (h : Ends rest) :
    continuesNumber rest = false := by
  cases rest with
  | nil => rfl
  | cons c rest =>
    have hc := h c rfl
    rw [continuesNumber]
    by_contra hcontra
    simp only [Bool.not_eq_false, Bool.or_eq_true, decide_eq_true_eq] at hcontra
    rcases hcontra with (rfl | rfl) | rfl <;> revert hc <;> decide

theorem scan_digits (n : Nat) {rest : List Char} (hrest : Ends rest) :
    scan ((toString n).toList ++ rest) = (scan rest).map (.digits n :: ·) := by
  have htext : (toString n).toList = Nat.toDigits 10 n := Nat.toList_repr
  have hdigits : forall c, c ∈ Nat.toDigits 10 n -> c.isDigit = true :=
    fun c hc => Nat.isDigit_of_mem_toDigits (by decide) (by decide) hc
  rw [htext]
  rcases hchars : Nat.toDigits 10 n with _ | ⟨c, cs⟩
  · exact absurd hchars (toDigits_ne_nil n)
  · rw [hchars] at hdigits
    have hc := hdigits c (List.mem_cons_self ..)
    have hends : forall d, rest.head? = some d -> d.isDigit = false := by
      intro d hd
      have hident := hrest d hd
      rw [isIdentChar, Bool.or_eq_false_iff] at hident
      exact hident.right
    rcases takeWhile_append_ends (fun d hd => hdigits d (List.mem_cons_of_mem _ hd)) hends
      with ⟨htake, hdrop⟩
    have hblank := not_blank (c := c) (Or.inr (by rw [isIdentChar, hc, Bool.or_true]))
    rw [List.cons_append, scan, if_neg hblank,
      if_neg (by rw [not_isNondigit_of_isDigit hc]; exact Bool.false_ne_true), if_pos hc,
      htake, hdrop, if_neg (by rw [continuesNumber_of_ends hrest]; exact Bool.false_ne_true),
      ← hchars, Nat.ofDigitChars_ten_toDigits]

theorem scan_lparen (rest : List Char) :
    scan ('(' :: rest) = (scan rest).map (.lparen :: ·) := by
  rw [scan]
  rfl

theorem scan_rparen (rest : List Char) :
    scan (')' :: rest) = (scan rest).map (.rparen :: ·) := by
  rw [scan]
  rfl

theorem scan_comma (rest : List Char) :
    scan (',' :: rest) = (scan rest).map (.comma :: ·) := by
  rw [scan]
  rfl

theorem scan_blank (rest : List Char) : scan (' ' :: rest) = scan rest := by
  rw [scan]
  rfl

theorem scan_and (rest : List Char) :
    scan (tokenText .and ++ rest) = (scan rest).map (.and :: ·) := by
  have hsymbol : scan ('&' :: '&' :: ' ' :: rest) =
      (scan (' ' :: rest)).map (.and :: ·) := by
    rw [scan]
    rfl
  exact (scan_blank _).trans (hsymbol.trans (by rw [scan_blank]))

theorem scan_neg {rest : List Char} (h : rest.head? ≠ some '=') :
    scan ('!' :: rest) = (scan rest).map (.neg :: ·) := by
  have hsymbol : symbol '!' rest = some (.neg, 0) := by
    unfold symbol
    split <;> simp_all
  rw [scan]
  simp only [hsymbol]
  rfl

theorem scan_op (o : Opcode) (rest : List Char) :
    scan (tokenText (.op o) ++ rest) = (scan rest).map (.op o :: ·) := by
  have hsymbol : scan (o.text.toList ++ ' ' :: rest) =
      (scan (' ' :: rest)).map (.op o :: ·) := by
    cases o <;>
    · rw [show _ ++ ' ' :: rest = _ :: _ from rfl, scan]
      rfl
  have hassoc : tokenText (.op o) ++ rest = ' ' :: (o.text.toList ++ ' ' :: rest) := by
    simp [tokenText]
  rw [hassoc, scan_blank, hsymbol, scan_blank]

theorem ends_text {ts : List Token}
    (h : forall t, ts.head? = some t -> t.isWord = false) : Ends (text ts) := by
  intro c hc
  cases ts with
  | nil => cases hc
  | cons t ts =>
    have ht := h t rfl
    rw [text, List.flatMap_cons] at hc
    cases t with
    | ident _ => cases ht
    | digits _ => cases ht
    | _ =>
      have hc : _ = c := Option.some.inj hc
      rw [← hc]
      decide

theorem head_text_ne {ts : List Token} (h : forall x, Token.ident x ∈ ts -> isIdent x = true) :
    (text ts).head? ≠ some '=' := by
  cases ts with
  | nil => simp [text]
  | cons t ts =>
    rw [text, List.flatMap_cons]
    cases t with
    | ident x =>
      have hx := h x (List.mem_cons_self ..)
      rw [tokenText]
      rcases hchars : x.toList with _ | ⟨c, cs⟩
      · rw [isIdent, hchars] at hx
        cases hx
      · have hof : String.ofList (c :: cs) = x := by
          rw [← hchars, String.ofList_toList]
        have hc := (isIdentChar_of_isIdent (hof ▸ hx)).left
        rw [List.cons_append, List.head?_cons, Ne, Option.some.injEq]
        rintro rfl
        revert hc
        decide
    | digits n =>
      have htext : (toString n).toList = Nat.toDigits 10 n := Nat.toList_repr
      rw [tokenText, htext]
      rcases hchars : Nat.toDigits 10 n with _ | ⟨c, cs⟩
      · exact absurd hchars (toDigits_ne_nil n)
      · have hc : c.isDigit = true := Nat.isDigit_of_mem_toDigits (b := 10) (n := n)
          (by decide) (by decide) (hchars ▸ List.mem_cons_self ..)
        rw [List.cons_append, List.head?_cons, Ne, Option.some.injEq]
        rintro rfl
        revert hc
        decide
    | _ => simp [tokenText]

theorem scan_text {ts : List Token} (hsep : Separated ts)
    (hident : forall x, Token.ident x ∈ ts -> isIdent x = true) :
    scan (text ts) = some ts := by
  induction ts with
  | nil => rw [text, List.flatMap_nil, scan]
  | cons t ts ih =>
    rw [Separated, List.isChain_cons] at hsep
    have hrest := ih hsep.right (fun x hx => hident x (List.mem_cons_of_mem _ hx))
    have hends : t.isWord = true -> Ends (text ts) := by
      intro hword
      apply ends_text
      intro u hu
      rcases hsep.left u (Option.mem_def.mpr hu) with hf | hf
      · rw [hword] at hf
        cases hf
      · exact hf
    have htext : text (t :: ts) = tokenText t ++ text ts := List.flatMap_cons
    have hscan : scan (tokenText t ++ text ts) = (scan (text ts)).map (t :: ·) := by
      cases t with
      | ident x => exact scan_ident (hident x (List.mem_cons_self ..)) (hends rfl)
      | digits n => exact scan_digits n (hends rfl)
      | lparen => exact scan_lparen _
      | rparen => exact scan_rparen _
      | comma => exact scan_comma _
      | neg =>
        exact scan_neg (head_text_ne (fun x hx => hident x (List.mem_cons_of_mem _ hx)))
      | and => exact scan_and _
      | op o => exact scan_op o _
    rw [htext, hscan, hrest]
    rfl

/-!
# What the parser makes of it
-/

def NoOperator (p : Production) (ts : List Token) : Prop :=
  forall o, ts.head? = some (.op o) -> o.production ≠ p

section Levels

variable {fuel : Nat} {ts rest : List Token} {e : ParseTree}

theorem unaryExpression_of_atom (hneg : ts.head? ≠ some .neg)
    (h : atomExpression fuel ts = some (e, rest)) :
    unaryExpression (fuel + 1) ts = some (e, rest) := by
  rw [unaryExpression]
  · exact h
  · rintro us rfl
    exact hneg rfl

theorem summands_none (h : NoOperator .addOp rest) :
    summands (fuel + 1) e rest = some (e, rest) := by
  cases rest with
  | nil => rw [summands]; rintro _ _ ⟨⟩
  | cons t rest =>
    cases t with
    | op o => rw [summands, if_neg (h o rfl)]
    | _ => rw [summands]; rintro _ _ ⟨⟩

theorem term_of_unary (hadd : NoOperator .addOp rest)
    (h : unaryExpression (fuel + 1) ts = some (e, rest)) :
    term (fuel + 2) ts = some (e, rest) := by
  rw [term, h]
  exact summands_none hadd

theorem relationalExpression_of_term (hrel : NoOperator .relOp rest)
    (h : term fuel ts = some (e, rest)) :
    relationalExpression (fuel + 1) ts = some (e, rest) := by
  rw [relationalExpression, h]
  cases rest with
  | nil => rfl
  | cons t rest =>
    cases t with
    | op o => simp [hrel o rfl]
    | _ => rfl

theorem conjuncts_none (hand : rest.head? ≠ some .and) :
    conjuncts (fuel + 1) rest = some ([], rest) := by
  rw [conjuncts]
  rintro _ rfl
  exact hand rfl

theorem logicalExpression_of_relational (hand : rest.head? ≠ some .and)
    (h : relationalExpression (fuel + 1) ts = some (e, rest)) :
    logicalExpression (fuel + 2) ts = some (e, rest) := by
  rw [logicalExpression, h]
  simp [conjuncts_none hand]

theorem expression_of_logical (himp : rest.head? ≠ some (.op .imp))
    (h : logicalExpression fuel ts = some (e, rest)) :
    expression (fuel + 1) ts = some (e, rest) := by
  rw [expression, h]
  simp only [Option.bind_eq_bind, Option.bind_some]
  split
  next hcons => exact absurd rfl himp
  next => rfl

theorem FullyParenthesised.head (h : FullyParenthesised e) :
    exists t us, tokens e = t :: us ∧ t ≠ .neg ∧ t ≠ .rparen := by
  cases h with
  | ident _ => exact ⟨_, _, tokens_ident _, by simp, by simp⟩
  | nat _ => exact ⟨_, _, tokens_nat _, by simp, by simp⟩
  | call _ _ _ => exact ⟨_, _, tokens_call _ _, by simp, by simp⟩
  | _ => exact ⟨_, _, tokens_paren _, by simp, by simp⟩

def ReadsAtom (e : ParseTree) : Prop :=
  forall fuel rest, 8 * (tokens e).length ≤ fuel -> rest.head? ≠ some .lparen ->
    atomExpression fuel (tokens e ++ rest) = some (e, rest)

theorem FullyParenthesised.unary (h : FullyParenthesised e) (hread : ReadsAtom e)
    (hfuel : 8 * (tokens e).length ≤ fuel) (hrest : rest.head? ≠ some .lparen) :
    unaryExpression (fuel + 1) (tokens e ++ rest) = some (e, rest) := by
  refine unaryExpression_of_atom ?_ (hread fuel rest hfuel hrest)
  rcases h.head with ⟨t, us, htokens, hneg, _⟩
  rw [htokens, List.cons_append, List.head?_cons, Ne, Option.some.injEq]
  exact hneg

theorem FullyParenthesised.term (h : FullyParenthesised e) (hread : ReadsAtom e)
    (hfuel : 8 * (tokens e).length ≤ fuel) (hrest : rest.head? ≠ some .lparen)
    (hadd : NoOperator .addOp rest) :
    term (fuel + 2) (tokens e ++ rest) = some (e, rest) :=
  term_of_unary hadd (h.unary hread hfuel hrest)

theorem FullyParenthesised.relationalExpression (h : FullyParenthesised e)
    (hread : ReadsAtom e) (hfuel : 8 * (tokens e).length ≤ fuel)
    (hrest : rest.head? ≠ some .lparen) (hadd : NoOperator .addOp rest)
    (hrel : NoOperator .relOp rest) :
    relationalExpression (fuel + 3) (tokens e ++ rest) = some (e, rest) :=
  relationalExpression_of_term hrel (h.term hread hfuel hrest hadd)

theorem FullyParenthesised.logicalExpression (h : FullyParenthesised e)
    (hread : ReadsAtom e) (hfuel : 8 * (tokens e).length ≤ fuel)
    (hrest : rest.head? ≠ some .lparen) (hadd : NoOperator .addOp rest)
    (hrel : NoOperator .relOp rest) (hand : rest.head? ≠ some .and) :
    logicalExpression (fuel + 4) (tokens e ++ rest) = some (e, rest) :=
  logicalExpression_of_relational hand (h.relationalExpression hread hfuel hrest hadd hrel)

def Closes (ts : List Token) : Prop :=
  forall t, ts.head? = some t -> t = .rparen ∨ t = .comma

theorem Closes.ne {t : Token} (h : Closes rest) (hr : t ≠ .rparen) (hc : t ≠ .comma) :
    rest.head? ≠ some t := by
  intro heq
  rcases h t heq with rfl | rfl
  · exact hr rfl
  · exact hc rfl

theorem Closes.noOperator {p : Production} (h : Closes rest) : NoOperator p rest :=
  fun _ heq => absurd heq (h.ne (by simp) (by simp))

theorem closes_nil : Closes [] := by
  rintro _ ⟨⟩

theorem closes_rparen : Closes (.rparen :: rest) := by
  rintro _ ⟨⟩
  exact Or.inl rfl

theorem closes_comma : Closes (.comma :: rest) := by
  rintro _ ⟨⟩
  exact Or.inr rfl

theorem expression_of_relational (hclose : Closes rest)
    (h : relationalExpression (fuel + 1) ts = some (e, rest)) :
    expression (fuel + 3) ts = some (e, rest) :=
  expression_of_logical (hclose.ne (by simp) (by simp))
    (logicalExpression_of_relational (hclose.ne (by simp) (by simp)) h)

theorem FullyParenthesised.expression (h : FullyParenthesised e) (hread : ReadsAtom e)
    (hfuel : 8 * (tokens e).length ≤ fuel) (hclose : Closes rest) :
    expression (fuel + 5) (tokens e ++ rest) = some (e, rest) :=
  expression_of_relational hclose (h.relationalExpression hread hfuel
    (hclose.ne (by simp) (by simp)) hclose.noOperator hclose.noOperator)

theorem expression_not (h : FullyParenthesised e) (hread : ReadsAtom e)
    (hfuel : 8 * (tokens e).length ≤ fuel) (hclose : Closes rest) :
    ExpressionText.expression (fuel + 6) (tokens (.not e) ++ rest) = some (.not e, rest) := by
  apply expression_of_relational hclose
  apply relationalExpression_of_term hclose.noOperator
  apply term_of_unary hclose.noOperator
  rw [tokens_not, List.cons_append, unaryExpression,
    h.unary hread hfuel (hclose.ne (by simp) (by simp))]
  rfl

theorem noOperator_op {p : Production} {o : Opcode} (h : o.production ≠ p) :
    NoOperator p (.op o :: rest) := by
  rintro _ ⟨⟩
  exact h

theorem expression_binary {op : Opcode} {e0 e1 : ParseTree}
    (h0 : FullyParenthesised e0) (h1 : FullyParenthesised e1)
    (hread0 : ReadsAtom e0) (hread1 : ReadsAtom e1)
    (hfuel0 : 8 * (tokens e0).length ≤ fuel) (hfuel1 : 8 * (tokens e1).length ≤ fuel)
    (hclose : Closes rest) :
    ExpressionText.expression (fuel + 6) (tokens (.binary op e0 e1) ++ rest) =
      some (.binary op e0 e1, rest) := by
  rw [tokens_binary, List.append_assoc, List.cons_append]
  have hlparen : rest.head? ≠ some .lparen := hclose.ne (by simp) (by simp)
  cases hp : op.production with
  | relOp =>
    apply expression_of_relational hclose
    rw [ExpressionText.relationalExpression,
      h0.term hread0 (Nat.le_succ_of_le hfuel0) (by simp)
        (noOperator_op (by rw [hp]; decide))]
    simp only [Option.bind_eq_bind, Option.bind_some]
    rw [if_pos hp, h1.term hread1 (Nat.le_succ_of_le hfuel1) hlparen hclose.noOperator]
    rfl
  | addOp =>
    apply expression_of_relational hclose
    apply relationalExpression_of_term hclose.noOperator
    rw [ExpressionText.term, h0.unary hread0 (by omega) (by simp)]
    simp only [Option.bind_eq_bind, Option.bind_some]
    rw [summands, if_pos hp, h1.unary hread1 (by omega) hlparen]
    exact summands_none hclose.noOperator
  | impliesOp =>
    have himp : op = .imp := by
      cases op <;> first | rfl | cases hp
    subst himp
    rw [ExpressionText.expression,
      @FullyParenthesised.logicalExpression (fuel + 1) _ _ h0 hread0
        (Nat.le_succ_of_le hfuel0) (by simp)
        (noOperator_op (by decide)) (noOperator_op (by decide)) (by simp)]
    simp only [Option.bind_eq_bind, Option.bind_some]
    rw [h1.expression hread1 hfuel1 hclose]
    rfl

theorem noOperator_of_ne {p : Production} (h : forall o, rest.head? ≠ some (.op o)) :
    NoOperator p rest :=
  fun o heq => absurd heq (h o)

theorem conjuncts_joined {cs : List ParseTree} (hne : cs ≠ [])
    (hcs : forall c, c ∈ cs -> FullyParenthesised c ∧ ReadsAtom c)
    (hfuel : 8 * (joined .and (cs.map tokens)).length ≤ fuel) (hclose : Closes rest) :
    conjuncts (fuel + 5) (.and :: joined .and (cs.map tokens) ++ rest) = some (cs, rest) := by
  induction cs generalizing fuel with
  | nil => exact absurd rfl hne
  | cons c cs ih =>
    rcases hcs c (List.mem_cons_self ..) with ⟨hc, hread⟩
    cases cs with
    | nil =>
      have hlparen := hclose.ne (t := .lparen) (by simp) (by simp)
      rw [List.map_singleton, joined] at hfuel ⊢
      rw [List.cons_append, conjuncts,
        @FullyParenthesised.relationalExpression (fuel + 1) _ _ hc hread
        (by omega) hlparen hclose.noOperator hclose.noOperator]
      simp only [Option.bind_eq_bind, Option.bind_some]
      rw [conjuncts_none (hclose.ne (by simp) (by simp))]
      rfl
    | cons d ds =>
      rw [List.map_cons, List.map_cons, joined, List.length_append,
        List.length_cons, ← List.map_cons] at hfuel
      have hrest := @ih (fuel - 1) (by simp)
        (fun x hx => hcs x (List.mem_cons_of_mem _ hx)) (by omega)
      have hsub : fuel - 1 + 5 = fuel + 4 := by omega
      rw [hsub] at hrest
      rw [List.map_cons, List.map_cons, joined, ← List.map_cons, List.cons_append,
        List.append_assoc, conjuncts,
          @FullyParenthesised.relationalExpression (fuel + 1) _ _ hc hread
          (by omega) (by simp)
          (noOperator_of_ne (by simp)) (noOperator_of_ne (by simp))]
      simp only [Option.bind_eq_bind, Option.bind_some]
      rw [hrest]
      rfl

theorem expression_conj {cs : List ParseTree} (hlength : 2 ≤ cs.length)
    (hcs : forall c, c ∈ cs -> FullyParenthesised c ∧ ReadsAtom c)
    (hfuel : 8 * (tokens (.conj cs)).length ≤ fuel) (hclose : Closes rest) :
    ExpressionText.expression (fuel + 7) (tokens (.conj cs) ++ rest) = some (.conj cs, rest) := by
  rcases cs with _ | ⟨c, _ | ⟨d, ds⟩⟩
  · exact absurd hlength (by simp)
  · exact absurd hlength (by simp)
  · rcases hcs c (List.mem_cons_self ..) with ⟨hc, hread⟩
    rw [tokens_conj, List.map_cons, List.map_cons, joined, ← List.map_cons,
      List.length_append, List.length_cons] at hfuel
    rw [tokens_conj, List.map_cons, List.map_cons, joined, ← List.map_cons,
      List.append_assoc]
    apply expression_of_logical (hclose.ne (by simp) (by simp))
    rw [ExpressionText.logicalExpression,
      @FullyParenthesised.relationalExpression (fuel + 2) _ _ hc hread
      (by omega) (by simp) (noOperator_of_ne (by simp))
      (noOperator_of_ne (by simp))]
    simp only [Option.bind_eq_bind, Option.bind_some]
    rw [conjuncts_joined (by simp) (fun x hx => hcs x (List.mem_cons_of_mem _ hx))
      (by omega) hclose]
    rfl

theorem expressions_joined {cs : List ParseTree} (hne : cs ≠ [])
    (hcs : forall c, c ∈ cs -> FullyParenthesised c ∧ ReadsAtom c)
    (hfuel : 8 * (joined .comma (cs.map tokens)).length ≤ fuel) :
    expressions (fuel + 6) (joined .comma (cs.map tokens) ++ .rparen :: rest) =
      some (cs, .rparen :: rest) := by
  induction cs generalizing fuel with
  | nil => exact absurd rfl hne
  | cons c cs ih =>
    rcases hcs c (List.mem_cons_self ..) with ⟨hc, hread⟩
    cases cs with
    | nil =>
      rw [List.map_singleton, joined] at hfuel ⊢
      rw [expressions, hc.expression hread (by omega) closes_rparen]
      rfl
    | cons d ds =>
      rw [List.map_cons, List.map_cons, joined, List.length_append,
        List.length_cons, ← List.map_cons] at hfuel
      have hrest := @ih (fuel - 1) (by simp)
        (fun x hx => hcs x (List.mem_cons_of_mem _ hx)) (by omega)
      have hsub : fuel - 1 + 6 = fuel + 5 := by omega
      rw [hsub] at hrest
      rw [List.map_cons, List.map_cons, joined, ← List.map_cons, List.append_assoc,
        List.cons_append, expressions,
        hc.expression hread (by omega) closes_comma]
      simp only [Option.bind_eq_bind, Option.bind_some]
      rw [hrest]
      rfl

theorem atomExpression_paren (h : ExpressionText.expression fuel (ts ++ .rparen :: rest) =
      some (e, .rparen :: rest)) :
    atomExpression (fuel + 1) (.lparen :: ts ++ [.rparen] ++ rest) = some (.paren e, rest) := by
  rw [List.append_assoc, List.cons_append, atomExpression]
  simp only [List.singleton_append]
  rw [h]
  rfl

theorem joined_cons_append {sep : Token} (us : List Token) (tss : List (List Token)) :
    exists vs, joined sep (us :: tss) = us ++ vs := by
  cases tss with
  | nil => exact ⟨[], by rw [joined, List.append_nil]⟩
  | cons _ _ => exact ⟨_, by rw [joined]⟩

theorem FullyParenthesised.readsAtom (h : FullyParenthesised e) : ReadsAtom e := by
  induction h with
  | @ident x _ =>
    intro fuel rest hfuel hrest
    rw [tokens_ident] at hfuel ⊢
    rcases Nat.exists_eq_add_of_le' (show 1 ≤ fuel from Nat.le_trans (by simp) hfuel)
      with ⟨fuel, rfl⟩
    rw [List.singleton_append, atomExpression]
    · rintro _ rfl
      exact hrest rfl
    · rintro _ rfl
      exact hrest rfl
  | nat n =>
    intro fuel rest hfuel _
    rw [tokens_nat] at hfuel ⊢
    rcases Nat.exists_eq_add_of_le' (show 1 ≤ fuel from Nat.le_trans (by simp) hfuel)
      with ⟨fuel, rfl⟩
    rfl
  | @call f cs _ hne hcs ih =>
    intro fuel rest hfuel _
    rw [tokens_call] at hfuel ⊢
    simp only [List.length_append, List.length_cons, List.length_nil] at hfuel
    rcases Nat.exists_eq_add_of_le' (show 7 ≤ fuel by omega) with ⟨fuel, rfl⟩
    have hargs := @expressions_joined fuel rest _ hne
      (fun c hc => ⟨hcs c hc, ih c hc⟩) (by omega)
    rcases cs with _ | ⟨c, cs⟩
    · exact absurd rfl hne
    · rcases (hcs c (List.mem_cons_self ..)).head with ⟨t, us, htokens, _, hrparen⟩
      rw [List.append_assoc, List.cons_append, List.cons_append, List.singleton_append,
        atomExpression]
      · rw [hargs]
        rfl
      · intro vs heq
        rcases @joined_cons_append .comma (tokens c) (cs.map tokens)
          with ⟨ws, hjoined⟩
        rw [List.map_cons, hjoined, htokens] at heq
        exact hrparen (List.cons.inj heq).left
  | @paren e h ih =>
    intro fuel rest hfuel _
    rw [tokens_paren] at hfuel ⊢
    simp only [List.length_append, List.length_cons, List.length_nil] at hfuel
    rcases Nat.exists_eq_add_of_le' (show 6 ≤ fuel by omega) with ⟨fuel, rfl⟩
    exact atomExpression_paren (h.expression ih (by omega) closes_rparen)
  | @not e h ih =>
    intro fuel rest hfuel _
    rw [tokens_paren] at hfuel ⊢
    rw [tokens_not] at hfuel
    simp only [List.length_append, List.length_cons, List.length_nil] at hfuel
    rcases Nat.exists_eq_add_of_le' (show 7 ≤ fuel by omega) with ⟨fuel, rfl⟩
    exact atomExpression_paren (expression_not h ih (by omega) closes_rparen)
  | @binary op e0 e1 h0 h1 ih0 ih1 =>
    intro fuel rest hfuel _
    rw [tokens_paren] at hfuel ⊢
    rw [tokens_binary] at hfuel
    simp only [List.length_append, List.length_cons, List.length_nil] at hfuel
    rcases Nat.exists_eq_add_of_le' (show 7 ≤ fuel by omega) with ⟨fuel, rfl⟩
    exact atomExpression_paren
      (expression_binary h0 h1 ih0 ih1 (by omega) (by omega) closes_rparen)
  | @conj cs hlength hcs ih =>
    intro fuel rest hfuel _
    rw [tokens_paren] at hfuel ⊢
    simp only [List.length_append, List.length_cons, List.length_nil] at hfuel
    rcases Nat.exists_eq_add_of_le' (show 8 ≤ fuel by omega) with ⟨fuel, rfl⟩
    exact atomExpression_paren (expression_conj hlength
      (fun c hc => ⟨hcs c hc, ih c hc⟩) (by omega) closes_rparen)

end Levels

theorem parse_print {e : ParseTree} (h : FullyParenthesised e) : parse (print e) = some e := by
  rw [parse, print, String.toList_ofList, scan_text h.separated (fun _ hx => h.isIdent hx)]
  have hread := @FullyParenthesised.expression (8 * (tokens e).length + 3) _ _ h h.readsAtom
    (Nat.le_add_right _ _) closes_nil
  rw [List.append_nil] at hread
  simp only [Option.bind_eq_bind, Option.bind_some]
  rw [hread]
  rfl

end ExpressionText
end Boogie
