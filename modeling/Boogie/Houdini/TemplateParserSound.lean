import Boogie.Foundation.Traversal
import Boogie.Houdini.TemplateParser

/-!
# When the parser of templates returns

The stack of the parser is a configuration of the machine of the grammar, and
the steps for one token advance it.  Where the machine refuses a token the
parser does not move, and its loop has no end.
-/

namespace Boogie
namespace Houdini
namespace TemplateParser

open Bracketed (Derives Groups Form Config Pending combine advance judge start
  Translates)
open Basetypes.BigDec (parseInt32 parseInteger)
open Decimal (parseNat charDigit)

abbrev Token := Bracketed.Token Int TemplateOperator

/-!
# The tokens of a string
-/

def symbol (c : Char) : Option Token :=
  if c = '(' then some .left
  else if c = ')' then some .right
  else if c = ';' then some (.op .disjunctionOp)
  else if c = ',' then some (.op .conjunctionOp)
  else none

def textToken (text : List Char) : Token :=
  match int32Parse text with
  | some intVal => .value intVal
  | none => .invalid

theorem isDelimiter_eq (c : Char) : isDelimiter c = (symbol c).isSome := by
  unfold isDelimiter symbol
  split_ifs <;> simp_all

theorem length_fromDelimiter_le (str : List Char) :
    (fromDelimiter str).length ≤ str.length :=
  (List.dropWhile_suffix _).length_le

def lex : List Char -> List Token
  | [] => []
  | c :: str =>
    match symbol c with
    | some token => token :: lex str
    | none => textToken (c :: beforeDelimiter str) :: lex (fromDelimiter str)
termination_by str => str.length
decreasing_by
  · exact Nat.lt_succ_self _
  · exact Nat.lt_succ_of_le (length_fromDelimiter_le str)

section Lexing

variable {c : Char} {str text front post rest : List Char} {token : Token}
  {intVal : Int} {us vs : List Token}

theorem symbol_eq_none (h : isDelimiter c = false) : symbol c = none := by
  rw [isDelimiter_eq] at h
  exact Option.isSome_eq_false_iff.mp h |> Option.isNone_iff_eq_none.mp

theorem isDelimiter_of_symbol (h : symbol c = some token) :
    isDelimiter c = true := by
  rw [isDelimiter_eq, h]
  rfl

theorem beforeDelimiter_cons (h : isDelimiter c = false) :
    beforeDelimiter (c :: str) = c :: beforeDelimiter str := by
  simp [beforeDelimiter, h]

theorem fromDelimiter_cons (h : isDelimiter c = false) :
    fromDelimiter (c :: str) = fromDelimiter str := by
  simp [fromDelimiter, h]

theorem before_append_from (str : List Char) :
    beforeDelimiter str ++ fromDelimiter str = str :=
  List.takeWhile_append_dropWhile

theorem lex_nil : lex [] = [] := by
  rw [lex]

theorem lex_symbol (h : symbol c = some token) :
    lex (c :: str) = token :: lex str := by
  rw [lex, h]

theorem lex_text (h : isDelimiter c = false) : lex (c :: str) =
    textToken (c :: beforeDelimiter str) :: lex (fromDelimiter str) := by
  rw [lex, symbol_eq_none h]

theorem eq_nil_of_lex (h : lex str = []) : str = [] := by
  cases str with
  | nil => rfl
  | cons c str =>
    rw [lex] at h
    cases hsymbol : symbol c with
    | none =>
      rw [hsymbol] at h
      cases h
    | some token =>
      rw [hsymbol] at h
      cases h

theorem beforeDelimiter_append (h : isDelimiter c = true) :
    beforeDelimiter (str ++ c :: rest) = beforeDelimiter str := by
  induction str with
  | nil => simp [beforeDelimiter, h]
  | cons d str ih =>
    simp only [beforeDelimiter, List.cons_append, List.takeWhile_cons] at ih ⊢
    rw [ih]

theorem fromDelimiter_append (h : isDelimiter c = true) :
    fromDelimiter (str ++ c :: rest) = fromDelimiter str ++ c :: rest := by
  induction str with
  | nil => simp [fromDelimiter, h]
  | cons d str ih =>
    simp only [fromDelimiter, List.cons_append, List.dropWhile_cons] at ih ⊢
    split
    · exact ih
    · rfl

theorem lex_append_cons (h : symbol c = some token) :
    lex (str ++ c :: rest) = lex str ++ token :: lex rest := by
  have hdelimiter := isDelimiter_of_symbol h
  fun_induction lex str with
  | case1 => exact lex_symbol h
  | case2 d str token' hd ih => rw [List.cons_append, lex_symbol hd, ih]; rfl
  | case3 d str hd ih =>
    have hd' : isDelimiter d = false := by
      rw [isDelimiter_eq, hd]
      rfl
    rw [List.cons_append, lex_text hd', beforeDelimiter_append hdelimiter,
      fromDelimiter_append hdelimiter, ih]
    rfl

theorem lex_append (h : forall d, d ∈ front.getLast? -> isDelimiter d = true) :
    lex (front ++ post) = lex front ++ lex post := by
  cases front using List.reverseRecOn with
  | nil => rw [lex_nil]; rfl
  | append_singleton front d =>
    have hd := h d (by simp)
    rw [isDelimiter_eq] at hd
    rcases Option.isSome_iff_exists.mp hd with ⟨token, htoken⟩
    rw [List.append_assoc, List.singleton_append, lex_append_cons htoken,
      lex_append_cons htoken, lex_nil, List.append_assoc]
    rfl

theorem isDelimiter_of_fromDelimiter (h : fromDelimiter str = c :: rest) :
    isDelimiter c = true := by
  have hhead := List.head?_dropWhile_not (fun d => !isDelimiter d) str
  rw [← fromDelimiter, h] at hhead
  simpa using hhead

theorem not_isDelimiter_of_mem (h : c ∈ beforeDelimiter str) :
    isDelimiter c = false := by
  simpa using List.mem_takeWhile_imp h

theorem lex_of_not_mem (hc : isDelimiter c = false)
    (h : forall d, d ∈ str -> isDelimiter d = false) :
    lex (c :: str) = [textToken (c :: str)] := by
  have hbefore : beforeDelimiter str = str :=
    List.takeWhile_eq_self_iff.mpr (fun d hd => by simp [h d hd])
  have hfrom : fromDelimiter str = [] :=
    List.dropWhile_eq_nil_iff.mpr (fun d hd => by simp [h d hd])
  rw [lex_text hc, hbefore, hfrom, lex_nil]

theorem lex_before_append (hc : isDelimiter c = false) (h : fromDelimiter str = front ++ post) :
    lex (c :: beforeDelimiter str ++ front) =
      textToken (c :: beforeDelimiter str) :: lex front := by
  have htext := lex_of_not_mem hc
    (fun d (hd : d ∈ beforeDelimiter str) => not_isDelimiter_of_mem hd)
  cases front with
  | nil => rw [List.append_nil, htext, lex_nil]
  | cons e front =>
    have he := isDelimiter_of_fromDelimiter h
    rw [isDelimiter_eq] at he
    rcases Option.isSome_iff_exists.mp he with ⟨token, htoken⟩
    rw [lex_append_cons htoken, htext, lex_symbol htoken]
    rfl

/-- A token of the string: a symbol, or a text at the beginning of the string or
behind a delimiter. -/
structure TokenAt (str : List Char) (us : List Token) (token : Token)
    (vs : List Token) (front : List Char) (c : Char) (post : List Char) :
    Prop where
  split : str = front ++ c :: post
  tokens : lex front = us
  origin : (symbol c = some token ∧ lex post = vs) ∨
    (isDelimiter c = false ∧
      (forall d, d ∈ front.getLast? -> isDelimiter d = true) ∧
      textToken (c :: beforeDelimiter post) = token ∧
      lex (fromDelimiter post) = vs)

theorem tokenAt_head (h : lex (c :: str) = token :: vs) :
    TokenAt (c :: str) [] token vs [] c str := by
  constructor
  · rfl
  · exact lex_nil
  cases hc : isDelimiter c with
  | true =>
    rw [isDelimiter_eq] at hc
    rcases Option.isSome_iff_exists.mp hc with ⟨token', htoken⟩
    rw [lex_symbol htoken] at h
    cases h
    exact Or.inl ⟨htoken, rfl⟩
  | false =>
    rw [lex_text hc] at h
    cases h
    exact Or.inr ⟨rfl, by simp, rfl, rfl⟩

theorem TokenAt.cons_symbol {u : Token} {d : Char} (hd : symbol d = some u)
    (h : TokenAt str us token vs front c post) :
    TokenAt (d :: str) (u :: us) token vs (d :: front) c post := by
  constructor
  · rw [h.split]
    rfl
  · rw [lex_symbol hd, h.tokens]
  apply h.origin.imp_right
  rintro ⟨hc, hlast, htail⟩
  constructor
  · exact hc
  constructor
  · intro e he
    cases front with
    | nil =>
      cases he
      exact isDelimiter_of_symbol hd
    | cons e' front => exact hlast e (by simpa using he)
  · exact htail

theorem TokenAt.cons_text {d : Char} (hd : isDelimiter d = false)
    (h : TokenAt (fromDelimiter str) us token vs front c post) :
    TokenAt (d :: str) (textToken (d :: beforeDelimiter str) :: us) token vs
      (d :: beforeDelimiter str ++ front) c post := by
  constructor
  · rw [List.append_assoc, ← h.split, List.cons_append, before_append_from]
  · rw [lex_before_append hd h.split, h.tokens]
  apply h.origin.imp_right
  rintro ⟨hc, hlast, htail⟩
  constructor
  · exact hc
  constructor
  · intro e he
    cases front with
    | nil =>
      rw [isDelimiter_of_fromDelimiter h.split] at hc
      cases hc
    | cons e' front =>
      exact hlast e (by
        simpa [List.getLast?_append, List.getLast?_cons] using he)
  · exact htail

theorem exists_of_lex (h : lex str = us ++ token :: vs) :
    exists front c post, TokenAt str us token vs front c post := by
  induction us generalizing str with
  | nil =>
    cases str with
    | nil =>
      rw [lex_nil] at h
      cases h
    | cons c str => exact ⟨[], c, str, tokenAt_head h⟩
  | cons u us ih =>
    cases str with
    | nil =>
      rw [lex_nil] at h
      cases h
    | cons d str =>
      cases hd : isDelimiter d with
      | true =>
        rw [isDelimiter_eq] at hd
        rcases Option.isSome_iff_exists.mp hd with ⟨token', htoken⟩
        rw [lex_symbol htoken, List.cons_append] at h
        injection h with hu hrest
        subst hu
        rcases ih hrest with ⟨front, c, post, hat⟩
        exact ⟨_, c, post, hat.cons_symbol htoken⟩
      | false =>
        rw [lex_text hd, List.cons_append] at h
        injection h with hu hrest
        subst hu
        rcases ih hrest with ⟨front, c, post, hat⟩
        exact ⟨_, c, post, hat.cons_text hd⟩

end Lexing

/-!
# Integers
-/

section Integers

variable {c : Char} {cs : List Char} {intVal : Int}

theorem not_isWhite_of_isDelimiter (h : isDelimiter c = true) :
    isWhite c = false ∧ charDigit c = none ∧ c ≠ '+' ∧ c ≠ '-' ∧ c ≠ '\x00' := by
  simp only [isDelimiter, Bool.or_eq_true, decide_eq_true_eq] at h
  rcases h with ((rfl | rfl) | rfl) | rfl
  · decide
  · decide
  · decide
  · decide

theorem mem_dropWhile {p : Char -> Bool} (h : c ∈ cs) (hc : p c = false) :
    c ∈ cs.dropWhile p := by
  rw [← List.takeWhile_append_dropWhile (p := p) (l := cs), List.mem_append] at h
  apply h.resolve_left
  intro hmem
  have hp := List.mem_takeWhile_imp hmem
  rw [hc] at hp
  cases hp

theorem mem_rdropWhile {p : Char -> Bool} (h : c ∈ cs) (hc : p c = false) :
    c ∈ cs.rdropWhile p :=
  List.mem_reverse.mpr (mem_dropWhile (List.mem_reverse.mpr h) hc)

theorem parseNat_of_mem (h : c ∈ cs) (hc : charDigit c = none) :
    parseNat cs = none := by
  unfold parseNat
  split
  · rfl
  · cases hdigits : cs.mapM charDigit with
    | none => rfl
    | some ds => exact absurd hc (Traversal.ne_none_of_mapM hdigits h)

theorem int32Parse_of_mem (h : c ∈ cs) (hc : isDelimiter c = true) :
    int32Parse cs = none := by
  rcases not_isWhite_of_isDelimiter hc with ⟨hwhite, hdigit, hplus, hminus, hnull⟩
  have hmem := mem_rdropWhile (p := isWhite) (mem_rdropWhile (p := (· = '\x00'))
    (mem_dropWhile h hwhite) (by simpa using hnull)) hwhite
  unfold int32Parse parseInt32
  generalize ((cs.dropWhile isWhite).rdropWhile (· = '\x00')).rdropWhile isWhite =
    body at hmem
  have hbody : parseInteger body = none := by
    unfold parseInteger
    split
    · rw [parseNat_of_mem (List.mem_of_ne_of_mem hminus hmem) hdigit]
      rfl
    · rw [parseNat_of_mem (List.mem_of_ne_of_mem hplus hmem) hdigit]
      rfl
    · rw [parseNat_of_mem hmem hdigit]
      rfl
  rw [hbody]
  rfl

theorem lex_of_int32Parse (h : int32Parse cs = some intVal) :
    lex cs = [.value intVal] := by
  have hnot : forall d, d ∈ cs -> isDelimiter d = false := by
    intro d hd
    cases hdelimiter : isDelimiter d with
    | false => rfl
    | true =>
      rw [int32Parse_of_mem hd hdelimiter] at h
      cases h
  cases cs with
  | nil => cases h
  | cons c cs =>
    rw [lex_of_not_mem (hnot c List.mem_cons_self)
      (fun d hd => hnot d (List.mem_cons_of_mem c hd)), textToken, h]

end Integers

/-!
# The grammar of the tokens
-/

section Grammar

variable {str : List Char} {t : Template} {form : Form}

theorem symbol_sign (o : TemplateOperator) : symbol (sign o) = some (.op o) := by
  cases o <;> rfl

def lookaheadOf : Token -> Char
  | .left => '('
  | .right => ')'
  | .op o => sign o
  | .value _ => 'i'
  | .invalid => '$'

theorem lookaheadOf_symbol {c : Char} {token : Token}
    (h : symbol c = some token) : lookaheadOf token = c := by
  unfold symbol at h
  split_ifs at h with hleft hright hdisjunction hconjunction
  · cases h
    exact hleft.symm
  · cases h
    exact hright.symm
  · cases h
    exact hdisjunction.symm
  · cases h
    exact hconjunction.symm

theorem textToken_eq (text : List Char) :
    (textToken text = .invalid ∧ int32Parse text = none) ∨
      exists intVal, textToken text = .value intVal ∧ int32Parse text = some intVal := by
  unfold textToken
  cases int32Parse text with
  | none => exact Or.inl ⟨rfl, rfl⟩
  | some intVal => exact Or.inr ⟨intVal, rfl, rfl⟩

theorem translates_lex :
    Translates lex grammar (Bracketed.tokens Int TemplateOperator) where
  writes h := lex_of_int32Parse h
  bracket := by
    intro s
    show lex ('(' :: (s ++ ')' :: [])) = .left :: (lex s ++ [.right])
    rw [lex_symbol (rfl : symbol '(' = some .left),
      lex_append_cons (rfl : symbol ')' = some .right), lex_nil]
  apply := by
    intro o l r
    exact lex_append_cons (symbol_sign o)

theorem textToken_ne_symbol {c : Char} {text : List Char} {token : Token}
    (h : symbol c = some token) : textToken text ≠ token := by
  have hc := lookaheadOf_symbol h
  intro heq
  rcases textToken_eq text with ⟨htext, _⟩ | ⟨intVal, htext, _⟩
  · rw [← heq, htext] at hc
    subst hc
    cases h
  · rw [← heq, htext] at hc
    subst hc
    cases h

theorem exists_of_lex_symbol {us vs : List Token} {token : Token} {c : Char}
    (hsymbol : symbol c = some token) (h : lex str = us ++ token :: vs) :
    exists front post, str = front ++ c :: post ∧ lex front = us ∧ lex post = vs := by
  rcases exists_of_lex h with
    ⟨front, d, post, rfl, hfront, ⟨hd, hpost⟩ | htext⟩
  · have hcd : d = c := by
      rw [← lookaheadOf_symbol hd, lookaheadOf_symbol hsymbol]
    subst hcd
    exact ⟨front, post, rfl, hfront, hpost⟩
  · exact absurd htext.2.2.1 (textToken_ne_symbol hsymbol)

theorem int32Parse_of_lex {intVal : Int} (h : lex str = [.value intVal]) :
    int32Parse str = some intVal := by
  have hcons : lex str = [] ++ Bracketed.Token.value intVal :: [] := h
  rcases exists_of_lex hcons with ⟨front, c, post, rfl, hfront, hcase⟩
  rw [eq_nil_of_lex hfront, List.nil_append]
  rcases hcase with ⟨hc, _⟩ | ⟨_, _, htoken, hrest⟩
  · have hlookahead := lookaheadOf_symbol hc
    subst hlookahead
    cases hc
  · have hpost : beforeDelimiter post = post := by
      have happend := before_append_from post
      rwa [eq_nil_of_lex hrest, List.append_nil] at happend
    rw [hpost] at htoken
    rcases textToken_eq (c :: post) with ⟨hinvalid, _⟩ | ⟨z, hvalue, hz⟩
    · rw [htoken] at hinvalid
      cases hinvalid
    · rw [htoken] at hvalue
      cases hvalue
      exact hz

theorem groups_of_lex (h : Groups (Bracketed.tokens Int TemplateOperator) form
    (lex str) t) : Groups grammar form str t := by
  generalize hts : lex str = ts at h
  induction h generalizing str with
  | value h =>
    cases h
    exact .value (int32Parse_of_lex hts)
  | bracket h ih =>
    rw [List.cons_append, ← List.nil_append (_ :: _)] at hts
    rcases exists_of_lex_symbol (c := '(') rfl hts with
      ⟨front, inner, rfl, hfront, hinner⟩
    rcases exists_of_lex_symbol (c := ')') rfl hinner with
      ⟨s, post, rfl, hs, hpost⟩
    rw [eq_nil_of_lex hfront, eq_nil_of_lex hpost]
    exact .bracket (ih hs)
  | operand h ih => exact .operand (ih hts)
  | apply hl hr ihl ihr =>
    rename_i o l r u v
    rcases exists_of_lex_symbol (symbol_sign o) hts with
      ⟨front, post, rfl, hfront, hpost⟩
    exact .apply (ihl hfront) (ihr hpost)

theorem groups_lex_iff : Groups (Bracketed.tokens Int TemplateOperator) form
    (lex str) t <-> Groups grammar form str t := by
  constructor
  · exact groups_of_lex
  · exact Groups.map translates_lex

theorem derives_lex_iff :
    Derives (Bracketed.tokens Int TemplateOperator) (lex str) <-> Derives grammar str := by
  rw [Bracketed.derives_iff_groups, Bracketed.derives_iff_groups]
  exact exists_congr (fun t => groups_lex_iff)

end Grammar

/-!
# The stack of a configuration
-/

def opState : TemplateOperator -> Nat
  | .disjunctionOp => 4
  | .conjunctionOp => 5

def foundState : List (Pending Int TemplateOperator) -> Nat
  | [] => 1
  | _ :: _ => 6

def pendingStack (state : Nat) (stack : List StackElement) :
    Pending Int TemplateOperator -> List StackElement
  | none => stack
  | some (t, o) =>
    .ofChar (sign o) (opState o) :: .ofTemplate (some t) state :: stack

def enclosingStack : List (Pending Int TemplateOperator) -> List StackElement
  | [] => [.ofNone 0]
  | p :: enclosing =>
    .ofChar '(' 2 ::
      pendingStack (foundState enclosing) (enclosingStack enclosing) p

def stackOf : Config Int TemplateOperator -> List StackElement
  | .expect p enclosing =>
    pendingStack (foundState enclosing) (enclosingStack enclosing) p
  | .found t enclosing =>
    .ofTemplate (some t) (foundState enclosing) :: enclosingStack enclosing

def stateOf : Config Int TemplateOperator -> Nat
  | .expect (some (_, o)) _ => opState o
  | .expect none [] => 0
  | .expect none (_ :: _) => 2
  | .found _ enclosing => foundState enclosing

section Stack

variable {c c' : Config Int TemplateOperator} {p : Pending Int TemplateOperator}
  {enclosing : List (Pending Int TemplateOperator)} {token : Token}
  {t : Template}

theorem exists_stackOf (c : Config Int TemplateOperator) :
    exists top stack, stackOf c = top :: stack ∧ top.state = stateOf c := by
  cases c with
  | expect p enclosing =>
    cases p with
    | some pair => exact ⟨_, _, rfl, rfl⟩
    | none =>
      cases enclosing with
      | nil => exact ⟨_, _, rfl, rfl⟩
      | cons q enclosing => exact ⟨_, _, rfl, rfl⟩
  | found t enclosing => exact ⟨_, _, rfl, rfl⟩

theorem stateOf_expect (p : Pending Int TemplateOperator)
    (enclosing : List (Pending Int TemplateOperator)) :
    stateOf (.expect p enclosing) ∈ [0, 2, 4, 5] := by
  cases p with
  | some pair =>
    rcases pair with ⟨u, o⟩
    cases o with
    | disjunctionOp => simp [stateOf, opState]
    | conjunctionOp => simp [stateOf, opState]
  | none =>
    cases enclosing with
    | nil => simp [stateOf]
    | cons q enclosing => simp [stateOf]

theorem lookup_shift_expect {state : Nat} (h : state ∈ [0, 2, 4, 5]) (a : Char) :
    lookup shift state a = [('(', 2), ('i', 3)].lookup a := by
  simp only [List.mem_cons, List.not_mem_nil, or_false] at h
  rcases h with rfl | rfl | rfl | rfl
  · rfl
  · rfl
  · rfl
  · rfl

theorem lookup_shift_eq_none (h : advance c token = none) :
    lookup shift (stateOf c) (lookaheadOf token) = none := by
  cases c with
  | expect p enclosing =>
    rw [lookup_shift_expect (stateOf_expect p enclosing)]
    cases token with
    | left => cases h
    | value v => cases h
    | right => rfl
    | op o => cases o <;> rfl
    | invalid => rfl
  | found t enclosing =>
    cases enclosing with
    | nil =>
      cases token with
      | op o => cases h
      | left => rfl
      | right => rfl
      | value v => rfl
      | invalid => rfl
    | cons p enclosing =>
      cases token with
      | op o => cases h
      | right => cases h
      | left => rfl
      | value v => rfl
      | invalid => rfl

theorem lookup_reduce_eq_none (c : Config Int TemplateOperator) (a : Char) :
    lookup reduce (stateOf c) a = none := by
  cases c with
  | expect p enclosing =>
    have h := stateOf_expect p enclosing
    simp only [List.mem_cons, List.not_mem_nil, or_false] at h
    rcases h with h | h | h | h
    · rw [h]; rfl
    · rw [h]; rfl
    · rw [h]; rfl
    · rw [h]; rfl
  | found t enclosing =>
    cases enclosing with
    | nil => rfl
    | cons p enclosing => rfl

theorem pushTemplate_enclosing :
    pushTemplate (some t) (enclosingStack enclosing) = some (stackOf (.found t enclosing)) := by
  cases enclosing with
  | nil => rfl
  | cons p enclosing => rfl

end Stack

/-!
# The loop
-/

section Loop

variable {σ σ' σ'' : State} {lookahead : Char} {intVal : Int}
  {top : StackElement} {stack stack' : List StackElement} {str : List Char}
  {fuel : Nat}

theorem lookahead_mem (h : invokeLexer str = some (lookahead, intVal)) :
    lookahead ∈ ['(', ')', ';', ',', 'i', '$'] := by
  cases str with
  | nil =>
    cases h
    decide
  | cons c str =>
    rw [invokeLexer] at h
    split at h
    · rename_i hc
      cases h
      simp only [isDelimiter, Bool.or_eq_true, decide_eq_true_eq] at hc
      rcases hc with ((rfl | rfl) | rfl) | rfl
      · decide
      · decide
      · decide
      · decide
    · rcases Option.map_eq_some_iff.mp h with ⟨z, _, heq⟩
      cases heq
      decide

theorem lookup_always (rule : Nat) (h : lookahead ∈ ['(', ')', ';', ',', 'i', '$']) :
    (always rule).lookup lookahead = some rule := by
  simp only [List.mem_cons, List.not_mem_nil, or_false] at h
  rcases h with rfl | rfl | rfl | rfl | rfl | rfl
  · rfl
  · rfl
  · rfl
  · rfl
  · rfl
  · rfl

/-- The loop goes from `σ` to `σ'`. -/
def Leads (σ σ' : State) : Prop :=
  exists k, forall fuel, parseLoop (fuel + 1 + k) σ = parseLoop (fuel + 1) σ'

theorem Leads.refl (σ : State) : Leads σ σ :=
  ⟨0, fun _ => rfl⟩

theorem Leads.trans (h : Leads σ σ') (h' : Leads σ' σ'') : Leads σ σ'' := by
  rcases h with ⟨k, hk⟩
  rcases h' with ⟨k', hk'⟩
  exists k' + k
  intro fuel
  rw [← Nat.add_assoc, Nat.add_right_comm fuel 1 k', hk, Nat.add_right_comm, hk']

theorem leads_of_step (hstack : σ.stack = top :: stack)
    (hlexer : invokeLexer σ.str = some (lookahead, intVal)) (hnot : top.state ≠ 1 ∨ lookahead ≠ '$')
    (hstep : processOneStep lookahead intVal σ = some σ') : Leads σ σ' := by
  exists 1
  intro fuel
  rw [parseLoop, hlexer, hstack]
  simp only
  rw [if_pos hnot, hstep]

theorem leads_of_reduce (rule : Nat) (hrow : reduce top.state = some (always rule))
    (hrule : applyRule rule (top :: stack) = some stack') :
    Leads ⟨top :: stack, str⟩ ⟨stack', str⟩ := by
  have hstate : top.state ≠ 1 := by
    intro h
    rw [h] at hrow
    cases hrow
  have hshift : forall a, lookup shift top.state a = none := by
    intro a
    have hnone : shift top.state = none := by
      unfold reduce at hrow
      split at hrow
      · rename_i h; rw [h]; rfl
      · rename_i h; rw [h]; rfl
      · rename_i h; rw [h]; rfl
      · rename_i h; rw [h]; rfl
      · cases hrow
    rw [lookup, hnone]
    rfl
  cases hlexer : invokeLexer str with
  | none =>
    exists 1
    intro fuel
    have hthrows : forall stack, parseLoop (fuel + 1) ⟨stack, str⟩ = .exception := by
      intro stack
      simp only [parseLoop, hlexer]
    rw [hthrows, parseLoop]
    simp only [hlexer]
  | some pair =>
    rcases pair with ⟨lookahead, intVal⟩
    apply leads_of_step rfl hlexer (Or.inl hstate)
    have hreduce : lookup reduce top.state lookahead = some rule := by
      rw [lookup, hrow]
      exact lookup_always rule (lookahead_mem hlexer)
    simp only [processOneStep, hshift, hreduce, hrule, Option.map_some]

end Loop

/-!
# The steps for one token
-/

section Tokens

variable {c c' : Config Int TemplateOperator} {a : Char} {str : List Char}
  {token : Token} {intVal : Int} {n : Nat}

theorem exists_leads_template (p : Pending Int TemplateOperator)
    (enclosing : List (Pending Int TemplateOperator)) (t : Template) :
    exists stack, pushTemplate (some t) (stackOf (.expect p enclosing)) = some stack ∧
      forall str, Leads ⟨stack, str⟩ ⟨stackOf (.found (combine p t) enclosing), str⟩ := by
  cases p with
  | none => exact ⟨_, pushTemplate_enclosing, fun str => Leads.refl _⟩
  | some pair =>
    rcases pair with ⟨u, o⟩
    cases o with
    | disjunctionOp =>
      exact ⟨_, rfl, fun str => leads_of_reduce 2 rfl
        pushTemplate_enclosing⟩
    | conjunctionOp =>
      exact ⟨_, rfl, fun str => leads_of_reduce 3 rfl
        pushTemplate_enclosing⟩

theorem leads_of_shift (ha : isDelimiter a = true) (h : lookup shift (stateOf c) a = some n) :
    Leads ⟨stackOf c, a :: str⟩ ⟨.ofChar a n :: stackOf c, str⟩ := by
  rcases exists_stackOf c with ⟨top, stack, hstack, htop⟩
  have hlexer : invokeLexer (a :: str) = some (a, 0) := by
    rw [invokeLexer, if_pos ha]
  have hend : a ≠ '$' := by
    rintro rfl
    cases ha
  have hint : a ≠ 'i' := by
    rintro rfl
    cases ha
  apply leads_of_step hstack hlexer (Or.inr hend)
  simp only [processOneStep, hstack, htop, h, if_neg hint]

theorem leads_of_symbol (hsymbol : symbol a = some token) (h : advance c token = some c') :
    Leads ⟨stackOf c, a :: str⟩ ⟨stackOf c', str⟩ := by
  have hdelimiter := isDelimiter_of_symbol hsymbol
  have ha := lookaheadOf_symbol hsymbol
  cases c with
  | expect p enclosing =>
    cases token with
    | left =>
      cases h
      subst ha
      apply leads_of_shift hdelimiter
      rw [lookup_shift_expect (stateOf_expect p enclosing)]
      rfl
    | value v =>
      subst ha
      cases hdelimiter
    | right => cases h
    | op o => cases h
    | invalid => cases h
  | found t enclosing =>
    cases token with
    | op o =>
      cases h
      subst ha
      apply leads_of_shift hdelimiter
      cases enclosing with
      | nil => cases o <;> rfl
      | cons p enclosing => cases o <;> rfl
    | right =>
      cases enclosing with
      | nil => cases h
      | cons p enclosing =>
        cases h
        subst ha
        rcases exists_leads_template p enclosing t with
          ⟨stack, hpush, hleads⟩
        have hshift : lookup shift
            (stateOf (.found t (p :: enclosing))) ')' = some 9 := rfl
        exact ((leads_of_shift hdelimiter hshift).trans
          (leads_of_reduce 1 rfl hpush)).trans (hleads str)
    | left => cases h
    | value v => cases h
    | invalid => cases h

theorem leads_of_value (ha : isDelimiter a = false)
    (hvalue : int32Parse (a :: beforeDelimiter str) = some intVal)
    (h : advance c (.value intVal) = some c') :
    Leads ⟨stackOf c, a :: str⟩ ⟨stackOf c', fromDelimiter str⟩ := by
  cases c with
  | found t enclosing => cases h
  | expect p enclosing =>
    cases h
    rcases exists_stackOf (.expect p enclosing) with ⟨top, stack, hstack, htop⟩
    rcases exists_leads_template p enclosing (.leaf intVal) with
      ⟨stack', hpush, hleads⟩
    have hlexer : invokeLexer (a :: str) = some ('i', intVal) := by
      rw [invokeLexer, if_neg (by simp [ha]), beforeDelimiter_cons ha, hvalue]
      rfl
    have hshift : lookup shift top.state 'i' = some 3 := by
      rw [htop, lookup_shift_expect (stateOf_expect p enclosing)]
      rfl
    have hstep : Leads ⟨stackOf (.expect p enclosing), a :: str⟩
        ⟨.ofInt intVal 3 :: stackOf (.expect p enclosing),
          fromDelimiter str⟩ := by
      apply leads_of_step hstack hlexer (Or.inr (by decide))
      simp only [processOneStep, hstack, hshift, if_true, fromDelimiter_cons ha]
    exact (hstep.trans (leads_of_reduce 4 rfl hpush)).trans
      (hleads (fromDelimiter str))

theorem parseLoop_of_stuck {lookahead : Char} (hlexer : invokeLexer str = some (lookahead, intVal))
    (hnot : stateOf c ≠ 1 ∨ lookahead ≠ '$')
    (h : lookup shift (stateOf c) lookahead = none) (fuel : Nat) :
    parseLoop fuel ⟨stackOf c, str⟩ = .running := by
  rcases exists_stackOf c with ⟨top, stack, hstack, htop⟩
  have hreduce := lookup_reduce_eq_none c lookahead
  rw [← htop] at hnot h hreduce
  have hstep : processOneStep lookahead intVal ⟨stackOf c, str⟩ =
      some ⟨stackOf c, str⟩ := by
    simp only [processOneStep, hstack, h, hreduce]
  induction fuel with
  | zero => rfl
  | succ fuel ih =>
    rw [hstack] at ih hstep ⊢
    simp only [parseLoop, hlexer, if_pos hnot, hstep]
    exact ih

theorem parseLoop_of_invalid (ha : isDelimiter a = false)
    (h : int32Parse (a :: beforeDelimiter str) = none) (stack : List StackElement) :
    parseLoop 1 ⟨stack, a :: str⟩ = .exception := by
  have hlexer : invokeLexer (a :: str) = none := by
    rw [invokeLexer, if_neg (by simp [ha]), beforeDelimiter_cons ha, h]
    rfl
  simp only [parseLoop, hlexer]

end Tokens

/-!
# The outcome
-/

def Gives (σ : State) : Bracketed.Verdict Int TemplateOperator -> Prop
  | .accepts t => exists fuel, parseLoop fuel σ = .returned (some t)
  | .meetsInvalid => exists fuel, parseLoop fuel σ = .exception
  | .refuses => forall fuel, parseLoop fuel σ = .running

section Outcome

variable {σ σ' : State} {outcome : Outcome} {fuel : Nat} {s : String}
  {verdict : Bracketed.Verdict Int TemplateOperator}

theorem parseLoop_add (h : parseLoop fuel σ = outcome) (hne : outcome ≠ .running)
    (k : Nat) : parseLoop (fuel + k) σ = outcome := by
  induction fuel generalizing σ with
  | zero =>
    subst h
    exact absurd rfl hne
  | succ fuel ih =>
    rw [Nat.add_right_comm]
    unfold parseLoop at h ⊢
    split at h
    · split at h
      · split at h
        · rw [if_pos ‹_›]
          exact ih h
        · rw [if_pos ‹_›]
          exact h
      · rw [if_neg ‹_›]
        exact h
    · exact h

theorem parseLoop_unique {outcome' : Outcome} {fuel' : Nat}
    (h : parseLoop fuel σ = outcome) (hne : outcome ≠ .running)
    (h' : parseLoop fuel' σ = outcome') (hne' : outcome' ≠ .running) :
    outcome = outcome' := by
  rw [← parseLoop_add h hne fuel', Nat.add_comm]
  exact parseLoop_add h' hne' fuel

theorem Gives.of_leads (hleads : Leads σ σ') (h : Gives σ' verdict) :
    Gives σ verdict := by
  rcases hleads with ⟨k, hk⟩
  cases verdict with
  | accepts t =>
    rcases h with ⟨fuel, hfuel⟩
    exists fuel + 1 + k
    rw [hk]
    exact parseLoop_add hfuel nofun 1
  | meetsInvalid =>
    rcases h with ⟨fuel, hfuel⟩
    exists fuel + 1 + k
    rw [hk]
    exact parseLoop_add hfuel nofun 1
  | refuses =>
    intro fuel
    by_contra hne
    have hadd := parseLoop_add rfl hne (1 + k)
    rw [← Nat.add_assoc, hk, h (fuel + 1)] at hadd
    exact hne hadd.symm

theorem gives_end (c : Config Int TemplateOperator) :
    Gives ⟨stackOf c, []⟩ c.verdict := by
  cases c with
  | expect p enclosing =>
    intro fuel
    have hlexer : invokeLexer [] = some ('$', 0) := rfl
    apply parseLoop_of_stuck hlexer
    · have hstate := stateOf_expect p enclosing
      left
      intro h
      rw [h] at hstate
      simp at hstate
    · rw [lookup_shift_expect (stateOf_expect p enclosing)]
      rfl
  | found t enclosing =>
    cases enclosing with
    | nil => exact ⟨1, rfl⟩
    | cons p enclosing =>
      intro fuel
      have hstate : stateOf (.found t (p :: enclosing)) ≠ 1 := by
        simp [stateOf, foundState]
      have hlexer : invokeLexer [] = some ('$', 0) := rfl
      exact parseLoop_of_stuck hlexer (Or.inl hstate) rfl fuel

theorem gives_judge (c : Config Int TemplateOperator) (str : List Char) :
    Gives ⟨stackOf c, str⟩ (judge c (lex str)) := by
  fun_induction lex str generalizing c with
  | case1 => exact gives_end c
  | case2 a str token ha ih =>
    have hdelimiter := isDelimiter_of_symbol ha
    have hlookahead := lookaheadOf_symbol ha
    have hvalid : token ≠ .invalid := by
      rintro rfl
      subst hlookahead
      cases hdelimiter
    rw [Bracketed.judge_cons hvalid]
    cases hadvance : advance c token with
    | some c' => exact (ih c').of_leads (leads_of_symbol ha hadvance)
    | none =>
      intro fuel
      have hlexer : invokeLexer (a :: str) = some (a, 0) := by
        rw [invokeLexer, if_pos hdelimiter]
      have hend : a ≠ '$' := by
        rintro rfl
        cases hdelimiter
      apply parseLoop_of_stuck hlexer (Or.inr hend)
      rw [← hlookahead]
      exact lookup_shift_eq_none hadvance
  | case3 a str ha ih =>
    have hdelimiter : isDelimiter a = false := by
      rw [isDelimiter_eq, ha]
      rfl
    rcases textToken_eq (a :: beforeDelimiter str) with
      ⟨htext, hnone⟩ | ⟨v, htext, hv⟩
    · rw [htext, Bracketed.judge_invalid]
      exact ⟨1, parseLoop_of_invalid hdelimiter hnone _⟩
    · have hvalid : Bracketed.Token.value v ≠
          (Bracketed.Token.invalid : Token) := by simp
      rw [htext, Bracketed.judge_cons hvalid]
      cases hadvance : advance c (.value v) with
      | some c' =>
        exact (ih c').of_leads (leads_of_value hdelimiter hv hadvance)
      | none =>
        intro fuel
        have hlexer : invokeLexer (a :: str) = some ('i', v) := by
          rw [invokeLexer, if_neg (by simp [hdelimiter]),
            beforeDelimiter_cons hdelimiter, hv]
          rfl
        apply parseLoop_of_stuck hlexer (Or.inr (by decide))
        exact lookup_shift_eq_none hadvance

theorem lex_replicate (n : Nat) :
    lex (List.replicate n ')') = List.replicate n .right := by
  induction n with
  | zero => exact lex_nil
  | succ n ih =>
    rw [List.replicate_succ, lex_symbol (rfl : symbol ')' = some .right), ih]
    rfl

theorem lex_zero_replicate (n : Nat) :
    lex ('0' :: List.replicate n ')') = .value 0 :: List.replicate n .right := by
  have hzero : lex ['0'] = [.value 0] := lex_of_int32Parse (by decide +kernel)
  cases n with
  | zero => exact hzero
  | succ n =>
    rw [← lex_replicate (n + 1), List.replicate_succ,
      ← List.singleton_append, lex_append_cons (rfl : symbol ')' = some .right),
      hzero, lex_symbol (rfl : symbol ')' = some .right)]
    rfl

theorem MeetsUnreadable.judge {str : List Char} (h : MeetsUnreadable str) :
    judge start (lex str) = .meetsInvalid := by
  rcases h with ⟨front, a, post, rest, rfl, hlast, ha, hnone, hrest⟩
  rw [← derives_lex_iff, lex_append hlast] at hrest
  rw [lex_append hlast, lex_text ha, textToken, ← beforeDelimiter_cons ha, hnone]
  exact Bracketed.judge_start_of_derives hrest

theorem meetsUnreadable_of_judge {str : List Char}
    (h : judge start (lex str) = .meetsInvalid) : MeetsUnreadable str := by
  rcases Bracketed.exists_of_judge_start 0 h with ⟨us, vs, n, htokens, hn⟩
  rcases exists_of_lex htokens with ⟨front, a, post, rfl, rfl, hcase⟩
  rcases hcase with ⟨hsymbol, _⟩ | ⟨ha, hlast, htext, _⟩
  · have hlookahead := lookaheadOf_symbol hsymbol
    subst hlookahead
    cases hsymbol
  · have hnone : int32Parse (beforeDelimiter (a :: post)) = none := by
      rw [beforeDelimiter_cons ha]
      rcases textToken_eq (a :: beforeDelimiter post) with
        ⟨_, hnone⟩ | ⟨v, hvalue, _⟩
      · exact hnone
      · rw [htext] at hvalue
        cases hvalue
    rcases hn with hn | hn
    · rw [← lex_replicate, ← lex_append hlast, derives_lex_iff] at hn
      exact ⟨front, a, post, _, rfl, hlast, ha, hnone, hn⟩
    · rw [← lex_zero_replicate, ← lex_append hlast, derives_lex_iff] at hn
      exact ⟨front, a, post, _, rfl, hlast, ha, hnone, hn⟩

theorem derives_iff_judge {str : List Char} :
    Derives grammar str <-> exists t, judge start (lex str) = .accepts t := by
  rw [Bracketed.derives_iff_groups]
  apply exists_congr
  intro t
  rw [Bracketed.judge_start_eq_accepts_iff, groups_lex_iff]

/-- The parser reports an error exactly where it meets a text that is no
integer.  On all other strings that the grammar does not derive it runs for
ever. -/
theorem parsesCorrectly_iff (s : String) : ParsesCorrectly s <->
    Derives grammar s.toList ∨ MeetsUnreadable s.toList := by
  have hgives : Gives ⟨[.ofNone 0], s.toList⟩ (judge start (lex s.toList)) :=
    gives_judge start s.toList
  constructor
  · intro h
    rcases h.terminates with ⟨fuel, hfuel⟩
    cases hjudge : judge start (lex s.toList) with
    | accepts t => exact Or.inl (derives_iff_judge.mpr ⟨t, hjudge⟩)
    | meetsInvalid => exact Or.inr (meetsUnreadable_of_judge hjudge)
    | refuses =>
      rw [hjudge] at hgives
      exact absurd (hgives fuel) hfuel
  · rintro (hderives | hunreadable)
    · rcases derives_iff_judge.mp hderives with ⟨t, ht⟩
      rw [ht] at hgives
      rcases hgives with ⟨fuel, hfuel⟩
      have hgroups := Bracketed.judge_start_eq_accepts_iff.mp ht
      rw [groups_lex_iff] at hgroups
      constructor
      · exists fuel
        rw [parse, hfuel]
        nofun
      · exact iff_of_true ⟨fuel, some t, hfuel⟩ hderives
      · intro u
        constructor
        · rintro ⟨fuel', hfuel'⟩
          cases parseLoop_unique hfuel nofun hfuel' nofun
          exact hgroups
        · intro hu
          rw [← groups_lex_iff, ← Bracketed.judge_start_eq_accepts_iff, ht] at hu
          cases hu
          exact ⟨fuel, hfuel⟩
      · exact absurd hderives
    · have hjudge := hunreadable.judge
      rw [hjudge] at hgives
      rcases hgives with ⟨fuel, hfuel⟩
      have hnot : ¬ Derives grammar s.toList := by
        intro hderives
        rcases derives_iff_judge.mp hderives with ⟨t, ht⟩
        rw [hjudge] at ht
        cases ht
      have hreturned : forall fuel' ret, parse fuel' s ≠ .returned ret := by
        intro fuel' ret hfuel'
        cases parseLoop_unique hfuel nofun hfuel' nofun
      constructor
      · exists fuel
        rw [parse, hfuel]
        nofun
      · apply iff_of_false
        · rintro ⟨fuel', ret, hfuel'⟩
          exact hreturned fuel' ret hfuel'
        · exact hnot
      · intro u
        apply iff_of_false
        · rintro ⟨fuel', hfuel'⟩
          exact hreturned fuel' (some u) hfuel'
        · exact fun hu => hnot hu.derives
      · intro _
        exact ⟨fuel, hfuel⟩

/-- A bracket that is not closed: the parser waits for it without an end. -/
theorem unclosed_not_parsed : ¬ ParsesCorrectly "(1" := by
  intro h
  rcases h.terminates with ⟨fuel, hfuel⟩
  have hone : lex ['1'] = [.value 1] := lex_of_int32Parse (by decide +kernel)
  have hlex : lex ['(', '1'] = [.left, .value 1] := by
    rw [lex_symbol (rfl : symbol '(' = some .left), hone]
  have hgives := gives_judge start ['(', '1']
  rw [hlex] at hgives
  exact hfuel (hgives fuel)

end Outcome

end TemplateParser
end Houdini
end Boogie
