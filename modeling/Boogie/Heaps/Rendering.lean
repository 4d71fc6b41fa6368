import Boogie.Core.ExpressionText
import Boogie.Heaps.PredGenList

/-!
# What a rendered predicate says

The parse tree of a term is written down from the operators and their arguments.  The
generator prints it when the loops over the conjuncts keep their order.
-/

namespace Boogie
namespace Heaps

open ExpressionText
open SharedIndex

/-!
# The parse tree of a term
-/

inductive Shape where
  | call (f : String) (before after : List String)
  | operator (op : Opcode)
  | bound (op : Opcode) (n : Nat)
  | negation
deriving DecidableEq, Repr

def Op.shape (st : Settings) : Op -> Nat -> Option Shape
  | .list, 1 => some (.call ("F#" ++ st.lst) ["$s"] [])
  | .list3, 1 => some (.call ("F#" ++ st.lst3) ["$s"] [])
  | .lseg, 2 => some (.call ("F#" ++ st.lst ++ "_lseg") ["$s"] [])
  | .reach, 1 => some (.call ("F#" ++ st.lst ++ "_reach") ["$s"] [])
  | .reach, 2 => some (.call ("F#" ++ st.lst ++ "_lseg_reach") ["$s"] [])
  | .reach3, 1 => some (.call ("F#" ++ st.lst3 ++ "_reach") ["$s"] [])
  | .reach3, 2 => some (.call ("F#" ++ st.lst3 ++ "_lseg_reach") ["$s"] [])
  | .keys, 1 => some (.call ("F#" ++ st.lst2 ++ "_keys") ["$s"] [])
  | .keys, 2 => some (.call ("F#" ++ st.lst2 ++ "_lseg_keys") ["$s"] [])
  | .len, 1 => some (.call ("F#" ++ st.lst2 ++ "_list_len_next") ["$s"] [])
  | .len, 2 => some (.call ("F#" ++ st.lst2 ++ "_lseg_len_next") ["$s"] [])
  | .reachOld, 1 => some (.call ("F#" ++ st.lst ++ "_reach") [st.old] [])
  | .reachOld, 2 => some (.call ("F#" ++ st.lst ++ "_lseg_reach") [st.old] [])
  | .keysOld, 1 => some (.call ("F#" ++ st.lst2 ++ "_keys") [st.old] [])
  | .keysOld, 2 => some (.call ("F#" ++ st.lst2 ++ "_lseg_keys") [st.old] [])
  | .max, 1 => some (.call ("F#" ++ st.lst2 ++ "_max_key") ["$s"] [])
  | .max, 2 => some (.call ("F#" ++ st.lst2 ++ "_lseg_max_key") ["$s"] [])
  | .min, 1 => some (.call ("F#" ++ st.lst2 ++ "_min_key") ["$s"] [])
  | .min, 2 => some (.call ("F#" ++ st.lst2 ++ "_lseg_min_key") ["$s"] [])
  | .singletonO, 1 => some (.call "$oset_singleton" [] [])
  | .singletonI, 1 => some (.call "$intset_singleton" [] [])
  | .unionO, 2 => some (.call "$oset_union" [] [])
  | .unionI, 2 => some (.call "$intset_union" [] [])
  | .inO, 2 => some (.call "$oset_in" [] [])
  | .inI, 2 => some (.call "$intset_in" [] [])
  | .subsetO, 2 => some (.call "$oset_subset" [] [])
  | .subsetI, 2 => some (.call "$intset_subset" [] [])
  | .disjointO, 2 => some (.call "$oset_disjoint" [] [])
  | .disjointI, 2 => some (.call "$intset_disjoint" [] [])
  | .leO, 2 => some (.call "$oset_le" [] [])
  | .leI, 2 => some (.call "$intset_le" [] [])
  | .isNull, 1 => some (.call "$is_null" [] [])
  | .nonNull, 1 => some (.call "$non_null" [] [])
  | .next, 1 => some (.call "$rd_phys_ptr" ["$s", st.node ++ "_node.next"]
      ["^" ++ st.node ++ "_node"])
  | .prev, 1 => some (.call "$rd_phys_ptr" ["$s", st.node ++ "_node.prev"]
      ["^" ++ st.node ++ "_node"])
  | .key, 1 => some (.call "$rd_inv" ["$s", st.node ++ "_node.key"] [])
  | .ltIntMax, 1 => some (.bound .lt 2147483647)
  | .ltUintMax, 1 => some (.bound .lt 4294967295)
  | .geZero, 1 => some (.bound .ge 0)
  | .plus, 2 => some (.operator .add)
  | .minus, 2 => some (.operator .sub)
  | .not, 1 => some .negation
  | .eq, 2 => some (.operator .eq)
  | .neq, 2 => some (.operator .neq)
  | .eqS, 2 => some (.operator .eq)
  | .lt, 2 => some (.operator .lt)
  | .le, 2 => some (.operator .le)
  | .implies, 2 => some (.operator .imp)
  | _, _ => none

namespace Shape

def tree : Shape -> List ParseTree -> ParseTree
  | call f before after, es =>
    .call f (before.map ParseTree.ident ++ es ++ after.map ParseTree.ident)
  | operator op, es => .paren (Rose.node (.binary op) es)
  | bound op n, es => .paren (Rose.node (.binary op) (es ++ [.nat n]))
  | negation, es => .paren (.not (Rose.node .paren es))

/-- The shape is one for `n` arguments, with identifiers for its names. -/
def Fits (n : Nat) : Shape -> Prop
  | call f before after =>
    isIdent f = true ∧ (forall x, x ∈ before -> isIdent x = true) ∧
      (forall x, x ∈ after -> isIdent x = true) ∧ 0 < n
  | operator _ => n = 2
  | bound _ _ => n = 1
  | negation => n = 1

end Shape

def numberTree (st : Settings) (p i : Nat -> String) (t : Int) : ParseTree :=
  if t ≥ 0 then
    .call "$phys_ptr_cast" [.ident (p t.toNat), .ident ("^" ++ st.node ++ "_node")]
  else .ident (i ((-1 * t).toNat - 1))

mutual

def Term.tree (st : Settings) (p i : Nat -> String) : Term -> ParseTree
  | .num t => numberTree st p i t
  | .app op args =>
    if op = .and then .paren (.conj (trees st p i args))
    else
      match op.shape st args.length with
      | some shape => shape.tree (trees st p i args)
      | none => .ident "undefined"

def Term.trees (st : Settings) (p i : Nat -> String) : List Term -> List ParseTree
  | [] => []
  | t :: ts => t.tree st p i :: trees st p i ts

end

mutual

/-- Every operator is known and has a number of arguments that it takes. -/
def Term.Supported (st : Settings) : Term -> Prop
  | .num _ => True
  | .app op args =>
    (if op = .and then 2 ≤ args.length else (op.shape st args.length).isSome = true) ∧
      AllSupported st args

def Term.AllSupported (st : Settings) : List Term -> Prop
  | [] => True
  | t :: ts => t.Supported st ∧ AllSupported st ts

end

/-- What `init` leaves in the globals, with identifiers from the annotations. -/
structure Settings.Valid (st : Settings) : Prop where
  lst : forall c, c ∈ st.lst.toList -> isIdentChar c = true
  lst2 : forall c, c ∈ st.lst2.toList -> isIdentChar c = true
  lst3 : forall c, c ∈ st.lst3.toList -> isIdentChar c = true
  node : st.node = "s" ∨ st.node = "d"
  old : isIdent st.old = true

/-!
# Conjuncts in order
-/

mutual

/-- The index after the last `and` that is rendered, as long as all loops keep their
order.  A loop whose last conjunct leaves an index behind ends one above it. -/
def Term.exit : Term -> Option Nat
  | .num _ => none
  | .app op args =>
    if op = .and then
      some ((markOf (exits args) args.length).getD args.length + 1)
    else lastSome (exits args)

def Term.exits : List Term -> List (Option Nat)
  | [] => []
  | t :: ts => t.exit :: exits ts

end

mutual

/-- In each conjunction the rendering of a conjunct leaves the index of the loop where
it is: a conjunct after the first has no `and`, or leaves its own position behind; the
last one may leave any index behind that ends the loop. -/
def Term.InOrder : Term -> Prop
  | .num _ => True
  | .app op args =>
    (op = .and -> forall k, k ≤ args.length -> 2 ≤ k ->
      Stays args.length k (markOf (exits args) k)) ∧ AllInOrder args

def Term.AllInOrder : List Term -> Prop
  | [] => True
  | t :: ts => t.InOrder ∧ AllInOrder ts

end

/-!
# Shapes and pieces
-/

def argNumbers : List Piece -> List Nat
  | [] => []
  | .text _ :: rest => argNumbers rest
  | .arg n :: rest => n :: argNumbers rest

def assemble : List Piece -> List String -> String
  | .text s :: rest, ss => s ++ assemble rest ss
  | .arg _ :: rest, s :: ss => s ++ assemble rest ss
  | _, _ => ""

namespace Shape

def text : Shape -> List (List Char) -> List Char
  | call f before after, texts =>
    f.toList ++ '(' :: (([',']).intercalate
      (before.map String.toList ++ texts ++ after.map String.toList) ++ [')'])
  | operator op, texts => '(' :: ((tokenText (.op op)).intercalate texts ++ [')'])
  | bound op n, texts =>
    '(' :: ((tokenText (.op op)).intercalate (texts ++ [(toString n).toList]) ++ [')'])
  | negation, texts => '(' :: '!' :: '(' :: (texts.flatten ++ [')', ')'])

end Shape

theorem toDigits_int_max :
    Nat.toDigits 10 2147483647 = "2147483647".toList := by
  decide +kernel

theorem toDigits_uint_max :
    Nat.toDigits 10 4294967295 = "4294967295".toList := by
  decide +kernel

theorem pieces_of_shape {st : Settings} {op : Op} {n : Nat} {shape : Shape}
    (h : op.shape st n = some shape) :
    exists ps, pieces st n op = some ps ∧ argNumbers ps = List.range' 1 n ∧
      forall ss, ss.length = n -> (assemble ps ss).toList = shape.text (ss.map String.toList) := by
  cases op <;> rcases n with _ | _ | _ | n <;> cases h
  any_goals
    refine ⟨_, rfl, rfl, ?_⟩
    intro ss hss
    rcases ss with _ | ⟨a, _ | ⟨b, _ | ⟨c, ss⟩⟩⟩
    all_goals first
      | (simp at hss; done)
      | simp [assemble, Shape.text, tokenText, Opcode.text, List.intercalate,
          toDigits_int_max, toDigits_uint_max]

theorem not_keyword {x : String} {c : Char} (hc : c ∈ x.toList) (hlower : c.isLower = false) :
    keywords.contains x = false := by
  have hall : keywords.all (fun w => w.toList.all Char.isLower) = true := by decide
  by_contra hcontra
  rw [Bool.not_eq_false, List.contains_iff_mem] at hcontra
  have hx := List.all_eq_true.mp hall x hcontra
  have hcx := List.all_eq_true.mp hx c hc
  rw [hlower] at hcx
  cases hcx

theorem isIdent_of_chars {x : String} {c : Char} {cs : List Char} (hx : x.toList = c :: cs)
    (hc : isNondigit c = true) (hcs : forall d, d ∈ cs -> isIdentChar d = true)
    {d : Char} (hd : d ∈ c :: cs) (hlower : d.isLower = false) : isIdent x = true := by
  have hkeyword := not_keyword (hx ▸ hd) hlower
  have hescape : c ≠ '\\' := by
    intro heq
    rw [heq] at hc
    exact absurd hc (by decide)
  rw [isIdent, hx, hkeyword, Bool.not_false, Bool.and_true, isIdentText_cons hescape, hc,
    List.all_eq_true.mpr hcs]
  rfl

theorem isIdent_function {lst suffix : String}
    (hlst : forall c, c ∈ lst.toList -> isIdentChar c = true)
    (hsuffix : suffix.toList.all isIdentChar = true) :
    isIdent ("F#" ++ lst ++ suffix) = true := by
  have hx : ("F#" ++ lst ++ suffix).toList = 'F' :: ('#' :: (lst.toList ++ suffix.toList)) := by
    simp
  have hchars : forall d, d ∈ '#' :: (lst.toList ++ suffix.toList) -> isIdentChar d = true := by
    intro d hd
    rcases List.mem_cons.mp hd with rfl | hmem
    · decide
    · rcases List.mem_append.mp hmem with h | h
      · exact hlst d h
      · exact List.all_eq_true.mp hsuffix d h
  exact isIdent_of_chars hx (by decide) hchars (List.mem_cons_self ..) (by decide)

theorem Shape.fits_call {f : String} {before after : List String} {n : Nat}
    (hf : isIdent f = true) (hbefore : forall x, x ∈ before -> isIdent x = true)
    (hafter : forall x, x ∈ after -> isIdent x = true) (hn : 0 < n) :
    (Shape.call f before after).Fits n :=
  ⟨hf, hbefore, hafter, hn⟩

theorem fits_function {lst suffix : String} {before : List String} {n : Nat}
    (hlst : forall c, c ∈ lst.toList -> isIdentChar c = true)
    (hbefore : forall x, x ∈ before -> isIdent x = true)
    (hsuffix : suffix.toList.all isIdentChar = true) (hn : 0 < n) :
    (Shape.call ("F#" ++ lst ++ suffix) before []).Fits n :=
  Shape.fits_call (isIdent_function hlst hsuffix) hbefore (by simp) hn

theorem fits_of_shape {st : Settings} (hst : st.Valid) {op : Op} {n : Nat} {shape : Shape}
    (h : op.shape st n = some shape) : shape.Fits n := by
  have hlst : isIdent ("F#" ++ st.lst) = true := by
    have hname := @isIdent_function st.lst "" hst.lst rfl
    rwa [String.append_empty] at hname
  have hlst3 : isIdent ("F#" ++ st.lst3) = true := by
    have hname := @isIdent_function st.lst3 "" hst.lst3 rfl
    rwa [String.append_empty] at hname
  have hnone : forall x, x ∈ ([] : List String) -> isIdent x = true := by simp
  have hstate : forall x, x ∈ ["$s"] -> isIdent x = true := by
    simp only [List.forall_mem_singleton]
    decide
  have hold : forall x, x ∈ [st.old] -> isIdent x = true := by
    simp only [List.forall_mem_singleton]
    exact hst.old
  have hfields : (forall x, x ∈ ["$s", st.node ++ "_node.next"] -> isIdent x = true) ∧
      (forall x, x ∈ ["$s", st.node ++ "_node.prev"] -> isIdent x = true) ∧
      (forall x, x ∈ ["$s", st.node ++ "_node.key"] -> isIdent x = true) ∧
      (forall x, x ∈ ["^" ++ st.node ++ "_node"] -> isIdent x = true) := by
    rcases hst.node with hnode | hnode <;>
    · rw [hnode]
      decide
  rcases hfields with ⟨hnext, hprev, hkey, htype⟩
  cases op <;> rcases n with _ | _ | _ | n <;> cases h
  all_goals first
    | exact rfl
    | (with_reducible apply Shape.fits_call hlst hstate hnone); decide
    | (with_reducible apply Shape.fits_call hlst3 hstate hnone); decide
    | (with_reducible apply fits_function hst.lst hstate) <;> decide
    | (with_reducible apply fits_function hst.lst2 hstate) <;> decide
    | (with_reducible apply fits_function hst.lst3 hstate) <;> decide
    | (with_reducible apply fits_function hst.lst hold) <;> decide
    | (with_reducible apply fits_function hst.lst2 hold) <;> decide
    | (with_reducible apply Shape.fits_call (by decide) hnone hnone); decide
    | (with_reducible apply Shape.fits_call (by decide) hnext htype); decide
    | (with_reducible apply Shape.fits_call (by decide) hprev htype); decide
    | (with_reducible apply Shape.fits_call (by decide) hkey hnone); decide

/-!
# Trees of shapes
-/

def isConj : Label -> Bool
  | .conj => true
  | _ => false

def printed (e : ParseTree) : List Char :=
  ExpressionText.text (tokens e)

theorem text_append (ts us : List Token) :
    ExpressionText.text (ts ++ us) = ExpressionText.text ts ++ ExpressionText.text us :=
  List.flatMap_append

theorem text_cons (t : Token) (ts : List Token) :
    ExpressionText.text (t :: ts) = tokenText t ++ ExpressionText.text ts :=
  List.flatMap_cons

theorem text_joined (sep : Token) (tss : List (List Token)) :
    ExpressionText.text (joined sep tss) =
      (tokenText sep).intercalate (tss.map ExpressionText.text) := by
  induction tss with
  | nil => rfl
  | cons ts tss ih =>
    cases tss with
    | nil => simp [joined, List.intercalate]
    | cons us rest =>
      rw [joined, text_append, text_cons, ih]
      simp [List.intercalate]

theorem text_tokenLists (es : List ParseTree) :
    (tokenLists es).map ExpressionText.text = es.map printed := by
  rw [tokenLists_eq, List.map_map]
  rfl

theorem printed_ident (x : String) : printed (.ident x) = x.toList := by
  rw [printed, tokens_ident, text_cons]
  exact List.append_nil _

theorem printed_nat (n : Nat) : printed (.nat n) = (toString n).toList := by
  rw [printed, tokens_nat, text_cons]
  exact List.append_nil _

theorem printed_call (f : String) (es : List ParseTree) :
    printed (.call f es) = f.toList ++ '(' :: ([','].intercalate (es.map printed) ++ [')']) := by
  rw [printed, ParseTree.call, tokens, text_append, text_cons, text_cons, text_joined,
    text_tokenLists]
  simp [tokenText, ExpressionText.text]

theorem printed_paren (e : ParseTree) : printed (.paren e) = '(' :: (printed e ++ [')']) := by
  rw [printed, tokens_paren, text_append, text_cons]
  rfl

theorem printed_not (e : ParseTree) : printed (.not e) = '!' :: printed e := by
  rw [printed, tokens_not, text_cons]
  rfl

theorem printed_binary (op : Opcode) (es : List ParseTree) :
    printed (Rose.node (.binary op) es) = (tokenText (.op op)).intercalate (es.map printed) := by
  rw [printed, tokens, text_joined, text_tokenLists]

theorem printed_conj (es : List ParseTree) :
    printed (.conj es) = [' ', '&', '&', ' '].intercalate (es.map printed) := by
  rw [printed, ParseTree.conj, tokens, text_joined, text_tokenLists]
  rfl

namespace Shape

variable {shape : Shape} {es : List ParseTree}

theorem printed_tree (hfits : shape.Fits es.length) :
    printed (shape.tree es) = shape.text (es.map printed) := by
  cases shape with
  | call f before after =>
    rw [tree, printed_call, text]
    simp [List.map_map, Function.comp_def, printed_ident]
  | operator op => rw [tree, printed_paren, printed_binary, text]
  | bound op n =>
    rw [tree, printed_paren, printed_binary, text, List.map_append, List.map_singleton,
      printed_nat]
  | negation =>
    rcases List.length_eq_one_iff.mp hfits with ⟨e, rfl⟩
    rw [tree, printed_paren, printed_not, text]
    have hinner : printed (Rose.node .paren [e]) = '(' :: (printed e ++ [')']) :=
      printed_paren e
    rw [hinner]
    simp

theorem fullyParenthesised (hfits : shape.Fits es.length)
    (hes : forall e, e ∈ es -> FullyParenthesised e) :
    FullyParenthesised (shape.tree es) := by
  cases shape with
  | call f before after =>
    rcases hfits with ⟨hf, hbefore, hafter, hpos⟩
    apply FullyParenthesised.call hf
    · intro hnil
      rw [List.append_eq_nil_iff, List.append_eq_nil_iff] at hnil
      rw [hnil.left.right] at hpos
      exact absurd hpos (Nat.lt_irrefl 0)
    · intro e he
      rcases List.mem_append.mp he with hleft | hright
      · rcases List.mem_append.mp hleft with hmem | hmem
        · rcases List.mem_map.mp hmem with ⟨x, hx, rfl⟩
          exact .ident (hbefore x hx)
        · exact hes e hmem
      · rcases List.mem_map.mp hright with ⟨x, hx, rfl⟩
        exact .ident (hafter x hx)
  | operator op =>
    rcases List.length_eq_two.mp hfits with ⟨e0, e1, rfl⟩
    exact .binary (hes e0 (by simp)) (hes e1 (by simp))
  | bound op n =>
    rcases List.length_eq_one_iff.mp hfits with ⟨e, rfl⟩
    exact .binary (hes e (by simp)) (.nat n)
  | negation =>
    rcases List.length_eq_one_iff.mp hfits with ⟨e, rfl⟩
    exact .not (.paren (hes e (by simp)))

end Shape

theorem exit_straight {l : Label} (h : isConj l = false) (es : List ParseTree) :
    exit isConj (Rose.node l es) = lastSome (es.map (exit isConj)) := by
  have hrange := lastMark_range' (es.map (exit isConj))
  rw [List.length_map] at hrange
  rw [exit, if_neg (by simp [h]), exits_eq, hrange]

theorem inOrder_straight {l : Label} (h : isConj l = false) (es : List ParseTree) :
    InOrder isConj (Rose.node l es) <-> forall e, e ∈ es -> InOrder isConj e := by
  rw [InOrder, allInOrder_iff, h]
  simp

theorem lastSome_append (marks marks' : List (Option Nat)) :
    lastSome (marks ++ marks') = (lastSome marks').or (lastSome marks) := by
  induction marks with
  | nil => simp [lastSome]
  | cons mark marks ih => rw [List.cons_append, lastSome, lastSome, ih, Option.or_assoc]

theorem lastSome_none {marks : List (Option Nat)} (h : forall m, m ∈ marks -> m = none) :
    lastSome marks = none := by
  induction marks with
  | nil => rfl
  | cons mark marks ih =>
    rw [lastSome, ih (fun m hm => h m (List.mem_cons_of_mem _ hm)),
      h mark (List.mem_cons_self ..)]
    rfl

theorem exit_ident (x : String) : exit isConj (ParseTree.ident x) = none :=
  exit_straight (l := .ident x) rfl []

theorem exit_nat (n : Nat) : exit isConj (ParseTree.nat n) = none :=
  exit_straight (l := .nat n) rfl []

theorem exit_paren (e : ParseTree) : exit isConj (ParseTree.paren e) = exit isConj e := by
  rw [ParseTree.paren, exit_straight rfl]
  rfl

theorem inOrder_ident (x : String) : InOrder isConj (ParseTree.ident x) :=
  (inOrder_straight (l := .ident x) rfl []).mpr (by simp)

theorem inOrder_nat (n : Nat) : InOrder isConj (ParseTree.nat n) :=
  (inOrder_straight (l := .nat n) rfl []).mpr (by simp)

theorem inOrder_paren (e : ParseTree) :
    InOrder isConj (ParseTree.paren e) <-> InOrder isConj e := by
  rw [ParseTree.paren, inOrder_straight rfl, List.forall_mem_singleton]

theorem shows_ident (x : String) :
    Shows isConj (ParseTree.ident x) (ParseTree.ident x) none := by
  have hshows := (inOrder_ident x).shows
  rwa [exit_ident] at hshows

theorem shows_nat (n : Nat) : Shows isConj (ParseTree.nat n) (ParseTree.nat n) none := by
  have hshows := (inOrder_nat n).shows
  rwa [exit_nat] at hshows

theorem shows_unary {l : Label} (hl : isConj l = false) {e e' : ParseTree}
    {mark : Option Nat} (h : Shows isConj e e' mark) :
    Shows isConj (Rose.node l [e]) (Rose.node l [e']) mark :=
  @shows_straight _ _ _ hl _ [(e', mark)] (.cons h .nil)

abbrev ShowsAll (es : List ParseTree) (outs : List (ParseTree × Option Nat)) : Prop :=
  List.Forall₂ (fun e o => Shows isConj e o.1 o.2) es outs

theorem showsAll_idents (xs : List String) :
    ShowsAll (xs.map ParseTree.ident) (xs.map (fun x => (ParseTree.ident x, none))) := by
  induction xs with
  | nil => exact .nil
  | cons x xs ih => exact .cons (shows_ident x) ih

theorem map_fst_idents (xs : List String) :
    (xs.map (fun x => (ParseTree.ident x, (none : Option Nat)))).map Prod.fst =
      xs.map ParseTree.ident := by
  rw [List.map_map]
  rfl

theorem lastSome_idents (xs : List String) :
    lastSome ((xs.map (fun x => (ParseTree.ident x, (none : Option Nat)))).map Prod.snd) =
      none := by
  apply lastSome_none
  intro m hm
  rw [List.map_map] at hm
  rcases List.mem_map.mp hm with ⟨x, _, rfl⟩
  rfl

namespace Shape

theorem exit_tree (shape : Shape) (es : List ParseTree) :
    exit isConj (shape.tree es) = lastSome (es.map (exit isConj)) := by
  have hidents : forall xs : List String,
      lastSome ((xs.map ParseTree.ident).map (exit isConj)) = none := by
    intro xs
    apply lastSome_none
    intro m hm
    rw [List.map_map] at hm
    rcases List.mem_map.mp hm with ⟨x, _, rfl⟩
    exact exit_ident x
  cases shape with
  | call f before after =>
    rw [tree, ParseTree.call, exit_straight rfl, List.map_append, List.map_append,
      lastSome_append, lastSome_append, hidents, hidents, Option.none_or, Option.or_none]
  | operator op => rw [tree, exit_paren, exit_straight rfl]
  | bound op n =>
    rw [tree, exit_paren, exit_straight rfl, List.map_append, lastSome_append,
      List.map_singleton, exit_nat]
    rfl
  | negation =>
    rw [tree, exit_paren, ParseTree.not, exit_straight rfl, List.map_singleton,
      exit_straight rfl]
    rfl

theorem inOrder_tree (shape : Shape) (es : List ParseTree) :
    InOrder isConj (shape.tree es) <-> forall e, e ∈ es -> InOrder isConj e := by
  cases shape with
  | call f before after =>
    rw [tree, ParseTree.call, inOrder_straight rfl]
    constructor
    · intro h e he
      exact h e (by simp [he])
    · intro h e he
      rcases List.mem_append.mp he with hleft | hright
      · rcases List.mem_append.mp hleft with hmem | hmem
        · rcases List.mem_map.mp hmem with ⟨x, _, rfl⟩
          exact inOrder_ident x
        · exact h e hmem
      · rcases List.mem_map.mp hright with ⟨x, _, rfl⟩
        exact inOrder_ident x
  | operator op => rw [tree, inOrder_paren, inOrder_straight rfl]
  | bound op n =>
    rw [tree, inOrder_paren, inOrder_straight rfl]
    constructor
    · intro h e he
      exact h e (List.mem_append_left _ he)
    · intro h e he
      rcases List.mem_append.mp he with hmem | hmem
      · exact h e hmem
      · rw [List.mem_singleton.mp hmem]
        exact inOrder_nat n
  | negation =>
    rw [tree, inOrder_paren, ParseTree.not, inOrder_straight rfl,
      List.forall_mem_singleton, inOrder_straight rfl]

theorem shows_tree (shape : Shape) {es : List ParseTree}
    {outs : List (ParseTree × Option Nat)} (h : ShowsAll es outs) :
    Shows isConj (shape.tree es) (shape.tree (outs.map Prod.fst))
      (lastSome (outs.map Prod.snd)) := by
  cases shape with
  | call f before after =>
    have hall := List.rel_append (List.rel_append (showsAll_idents before) h)
      (showsAll_idents after)
    have hshows := @shows_straight _ isConj (.call f) rfl _ _ hall
    rw [List.map_append, List.map_append, List.map_append, List.map_append,
      lastSome_append, lastSome_append, lastSome_idents, lastSome_idents,
      Option.none_or, Option.or_none, map_fst_idents, map_fst_idents] at hshows
    exact hshows
  | operator op => exact shows_unary rfl (shows_straight rfl h)
  | bound op n =>
    have hall := List.rel_append h (.cons (shows_nat n) .nil :
      ShowsAll [.nat n] [(.nat n, none)])
    have hshows := @shows_straight _ isConj (.binary op) rfl _ _ hall
    rw [List.map_append, List.map_append, lastSome_append] at hshows
    exact shows_unary rfl hshows
  | negation => exact shows_unary rfl (shows_unary rfl (shows_straight rfl h))

end Shape

/-!
# Terms and their trees
-/

section Trees

variable {st : Settings} {p i : Nat -> String}

theorem Term.induct {P : Term -> Prop} (hnum : forall t, P (.num t))
    (happ : forall op args, (forall t, t ∈ args -> P t) -> P (.app op args)) (t : Term) :
    P t := by
  induction hsize : sizeOf t using Nat.strong_induction_on generalizing t with
  | _ n ih =>
    cases t with
    | num t => exact hnum t
    | app op args =>
      apply happ
      intro t ht
      have hlt := List.sizeOf_lt_of_mem ht
      exact ih (sizeOf t) (by rw [← hsize, Term.app.sizeOf_spec]; omega) t rfl

theorem Term.trees_eq (args : List Term) :
    Term.trees st p i args = args.map (Term.tree st p i) := by
  induction args with
  | nil => rfl
  | cons t args ih => rw [Term.trees, ih, List.map_cons]

theorem Term.allSupported_iff {args : List Term} :
    Term.AllSupported st args <-> forall t, t ∈ args -> t.Supported st := by
  induction args with
  | nil => simp [Term.AllSupported]
  | cons t args ih => simp [Term.AllSupported, ih]

theorem Term.exits_eq (args : List Term) : Term.exits args = args.map Term.exit := by
  induction args with
  | nil => rfl
  | cons t args ih => rw [Term.exits, ih, List.map_cons]

theorem Term.allInOrder_iff {args : List Term} :
    Term.AllInOrder args <-> forall t, t ∈ args -> t.InOrder := by
  induction args with
  | nil => simp [Term.AllInOrder]
  | cons t args ih => simp [Term.AllInOrder, ih]

theorem numberTree_inOrder (t : Int) : InOrder isConj (numberTree st p i t) := by
  rw [numberTree]
  split
  · rw [ParseTree.call, inOrder_straight rfl]
    simp [inOrder_ident]
  · exact inOrder_ident _

theorem exit_numberTree (t : Int) : exit isConj (numberTree st p i t) = none := by
  rw [numberTree]
  split
  · rw [ParseTree.call, exit_straight rfl]
    simp [exit_ident, lastSome]
  · exact exit_ident _

theorem tree_and (args : List Term) :
    (Term.app .and args).tree st p i = .paren (.conj (args.map (Term.tree st p i))) := by
  rw [Term.tree, if_pos rfl, Term.trees_eq]

theorem tree_shape {op : Op} {args : List Term} {shape : Shape} (hop : op ≠ .and)
    (hshape : op.shape st args.length = some shape) :
    (Term.app op args).tree st p i = shape.tree (args.map (Term.tree st p i)) := by
  rw [Term.tree, if_neg hop, hshape, Term.trees_eq]

theorem Term.Supported.cases {op : Op} {args : List Term} (h : (Term.app op args).Supported st) :
    (forall t, t ∈ args -> t.Supported st) ∧ ((op = .and ∧ 2 ≤ args.length) ∨
        op ≠ .and ∧ exists shape, op.shape st args.length = some shape) := by
  rw [Term.Supported, Term.allSupported_iff] at h
  constructor
  · exact h.right
  · by_cases hop : op = .and
    · rw [if_pos hop] at h
      exact Or.inl ⟨hop, h.left⟩
    · rw [if_neg hop, Option.isSome_iff_exists] at h
      exact Or.inr ⟨hop, h.left⟩

theorem exit_tree {t : Term} (h : t.Supported st) :
    exit isConj (t.tree st p i) = t.exit := by
  induction t using Term.induct with
  | hnum t =>
    rw [Term.tree, Term.exit]
    exact exit_numberTree t
  | happ op args ih =>
    rcases h.cases with ⟨hargs, ⟨rfl, hlength⟩ | ⟨hop, shape, hshape⟩⟩
    · have hexits : exits isConj (args.map (Term.tree st p i)) = Term.exits args := by
        rw [exits_eq, List.map_map, Term.exits_eq]
        exact List.map_congr_left (fun t ht => ih t ht (hargs t ht))
      rw [tree_and, exit_paren, ParseTree.conj, exit, if_pos (show isConj .conj = true from rfl),
        List.length_map, if_neg (by omega), advance, if_neg (by omega), hexits, Term.exit,
        if_pos rfl]
    · rw [tree_shape hop hshape, Shape.exit_tree, List.map_map, Term.exit, if_neg hop,
        Term.exits_eq]
      congr 1
      exact List.map_congr_left (fun t ht => ih t ht (hargs t ht))

theorem inOrder_tree {t : Term} (h : t.Supported st) :
    InOrder isConj (t.tree st p i) <-> t.InOrder := by
  induction t using Term.induct with
  | hnum t =>
    rw [Term.tree, Term.InOrder]
    exact iff_true_intro (numberTree_inOrder t)
  | happ op args ih =>
    have hall : (forall e, e ∈ args.map (Term.tree st p i) -> InOrder isConj e) <->
        forall t, t ∈ args -> t.InOrder := by
      rw [List.forall_mem_map]
      exact forall₂_congr (fun t ht => ih t ht (h.cases.left t ht))
    rw [Term.InOrder, Term.allInOrder_iff, ← hall]
    rcases h.cases with ⟨hargs, ⟨rfl, hlength⟩ | ⟨hop, shape, hshape⟩⟩
    · have hexits : exits isConj (args.map (Term.tree st p i)) = Term.exits args := by
        rw [exits_eq, List.map_map, Term.exits_eq]
        exact List.map_congr_left (fun t ht => exit_tree (hargs t ht))
      rw [tree_and, inOrder_paren, ParseTree.conj, InOrder, SharedIndex.allInOrder_iff, hexits,
        List.length_map]
      simp [isConj]
    · rw [tree_shape hop hshape, Shape.inOrder_tree]
      simp [hop]

theorem numberTree_fullyParenthesised (hst : st.Valid)
    (hp : forall n, isIdent (p n) = true) (hi : forall n, isIdent (i n) = true) (t : Int) :
    FullyParenthesised (numberTree st p i t) := by
  have htype : isIdent ("^" ++ st.node ++ "_node") = true := by
    rcases hst.node with hnode | hnode <;>
    · rw [hnode]
      decide
  rw [numberTree]
  split
  · apply FullyParenthesised.call (by decide) (by simp)
    intro e he
    rcases List.mem_cons.mp he with rfl | hmem
    · exact .ident (hp _)
    · rw [List.mem_singleton.mp hmem]
      exact .ident htype
  · exact .ident (hi _)

end Trees

end Heaps
end Boogie
