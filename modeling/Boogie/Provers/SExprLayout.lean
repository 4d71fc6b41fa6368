import Boogie.Provers.SExprFraming

/-!
# Layouts of expressions

What the prover means to say is a sequence of trees over plain symbols, symbols
in bars and strings. A layout writes their tokens with white space and ends of
lines between them, and a token in quotes may go over several lines.
-/

namespace Boogie
namespace SMTLibProcess

/-- A piece of a string: a character, the end of a line, or a quote with a
backslash in front. -/
inductive Item where
  | char (c : Option Char)
  | quote

def Item.text : Item -> Text
  | .char c => [c]
  | .quote => [some '\\', some '"']

def Item.value : Item -> Char
  | .char c => c.getD '\n'
  | .quote => '"'

def itemsText (items : List Item) : Text :=
  items.flatMap Item.text

/-- The pieces between two characters `beg`: this character does not stand
alone, and a backslash that stands alone is not in front of a quote. -/
def Pieces (beg : Char) : List Item -> Prop
  | [] => True
  | .quote :: rest => Pieces beg rest
  | .char none :: rest => Pieces beg rest
  | .char (some c) :: rest =>
    c ≠ beg ∧
      (c = '\\' -> (itemsText rest ++ [some beg]).head? ≠ some (some '"')) ∧
      Pieces beg rest

def isSymbolChar (c : Char) : Bool :=
  !isDelimiter c && c ≠ '"' && c ≠ '|' && c ≠ nul

inductive Atom where
  | symbol (chars : List Char) (nonempty : chars ≠ [])
      (plain : forall c, c ∈ chars -> isSymbolChar c = true)
  | quoted (body : List (Option Char))
      (plain : forall c, some c ∈ body -> c ≠ '|' ∧ c ≠ '\\')
  | string (items : List Item) (pieces : Pieces '"' items)

inductive Tree where
  | atom (a : Atom)
  | list (ts : List Tree)

inductive Token where
  | openParen
  | closeParen
  | atom (a : Atom)

def Atom.text : Atom -> Text
  | .symbol chars _ _ => chars.map some
  | .quoted body _ => some '|' :: (body ++ [some '|'])
  | .string items _ => some '"' :: (itemsText items ++ [some '"'])

def Atom.value : Atom -> String
  | .symbol chars _ _ => String.ofList chars
  | .quoted body _ => String.ofList (body.map (fun c => c.getD '\n'))
  | .string items _ => String.ofList (items.map Item.value)

def Token.text : Token -> Text
  | .openParen => [some '(']
  | .closeParen => [some ')']
  | .atom a => a.text

mutual

def Tree.tokens : Tree -> List Token
  | .atom a => [.atom a]
  | .list ts => .openParen :: (tokensOf ts ++ [.closeParen])

def tokensOf : List Tree -> List Token
  | [] => []
  | t :: ts => t.tokens ++ tokensOf ts

end

mutual

def Tree.toSExpr : Tree -> SExpr
  | .atom a => .mk a.value []
  | .list [] => .mk "" []
  | .list (.atom a :: ts) => .mk a.value (toSExprs ts)
  | .list (.list us :: ts) => .mk "" ((Tree.list us).toSExpr :: toSExprs ts)

def toSExprs : List Tree -> List SExpr
  | [] => []
  | t :: ts => t.toSExpr :: toSExprs ts

end

/-- After a plain symbol the next token does not follow directly, unless it is a
parenthesis. -/
def Separated : Token -> Text -> Prop
  | .atom (.symbol _ _ _), some c :: _ => isDelimiter c = true
  | _, _ => True

inductive Layout : List Token -> Text -> Prop where
  | nil {t : Text} (blank : forall x, x ∈ t -> isBlank x = true) : Layout [] t
  | cons {token : Token} {tokens : List Token} {blanks t : Text}
      (blank : forall x, x ∈ blanks -> isBlank x = true)
      (separated : Separated token t) (rest : Layout tokens t) :
      Layout (token :: tokens) (blanks ++ (token.text ++ t))

/-!
# Reading an atom
-/

theorem map_cons_some {c : Char} {x : Option (List Char × Text)}
    {r : List Char × Text} (h : x.map (fun r => (c :: r.1, r.2)) = some r) :
    exists r', x = some r' ∧ r = (c :: r'.1, r'.2) := by
  cases x with
  | none => cases h
  | some r' =>
    cases h
    exact ⟨r', rfl, rfl⟩

theorem readQuoted_items {beg : Char} {items : List Item}
    (h : Pieces beg items) (hbeg : beg ≠ '\\') {t : Text} {r : List Char × Text}
    (hr : readQuoted beg (itemsText items ++ some beg :: t) = some r) :
    r = (items.map Item.value, t) := by
  induction items generalizing r with
  | nil =>
    simp only [itemsText, List.flatMap_nil, List.nil_append] at hr
    rw [readQuoted, if_pos rfl] at hr
    cases hr
    rfl
  | cons item rest ih =>
    cases item with
    | quote =>
      change readQuoted beg (some '\\' :: some '"' ::
        (itemsText rest ++ some beg :: t)) = some r at hr
      rw [readQuoted, if_neg (Ne.symm hbeg), if_pos ⟨rfl, rfl⟩] at hr
      rcases map_cons_some hr with ⟨r', hr', rfl⟩
      rw [ih h hr']
      rfl
    | char x =>
      cases x with
      | none =>
        change readQuoted beg (none ::
          (itemsText rest ++ some beg :: t)) = some r at hr
        have hr' : (readQuoted beg (itemsText rest ++ some beg :: t)).map
            (fun r => ('\n' :: r.1, r.2)) = some r := by
          generalize itemsText rest ++ some beg :: t = u at hr
          cases u with
          | nil => simpa [readQuoted] using hr
          | cons y u =>
            cases y with
            | none => simp [readQuoted] at hr
            | some c =>
              rw [readQuoted] at hr
              · exact hr
              · simp
        rcases map_cons_some hr' with ⟨r', hr'', rfl⟩
        rw [ih h hr'']
        rfl
      | some c =>
        rcases h with ⟨hne, hbackslash, hrest⟩
        have hescape : ¬ (c = '\\' ∧
            (itemsText rest ++ some beg :: t).head? = some (some '"')) := by
          rintro ⟨hc, hhead⟩
          refine hbackslash hc ?_
          cases hu : itemsText rest with
          | nil => simpa [hu] using hhead
          | cons y u => simpa [hu] using hhead
        change readQuoted beg (some c ::
          (itemsText rest ++ some beg :: t)) = some r at hr
        rw [readQuoted, if_neg hne, if_neg hescape] at hr
        rcases map_cons_some hr with ⟨r', hr', rfl⟩
        rw [ih hrest hr']
        rfl

theorem pieces_of_body {body : List (Option Char)}
    (h : forall c, some c ∈ body -> c ≠ '|' ∧ c ≠ '\\') :
    Pieces '|' (body.map Item.char) := by
  induction body with
  | nil => trivial
  | cons x body ih =>
    have hrest := ih (fun c hc => h c (List.mem_cons_of_mem x hc))
    cases x with
    | none => exact hrest
    | some c =>
      have hc := h c List.mem_cons_self
      exact ⟨hc.1, fun hb => absurd hb hc.2, hrest⟩

theorem itemsText_body (body : List (Option Char)) :
    itemsText (body.map Item.char) = body := by
  induction body with
  | nil => rfl
  | cons x body ih => exact congrArg (x :: ·) ih

theorem readSymbol_chars {chars : List Char}
    (h : forall c, c ∈ chars -> isDelimiter c = false) {t : Text}
    (ht : forall c u, t = some c :: u -> isDelimiter c = true) :
    readSymbol (chars.map some ++ t) = (chars, t) := by
  induction chars with
  | nil =>
    cases t with
    | nil => rfl
    | cons x t =>
      cases x with
      | none => rfl
      | some c =>
        rw [List.map_nil, List.nil_append, readSymbol, if_pos (ht c t rfl)]
  | cons c chars ih =>
    have hrest := ih (fun d hd => h d (List.mem_cons_of_mem c hd))
    rw [List.map_cons, List.cons_append, readSymbol,
      if_neg (by simp [h c List.mem_cons_self]), hrest]

theorem Atom.text_cons (a : Atom) : exists c t, a.text = some c :: t ∧
    isDelimiter c = false ∧ c ≠ nul := by
  cases a with
  | symbol chars hne hplain =>
    cases chars with
    | nil => exact absurd rfl hne
    | cons c chars =>
      have hc := hplain c List.mem_cons_self
      simp [isSymbolChar] at hc
      exact ⟨c, chars.map some, rfl, hc.1.1.1, hc.2⟩
  | quoted body hplain => exact ⟨'|', _, rfl, by decide, by decide⟩
  | string items hpieces => exact ⟨'"', _, rfl, by decide, by decide⟩

theorem readName_atom {a : Atom} {t : Text} (hsep : Separated (.atom a) t)
    {r : List Char × Text} (hr : readName (a.text ++ t) = some r) :
    String.ofList r.1 = a.value ∧ r.2 = t := by
  cases a with
  | symbol chars hne hplain =>
    cases chars with
    | nil => exact absurd rfl hne
    | cons c chars =>
      have hc := hplain c List.mem_cons_self
      simp only [isSymbolChar, Bool.and_eq_true, decide_eq_true_eq] at hc
      have hread : readSymbol ((c :: chars).map some ++ t) =
          (c :: chars, t) := by
        refine readSymbol_chars ?_ ?_
        · intro d hd
          have hd' := hplain d hd
          simp [isSymbolChar] at hd'
          exact hd'.1.1.1
        · intro d u hu
          rw [hu] at hsep
          exact hsep
      change readName (some c :: (chars.map some ++ t)) = some r at hr
      rw [readName, if_neg (by simp [hc])] at hr
      change some (readSymbol ((c :: chars).map some ++ t)) = some r at hr
      rw [hread] at hr
      cases hr
      exact ⟨rfl, rfl⟩
  | quoted body hplain =>
    have htext : (Atom.quoted body hplain).text ++ t =
        some '|' :: (itemsText (body.map Item.char) ++ some '|' :: t) := by
      simp [Atom.text, itemsText_body]
    rw [htext, readName, if_pos (Or.inr rfl)] at hr
    rw [readQuoted_items (pieces_of_body hplain) (by decide) hr]
    refine ⟨?_, rfl⟩
    simp only [List.map_map]
    rfl
  | string items hpieces =>
    have htext : (Atom.string items hpieces).text ++ t =
        some '"' :: (itemsText items ++ some '"' :: t) := by
      simp [Atom.text]
    rw [htext, readName, if_pos (Or.inl rfl)] at hr
    rw [readQuoted_items hpieces (by decide) hr]
    exact ⟨rfl, rfl⟩

/-!
# Reading a layout
-/

theorem dropWhile_blanks {blanks t : Text} (h : forall x, x ∈ blanks -> isBlank x = true) :
    (blanks ++ t).dropWhile isBlank = t.dropWhile isBlank := by
  induction blanks with
  | nil => rfl
  | cons x blanks ih =>
    rw [List.cons_append, List.dropWhile_cons_of_pos (h x List.mem_cons_self)]
    exact ih (fun y hy => h y (List.mem_cons_of_mem x hy))

theorem Token.text_cons (token : Token) : exists c t, token.text = some c :: t ∧
    isWhiteSpace c = false ∧ c ≠ nul := by
  cases token with
  | openParen => exact ⟨'(', [], rfl, by decide, by decide⟩
  | closeParen => exact ⟨')', [], rfl, by decide, by decide⟩
  | atom a =>
    rcases a.text_cons with ⟨c, t, htext, hc, hnul⟩
    simp only [isDelimiter, Bool.or_eq_false_iff] at hc
    exact ⟨c, t, htext, hc.1.1, hnul⟩

theorem Layout.eq_nil {t : Text} (h : Layout [] t) : t.dropWhile isBlank = [] := by
  cases h with
  | nil hblank => simpa using dropWhile_blanks (t := []) hblank

theorem Layout.dropWhile {token : Token} {tokens : List Token} {t : Text}
    (h : Layout (token :: tokens) t) : exists u,
      t.dropWhile isBlank = token.text ++ u ∧ Separated token u ∧ Layout tokens u := by
  cases h with
  | @cons _ _ _ u hblank hsep hrest =>
    refine ⟨u, ?_, hsep, hrest⟩
    rcases token.text_cons with ⟨c, t, htext, hspace, _⟩
    rw [dropWhile_blanks hblank, htext]
    exact List.dropWhile_cons_of_neg (by simp [isBlank, hspace])

theorem Layout.of_dropWhile {token : Token} {tokens : List Token} {t u : Text}
    (ht : t = token.text ++ u) (hsep : Separated token u)
    (hrest : Layout tokens u) : Layout (token :: tokens) t := by
  have h := @Layout.cons _ _ [] _ (by simp) hsep hrest
  rw [ht]
  exact h

theorem Layout.skipWs {token : Token} {tokens : List Token} {s : State}
    (h : Layout (token :: tokens) s.text) : exists c t u,
      token.text = some c :: t ∧ (skipWs s).1 = c ∧ c ≠ nul ∧
      At (skipWs s).2 c (token.text ++ u) ∧ Separated token u ∧
      Layout tokens u ∧ (SMTLibProcess.skipWs s).2.handled = s.handled := by
  rcases h.dropWhile with ⟨u, hdrop, hsep, hrest⟩
  rcases token.text_cons with ⟨c, t, htext, _, hnul⟩
  rcases skipWs_spec s with ⟨hat, hhandled⟩
  have hc : (SMTLibProcess.skipWs s).1 = c := by
    rw [hdrop, htext] at hat
    cases hat with
    | atEnd _ _ _ hnil => cases hnil
    | atChar cs hline _ htext' =>
      have hshift := State.text_shift hline
      rw [htext'] at hshift
      exact (Option.some.inj (List.cons.inj hshift).1).symm
  rw [hdrop, hc] at hat
  exact ⟨c, t, u, htext, hc, hnul, hat, hsep, hrest, hhandled⟩

theorem State.handled_shift (s : State) : s.shift.handled = s.handled := rfl

theorem closeList_layout {s : State} {t : Text} (h : s.text = some ')' :: t) (id : String) :
    (closeList id s).text = t ∧ (closeList id s).handled = s.handled := by
  rcases skipWs_spec s with ⟨hat, hhandled⟩
  have hdrop : (some ')' :: t).dropWhile isBlank = some ')' :: t :=
    List.dropWhile_cons_of_neg (by decide)
  rw [h, hdrop] at hat
  have hc : (skipWs s).1 = ')' := by
    cases hat with
    | atEnd _ _ _ hnil => cases hnil
    | atChar cs hline _ htext =>
      have hshift := State.text_shift hline
      rw [htext] at hshift
      exact (Option.some.inj (List.cons.inj hshift).1).symm
  rw [hc] at hat
  have hcons := (hat.cons (by decide)).2.2
  unfold closeList
  dsimp only
  rw [if_pos hc]
  exact ⟨(List.cons.inj hcons).2.symm, hhandled⟩

theorem parseId_atom {s : State} {c : Char} {a : Atom} {u : Text}
    (hat : At s c (a.text ++ u)) (hc : c ≠ nul) (hsep : Separated (.atom a) u)
    {id : String} {s' : State} (h : parseId s = .ok (id, s')) :
    id = a.value ∧ s'.text = u ∧ s'.handled = s.handled := by
  rcases hat.cons hc with ⟨hspace, ⟨cs, hline⟩, _⟩
  rcases parseId_spec hline hspace with ⟨herror, _⟩ | ⟨name, s₁, hok, hname, hhandled⟩
  · rw [herror] at h
    cases h
  · rw [hok] at h
    cases h
    rw [hat.text] at hname
    rcases readName_atom hsep hname with ⟨hvalue, htext⟩
    exact ⟨hvalue, htext, hhandled⟩

def ReadsLists (fuel : Nat) : Prop :=
  forall s xs s' ts tokens, parseSExprs fuel false s = .ok (xs, s') ->
    Layout (tokensOf ts ++ .closeParen :: tokens) s.text ->
    xs = toSExprs ts ∧ s'.handled = s.handled ∧
      exists t, s'.text = some ')' :: t ∧ Layout tokens t

theorem parseList_layout {fuel : Nat} (hfuel : ReadsLists fuel)
    {us : List Tree} {tokens : List Token} {s : State} {c : Char} (hc : (skipWs s).1 = c)
    (h : Layout (tokensOf us ++ .closeParen :: tokens) s.text)
    {id : String} {args : List SExpr} {s₁ s₂ : State}
    (hid : parseHead c (skipWs s).2 = .ok (id, s₁))
    (hargs : parseSExprs fuel false s₁ = .ok (args, s₂)) :
    .mk id args = (Tree.list us).toSExpr ∧ s₂.handled = s.handled ∧
      exists t, s₂.text = some ')' :: t ∧ Layout tokens t := by
  unfold parseHead at hid
  cases us with
  | nil =>
    rcases Layout.skipWs h with ⟨d, t, u, htext, hd, hnul, hat, hsep, hrest, hhandled⟩
    cases htext
    rw [← hc, hd, if_neg (by decide)] at hid
    rcases hat.cons hnul with ⟨hspace, ⟨cs, hline⟩, _⟩
    rcases parseId_spec hline hspace with ⟨herror, _⟩ | ⟨name, s', hok, hname, hhandled'⟩
    · rw [herror] at hid
      cases hid
    · rw [hok] at hid
      cases hid
      rw [hat.text] at hname
      simp [Token.text, readName, readSymbol, isDelimiter] at hname
      rcases hname with ⟨rfl, htext'⟩
      have hlayout : Layout (tokensOf [] ++ .closeParen :: tokens) s₁.text :=
        Layout.of_dropWhile htext'.symm hsep hrest
      rcases hfuel s₁ args s₂ [] tokens hargs hlayout with ⟨rfl, hh, hend⟩
      exact ⟨rfl, by rw [hh, hhandled', hhandled], hend⟩
  | cons tree us =>
    cases tree with
    | atom a =>
      rcases Layout.skipWs h with ⟨d, t, u, htext, hd, hnul, hat, hsep, hrest, hhandled⟩
      have hopen : d ≠ '(' := by
        rcases a.text_cons with ⟨d', t', htext', hd', _⟩
        change a.text = some d :: t at htext
        rw [htext'] at htext
        cases htext
        intro hopen
        rw [hopen] at hd'
        exact absurd hd' (by decide)
      rw [← hc, hd, if_neg hopen] at hid
      rcases parseId_atom hat hnul hsep hid with ⟨rfl, htext', hhandled'⟩
      rw [← htext'] at hrest
      rcases hfuel s₁ args s₂ us tokens hargs hrest with ⟨rfl, hh, hend⟩
      exact ⟨rfl, by rw [hh, hhandled', hhandled], hend⟩
    | list vs =>
      rcases Layout.skipWs h with ⟨d, t, u, htext, hd, hnul, hat, hsep, hrest, hhandled⟩
      cases htext
      rw [← hc, hd, if_pos rfl] at hid
      cases hid
      have hlayout : Layout (tokensOf (.list vs :: us) ++
          .closeParen :: tokens) (skipWs s).2.text :=
        Layout.of_dropWhile hat.text hsep hrest
      rcases hfuel _ args s₂ _ tokens hargs hlayout with ⟨rfl, hh, hend⟩
      exact ⟨rfl, by rw [hh, hhandled], hend⟩

theorem parseSExprs_tree {fuel : Nat} (hfuel : ReadsLists fuel) {top : Bool}
    {tree : Tree} {tokens : List Token} {s : State}
    (h : Layout (tree.tokens ++ tokens) s.text) {r : List SExpr × State}
    (hr : parseSExprs (fuel + 1) top s = .ok r) :
    exists s₁, s₁.handled = s.handled ∧ Layout tokens s₁.text ∧
      (if top then (.ok ([tree.toSExpr], s₁) : Except Failure _)
        else do
          let (more, s₂) ← parseSExprs fuel false s₁
          return (tree.toSExpr :: more, s₂)) = .ok r := by
  rw [parseSExprs] at hr
  cases tree with
  | atom a =>
    rcases Layout.skipWs h with ⟨c, t, u, htext, hc, hnul, hat, hsep, hrest, hhandled⟩
    rcases a.text_cons with ⟨c', t', htext', hdelimiter, _⟩
    change a.text = some c :: t at htext
    rw [htext'] at htext
    cases htext
    simp only [isDelimiter, Bool.or_eq_false_iff, decide_eq_false_iff_not]
      at hdelimiter
    simp only [hc] at hr
    rw [if_neg hnul, if_neg hdelimiter.2, if_neg hdelimiter.1.2] at hr
    cases hid : parseId (skipWs s).2 with
    | error f =>
      rw [hid] at hr
      cases hr
    | ok r' =>
      rw [hid] at hr
      rcases parseId_atom hat hnul hsep hid with ⟨hvalue, htext'', hhandled'⟩
      refine ⟨r'.2, by rw [hhandled', hhandled], by rw [htext'']; exact hrest, ?_⟩
      rcases r' with ⟨id, s₁⟩
      dsimp only at hvalue
      rw [hvalue] at hr
      exact hr
  | list us =>
    have htokens : (Tree.list us).tokens ++ tokens =
        .openParen :: (tokensOf us ++ .closeParen :: tokens) := by
      simp [Tree.tokens]
    rw [htokens] at h
    rcases Layout.skipWs h with ⟨c, t, u, htext, hc, hnul, hat, hsep, hrest, hhandled⟩
    cases htext
    simp only [hc] at hr
    rw [if_neg (by decide), if_neg (by decide), if_pos trivial] at hr
    have hshift : (skipWs s).2.shift.text = u :=
      (List.cons.inj (hat.cons (by decide)).2.2).2.symm
    rw [← hshift] at hrest
    have hnul' : (skipWs (skipWs s).2.shift).1 ≠ nul := by
      cases hus : tokensOf us ++ .closeParen :: tokens with
      | nil => simp at hus
      | cons token rest =>
        rw [hus] at hrest
        rcases Layout.skipWs hrest with ⟨d, _, _, _, hd, hne, _⟩
        rw [hd]
        exact hne
    rw [if_neg hnul'] at hr
    cases hid : parseHead (skipWs (skipWs s).2.shift).1
        (skipWs (skipWs s).2.shift).2 with
    | error f =>
      rw [hid] at hr
      cases hr
    | ok r' =>
      rcases r' with ⟨id, s₁⟩
      rw [hid] at hr
      dsimp only [bind, Except.bind] at hr
      cases hargs : parseSExprs fuel false s₁ with
      | error f =>
        rw [hargs] at hr
        cases hr
      | ok r'' =>
        rcases r'' with ⟨args, s₂⟩
        rw [hargs] at hr
        rcases parseList_layout hfuel rfl hrest hid hargs
          with ⟨heq, hh, t, hend, hlayout⟩
        rcases closeList_layout hend id with ⟨hclosed, hclosedHandled⟩
        refine ⟨closeList id s₂, ?_, ?_, ?_⟩
        · rw [hclosedHandled, hh, State.handled_shift, hhandled]
        · rw [hclosed]
          exact hlayout
        · rw [← heq]
          exact hr

theorem readsLists (fuel : Nat) : ReadsLists fuel := by
  induction fuel with
  | zero =>
    intro s xs s' ts tokens h
    cases h
  | succ fuel ih =>
    intro s xs s' ts tokens h hlayout
    cases ts with
    | nil =>
      rcases Layout.skipWs hlayout
        with ⟨c, t, u, htext, hc, hnul, hat, hsep, hrest, hhandled⟩
      cases htext
      rw [parseSExprs] at h
      simp only [hc] at h
      rw [if_neg hnul, if_pos trivial] at h
      cases h
      exact ⟨rfl, hhandled, u, hat.text, hrest⟩
    | cons tree ts =>
      have htokens : tokensOf (tree :: ts) ++ .closeParen :: tokens =
          tree.tokens ++ (tokensOf ts ++ .closeParen :: tokens) := by
        simp [tokensOf]
      rw [htokens] at hlayout
      rcases parseSExprs_tree ih hlayout h with ⟨s₁, hhandled, hlayout₁, hr⟩
      rw [if_neg (by simp)] at hr
      cases hmore : parseSExprs fuel false s₁ with
      | error f =>
        rw [hmore] at hr
        cases hr
      | ok r =>
        rcases r with ⟨more, s₂⟩
        rw [hmore] at hr
        cases hr
        rcases ih s₁ more s' ts tokens hmore hlayout₁ with ⟨rfl, hh, hend⟩
        exact ⟨rfl, by rw [hh, hhandled], hend⟩

end SMTLibProcess
end Boogie
