import Boogie.Heaps.Rendering

/-!
# The generator prints the tree

A run of `ts` goes through the parse tree of its term as its loops do, and prints what
comes out.
-/

namespace Boogie
namespace Heaps

open ExpressionText
open SharedIndex

section Runs

variable {st : Settings} {p i : List String}

def instanceTree (st : Settings) (p i : List String) (t : Term) : ParseTree :=
  t.tree st (nameAt p) (nameAt i)

/-- What comes out of a run: a tree, the index left behind, and the printed text. -/
structure Rendered (e : ParseTree) (g : Globals) (s : String) (g' : Globals)
    (e' : ParseTree) (mark : Option Nat) : Prop where
  shows : Shows isConj e e' mark
  parenthesised : FullyParenthesised e'
  text : s.toList = printed e'
  index : g'.k = mark.getD g.k
  above : forall q, mark = some q -> 2 ≤ q

theorem Outcome.andThen_returns {A B : Type} {o : Outcome A}
    {f : A -> Globals -> Outcome B} {b : B} {g : Globals} (h : o.andThen f = .returns b g) :
    exists a g', o = .returns a g' ∧ f a g' = .returns b g := by
  cases o with
  | returns a g' => exact ⟨a, g', rfl, h⟩
  | throws message => cases h
  | running => cases h

theorem tsArgument_returns {render : Term -> Globals -> Outcome String} {args : List Term}
    {n : Nat} {g g' : Globals} {s : String} (h : tsArgument render args n g = .returns s g') :
    exists t, args[n - 1]? = some t ∧ render t g = .returns s g' := by
  rw [tsArgument] at h
  split at h
  next t hget => exact ⟨t, hget, h⟩
  next => cases h

def RendersAll (st : Settings) (p i : List String) (args : List Term)
    (render : Term -> Globals -> Outcome String) : Prop :=
  forall t, t ∈ args -> forall g s g', render t g = .returns s g' ->
    exists e mark, Rendered (instanceTree st p i t) g s g' e mark

theorem getD_or (a b : Option Nat) (c : Nat) : (a.or b).getD c = a.getD (b.getD c) := by
  cases a <;> rfl

theorem tsPieces_returns {render : Term -> Globals -> Outcome String} {args : List Term}
    (hrender : RendersAll st p i args render) {ps : List Piece} {k : Nat}
    {g g' : Globals} {s : String} (hps : argNumbers ps = List.range' (k + 1) (args.length - k))
    (h : tsPieces render args ps g = .returns s g') :
    exists ss outs, ShowsAll ((args.drop k).map (instanceTree st p i)) outs ∧
      (forall e, e ∈ outs.map Prod.fst -> FullyParenthesised e) ∧
      ss.map String.toList = (outs.map Prod.fst).map printed ∧
      s = assemble ps ss ∧ g'.k = (lastSome (outs.map Prod.snd)).getD g.k ∧
      forall q, lastSome (outs.map Prod.snd) = some q -> 2 ≤ q := by
  induction ps generalizing k g g' s with
  | nil =>
    have hdrop : args.drop k = [] := by
      rw [List.drop_eq_nil_iff]
      have hlength := congrArg List.length hps
      rw [argNumbers, List.length_nil, List.length_range'] at hlength
      omega
    rw [tsPieces, Outcome.returns.injEq] at h
    rw [hdrop, ← h.left, ← h.right]
    exact ⟨[], [], .nil, by simp, rfl, rfl, rfl, by simp [lastSome]⟩
  | cons piece ps ih =>
    cases piece with
    | text u =>
      rcases Outcome.andThen_returns h with ⟨r, g1, hrest, hret⟩
      rw [Outcome.returns.injEq] at hret
      rcases ih hps hrest with ⟨ss, outs, hshows, hparen, htext, hs, hk, habove⟩
      refine ⟨ss, outs, hshows, hparen, htext, ?_, hret.right ▸ hk, habove⟩
      rw [← hret.left, hs, assemble]
    | arg n =>
      have hlt : k < args.length := by
        have hlength := congrArg List.length hps
        rw [argNumbers, List.length_cons, List.length_range'] at hlength
        omega
      have hsplit : args.length - k = args.length - (k + 1) + 1 := by omega
      rw [argNumbers, hsplit, List.range'_succ, List.cons.injEq] at hps
      rcases Outcome.andThen_returns h with ⟨a, g1, harg, hafter⟩
      rcases Outcome.andThen_returns hafter with ⟨r, g2, hrest, hret⟩
      rw [Outcome.returns.injEq] at hret
      rcases tsArgument_returns harg with ⟨t, hget, hrun⟩
      rw [hps.left, Nat.add_sub_cancel, List.getElem?_eq_getElem hlt,
        Option.some.injEq] at hget
      rcases hrender t (hget ▸ List.getElem_mem hlt) g a g1 hrun
        with ⟨e, mark, hrendered⟩
      rcases ih hps.right hrest with ⟨ss, outs, hshows, hparen, htext, hs, hk, habove⟩
      refine ⟨a :: ss, (e, mark) :: outs, ?_, ?_, ?_, ?_, ?_, ?_⟩
      · rw [List.drop_eq_getElem_cons hlt, List.map_cons, hget]
        exact .cons hrendered.shows hshows
      · intro e' he'
        rcases List.mem_cons.mp he' with rfl | hmem
        · exact hrendered.parenthesised
        · exact hparen e' hmem
      · rw [List.map_cons, List.map_cons, List.map_cons, htext, hrendered.text]
      · rw [← hret.left, hs, assemble]
      · rw [← hret.right, hk, hrendered.index, List.map_cons, lastSome, getD_or]
      · intro q hq
        rw [List.map_cons, lastSome, Option.or_eq_some_iff] at hq
        rcases hq with hq | ⟨_, hq⟩
        · exact habove q hq
        · exact hrendered.above q hq

def conjunctTexts (es : List ParseTree) : List Char :=
  es.flatMap (fun e => " && ".toList ++ printed e)

theorem child_term {f : Term -> ParseTree} {args : List Term} {k : Nat} {t : Term}
    (h : args[k - 1]? = some t) (l : Label) : child l (args.map f) k = f t := by
  rw [child, List.getD_eq_getElem?_getD, List.getElem?_map, h]
  rfl

theorem tsAnd_returns {fuel : Nat} {args : List Term}
    (hrender : forall fuel', fuel' < fuel -> RendersAll st p i args (ts st p i fuel'))
    {g g' : Globals} {s : String} (hk : 2 ≤ g.k) (h : tsAnd st p i fuel args g = .returns s g') :
    exists out, Walk isConj .conj (args.map (instanceTree st p i)) g.k out g'.k ∧
      (forall e, e ∈ out -> FullyParenthesised e) ∧
      s.toList = g.str.toList ++ (conjunctTexts out ++ [')']) := by
  induction fuel generalizing g s with
  | zero => cases h
  | succ fuel ih =>
    rw [tsAnd] at h
    split at h
    next hlt =>
      rcases Outcome.andThen_returns h with ⟨a, g1, harg, hrest⟩
      rcases tsArgument_returns harg with ⟨t, hget, hrun⟩
      rcases hrender fuel (Nat.lt_succ_self _) t (List.mem_of_getElem? hget) g a g1 hrun
        with ⟨e, mark, hrendered⟩
      have hpos : 2 ≤ g1.k + 1 := by
        rw [hrendered.index]
        cases hmark : mark with
        | none => rw [Option.getD_none]; omega
        | some q =>
          have hq := hrendered.above q hmark
          rw [Option.getD_some]
          omega
      rcases ih (fun fuel' hless => hrender fuel' (Nat.lt_succ_of_lt hless)) hpos hrest
        with ⟨out, hwalk, hparen, htext⟩
      refine ⟨e :: out, ?_, ?_, ?_⟩
      · have hshows : Shows isConj
            (child .conj (args.map (instanceTree st p i)) g.k) e mark := by
          rw [child_term hget]
          exact hrendered.shows
        refine .step (by rw [List.length_map]; omega) hshows ?_
        rw [advance, if_neg (by omega), ← hrendered.index]
        exact hwalk
      · intro e' he'
        rcases List.mem_cons.mp he' with rfl | hmem
        · exact hrendered.parenthesised
        · exact hparen e' hmem
      · rw [htext, String.toList_append, String.toList_append, hrendered.text]
        simp [conjunctTexts]
    next hge =>
      rw [Outcome.returns.injEq] at h
      refine ⟨[], ?_, by simp, ?_⟩
      · rw [← h.right]
        exact .done (by rw [List.length_map]; omega)
      · rw [← h.left, String.toList_append]
        rfl

theorem intercalate_cons (sep : List Char) (text : List Char) (texts : List (List Char)) :
    sep.intercalate (text :: texts) = text ++ texts.flatMap (sep ++ ·) := by
  induction texts generalizing text with
  | nil => simp [List.intercalate]
  | cons next texts ih =>
    have hrest := ih next
    simp only [List.intercalate, List.intersperse_cons_cons, List.flatten_cons,
      List.flatMap_cons, List.append_assoc] at hrest ⊢
    rw [hrest]

theorem walk_end {l : Label} {cs out : List ParseTree} {k q : Nat}
    (h : Walk isConj l cs k out q) : cs.length < q := by
  induction h with
  | done h => exact h
  | step _ _ _ ih => exact ih

theorem walk_length_pos {l : Label} {cs out : List ParseTree} {k q : Nat}
    (h : Walk isConj l cs k out q) (hk : k ≤ cs.length) : 0 < out.length := by
  cases h with
  | done h => exact absurd hk (Nat.not_le_of_lt h)
  | step _ _ _ => exact Nat.succ_pos _

theorem isIdent_nameAt {names : List String} (h : forall x, x ∈ names -> isIdent x = true)
    (n : Nat) : isIdent (nameAt names n) = true := by
  rw [nameAt, List.getD_eq_getElem?_getD]
  cases hget : names[n]? with
  | none => decide
  | some x => exact h x (List.mem_of_getElem? hget)

theorem toList_tsNumber (t : Int) :
    (tsNumber st p i t).toList = printed (numberTree st (nameAt p) (nameAt i) t) := by
  rw [tsNumber, numberTree]
  split
  · rw [printed_call]
    simp [printed_ident, List.intercalate]
  · rw [printed_ident]

theorem rendered_and {args : List Term} (hlength : 2 ≤ args.length) {g g0 g' : Globals}
    {e0 : ParseTree} {mark0 : Option Nat} {s0 s : String}
    (hfirst : Rendered (child .conj (args.map (instanceTree st p i)) 1) g s0 g0 e0 mark0)
    {out : List ParseTree} (hwalk : Walk isConj .conj (args.map (instanceTree st p i)) 2 out g'.k)
    (hout : forall e, e ∈ out -> FullyParenthesised e)
    (htext : s.toList = ("(" ++ s0).toList ++ (conjunctTexts out ++ [')'])) :
    exists e mark, Rendered (instanceTree st p i (.app .and args)) g s g' e mark := by
  have hmap : (args.map (instanceTree st p i)).length = args.length := List.length_map ..
  have hstart : Walk isConj .conj (args.map (instanceTree st p i)) 1 (e0 :: out) g'.k :=
    .step (by omega) hfirst.shows hwalk
  refine ⟨.paren (.conj (e0 :: out)), some g'.k, ?_, ?_, ?_, rfl, ?_⟩
  · rw [instanceTree, tree_and]
    exact shows_unary rfl (hstart.shows rfl)
  · refine .conj ?_ ?_
    · exact Nat.succ_le_succ (walk_length_pos hwalk (by omega))
    · intro e he
      rcases List.mem_cons.mp he with rfl | hmem
      · exact hfirst.parenthesised
      · exact hout e hmem
  · rw [htext, String.toList_append, hfirst.text, printed_paren, printed_conj, List.map_cons,
      intercalate_cons, List.flatMap_map]
    simp [conjunctTexts]
  · intro q hq
    have hend := walk_end hwalk
    rw [Option.some.injEq] at hq
    omega

theorem ts_returns (hst : st.Valid) (hp : forall x, x ∈ p -> isIdent x = true)
    (hi : forall x, x ∈ i -> isIdent x = true) {fuel : Nat} {t : Term}
    (ht : t.Supported st) {g g' : Globals} {s : String} (h : ts st p i fuel t g = .returns s g') :
    exists e mark, Rendered (instanceTree st p i t) g s g' e mark := by
  induction fuel using Nat.strong_induction_on generalizing t g s g' with
  | _ fuel ih =>
    cases fuel with
    | zero => cases h
    | succ fuel =>
      cases t with
      | num t =>
        rw [ts, Outcome.returns.injEq] at h
        rw [instanceTree, Term.tree]
        have hshows := (@numberTree_inOrder st (nameAt p) (nameAt i)
          t).shows
        rw [exit_numberTree] at hshows
        exact ⟨_, none, hshows, numberTree_fullyParenthesised hst (isIdent_nameAt hp)
          (isIdent_nameAt hi) t, by rw [← h.left, toList_tsNumber], by rw [← h.right]; rfl,
          by simp⟩
      | app op args =>
        rcases ht.cases with ⟨hargs, hcases⟩
        have hrender : forall fuel', fuel' < fuel + 1 ->
            RendersAll st p i args (ts st p i fuel') :=
          fun fuel' hlt t ht _ _ _ hrun => ih fuel' hlt (hargs t ht) hrun
        rw [ts] at h
        rcases hcases with ⟨rfl, hlength⟩ | ⟨hop, shape, hshape⟩
        · rw [if_pos rfl, if_pos (show args.length > 1 from hlength)] at h
          rcases Outcome.andThen_returns h with ⟨s0, g0, hfirst, hloop⟩
          rcases tsArgument_returns hfirst with ⟨t0, hget, hrun⟩
          rcases hrender fuel (Nat.lt_succ_self _) t0 (List.mem_of_getElem? hget)
            g s0 g0 hrun with ⟨e0, mark0, hrendered⟩
          rw [← child_term (f := instanceTree st p i) hget .conj] at hrendered
          rcases tsAnd_returns (fun fuel' hlt => hrender fuel' (Nat.lt_succ_of_lt hlt))
            (Nat.le_refl 2) hloop with ⟨out, hwalk, hout, htext⟩
          exact rendered_and hlength hrendered hwalk hout htext
        · rcases pieces_of_shape hshape with ⟨ps, hps, hnumbers, htexts⟩
          rw [if_neg hop, hps] at h
          rcases tsPieces_returns (k := 0) (hrender fuel (Nat.lt_succ_self _))
            hnumbers h with ⟨ss, outs, hshows, hparen, hss, hs, hk, habove⟩
          rw [List.drop_zero] at hshows
          have hlength : (outs.map Prod.fst).length = args.length := by
            rw [List.length_map, ← hshows.length_eq, List.length_map]
          have hfits : shape.Fits (outs.map Prod.fst).length :=
            hlength ▸ fits_of_shape hst hshape
          have hsslength : ss.length = args.length := by
            rw [← hlength, ← List.length_map (f := String.toList), hss, List.length_map]
          refine ⟨shape.tree (outs.map Prod.fst), lastSome (outs.map Prod.snd),
            ?_, Shape.fullyParenthesised hfits hparen, ?_, hk, habove⟩
          · rw [instanceTree, tree_shape hop hshape]
            exact shape.shows_tree hshows
          · rw [hs, htexts ss hsslength, hss, Shape.printed_tree hfits]

def Terminates (st : Settings) (p i : List String) (t : Term) : Prop :=
  exists n, forall fuel, n ≤ fuel -> forall g, exists s g',
    ts st p i fuel t g = .returns s g'

theorem exists_fuel {args : List Term} (h : forall t, t ∈ args -> Terminates st p i t) :
    exists n, forall t, t ∈ args -> forall fuel, n ≤ fuel -> forall g, exists s g',
      ts st p i fuel t g = .returns s g' := by
  induction args with
  | nil => exact ⟨0, by simp⟩
  | cons t args ih =>
    rcases h t (List.mem_cons_self ..) with ⟨m, hm⟩
    rcases ih (fun u hu => h u (List.mem_cons_of_mem _ hu)) with ⟨n, hn⟩
    refine ⟨m + n, ?_⟩
    intro u hu fuel hfuel
    rcases List.mem_cons.mp hu with rfl | hmem
    · exact hm fuel (by omega)
    · exact hn u hmem fuel (by omega)

theorem tsPieces_terminates {render : Term -> Globals -> Outcome String} {args : List Term}
    (hrender : forall t, t ∈ args -> forall g, exists s g', render t g = .returns s g')
    {ps : List Piece} (hps : forall n, n ∈ argNumbers ps -> 1 ≤ n ∧ n ≤ args.length)
    (g : Globals) : exists s g', tsPieces render args ps g = .returns s g' := by
  induction ps generalizing g with
  | nil => exact ⟨"", g, rfl⟩
  | cons piece ps ih =>
    cases piece with
    | text u =>
      rcases ih hps g with ⟨s, g', hrest⟩
      refine ⟨u ++ s, g', ?_⟩
      rw [tsPieces, hrest]
      rfl
    | arg n =>
      rcases hps n (List.mem_cons_self ..) with ⟨h1, hn⟩
      have hlt : n - 1 < args.length := by omega
      rcases hrender args[n - 1] (List.getElem_mem hlt) g with ⟨a, g1, harg⟩
      rcases ih (fun m hm => hps m (List.mem_cons_of_mem _ hm)) g1 with ⟨s, g', hrest⟩
      refine ⟨a ++ s, g', ?_⟩
      rw [tsPieces, tsArgument, List.getElem?_eq_getElem hlt]
      simp only [harg, Outcome.andThen, hrest]

theorem tsAnd_terminates {args : List Term} {n : Nat}
    (hrender : forall t, t ∈ args -> forall fuel, n ≤ fuel -> forall g,
      exists s g', ts st p i fuel t g = .returns s g' ∧ g'.k = t.exit.getD g.k)
    (horder : forall k, k ≤ args.length -> 2 ≤ k ->
      Stays args.length k (markOf (Term.exits args) k))
    {fuel : Nat} {g : Globals} (hk : 2 ≤ g.k) (hfuel : n + (args.length + 1 - g.k) + 1 ≤ fuel) :
    exists s g', tsAnd st p i fuel args g = .returns s g' := by
  induction hrest : args.length + 1 - g.k using Nat.strong_induction_on
    generalizing fuel g with
  | _ rest ih =>
    rcases Nat.exists_eq_add_of_le' (show 1 ≤ fuel by omega) with ⟨fuel, rfl⟩
    rw [tsAnd]
    split
    next hlt =>
      have hget : g.k - 1 < args.length := by omega
      have hmark : markOf (Term.exits args) g.k = args[g.k - 1].exit := by
        rw [markOf, Term.exits_eq, List.getD_eq_getElem?_getD, List.getElem?_map,
          List.getElem?_eq_getElem hget]
        rfl
      have hstays := horder g.k (by omega) hk
      rw [hmark] at hstays
      rcases hrender args[g.k - 1] (List.getElem_mem hget) fuel (by omega) g
        with ⟨a, g1, hrun, hindex⟩
      have hnext : g.k ≤ g1.k := by
        rw [hindex]
        cases hexit : args[g.k - 1].exit with
        | none => exact Nat.le_refl _
        | some x =>
          have hmin := hstays x hexit
          rw [Option.getD_some]
          omega
      rcases @ih (args.length + 1 - (g1.k + 1)) (by omega)
        fuel { k := g1.k + 1, str := g.str ++ (" && " ++ a) }
        (Nat.le_succ_of_le (Nat.le_trans hk hnext)) (by simp only; omega) rfl
        with ⟨s, g', hloop⟩
      refine ⟨s, g', ?_⟩
      rw [tsArgument, List.getElem?_eq_getElem hget]
      simp only [hrun, Outcome.andThen, hloop]
    next => exact ⟨_, _, rfl⟩

theorem Rendered.eq_of_inOrder {t : Term} (ht : t.Supported st) (horder : t.InOrder)
    {g g' : Globals} {s : String} {e : ParseTree} {mark : Option Nat}
    (h : Rendered (instanceTree st p i t) g s g' e mark) :
    e = instanceTree st p i t ∧ g'.k = t.exit.getD g.k := by
  rcases h.shows.eq_of_inOrder ((inOrder_tree ht).mpr horder) with ⟨heq, hmark⟩
  refine ⟨heq, ?_⟩
  rw [h.index, hmark, instanceTree, exit_tree ht]

theorem terminates_of_inOrder (hst : st.Valid) (hp : forall x, x ∈ p -> isIdent x = true)
    (hi : forall x, x ∈ i -> isIdent x = true) {t : Term} (ht : t.Supported st)
    (horder : t.InOrder) : Terminates st p i t := by
  induction t using Term.induct with
  | hnum t =>
    refine ⟨1, ?_⟩
    intro fuel hfuel g
    rcases Nat.exists_eq_add_of_le' hfuel with ⟨fuel, rfl⟩
    exact ⟨_, _, by rw [ts]⟩
  | happ op args ih =>
    rw [Term.InOrder, Term.allInOrder_iff] at horder
    rcases ht.cases with ⟨hargs, hcases⟩
    rcases exists_fuel (fun t hmem => ih t hmem (hargs t hmem) (horder.right t hmem))
      with ⟨n, hn⟩
    refine ⟨n + args.length + 2, ?_⟩
    intro fuel hfuel g
    rcases Nat.exists_eq_add_of_le' (show 1 ≤ fuel by omega) with ⟨fuel, rfl⟩
    rw [ts]
    rcases hcases with ⟨rfl, hlength⟩ | ⟨hop, shape, hshape⟩
    · have hget : 1 - 1 < args.length := by omega
      rcases hn args[1 - 1] (List.getElem_mem hget) fuel (by omega) g with ⟨a, g1, hrun⟩
      have hrender : forall t, t ∈ args -> forall fuel, n ≤ fuel -> forall g,
          exists s g', ts st p i fuel t g = .returns s g' ∧ g'.k = t.exit.getD g.k := by
        intro t hmem fuel hfuel g
        rcases hn t hmem fuel hfuel g with ⟨s, g', hrun⟩
        rcases ts_returns hst hp hi (hargs t hmem) hrun with ⟨e, mark, hrendered⟩
        exact ⟨s, g', hrun,
          (hrendered.eq_of_inOrder (hargs t hmem) (horder.right t hmem)).right⟩
      rcases @tsAnd_terminates _ _ _ _ _ hrender (horder.left rfl) fuel
        { g1 with str := "(" ++ a, k := 2 } (Nat.le_refl 2) (by simp only; omega)
        with ⟨s, g', hloop⟩
      refine ⟨s, g', ?_⟩
      rw [if_pos rfl, if_pos (show args.length > 1 from hlength), tsArgument,
        List.getElem?_eq_getElem hget]
      simp only [hrun, Outcome.andThen, hloop]
    · rcases pieces_of_shape hshape with ⟨ps, hps, hnumbers, _⟩
      rw [if_neg hop, hps]
      apply tsPieces_terminates (fun t hmem g => hn t hmem fuel (by omega) g)
      intro k hk
      rw [hnumbers, List.mem_range'_1] at hk
      omega

/-- A run prints a fully parenthesised expression that is the term, with every argument
of every operator at its place. -/
def Renders (st : Settings) (p i : List String) (t : Term) : Prop :=
  forall g, exists fuel s g', ts st p i fuel t g = .returns s g' ∧
    parse s = some (instanceTree st p i t) ∧ FullyParenthesised (instanceTree st p i t)

theorem parse_of_rendered {t : Term} {g g' : Globals} {s : String} {e : ParseTree}
    {mark : Option Nat} (h : Rendered (instanceTree st p i t) g s g' e mark) :
    parse s = some e := by
  have hprint : s = print e := by
    rw [print, ← String.toList_inj, String.toList_ofList]
    exact h.text
  rw [hprint, parse_print h.parenthesised]

theorem renders_of_inOrder (hst : st.Valid) (hp : forall x, x ∈ p -> isIdent x = true)
    (hi : forall x, x ∈ i -> isIdent x = true) {t : Term} (ht : t.Supported st)
    (horder : t.InOrder) : Renders st p i t := by
  intro g
  rcases terminates_of_inOrder hst hp hi ht horder with ⟨fuel, hfuel⟩
  rcases hfuel fuel (Nat.le_refl _) g with ⟨s, g', hrun⟩
  rcases ts_returns hst hp hi ht hrun with ⟨e, mark, hrendered⟩
  have heq := (hrendered.eq_of_inOrder ht horder).left
  subst heq
  exact ⟨fuel, s, g', hrun, parse_of_rendered hrendered, hrendered.parenthesised⟩

theorem inOrder_of_renders (hst : st.Valid) (hp : forall x, x ∈ p -> isIdent x = true)
    (hi : forall x, x ∈ i -> isIdent x = true) {t : Term} (ht : t.Supported st)
    (h : Renders st p i t) : t.InOrder := by
  rcases h ⟨0, ""⟩ with ⟨fuel, s, g', hrun, hparse, _⟩
  rcases ts_returns hst hp hi ht hrun with ⟨e, mark, hrendered⟩
  rw [parse_of_rendered hrendered, Option.some.injEq] at hparse
  have hshows := hrendered.shows
  rw [hparse] at hshows
  exact (inOrder_tree ht).mp hshows.inOrder

/-- The text of a term is the term exactly when its conjunctions are in order. -/
theorem renders_iff_inOrder (hst : st.Valid) (hp : forall x, x ∈ p -> isIdent x = true)
    (hi : forall x, x ∈ i -> isIdent x = true) {t : Term} (ht : t.Supported st) :
    Renders st p i t <-> t.InOrder :=
  ⟨inOrder_of_renders hst hp hi ht, renders_of_inOrder hst hp hi ht⟩

end Runs

def sllSettings : Settings :=
  { lst := "sll", lst2 := "sll", lst3 := "undefined", node := "s", old := "loopState#0" }

theorem sllSettings_valid : sllSettings.Valid :=
  { lst := List.all_eq_true.mp (by decide), lst2 := List.all_eq_true.mp (by decide)
    lst3 := List.all_eq_true.mp (by decide), node := Or.inl rfl, old := by decide }

/-- `['implies', ['and', ['list', 0], ['non_null', 0]], ['le', ['max', 0], -1]]` -/
def maxBelow : Term :=
  .app .implies [.app .and [.app .list [.num 0], .app .nonNull [.num 0]],
    .app .le [.app .max [.num 0], .num (-1)]]

theorem maxBelow_supported : maxBelow.Supported sllSettings := by
  simp only [maxBelow, Term.Supported, Term.AllSupported]
  decide

theorem renders_iff_inOrder_maxBelow :
    Renders sllSettings ["P#x"] ["P#k"] maxBelow <-> maxBelow.InOrder :=
  renders_iff_inOrder sllSettings_valid (by decide) (by decide) maxBelow_supported

/-- `['and', ['list', 0], ['and', ['list', 1], ['neq', 0, 1]], ['non_null', 0]]` -/
def conjunctionInside : Term :=
  .app .and [.app .list [.num 0], .app .and [.app .list [.num 1],
    .app .neq [.num 0, .num 1]], .app .nonNull [.num 0]]

theorem conjunctionInside_supported : conjunctionInside.Supported sllSettings := by
  simp only [conjunctionInside, Term.Supported, Term.AllSupported]
  decide

theorem conjunctionInside_not_inOrder : ¬conjunctionInside.InOrder := by
  intro h
  rw [conjunctionInside, Term.InOrder] at h
  exact absurd (h.left rfl 2 (by decide) (by decide)) (by decide)

/-- The conjunct after the inner conjunction is lost. -/
theorem conjunctionInside_loses :
    (exists g', ts sllSettings ["x", "y"] [] 9 conjunctionInside ⟨0, ""⟩ = .returns
      ("(F#sll($s,$phys_ptr_cast(x,^s_node)) && (F#sll($s,$phys_ptr_cast(y,^s_node)) && " ++
        "($phys_ptr_cast(x,^s_node) != $phys_ptr_cast(y,^s_node))))") g') ∧
      ¬forall (st : Settings) (p i : List String) (t : Term), st.Valid ->
        (forall x, x ∈ p -> isIdent x = true) -> (forall x, x ∈ i -> isIdent x = true) ->
        t.Supported st -> Renders st p i t := by
  constructor
  · exact ⟨_, rfl⟩
  · intro h
    apply conjunctionInside_not_inOrder
    exact inOrder_of_renders sllSettings_valid (by decide) (by decide)
      conjunctionInside_supported
      (h _ ["x", "y"] [] _ sllSettings_valid (by decide) (by decide)
        conjunctionInside_supported)

end Heaps
end Boogie
