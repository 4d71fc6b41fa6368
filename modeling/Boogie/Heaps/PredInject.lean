import Boogie.Foundation.Occurrences
import Boogie.Foundation.Text
import Boogie.Heaps.CandidatesComplete

/-!
# The injection of heap predicates

The generated text is divided at the word between the invariants and the
declarations, and the invariants take the place of what a regular expression finds in
the program.
-/

namespace Boogie
namespace Heaps

open Occurrences

def invBegin : List Char :=
  "// INV:BEGIN".toList

def invEnd : List Char :=
  "// INV:END".toList

def invMark : List Char :=
  "INV".toList

/-- What stands for `$` and the character behind it in a replacement text: the dollar
sign, the match, and the texts before and after it (for the backtick and the
apostrophe).  The regular expression has no groups. -/
def special (before matched after : List Char) (c : Char) : Option (List Char) :=
  if c = '$' then some ['$']
  else if c = '&' then some matched
  else if c = Char.ofNat 96 then some before
  else if c = Char.ofNat 39 then some after
  else none

def expand (before matched after : List Char) : List Char -> List Char
  | [] => []
  | [c] => [c]
  | c :: d :: rest =>
    match if c = '$' then special before matched after d else none with
    | some s => s ++ expand before matched after rest
    | none => c :: expand before matched after (d :: rest)

/-- What stands before the match of the regular expression, between its two texts, and
after it.  The repetition is greedy: it goes on to the last possible end. -/
def regionMatch (bpl : List Char) : Option (List Char × List Char × List Char) :=
  (splitFirst invBegin bpl).bind (fun parts =>
    (splitLast invEnd parts.2).map (fun rest => (parts.1, rest.1, rest.2)))

/-- `bpl.replace(...)`.  Without the flag `g` there is one match. -/
def replace (invariants bpl : List Char) : List Char :=
  match regionMatch bpl with
  | none => bpl
  | some (before, inside, after) =>
    before ++ (expand before (invBegin ++ (inside ++ invEnd)) after invariants ++ after)

/-- `main` on the texts of the two files: what it writes on the console. -/
def PredInject.main (bpl pred : String) : List String :=
  let parts := splitAll invMark pred.toList
  [String.ofList (parts.getD 1 "undefined".toList),
    String.ofList (replace (parts.getD 0 "undefined".toList) bpl.toList)]

/-!
# Special pairs
-/

def HasSpecial (cs : List Char) : Prop :=
  exists d, d ∈ ['$', '&', Char.ofNat 96, Char.ofNat 39] ∧ ['$', d] <:+: cs

section Pairs

variable {before matched after : List Char}

theorem special_none {d : Char} (h : d ∉ ['$', '&', Char.ofNat 96, Char.ofNat 39]) :
    special before matched after d = none := by
  simp only [List.mem_cons, List.not_mem_nil, or_false, not_or] at h
  rw [special, if_neg h.left, if_neg h.right.left, if_neg h.right.right.left,
    if_neg h.right.right.right]

theorem expand_special {d : Char} {s : List Char} (rest : List Char)
    (h : special before matched after d = some s) :
    expand before matched after ('$' :: d :: rest) = s ++ expand before matched after rest := by
  rw [expand, if_pos rfl, h]

theorem expand_other {c d : Char} (rest : List Char)
    (h : c ≠ '$' ∨ special before matched after d = none) :
    expand before matched after (c :: d :: rest) =
      c :: expand before matched after (d :: rest) := by
  rw [expand]
  split
  next s hs =>
    split at hs
    next hc =>
      rcases h with hne | hnone
      · exact absurd hc hne
      · rw [hnone] at hs
        cases hs
    next => cases hs
  next => rfl

theorem pair_cases (c d : Char) :
    (c ≠ '$' ∨ special before matched after d = none) ∨
      c = '$' ∧ exists s, special before matched after d = some s := by
  rcases Decidable.em (c = '$') with hc | hc
  · cases hd : special before matched after d with
    | none => exact Or.inl (Or.inr rfl)
    | some s => exact Or.inr ⟨hc, s, rfl⟩
  · exact Or.inl (Or.inl hc)

theorem HasSpecial.tail {c : Char} {cs : List Char} (h : HasSpecial cs) :
    HasSpecial (c :: cs) := by
  rcases h with ⟨d, hd, hinfix⟩
  exact ⟨d, hd, hinfix.trans (List.suffix_cons c cs).isInfix⟩

theorem expand_of_not_hasSpecial {cs : List Char} (h : ¬HasSpecial cs) :
    expand before matched after cs = cs := by
  induction cs with
  | nil => rfl
  | cons c cs ih =>
    cases cs with
    | nil => rfl
    | cons d rest =>
      rw [expand_other rest, ih (fun hrest => h hrest.tail)]
      rcases Decidable.em (c = '$') with rfl | hc
      · refine Or.inr (special_none ?_)
        intro hd
        exact h ⟨d, hd, (List.prefix_append ['$', d] rest).isInfix⟩
      · exact Or.inl hc

def StartsSpecial (cs : List Char) : Prop :=
  forall c, cs.head? = some c -> c = '$'

theorem special_start (hbefore : ¬StartsSpecial before) (hmatched : ¬StartsSpecial matched)
    (hafter : ¬StartsSpecial after) {d : Char} {s : List Char}
    (h : special before matched after d = some s) :
    d = '$' ∧ s = ['$'] ∨ exists e rest, s = e :: rest ∧ e ≠ '$' := by
  have hstart : forall cs, ¬StartsSpecial cs -> exists e rest, cs = e :: rest ∧ e ≠ '$' := by
    intro cs hcs
    cases cs with
    | nil => exact absurd (fun c hc => by cases hc) hcs
    | cons e rest =>
      refine ⟨e, rest, rfl, ?_⟩
      rintro rfl
      apply hcs
      intro c hc
      rw [List.head?_cons, Option.some.injEq] at hc
      exact hc.symm
  rw [special] at h
  split at h
  next hd =>
    rw [Option.some.injEq] at h
    exact Or.inl ⟨hd, h.symm⟩
  split at h
  next =>
    rw [Option.some.injEq] at h
    exact Or.inr (hstart s (h ▸ hmatched))
  split at h
  next =>
    rw [Option.some.injEq] at h
    exact Or.inr (hstart s (h ▸ hbefore))
  split at h
  next =>
    rw [Option.some.injEq] at h
    exact Or.inr (hstart s (h ▸ hafter))
  next => cases h

theorem expand_ne_dollars (hbefore : ¬StartsSpecial before) (hmatched : ¬StartsSpecial matched)
    (hafter : ¬StartsSpecial after) {cs w : List Char} {n : Nat} :
    expand before matched after cs ≠ List.replicate (n + 1) '$' ++ (cs ++ w) := by
  induction hlength : cs.length using Nat.strong_induction_on generalizing cs n with
  | h length ih =>
    intro heq
    have hshift : forall xs : List Char, List.replicate n '$' ++ ('$' :: xs) =
        List.replicate (n + 1) '$' ++ xs := by
      intro xs
      rw [List.replicate_succ', List.append_assoc]
      rfl
    rw [List.replicate_succ, List.cons_append] at heq
    cases cs with
    | nil => cases heq
    | cons c cs =>
      cases cs with
      | nil =>
        rw [expand, List.cons.injEq] at heq
        rw [← heq.left] at heq
        have hnil := List.append_eq_nil_iff.mp heq.right.symm
        cases hnil.right
      | cons d rest =>
        rw [List.length_cons, List.length_cons] at hlength
        rcases @pair_cases before matched after c d
          with hother | ⟨rfl, s, hs⟩
        · rw [expand_other rest hother, List.cons.injEq] at heq
          rw [heq.left, List.cons_append, hshift] at heq
          exact ih (rest.length + 1) (by omega) (List.length_cons ..) heq.right
        · rw [expand_special rest hs] at heq
          rcases special_start hbefore hmatched hafter hs with
            ⟨rfl, rfl⟩ | ⟨e, s', rfl, he⟩
          · rw [List.singleton_append, List.cons.injEq, List.cons_append, List.cons_append,
              hshift, List.append_cons, ← List.replicate_succ'] at heq
            exact ih rest.length (by omega) rfl heq.right
          · rw [List.cons_append, List.cons.injEq] at heq
            exact he heq.left

theorem expand_ne_append (hbefore : ¬StartsSpecial before) (hmatched : ¬StartsSpecial matched)
    (hafter : ¬StartsSpecial after) {cs w : List Char} (h : HasSpecial cs) :
    expand before matched after cs ≠ cs ++ w := by
  induction cs with
  | nil =>
    rcases h with ⟨d, _, hinfix⟩
    exact absurd hinfix.length_le (by simp)
  | cons c cs ih =>
    intro heq
    cases cs with
    | nil =>
      rcases h with ⟨d, _, hinfix⟩
      exact absurd hinfix.length_le (by simp)
    | cons d rest =>
      rcases @pair_cases before matched after c d
        with hother | ⟨rfl, s, hs⟩
      · rw [expand_other rest hother, List.cons_append, List.cons.injEq] at heq
        refine ih ?_ heq.right
        rcases h with ⟨e, he, hinfix⟩
        rcases List.infix_cons_iff.mp hinfix with hstarts | hrest
        · rw [List.cons_prefix_cons, List.cons_prefix_cons] at hstarts
          rw [← hstarts.left, ← hstarts.right.left] at hother
          rcases hother with hne | hnone
          · exact absurd rfl hne
          · simp only [List.mem_cons, List.not_mem_nil, or_false] at he
            rcases he with rfl | rfl | rfl | rfl <;> cases hnone
        · exact ⟨e, he, hrest⟩
      · rw [expand_special rest hs] at heq
        rcases special_start hbefore hmatched hafter hs with
          ⟨rfl, rfl⟩ | ⟨e, s', rfl, he⟩
        · rw [List.singleton_append, List.cons_append, List.cons.injEq,
            List.cons_append] at heq
          exact expand_ne_dollars hbefore hmatched hafter (n := 0) heq.right
        · rw [List.cons_append, List.cons_append, List.cons.injEq] at heq
          exact he heq.left

end Pairs

/-!
# The regions
-/

def throughLast (rest : List Char) : List Char × List Char :=
  match splitLast invEnd rest with
  | none => ([], rest)
  | some (m, z) => (m ++ invEnd, z)

theorem invEnd_unbordered : Unbordered invEnd := by
  decide

theorem throughLast_append (rest : List Char) :
    (throughLast rest).1 ++ (throughLast rest).2 = rest := by
  rw [throughLast]
  split
  next => rfl
  next m z h => rw [splitLast_eq h, List.append_assoc]

theorem throughLast_none (rest : List Char) :
    splitFirst invEnd (throughLast rest).2 = none := by
  rw [throughLast]
  split
  next h => exact splitLast_none_iff.mp h
  next m z h => exact splitFirst_none_of_splitLast (by decide) h

theorem throughLast_clear (rest : List Char) :
    Clear invEnd (throughLast rest).1 (throughLast rest).2 := by
  have hnone := throughLast_none rest
  rw [throughLast] at hnone ⊢
  split
  next h =>
    rw [h] at hnone
    exact (invEnd_unbordered.clear (m := []) hnone).mono (List.nil_suffix ..)
  next m z h =>
    rw [h] at hnone
    exact invEnd_unbordered.clear hnone

theorem regionMatch_of_none {bpl : List Char} (h : splitRegion invBegin invEnd bpl = none) :
    regionMatch bpl = none := by
  rw [splitRegion] at h
  rw [regionMatch]
  cases hbegin : splitFirst invBegin bpl with
  | none => rfl
  | some parts =>
    rw [hbegin, Option.bind_some, Option.map_eq_none_iff] at h
    rw [Option.bind_some, splitLast_none_iff.mpr h]
    rfl

theorem regionMatch_of_some {bpl before inside rest : List Char}
    (h : splitRegion invBegin invEnd bpl = some (before, inside, rest)) :
    exists inside', regionMatch bpl = some (before, inside', (throughLast rest).2) ∧
      inside' ++ invEnd = inside ++ (invEnd ++ (throughLast rest).1) := by
  rw [splitRegion] at h
  rcases Option.bind_eq_some_iff.mp h with ⟨parts, hbegin, hmap⟩
  rcases Option.map_eq_some_iff.mp hmap with ⟨parts', hend, heq⟩
  rw [Prod.mk.injEq, Prod.mk.injEq] at heq
  rw [← heq.left, ← heq.right.left, ← heq.right.right]
  have hlast := splitLast_of_splitFirst (by decide) invEnd_unbordered hend
  rw [regionMatch, hbegin, Option.bind_some, hlast, throughLast]
  cases splitLast invEnd parts'.2 with
  | none => exact ⟨parts'.1, rfl, by rw [List.append_nil]⟩
  | some last =>
    refine ⟨parts'.1 ++ (invEnd ++ last.1), rfl, ?_⟩
    rw [List.append_assoc, List.append_assoc]

/-- The replacement of the one match is that of all regions when the inserted text is
the payload and what the regions behind the first one leave. -/
theorem replace_eq_iff {invariants bpl : List Char} :
    replace invariants bpl = replaceRegions invBegin invEnd invariants bpl <->
      forall before inside rest, splitRegion invBegin invEnd bpl = some (before, inside, rest) ->
          expand before (invBegin ++ (inside ++ (invEnd ++ (throughLast rest).1)))
              (throughLast rest).2 invariants =
            invariants ++ replaceRegions invBegin invEnd invariants (throughLast rest).1 := by
  rw [replace]
  cases hregion : splitRegion invBegin invEnd bpl with
  | none =>
    rw [regionMatch_of_none hregion, replaceRegions_of_none hregion]
    constructor
    · intro _ before inside rest h
      cases h
    · intro _
      rfl
  | some parts =>
    rcases parts with ⟨before, inside, rest⟩
    rcases regionMatch_of_some hregion with ⟨inside', hmatch, hinside⟩
    have hrest : replaceRegions invBegin invEnd invariants rest =
        replaceRegions invBegin invEnd invariants (throughLast rest).1 ++
          (throughLast rest).2 := by
      have happend := @replaceRegions_append _ _ invBegin _ invariants _ _
        (by decide) (throughLast_clear rest) (throughLast_none rest)
      rwa [throughLast_append] at happend
    rw [hmatch, replaceRegions_of_some (by decide) hregion, hrest]
    dsimp only
    rw [hinside, List.append_right_inj, ← List.append_assoc invariants, List.append_left_inj]
    constructor
    · intro h before' inside' rest' heq
      cases heq
      exact h
    · intro h
      exact h before inside rest rfl

/-- The exact condition on a program for the literal replacement of all regions: there
is no region, or nothing is left out behind the first one and no pair is special.  The
other cases are accidents: no text is inserted and nothing stands between the regions,
or the text around the regions replaces the special pairs by themselves. -/
def Replaceable (invariants bpl : List Char) : Prop :=
  forall before inside rest,
    splitRegion invBegin invEnd bpl = some (before, inside, rest) ->
      ¬HasSpecial invariants ∧
          ((throughLast rest).1 = [] ∨
            invariants = [] ∧ replaceRegions invBegin invEnd [] (throughLast rest).1 = []) ∨
        HasSpecial invariants ∧
          (StartsSpecial before ∨ StartsSpecial (throughLast rest).2) ∧
          expand before (invBegin ++ (inside ++ (invEnd ++ (throughLast rest).1)))
              (throughLast rest).2 invariants =
            invariants ++ replaceRegions invBegin invEnd invariants (throughLast rest).1

theorem not_startsSpecial_invBegin (cs : List Char) : ¬StartsSpecial (invBegin ++ cs) := by
  intro h
  exact absurd (h '/' rfl) (by decide)

theorem replace_iff {invariants bpl : List Char} :
    replace invariants bpl = replaceRegions invBegin invEnd invariants bpl <->
      Replaceable invariants bpl := by
  rw [replace_eq_iff]
  refine forall₃_congr (fun before inside rest => forall_congr' (fun _ => ?_))
  rcases Classical.em (HasSpecial invariants) with hspecial | hplain
  · constructor
    · intro h
      refine Or.inr ⟨hspecial, ?_, h⟩
      by_contra hstarts
      rw [not_or] at hstarts
      exact expand_ne_append hstarts.left (not_startsSpecial_invBegin _) hstarts.right
        hspecial h
    · rintro (⟨hplain, _⟩ | ⟨_, _, h⟩)
      · exact absurd hspecial hplain
      · exact h
  · rw [expand_of_not_hasSpecial hplain, List.self_eq_append_right]
    constructor
    · intro h
      refine Or.inl ⟨hplain, ?_⟩
      rcases replaceRegions_eq_nil (by decide) h with hnil | rfl
      · exact Or.inl hnil
      · exact Or.inr ⟨rfl, h⟩
    · rintro (⟨_, hnil | ⟨rfl, h⟩⟩ | ⟨hspecial, _⟩)
      · rw [hnil]
        exact replaceRegions_of_none rfl
      · exact h
      · exact absurd hspecial hplain

/-!
# The generated text
-/

def OneLine (s : String) : Prop :=
  '\n' ∉ s.toList

instance (s : String) : Decidable (OneLine s) :=
  inferInstanceAs (Decidable ('\n' ∉ s.toList))

theorem OneLine.append {s t : String} (hs : OneLine s) (ht : OneLine t) :
    OneLine (s ++ t) := by
  rw [OneLine, String.toList_append, List.mem_append, not_or]
  exact ⟨hs, ht⟩

structure Settings.OneLine (st : Settings) : Prop where
  lst : Heaps.OneLine st.lst
  lst2 : Heaps.OneLine st.lst2
  lst3 : Heaps.OneLine st.lst3
  node : Heaps.OneLine st.node
  old : Heaps.OneLine st.old

section Names

variable {st : Settings} {p i : List String}

theorem pieces_oneLine (hst : st.OneLine) {op : Op} {n : Nat} {ps : List Piece}
    (h : pieces st n op = some ps) {s : String} (hs : Piece.text s ∈ ps) : OneLine s := by
  have hlst := hst.lst
  have hlst2 := hst.lst2
  have hlst3 := hst.lst3
  have hnode := hst.node
  have hold := hst.old
  rw [OneLine] at hlst hlst2 hlst3 hnode hold ⊢
  unfold pieces at h
  split at h
  any_goals split at h
  any_goals
    rw [Option.some.injEq] at h
    subst h
    simp only [List.mem_cons, Piece.text.injEq, List.not_mem_nil, or_false, reduceCtorEq,
      false_or] at hs
    rcases hs with rfl | rfl | rfl | rfl <;>
      simp [hlst, hlst2, hlst3, hnode, hold]
  all_goals cases h

theorem nameAt_oneLine {names : List String} (h : forall x, x ∈ names -> OneLine x)
    (n : Nat) : OneLine (nameAt names n) := by
  rw [nameAt, List.getD_eq_getElem?_getD]
  cases hget : names[n]? with
  | none => decide
  | some x => exact h x (List.mem_of_getElem? hget)

theorem tsNumber_oneLine (hst : st.OneLine) (hp : forall x, x ∈ p -> OneLine x)
    (hi : forall x, x ∈ i -> OneLine x) (t : Int) : OneLine (tsNumber st p i t) := by
  rw [tsNumber]
  split
  next =>
    exact ((((by decide : OneLine _).append (nameAt_oneLine hp _)).append
      (by decide : OneLine _)).append hst.node).append (by decide)
  next => exact nameAt_oneLine hi _

theorem tsArgument_oneLine {render : Term -> Globals -> Outcome String} {args : List Term}
    (hrender : forall t g s g', render t g = .returns s g' -> OneLine s) {n : Nat}
    {g g' : Globals} {s : String} (h : tsArgument render args n g = .returns s g') :
    OneLine s := by
  rcases tsArgument_returns h with ⟨t, _, hrun⟩
  exact hrender t g s g' hrun

theorem tsPieces_oneLine {render : Term -> Globals -> Outcome String} {args : List Term}
    (hrender : forall t g s g', render t g = .returns s g' -> OneLine s) {ps : List Piece}
    (hps : forall s, Piece.text s ∈ ps -> OneLine s) {g g' : Globals} {s : String}
    (h : tsPieces render args ps g = .returns s g') : OneLine s := by
  induction ps generalizing g g' s with
  | nil =>
    rw [tsPieces, Outcome.returns.injEq] at h
    rw [← h.left]
    decide
  | cons piece ps ih =>
    have hrest : forall s, Piece.text s ∈ ps -> OneLine s :=
      fun s hs => hps s (List.mem_cons_of_mem _ hs)
    cases piece with
    | text u =>
      rcases Outcome.andThen_returns h with ⟨r, g1, hrun, hret⟩
      rw [Outcome.returns.injEq] at hret
      rw [← hret.left]
      exact (hps u List.mem_cons_self).append (ih hrest hrun)
    | arg n =>
      rcases Outcome.andThen_returns h with ⟨a, g1, harg, hafter⟩
      rcases Outcome.andThen_returns hafter with ⟨r, g2, hrun, hret⟩
      rw [Outcome.returns.injEq] at hret
      rw [← hret.left]
      exact (tsArgument_oneLine hrender harg).append (ih hrest hrun)

theorem ts_oneLine (hst : st.OneLine) (hp : forall x, x ∈ p -> OneLine x)
    (hi : forall x, x ∈ i -> OneLine x) (fuel : Nat) :
    (forall t g s g', ts st p i fuel t g = .returns s g' -> OneLine s) ∧
      forall args g s g', OneLine g.str -> tsAnd st p i fuel args g = .returns s g' ->
        OneLine s := by
  induction fuel with
  | zero =>
    constructor
    · intro t g s g' h
      rw [ts] at h
      cases h
    · intro args g s g' _ h
      rw [tsAnd] at h
      cases h
  | succ fuel ih =>
    constructor
    · intro t g s g' h
      cases t with
      | num t =>
        rw [ts, Outcome.returns.injEq] at h
        rw [← h.left]
        exact tsNumber_oneLine hst hp hi t
      | app op args =>
        rw [ts] at h
        split at h
        next =>
          split at h
          next =>
            rcases Outcome.andThen_returns h with ⟨a, g1, harg, hloop⟩
            refine ih.right _ _ _ _ ?_ hloop
            exact (by decide : OneLine "(").append (tsArgument_oneLine ih.left harg)
          next => cases h
        next =>
          split at h
          next ps hps =>
            exact tsPieces_oneLine ih.left (fun s hs => pieces_oneLine hst hps hs) h
          next => cases h
    · intro args g s g' hstr h
      rw [tsAnd] at h
      split at h
      next =>
        rcases Outcome.andThen_returns h with ⟨a, g1, harg, hloop⟩
        refine ih.right _ _ _ _ ?_ hloop
        exact hstr.append
          ((by decide : OneLine " && ").append (tsArgument_oneLine ih.left harg))
      next =>
        rw [Outcome.returns.injEq] at h
        rw [← h.left]
        exact hstr.append (by decide)

theorem guard_chars {n : Nat} {c : Char} (h : c ∈ (guard n).toList) :
    c = 'b' ∨ c.isDigit = true := by
  rcases toList_padLeft digits (toString n) with ⟨m, hm⟩
  rw [guard, String.toList_append, List.mem_append, pad, hm, List.mem_append] at h
  rcases h with hb | hzero | hdigit
  · exact Or.inl (List.mem_singleton.mp hb)
  · rw [(List.mem_replicate.mp hzero).right]
    exact Or.inr (by decide)
  · rw [Nat.toString_eq_repr, Nat.toList_repr] at hdigit
    exact Or.inr (Nat.isDigit_of_mem_toDigits (by decide) (by decide) hdigit)

theorem subset_of_mem_permutations {list s : List String} {k : Nat}
    (h : s ∈ ((permutations list)[k]?).getD []) : s ⊆ list := by
  rcases Nat.lt_or_ge list.length k with hlt | hle
  · rw [getElem?_permutations_of_lt hlt] at h
    cases h
  · rw [getElem?_permutations hle] at h
    exact Selections.subset_of_mem_selections h

theorem heapSelections_subset {ptrs : List String} {t : Term}
    {x : List String × List String} (h : x ∈ heapSelections ptrs t) :
    x.1 ⊆ ptrs ∧ x.2 = [] := by
  rw [heapSelections] at h
  split at h
  next =>
    rcases List.mem_map.mp h with ⟨s, hs, rfl⟩
    exact ⟨subset_of_mem_permutations hs, rfl⟩
  next => cases h

theorem dataSelections_subset {ptrs ints : List String} {t : Term}
    {x : List String × List String} (h : x ∈ dataSelections ptrs ints t) :
    x.1 ⊆ ptrs ∧ x.2 ⊆ ints := by
  rw [dataSelections] at h
  split at h
  next =>
    rcases List.mem_flatMap.mp h with ⟨s, hs, hmap⟩
    rcases List.mem_map.mp hmap with ⟨s', hs', rfl⟩
    exact ⟨subset_of_mem_permutations hs, subset_of_mem_permutations hs'⟩
  next => cases h

structure Statement (line : String) : Prop where
  one : OneLine line
  last : line.toList.getLast? = some ';'

theorem statement_of_printed {v : Invariant} {n : Nat} (hbody : OneLine v.body)
    (hguard : v.guard = guard n) : Statement v.text := by
  constructor
  · have hname : OneLine v.guard := by
      intro hfeed
      rw [hguard] at hfeed
      rcases guard_chars hfeed with heq | hdigit
      · exact absurd heq (by decide)
      · exact absurd hdigit (by decide)
    rw [Invariant.text]
    exact ((((by decide : OneLine "invariant ").append hname).append
      (by decide : OneLine " ==> (")).append hbody).append (by decide)
  · rw [Invariant.text, String.toList_append]
    exact List.getLast?_append_of_ne_nil _ (by decide)

theorem exists_of_mem_right {A B : Type} {R : A -> B -> Prop} {as : List A} {bs : List B}
    (h : List.Forall₂ R as bs) {b : B} (hb : b ∈ bs) : exists a, a ∈ as ∧ R a b := by
  induction h with
  | nil => cases hb
  | cons hab _ ih =>
    rcases List.mem_cons.mp hb with rfl | hmem
    · exact ⟨_, List.mem_cons_self, hab⟩
    · rcases ih hmem with ⟨a, ha, hrel⟩
      exact ⟨a, List.mem_cons_of_mem _ ha, hrel⟩

theorem printed_of_mem {fuel : Nat} {sel : Term -> List (List String × List String)}
    {pats : List Term} {vss : List (List Invariant)}
    (h : List.Forall₂ (fun t vs => List.Forall₂ (PrintedFor st fuel t) vs (sel t)) pats vss)
    {v : Invariant} (hv : v ∈ vss.flatten) :
    exists t x, x ∈ sel t ∧ PrintedFor st fuel t v x := by
  rcases List.mem_flatten.mp hv with ⟨vs, hvs, hmem⟩
  rcases exists_of_mem_right h hvs with ⟨t, _, hprinted⟩
  rcases exists_of_mem_right hprinted.flip hmem with ⟨x, hx, hrun⟩
  exact ⟨t, x, hx, hrun⟩

theorem main_statements (hst : st.OneLine) {ptrs ints : List String}
    (hptrs : forall x, x ∈ ptrs -> OneLine x) (hints : forall x, x ∈ ints -> OneLine x)
    {heap data : List Term} {fuel : Nat} {g g' : Globals} {r : Generated}
    (h : PredGenList.main st ptrs ints heap data fuel g = .returns r g') {v : Invariant}
    (hv : v ∈ r.invariants) : Statement v.text := by
  rcases main_returns h with ⟨hheap, hdata, hguards, _⟩
  have hguard : v.guard ∈ (List.range r.invariants.length).map guard := by
    rw [← hguards]
    exact List.mem_map_of_mem hv
  rcases List.mem_map.mp hguard with ⟨n, _, hn⟩
  refine statement_of_printed ?_ hn.symm
  rcases List.mem_append.mp hv with hv | hv
  · rcases printed_of_mem hheap hv with ⟨t, x, hx, g1, g2, hrun⟩
    rcases heapSelections_subset hx with ⟨hp, hi⟩
    refine (ts_oneLine hst (fun y hy => hptrs y (hp hy)) ?_ fuel).left _ _ _ _ hrun
    rw [hi]
    exact fun y hy => by cases hy
  · rcases printed_of_mem hdata hv with ⟨t, x, hx, g1, g2, hrun⟩
    rcases dataSelections_subset hx with ⟨hp, hi⟩
    exact (ts_oneLine hst (fun y hy => hptrs y (hp hy)) (fun y hy => hints y (hi hy))
      fuel).left _ _ _ _ hrun

theorem not_mem_constText {n : Nat} : 'I' ∉ (constText (guard n)).toList := by
  have hfront : 'I' ∉ "const \x7b:existential true\x7d ".toList := by decide
  have hend : 'I' ∉ " : bool;".toList := by decide
  have hguard : 'I' ∉ (guard n).toList := by
    intro hmem
    rcases guard_chars hmem with heq | hdigit
    · exact absurd heq (by decide)
    · exact absurd hdigit (by decide)
  change 'I' ∉ ("const \x7b:existential true\x7d " ++ guard n ++ " : bool;").toList
  rw [String.toList_append, String.toList_append, List.mem_append, List.mem_append, not_or,
    not_or]
  exact ⟨⟨hfront, hguard⟩, hend⟩

theorem splitFirst_consts {ptrs ints : List String} {heap data : List Term} {fuel : Nat}
    {g g' : Globals} {r : Generated}
    (h : PredGenList.main st ptrs ints heap data fuel g = .returns r g') :
    splitFirst invMark ('\n' :: (Text.unlines r.consts).toList) = none := by
  rcases main_returns h with ⟨_, _, hguards, hconsts⟩
  rw [splitFirst_none_iff_avoids]
  intro hinfix
  have hmem : 'I' ∈ '\n' :: (Text.unlines r.consts).toList :=
    hinfix.subset (by decide)
  rcases List.mem_cons.mp hmem with heq | hmem
  · exact absurd heq (by decide)
  rcases Text.mem_toList_unlines hmem with heq | ⟨row, hrow, hc⟩
  · exact absurd heq (by decide)
  rw [hconsts] at hrow
  rcases List.mem_map.mp hrow with ⟨v, hv, rfl⟩
  have hguard : v.guard ∈ (List.range r.invariants.length).map guard := by
    rw [← hguards]
    exact List.mem_map_of_mem hv
  rcases List.mem_map.mp hguard with ⟨n, _, hn⟩
  rw [← hn] at hc
  exact not_mem_constText hc

end Names

/-!
# The marker
-/

section Marker

variable {rows : List String}

def Generated.invariantText (r : Generated) : List Char :=
  (Text.unlines (r.invariants.map Invariant.text)).toList

theorem Generated.toList_lines (r : Generated) :
    (Text.unlines r.lines).toList =
      r.invariantText ++ (invMark ++ '\n' :: (Text.unlines r.consts).toList) := by
  rw [Generated.lines, Text.unlines_append, Text.unlines, String.toList_append,
    String.toList_append, String.toList_append, List.append_assoc]
  rfl

theorem last_before_feed (h : forall row, row ∈ rows -> Statement row) {x y : List Char}
    (heq : (Text.unlines rows).toList = x ++ '\n' :: y) : x.getLast? = some ';' := by
  induction rows generalizing x with
  | nil =>
    have hnil := List.append_eq_nil_iff.mp heq.symm
    cases hnil.right
  | cons row rows ih =>
    have hrow := h row List.mem_cons_self
    rw [Text.unlines, String.toList_append, String.toList_append, List.append_assoc] at heq
    rcases List.append_eq_append_iff.mp heq with ⟨a, rfl, hrest⟩ | ⟨c, hc, hrest⟩
    · cases a with
      | nil =>
        rw [List.append_nil]
        exact hrow.last
      | cons d a =>
        have hlast := ih (fun row' hrow' => h row' (List.mem_cons_of_mem _ hrow'))
          (List.cons.inj hrest).right
        rw [List.getLast?_append, List.getLast?_cons, hlast]
        rfl
    · cases c with
      | nil =>
        rw [List.append_nil] at hc
        rw [← hc]
        exact hrow.last
      | cons d c =>
        refine absurd ?_ hrow.one
        rw [hc, (List.cons.inj hrest).left]
        exact List.mem_append_right _ List.mem_cons_self

theorem getLast?_unlines (h : rows ≠ []) : (Text.unlines rows).toList.getLast? = some '\n' := by
  rw [← List.dropLast_append_getLast h, Text.unlines_append, String.toList_append, Text.unlines,
    Text.unlines, String.append_empty, String.toList_append, ← List.append_assoc]
  exact List.getLast?_concat

theorem splitFirst_mark {z : List Char}
    (hnone : splitFirst invMark (Text.unlines rows).toList = none) :
    splitFirst invMark ((Text.unlines rows).toList ++ (invMark ++ z)) =
      some ((Text.unlines rows).toList, z) := by
  rw [splitFirst_append_of_none, splitFirst_self]
  · rw [Option.map_some, List.append_nil]
  · intro v hv hne hstarts
    rcases Nat.lt_or_ge v.length invMark.length with hlt | hle
    · have hfront := List.prefix_of_prefix_length_le (List.prefix_append v _) hstarts hlt.le
      have hrows : rows ≠ [] := by
        rintro rfl
        exact hne (List.suffix_nil.mp hv)
      have hlast : v.getLast? = some '\n' := by
        rcases hv with ⟨u, hu⟩
        rw [← getLast?_unlines hrows, ← hu, List.getLast?_append_of_ne_nil _ hne]
      have hmem := hfront.subset (List.mem_of_getLast? hlast)
      exact absurd hmem (by decide)
    · refine splitFirst_none_iff.mp hnone v hv ?_
      exact List.prefix_of_prefix_length_le hstarts (List.prefix_append ..) hle

theorem feed_avoids (h : forall row, row ∈ rows -> Statement row) {a b z : List Char}
    (hsome : splitFirst invMark (Text.unlines rows).toList = some (a, b)) {c : List Char} :
    ¬('\n' :: c) <+: b ++ (invMark ++ z) := by
  intro hstarts
  cases b with
  | nil =>
    rw [List.nil_append] at hstarts
    have hhead := (List.cons_prefix_cons.mp hstarts).left
    exact absurd hhead (by decide)
  | cons d b =>
    rw [List.cons_append, List.cons_prefix_cons] at hstarts
    have heq := splitFirst_eq hsome
    rw [← hstarts.left, ← List.append_assoc] at heq
    have hlast := last_before_feed h heq
    rw [List.getLast?_append_of_ne_nil _ (by decide)] at hlast
    exact absurd hlast (by decide)

end Marker

/-!
# The injection
-/

/-- What the injection is for: the declarations (behind the rest of the marker's line),
and the program with the invariants in the place of each region. -/
def injected (r : Generated) (bpl : String) : List String :=
  ["\n" ++ Text.unlines r.consts,
    String.ofList (replaceRegions invBegin invEnd r.invariantText bpl.toList)]

section Main

variable {st : Settings} {ptrs ints : List String} {patterns_heap patterns_data : List Term}
  {fuel : Nat} {g g' : Globals} {r : Generated}

theorem main_of_none
    (h : PredGenList.main st ptrs ints patterns_heap patterns_data fuel g = .returns r g')
    (hmark : splitFirst invMark r.invariantText = none) (bpl : String) :
    PredInject.main bpl (Text.unlines r.lines) =
      ["\n" ++ Text.unlines r.consts, String.ofList (replace r.invariantText bpl.toList)] := by
  have hfirst := splitFirst_mark (z := '\n' :: (Text.unlines r.consts).toList) hmark
  rw [← Generated.invariantText] at hfirst
  rw [PredInject.main, r.toList_lines, splitAll_of_some (by decide) hfirst,
    splitAll_of_none (splitFirst_consts h)]
  simp

/-- The output is right exactly when the marker is not in the invariants and the regions
are replaceable. -/
theorem injects_iff (hst : st.OneLine) (hptrs : forall x, x ∈ ptrs -> OneLine x)
    (hints : forall x, x ∈ ints -> OneLine x)
    (h : PredGenList.main st ptrs ints patterns_heap patterns_data fuel g = .returns r g')
    (bpl : String) :
    PredInject.main bpl (Text.unlines r.lines) = injected r bpl <->
      ¬invMark <:+: r.invariantText ∧ Replaceable r.invariantText bpl.toList := by
  have hstatement : forall row, row ∈ r.invariants.map Invariant.text -> Statement row := by
    intro row hrow
    rcases List.mem_map.mp hrow with ⟨v, hv, rfl⟩
    exact main_statements hst hptrs hints h hv
  rw [← splitFirst_none_iff_avoids]
  cases hmark : splitFirst invMark r.invariantText with
  | none =>
    rw [main_of_none h hmark, injected, ← replace_iff]
    simp [String.ofList_inj]
  | some parts =>
    rcases @prefix_of_splitAll _ _ invMark
      (parts.2 ++ (invMark ++ '\n' :: (Text.unlines r.consts).toList))
      with ⟨a, rest, hparts, hstarts⟩
    rw [PredInject.main, injected, r.toList_lines,
      splitAll_of_some (by decide) (splitFirst_append hmark), hparts]
    constructor
    · intro heq
      have hfirst := congrArg String.toList (List.cons.inj heq).left
      rw [String.toList_ofList, String.toList_append] at hfirst
      have ha : a = '\n' :: (Text.unlines r.consts).toList := hfirst
      rw [ha] at hstarts
      exact absurd hstarts (feed_avoids hstatement hmark)
    · rintro ⟨hnone, _⟩
      cases hnone

end Main

theorem sllSettings_oneLine : sllSettings.OneLine :=
  { lst := by decide, lst2 := by decide, lst3 := by decide, node := by decide
    old := by decide }

def oneList : Generated :=
  { heap := [[⟨guard 0, "F#sll($s,$phys_ptr_cast(x,^s_node))"⟩]]
    data := []
    consts := [constText (guard 0)] }

theorem main_oneList :
    PredGenList.main sllSettings ["x"] [] [isList] [] 5 ⟨0, ""⟩ = .returns oneList ⟨0, ""⟩ := by
  have hselections : heapSelections ["x"] isList = [(["x"], [])] := by
    rw [heapSelections_eq isList_predicate]
    decide
  rw [PredGenList.main, printPatterns]
  simp only [Outcome.andThen, printPatterns, hselections, printAll, printInvariant]
  rfl

theorem injects_iff_oneList :
    PredInject.main "// INV:BEGIN // INV:END" (Text.unlines oneList.lines) =
        injected oneList "// INV:BEGIN // INV:END" <-> ¬invMark <:+: oneList.invariantText ∧
        Replaceable oneList.invariantText "// INV:BEGIN // INV:END".toList :=
  injects_iff sllSettings_oneLine (by decide) (by decide) main_oneList _

theorem guard_zero : guard 0 = "b0000" := by
  rw [guard, pad]
  repeat rw [padLeft, if_pos (by decide)]
  rw [padLeft, if_neg (by decide)]
  rfl

theorem invariantText_oneList :
    oneList.invariantText =
      "invariant b0000 ==> (F#sll($s,$phys_ptr_cast(x,^s_node)));\n".toList := by
  simp [oneList, Generated.invariantText, Generated.invariants, Invariant.text, guard_zero,
    Text.unlines]

def twoRegions : String :=
  "a\n// INV:BEGIN\n// INV:END\nb\n// INV:BEGIN\n// INV:END\nc"

theorem twoRegions_not_replaceable : ¬Replaceable oneList.invariantText twoRegions.toList := by
  rw [invariantText_oneList]
  intro h
  rcases h "a\n".toList "\n".toList
    "\nb\n// INV:BEGIN\n// INV:END\nc".toList (by decide) with
    ⟨_, hnil | ⟨hnil, _⟩⟩ | ⟨_, hstarts | hstarts, _⟩
  · exact absurd hnil (by decide)
  · exact absurd hnil (by decide)
  · exact absurd (hstarts 'a' (by decide)) (by decide)
  · exact absurd (hstarts '\n' (by decide)) (by decide)

/-- The line between two regions is lost. -/
theorem twoRegions_loses :
    PredInject.main twoRegions (Text.unlines oneList.lines) = ["\n" ++ Text.unlines oneList.consts,
          "a\ninvariant b0000 ==> (F#sll($s,$phys_ptr_cast(x,^s_node)));\n\nc"] ∧
      ¬forall (st : Settings) (ptrs ints : List String) (heap data : List Term) (fuel : Nat)
        (g g' : Globals) (r : Generated), st.OneLine -> (forall x, x ∈ ptrs -> OneLine x) ->
        (forall x, x ∈ ints -> OneLine x) ->
        PredGenList.main st ptrs ints heap data fuel g = .returns r g' ->
        forall bpl, PredInject.main bpl (Text.unlines r.lines) = injected r bpl := by
  have hmain : PredInject.main twoRegions (Text.unlines oneList.lines) =
      ["\n" ++ Text.unlines oneList.consts,
        String.ofList (replace oneList.invariantText twoRegions.toList)] := by
    refine main_of_none main_oneList ?_ twoRegions
    rw [invariantText_oneList]
    decide
  constructor
  · have htext : replace oneList.invariantText twoRegions.toList =
        "a\ninvariant b0000 ==> (F#sll($s,$phys_ptr_cast(x,^s_node)));\n\nc".toList := by
      rw [invariantText_oneList]
      decide
    rw [hmain, htext, String.ofList_toList]
  · intro h
    have heq := h sllSettings ["x"] [] [isList] [] 5 ⟨0, ""⟩ ⟨0, ""⟩ oneList
      sllSettings_oneLine (by decide) (by decide) main_oneList twoRegions
    rw [hmain, injected, List.cons.injEq, List.cons.injEq, String.ofList_inj] at heq
    exact twoRegions_not_replaceable (replace_iff.mp heq.right.left)

end Heaps
end Boogie
