import Boogie.Provers.SExprLayout

/-!
# Successive calls

Each call reads the next expression from where the one before stopped. The calls
give back the trees of every layout, and each of them reads something until the
text is used up, exactly if the scan passes the text.
-/

namespace Boogie
namespace SMTLibProcess

def start (lines : List (List Char)) : State :=
  ⟨lines, none, []⟩

/-- `ParseSExprs(true)` with a bound on the recursion that suffices. -/
def call (s : State) : Except Failure (List SExpr × State) :=
  parseSExprs (s.text.length + 1) true s

def calls : Nat -> State -> Except Failure (List (List SExpr) × State)
  | 0, s => .ok ([], s)
  | n + 1, s => do
      let (exprs, s) ← call s
      let (more, s) ← calls n s
      return (exprs :: more, s)

/-!
# The bound on the recursion
-/

theorem bind_congr_of_fuel {A B : Type} {x x' : Except Failure A}
    {f f' : A -> Except Failure B} (hx : x ≠ .error .outOfFuel -> x' = x)
    (hf : forall a, f a ≠ .error .outOfFuel -> f' a = f a)
    (h : (x >>= f) ≠ .error .outOfFuel) : (x' >>= f') = (x >>= f) := by
  cases x with
  | error e =>
    have hne : (.error e : Except Failure A) ≠ .error .outOfFuel := by
      intro heq
      cases heq
      exact h rfl
    rw [hx hne]
    rfl
  | ok a =>
    rw [hx (by simp)]
    exact hf a h

theorem parseSExprs_succ (fuel : Nat) (top : Bool) (s : State)
    (h : parseSExprs fuel top s ≠ .error .outOfFuel) :
    parseSExprs (fuel + 1) top s = parseSExprs fuel top s := by
  induction fuel generalizing top s with
  | zero => exact absurd rfl h
  | succ fuel ih =>
    rw [parseSExprs] at h
    conv_lhs => rw [parseSExprs]
    conv_rhs => rw [parseSExprs]
    have hnext : forall x s', (if top then return ([x], s')
          else do
            let (more, s'') ← parseSExprs fuel false s'
            return (x :: more, s'')) ≠
          (.error .outOfFuel : Except Failure (List SExpr × State)) ->
        (if top then return ([x], s')
          else do
            let (more, s'') ← parseSExprs (fuel + 1) false s'
            return (x :: more, s'')) =
        ((if top then return ([x], s')
          else do
            let (more, s'') ← parseSExprs fuel false s'
            return (x :: more, s'')) :
          Except Failure (List SExpr × State)) := by
      intro x s' hx
      cases top with
      | true => rfl
      | false => exact bind_congr_of_fuel (ih false s') (fun _ _ => rfl) hx
    dsimp only at h ⊢
    split
    next => rfl
    next hc =>
      rw [if_neg hc] at h
      split
      next => rfl
      next hclose =>
        rw [if_neg hclose] at h
        split
        next hopen =>
          rw [if_pos hopen] at h
          split
          next => rfl
          next hnul =>
            rw [if_neg hnul] at h
            refine bind_congr_of_fuel (fun _ => rfl) ?_ h
            rintro ⟨id, s₁⟩ h₁
            refine bind_congr_of_fuel (ih false s₁) ?_ h₁
            rintro ⟨args, s₂⟩ h₂
            exact hnext _ _ h₂
        next hopen =>
          rw [if_neg hopen] at h
          refine bind_congr_of_fuel (fun _ => rfl) ?_ h
          rintro ⟨id, s₁⟩ h₁
          exact hnext _ _ h₁

theorem parseSExprs_eq_call {fuel : Nat} {s : State} (h : s.text.length < fuel) :
    parseSExprs fuel true s = call s := by
  induction fuel with
  | zero => omega
  | succ fuel ih =>
    cases hlt : decide (s.text.length < fuel) with
    | true =>
      have hlt' := of_decide_eq_true hlt
      rw [← ih hlt']
      refine parseSExprs_succ fuel true s ?_
      intro hfuel
      have hframing := parseSExprs_framing fuel true s hlt' 0
      rw [hfuel] at hframing
      cases hframing.1
    | false =>
      have heq : fuel = s.text.length := by
        have hnot := of_decide_eq_false hlt
        omega
      rw [heq]
      rfl

/-!
# One call
-/

theorem call_framing (s : State) : Framing true s 0 (call s) :=
  parseSExprs_framing _ true s (Nat.lt_succ_self _) 0

theorem scan_stopped {t : Text} (h : Stopped t) (hscan : scan .outside 0 t = true) : t = [] := by
  rcases h with hnil | ⟨c, u, rfl, rfl | rfl⟩
  · exact hnil
  · simp [scan, isWhiteSpace] at hscan
  · simp [scan, isWhiteSpace, nul] at hscan

theorem call_of_scan {s : State} (h : scan .outside 0 s.text = true) :
    exists xs s', call s = .ok (xs, s') ∧ scan .outside 0 s'.text = true ∧
      (s.text = [] ∨ s'.text.length < s.text.length) := by
  have hframing := call_framing s
  cases hcall : call s with
  | error f =>
    rw [hcall] at hframing
    have hfalse := hframing.2
    rw [h] at hfalse
    cases hfalse
  | ok r =>
    rw [hcall] at hframing
    rcases r with ⟨xs, s'⟩
    rcases hframing with ⟨hscan, _, _, hprogress⟩
    refine ⟨xs, s', rfl, by rw [← hscan, h], ?_⟩
    rcases hprogress with hstopped | hlt
    · exact Or.inl (scan_stopped hstopped h)
    · exact Or.inr hlt

theorem call_layout {s s' : State} {xs : List SExpr} {tree : Tree}
    {ts : List Tree} (h : Layout (tokensOf (tree :: ts)) s.text) (hcall : call s = .ok (xs, s')) :
    xs = [tree.toSExpr] ∧ s'.handled = s.handled ∧ Layout (tokensOf ts) s'.text := by
  rcases parseSExprs_tree (readsLists s.text.length) h hcall
    with ⟨s₁, hhandled, hlayout, hr⟩
  cases hr
  exact ⟨rfl, hhandled, hlayout⟩

theorem call_layout_nil {s s' : State} {xs : List SExpr}
    (h : Layout [] s.text) (hcall : call s = .ok (xs, s')) :
    xs = [] ∧ s'.handled = s.handled ∧ Layout [] s'.text := by
  rcases skipWs_spec s with ⟨hat, hhandled⟩
  rw [h.eq_nil] at hat
  have hc : (skipWs s).1 = nul := by
    by_contra hne
    cases (hat.cons hne).2.2
  unfold call at hcall
  rw [parseSExprs] at hcall
  simp only [hc] at hcall
  cases hcall
  refine ⟨rfl, hhandled, ?_⟩
  rw [hat.text]
  exact Layout.nil (by simp)

/-!
# All calls
-/

def answers : Nat -> List Tree -> List (List SExpr)
  | 0, _ => []
  | n + 1, [] => [] :: answers n []
  | n + 1, t :: ts => [t.toSExpr] :: answers n ts

theorem calls_layout {n : Nat} {ts : List Tree} {s s' : State}
    {rs : List (List SExpr)} (h : Layout (tokensOf ts) s.text) (hcalls : calls n s = .ok (rs, s')) :
    rs = answers n ts ∧ s'.handled = s.handled := by
  induction n generalizing ts s rs with
  | zero =>
    cases hcalls
    exact ⟨rfl, rfl⟩
  | succ n ih =>
    rw [calls] at hcalls
    cases hcall : call s with
    | error f =>
      rw [hcall] at hcalls
      cases hcalls
    | ok r =>
      rcases r with ⟨xs, s₁⟩
      rw [hcall] at hcalls
      dsimp only [bind, Except.bind] at hcalls
      cases hmore : calls n s₁ with
      | error f =>
        rw [hmore] at hcalls
        cases hcalls
      | ok r =>
        rw [hmore] at hcalls
        cases hcalls
        cases ts with
        | nil =>
          rcases call_layout_nil h hcall with ⟨rfl, hhandled, hlayout⟩
          have hnil : Layout (tokensOf []) _ := hlayout
          rcases ih hnil hmore with ⟨hrest, hh⟩
          exact ⟨by rw [hrest]; rfl, by rw [hh, hhandled]⟩
        | cons t ts =>
          rcases call_layout h hcall with ⟨rfl, hhandled, hlayout⟩
          rcases ih hlayout hmore with ⟨hrest, hh⟩
          exact ⟨by rw [hrest]; rfl, by rw [hh, hhandled]⟩

theorem calls_of_scan (n : Nat) {s : State} (h : scan .outside 0 s.text = true) :
    exists rs s', calls n s = .ok (rs, s') ∧ scan .outside 0 s'.text = true := by
  induction n generalizing s with
  | zero => exact ⟨[], s, rfl, h⟩
  | succ n ih =>
    rcases call_of_scan h with ⟨xs, s₁, hcall, hscan, _⟩
    rcases ih hscan with ⟨rs, s', hcalls, hscan'⟩
    refine ⟨xs :: rs, s', ?_, hscan'⟩
    rw [calls, hcall]
    dsimp only [bind, Except.bind]
    rw [hcalls]
    rfl

/-- The calls give the trees of every layout in order, and no parse error. -/
def Faithful (lines : List (List Char)) : Prop :=
  forall ts, Layout (tokensOf ts) (textOf lines) -> forall n,
    exists s, calls n (start lines) = .ok (answers n ts, s) ∧ s.handled = []

/-- Whatever was read, the next call returns, with every bound on the recursion
that is large enough, and has read something unless nothing is left. -/
def Progressing (lines : List (List Char)) : Prop :=
  forall n rs s, calls n (start lines) = .ok (rs, s) ->
    exists xs s', (forall fuel, s.text.length < fuel ->
      parseSExprs fuel true s = .ok (xs, s')) ∧
      (s.text = [] ∨ s'.text.length < s.text.length)

theorem faithful_of_scan {lines : List (List Char)}
    (h : scan .outside 0 (textOf lines) = true) : Faithful lines := by
  intro ts hlayout n
  rcases calls_of_scan (s := start lines) n h with ⟨rs, s, hcalls, _⟩
  rcases calls_layout (s := start lines) hlayout hcalls with ⟨rfl, hhandled⟩
  exact ⟨s, hcalls, hhandled⟩

theorem progressing_of_scan {lines : List (List Char)}
    (h : scan .outside 0 (textOf lines) = true) : Progressing lines := by
  intro n rs s hcalls
  rcases calls_of_scan (s := start lines) n h with ⟨rs', s', hcalls', hscan⟩
  rw [hcalls] at hcalls'
  cases hcalls'
  rcases call_of_scan hscan with ⟨xs, s', hcall, _, hprogress⟩
  refine ⟨xs, s', ?_, hprogress⟩
  intro fuel hfuel
  rw [parseSExprs_eq_call hfuel, hcall]

theorem calls_succ {n : Nat} {s s' s'' : State} {rs : List (List SExpr)}
    {xs : List SExpr} (hcalls : calls n s = .ok (rs, s')) (hcall : call s' = .ok (xs, s'')) :
    calls (n + 1) s = .ok (rs ++ [xs], s'') := by
  induction n generalizing s rs with
  | zero =>
    cases hcalls
    rw [calls, hcall]
    rfl
  | succ n ih =>
    rw [calls] at hcalls
    cases hfirst : call s with
    | error f =>
      rw [hfirst] at hcalls
      cases hcalls
    | ok r =>
      rcases r with ⟨ys, s₁⟩
      rw [hfirst] at hcalls
      dsimp only [bind, Except.bind] at hcalls
      cases hmore : calls n s₁ with
      | error f =>
        rw [hmore] at hcalls
        cases hcalls
      | ok r =>
        rw [hmore] at hcalls
        cases hcalls
        rw [calls, hfirst]
        dsimp only [bind, Except.bind]
        rw [ih hmore]
        rfl

theorem scan_of_progressing {lines : List (List Char)} (h : Progressing lines)
    (n : Nat) : exists rs s, calls n (start lines) = .ok (rs, s) ∧
      scan .outside 0 (textOf lines) = scan .outside 0 s.text ∧
      (s.text = [] ∨ s.text.length + n ≤ (textOf lines).length) := by
  induction n with
  | zero => exact ⟨[], start lines, rfl, rfl, Or.inr (Nat.le_refl _)⟩
  | succ n ih =>
    rcases ih with ⟨rs, s, hcalls, hscan, hshorter⟩
    rcases h n rs s hcalls with ⟨xs, s', hfuel, hprogress⟩
    have hcall : call s = .ok (xs, s') := hfuel _ (Nat.lt_succ_self _)
    have hframing := call_framing s
    rw [hcall] at hframing
    rcases hframing with ⟨hscan', hle, _, _⟩
    refine ⟨rs ++ [xs], s', calls_succ hcalls hcall, by rw [hscan, hscan'], ?_⟩
    have hnil : s.text = [] -> s'.text = [] := by
      intro hs
      rw [hs] at hle
      exact List.length_eq_zero_iff.mp (Nat.le_zero.mp hle)
    rcases hprogress with hs | hlt
    · exact Or.inl (hnil hs)
    · rcases hshorter with hs | hlength
      · exact Or.inl (hnil hs)
      · right
        omega

/-- The parser gives back every layout and never stands still exactly when the
scan passes the output. -/
theorem faithful_and_progressing_iff (lines : List (List Char)) :
    Faithful lines ∧ Progressing lines <-> scan .outside 0 (textOf lines) = true := by
  constructor
  · intro ⟨_, hprogressing⟩
    rcases scan_of_progressing hprogressing ((textOf lines).length + 1)
      with ⟨rs, s, _, hscan, hend | hlength⟩
    · rw [hscan, hend, scan_nil]
    · omega
  · intro h
    exact ⟨faithful_of_scan h, progressing_of_scan h⟩

/-- A closing parenthesis outside every list is never consumed, and an empty line
in a string ends the call with an exception. -/
theorem strayParen_and_emptyLine :
    ¬ Progressing [[')']] ∧ ¬ Faithful [['"'], [], ['"']] := by
  constructor
  · intro h
    rcases h 0 [] (start [[')']]) rfl with ⟨xs, s', hfuel, hprogress⟩
    have hcall := hfuel 3 (by decide)
    have hresult : parseSExprs 3 true (start [[')']]) =
        .ok ([], State.parseError ⟨[], some [')'], []⟩ "stray ')'") := by
      rfl
    rw [hresult] at hcall
    cases hcall
    rcases hprogress with hnil | hlt
    · cases hnil
    · exact absurd hlt (by decide)
  · intro h
    have hlayout : Layout
        (tokensOf [.atom (.string [.char none, .char none] trivial)])
        (textOf [['"'], [], ['"']]) :=
      @Layout.cons _ _ [] [none] (by simp) trivial
        (Layout.nil (by simp [isBlank]))
    rcases h _ hlayout 1 with ⟨s, hcalls, _⟩
    have hresult : calls 1 (start [['"'], [], ['"']]) =
        .error .indexOutOfRange := by
      simp [calls, call, start, parseSExprs, skipWs, skipLines, parseId,
        parseQuoted, nul, isWhiteSpace, bind, Except.bind]
    rw [hresult] at hcalls
    cases hcalls

end SMTLibProcess
end Boogie
