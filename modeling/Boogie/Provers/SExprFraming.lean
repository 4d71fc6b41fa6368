import Boogie.Provers.SExprText

/-!
# Framing of the responses

A scan of the text finds the places at which the parser would not go on: a
closing parenthesis outside every list, a null character where a token would
start, and an empty line in a token in quotes. A call that returns leaves a text
with the same verdict, and has read a character unless it is at such a place.
-/

namespace Boogie
namespace SMTLibProcess

inductive Last where
  | other
  | backslash
  | lineEnd
deriving DecidableEq

inductive Mode where
  | outside
  | symbol
  | quoted (beg : Char) (last : Last)

/-- Whether no such place comes in the text, with `depth` open lists. -/
def scan : Mode -> Nat -> Text -> Bool
  | _, _, [] => true
  | .quoted beg last, depth, none :: t =>
    last ≠ .lineEnd && scan (.quoted beg .lineEnd) depth t
  | .quoted beg last, depth, some c :: t =>
    if c = beg ∧ ¬ (last = .backslash ∧ c = '"') then scan .outside depth t
    else if c = '\\' then scan (.quoted beg .backslash) depth t
    else scan (.quoted beg .other) depth t
  | _, depth, none :: t => scan .outside depth t
  | mode, depth, some c :: t =>
    if isWhiteSpace c then scan .outside depth t
    else if c = '(' then scan .outside (depth + 1) t
    else if c = ')' then depth ≠ 0 && scan .outside (depth - 1) t
    else
      match mode with
      | .outside =>
        if c = nul then false
        else if c = '"' ∨ c = '|' then scan (.quoted c .other) depth t
        else scan .symbol depth t
      | _ => scan .symbol depth t

@[simp] theorem scan_nil (mode : Mode) (depth : Nat) :
    scan mode depth [] = true := by
  cases mode <;> rfl

theorem scan_blank (depth : Nat) (t : Text) :
    scan .outside depth (t.dropWhile isBlank) = scan .outside depth t := by
  induction t with
  | nil => rfl
  | cons x t ih =>
    cases hx : isBlank x with
    | false => rw [List.dropWhile_cons_of_neg (by simp [hx])]
    | true =>
      rw [List.dropWhile_cons_of_pos hx, ih]
      cases x with
      | none => simp [scan]
      | some c =>
        have hc : isWhiteSpace c = true := hx
        simp [scan, hc]

theorem scan_readSymbol (depth : Nat) (t : Text) :
    scan .symbol depth t = scan .outside depth (readSymbol t).2 := by
  fun_induction readSymbol t with
  | case1 c t hc =>
    simp only [isDelimiter, Bool.or_eq_true, decide_eq_true_eq] at hc
    rw [scan, scan]
    · split
      next => rfl
      next hspace =>
        split
        next => rfl
        next hopen =>
          split
          next => rfl
          next hclose => simp_all
    · simp
    · simp
  | case2 c t hc ih =>
    simp only [isDelimiter, Bool.not_eq_true, Bool.or_eq_false_iff,
      decide_eq_false_iff_not] at hc
    rw [scan, if_neg (by simp [hc.1.1]), if_neg hc.1.2, if_neg hc.2]
    · exact ih
    · simp
    · simp
  | case3 t hne =>
    cases t with
    | nil => simp
    | cons x t =>
      cases x with
      | none => simp [scan]
      | some c => exact absurd rfl (hne c t)

theorem scan_readQuoted (beg : Char) (depth : Nat) (t : Text) (last : Last)
    (hbackslash : last = .backslash -> t.head? ≠ some (some '"'))
    (hlineEnd : last = .lineEnd -> t.head? ≠ some none) :
    scan (.quoted beg last) depth t = match readQuoted beg t with
      | none => false
      | some r => scan .outside depth r.2 := by
  have hmap : forall (c : Char) (x : Option (List Char × Text)),
      (match x.map (fun r => (c :: r.1, r.2)) with
        | none => false
        | some r => scan .outside depth r.2) =
      match x with
        | none => false
        | some r => scan .outside depth r.2 := by
    intro c x
    cases x with
    | none => rfl
    | some r => rfl
  fun_induction readQuoted beg t generalizing last with
  | case1 => simp
  | case2 t =>
    simp [scan]
  | case3 t hne ih =>
    have hlast : last ≠ .lineEnd := fun h => hlineEnd h rfl
    rw [hmap, ← ih .lineEnd (by simp) (by
      intro _ hhead
      cases t with
      | nil => simp at hhead
      | cons x t =>
        simp at hhead
        rw [hhead] at hne
        exact hne t rfl)]
    simp [scan, hlast]
  | case4 t =>
    have hlast : ¬ (last = .backslash ∧ beg = '"') :=
      fun h => hbackslash h.1 (by simp [h.2])
    rw [scan, if_pos ⟨rfl, hlast⟩]
  | case5 c t hne hescape ih =>
    rw [hmap, scan, if_neg (fun h => hne h.1), if_pos hescape.1]
    cases t with
    | nil => simp at hescape
    | cons x t =>
      have hx : x = some '"' := by simpa using hescape.2
      rw [hx, scan, if_neg (by simp), if_neg (by decide)]
      exact ih .other (by simp) (by simp)
  | case6 c t hne hescape ih =>
    rw [hmap, scan, if_neg (fun h => hne h.1)]
    split
    next hc => exact ih .backslash (fun _ h => hescape ⟨hc, h⟩) (by simp)
    next => exact ih .other (by simp) (by simp)

theorem scan_readName {c : Char} {t : Text} (depth : Nat)
    (hc : isDelimiter c = false) (hnul : c ≠ nul) :
    scan .outside depth (some c :: t) = match readName (some c :: t) with
      | none => false
      | some r => scan .outside depth r.2 := by
  simp only [isDelimiter, Bool.or_eq_false_iff, decide_eq_false_iff_not] at hc
  rw [scan, if_neg (by simp [hc.1.1]), if_neg hc.1.2, if_neg hc.2, readName]
  simp only [if_neg hnul]
  split
  next hquote => exact scan_readQuoted c depth t .other (by simp) (by simp)
  next hquote =>
    rw [readSymbol, if_neg (by simp [isDelimiter, hc])]
    exact scan_readSymbol depth t

/-!
# Calls
-/

def Blocked (t : Text) : Prop :=
  exists c t', t = some c :: t' ∧ (c = ')' ∨ c = nul)

def Stopped (t : Text) : Prop :=
  t = [] ∨ Blocked t

theorem At.text {s : State} {c : Char} {t : Text} (h : At s c t) : s.text = t := by
  cases h with
  | atEnd hnul hline htext hrest => rw [htext, hrest]
  | atChar cs hline hspace htext => exact htext

theorem At.cons {s : State} {c : Char} {t : Text} (h : At s c t) (hc : c ≠ nul) :
    isWhiteSpace c = false ∧ (exists cs, s.currLine = some (c :: cs)) ∧
      t = some c :: s.shift.text := by
  cases h with
  | atEnd hnul hline htext hrest => exact absurd hnul hc
  | atChar cs hline hspace htext =>
    refine ⟨hspace, ⟨cs, hline⟩, ?_⟩
    rw [← htext]
    exact State.text_shift hline

theorem At.stopped {s : State} {c : Char} {t : Text} (h : At s c t)
    (hc : c = nul ∨ c = ')') : Stopped t := by
  cases h with
  | atEnd hnul hline htext hrest => exact Or.inl hrest
  | atChar cs hline hspace htext =>
    right
    have htext' := State.text_shift hline
    rw [htext] at htext'
    exact ⟨c, s.shift.text, htext', hc.symm⟩

theorem At.scan_nul {s : State} {t : Text} (h : At s nul t) (d d' : Nat) :
    scan .outside d t = scan .outside d' t := by
  cases h with
  | atEnd hnul hline htext hrest => rw [hrest, scan_nil, scan_nil]
  | atChar cs hline hspace htext =>
    rw [← htext, State.text_shift hline]
    simp [scan, nul, isWhiteSpace]

theorem length_dropWhile (t : Text) :
    t.dropWhile isBlank = t ∨ (t.dropWhile isBlank).length < t.length := by
  cases t with
  | nil => exact Or.inl rfl
  | cons x t =>
    cases hx : isBlank x with
    | false => exact Or.inl (List.dropWhile_cons_of_neg (by simp [hx]))
    | true =>
      right
      rw [List.dropWhile_cons_of_pos hx]
      exact Nat.lt_succ_of_le (List.dropWhile_suffix isBlank).length_le

theorem Stopped.dropWhile {t : Text} (h : Stopped t) :
    t.dropWhile isBlank = t := by
  rcases h with rfl | ⟨c, t', rfl, rfl | rfl⟩
  · rfl
  · exact List.dropWhile_cons_of_neg (by decide)
  · exact List.dropWhile_cons_of_neg (by decide)

def Framing (top : Bool) (s : State) (depth : Nat) :
    Except Failure (List SExpr × State) -> Prop
  | .error f => f = .indexOutOfRange ∧ scan .outside depth s.text = false
  | .ok (_, s') =>
    scan .outside depth s.text = scan .outside depth s'.text ∧
      s'.text.length ≤ s.text.length ∧ (top = false -> Stopped s'.text) ∧
      (Stopped s.text ∨ s'.text.length < s.text.length)

theorem parseId_framing {s : State} {c : Char} {t : Text} (h : At s c t)
    (hc : c ≠ nul) (hopen : c ≠ '(') (depth : Nat) :
    (parseId s = .error .indexOutOfRange ∧ scan .outside depth t = false) ∨
      exists id s', parseId s = .ok (id, s') ∧ scan .outside depth t = scan .outside depth s'.text ∧
        s'.text.length ≤ t.length ∧ (c ≠ ')' -> s'.text.length < t.length) := by
  rcases h.cons hc with ⟨hspace, ⟨cs, hline⟩, ht⟩
  have hname := parseId_spec hline hspace
  rw [h.text, ht] at hname
  rw [ht]
  cases hclose : decide (c = ')') with
  | true =>
    have heq := of_decide_eq_true hclose
    rw [heq] at hname ⊢
    rcases hname with ⟨_, hnone⟩ | ⟨id, s', hok, hsome, _⟩
    · simp [readName, readSymbol, isDelimiter] at hnone
    · right
      have htext : s'.text = some ')' :: s.shift.text := by
        simp [readName, readSymbol, isDelimiter] at hsome
        exact hsome.2.symm
      exact ⟨_, s', hok, by rw [htext], Nat.le_of_eq (by rw [htext]),
        fun hne => absurd rfl hne⟩
  | false =>
    have hne := of_decide_eq_false hclose
    have hdelimiter : isDelimiter c = false := by
      simp [isDelimiter, hspace, hopen, hne]
    have hscan := scan_readName (t := s.shift.text) depth hdelimiter hc
    rcases hname with ⟨herror, hnone⟩ | ⟨id, s', hok, hsome, _⟩
    · left
      rw [hnone] at hscan
      exact ⟨herror, hscan⟩
    · right
      rw [hsome] at hscan
      have hlength := readName_length hdelimiter hsome
      exact ⟨_, s', hok, hscan, Nat.le_succ_of_le hlength,
        fun _ => Nat.lt_succ_of_le hlength⟩

theorem closeList_framing {s : State} (h : Stopped s.text) (id : String) (depth : Nat) :
    scan .outside (depth + 1) s.text = scan .outside depth (closeList id s).text ∧
      (closeList id s).text.length ≤ s.text.length := by
  have hat := (skipWs_spec s).1
  rw [h.dropWhile] at hat
  unfold closeList
  dsimp only
  split
  next hc =>
    rw [hc] at hat
    have ht := (hat.cons (by decide)).2.2
    rw [ht]
    refine ⟨?_, Nat.le_succ _⟩
    simp [scan, isWhiteSpace]
  next hc =>
    rw [State.text_parseError, hat.text]
    refine ⟨?_, Nat.le_refl _⟩
    have hnul : (skipWs s).1 = nul := by
      by_contra hne
      rcases h with hnil | ⟨c, t', ht, hcase⟩
      · have hcons := (hat.cons hne).2.2
        rw [hnil] at hcons
        cases hcons
      · have hcons := (hat.cons hne).2.2
        rw [ht] at hcons
        cases hcons
        rcases hcase with hclose | hzero
        · exact hc hclose
        · exact hne hzero
    rw [hnul] at hat
    exact hat.scan_nul _ _

theorem parseHead_framing {s : State} {c : Char} {t : Text} (h : At s c t)
    (hc : c ≠ nul) (depth : Nat) :
    (parseHead c s = .error .indexOutOfRange ∧ scan .outside depth t = false) ∨
      exists id s', parseHead c s = .ok (id, s') ∧
        scan .outside depth t = scan .outside depth s'.text ∧ s'.text.length ≤ t.length := by
  unfold parseHead
  split
  next =>
    right
    exact ⟨"", s, rfl, by rw [h.text], Nat.le_of_eq (by rw [h.text])⟩
  next hopen =>
    rcases parseId_framing h hc hopen depth with herror | ⟨id, s', hok, hscan, hle, _⟩
    · exact Or.inl herror
    · exact Or.inr ⟨id, s', hok, hscan, hle⟩

theorem parseSExprs_framing (fuel : Nat) (top : Bool) (s : State)
    (hfuel : s.text.length < fuel) (depth : Nat) :
    Framing top s depth (parseSExprs fuel top s) := by
  induction fuel generalizing top s depth with
  | zero => omega
  | succ fuel ih =>
    have hat := (skipWs_spec s).1
    have hscan := scan_blank depth s.text
    have hdrop := length_dropWhile s.text
    generalize s.text.dropWhile isBlank = t at hat hscan hdrop
    have hle : t.length ≤ s.text.length := by
      rcases hdrop with heq | hlt
      · exact Nat.le_of_eq (by rw [heq])
      · omega
    rw [parseSExprs]
    generalize skipWs s = r at hat
    rcases r with ⟨c, s₁⟩
    dsimp only at hat ⊢
    -- Nothing is read at the end, at a null character or behind a list.
    have hstop : Stopped t -> forall s', s'.text = t ->
        Framing top s depth (.ok ([], s')) := by
      intro hstopped s' hs'
      refine ⟨by rw [hs', hscan], by rw [hs']; exact hle,
        fun _ => by rw [hs']; exact hstopped, ?_⟩
      rcases hdrop with heq | hlt
      · rw [heq] at hstopped
        exact Or.inl hstopped
      · rw [hs']
        exact Or.inr hlt
    have hnext : forall x s', s'.text.length < s.text.length ->
        scan .outside depth s.text = scan .outside depth s'.text ->
        Framing top s depth (if top then .ok ([x], s')
          else (parseSExprs fuel false s').bind
            (fun r => .ok (x :: r.1, r.2))) := by
      intro x s' hlt hscan'
      split
      next htop =>
        refine ⟨hscan', Nat.le_of_lt hlt, ?_, Or.inr hlt⟩
        intro hfalse
        rw [hfalse] at htop
        cases htop
      next htop =>
        have hmore := ih false s' (by omega) depth
        cases hr : parseSExprs fuel false s' with
        | error f =>
          rw [hr] at hmore
          exact ⟨hmore.1, by rw [hscan', hmore.2]⟩
        | ok r =>
          rw [hr] at hmore
          rcases hmore with ⟨hscan'', hle'', hstopped, _⟩
          exact ⟨by rw [hscan', hscan''], by omega,
            fun _ => hstopped rfl, Or.inr (by omega)⟩
    split
    next hc => exact hstop (hat.stopped (Or.inl hc)) s₁ hat.text
    next hc =>
      split
      next hclose =>
        refine hstop (hat.stopped (Or.inr hclose)) _ ?_
        split
        next => exact hat.text
        next => exact hat.text
      next hclose =>
        split
        next hopen =>
          have ht := (hat.cons hc).2.2
          rw [hopen] at ht
          have hinner : scan .outside depth t =
              scan .outside (depth + 1) s₁.shift.text := by
            rw [ht]
            simp [scan, isWhiteSpace]
          have hlt : s₁.shift.text.length < t.length := by
            rw [ht]
            exact Nat.lt_succ_self _
          have hat₂ := (skipWs_spec s₁.shift).1
          have hscan₂ := scan_blank (depth + 1) s₁.shift.text
          have hle₂ := (List.dropWhile_suffix
            (l := s₁.shift.text) isBlank).length_le
          generalize s₁.shift.text.dropWhile isBlank = t₂ at hat₂ hscan₂ hle₂
          generalize skipWs s₁.shift = r at hat₂
          rcases r with ⟨c₂, s₂⟩
          dsimp only at hat₂ ⊢
          split
          next hc₂ =>
            rw [hc₂] at hat₂
            refine ⟨?_, ?_, fun _ => ?_, Or.inr ?_⟩
            · rw [State.text_parseError, hat₂.text, ← hscan, hinner, ← hscan₂]
              exact hat₂.scan_nul _ _
            · rw [State.text_parseError, hat₂.text]
              omega
            · rw [State.text_parseError, hat₂.text]
              exact hat₂.stopped (Or.inl rfl)
            · rw [State.text_parseError, hat₂.text]
              omega
          next hc₂ =>
            rcases parseHead_framing hat₂ hc₂ (depth + 1)
              with ⟨herror, hfalse⟩ | ⟨id, s₃, hok, hscan₃, hle₃⟩
            · rw [herror]
              exact ⟨rfl, by rw [← hscan, hinner, ← hscan₂, hfalse]⟩
            · rw [hok]
              dsimp only [bind, Except.bind]
              have hargs := ih false s₃ (by omega) (depth + 1)
              cases hr : parseSExprs fuel false s₃ with
              | error f =>
                rw [hr] at hargs
                refine ⟨hargs.1, ?_⟩
                rw [← hscan, hinner, ← hscan₂, hscan₃, hargs.2]
              | ok r =>
                rw [hr] at hargs
                rcases r with ⟨args, s₄⟩
                rcases hargs with ⟨hscan₄, hle₄, hstopped, _⟩
                rcases closeList_framing (hstopped rfl) id depth
                  with ⟨hscan₅, hle₅⟩
                refine hnext (.mk id args) (closeList id s₄) (by omega) ?_
                rw [← hscan, hinner, ← hscan₂, hscan₃, hscan₄, hscan₅]
        next hopen =>
          rcases parseId_framing hat hc hopen depth
            with ⟨herror, hfalse⟩ | ⟨id, s₂, hok, hscan₂, _, hlt⟩
          · rw [herror]
            exact ⟨rfl, by rw [← hscan, hfalse]⟩
          · rw [hok]
            have hlt₂ := hlt hclose
            exact hnext (.mk id []) s₂ (by omega) (by rw [← hscan, hscan₂])

end SMTLibProcess
end Boogie
