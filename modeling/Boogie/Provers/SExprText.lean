import Boogie.Provers.SExprParser

/-!
# The text that is still to be read

The buffer stands for one text, in which `none` is the end of a line. Skipping
white space and reading a token are described by what they take off this text.
-/

namespace Boogie
namespace SMTLibProcess

abbrev Text := List (Option Char)

def textOf (lines : List (List Char)) : Text :=
  lines.flatMap (fun line => line.map some ++ [none])

def textFrom (currLine : Option (List Char)) (lines : List (List Char)) : Text :=
  match currLine with
  | none => textOf lines
  | some line => line.map some ++ none :: textOf lines

def State.text (s : State) : Text :=
  textFrom s.currLine s.proverOutput

def isBlank : Option Char -> Bool
  | none => true
  | some c => isWhiteSpace c

@[simp] theorem textOf_nil : textOf [] = [] := rfl

@[simp] theorem textOf_cons (line : List Char) (lines : List (List Char)) :
    textOf (line :: lines) = line.map some ++ none :: textOf lines := by
  simp [textOf]

@[simp] theorem State.text_parseError (s : State) (msg : String) :
    (s.parseError msg).text = s.text := rfl

@[simp] theorem State.currLine_parseError (s : State) (msg : String) :
    (s.parseError msg).currLine = s.currLine := rfl

theorem State.text_shift {s : State} {c : Char} {line : List Char}
    (h : s.currLine = some (c :: line)) : s.text = some c :: s.shift.text := by
  simp [State.text, State.shift, textFrom, h]

/-!
# SkipWs
-/

inductive At (s : State) (c : Char) (t : Text) : Prop where
  | atEnd (nul : c = nul) (line : s.currLine = none) (text : s.text = [])
      (rest : t = [])
  | atChar (cs : List Char) (line : s.currLine = some (c :: cs))
      (space : isWhiteSpace c = false) (text : s.text = t)

theorem dropWhile_line (line : List Char) (t : Text) :
    (line.map some ++ none :: t).dropWhile isBlank = match line.dropWhile isWhiteSpace with
      | [] => t.dropWhile isBlank
      | c :: cs => some c :: (cs.map some ++ none :: t) := by
  induction line with
  | nil => rfl
  | cons c cs ih =>
    cases hc : isWhiteSpace c with
    | true =>
      rw [List.map_cons, List.cons_append,
        List.dropWhile_cons_of_pos (show isBlank (some c) = true from hc),
        List.dropWhile_cons_of_pos hc]
      exact ih
    | false =>
      rw [List.map_cons, List.cons_append,
        List.dropWhile_cons_of_neg (by simp [isBlank, hc]),
        List.dropWhile_cons_of_neg (by simp [hc])]

theorem head_dropWhile {line cs : List Char} {c : Char}
    (h : line.dropWhile isWhiteSpace = c :: cs) : isWhiteSpace c = false := by
  have hhead := List.head_dropWhile_not isWhiteSpace (l := line) (by simp [h])
  simpa [h] using hhead

theorem skipLines_spec (handled : List String) (lines : List (List Char)) :
    At (skipLines handled lines).2 (skipLines handled lines).1 ((textOf lines).dropWhile isBlank) ∧
      (skipLines handled lines).2.handled = handled := by
  induction lines with
  | nil => exact ⟨.atEnd rfl rfl rfl rfl, rfl⟩
  | cons line rest ih =>
    rw [skipLines, textOf_cons, dropWhile_line]
    cases hline : line.dropWhile isWhiteSpace with
    | nil => exact ih
    | cons c cs =>
      exact ⟨.atChar cs rfl (head_dropWhile hline) rfl, rfl⟩

theorem skipWs_spec (s : State) :
    At (skipWs s).2 (skipWs s).1 (s.text.dropWhile isBlank) ∧ (skipWs s).2.handled = s.handled := by
  unfold skipWs State.text textFrom
  cases hcurr : s.currLine with
  | none => exact skipLines_spec s.handled s.proverOutput
  | some line =>
    dsimp only
    rw [dropWhile_line]
    cases hline : line.dropWhile isWhiteSpace with
    | nil => exact skipLines_spec s.handled s.proverOutput
    | cons c cs =>
      exact ⟨.atChar cs rfl (head_dropWhile hline) rfl, rfl⟩

/-!
# Tokens in quotes
-/

/-- The characters of a token in quotes and the text after it, unless it has an
empty line. -/
def readQuoted (beg : Char) : Text -> Option (List Char × Text)
  | [] => some ([], [])
  | none :: none :: _ => none
  | none :: t => (readQuoted beg t).map (fun r => ('\n' :: r.1, r.2))
  | some c :: t =>
    if c = beg then some ([], t)
    else if c = '\\' ∧ t.head? = some (some '"') then
      (readQuoted beg t.tail).map (fun r => ('"' :: r.1, r.2))
    else (readQuoted beg t).map (fun r => (c :: r.1, r.2))
termination_by t => t.length
decreasing_by
  · simp only [List.length_cons]
    omega
  · simp only [List.length_tail, List.length_cons]
    omega
  · simp only [List.length_cons]
    omega

def quotedResult :
    Except Failure (List Char × Option (List Char) × List (List Char)) ->
      Option (List Char × Text)
  | .error _ => none
  | .ok (id, line, lines) => some (id, textFrom line lines)

theorem quotedResult_bind (c : Char)
    (x : Except Failure (List Char × Option (List Char) × List (List Char))) :
    quotedResult (do
      let (id, line, lines) ← x
      return (c :: id, line, lines)) =
      (quotedResult x).map (fun r => (c :: r.1, r.2)) := by
  cases x with
  | error f => rfl
  | ok r => rfl

theorem quotedResult_eq (beg : Char) (line : List Char) (lines : List (List Char)) :
    quotedResult (parseQuoted beg line lines) = readQuoted beg (textFrom (some line) lines) := by
  fun_induction parseQuoted beg line lines with
  | case1 => simp [quotedResult, textFrom, readQuoted]
  | case2 rest => simp [quotedResult, textFrom, readQuoted]
  | case3 c cs rest ih =>
    rw [quotedResult_bind, ih]
    simp [textFrom, readQuoted]
  | case4 cs rest => simp [quotedResult, textFrom, readQuoted]
  | case5 c cs rest hne hescape ih =>
    rw [quotedResult_bind, ih]
    cases cs with
    | nil => simp at hescape
    | cons d cs =>
      have hd : d = '"' := by simpa using hescape.2
      simp only [textFrom, List.map_cons, List.cons_append]
      rw [readQuoted, if_neg hne, if_pos ⟨hescape.1, by simp [hd]⟩]
      rfl
  | case6 c cs rest hne hescape ih =>
    rw [quotedResult_bind, ih]
    have hescape' : ¬ (c = '\\' ∧
        (cs.map some ++ none :: textOf rest).head? = some (some '"')) := by
      intro ⟨hc, hhead⟩
      cases cs with
      | nil => simp at hhead
      | cons d cs => exact hescape ⟨hc, by simpa using hhead⟩
    simp only [textFrom, List.map_cons, List.cons_append]
    rw [readQuoted, if_neg hne, if_neg hescape']

theorem parseQuoted_error {beg : Char} {line : List Char}
    {lines : List (List Char)} {f : Failure}
    (h : parseQuoted beg line lines = .error f) : f = .indexOutOfRange := by
  have hcons : forall (c : Char)
      (x : Except Failure (List Char × Option (List Char) × List (List Char))),
      (do
        let (id, line, lines) ← x
        return (c :: id, line, lines)) = .error f -> x = .error f := by
    intro c x hx
    cases x with
    | error g => exact hx
    | ok r => cases hx
  fun_induction parseQuoted beg line lines with
  | case1 => cases h
  | case2 rest =>
    cases h
    rfl
  | case3 c cs rest ih => exact ih (hcons _ _ h)
  | case4 => cases h
  | case5 c cs rest hne hescape ih => exact ih (hcons _ _ h)
  | case6 c cs rest hne hescape ih => exact ih (hcons _ _ h)

theorem map_cons_eq_some {c : Char} {x : Option (List Char × Text)}
    {id : List Char} {t : Text} (h : x.map (fun r => (c :: r.1, r.2)) = some (id, t)) :
    exists id', x = some (id', t) := by
  cases x with
  | none => cases h
  | some r =>
    cases h
    exact ⟨r.1, rfl⟩

theorem readQuoted_length {beg : Char} {t t' : Text} {id : List Char}
    (h : readQuoted beg t = some (id, t')) : t'.length ≤ t.length := by
  fun_induction readQuoted beg t generalizing id with
  | case1 =>
    cases h
    exact Nat.le_refl _
  | case2 => cases h
  | case3 t hne ih =>
    rcases map_cons_eq_some h with ⟨id', hid⟩
    exact Nat.le_succ_of_le (ih hid)
  | case4 t =>
    cases h
    exact Nat.le_succ _
  | case5 c t hne hescape ih =>
    rcases map_cons_eq_some h with ⟨id', hid⟩
    have hle := ih hid
    simp at hle ⊢
    omega
  | case6 c t hne hescape ih =>
    rcases map_cons_eq_some h with ⟨id', hid⟩
    exact Nat.le_succ_of_le (ih hid)

/-!
# ParseId
-/

def readSymbol : Text -> List Char × Text
  | some c :: t =>
    if isDelimiter c then ([], some c :: t)
    else (c :: (readSymbol t).1, (readSymbol t).2)
  | t => ([], t)

def readName : Text -> Option (List Char × Text)
  | some c :: t =>
    if c = '"' ∨ c = '|' then readQuoted c t
    else some (readSymbol (some c :: t))
  | t => some ([], t)

theorem readSymbol_line (line : List Char) (t : Text) :
    readSymbol (line.map some ++ none :: t) = (line.takeWhile (fun c => !isDelimiter c),
        (line.dropWhile (fun c => !isDelimiter c)).map some ++ none :: t) := by
  induction line with
  | nil => rfl
  | cons c cs ih =>
    rw [List.map_cons, List.cons_append, readSymbol]
    cases hc : isDelimiter c with
    | true => simp [hc]
    | false => simp [hc, ih]

theorem skipWs_of_char {s : State} {c : Char} {cs : List Char}
    (hline : s.currLine = some (c :: cs)) (hspace : isWhiteSpace c = false) :
    skipWs s = (c, s) := by
  rcases s with ⟨lines, currLine, handled⟩
  dsimp only at hline
  rw [hline]
  simp [skipWs, hspace]

theorem parseId_spec {s : State} {c : Char} {cs : List Char}
    (hline : s.currLine = some (c :: cs)) (hspace : isWhiteSpace c = false) :
    (parseId s = .error .indexOutOfRange ∧ readName s.text = none) ∨
      exists id s', parseId s = .ok (String.ofList id, s') ∧
        readName s.text = some (id, s'.text) ∧ s'.handled = s.handled := by
  have htext : s.text = some c :: textFrom (some cs) s.proverOutput := by
    simp [State.text, textFrom, hline]
  unfold parseId
  rw [skipWs_of_char hline hspace]
  simp only [hline, htext, readName]
  cases hquote : decide (c = '"' ∨ c = '|') with
  | true =>
    have hc := of_decide_eq_true hquote
    rw [if_pos hc, if_pos (by simpa using hc)]
    have heq := quotedResult_eq c cs s.proverOutput
    rw [List.tail_cons, ← heq]
    cases hr : parseQuoted c cs s.proverOutput with
    | error f =>
      left
      rw [parseQuoted_error hr]
      exact ⟨rfl, rfl⟩
    | ok r =>
      right
      exact ⟨r.1, ⟨r.2.2, r.2.1, s.handled⟩, rfl, rfl, rfl⟩
  | false =>
    have hc := of_decide_eq_false hquote
    rw [if_neg hc, if_neg (by simpa using hc)]
    right
    refine ⟨_, _, rfl, ?_, rfl⟩
    have hsymbol := readSymbol_line (c :: cs) (textOf s.proverOutput)
    exact congrArg some hsymbol

theorem readSymbol_length (t : Text) : (readSymbol t).2.length ≤ t.length := by
  fun_induction readSymbol t with
  | case1 c t hc => exact Nat.le_refl _
  | case2 c t hc ih => exact Nat.le_succ_of_le ih
  | case3 t => exact Nat.le_refl _

theorem readName_length {c : Char} {t t' : Text} {id : List Char}
    (hc : isDelimiter c = false) (h : readName (some c :: t) = some (id, t')) :
    t'.length ≤ t.length := by
  rw [readName] at h
  split at h
  next => exact readQuoted_length h
  next =>
    rw [readSymbol, if_neg (by simp [hc])] at h
    cases h
    exact readSymbol_length t

end SMTLibProcess
end Boogie
