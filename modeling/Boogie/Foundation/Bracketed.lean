import Mathlib.Data.List.Basic

/-!
# Expressions with brackets and operators of one precedence

A text is a value, a text in brackets, or two texts with an operator between
them.  Its tree groups the operators to the left.  A machine reads the tokens of
a text one by one; it accepts exactly the texts with a tree, and it comes as far
as a beginning of a text goes.
-/

namespace Bracketed

variable {A B V O : Type}

inductive Tree (V O : Type) where
  | leaf (value : V)
  | node (op : O) (left right : Tree V O)
deriving DecidableEq, Repr

structure Alphabet (A V O : Type) where
  left : A
  right : A
  op : O -> A
  Writes : V -> List A -> Prop

/-!
# The grammar
-/

inductive Derives (α : Alphabet A V O) : List A -> Prop where
  | value {v : V} {s : List A} (h : α.Writes v s) : Derives α s
  | bracket {s : List A} (h : Derives α s) :
      Derives α (α.left :: s ++ [α.right])
  | apply {o : O} {l r : List A} (hl : Derives α l) (hr : Derives α r) :
      Derives α (l ++ α.op o :: r)

inductive Form where
  | operand
  | text

inductive Groups (α : Alphabet A V O) : Form -> List A -> Tree V O -> Prop where
  | value {v : V} {s : List A} (h : α.Writes v s) :
      Groups α .operand s (.leaf v)
  | bracket {s : List A} {t : Tree V O} (h : Groups α .text s t) :
      Groups α .operand (α.left :: s ++ [α.right]) t
  | operand {s : List A} {t : Tree V O} (h : Groups α .operand s t) :
      Groups α .text s t
  | apply {o : O} {l r : List A} {t u : Tree V O} (hl : Groups α .text l t)
      (hr : Groups α .operand r u) :
      Groups α .text (l ++ α.op o :: r) (.node o t u)

section Grammar

variable {α : Alphabet A V O} {form : Form} {s l r : List A} {t u : Tree V O}
  {o : O}

theorem Groups.derives (h : Groups α form s t) : Derives α s := by
  induction h with
  | value h => exact .value h
  | bracket _ ih => exact .bracket ih
  | operand _ ih => exact ih
  | apply _ _ ihl ihr => exact .apply ihl ihr

theorem Groups.append (hr : Groups α .text r u) (hl : Groups α .text l t) :
    exists w, Groups α .text (l ++ α.op o :: r) w := by
  generalize hform : Form.text = form at hr
  induction hr with
  | value h => cases hform
  | bracket h ih => cases hform
  | operand h ih => exact ⟨_, .apply hl h⟩
  | apply hr₁ hr₂ ih₁ ih₂ =>
    rename_i o' r₁ r₂ u₁ u₂
    rcases ih₁ hform with ⟨w, hw⟩
    exists .node o' w u₂
    have happly := Groups.apply (o := o') hw hr₂
    rwa [List.append_assoc, List.cons_append] at happly

theorem Derives.groups (h : Derives α s) : exists t, Groups α .text s t := by
  induction h with
  | value h => exact ⟨_, .operand (.value h)⟩
  | bracket h ih =>
    rcases ih with ⟨t, ht⟩
    exact ⟨t, .operand (.bracket ht)⟩
  | apply hl hr ihl ihr =>
    rcases ihl with ⟨t, ht⟩
    rcases ihr with ⟨u, hu⟩
    exact hu.append ht

theorem derives_iff_groups : Derives α s <-> exists t, Groups α .text s t := by
  constructor
  · exact Derives.groups
  · rintro ⟨t, ht⟩
    exact ht.derives

end Grammar

/-!
# Translations
-/

/-- `f` takes the texts of one alphabet to the texts of another one. -/
structure Translates (f : List A -> List B) (α : Alphabet A V O)
    (β : Alphabet B V O) : Prop where
  writes {v : V} {s : List A} : α.Writes v s -> β.Writes v (f s)
  bracket {s : List A} :
    f (α.left :: s ++ [α.right]) = β.left :: f s ++ [β.right]
  apply {o : O} {l r : List A} : f (l ++ α.op o :: r) = f l ++ β.op o :: f r

section Translation

variable {α : Alphabet A V O} {β : Alphabet B V O} {f : List A -> List B}
  {form : Form} {s : List A} {t : Tree V O}

theorem Groups.map (hf : Translates f α β) (h : Groups α form s t) :
    Groups β form (f s) t := by
  induction h with
  | value h => exact .value (hf.writes h)
  | bracket _ ih =>
    rw [hf.bracket]
    exact .bracket ih
  | operand _ ih => exact .operand ih
  | apply _ _ ihl ihr =>
    rw [hf.apply]
    exact .apply ihl ihr

end Translation

/-!
# The machine
-/

inductive Token (V O : Type) where
  | left
  | right
  | op (o : O)
  | value (v : V)
  | invalid
deriving DecidableEq, Repr

def tokens (V O : Type) : Alphabet (Token V O) V O where
  left := .left
  right := .right
  op := .op
  Writes v s := s = [.value v]

abbrev Pending (V O : Type) := Option (Tree V O × O)

/-- The machine has still to read an operand, or has just read one.  It keeps
what was in front of every bracket that is still open. -/
inductive Config (V O : Type) where
  | expect (pending : Pending V O) (enclosing : List (Pending V O))
  | found (t : Tree V O) (enclosing : List (Pending V O))

def start : Config V O :=
  .expect none []

def combine (pending : Pending V O) (t : Tree V O) : Tree V O :=
  match pending with
  | none => t
  | some (l, o) => .node o l t

def advance : Config V O -> Token V O -> Option (Config V O)
  | .expect p enclosing, .left => some (.expect none (p :: enclosing))
  | .expect p enclosing, .value v => some (.found (combine p (.leaf v)) enclosing)
  | .found t enclosing, .op o => some (.expect (some (t, o)) enclosing)
  | .found t (p :: enclosing), .right => some (.found (combine p t) enclosing)
  | _, _ => none

def reads (c : Config V O) (ts : List (Token V O)) : Option (Config V O) :=
  ts.foldlM advance c

inductive Verdict (V O : Type) where
  | accepts (t : Tree V O)
  | meetsInvalid
  | refuses
deriving DecidableEq

def Config.verdict : Config V O -> Verdict V O
  | .found t [] => .accepts t
  | _ => .refuses

def judge : Config V O -> List (Token V O) -> Verdict V O
  | c, [] => c.verdict
  | _, .invalid :: _ => .meetsInvalid
  | c, token :: rest =>
    match advance c token with
    | some c => judge c rest
    | none => .refuses

section Machine

variable {c c' : Config V O} {p : Pending V O} {enclosing : List (Pending V O)}
  {ts us : List (Token V O)} {token : Token V O} {t : Tree V O} {form : Form}

@[simp] theorem reads_nil : reads c [] = some c := rfl

theorem reads_cons : reads c (token :: ts) = (advance c token).bind (fun c => reads c ts) := rfl

theorem reads_append : reads c (ts ++ us) = (reads c ts).bind (fun c => reads c us) :=
  List.foldlM_append

theorem Groups.reads (h : Groups (tokens V O) form ts t) :
    match form with
    | .operand => forall p enclosing, reads (.expect p enclosing) ts =
        some (.found (combine p t) enclosing)
    | .text => forall enclosing, reads (.expect none enclosing) ts =
        some (.found t enclosing) := by
  induction h with
  | value h =>
    intro p enclosing
    cases h
    rfl
  | bracket h ih =>
    intro p enclosing
    rw [List.cons_append, reads_cons, tokens, advance, Option.bind_some,
      reads_append, ih]
    rfl
  | operand h ih =>
    intro enclosing
    exact ih none enclosing
  | apply hl hr ihl ihr =>
    intro enclosing
    rw [reads_append, ihl, Option.bind_some, reads_cons, tokens, advance,
      Option.bind_some, ihr]
    rfl

/-!
# What was read
-/

def PendingText : Pending V O -> List (Token V O) -> Prop
  | none, ts => ts = []
  | some (t, o), ts =>
    exists l, Groups (tokens V O) .text l t ∧ ts = l ++ [.op o]

def EnclosingText : List (Pending V O) -> List (Token V O) -> Prop
  | [], ts => ts = []
  | p :: enclosing, ts => exists us vs,
      EnclosingText enclosing us ∧ PendingText p vs ∧ ts = us ++ (vs ++ [.left])

def Consumed : Config V O -> List (Token V O) -> Prop
  | .expect p enclosing, ts => exists us vs,
      EnclosingText enclosing us ∧ PendingText p vs ∧ ts = us ++ vs
  | .found t enclosing, ts => exists us vs,
      EnclosingText enclosing us ∧ Groups (tokens V O) .text vs t ∧ ts = us ++ vs

theorem PendingText.combine (hp : PendingText p ts) (h : Groups (tokens V O) .operand us t) :
    Groups (tokens V O) .text (ts ++ us) (combine p t) := by
  cases p with
  | none =>
    cases hp
    exact .operand h
  | some pair =>
    rcases hp with ⟨l, hl, rfl⟩
    have happly := Groups.apply (o := pair.2) hl h
    rwa [List.append_assoc, List.singleton_append]

theorem Consumed.advance (h : Consumed c ts) (hc : advance c token = some c') :
    Consumed c' (ts ++ [token]) := by
  cases c with
  | expect p enclosing =>
    rcases h with ⟨us, vs, hus, hvs, rfl⟩
    cases token with
    | left =>
      cases hc
      exists us ++ (vs ++ [.left]), []
      constructor
      · exact ⟨us, vs, hus, hvs, rfl⟩
      · exact ⟨rfl, by simp⟩
    | value v =>
      cases hc
      exists us, vs ++ [.value v]
      constructor
      · exact hus
      · exact ⟨hvs.combine (.value rfl), List.append_assoc _ _ _⟩
    | right => cases hc
    | op o => cases hc
    | invalid => cases hc
  | found t enclosing =>
    rcases h with ⟨us, vs, hus, hvs, rfl⟩
    cases token with
    | op o =>
      cases hc
      exact ⟨us, vs ++ [.op o], hus, ⟨vs, hvs, rfl⟩, List.append_assoc _ _ _⟩
    | right =>
      cases enclosing with
      | nil => cases hc
      | cons p enclosing =>
        cases hc
        rcases hus with ⟨us, ws, hus, hws, rfl⟩
        exists us, ws ++ (.left :: vs ++ [.right])
        constructor
        · exact hus
        · exact ⟨hws.combine (.bracket hvs), by simp⟩
    | left => cases hc
    | value v => cases hc
    | invalid => cases hc

theorem consumed_of_reads (hc : Consumed c ts) (h : reads c us = some c') :
    Consumed c' (ts ++ us) := by
  induction us generalizing c ts with
  | nil =>
    cases h
    rwa [List.append_nil]
  | cons token us ih =>
    rw [reads_cons] at h
    rcases Option.bind_eq_some_iff.mp h with ⟨d, hd, hrest⟩
    have hconsumed := ih (hc.advance hd) hrest
    rwa [List.append_assoc, List.singleton_append] at hconsumed

theorem consumed_of_reads_start (h : reads start ts = some c) :
    Consumed c ts :=
  have hstart : Consumed (start : Config V O) [] := ⟨[], [], rfl, rfl, rfl⟩
  consumed_of_reads hstart h

theorem reads_start_iff :
    reads start ts = some (.found t []) <-> Groups (tokens V O) .text ts t := by
  constructor
  · intro h
    rcases consumed_of_reads_start h with ⟨us, vs, hus, hvs, rfl⟩
    cases hus
    exact hvs
  · intro h
    exact h.reads []

theorem exists_derives_of_enclosing (hus : EnclosingText enclosing us)
    (h : Groups (tokens V O) .text ts t) :
    exists n, Derives (tokens V O) (us ++ (ts ++ List.replicate n .right)) := by
  induction enclosing generalizing us ts t with
  | nil =>
    cases hus
    exists 0
    rw [List.replicate_zero, List.append_nil]
    exact h.derives
  | cons p enclosing ih =>
    rcases hus with ⟨us, vs, hus, hvs, rfl⟩
    rcases ih hus (hvs.combine (.bracket h)) with ⟨n, hn⟩
    exists n + 1
    simpa [tokens, List.replicate_succ] using hn

theorem exists_derives_of_reads (v : V) (h : reads start ts = some c) :
    exists n, Derives (tokens V O) (ts ++ List.replicate n .right) ∨
      Derives (tokens V O) (ts ++ .value v :: List.replicate n .right) := by
  have hconsumed := consumed_of_reads_start h
  cases c with
  | expect p enclosing =>
    rcases hconsumed with ⟨us, vs, hus, hvs, rfl⟩
    rcases exists_derives_of_enclosing hus (hvs.combine (.value (v := v) rfl))
      with ⟨n, hn⟩
    exists n
    right
    simpa using hn
  | found t enclosing =>
    rcases hconsumed with ⟨us, vs, hus, hvs, rfl⟩
    rcases exists_derives_of_enclosing hus hvs with ⟨n, hn⟩
    exists n
    left
    rwa [List.append_assoc]

theorem exists_reads_of_derives (h : Derives (tokens V O) (ts ++ us)) :
    exists c, reads start ts = some c := by
  rcases h.groups with ⟨t, ht⟩
  have hreads := reads_start_iff.mpr ht
  rw [reads_append] at hreads
  rcases Option.bind_eq_some_iff.mp hreads with ⟨c, hc, -⟩
  exact ⟨c, hc⟩

/-!
# The verdict
-/

theorem Config.eq_found_of_verdict (h : c.verdict = .accepts t) :
    c = .found t [] := by
  cases c with
  | expect p enclosing => cases h
  | found u enclosing =>
    cases enclosing with
    | nil =>
      cases h
      rfl
    | cons p enclosing => cases h

theorem Config.verdict_ne_meetsInvalid : c.verdict ≠ .meetsInvalid := by
  unfold Config.verdict
  split
  · nofun
  · nofun

@[simp] theorem judge_invalid :
    judge c (.invalid :: ts) = .meetsInvalid := rfl

theorem judge_cons (h : token ≠ .invalid) : judge c (token :: ts) = match advance c token with
    | some c => judge c ts
    | none => .refuses := by
  cases token with
  | invalid => exact absurd rfl h
  | left => rfl
  | right => rfl
  | op o => rfl
  | value v => rfl

theorem ne_invalid_of_advance (h : advance c token = some c') :
    token ≠ .invalid := by
  rintro rfl
  cases c <;> cases h

theorem judge_append (h : reads c ts = some c') :
    judge c (ts ++ us) = judge c' us := by
  induction ts generalizing c with
  | nil =>
    cases h
    rfl
  | cons token ts ih =>
    rw [reads_cons] at h
    rcases Option.bind_eq_some_iff.mp h with ⟨d, hd, hrest⟩
    rw [List.cons_append, judge_cons (ne_invalid_of_advance hd), hd]
    exact ih hrest

theorem reads_of_judge (h : judge c ts = .accepts t) :
    reads c ts = some (.found t []) := by
  induction ts generalizing c with
  | nil =>
    cases Config.eq_found_of_verdict h
    rfl
  | cons token ts ih =>
    by_cases hinvalid : token = .invalid
    · subst hinvalid
      cases h
    rw [judge_cons hinvalid] at h
    rw [reads_cons]
    cases hadvance : advance c token with
    | none =>
      rw [hadvance] at h
      cases h
    | some d =>
      rw [hadvance] at h
      exact ih h

theorem exists_of_judge (h : judge c ts = .meetsInvalid) :
    exists us vs d, ts = us ++ .invalid :: vs ∧ reads c us = some d := by
  induction ts generalizing c with
  | nil => exact absurd h Config.verdict_ne_meetsInvalid
  | cons token ts ih =>
    by_cases hinvalid : token = .invalid
    · subst hinvalid
      exact ⟨[], ts, c, rfl, rfl⟩
    rw [judge_cons hinvalid] at h
    cases hadvance : advance c token with
    | none =>
      rw [hadvance] at h
      cases h
    | some d =>
      rw [hadvance] at h
      rcases ih h with ⟨us, vs, e, rfl, he⟩
      exists token :: us, vs, e
      constructor
      · rfl
      · rwa [reads_cons, hadvance]

theorem judge_start_eq_accepts_iff :
    judge start ts = .accepts t <-> Groups (tokens V O) .text ts t := by
  rw [← reads_start_iff]
  constructor
  · exact reads_of_judge
  · intro h
    rw [← List.append_nil ts, judge_append h]
    rfl

theorem judge_start_of_derives {rest : List (Token V O)} (h : Derives (tokens V O) (ts ++ rest)) :
    judge start (ts ++ .invalid :: us) = .meetsInvalid := by
  rcases exists_reads_of_derives h with ⟨c, hc⟩
  rw [judge_append hc]
  exact judge_invalid

theorem exists_of_judge_start (v : V) (h : judge start ts = .meetsInvalid) :
    exists us vs n, ts = us ++ .invalid :: vs ∧
      (Derives (tokens V O) (us ++ List.replicate n .right) ∨
        Derives (tokens V O) (us ++ .value v :: List.replicate n .right)) := by
  rcases exists_of_judge h with ⟨us, vs, c, rfl, hc⟩
  rcases exists_derives_of_reads v hc with ⟨n, hn⟩
  exact ⟨us, vs, n, rfl, hn⟩

end Machine

end Bracketed
