import Boogie.Houdini.PassifiedImpl

/-!
# Checking candidates

The conditions on the candidates of a program and of a passive implementation
speak about all expressions and identifiers.  For a given program they come
down to finitely many annotations, so that they can be decided.
-/

namespace Boogie

/-!
# Identifiers
-/

namespace Expr

mutual

def identifiers : Expr -> List Variable
  | .literal _ => []
  | .ident x => [x]
  | .old e => e.identifiers
  | .nary _ args => identifiersOfArgs args
  | .quantifier _ _ body => body.identifiers

def identifiersOfArgs : List Expr -> List Variable
  | [] => []
  | e :: es => e.identifiers ++ identifiersOfArgs es

end

theorem mem_identifiersOfArgs {x : Variable} {es : List Expr} :
    x ∈ identifiersOfArgs es <-> exists e, e ∈ es ∧ x ∈ e.identifiers := by
  induction es with
  | nil => simp [identifiersOfArgs]
  | cons e es ih => simp [identifiersOfArgs, ih]

theorem mem_identifiers {x : Variable} {e : Expr} :
    x ∈ e.identifiers <-> e.Mentions x := by
  induction e with
  | literal l =>
    simp only [identifiers, List.not_mem_nil, false_iff]
    intro h
    cases h
  | ident y =>
    simp only [identifiers, List.mem_singleton]
    constructor
    · rintro rfl
      exact Mentions.ident
    · intro h
      cases h
      rfl
  | old e ih =>
    rw [identifiers, ih]
    constructor
    · exact Mentions.old
    · intro h
      cases h with
      | old h => exact h
  | nary f args ih =>
    rw [identifiers, mem_identifiersOfArgs]
    constructor
    · intro ⟨a, ha, hx⟩
      exact Mentions.nary ha ((ih a ha).mp hx)
    · intro h
      cases h with
      | nary ha hx => exact ⟨_, ha, (ih _ ha).mpr hx⟩
  | quantifier q dummies body ih =>
    rw [identifiers, ih]
    constructor
    · exact Mentions.quantifier
    · intro h
      cases h with
      | quantifier h => exact h

instance (e : Expr) (x : Variable) : Decidable (e.Mentions x) :=
  decidable_of_iff (x ∈ e.identifiers) mem_identifiers

end Expr

/-!
# Annotations
-/

namespace Program

def annotations (p : Program) : List (Expr × Site) :=
  p.procedures.flatMap (fun decl =>
    decl.requires.map (fun r => (r.condition, .requiresOf decl.name)) ++
      decl.ensures.map (fun r => (r.condition, .ensuresOf decl.name))) ++
  p.implementations.flatMap (fun impl =>
    (impl.blocks.flatMap (fun b => b.cmds.filterMap Cmd.predicate)).map
      (fun e => (e, .bodyOf impl)))

theorem mem_annotations {p : Program} {e : Expr} {site : Site} :
    (e, site) ∈ p.annotations <-> p.Annotates e site := by
  cases site with
  | requiresOf proc =>
    simp only [annotations, Annotates, List.mem_append, List.mem_flatMap,
      List.mem_map]
    constructor
    · intro h
      rcases h with ⟨decl, hdecl, ⟨r, hr, hpair⟩ | ⟨r, hr, hpair⟩⟩ |
        ⟨impl, himpl, e', he', hpair⟩
      · cases hpair
        exact ⟨decl, hdecl, rfl, r, hr, rfl⟩
      · cases hpair
      · cases hpair
    · rintro ⟨decl, hdecl, rfl, r, hr, rfl⟩
      exact Or.inl ⟨decl, hdecl, Or.inl ⟨r, hr, rfl⟩⟩
  | ensuresOf proc =>
    simp only [annotations, Annotates, List.mem_append, List.mem_flatMap,
      List.mem_map]
    constructor
    · intro h
      rcases h with ⟨decl, hdecl, ⟨r, hr, hpair⟩ | ⟨r, hr, hpair⟩⟩ |
        ⟨impl, himpl, e', he', hpair⟩
      · cases hpair
      · cases hpair
        exact ⟨decl, hdecl, rfl, r, hr, rfl⟩
      · cases hpair
    · rintro ⟨decl, hdecl, rfl, r, hr, rfl⟩
      exact Or.inl ⟨decl, hdecl, Or.inr ⟨r, hr, rfl⟩⟩
  | bodyOf impl =>
    simp only [annotations, Annotates, List.mem_append, List.mem_flatMap,
      List.mem_map, List.mem_filterMap]
    constructor
    · intro h
      rcases h with ⟨decl, hdecl, ⟨r, hr, hpair⟩ | ⟨r, hr, hpair⟩⟩ |
        ⟨impl', himpl, e', ⟨b, hb, cmd, hcmd, he⟩, hpair⟩
      · cases hpair
      · cases hpair
      · cases hpair
        exact ⟨himpl, b, hb, cmd, hcmd, he⟩
    · intro ⟨himpl, b, hb, cmd, hcmd, he⟩
      exact Or.inr ⟨impl, himpl, e, ⟨b, hb, cmd, hcmd, he⟩, rfl⟩

instance (p : Program) (e : Expr) (site : Site) :
    Decidable (p.Annotates e site) :=
  decidable_of_iff ((e, site) ∈ p.annotations) mem_annotations

theorem resolves_iff {p : Program} {e : Expr} :
    p.Resolves e <-> forall c, c ∈ p.houdiniConstants ->
      forall x, x ∈ e.identifiers -> x.isConstant = true -> x.name = c.name -> x = c := by
  simp only [Resolves, Expr.mem_identifiers]

instance (p : Program) (e : Expr) : Decidable (p.Resolves e) :=
  decidable_of_iff _ resolves_iff.symm

theorem guarded_iff {p : Program} {e : Expr} :
    p.Guarded e <-> forall c, c ∈ p.houdiniConstants -> e.Mentions c ->
      p.matchCandidate e = some c :=
  Iff.rfl

instance (p : Program) (e : Expr) : Decidable (p.Guarded e) :=
  decidable_of_iff _ guarded_iff.symm

theorem candidatesGuard_iff {p : Program} :
    p.CandidatesGuard <-> (forall a, a ∈ p.annotations -> p.Guarded a.1 ∧ p.Resolves a.1) ∧
      (forall c, c ∈ p.houdiniConstants -> forall a, a ∈ p.annotations ->
        forall a', a' ∈ p.annotations -> a.1.Mentions c -> a'.1.Mentions c -> a.2 = a'.2) ∧
      forall c, c ∈ p.houdiniConstants -> forall e, e ∈ p.axioms -> ¬ e.Mentions c := by
  constructor
  · intro h
    refine ⟨?_, ?_, h.axioms⟩
    · intro a ha
      exact ⟨h.guarded a.1 a.2 (mem_annotations.mp ha),
        h.resolved a.1 a.2 (mem_annotations.mp ha)⟩
    · intro c hc a ha a' ha' hmem hmem'
      exact h.single c hc a.1 a'.1 a.2 a'.2 (mem_annotations.mp ha)
        (mem_annotations.mp ha') hmem hmem'
  · intro ⟨heach, hsingle, haxioms⟩
    constructor
    · intro e site h
      exact (heach (e, site) (mem_annotations.mpr h)).1
    · intro c hc e e' site site' h h'
      exact hsingle c hc (e, site) (mem_annotations.mpr h) (e', site')
        (mem_annotations.mpr h')
    · intro e site h
      exact (heach (e, site) (mem_annotations.mpr h)).2
    · exact haxioms

instance (p : Program) : Decidable p.CandidatesGuard :=
  decidable_of_iff _ candidatesGuard_iff.symm

end Program

/-!
# Passive implementations
-/

instance (impl : Implementation) (site : Site) :
    Decidable (impl.Checks site) :=
  match site with
  | .requiresOf proc => inferInstanceAs (Decidable (proc ∈ impl.callees))
  | .ensuresOf proc => inferInstanceAs (Decidable (proc = impl.name))
  | .bodyOf impl' => inferInstanceAs (Decidable (impl' = impl))

instance (impl : Implementation) (site : Site) :
    Decidable (impl.Assumes site) :=
  match site with
  | .requiresOf proc => inferInstanceAs (Decidable (proc = impl.name))
  | .ensuresOf proc => inferInstanceAs (Decidable (proc ∈ impl.callees))
  | .bodyOf impl' => inferInstanceAs (Decidable (impl' = impl))

theorem sameCandidates_iff {p : Program} {e source : Expr} :
    SameCandidates p e source <-> (forall c, c ∈ p.houdiniConstants ->
        (e.Mentions c <-> source.Mentions c)) ∧ p.matchCandidate e = p.matchCandidate source :=
  ⟨fun h => ⟨h.mentions, h.matched⟩, fun h => ⟨h.1, h.2⟩⟩

instance (p : Program) (e source : Expr) :
    Decidable (SameCandidates p e source) :=
  decidable_of_iff _ sameCandidates_iff.symm

def AssertCmd.FromAnnotation (p : Program) (impl : Implementation)
    (ac : AssertCmd) : Prop :=
  exists a, a ∈ (ac.annotation impl).toList ∧ impl.Checks a.1 ∧
    p.Annotates a.2 a.1 ∧ SameCandidates p ac.expr a.2

instance (p : Program) (impl : Implementation) (ac : AssertCmd) :
    Decidable (ac.FromAnnotation p impl) :=
  inferInstanceAs (Decidable (exists a, a ∈ (ac.annotation impl).toList ∧ _))

def AssumeCmd.FromAnnotations (p : Program) (impl : Implementation)
    (ac : AssumeCmd) : Prop :=
  forall c, c ∈ p.houdiniConstants -> ac.expr.Mentions c ->
    exists a, a ∈ p.annotations ∧ impl.Assumes a.2 ∧
      SameCandidates p ac.expr a.1

instance (p : Program) (impl : Implementation) (ac : AssumeCmd) :
    Decidable (ac.FromAnnotations p impl) :=
  inferInstanceAs (Decidable (forall c, c ∈ p.houdiniConstants -> _))

def Cmd.FromAnnotations (p : Program) (impl : Implementation) : Cmd -> Prop
  | .assertCmd ac => p.Resolves ac.expr ∧ ac.FromAnnotation p impl
  | .assumeCmd ac => p.Resolves ac.expr ∧ ac.FromAnnotations p impl
  | _ => True

instance (p : Program) (impl : Implementation) (c : Cmd) :
    Decidable (c.FromAnnotations p impl) :=
  match c with
  | .assertCmd ac =>
    inferInstanceAs (Decidable (p.Resolves ac.expr ∧ ac.FromAnnotation p impl))
  | .assumeCmd ac =>
    inferInstanceAs
      (Decidable (p.Resolves ac.expr ∧ ac.FromAnnotations p impl))
  | .assignCmd _ _ => isTrue trivial
  | .havocCmd _ => isTrue trivial
  | .callCmd _ => isTrue trivial
  | .commentCmd _ => isTrue trivial

def PassifiedImpl.ofPassive (p : Program) (impl : Implementation)
    (P : PassiveProgram)
    (h : forall c, c ∈ P.cmds -> c.FromAnnotations p impl) :
    PassifiedImpl p impl where
  passive := P
  resolves := by
    intro cmd hcmd e he
    have hfrom := h cmd hcmd
    cases cmd with
    | assertCmd ac =>
      cases he
      exact hfrom.1
    | assumeCmd ac =>
      cases he
      exact hfrom.1
    | _ => cases he
  asserts := by
    intro ac hac
    rcases (h _ hac).2 with ⟨⟨site, source⟩, hmade, hchecks, hsource, hsame⟩
    exact ⟨site, source, by simpa using hmade, hchecks, hsource, hsame⟩
  assumes := by
    intro ac hac c hc hmem
    rcases (h _ hac).2 c hc hmem with ⟨⟨source, site⟩, ha, hassumes, hsame⟩
    exact ⟨site, source, hassumes, Program.mem_annotations.mp ha, hsame⟩

end Boogie
