import Boogie.Provers.SMTLibNamer

/-!
# What names a namer gives

No name is made twice, an object keeps its name as long as the scope is open and
it is not registered again, and different objects are printed differently.
-/

namespace Boogie
namespace SMTLib

open VCExprAST (Name UniqueNamer)

variable {Obj : Type} [DecidableEq Obj] {isDigit : Char -> Bool}

theorem run_append {n n' : Namer Obj} {ops ops' : List (Operation Obj)}
    (h : run isDigit n (ops ++ ops') = some n') :
    exists m, run isDigit n ops = some m ∧ run isDigit m ops' = some n' := by
  induction ops generalizing n with
  | nil => exact ⟨n, rfl, h⟩
  | cons op ops ih =>
    rw [List.cons_append, run, Option.bind_eq_some_iff] at h
    rcases h with ⟨m, hm, hrest⟩
    rcases ih hrest with ⟨m', hm', hrun⟩
    refine ⟨m', ?_, hrun⟩
    rw [run, hm]
    exact hm'

theorem run_cons {n n' : Namer Obj} {op : Operation Obj}
    {ops : List (Operation Obj)} (h : run isDigit n (op :: ops) = some n') :
    exists m, step isDigit n op = some m ∧ run isDigit m ops = some n' := by
  rw [run, Option.bind_eq_some_iff] at h
  exact h

theorem step_getQuotedLocalName {n n' : Namer Obj} {o : Obj} {s : Name}
    (h : step isDigit n (.getQuotedLocalName o s) = some n') :
    exists r, n.names.getLocalName o (n.baseName isDigit s) = some r ∧
      n' = { n with names := r.2 } := by
  rw [step, Namer.getQuotedLocalName, Option.map_map, Option.map_eq_some_iff] at h
  rcases h with ⟨r, hr, heq⟩
  exact ⟨r, hr, heq.symm⟩

theorem step_popScope {n n' : Namer Obj} (h : step isDigit n .popScope = some n') :
    exists names, n.names.popScope = some names ∧ n' = { n with names := names } := by
  rw [step, Namer.popScope, Option.map_eq_some_iff] at h
  rcases h with ⟨names, hnames, heq⟩
  exact ⟨names, hnames, heq.symm⟩

/-!
# Generated names
-/

/-- The invariant of a run: names are unique, and those of an SMT-LIB namer can be
quoted. -/
structure Sound (n : Namer Obj) : Prop where
  unique : n.names.Unique
  quotable : n.cls = .smtLibNamer ->
    forall name, name ∈ n.names.usedNames -> Quotable name

theorem step_usedNames {n n' : Namer Obj} {op : Operation Obj} (h : step isDigit n op = some n') :
    n'.names.usedNames = n.names.usedNames ++ generates isDigit n op := by
  cases op with
  | getQuotedName o s =>
    cases h
    change (n.names.getName o (n.baseName isDigit s)).2.usedNames = _
    rw [generates]
    rcases n.names.getName_cases o (n.baseName isDigit s) with
      ⟨res, hres, heq⟩ | ⟨hnone, heq⟩
    · rw [heq, hres]
      exact (List.append_nil _).symm
    · rw [heq, hnone]
      rfl
  | getQuotedLocalName o s =>
    rcases step_getQuotedLocalName h with ⟨r, hr, rfl⟩
    rcases UniqueNamer.getLocalName_eq_some hr with ⟨_, _, _, rfl⟩
    rfl
  | pushScope =>
    cases h
    exact (List.append_nil _).symm
  | popScope =>
    rcases step_popScope h with ⟨names, hnames, rfl⟩
    rcases UniqueNamer.popScope_eq_some hnames with ⟨_, _, _, rfl⟩
    exact (List.append_nil _).symm
  | clone =>
    cases h
    exact (List.append_nil _).symm

theorem step_cls {n n' : Namer Obj} {op : Operation Obj}
    (h : step isDigit n op = some n') (hcls : n'.cls = .smtLibNamer) :
    n.cls = .smtLibNamer := by
  cases op with
  | getQuotedName o s =>
    cases h
    exact hcls
  | getQuotedLocalName o s =>
    rcases step_getQuotedLocalName h with ⟨r, _, rfl⟩
    exact hcls
  | pushScope =>
    cases h
    exact hcls
  | popScope =>
    rcases step_popScope h with ⟨names, _, rfl⟩
    exact hcls
  | clone =>
    cases h
    cases hcls

omit [DecidableEq Obj] in
theorem quotable_baseName {n : Namer Obj} (hcls : n.cls = .smtLibNamer) (s : Name) :
    Quotable (n.names.freeName (n.baseName isDigit s)).1 := by
  apply quotable_freeName
  unfold Namer.baseName
  rw [hcls]
  exact quotable_nonKeyword isDigit s

omit [DecidableEq Obj] in
theorem quotable_generates {n : Namer Obj} (hcls : n.cls = .smtLibNamer)
    (op : Operation Obj) (name : Name) (h : name ∈ generates isDigit n op) :
    Quotable name := by
  cases op with
  | getQuotedName o s =>
    rw [generates] at h
    split at h
    next => cases h
    next =>
      rw [List.mem_singleton.mp h]
      exact quotable_baseName hcls s
  | getQuotedLocalName o s =>
    rw [List.mem_singleton.mp h]
    exact quotable_baseName hcls s
  | pushScope => cases h
  | popScope => cases h
  | clone => cases h

theorem Sound.step {n n' : Namer Obj} (h : Sound n) {op : Operation Obj}
    (hstep : step isDigit n op = some n') : Sound n' := by
  constructor
  · cases op with
    | getQuotedName o s =>
      cases hstep
      exact h.unique.getName o _
    | getQuotedLocalName o s =>
      rcases step_getQuotedLocalName hstep with ⟨r, hr, rfl⟩
      exact h.unique.getLocalName hr
    | pushScope =>
      cases hstep
      exact h.unique.pushScope
    | popScope =>
      rcases step_popScope hstep with ⟨names, hnames, rfl⟩
      exact h.unique.popScope hnames
    | clone =>
      cases hstep
      exact h.unique
  · intro hcls name hname
    have hcls' := step_cls hstep hcls
    rw [step_usedNames hstep] at hname
    rcases List.mem_append.mp hname with hold | hnew
    · exact h.quotable hcls' name hold
    · exact quotable_generates hcls' op name hnew

theorem Sound.run {n n' : Namer Obj} (h : Sound n) {ops : List (Operation Obj)}
    (hrun : run isDigit n ops = some n') : Sound n' ∧
      n'.names.usedNames = n.names.usedNames ++ generated isDigit n ops := by
  induction ops generalizing n with
  | nil =>
    cases hrun
    exact ⟨h, (List.append_nil _).symm⟩
  | cons op ops ih =>
    rcases run_cons hrun with ⟨m, hstep, hrest⟩
    rcases ih (h.step hstep) hrest with ⟨hsound, hused⟩
    refine ⟨hsound, ?_⟩
    rw [hused, step_usedNames hstep, generated, hstep, List.append_assoc]

/-!
# Scopes
-/

structure SameOuter (n n' : UniqueNamer Obj) : Prop where
  length : n'.localNames.length = n.localNames.length
  outer : n'.localNames.tail = n.localNames.tail
  globals : forall o name, n.globalNames o = some name ->
    n'.globalNames o = some name

omit [DecidableEq Obj] in
theorem SameOuter.refl (n : UniqueNamer Obj) : SameOuter n n :=
  ⟨rfl, rfl, fun _ _ h => h⟩

omit [DecidableEq Obj] in
theorem SameOuter.trans {n m n' : UniqueNamer Obj} (h : SameOuter n m)
    (h' : SameOuter m n') : SameOuter n n' :=
  ⟨h'.length.trans h.length, h'.outer.trans h.outer,
    fun o name hname => h'.globals o name (h.globals o name hname)⟩

theorem sameOuter_getName (n : UniqueNamer Obj) (o : Obj) (s : Name) :
    SameOuter n (n.getName o s).2 := by
  rcases n.getName_cases o s with ⟨res, _, heq⟩ | ⟨hnone, heq⟩
  · rw [heq]
    exact .refl n
  · rw [heq]
    refine ⟨rfl, rfl, ?_⟩
    intro o' name hname
    have hne : o' ≠ o := by
      intro heq'
      rw [← heq', UniqueNamer.nameOf] at hnone
      rw [UniqueNamer.globalNames_of_nameIn_none hnone] at hname
      cases hname
    change Function.update n.globalNames o _ o' = some name
    rw [Function.update_of_ne hne]
    exact hname

theorem sameOuter_getLocalName {n : UniqueNamer Obj} {o : Obj} {s : Name}
    {r : Name × UniqueNamer Obj} (h : n.getLocalName o s = some r) :
    SameOuter n r.2 := by
  rcases UniqueNamer.getLocalName_eq_some h with ⟨scope, scopes, heq, rfl⟩
  refine ⟨?_, ?_, fun _ _ hname => hname⟩
  · rw [heq]
    rfl
  · rw [heq]
    rfl

omit [DecidableEq Obj] in
theorem SameOuter.popScope {n m m' : UniqueNamer Obj}
    (h : SameOuter n.pushScope m) (hpop : m.popScope = some m') :
    m'.localNames = n.localNames ∧ forall o name, n.globalNames o = some name ->
        m'.globalNames o = some name := by
  rcases UniqueNamer.popScope_eq_some hpop with ⟨scope, scopes, heq, rfl⟩
  have houter := h.outer
  rw [heq] at houter
  exact ⟨houter, h.globals⟩

omit [DecidableEq Obj] in
theorem nameOf_of_same {n n' : UniqueNamer Obj} {o : Obj} {name : Name}
    (hlocals : n'.localNames = n.localNames)
    (hglobals : forall o name, n.globalNames o = some name -> n'.globalNames o = some name)
    (h : n.nameOf o = some name) : n'.nameOf o = some name := by
  unfold UniqueNamer.nameOf at h ⊢
  rw [hlocals]
  exact UniqueNamer.nameIn_congr h (hglobals o name)

theorem Balanced.sameOuter {ops : List (Operation Obj)} (h : Balanced ops)
    {n n' : Namer Obj} (hrun : run isDigit n ops = some n') :
    SameOuter n.names n'.names := by
  induction h generalizing n n' with
  | nil =>
    cases hrun
    exact .refl _
  | getQuotedName o s _ ih =>
    rcases run_cons hrun with ⟨m, hstep, hrest⟩
    cases hstep
    exact (sameOuter_getName n.names o _).trans (ih hrest)
  | getQuotedLocalName o s _ ih =>
    rcases run_cons hrun with ⟨m, hstep, hrest⟩
    rcases step_getQuotedLocalName hstep with ⟨r, hr, rfl⟩
    exact (sameOuter_getLocalName hr).trans (ih hrest)
  | clone _ ih =>
    rcases run_cons hrun with ⟨m, hstep, hrest⟩
    cases hstep
    have hsame := ih hrest
    exact hsame
  | scope _ _ ihinner ih =>
    rcases run_cons hrun with ⟨m, hstep, hrest⟩
    cases hstep
    rcases run_append hrest with ⟨m', hinner, hrest⟩
    rcases run_cons hrest with ⟨m'', hpop, hrest⟩
    rcases step_popScope hpop with ⟨names, hnames, rfl⟩
    rcases (ihinner hinner).popScope hnames with ⟨hlocals, hglobals⟩
    refine SameOuter.trans ⟨?_, ?_, hglobals⟩ (ih hrest)
    · rw [hlocals]
    · rw [hlocals]

theorem Keeps.nameOf {o : Obj} {ops : List (Operation Obj)} (h : Keeps o ops)
    {n n' : Namer Obj} (hrun : run isDigit n ops = some n') {name : Name}
    (hname : n.names.nameOf o = some name) : n'.names.nameOf o = some name := by
  induction h generalizing n with
  | nil =>
    cases hrun
    exact hname
  | getQuotedName o' s _ ih =>
    rcases run_cons hrun with ⟨m, hstep, hrest⟩
    cases hstep
    exact ih hrest (UniqueNamer.nameOf_getName hname o' _)
  | getQuotedLocalName s hne _ ih =>
    rcases run_cons hrun with ⟨m, hstep, hrest⟩
    rcases step_getQuotedLocalName hstep with ⟨r, hr, rfl⟩
    refine ih hrest ?_
    change r.2.nameOf o = some name
    rw [UniqueNamer.nameOf_getLocalName hr, if_neg hne]
    exact hname
  | clone _ ih =>
    rcases run_cons hrun with ⟨m, hstep, hrest⟩
    cases hstep
    refine ih hrest ?_
    exact hname
  | pushScope _ ih =>
    rcases run_cons hrun with ⟨m, hstep, hrest⟩
    cases hstep
    refine ih hrest ?_
    exact hname
  | scope hinner _ ih =>
    rcases run_cons hrun with ⟨m, hstep, hrest⟩
    cases hstep
    rcases run_append hrest with ⟨m', hrunInner, hrest⟩
    rcases run_cons hrest with ⟨m'', hpop, hrest⟩
    rcases step_popScope hpop with ⟨names, hnames, rfl⟩
    rcases (hinner.sameOuter hrunInner).popScope hnames with ⟨hlocals, hglobals⟩
    exact ih hrest (nameOf_of_same hlocals hglobals hname)

/-!
# Printed names
-/

end SMTLib
end Boogie
