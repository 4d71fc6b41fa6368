import Boogie.Houdini.C5Domain
import Mathlib.Data.List.Nodup

/-!
# Meaning of the learned models

A model holds for actual arguments exactly when the tree leads from their data
point to a positive leaf.
-/

namespace Boogie

namespace MLHoudini

/-!
# Names of attributes
-/

namespace Attribute

def Over (P : α -> Prop) : Attribute α -> Prop
  | parameter x => P x
  | sum x y => P x ∧ P y
  | difference x y => P x ∧ P y

def op : Attribute α -> Option Char
  | parameter _ => none
  | sum _ _ => some '+'
  | difference _ _ => some '-'

theorem map_map {α β γ : Type} (f : α -> β) (g : β -> γ) (a : Attribute α) :
    (a.map f).map g = a.map (g ∘ f) := by
  cases a <;> rfl

theorem mem_key {func : String} {a : Attribute TypedIdent} {c : Char}
    (hc : c = '+' ∨ c = '-') (hfunc : PlainName func) (ha : a.Over (fun p => PlainName p.name)) :
    c ∈ (a.key func).toList <-> a.op = some c := by
  have hplain : forall {name : String}, PlainName name ->
      c ∉ name.toList := by
    intro name hname
    rcases hc with rfl | rfl
    · exact hname.1
    · exact hname.2
  have hdollar : c ≠ '$' := by
    rcases hc with rfl | rfl <;> decide
  have hleading : c ∉ attrPrefix.toList := by
    simpa [attrPrefix] using hdollar
  cases a with
  | parameter p =>
    simp [key, op, String.toList_append, hplain hfunc, hplain ha,
      hdollar]
  | sum p q =>
    rcases hc with rfl | rfl <;>
      simp [key, op, String.toList_append, hplain hfunc, hplain ha.1,
        hplain ha.2, hleading]
  | difference p q =>
    rcases hc with rfl | rfl <;>
      simp [key, op, String.toList_append, hplain hfunc, hplain ha.1,
        hplain ha.2, hleading]

theorem op_of_key {func : String} {a b : Attribute TypedIdent}
    (hfunc : PlainName func) (ha : a.Over (fun p => PlainName p.name))
    (hb : b.Over (fun p => PlainName p.name)) (h : a.key func = b.key func) : a.op = b.op := by
  have hplus := mem_key (Or.inl rfl) hfunc ha
  have hminus := mem_key (Or.inr rfl) hfunc ha
  rw [h, mem_key (Or.inl rfl) hfunc hb] at hplus
  rw [h, mem_key (Or.inr rfl) hfunc hb] at hminus
  cases a <;> cases b <;> simp_all [op]

theorem names_of_key {func : String} {a b : Attribute TypedIdent}
    (hfunc : PlainName func) (ha : a.Over (fun p => PlainName p.name))
    (hb : b.Over (fun p => PlainName p.name)) (h : a.key func = b.key func) :
    a.map TypedIdent.name = b.map TypedIdent.name := by
  have hop := op_of_key hfunc ha hb h
  have hlist := congrArg String.toList h
  have hderived : forall {c : Char} {p q p' q' : String},
      c ∉ p'.toList -> c ∉ q'.toList ->
      p.toList ++ c :: q.toList = p'.toList ++ c :: q'.toList ->
        p = p' ∧ q = q' := by
    intro c p q p' q' hp hq heq
    have hparts := (List.append_cons_inj_of_notMem hp hq).mp heq.symm
    exact ⟨(String.toList_inj.mp hparts.1).symm,
      (String.toList_inj.mp hparts.2.2).symm⟩
  cases a with
  | parameter p =>
    cases b with
    | parameter q =>
      simp only [key, String.toList_append, List.append_assoc,
        List.append_cancel_left_eq] at hlist
      simp only [map, String.toList_inj.mp hlist]
    | _ => cases hop
  | sum p q =>
    cases b with
    | sum p' q' =>
      simp only [key, String.toList_append, List.append_assoc,
        List.append_cancel_left_eq] at hlist
      rcases hderived hb.1.1 hb.2.1 hlist with ⟨hp, hq⟩
      simp only [map, hp, hq]
    | _ => cases hop
  | difference p q =>
    cases b with
    | difference p' q' =>
      simp only [key, String.toList_append, List.append_assoc,
        List.append_cancel_left_eq] at hlist
      rcases hderived hb.1.2 hb.2.2 hlist with ⟨hp, hq⟩
      simp only [map, hp, hq]
    | _ => cases hop

end Attribute

section Keys

variable {α : Type} {ident : α -> TypedIdent} {args : List α}

theorem mem_pairs {x y : α} (h : (x, y) ∈ pairs args) :
    x ∈ args ∧ y ∈ args := by
  induction args with
  | nil => cases h
  | cons z zs ih =>
    rcases List.mem_append.mp h with h | h
    · rcases List.mem_map.mp h with ⟨w, hw, heq⟩
      cases heq
      exact ⟨List.mem_cons_self, List.mem_cons_of_mem _ hw⟩
    · exact ⟨List.mem_cons_of_mem _ (ih h).1, List.mem_cons_of_mem _ (ih h).2⟩

theorem pairs_map {β : Type} (f : α -> β) :
    pairs (args.map f) = (pairs args).map (fun pair => (f pair.1, f pair.2)) := by
  induction args with
  | nil => rfl
  | cons z zs ih => simp [pairs, ih]

theorem mem_attributes {a : Attribute α} (h : a ∈ attributes ident args) :
    a.Over (fun x => x ∈ args) ∧ (a.op ≠ none -> a.Over (fun x => (ident x).type = .int)) := by
  rcases List.mem_append.mp h with h | h
  · rcases List.mem_map.mp h with ⟨x, hx, rfl⟩
    exact ⟨hx, fun hop => absurd rfl hop⟩
  · rcases List.mem_flatMap.mp h with ⟨⟨x, y⟩, hpair, ha⟩
    have hmem := mem_pairs hpair
    split at ha
    · rename_i htypes
      simp only [List.mem_cons, List.not_mem_nil, or_false] at ha
      rcases ha with rfl | rfl
      · exact ⟨hmem, fun _ => htypes⟩
      · exact ⟨hmem, fun _ => htypes⟩
    · cases ha

theorem attributes_map {β : Type} {ident : β -> TypedIdent} (f : α -> β) :
    attributes ident (args.map f) =
      (attributes (fun x => ident (f x)) args).map (Attribute.map f) := by
  simp only [attributes, pairs_map, List.map_append, List.map_map,
    List.flatMap_map, List.map_flatMap]
  congr 1
  apply List.flatMap_congr
  intro pair _
  split <;> rfl

theorem attribute_key_inj {func : String} {a b : Attribute α} (hfunc : PlainName func)
    (hplain : forall x, x ∈ args -> PlainName (ident x).name)
    (hinj : forall x, x ∈ args -> forall y, y ∈ args -> (ident x).name = (ident y).name -> x = y)
    (ha : a ∈ attributes ident args) (hb : b ∈ attributes ident args)
    (hkey : (a.map ident).key func = (b.map ident).key func) : a = b := by
  have hplain' : forall {c : Attribute α}, c ∈ attributes ident args ->
      (c.map ident).Over (fun p => PlainName p.name) := by
    intro c hc
    have hover := (mem_attributes hc).1
    cases c with
    | parameter x => exact hplain x hover
    | _ => exact ⟨hplain _ hover.1, hplain _ hover.2⟩
  have hnames := Attribute.names_of_key hfunc (hplain' ha) (hplain' hb) hkey
  have hovera := (mem_attributes ha).1
  have hoverb := (mem_attributes hb).1
  cases a with
  | parameter x =>
    cases b with
    | parameter y =>
      simp only [Attribute.map, Attribute.parameter.injEq] at hnames
      rw [hinj x hovera y hoverb hnames]
    | _ => cases hnames
  | sum x y =>
    cases b with
    | sum x' y' =>
      simp only [Attribute.map, Attribute.sum.injEq] at hnames
      rw [hinj x hovera.1 x' hoverb.1 hnames.1,
        hinj y hovera.2 y' hoverb.2 hnames.2]
    | _ => cases hnames
  | difference x y =>
    cases b with
    | difference x' y' =>
      simp only [Attribute.map, Attribute.difference.injEq] at hnames
      rw [hinj x hovera.1 x' hoverb.1 hnames.1,
        hinj y hovera.2 y' hoverb.2 hnames.2]
    | _ => cases hnames

end Keys

/-!
# Values of attributes
-/

section Values

variable {U : Type} [DecidableEq U] {I : Interp U} {σ₀ σ : Env U}
  {F : ExistentialFunction} {actuals : List (TypedIdent × Value U)}

/-- The formal parameters have the values of well-typed actual arguments. -/
structure Assigned (I : Interp U) (F : ExistentialFunction)
    (actuals : List (TypedIdent × Value U)) (σ : Env U) : Prop where
  formals : F.inParams = actuals.map Prod.fst
  typed : forall x, x ∈ actuals -> I.HasType x.2 x.1.type
  values : forall x, x ∈ actuals -> σ (.formal x.1) = x.2

omit [DecidableEq U] in
theorem hasType_bool {v : Value U} (h : I.HasType v .bool) :
    exists b, v = .bool b := by
  cases v with
  | bool b => exact ⟨b, rfl⟩
  | _ => cases h

omit [DecidableEq U] in
theorem hasType_int {v : Value U} (h : I.HasType v .int) :
    exists n, v = .int n := by
  cases v with
  | int n => exact ⟨n, rfl⟩
  | _ => cases h

omit [DecidableEq U] in
theorem Assigned.int (h : Assigned I F actuals σ) {x : TypedIdent × Value U}
    (hx : x ∈ actuals) (htype : x.1.type = .int) :
    exists n, x.2 = .int n ∧ σ (.formal x.1) = .int n := by
  have htyped := h.typed x hx
  rw [htype] at htyped
  rcases hasType_int htyped with ⟨n, hn⟩
  exact ⟨n, hn, (h.values x hx).trans hn⟩

omit [DecidableEq U] in
theorem Assigned.zip (h : Assigned I F actuals σ) :
    F.inParams.zip (actuals.map (fun x => encode x.2)) =
      actuals.map (fun x => (x.1, encode x.2)) := by
  rw [h.formals, List.zip_map']

omit [DecidableEq U] in
theorem Assigned.attributeVector_key (h : Assigned I F actuals σ)
    {a : Attribute (TypedIdent × Value U)} (ha : a ∈ attributes Prod.fst actuals) :
    F.attributeVector (actuals.map (fun x => encode x.2)) ((a.map Prod.fst).key F.name) =
      some (a.map (fun x => encode x.2)).value := by
  have hplain : forall x, x ∈ actuals -> PlainName x.1.name := by
    intro x hx
    apply F.plainParams
    rw [h.formals]
    exact List.mem_map_of_mem hx
  have hdistinct : (actuals.map (fun x => x.1.name)).Nodup := by
    have hnames := F.distinct
    rwa [h.formals, List.map_map] at hnames
  have hinj : forall x, x ∈ actuals -> forall y, y ∈ actuals ->
      x.1.name = y.1.name -> x = y :=
    fun x hx y hy => List.inj_on_of_nodup_map hdistinct hx hy
  unfold ExistentialFunction.attributeVector
  rw [h.zip, attributes_map, List.find?_map]
  simp only [Function.comp_def, Attribute.map_map]
  cases hfind : (attributes Prod.fst actuals).find?
      (fun b => (b.map Prod.fst).key F.name = (a.map Prod.fst).key F.name) with
  | none =>
    have hnot := List.find?_eq_none.mp hfind a ha
    simp at hnot
  | some b =>
    have hkey := List.find?_some hfind
    have hb := List.mem_of_find?_eq_some hfind
    have hab := attribute_key_inj F.plain hplain hinj hb ha
      (of_decide_eq_true hkey)
    rw [hab]
    simp only [Option.map_some, Attribute.map_map, Function.comp_def]

theorem Assigned.attribute (σ₀ : Env U) (h : Assigned I F actuals σ)
    {key : String} {e : Expr} (he : F.attr2Expr key = some e) :
    exists n, F.attributeVector (actuals.map (fun x => encode x.2)) key = some n ∧
      ((e.shallowType = some .bool ∧ exists b, e.eval I σ₀ σ = .bool b ∧ n = if b then 1 else 0) ∨
        (e.shallowType = some .int ∧ e.eval I σ₀ σ = .int n)) := by
  rcases Option.map_eq_some_iff.mp he with ⟨a, hfind, rfl⟩
  have hkey := List.find?_some hfind
  rw [decide_eq_true_eq] at hkey
  have ha := List.mem_reverse.mp (List.mem_of_find?_eq_some hfind)
  have hmap : attributes id (actuals.map Prod.fst) =
      (attributes Prod.fst actuals).map (Attribute.map Prod.fst) :=
    attributes_map Prod.fst
  rw [h.formals, hmap] at ha
  rcases List.mem_map.mp ha with ⟨c, hc, rfl⟩
  refine ⟨_, by rw [← hkey]; exact h.attributeVector_key hc, ?_⟩
  have hover := mem_attributes hc
  cases c with
  | parameter x =>
    have hx := hover.1
    have hparam : x.1 ∈ F.inParams := by
      rw [h.formals]
      exact List.mem_map_of_mem hx
    rcases F.types x.1 hparam with hbool | hint
    · have htype := h.typed x hx
      rw [hbool] at htype
      rcases hasType_bool htype with ⟨b, hb⟩
      refine Or.inl ⟨congrArg some hbool, b, ?_, ?_⟩
      · rw [← hb]
        exact (Expr.eval_ident ..).trans (h.values x hx)
      · simp [Attribute.map, Attribute.value, hb, encode]
    · rcases h.int hx hint with ⟨n, hn, hvalue⟩
      refine Or.inr ⟨congrArg some hint, ?_⟩
      simp [Attribute.map, Attribute.value, Attribute.expr,
        Attribute.formalExpr, hvalue, hn, encode]
  | sum x y =>
    have htypes := hover.2 (fun hop => by cases hop)
    rcases h.int hover.1.1 htypes.1 with ⟨m, hm, hxm⟩
    rcases h.int hover.1.2 htypes.2 with ⟨n, hn, hyn⟩
    refine Or.inr ⟨congrArg some htypes.1, ?_⟩
    simp [Attribute.map, Attribute.value, Attribute.expr,
      Attribute.formalExpr, Expr.add, Expr.binary, Interp.apply,
      BinaryOperator.apply, hm, hn, hxm, hyn, encode]
  | difference x y =>
    have htypes := hover.2 (fun hop => by cases hop)
    rcases h.int hover.1.1 htypes.1 with ⟨m, hm, hxm⟩
    rcases h.int hover.1.2 htypes.2 with ⟨n, hn, hyn⟩
    refine Or.inr ⟨congrArg some htypes.1, ?_⟩
    simp [Attribute.map, Attribute.value, Attribute.expr,
      Attribute.formalExpr, Expr.sub, Expr.binary, Interp.apply,
      BinaryOperator.apply, hm, hn, hxm, hyn, encode]

end Values

/-!
# Substitution of arguments
-/

namespace ExtendsExpr

inductive Replaceable (oldvars : List String) : Expr -> Prop where
  | literal (l : Literal) : Replaceable oldvars (.literal l)
  | ident {x : Variable} : x.name ∈ oldvars -> Replaceable oldvars (.ident x)
  | nary {f : Fun} {args : List Expr} :
      (forall a, a ∈ args -> Replaceable oldvars a) ->
      Replaceable oldvars (.nary f args)

section Replace

variable {oldvars : List String} {newvars : List Expr} {e e1 e2 : Expr}

theorem Replaceable.unary {op : UnaryOperator} (h : Replaceable oldvars e) :
    Replaceable oldvars (.unary op e) := by
  apply Replaceable.nary
  intro a ha
  rwa [List.mem_singleton.mp ha]

theorem Replaceable.binary {op : BinaryOperator}
    (h1 : Replaceable oldvars e1) (h2 : Replaceable oldvars e2) :
    Replaceable oldvars (.binary op e1 e2) := by
  apply Replaceable.nary
  intro a ha
  simp only [List.mem_cons, List.not_mem_nil, or_false] at ha
  rcases ha with rfl | rfl
  · exact h1
  · exact h2

theorem Replaceable.and (h1 : Replaceable oldvars e1)
    (h2 : Replaceable oldvars e2) : Replaceable oldvars (.and e1 e2) := by
  unfold Expr.and
  split
  · exact h2
  · split
    · exact h1
    · split
      · exact Replaceable.literal _
      · exact h1.binary h2

theorem Replaceable.or (h1 : Replaceable oldvars e1)
    (h2 : Replaceable oldvars e2) : Replaceable oldvars (.or e1 e2) := by
  unfold Expr.or
  split
  · exact h2
  · split
    · exact h1
    · split
      · exact Replaceable.literal _
      · exact h1.binary h2

theorem Replaceable.not (h : Replaceable oldvars e) :
    Replaceable oldvars e.not := by
  have harg : forall {f : Fun} {args : List Expr} {a : Expr},
      Replaceable oldvars (.nary f args) -> a ∈ args ->
        Replaceable oldvars a := by
    intro f args a hnary ha
    cases hnary with
    | nary hargs => exact hargs a ha
  unfold Expr.not
  split
  · exact Replaceable.literal _
  · exact Replaceable.literal _
  · exact harg h (by simp)
  all_goals first
    | exact Replaceable.unary h
    | exact Replaceable.binary (harg h (by simp)) (harg h (by simp))

theorem replaceArgs_eq_some {args args' : List Expr}
    (h : replaceArgs oldvars newvars args = some args') :
    List.Forall₂ (fun a b => replace oldvars newvars a = some b) args args' := by
  induction args generalizing args' with
  | nil =>
    cases h
    exact List.Forall₂.nil
  | cons a as ih =>
    unfold replaceArgs at h
    split at h
    · rename_i b bs hb hbs
      cases h
      exact List.Forall₂.cons hb (ih hbs)
    · cases h

theorem getElem_of_idxOf? {names : List String} {name : String} {index : Nat}
    (h : names.idxOf? name = some index) :
    exists hindex : index < names.length, names[index] = name := by
  rcases List.findIdx?_eq_some_iff_getElem.mp h with ⟨hindex, hname, _⟩
  exact ⟨hindex, eq_of_beq hname⟩

theorem replace_isSome (hlength : oldvars.length = newvars.length) (h : Replaceable oldvars e) :
    exists e', replace oldvars newvars e = some e' := by
  induction h with
  | literal l => exact ⟨.literal l, by rw [replace]⟩
  | ident hx =>
    rename_i x
    rcases Option.isSome_iff_exists.mp (List.isSome_idxOf?.mpr hx) with
      ⟨index, hindex⟩
    rcases getElem_of_idxOf? hindex with ⟨hbound, _⟩
    rw [hlength] at hbound
    refine ⟨newvars[index], ?_⟩
    rw [replace, hindex]
    exact List.getElem?_eq_getElem hbound
  | nary hargs ih =>
    rename_i f args
    have hsome : exists args', replaceArgs oldvars newvars args =
        some args' := by
      clear hargs
      induction args with
      | nil => exact ⟨[], by rw [replaceArgs]⟩
      | cons a as ihas =>
        rcases ih a (by simp) with ⟨b, hb⟩
        rcases ihas (fun c hc => ih c (by simp [hc])) with ⟨bs, hbs⟩
        exact ⟨b :: bs, by rw [replaceArgs, hb, hbs]⟩
    rcases hsome with ⟨args', hargs'⟩
    exact ⟨.nary f args', by rw [replace, hargs']; rfl⟩

/-- The state in which the variables named have the values of the arguments. -/
noncomputable def instantiation {U : Type} [DecidableEq U] (I : Interp U)
    (ρ₀ ρ : Env U) (oldvars : List String) (newvars : List Expr) : Env U :=
  fun x =>
    match oldvars.idxOf? x.name with
    | some index => (newvars[index]?).elim (.bool false) (·.eval I ρ₀ ρ)
    | none => .bool false

theorem eval_replace {U : Type} [DecidableEq U] {I : Interp U}
    {ρ₀ ρ σ₀ : Env U} {e' : Expr} (h : replace oldvars newvars e = some e') :
    e'.eval I ρ₀ ρ = e.eval I σ₀ (instantiation I ρ₀ ρ oldvars newvars) := by
  induction e generalizing e' with
  | literal l =>
    rw [replace] at h
    cases h
    simp
  | ident x =>
    rw [replace] at h
    rw [Expr.eval_ident, instantiation]
    cases hindex : oldvars.idxOf? x.name with
    | none =>
      rw [hindex] at h
      cases h
    | some index =>
      rw [hindex] at h
      simp only at h
      simp [h]
  | nary f args ih =>
    rw [replace] at h
    rcases Option.map_eq_some_iff.mp h with ⟨args', hargs, rfl⟩
    rw [Expr.eval_nary, Expr.eval_nary]
    congr 1
    have hall := replaceArgs_eq_some hargs
    clear h hargs
    induction hall with
    | nil => rfl
    | cons hab _ ihall =>
      rw [List.map_cons, List.map_cons, ih _ (by simp) hab,
        ihall (fun a ha => ih a (by simp [ha]))]
  | old e ih => simp [replace] at h
  | quantifier q xs body ih => simp [replace] at h

theorem Replaceable.mem_of_mentions {x : Variable} (h : Replaceable oldvars e)
    (hx : e.Mentions x) : x.name ∈ oldvars := by
  induction h with
  | literal l => cases hx
  | ident hname =>
    cases hx
    exact hname
  | nary hargs ih =>
    cases hx with
    | nary ha hmentions => exact ih _ ha hmentions

/-- Every actual is evaluated where it stands: what replaces one name is not
replaced again when it mentions another one. -/
theorem replace_simultaneous {U : Type} [DecidableEq U] (I : Interp U)
    (hlength : oldvars.length = newvars.length) (h : Replaceable oldvars e) :
    exists e', replace oldvars newvars e = some e' ∧ forall ρ₀ ρ σ₀ σ : Env U,
        (forall (x : Variable) (a : Expr), (x.name, a) ∈ oldvars.zip newvars ->
          σ x = a.eval I ρ₀ ρ) -> e'.eval I ρ₀ ρ = e.eval I σ₀ σ := by
  rcases replace_isSome hlength h with ⟨e', he'⟩
  refine ⟨e', he', ?_⟩
  intro ρ₀ ρ σ₀ σ hσ
  have heval : e'.eval I ρ₀ ρ = e.eval I σ₀ (instantiation I ρ₀ ρ oldvars newvars) :=
    eval_replace he'
  rw [heval]
  apply Expr.eval_congr
  · intro x _
    rfl
  · intro x hx
    have hmem := h.mem_of_mentions hx
    rcases Option.isSome_iff_exists.mp (List.isSome_idxOf?.mpr hmem) with
      ⟨index, hindex⟩
    rcases getElem_of_idxOf? hindex with ⟨hbound, hname⟩
    have hactual : index < newvars.length := hlength ▸ hbound
    have hzip : (x.name, newvars[index]) ∈ oldvars.zip newvars := by
      have hlt : index < (oldvars.zip newvars).length := by
        rw [List.length_zip]
        exact Nat.lt_min.mpr ⟨hbound, hactual⟩
      rw [← hname]
      exact List.mem_iff_getElem.mpr ⟨index, hlt, List.getElem_zip⟩
    rw [hσ x _ hzip, instantiation, hindex]
    simp [hactual]

def constantInterp : Interp Unit where
  sort := fun _ => ""
  func := fun _ _ => .bool false
  select := fun _ => .bool false
  store := fun _ => .bool false

/-- `x - y` for the formals `x` and `y`, which are exchanged. -/
theorem replace_simultaneous_exchanged :
    exists e', replace ["x", "y"] [.ident (.formal ⟨"y", .int⟩), .ident (.formal ⟨"x", .int⟩)]
        (.sub (.ident (.formal ⟨"x", .int⟩)) (.ident (.formal ⟨"y", .int⟩))) = some e' ∧
      forall ρ₀ ρ σ₀ σ : Env Unit, (forall (x : Variable) (a : Expr), (x.name, a) ∈ ["x", "y"].zip
            [.ident (.formal ⟨"y", .int⟩), .ident (.formal ⟨"x", .int⟩)] ->
          σ x = a.eval constantInterp ρ₀ ρ) -> e'.eval constantInterp ρ₀ ρ =
          (Expr.sub (.ident (.formal ⟨"x", .int⟩))
            (.ident (.formal ⟨"y", .int⟩))).eval constantInterp σ₀ σ :=
  replace_simultaneous constantInterp rfl
    (Replaceable.binary (Replaceable.ident (by decide)) (Replaceable.ident (by decide)))

end Replace

end ExtendsExpr

theorem assigned_instantiation {U : Type} [DecidableEq U] {I : Interp U}
    {ρ₀ ρ : Env U} {F : ExistentialFunction}
    {actuals : List (TypedIdent × Value U)} {args : List Expr}
    (hformals : F.inParams = actuals.map Prod.fst)
    (htyped : forall x, x ∈ actuals -> I.HasType x.2 x.1.type)
    (hargs : args.map (fun a => a.eval I ρ₀ ρ) = actuals.map Prod.snd) :
    Assigned I F actuals (ExtendsExpr.instantiation I ρ₀ ρ F.paramNames args) where
  formals := hformals
  typed := htyped
  values := by
    intro x hx
    have hnames : F.paramNames = actuals.map (fun x => x.1.name) := by
      rw [ExistentialFunction.paramNames, hformals, List.map_map]
      rfl
    have hdistinct : (actuals.map (fun x => x.1.name)).Nodup := by
      rw [← hnames]
      exact F.distinct
    have hmem : x.1.name ∈ F.paramNames := by
      rw [hnames]
      exact List.mem_map_of_mem hx
    rcases Option.isSome_iff_exists.mp (List.isSome_idxOf?.mpr hmem) with
      ⟨index, hindex⟩
    have hname : (actuals.map (fun x => x.1.name))[index]? = some x.1.name := by
      rcases ExtendsExpr.getElem_of_idxOf? hindex with ⟨hbound, hname⟩
      rw [← hnames, List.getElem?_eq_getElem hbound, hname]
    rw [List.getElem?_map] at hname
    rcases Option.map_eq_some_iff.mp hname with ⟨y, hy, hyname⟩
    have hyx : y = x :=
      List.inj_on_of_nodup_map hdistinct (List.mem_of_getElem? hy) hx hyname
    have hvalue := congrArg (fun vs => vs[index]?) hargs
    simp only [List.getElem?_map, hy, Option.map_some, hyx] at hvalue
    rcases Option.map_eq_some_iff.mp hvalue with ⟨a, ha, hav⟩
    show ExtendsExpr.instantiation I ρ₀ ρ F.paramNames args
      (.formal x.1) = x.2
    have hident : (Variable.formal x.1).name = x.1.name := rfl
    rw [ExtendsExpr.instantiation, hident, hindex]
    simp only [ha, Option.elim_some]
    exact hav

theorem exists_assigned {U : Type} [DecidableEq U] {I : Interp U}
    {ρ₀ ρ : Env U} {F : ExistentialFunction} {args : List Expr}
    (hlength : args.length = F.inParams.length)
    (htyped : forall x, x ∈ F.inParams.zip args ->
      I.HasType (x.2.eval I ρ₀ ρ) x.1.type) :
    exists actuals, Assigned I F actuals (ExtendsExpr.instantiation I ρ₀ ρ F.paramNames args) ∧
      args.map (fun a => encode (a.eval I ρ₀ ρ)) = actuals.map (fun x => encode x.2) := by
  let actuals : List (TypedIdent × Value U) :=
    F.inParams.zip (args.map (fun a => a.eval I ρ₀ ρ))
  have hformals : F.inParams = actuals.map Prod.fst := by
    rw [List.map_fst_zip]
    simp [hlength]
  have hvalues : args.map (fun a => a.eval I ρ₀ ρ) = actuals.map Prod.snd := by
    rw [List.map_snd_zip]
    simp [hlength]
  have htypes : forall x, x ∈ actuals -> I.HasType x.2 x.1.type := by
    intro x hx
    simp only [actuals, List.zip_map_right] at hx
    rcases List.mem_map.mp hx with ⟨y, hy, rfl⟩
    exact htyped y hy
  refine ⟨actuals, assigned_instantiation hformals htypes hvalues, ?_⟩
  have hencode := congrArg (List.map encode) hvalues
  simpa only [List.map_map, Function.comp_def] using hencode

/-!
# Trees
-/

def C5TreeNode.classify (vector : String -> Option Int) :
    C5TreeNode -> Option String
  | .leaf classification => some classification
  | .node attr cut [left, right] =>
    match vector attr with
    | some n =>
      if n ≤ cut then classify vector left else classify vector right
    | none => none
  | .node _ _ _ => none

def C5TreeNode.Positive (vector : String -> Option Int) (tree : C5TreeNode) :
    Prop :=
  tree.classify vector = some "true" ∨ tree.classify vector = some "True"

/-- The tree splits on attributes of the function, on Booleans at zero. -/
inductive C5TreeNode.WellFormed (F : ExistentialFunction) :
    C5TreeNode -> Prop where
  | leaf (classification : String) : WellFormed F (.leaf classification)
  | node {attr : String} {cut : Int} {left right : C5TreeNode} {e : Expr} :
      F.attr2Expr attr = some e ->
      (e.shallowType = some .bool -> cut = 0) ->
      WellFormed F left -> WellFormed F right ->
      WellFormed F (.node attr cut [left, right])

section Trees

variable {F : ExistentialFunction} {tree : C5TreeNode}

theorem attr2Expr_mem {key : String} {e : Expr} (h : F.attr2Expr key = some e) :
    exists a, a ∈ attributes id F.inParams ∧ e = a.expr := by
  rcases Option.map_eq_some_iff.mp h with ⟨a, hfind, rfl⟩
  exact ⟨a, List.mem_reverse.mp (List.mem_of_find?_eq_some hfind), rfl⟩

theorem attr2Expr_replaceable {key : String} {e : Expr} (h : F.attr2Expr key = some e) :
    ExtendsExpr.Replaceable F.paramNames e := by
  rcases attr2Expr_mem h with ⟨a, ha, rfl⟩
  have hover := (mem_attributes ha).1
  have hformal : forall {p : TypedIdent}, p ∈ F.inParams ->
      ExtendsExpr.Replaceable F.paramNames (Attribute.formalExpr p) :=
    fun hp => ExtendsExpr.Replaceable.ident (List.mem_map_of_mem hp)
  cases a with
  | parameter p => exact hformal hover
  | sum p q => exact (hformal hover.1).binary (hformal hover.2)
  | difference p q => exact (hformal hover.1).binary (hformal hover.2)

theorem attr2Expr_type {key : String} {e : Expr} (h : F.attr2Expr key = some e) :
    e.shallowType = some .bool ∨ e.shallowType = some .int := by
  rcases attr2Expr_mem h with ⟨a, ha, rfl⟩
  have hover := mem_attributes ha
  cases a with
  | parameter p =>
    rcases F.types p hover.1 with hbool | hint
    · exact Or.inl (congrArg some hbool)
    · exact Or.inr (congrArg some hint)
  | sum p q =>
    exact Or.inr (congrArg some (hover.2 (fun hop => nomatch hop)).1)
  | difference p q =>
    exact Or.inr (congrArg some (hover.2 (fun hop => nomatch hop)).1)

theorem decisionExpr_isSome {key : String} {e : Expr} {cut : Int} (h : F.attr2Expr key = some e)
    (hcut : e.shallowType = some .bool -> cut = 0) :
    exists decision, decisionExpr e cut = some decision ∧
      ExtendsExpr.Replaceable F.paramNames decision := by
  have hreplaceable := attr2Expr_replaceable h
  rcases attr2Expr_type h with htype | htype
  · refine ⟨e.not, ?_, hreplaceable.not⟩
    simp [decisionExpr, htype, hcut htype]
  · refine ⟨.le e (.intLiteral cut), ?_,
      hreplaceable.binary (ExtendsExpr.Replaceable.literal _)⟩
    simp [decisionExpr, htype]

theorem C5TreeNode.WellFormed.constructBoogieExpr (h : tree.WellFormed F) (stack : List Expr) :
    exists formulas, tree.constructBoogieExpr F.attr2Expr stack = some (formulas, stack) ∧
        forall path, path ∈ formulas -> (stack <+: path) ∧ forall e, e ∈ path -> e ∈ stack ∨
            ExtendsExpr.Replaceable F.paramNames e := by
  induction h generalizing stack with
  | leaf classification =>
    unfold C5TreeNode.constructBoogieExpr
    split
    · refine ⟨[stack], rfl, ?_⟩
      intro path hpath
      rw [List.mem_singleton.mp hpath]
      exact ⟨List.prefix_refl stack, fun e he => Or.inl he⟩
    · exact ⟨[], rfl, fun path hpath => nomatch hpath⟩
  | node hattr hcut _ _ ihleft ihright =>
    rename_i attr cut left right e
    rcases decisionExpr_isSome hattr hcut with
      ⟨decision, hdecision, hreplaceable⟩
    rcases ihleft (stack ++ [decision]) with ⟨fl, hfl, hpathsl⟩
    rcases ihright (stack ++ [decision.not]) with ⟨fr, hfr, hpathsr⟩
    refine ⟨fl ++ fr, ?_, ?_⟩
    · unfold C5TreeNode.constructBoogieExpr
      simp [hattr, hdecision, hfl, hfr]
    · intro path hpath
      rcases List.mem_append.mp hpath with hpath | hpath
      · rcases hpathsl path hpath with ⟨hleading, hmem⟩
        refine ⟨(List.prefix_append stack _).trans hleading, ?_⟩
        intro e he
        rcases hmem e he with he | he
        · rcases List.mem_append.mp he with he | he
          · exact Or.inl he
          · rw [List.mem_singleton.mp he]
            exact Or.inr hreplaceable
        · exact Or.inr he
      · rcases hpathsr path hpath with ⟨hleading, hmem⟩
        refine ⟨(List.prefix_append stack _).trans hleading, ?_⟩
        intro e he
        rcases hmem e he with he | he
        · rcases List.mem_append.mp he with he | he
          · exact Or.inl he
          · rw [List.mem_singleton.mp he]
            exact Or.inr hreplaceable.not
        · exact Or.inr he

variable {U : Type} [DecidableEq U] {I : Interp U} {σ₀ σ : Env U}
  {actuals : List (TypedIdent × Value U)}

theorem Assigned.holds_decision (σ₀ : Env U) (h : Assigned I F actuals σ)
    {key : String} {e decision : Expr} {cut : Int} (he : F.attr2Expr key = some e)
    (hdecision : decisionExpr e cut = some decision) :
    exists n, F.attributeVector (actuals.map (fun x => encode x.2)) key =
      some n ∧ (decision.Holds I σ₀ σ <-> n ≤ cut) := by
  rcases h.attribute σ₀ he with ⟨n, hn, hmeaning⟩
  refine ⟨n, hn, ?_⟩
  rcases hmeaning with ⟨htype, b, hb, rfl⟩ | ⟨htype, hvalue⟩
  · simp only [decisionExpr, htype, Option.ite_none_right_eq_some,
      Option.some.injEq] at hdecision
    rcases hdecision with ⟨rfl, rfl⟩
    rw [Expr.holds_not, Expr.Holds, hb]
    cases b <;> simp
  · simp only [decisionExpr, htype, Option.some.injEq] at hdecision
    rw [← hdecision, Expr.holds_le, hvalue, Value.toInt_int]

theorem C5TreeNode.WellFormed.holds_path_iff (htree : tree.WellFormed F)
    (h : Assigned I F actuals σ) {stack : List Expr}
    {formulas : List (List Expr)} (hformulas : tree.constructBoogieExpr F.attr2Expr stack =
      some (formulas, stack)) :
    (exists path, path ∈ formulas ∧ forall e, e ∈ path -> e.Holds I σ₀ σ) <->
      (forall e, e ∈ stack -> e.Holds I σ₀ σ) ∧ tree.Positive
          (F.attributeVector (actuals.map (fun x => encode x.2))) := by
  induction htree generalizing stack formulas with
  | leaf classification =>
    unfold C5TreeNode.constructBoogieExpr at hformulas
    unfold C5TreeNode.Positive C5TreeNode.classify
    simp only [Option.some.injEq]
    split at hformulas
    · rename_i hclass
      cases hformulas
      simp [hclass]
    · rename_i hclass
      cases hformulas
      simp [hclass]
  | node hattr hcut hleft hright ihleft ihright =>
    rename_i attr cut left right e
    rcases decisionExpr_isSome hattr hcut with ⟨decision, hdecision, _⟩
    rcases hleft.constructBoogieExpr (stack ++ [decision]) with
      ⟨fl, hfl, _⟩
    rcases hright.constructBoogieExpr (stack ++ [decision.not]) with
      ⟨fr, hfr, _⟩
    rcases h.holds_decision σ₀ hattr hdecision with ⟨n, hn, hholds⟩
    have hsplit : formulas = fl ++ fr := by
      unfold C5TreeNode.constructBoogieExpr at hformulas
      simp [hattr, hdecision, hfl, hfr] at hformulas
      exact hformulas.symm
    have hclassify : C5TreeNode.Positive
        (F.attributeVector (actuals.map (fun x => encode x.2)))
        (.node attr cut [left, right]) <->
        if n ≤ cut then left.Positive
          (F.attributeVector (actuals.map (fun x => encode x.2)))
        else right.Positive
          (F.attributeVector (actuals.map (fun x => encode x.2))) := by
      unfold C5TreeNode.Positive
      rw [C5TreeNode.classify, hn]
      simp only
      split <;> rfl
    have hstack : forall {d : Expr}, (forall e, e ∈ stack ++ [d] ->
        e.Holds I σ₀ σ) <->
        (forall e, e ∈ stack -> e.Holds I σ₀ σ) ∧ d.Holds I σ₀ σ := by
      intro d
      simp [or_imp, forall_and]
    have hboth : (exists path, path ∈ fl ++ fr ∧
        forall e, e ∈ path -> e.Holds I σ₀ σ) <->
        (exists path, path ∈ fl ∧ forall e, e ∈ path -> e.Holds I σ₀ σ) ∨
          exists path, path ∈ fr ∧
            forall e, e ∈ path -> e.Holds I σ₀ σ := by
      simp [List.mem_append, or_and_right, exists_or]
    rw [hsplit, hboth, ihleft hfl, ihright hfr, hstack, hstack,
      Expr.holds_not, hholds, hclassify]
    by_cases hn' : n ≤ cut <;> simp [hn']

end Trees

/-!
# Models
-/

namespace ExtendsExpr

section Formulas

variable {U : Type} [DecidableEq U] {I : Interp U} {σ₀ σ : Env U}
  {oldvars : List String}

theorem holds_conjunction {exprs : List Expr} (h : exprs ≠ []) :
    (conjunction exprs).Holds I σ₀ σ <-> forall e, e ∈ exprs -> e.Holds I σ₀ σ := by
  fun_induction conjunction exprs with
  | case1 => exact absurd rfl h
  | case2 e => simp
  | case3 lhs exprs hne ih =>
    rw [Expr.holds_and, ih hne]
    simp

theorem holds_disjunction {formulas : List (List Expr)}
    (hne : forall path, path ∈ formulas -> path ≠ []) :
    (disjunction formulas).Holds I σ₀ σ <-> exists path, path ∈ formulas ∧
        forall e, e ∈ path -> e.Holds I σ₀ σ := by
  fun_induction disjunction formulas with
  | case1 => simp
  | case2 exprs =>
    rw [holds_conjunction (hne exprs (by simp))]
    simp
  | case3 lhs exprs _ ih =>
    rw [Expr.holds_or, holds_conjunction (hne lhs (by simp)),
      ih (fun path hpath => hne path (by simp [hpath]))]
    simp

theorem Replaceable.conjunction {exprs : List Expr}
    (h : forall e, e ∈ exprs -> Replaceable oldvars e) :
    Replaceable oldvars (conjunction exprs) := by
  fun_induction ExtendsExpr.conjunction exprs with
  | case1 => exact Replaceable.literal _
  | case2 e => exact h e (by simp)
  | case3 lhs exprs _ ih =>
    exact (h lhs (by simp)).and (ih (fun e he => h e (by simp [he])))

theorem Replaceable.disjunction {formulas : List (List Expr)}
    (h : forall path, path ∈ formulas -> forall e, e ∈ path -> Replaceable oldvars e) :
    Replaceable oldvars (disjunction formulas) := by
  fun_induction ExtendsExpr.disjunction formulas with
  | case1 => exact Replaceable.literal _
  | case2 exprs => exact Replaceable.conjunction (h exprs (by simp))
  | case3 lhs exprs _ ih =>
    exact (Replaceable.conjunction (h lhs (by simp))).or
      (ih (fun path hpath => h path (by simp [hpath])))

end Formulas

end ExtendsExpr

theorem C5Domain.constructModelOf_spec {F : ExistentialFunction}
    {tree : C5TreeNode} (htree : tree.WellFormed F) (d : C5Domain) :
    exists d' changed, d.constructModelOf tree F.attr2Expr = some (d', changed) ∧
      d'.vars = d.vars ∧ ExtendsExpr.Replaceable F.paramNames d'.model ∧
      forall {U : Type} [DecidableEq U] {I : Interp U} {σ₀ σ : Env U}
        {actuals : List (TypedIdent × Value U)}, Assigned I F actuals σ ->
        (d'.model.Holds I σ₀ σ <-> tree.Positive
          (F.attributeVector (actuals.map (fun x => encode x.2)))) := by
  rcases htree.constructBoogieExpr [.trueExpr] with
    ⟨formulas, hformulas, hpaths⟩
  have hmodel : (if formulas = [] then Expr.falseExpr
      else ExtendsExpr.disjunction formulas) =
        ExtendsExpr.disjunction formulas := by
    split
    · rename_i hnil
      rw [hnil]
      rfl
    · rfl
  refine ⟨{ d with model := ExtendsExpr.disjunction formulas },
    !ExtendsExpr.equalityComparer (ExtendsExpr.disjunction formulas) d.model,
    ?_, rfl, ?_, ?_⟩
  · simp only [constructModelOf, hformulas, hmodel]
  · apply ExtendsExpr.Replaceable.disjunction
    intro path hpath e he
    rcases (hpaths path hpath).2 e he with he | he
    · rw [List.mem_singleton.mp he]
      exact ExtendsExpr.Replaceable.literal _
    · exact he
  · intro U _ I σ₀ σ actuals h
    have hne : forall path, path ∈ formulas -> path ≠ [] := by
      intro path hpath hnil
      have hleading := (hpaths path hpath).1
      rw [hnil] at hleading
      cases List.prefix_nil.mp hleading
    show (ExtendsExpr.disjunction formulas).Holds I σ₀ σ <-> _
    rw [ExtendsExpr.holds_disjunction hne, htree.holds_path_iff h hformulas]
    simp

theorem ExistentialFunctions.lookup (fs : ExistentialFunctions) {i : Nat}
    {F : ExistentialFunction} (h : fs.functions[i]? = some F) :
    fs.attribute2Expr F.name = some F.attr2Expr ∧ fs.functionID F.name = some i := by
  have hmem : F ∈ fs.functions := List.mem_of_getElem? h
  constructor
  · unfold attribute2Expr
    cases hfind : fs.functions.find? (fun G => G.name = F.name) with
    | none =>
      have hnot := List.find?_eq_none.mp hfind F hmem
      simp at hnot
    | some G =>
      have hname := List.find?_some hfind
      rw [decide_eq_true_eq] at hname
      have hG := List.mem_of_find?_eq_some hfind
      rw [List.inj_on_of_nodup_map fs.distinct hG hmem hname]
      rfl
  · have hname : F.name ∈ fs.functions.map ExistentialFunction.name :=
      List.mem_map_of_mem hmem
    rcases Option.isSome_iff_exists.mp (List.isSome_idxOf?.mpr hname) with
      ⟨j, hj⟩
    rcases ExtendsExpr.getElem_of_idxOf? hj with ⟨hbound, hget⟩
    rcases List.getElem?_eq_some_iff.mp h with ⟨hi, hFi⟩
    have hi' : i < (fs.functions.map ExistentialFunction.name).length := by
      simpa using hi
    have hsame : (fs.functions.map ExistentialFunction.name)[j] =
        (fs.functions.map ExistentialFunction.name)[i] := by
      rw [hget, List.getElem_map, hFi]
    rw [functionID, hj, (List.Nodup.getElem_inj_iff fs.distinct).mp hsame]

/--
The model that the learner's tree gives a function holds for actual arguments
exactly when the tree leads from the attributes of their values to a positive
leaf.
-/
theorem gamma_constructModel_holds_iff
    (fs : ExistentialFunctions) {i : Nat} {F : ExistentialFunction} (hF : fs.functions[i]? = some F)
    {children : List C5TreeNode} {tree : C5TreeNode}
    (hchild : children[i]? = some tree) (htree : tree.WellFormed F)
    (attr : String) (cut : Int) {d : C5Domain} (hvars : d.vars = F.paramNames) :
    exists d' changed, d.constructModel F.name (.node attr cut children) fs.attribute2Expr
        fs.functionID = some (d', changed) ∧ d'.vars = F.paramNames ∧
      forall {U : Type} [DecidableEq U] (I : Interp U) (ρ₀ ρ : Env U)
        (args : List Expr), args.length = F.inParams.length -> (forall x, x ∈ F.inParams.zip args ->
          I.HasType (x.2.eval I ρ₀ ρ) x.1.type) -> exists e, d'.gamma args = some e ∧
          (e.Holds I ρ₀ ρ <-> tree.Positive (F.attributeVector
            (args.map (fun a => encode (a.eval I ρ₀ ρ))))) := by
  rcases C5Domain.constructModelOf_spec htree d with
    ⟨d', changed, hd', hvars', hreplaceable, hmeaning⟩
  rcases fs.lookup hF with ⟨hdictionary, hid⟩
  refine ⟨d', changed, ?_, hvars'.trans hvars, ?_⟩
  · simp [C5Domain.constructModel, hdictionary, hid, hchild, hd']
  · intro U _ I ρ₀ ρ args hlength htyped
    have hvarsd : d'.vars = F.paramNames := hvars'.trans hvars
    have hlength' : F.paramNames.length = args.length := by
      simp [ExistentialFunction.paramNames, hlength]
    rcases ExtendsExpr.replace_isSome hlength' hreplaceable with ⟨e, he⟩
    refine ⟨e, ?_, ?_⟩
    · rw [C5Domain.gamma, hvarsd, he]
    · rcases exists_assigned hlength htyped with ⟨actuals, hassigned, hpoint⟩
      rw [hpoint, ← @hmeaning U _ I ρ₀ _ _ hassigned, Expr.Holds, Expr.Holds,
        ExtendsExpr.eval_replace he]

theorem sampleFunction_plain : PlainName "f" := by
  decide

def sampleFunction : ExistentialFunction where
  name := "f"
  inParams := [⟨"b", .bool⟩, ⟨"x", .int⟩, ⟨"y", .int⟩]
  types := by decide
  distinct := by decide
  plain := sampleFunction_plain
  plainParams := by decide

def sampleFunctions : ExistentialFunctions where
  functions := [sampleFunction]
  distinct := by decide

def sampleTree : C5TreeNode :=
  .node "$f$x+y" 3
    [.leaf "true", .node "f$b" 0 [.leaf "false", .leaf "true"]]

theorem sampleTree_wellFormed : sampleTree.WellFormed sampleFunction := by
  have hsum : sampleFunction.attr2Expr "$f$x+y" =
      some (.add (.ident (.formal ⟨"x", .int⟩))
        (.ident (.formal ⟨"y", .int⟩))) := by
    decide
  have hbool : sampleFunction.attr2Expr "f$b" =
      some (.ident (.formal ⟨"b", .bool⟩)) := by
    decide
  apply C5TreeNode.WellFormed.node hsum
  · intro htype
    cases htype
  · exact C5TreeNode.WellFormed.leaf _
  · apply C5TreeNode.WellFormed.node hbool (fun _ => rfl)
    · exact C5TreeNode.WellFormed.leaf _
    · exact C5TreeNode.WellFormed.leaf _

def sampleArgs : List Expr :=
  [.trueExpr, .intLiteral 2, .intLiteral 5]

/-- The learned model of the sample tree holds for `f(true, 2, 5)`. -/
theorem gamma_constructModel_holds_iff_sample :
    exists (I : Interp Unit) (ρ : Env Unit) (d' : C5Domain) (changed : Bool) (e : Expr),
      (C5Domain.new sampleFunction.inParams).constructModel "f"
        (.node "$pc" 0 [sampleTree]) sampleFunctions.attribute2Expr
        sampleFunctions.functionID = some (d', changed) ∧
      d'.gamma sampleArgs = some e ∧ e.Holds I ρ ρ := by
  let I : Interp Unit :=
    { sort := fun _ => ""
      func := fun _ _ => .bool false
      select := fun _ => .bool false
      store := fun _ => .bool false }
  let ρ : Env Unit := fun _ => .bool false
  have hF : sampleFunctions.functions[0]? = some sampleFunction := rfl
  have hchild : [sampleTree][0]? = some sampleTree := rfl
  have hvars : (C5Domain.new sampleFunction.inParams).vars =
      sampleFunction.paramNames := rfl
  rcases gamma_constructModel_holds_iff sampleFunctions hF hchild
    sampleTree_wellFormed "$pc" 0 hvars with ⟨d', changed, hd', _, hmeaning⟩
  have htyped : forall x, x ∈ sampleFunction.inParams.zip sampleArgs ->
      I.HasType (x.2.eval I ρ ρ) x.1.type := by
    intro x hx
    simp only [sampleFunction, sampleArgs, List.zip_cons_cons, List.zip_nil_left,
      List.mem_cons, List.not_mem_nil, or_false] at hx
    rcases hx with rfl | rfl | rfl <;>
      simp [Expr.trueExpr, Expr.intLiteral, Literal.value, Interp.HasType]
  rcases hmeaning I ρ ρ sampleArgs rfl htyped with ⟨e, he, hholds⟩
  refine ⟨I, ρ, d', changed, e, hd', he, hholds.mpr (Or.inl ?_)⟩
  have hpoint : sampleArgs.map (fun a => encode (a.eval I ρ ρ)) = [1, 2, 5] := by
    simp [sampleArgs, Expr.trueExpr, Expr.intLiteral, Literal.value, encode]
  rw [hpoint]
  decide

end MLHoudini

end Boogie
