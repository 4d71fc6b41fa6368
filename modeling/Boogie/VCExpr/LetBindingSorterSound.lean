import Boogie.VCExpr.LetBindingSorter

/-!
# What the sorter gives

Sorting and dropping bindings keeps the value of an expression. In the result
each binding of a let refers to earlier ones only, and the bindings that are left
are those that the body needs.
-/

namespace Boogie
namespace VCExprAST

variable {S : Signature}

inductive Needed (bs : List (LetBinding S)) (body : VCExpr S) :
    S.Var -> Prop where
  | body {x : S.Var} (hfree : FreeIn x body) (hx : x ∈ bs.map Prod.fst) :
      Needed bs body x
  | binding {x : S.Var} {b : LetBinding S} (hneeded : Needed bs body b.1)
      (hb : b ∈ bs) (hfree : FreeIn x b.2) (hx : x ∈ bs.map Prod.fst) :
      Needed bs body x

def RefersBack (bs : List (LetBinding S)) : Prop :=
  forall pre b post, bs = pre ++ b :: post -> forall x, FreeIn x b.2 ->
    x ∈ bs.map Prod.fst -> x ∈ pre.map Prod.fst

inductive LetsSorted : VCExpr S -> Prop where
  | literal (l : S.Literal) : LetsSorted (.literal l)
  | var (x : S.Var) : LetsSorted (.var x)
  | nary {op : S.Op} {args : List (VCExpr S)}
      (hargs : forall a, a ∈ args -> LetsSorted a) : LetsSorted (.nary op args)
  | quantifier {quan : S.Quan} {as : List S.TypeVar} {xs : List S.Var}
      {triggers : List (Bool × List (VCExpr S))} {body : VCExpr S}
      (htriggers : forall t, t ∈ triggers -> forall a, a ∈ t.2 -> LetsSorted a)
      (hbody : LetsSorted body) :
      LetsSorted (.quantifier quan as xs triggers body)
  | letExpr {bs : List (LetBinding S)} {body : VCExpr S}
      (hsorted : RefersBack bs) (hbindings : forall b, b ∈ bs -> LetsSorted b.2)
      (hbody : LetsSorted body) : LetsSorted (.letExpr bs body)

/-!
# Dropping bindings
-/

theorem mem_addUsed {used freeVars : List S.Var} {x : S.Var} :
    x ∈ addUsed used freeVars <-> x ∈ used ∨ x ∈ freeVars := by
  unfold addUsed
  induction freeVars generalizing used with
  | nil => simp
  | cons v rest ih =>
    rw [List.foldl_cons, ih]
    split
    next hv =>
      constructor
      · intro h
        rcases h with hused | hrest
        · exact Or.inl hused
        · exact Or.inr (List.mem_cons_of_mem v hrest)
      · intro h
        rcases h with hused | hcons
        · exact Or.inl hused
        · rcases List.mem_cons.mp hcons with rfl | hrest
          · exact Or.inl hv
          · exact Or.inr hrest
    next =>
      simp only [List.mem_append, List.mem_cons, List.not_mem_nil, or_false]
      tauto

theorem dropUnused_cons (used : List S.Var) (b : Binding S)
    (rest : List (Binding S)) : dropUnused used (b :: rest) = if b.v ∈ (dropUnused used rest).1 then
        (addUsed (dropUnused used rest).1 b.freeVars, b :: (dropUnused used rest).2)
      else dropUnused used rest := rfl

theorem mem_dropUnused {used : List S.Var} {sorted : List (Binding S)}
    {x : S.Var} : x ∈ (dropUnused used sorted).1 <-> x ∈ used ∨
      exists b, b ∈ (dropUnused used sorted).2 ∧ x ∈ b.freeVars := by
  induction sorted with
  | nil => simp [dropUnused]
  | cons b rest ih =>
    rw [dropUnused_cons]
    split
    next =>
      rw [mem_addUsed, ih]
      simp only [List.mem_cons, exists_eq_or_imp]
      constructor
      · intro h
        rcases h with (hused | hkept) | hb
        · exact Or.inl hused
        · exact Or.inr (Or.inr hkept)
        · exact Or.inr (Or.inl hb)
      · intro h
        rcases h with hused | hb | hkept
        · exact Or.inl (Or.inl hused)
        · exact Or.inr hb
        · exact Or.inl (Or.inr hkept)
    next => exact ih

theorem dropUnused_sublist {used : List S.Var} {sorted : List (Binding S)} :
    (dropUnused used sorted).2.Sublist sorted := by
  induction sorted with
  | nil => exact List.Sublist.slnil
  | cons b rest ih =>
    rw [dropUnused_cons]
    split
    next => exact ih.cons_cons b
    next => exact ih.cons b

/-!
# Sorting bindings
-/

def Binding.toLet (b : Binding S) : LetBinding S :=
  (b.v, b.e)

theorem map_fst_toLet (bs : List (Binding S)) :
    (bs.map Binding.toLet).map Prod.fst = bs.map Binding.v := by
  rw [List.map_map]
  rfl

structure Sortable (bs : List (Binding S)) : Prop where
  distinct : (bs.map Binding.v).Nodup
  freeVars : forall b, b ∈ bs -> b.freeVars = freeVarsIn b.e
  acyclic : Acyclic (bs.map Binding.toLet)

section Sorting

variable {bs sorted : List (Binding S)}

theorem Sortable.sort_spec (h : Sortable bs) :
    (topologicalSort bs).Perm bs ∧
      TopologicalSort.Ordered Binding.v Binding.freeVars bs (topologicalSort bs) := by
  refine TopologicalSort.sort_spec h.distinct ?_ ?_
  · intro b hb
    rw [h.freeVars b hb]
    exact nodup_freeVarsIn b.e
  · intro x hx
    refine h.acyclic x (Relation.TransGen.mono ?_ _ _ hx)
    intro y z ⟨b, hb, hz, hy, hmem⟩
    rw [h.freeVars b hb, mem_freeVarsIn] at hy
    refine ⟨b.toLet, List.mem_map_of_mem hb, hz, hy, ?_⟩
    rw [map_fst_toLet]
    exact hmem

structure SortedBindings (bs sorted : List (Binding S)) : Prop where
  perm : sorted.Perm bs
  distinct : (sorted.map Binding.v).Nodup
  freeVars : forall b, b ∈ sorted -> b.freeVars = freeVarsIn b.e
  later : sorted.Pairwise (fun a b => ¬ FreeIn b.v a.e)
  self : forall b, b ∈ sorted -> ¬ FreeIn b.v b.e

theorem Sortable.sortedBindings (h : Sortable bs) :
    SortedBindings bs (topologicalSort bs) := by
  rcases h.sort_spec with ⟨hperm, hordered⟩
  have hdistinct : ((topologicalSort bs).map Binding.v).Nodup :=
    ((hperm.map Binding.v).nodup_iff).mpr h.distinct
  have hfree : forall b, b ∈ topologicalSort bs -> b.freeVars = freeVarsIn b.e :=
    fun b hb => h.freeVars b (hperm.mem_iff.mp hb)
  -- What a binding refers to stands before it, so it is neither itself nor later.
  have hback : forall pre b post, topologicalSort bs = pre ++ b :: post ->
      forall c, c ∈ b :: post -> ¬ FreeIn c.v b.e := by
    intro pre b post heq c hc hfreeIn
    have hb : b ∈ topologicalSort bs := by simp [heq]
    have hcmem : c ∈ topologicalSort bs := by
      rw [heq]
      exact List.mem_append_right _ hc
    have hin := hordered pre b post heq c.v
      (by rw [hfree b hb]; exact mem_freeVarsIn.mpr hfreeIn)
      (List.mem_map_of_mem (hperm.mem_iff.mp hcmem))
    rw [heq, List.map_append] at hdistinct
    exact (List.nodup_append.mp hdistinct).2.2 _ hin _
      (List.mem_map_of_mem hc) rfl
  have hsuffix : forall post pre, topologicalSort bs = pre ++ post ->
      post.Pairwise (fun a b => ¬ FreeIn b.v a.e) ∧
        forall b, b ∈ post -> ¬ FreeIn b.v b.e := by
    intro post
    induction post with
    | nil =>
      intro pre _
      exact ⟨List.Pairwise.nil, by simp⟩
    | cons b post ih =>
      intro pre heq
      rcases ih (pre ++ [b]) (by simpa using heq) with ⟨hlater, hself⟩
      have hb := hback pre b post heq
      refine ⟨List.pairwise_cons.mpr
        ⟨fun c hc => hb c (List.mem_cons_of_mem b hc), hlater⟩, ?_⟩
      intro c hc
      rcases List.mem_cons.mp hc with rfl | hrest
      · exact hb c List.mem_cons_self
      · exact hself c hrest
  rcases hsuffix (topologicalSort bs) [] rfl with ⟨hlater, hself⟩
  exact ⟨hperm, hdistinct, hfree, hlater, hself⟩

theorem SortedBindings.mem_kept (h : SortedBindings bs sorted) (body : VCExpr S)
    (post pre : List (Binding S)) (heq : sorted = pre ++ post) (b : Binding S) (hb : b ∈ post) :
    b ∈ (dropUnused (addUsed [] (freeVarsIn body)) post).2 <->
      Needed (bs.map Binding.toLet) body b.v := by
  induction post generalizing pre b with
  | nil => cases hb
  | cons c post ih =>
    have hkept : forall d, d ∈ post ->
        (d ∈ (dropUnused (addUsed [] (freeVarsIn body)) post).2 <->
          Needed (bs.map Binding.toLet) body d.v) :=
      fun d hd => ih (pre ++ [c]) (by simpa using heq) d hd
    have hmem : forall d, d ∈ sorted -> d.toLet ∈ bs.map Binding.toLet :=
      fun d hd => List.mem_map_of_mem (h.perm.mem_iff.mp hd)
    have hkey : forall d, d ∈ sorted ->
        d.v ∈ (bs.map Binding.toLet).map Prod.fst := by
      intro d hd
      rw [map_fst_toLet]
      exact List.mem_map_of_mem (h.perm.mem_iff.mp hd)
    have hsub : forall d, d ∈ c :: post -> d ∈ sorted := by
      intro d hd
      rw [heq]
      exact List.mem_append_right _ hd
    have hused : c.v ∈ (dropUnused (addUsed [] (freeVarsIn body)) post).1 <->
        Needed (bs.map Binding.toLet) body c.v := by
      rw [mem_dropUnused, mem_addUsed, mem_freeVarsIn]
      constructor
      · intro hcases
        rcases hcases with (hnil | hbody) | ⟨d, hd, hfree⟩
        · cases hnil
        · exact .body hbody (hkey c (hsub c List.mem_cons_self))
        · have hdpost := dropUnused_sublist.subset hd
          have hdsorted := hsub d (List.mem_cons_of_mem c hdpost)
          rw [h.freeVars d hdsorted, mem_freeVarsIn] at hfree
          exact .binding ((hkept d hdpost).mp hd) (hmem d hdsorted) hfree
            (hkey c (hsub c List.mem_cons_self))
      · intro hneeded
        cases hneeded with
        | body hfree _ => exact Or.inl (Or.inr hfree)
        | @binding _ l hl hlmem hfree _ =>
          right
          rcases List.mem_map.mp hlmem with ⟨d, hd, rfl⟩
          have hdsorted := h.perm.mem_iff.mpr hd
          have hdpost : d ∈ post := by
            -- A binding that refers to `c` is neither `c` nor before it.
            have hin := hdsorted
            rw [heq] at hin
            rcases List.mem_append.mp hin with hpre | hrest
            · have hlater := h.later
              rw [heq] at hlater
              exact absurd hfree ((List.pairwise_append.mp hlater).2.2 d hpre
                c List.mem_cons_self)
            · rcases List.mem_cons.mp hrest with rfl | hpost
              · exact absurd hfree (h.self d hdsorted)
              · exact hpost
          refine ⟨d, (hkept d hdpost).mpr hl, ?_⟩
          rw [h.freeVars d hdsorted, mem_freeVarsIn]
          exact hfree
    have hnotin : forall d, d ∈ post -> d ≠ c := by
      intro d hd hdc
      have hdistinct := h.distinct
      rw [heq, List.map_append] at hdistinct
      have hcons := (List.nodup_append.mp hdistinct).2.1
      rw [List.map_cons, List.nodup_cons] at hcons
      exact hcons.1 (hdc ▸ List.mem_map_of_mem hd)
    rw [dropUnused_cons]
    rcases List.mem_cons.mp hb with rfl | hpost
    · split
      next hin => simpa using hused.mp hin
      next hout =>
        constructor
        · intro hin
          exact absurd rfl (hnotin b (dropUnused_sublist.subset hin))
        · intro hneeded
          exact absurd (hused.mpr hneeded) hout
    · split
      next =>
        rw [List.mem_cons, hkept b hpost]
        constructor
        · intro hcases
          rcases hcases with hbc | hneeded
          · exact absurd hbc (hnotin b hpost)
          · exact hneeded
        · exact Or.inr
      next => exact hkept b hpost

end Sorting

/-- What is left of the bindings `bs` of a let. -/
structure Kept (bs : List (LetBinding S)) (body : VCExpr S)
    (kept : List (LetBinding S)) : Prop where
  subset : forall b, b ∈ kept -> b ∈ bs
  distinct : (kept.map Prod.fst).Nodup
  refersBack : RefersBack kept
  needed : forall x, x ∈ kept.map Prod.fst <-> Needed bs body x

theorem Needed.mem {bs : List (LetBinding S)} {body : VCExpr S} {x : S.Var}
    (h : Needed bs body x) : x ∈ bs.map Prod.fst := by
  cases h with
  | body _ hx => exact hx
  | binding _ _ _ hx => exact hx

theorem Sortable.kept {bs : List (Binding S)} (h : Sortable bs)
    (body : VCExpr S) : Kept (bs.map Binding.toLet) body
      ((dropUnused (addUsed [] (freeVarsIn body)) (topologicalSort bs)).2.map Binding.toLet) := by
  have hsorted := h.sortedBindings
  have hsublist := @dropUnused_sublist S (addUsed [] (freeVarsIn body))
    (topologicalSort bs)
  have hmem := hsorted.mem_kept body (topologicalSort bs) [] rfl
  refine ⟨?_, ?_, ?_, ?_⟩
  · intro l hl
    rcases List.mem_map.mp hl with ⟨b, hb, rfl⟩
    exact List.mem_map_of_mem
      (hsorted.perm.mem_iff.mp (hsublist.subset hb))
  · rw [map_fst_toLet]
    exact hsorted.distinct.sublist (hsublist.map Binding.v)
  · intro pre l post heq x hfree hx
    rw [List.map_eq_append_iff] at heq
    rcases heq with ⟨pre', rest, hkept, rfl, hrest⟩
    rw [List.map_eq_cons_iff] at hrest
    rcases hrest with ⟨b, post', rfl, rfl, rfl⟩
    have hlater := hsorted.later.sublist hsublist
    rw [hkept] at hlater hx
    rw [map_fst_toLet] at hx ⊢
    rcases List.mem_map.mp hx with ⟨c, hc, rfl⟩
    rcases List.mem_append.mp hc with hpre | hcons
    · exact List.mem_map_of_mem hpre
    · exfalso
      rcases List.mem_cons.mp hcons with rfl | hpost
      · refine hsorted.self c (hsublist.subset ?_) hfree
        rw [hkept]
        exact List.mem_append_right _ List.mem_cons_self
      · exact (List.pairwise_cons.mp (List.pairwise_append.mp hlater).2.1).1 c hpost
          hfree
  · intro x
    rw [map_fst_toLet]
    constructor
    · intro hx
      rcases List.mem_map.mp hx with ⟨b, hb, rfl⟩
      exact (hmem b (hsublist.subset hb)).mp hb
    · intro hneeded
      have hx := hneeded.mem
      rw [map_fst_toLet] at hx
      rcases List.mem_map.mp hx with ⟨b, hb, rfl⟩
      exact List.mem_map_of_mem
        ((hmem b (hsorted.perm.mem_iff.mpr hb)).mpr hneeded)

/-!
# The result
-/

def rewritten (bs : List (LetBinding S)) : List (Binding S) :=
  bs.map (fun b => Binding.mk b.1 (mutate b.2) (freeVarsIn (mutate b.2)))

def keptBindings (bs : List (LetBinding S)) (newBody : VCExpr S) :
    List (LetBinding S) :=
  (dropUnused (addUsed [] (freeVarsIn newBody))
    (topologicalSort (rewritten bs))).2.map Binding.toLet

theorem mutate_letExpr (bs : List (LetBinding S)) (body : VCExpr S) :
    mutate (.letExpr bs body) = genLet (keptBindings bs (mutate body)) (mutate body) := by
  rw [mutate]
  rfl

theorem map_toLet_rewritten (bs : List (LetBinding S)) :
    (rewritten bs).map Binding.toLet = bs.map (fun b => (b.1, mutate b.2)) := by
  unfold rewritten
  rw [List.map_map]
  rfl

theorem map_fst_rewritten (bs : List (LetBinding S)) :
    (bs.map (fun b => (b.1, mutate b.2))).map Prod.fst = bs.map Prod.fst := by
  rw [List.map_map]
  rfl

theorem freeIn_genLet {bs : List (LetBinding S)} {body : VCExpr S} {x : S.Var}
    (h : FreeIn x (genLet bs body)) : x ∉ bs.map Prod.fst ∧
      (FreeIn x body ∨ exists b, b ∈ bs ∧ FreeIn x b.2) := by
  unfold genLet at h
  split at h
  next hempty =>
    rw [List.isEmpty_iff.mp hempty]
    exact ⟨by simp, Or.inl h⟩
  next =>
    cases h with
    | binding hx hb hfree => exact ⟨hx, Or.inr ⟨_, hb, hfree⟩⟩
    | body hx hfree => exact ⟨hx, Or.inl hfree⟩

structure IsSorted (e e' : VCExpr S) : Prop where
  freeIn : forall x, FreeIn x e' -> FreeIn x e
  wellBound : WellBound e'
  letsSorted : LetsSorted e'
  eval_eq : forall (M : Interp S) (ρ : Env M), eval M e' ρ = eval M e ρ

section Let

variable {bs : List (LetBinding S)} {body : VCExpr S}

theorem acyclic_rewritten (hacyclic : Acyclic bs)
    (hbs : forall b, b ∈ bs -> IsSorted b.2 (mutate b.2)) :
    Acyclic (bs.map (fun b => (b.1, mutate b.2))) := by
  intro x hx
  refine hacyclic x (Relation.TransGen.mono ?_ _ _ hx)
  intro y z ⟨l, hl, hz, hfree, hmem⟩
  rcases List.mem_map.mp hl with ⟨b, hb, rfl⟩
  rw [map_fst_rewritten] at hmem
  exact ⟨b, hb, hz, (hbs b hb).freeIn y hfree, hmem⟩

variable (body) in
theorem kept_keptBindings (hdistinct : (bs.map Prod.fst).Nodup) (hacyclic : Acyclic bs)
    (hbs : forall b, b ∈ bs -> IsSorted b.2 (mutate b.2)) :
    Kept (bs.map (fun b => (b.1, mutate b.2))) (mutate body) (keptBindings bs (mutate body)) := by
  have hsortable : Sortable (rewritten bs) := by
    refine ⟨?_, ?_, ?_⟩
    · rw [← map_fst_toLet, map_toLet_rewritten, map_fst_rewritten]
      exact hdistinct
    · intro b hb
      rcases List.mem_map.mp hb with ⟨l, _, rfl⟩
      rfl
    · rw [map_toLet_rewritten]
      exact acyclic_rewritten hacyclic hbs
  have hkept := hsortable.kept (mutate body)
  rw [map_toLet_rewritten] at hkept
  exact hkept

theorem Kept.acyclic {bs' kept : List (LetBinding S)}
    (h : Kept bs' body kept) (hacyclic : Acyclic bs') : Acyclic kept := by
  intro x hx
  refine hacyclic x (Relation.TransGen.mono ?_ _ _ hx)
  intro y z ⟨l, hl, hz, hfree, hmem⟩
  refine ⟨l, h.subset l hl, hz, hfree, ?_⟩
  rcases List.mem_map.mp hmem with ⟨m, hm, hy⟩
  exact List.mem_map.mpr ⟨m, h.subset m hm, hy⟩

theorem Kept.not_mem {bs' kept : List (LetBinding S)}
    (h : Kept bs' body kept) {x : S.Var} (hx : FreeIn x (genLet kept body)) :
    x ∉ bs'.map Prod.fst := by
  intro hmem
  rcases freeIn_genLet hx with ⟨hout, hbody | ⟨b, hb, hfree⟩⟩
  · exact hout ((h.needed x).mpr (.body hbody hmem))
  · have hneeded := (h.needed b.1).mp (List.mem_map_of_mem hb)
    exact hout ((h.needed x).mpr
      (.binding hneeded (h.subset b hb) hfree hmem))

theorem isSorted_letExpr (hdistinct : (bs.map Prod.fst).Nodup)
    (hacyclic : Acyclic bs) (hwell : forall b, b ∈ bs -> WellBound b.2) (hwellBody : WellBound body)
    (hbs : forall b, b ∈ bs -> IsSorted b.2 (mutate b.2)) (hbody : IsSorted body (mutate body)) :
    IsSorted (.letExpr bs body) (mutate (.letExpr bs body)) := by
  have hkept := kept_keptBindings body hdistinct hacyclic hbs
  rw [mutate_letExpr]
  generalize keptBindings bs (mutate body) = kept at hkept
  have hkeptWell : forall l, l ∈ kept -> WellBound l.2 ∧ LetsSorted l.2 := by
    intro l hl
    rcases List.mem_map.mp (hkept.subset l hl) with ⟨b, hb, rfl⟩
    exact ⟨(hbs b hb).wellBound, (hbs b hb).letsSorted⟩
  have hkeptAcyclic := hkept.acyclic (acyclic_rewritten hacyclic hbs)
  have hwellBound : WellBound (genLet kept (mutate body)) := by
    unfold genLet
    split
    next => exact hbody.wellBound
    next =>
      exact .letExpr hkept.distinct hkeptAcyclic
        (fun l hl => (hkeptWell l hl).1) hbody.wellBound
  refine ⟨?_, hwellBound, ?_, ?_⟩
  · intro x hx
    have hout := hkept.not_mem hx
    rw [map_fst_rewritten] at hout
    rcases freeIn_genLet hx with ⟨_, hfree | ⟨l, hl, hfree⟩⟩
    · exact .body hout (hbody.freeIn x hfree)
    · rcases List.mem_map.mp (hkept.subset l hl) with ⟨b, hb, rfl⟩
      exact .binding hout hb ((hbs b hb).freeIn x hfree)
  · unfold genLet
    split
    next => exact hbody.letsSorted
    next =>
      exact .letExpr hkept.refersBack (fun l hl => (hkeptWell l hl).2)
        hbody.letsSorted
  · intro M ρ
    have hfree : forall b, b ∈ bs -> DependsOnFree M b.2 :=
      fun b hb => (hwell b hb).dependsOnFree
    rcases exists_solution hdistinct hacyclic hfree ρ with ⟨η, hη⟩
    rw [eval_letExpr hacyclic hfree hwellBody.dependsOnFree hη, ← hbody.eval_eq]
    -- What is left of the let can be read in the solution of all bindings.
    have hsame : eval M (genLet kept (mutate body)) ρ =
        eval M (genLet kept (mutate body)) ⟨ρ.types, η⟩ := by
      apply hwellBound.dependsOnFree
      · rfl
      · intro x hx
        have hout := hkept.not_mem hx
        rw [map_fst_rewritten] at hout
        exact (hη.outside x hout).symm
    rw [hsame]
    unfold genLet
    split
    next => rfl
    next =>
      refine eval_letExpr hkeptAcyclic
        (fun l hl => (hkeptWell l hl).1.dependsOnFree)
        hbody.wellBound.dependsOnFree (ρ := ⟨ρ.types, η⟩) (η := η) ⟨fun _ _ => rfl, ?_⟩
      intro l hl
      rcases List.mem_map.mp (hkept.subset l hl) with ⟨b, hb, rfl⟩
      change η b.1 = eval M (mutate b.2) ⟨ρ.types, η⟩
      rw [(hbs b hb).eval_eq]
      exact hη.inside b hb

end Let

theorem WellBound.isSorted {e : VCExpr S} (h : WellBound e) :
    IsSorted e (mutate e) := by
  induction h with
  | literal l =>
    rw [mutate]
    exact ⟨fun _ h => h, .literal l, .literal l, fun _ _ => rfl⟩
  | var x =>
    rw [mutate]
    exact ⟨fun _ h => h, .var x, .var x, fun _ _ => rfl⟩
  | @nary op args _ ih =>
    rw [mutate]
    refine ⟨?_, .nary ?_, .nary ?_, ?_⟩
    · intro x hx
      cases hx with
      | arg ha hfree =>
        rcases List.mem_map.mp ha with ⟨a, ha', rfl⟩
        exact .arg ha' ((ih a ha').freeIn x hfree)
    · intro a' ha
      rcases List.mem_map.mp ha with ⟨a, ha', rfl⟩
      exact (ih a ha').wellBound
    · intro a' ha
      rcases List.mem_map.mp ha with ⟨a, ha', rfl⟩
      exact (ih a ha').letsSorted
    · intro M ρ
      rw [eval, eval, List.map_map]
      apply congrArg
      apply List.map_congr_left
      intro a ha
      exact (ih a ha).eval_eq M ρ
  | @quantifier quan as xs triggers body _ _ iht ih =>
    rw [mutate]
    have htrigger : forall t', t' ∈ triggers.map
          (fun t => (t.1, t.2.map (fun a => mutate a))) -> forall a', a' ∈ t'.2 ->
        exists t, t ∈ triggers ∧ exists a, a ∈ t.2 ∧ a' = mutate a := by
      intro t' ht a' ha
      rcases List.mem_map.mp ht with ⟨t, ht', rfl⟩
      rcases List.mem_map.mp ha with ⟨a, ha', rfl⟩
      exact ⟨t, ht', a, ha', rfl⟩
    refine ⟨?_, .quantifier ?_ ih.wellBound, .quantifier ?_ ih.letsSorted, ?_⟩
    · intro x hx
      cases hx with
      | trigger hout ht ha hfree =>
        rcases htrigger _ ht _ ha with ⟨t, ht', a, ha', rfl⟩
        exact .trigger hout ht' ha' ((iht t ht' a ha').freeIn x hfree)
      | matrix hout hfree => exact .matrix hout (ih.freeIn x hfree)
    · intro t' ht a' ha
      rcases htrigger t' ht a' ha with ⟨t, ht', a, ha', rfl⟩
      exact (iht t ht' a ha').wellBound
    · intro t' ht a' ha
      rcases htrigger t' ht a' ha with ⟨t, ht', a, ha', rfl⟩
      exact (iht t ht' a ha').letsSorted
    · intro M ρ
      rw [eval, eval]
      simp only [ih.eval_eq]
  | letExpr hdistinct hacyclic hwell hwellBody ihb ih =>
    exact isSorted_letExpr hdistinct hacyclic hwell hwellBody ihb ih

end VCExprAST
end Boogie
