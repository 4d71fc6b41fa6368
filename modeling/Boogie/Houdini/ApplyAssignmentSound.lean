import Boogie.Foundation.Traversal
import Boogie.Houdini.ApplyAssignment

/-!
# Programs without candidates

When exactly `ApplyAssignment` leaves a program that mentions no candidate and
whose annotations have the values of the assignment.
-/

namespace Boogie

namespace Houdini

/-!
# Lists of results
-/

section Results

variable {A : Type} {f : A -> Option (Option A)} {as as' : List A}

theorem exists_collectResults (h : forall a, a ∈ as -> exists result, f a = some result) :
    exists as', collectResults f as = some as' := by
  induction as with
  | nil => exact ⟨[], rfl⟩
  | cons a as ih =>
    rcases h a (by simp) with ⟨result, hresult⟩
    rcases ih (fun b hb => h b (List.mem_cons_of_mem a hb)) with
      ⟨rest, hrest⟩
    exact ⟨result.toList ++ rest, by simp [collectResults, hresult, hrest]⟩

theorem collectResults_cons {a : A} (h : collectResults f (a :: as) = some as') :
    exists result rest, f a = some result ∧ collectResults f as = some rest ∧
      as' = result.toList ++ rest := by
  simp only [collectResults, Option.bind_eq_bind, Option.bind_eq_some_iff,
    Option.pure_def, Option.some.injEq] at h
  rcases h with ⟨result, hresult, rest, hrest, rfl⟩
  exact ⟨result, rest, hresult, hrest, rfl⟩

theorem mem_collectResults {b : A} (h : collectResults f as = some as') :
    b ∈ as' <-> exists a, a ∈ as ∧ f a = some (some b) := by
  induction as generalizing as' with
  | nil =>
    cases h
    simp
  | cons a as ih =>
    rcases collectResults_cons h with ⟨result, rest, hresult, hrest, rfl⟩
    simp only [List.mem_append, Option.mem_toList, ih hrest, List.mem_cons]
    constructor
    · rintro (rfl | ⟨a', ha', hf⟩)
      · exact ⟨a, Or.inl rfl, hresult⟩
      · exact ⟨a', Or.inr ha', hf⟩
    · rintro ⟨a', rfl | ha', hf⟩
      · rw [hresult] at hf
        exact Or.inl (Option.some.inj hf)
      · exact Or.inr ⟨a', ha', hf⟩

theorem Aligned.of_collectResults {removed : A -> Prop}
    {becomes : A -> A -> Prop} (h : collectResults f as = some as')
    (hremoved : forall a, a ∈ as -> f a = some none -> removed a)
    (hbecomes : forall a b, a ∈ as -> f a = some (some b) -> becomes a b) :
    Aligned removed becomes as as' := by
  induction as generalizing as' with
  | nil =>
    cases h
    exact Aligned.nil
  | cons a as ih =>
    rcases collectResults_cons h with ⟨result, rest, hresult, hrest, rfl⟩
    have htail := ih hrest
      (fun b hb => hremoved b (List.mem_cons_of_mem a hb))
      (fun b c hb => hbecomes b c (List.mem_cons_of_mem a hb))
    cases result with
    | none => exact Aligned.removed (hremoved a (by simp) hresult) htail
    | some b => exact Aligned.becomes (hbecomes a b (by simp) hresult) htail

end Results

variable {p prog prog' : Program} {assignment : Variable -> Bool}
  {e e' : Expr} {c : Variable}

/-!
# Guards
-/

theorem Guards.mem (h : Guards p c e) : c ∈ p.houdiniConstants := by
  induction h with
  | here hc => exact hc
  | there _ ih => exact ih

theorem Guards.mentions (h : Guards p c e) : e.Mentions c := by
  induction h with
  | here _ => exact Expr.Mentions.nary (by simp) Expr.Mentions.ident
  | there _ ih => exact Expr.Mentions.nary (by simp) ih

theorem guards_of_name {names : List String} {name : String}
    (hres : p.Resolves e) (hc : c ∈ p.houdiniConstants) (hname : c.name = name)
    (h : Houdini.matchCandidate names e = some name) : Guards p c e := by
  fun_induction Houdini.matchCandidate names e with
  | case1 x consequent hx =>
    cases h
    have hsame : x = c := hres c hc x
      (Expr.Mentions.nary (by simp) Expr.Mentions.ident) hx.1 hname.symm
    subst hsame
    exact Guards.here hc
  | case2 x consequent hx ih =>
    apply Guards.there
    apply ih _ h
    intro d hd y hy
    exact hres d hd y (Expr.Mentions.nary (by simp) hy)
  | case3 antecedent consequent hident ih =>
    apply Guards.there
    apply ih _ h
    intro d hd y hy
    exact hres d hd y (Expr.Mentions.nary (by simp) hy)
  | case4 => cases h

theorem guards_of_matchCandidate (hres : p.Resolves e)
    (h : p.matchCandidate e = some c) : Guards p c e := by
  have hmatch := Program.name_of_matchCandidate h
  exact guards_of_name hres hmatch.2 rfl hmatch.1

/-!
# Treating one condition
-/

def Clean (p : Program) (e : Expr) : Prop :=
  forall c, c ∈ p.houdiniConstants -> ¬ e.Mentions c

def satisfied (c : Variable) (e : Expr) : Expr :=
  Substituter.apply (fun v => if v = c then some Expr.trueExpr else none) e

theorem findConstant_of_mem (h : Declares p prog)
    (hc : c ∈ p.houdiniConstants) : findConstant prog c.name = some c := by
  have hmem := h.declared c hc
  have hnames : (prog.constants.map Constant.variable).Pairwise
      (fun v w => v.name ≠ w.name) := by
    have hnodup := h.names
    rw [List.Nodup, List.pairwise_map] at hnodup
    exact List.pairwise_map.mpr hnodup
  unfold findConstant
  generalize prog.constants.map Constant.variable = vs at hmem hnames
  induction vs with
  | nil => cases hmem
  | cons v vs ih =>
    rw [List.pairwise_cons] at hnames
    rcases List.mem_cons.mp hmem with rfl | hmem
    · simp
    · have hne : v.name ≠ c.name := hnames.1 c hmem
      rw [List.find?_cons_of_neg (by simpa using hne)]
      exact ih hmem hnames.2

theorem treat_cases (h : Declares p prog) (assignment : Variable -> Bool) (e : Expr) :
    (p.matchCandidate e = none ∧ treat p assignment prog e = some .keep) ∨
      exists g, p.matchCandidate e = some g ∧ ((assignment g = false ∧
            treat p assignment prog e = some .remove) ∨ (assignment g = true ∧
            treat p assignment prog e = some (.assume (satisfied g e)))) := by
  cases hmatch : p.matchCandidate e with
  | none => exact Or.inl ⟨rfl, by simp [treat, hmatch]⟩
  | some g =>
    refine Or.inr ⟨g, rfl, ?_⟩
    have hfind := findConstant_of_mem h (Program.name_of_matchCandidate hmatch).2
    cases hg : assignment g with
    | false => exact Or.inl ⟨rfl, by simp [treat, hmatch, hg]⟩
    | true => exact Or.inr ⟨rfl, by simp [treat, hmatch, hg, hfind, satisfied]⟩

theorem Clean.assigned_eq (h : Clean p e) : assigned p assignment e = e := by
  apply Substituter.apply_eq_self
  intro x hx
  have hnot : x ∉ p.houdiniConstants := fun hmem => h x hmem hx
  simp [hnot]

theorem Clean.not_guards (h : Clean p e) : ¬ Guards p c e :=
  fun hguards => h c hguards.mem hguards.mentions

theorem Equivalent.refl (e : Expr) : Equivalent e e :=
  fun _ _ _ _ _ => Iff.rfl

theorem Clean.left (h : Clean p e) (free : Bool) :
    Left p assignment e e free free where
  guards := fun c hguards => absurd hguards h.not_guards
  meaning := by
    rw [h.assigned_eq]
    exact Equivalent.refl e
  free_iff := by
    constructor
    · exact Or.inl
    · rintro (hfree | ⟨c, hguards⟩)
      · exact hfree
      · exact absurd hguards h.not_guards

theorem satisfied_eq (htrue : assignment c = true) (hc : c ∈ p.houdiniConstants)
    (honly : forall d, d ∈ p.houdiniConstants -> e.Mentions d -> d = c) :
    satisfied c e = assigned p assignment e := by
  apply Substituter.apply_congr
  intro x hx
  by_cases hmem : x ∈ p.houdiniConstants
  · have hxc := honly x hmem hx
    subst hxc
    simp [hc, htrue, Expr.trueExpr]
  · have hxc : x ≠ c := by
      rintro rfl
      exact hmem hc
    simp [hmem, hxc]

theorem satisfied_left (hguards : Guards p c e) (htrue : assignment c = true)
    (honly : forall d, d ∈ p.houdiniConstants -> e.Mentions d -> d = c)
    (free : Bool) : Left p assignment e (satisfied c e) free true where
  guards := by
    intro d hd
    rw [honly d hd.mem hd.mentions]
    exact htrue
  meaning := by
    rw [satisfied_eq htrue hguards.mem honly]
    exact Equivalent.refl _
  free_iff := by
    constructor
    · exact fun _ => Or.inr ⟨c, hguards⟩
    · exact fun _ => rfl

theorem satisfied_clean (honly : forall d, d ∈ p.houdiniConstants -> e.Mentions d -> d = c) :
    Clean p (satisfied c e) := by
  intro d hd hmentions
  rcases Substituter.mentions_of_apply hmentions with
    ⟨hold, hnone⟩ | ⟨y, replacement, _, hsome, hnew⟩
  · rw [honly d hd hold] at hnone
    simp at hnone
  · split at hsome
    · cases hsome
      cases hnew
    · cases hsome

theorem mentions_satisfied {d : Variable} (hne : d ≠ c) (h : e.Mentions d) :
    (satisfied c e).Mentions d :=
  Substituter.mentions_apply h (by simp [hne])

theorem exists_result {A : Type} (h : Declares p prog)
    (assignment : Variable -> Bool) (e : Expr) (unchanged : A) (assumed : Expr -> A) :
    exists result, (treat p assignment prog e).map
      (Treatment.result unchanged assumed) = some result := by
  rcases treat_cases h assignment e with
    ⟨_, htreat⟩ | ⟨g, _, ⟨_, htreat⟩ | ⟨_, htreat⟩⟩
  · exact ⟨some unchanged, by rw [htreat]; rfl⟩
  · exact ⟨none, by rw [htreat]; rfl⟩
  · exact ⟨some (assumed (satisfied g e)), by rw [htreat]; rfl⟩

def LeftAs (p prog : Program) (assignment : Variable -> Bool) (e e' : Expr) :
    Prop :=
  (treat p assignment prog e = some .keep ∧ e' = e) ∨
    treat p assignment prog e = some (.assume e')

theorem result_eq_none {A : Type} (h : Declares p prog) {unchanged : A}
    {assumed : Expr -> A} (hresult : (treat p assignment prog e).map
      (Treatment.result unchanged assumed) = some none) :
    exists g, p.matchCandidate e = some g ∧ assignment g = false := by
  rcases treat_cases h assignment e with
    ⟨_, htreat⟩ | ⟨g, hmatch, ⟨hg, _⟩ | ⟨_, htreat⟩⟩
  · rw [htreat] at hresult
    cases hresult
  · exact ⟨g, hmatch, hg⟩
  · rw [htreat] at hresult
    cases hresult

theorem result_eq_some {A : Type} (h : Declares p prog) {unchanged a : A}
    {assumed : Expr -> A} (hresult : (treat p assignment prog e).map
      (Treatment.result unchanged assumed) = some (some a)) :
    (p.matchCandidate e = none ∧ treat p assignment prog e = some .keep ∧ a = unchanged) ∨
      exists g, p.matchCandidate e = some g ∧ assignment g = true ∧
        treat p assignment prog e = some (.assume (satisfied g e)) ∧
        a = assumed (satisfied g e) := by
  rcases treat_cases h assignment e with
    ⟨hmatch, htreat⟩ | ⟨g, hmatch, ⟨_, htreat⟩ | ⟨hg, htreat⟩⟩
  · rw [htreat] at hresult
    cases hresult
    exact Or.inl ⟨hmatch, htreat, rfl⟩
  · rw [htreat] at hresult
    cases hresult
  · rw [htreat] at hresult
    cases hresult
    exact Or.inr ⟨g, hmatch, hg, htreat, rfl⟩

/-!
# The transformed program
-/

theorem exists_applyToCmd (h : Declares p prog) (cmd : Cmd) :
    exists result, applyToCmd p assignment prog cmd = some result := by
  cases cmd with
  | assertCmd ac => exact exists_result h assignment ac.expr _ _
  | _ => exact ⟨_, rfl⟩

theorem exists_applyToBlock (h : Declares p prog) (b : Block) :
    exists b', applyToBlock p assignment prog b = some b' := by
  have hcmds : exists cmds,
      collectResults (applyToCmd p assignment prog) b.cmds = some cmds :=
    exists_collectResults (fun cmd _ => exists_applyToCmd h cmd)
  rcases hcmds with ⟨cmds, hcmds⟩
  exact ⟨_, by simp [applyToBlock, hcmds]; rfl⟩

theorem exists_applyToImplementation (h : Declares p prog) (impl : Implementation) :
    exists impl', applyToImplementation p assignment prog impl = some impl' := by
  have hblocks : exists blocks,
      impl.blocks.mapM (applyToBlock p assignment prog) = some blocks :=
    Traversal.exists_mapM (fun b _ => exists_applyToBlock h b)
  rcases hblocks with ⟨blocks, hblocks⟩
  exact ⟨_, by simp [applyToImplementation, hblocks]; rfl⟩

theorem exists_applyToProcedure (h : Declares p prog) (proc : Procedure) :
    exists proc', applyToProcedure p assignment prog proc = some proc' := by
  have hrequires : exists requires, collectResults
      (applyToRequires p assignment prog) proc.requires = some requires :=
    exists_collectResults (fun r _ => exists_result h assignment r.condition _ _)
  have hensures : exists ensures, collectResults
      (applyToEnsures p assignment prog) proc.ensures = some ensures :=
    exists_collectResults (fun e _ => exists_result h assignment e.condition _ _)
  rcases hrequires with ⟨requires, hrequires⟩
  rcases hensures with ⟨ensures, hensures⟩
  exact ⟨_, by simp [applyToProcedure, hrequires, hensures]; rfl⟩

theorem exists_applyAssignment (h : Declares p prog) (assignment : Variable -> Bool) :
    exists prog', applyAssignment p assignment prog = some prog' := by
  have himpls : exists impls, prog.implementations.mapM
      (applyToImplementation p assignment prog) = some impls :=
    Traversal.exists_mapM (fun impl _ => exists_applyToImplementation h impl)
  have hprocs : exists procs, prog.procedures.mapM
      (applyToProcedure p assignment prog) = some procs :=
    Traversal.exists_mapM (fun proc _ => exists_applyToProcedure h proc)
  rcases himpls with ⟨impls, himpls⟩
  rcases hprocs with ⟨procs, hprocs⟩
  exact ⟨_, by simp [applyAssignment, himpls, hprocs]; rfl⟩

section Inversion

theorem applyToBlock_eq {b b' : Block} (h : applyToBlock p assignment prog b = some b') :
    exists cmds, collectResults (applyToCmd p assignment prog) b.cmds =
      some cmds ∧ b' = { b with cmds := cmds } := by
  simp only [applyToBlock, Option.bind_eq_bind, Option.bind_eq_some_iff,
    Option.pure_def, Option.some.injEq] at h
  rcases h with ⟨cmds, hcmds, rfl⟩
  exact ⟨cmds, hcmds, rfl⟩

theorem applyToImplementation_eq {impl impl' : Implementation}
    (h : applyToImplementation p assignment prog impl = some impl') :
    exists blocks, impl.blocks.mapM (applyToBlock p assignment prog) =
      some blocks ∧ impl' = { impl with blocks := blocks } := by
  simp only [applyToImplementation, Option.bind_eq_bind,
    Option.bind_eq_some_iff, Option.pure_def, Option.some.injEq] at h
  rcases h with ⟨blocks, hblocks, rfl⟩
  exact ⟨blocks, hblocks, rfl⟩

theorem applyToProcedure_eq {proc proc' : Procedure}
    (h : applyToProcedure p assignment prog proc = some proc') :
    exists requires ensures, collectResults (applyToRequires p assignment prog) proc.requires =
        some requires ∧ collectResults (applyToEnsures p assignment prog) proc.ensures =
        some ensures ∧ proc' = { proc with requires := requires, ensures := ensures } := by
  simp only [applyToProcedure, Option.bind_eq_bind, Option.bind_eq_some_iff,
    Option.pure_def, Option.some.injEq] at h
  rcases h with ⟨requires, hrequires, ensures, hensures, rfl⟩
  exact ⟨requires, ensures, hrequires, hensures, rfl⟩

theorem applyAssignment_eq (h : applyAssignment p assignment prog = some prog') :
    prog.implementations.mapM (applyToImplementation p assignment prog) =
        some prog'.implementations ∧ prog.procedures.mapM (applyToProcedure p assignment prog) =
        some prog'.procedures ∧ prog'.constants = prog.constants.filter (fun c =>
        c.variable.name ∉ p.houdiniConstants.map Variable.name) := by
  simp only [applyAssignment, Option.bind_eq_bind, Option.bind_eq_some_iff,
    Option.pure_def, Option.some.injEq] at h
  rcases h with ⟨impls, himpls, procs, hprocs, rfl⟩
  exact ⟨himpls, hprocs, rfl⟩

theorem mem_cmds_applied {impl' : Implementation} {b' : Block} {cmd' : Cmd}
    (h : applyAssignment p assignment prog = some prog')
    (himpl : impl' ∈ prog'.implementations) (hb : b' ∈ impl'.blocks) (hcmd : cmd' ∈ b'.cmds) :
    exists impl b cmd, impl ∈ prog.implementations ∧ b ∈ impl.blocks ∧
      cmd ∈ b.cmds ∧ applyToCmd p assignment prog cmd = some (some cmd') := by
  rcases (Traversal.mem_of_mapM (applyAssignment_eq h).1).mp himpl with
    ⟨impl, hmem, happly⟩
  rcases applyToImplementation_eq happly with ⟨blocks, hblocks, rfl⟩
  rcases (Traversal.mem_of_mapM hblocks).mp hb with ⟨b, hblock, happly'⟩
  rcases applyToBlock_eq happly' with ⟨cmds, hcmds, rfl⟩
  rcases (mem_collectResults hcmds).mp hcmd with ⟨cmd, hcmd, hresult⟩
  exact ⟨impl, b, cmd, hmem, hblock, hcmd, hresult⟩

theorem exists_cmds_applied {impl : Implementation} {b : Block}
    {cmd cmd' : Cmd} (h : applyAssignment p assignment prog = some prog')
    (himpl : impl ∈ prog.implementations) (hb : b ∈ impl.blocks) (hcmd : cmd ∈ b.cmds)
    (hresult : applyToCmd p assignment prog cmd = some (some cmd')) :
    exists impl' b', impl' ∈ prog'.implementations ∧ b' ∈ impl'.blocks ∧ cmd' ∈ b'.cmds := by
  rcases Traversal.exists_of_mapM (applyAssignment_eq h).1 himpl with
    ⟨impl', himpl', happly⟩
  rcases applyToImplementation_eq happly with ⟨blocks, hblocks, rfl⟩
  rcases Traversal.exists_of_mapM hblocks hb with ⟨b', hb', hblock⟩
  rcases applyToBlock_eq hblock with ⟨cmds, hcmds, rfl⟩
  exact ⟨_, _, himpl', hb', (mem_collectResults hcmds).mpr ⟨cmd, hcmd, hresult⟩⟩

theorem assumed_annotates (h : applyAssignment p assignment prog = some prog')
    (he : Assumed prog e) : exists site, prog'.Annotates e site := by
  rcases he with ⟨himpl, hb, hcmd, rfl⟩
  rcases exists_cmds_applied h himpl hb hcmd rfl with
    ⟨impl', b', himpl', hb', hcmd'⟩
  exact ⟨.bodyOf impl', himpl', b', hb', _, hcmd', rfl⟩

theorem map_of_leftAs {A : Type} (hleft : LeftAs p prog assignment e e')
    (unchanged : A) (assumed : Expr -> A) :
    (treat p assignment prog e).map (Treatment.result unchanged assumed) =
        some (some unchanged) ∧ e' = e ∨
      (treat p assignment prog e).map (Treatment.result unchanged assumed) =
        some (some (assumed e')) := by
  rcases hleft with ⟨htreat, rfl⟩ | htreat
  · left
    rw [htreat]
    exact ⟨rfl, rfl⟩
  · right
    rw [htreat]
    rfl

theorem checked_annotates (h : applyAssignment p assignment prog = some prog')
    (he : Checked prog e) (hleft : LeftAs p prog assignment e e') :
    exists site, prog'.Annotates e' site := by
  rcases he with ⟨hproc, hr, rfl⟩ | ⟨hproc, hr, rfl⟩ | ⟨himpl, hb, hcmd, rfl⟩
  · rename_i proc r
    rcases Traversal.exists_of_mapM (applyAssignment_eq h).2.1 hproc with
      ⟨proc', hproc', happly⟩
    rcases applyToProcedure_eq happly with
      ⟨requires, ensures, hrequires, _, rfl⟩
    refine ⟨.requiresOf proc.name, _, hproc', rfl, ?_⟩
    rcases map_of_leftAs hleft r (fun condition => ⟨true, condition⟩) with
      ⟨hresult, rfl⟩ | hresult
    · exact ⟨r, (mem_collectResults hrequires).mpr ⟨r, hr, hresult⟩, rfl⟩
    · exact ⟨⟨true, e'⟩, (mem_collectResults hrequires).mpr ⟨r, hr, hresult⟩,
        rfl⟩
  · rename_i proc r
    rcases Traversal.exists_of_mapM (applyAssignment_eq h).2.1 hproc with
      ⟨proc', hproc', happly⟩
    rcases applyToProcedure_eq happly with
      ⟨requires, ensures, _, hensures, rfl⟩
    refine ⟨.ensuresOf proc.name, _, hproc', rfl, ?_⟩
    rcases map_of_leftAs hleft r (fun condition => ⟨true, condition⟩) with
      ⟨hresult, rfl⟩ | hresult
    · exact ⟨r, (mem_collectResults hensures).mpr ⟨r, hr, hresult⟩, rfl⟩
    · exact ⟨⟨true, e'⟩, (mem_collectResults hensures).mpr ⟨r, hr, hresult⟩,
        rfl⟩
  · rename_i impl b ac
    rcases map_of_leftAs hleft (Cmd.assertCmd ac) (fun condition => .assumeCmd
        { uniqueId := ac.uniqueId
          expr := condition
          attributes := ac.attributes }) with ⟨hresult, rfl⟩ | hresult
    · rcases exists_cmds_applied h himpl hb hcmd hresult with
        ⟨impl', b', himpl', hb', hcmd'⟩
      exact ⟨.bodyOf impl', himpl', b', hb', _, hcmd', rfl⟩
    · rcases exists_cmds_applied h himpl hb hcmd hresult with
        ⟨impl', b', himpl', hb', hcmd'⟩
      exact ⟨.bodyOf impl', himpl', b', hb', _, hcmd', rfl⟩

theorem leftAs_of_result {A : Type} {unchanged a : A} {assumed : Expr -> A}
    (hdeclares : Declares p prog) (hresult : (treat p assignment prog e).map
      (Treatment.result unchanged assumed) = some (some a)) :
    a = unchanged ∧ LeftAs p prog assignment e e ∨
      exists e', a = assumed e' ∧ LeftAs p prog assignment e e' := by
  rcases result_eq_some hdeclares hresult with
    ⟨_, htreat, rfl⟩ | ⟨g, _, _, htreat, rfl⟩
  · exact Or.inl ⟨rfl, Or.inl ⟨htreat, rfl⟩⟩
  · exact Or.inr ⟨_, rfl, Or.inr htreat⟩

theorem annotates_cases {site : Site} (hdeclares : Declares p prog)
    (h : applyAssignment p assignment prog = some prog') (he : prog'.Annotates e' site) :
    Assumed prog e' ∨ exists e, Checked prog e ∧ LeftAs p prog assignment e e' := by
  cases site with
  | requiresOf name =>
    rcases he with ⟨proc', hproc', _, r', hr', rfl⟩
    rcases (Traversal.mem_of_mapM (applyAssignment_eq h).2.1).mp hproc' with
      ⟨proc, hproc, happly⟩
    rcases applyToProcedure_eq happly with
      ⟨requires, ensures, hrequires, _, rfl⟩
    rcases (mem_collectResults hrequires).mp hr' with ⟨r, hr, hresult⟩
    right
    refine ⟨r.condition, Checked.requires hproc hr rfl, ?_⟩
    rcases leftAs_of_result hdeclares hresult with
      ⟨rfl, hleft⟩ | ⟨e', rfl, hleft⟩ <;> exact hleft
  | ensuresOf name =>
    rcases he with ⟨proc', hproc', _, r', hr', rfl⟩
    rcases (Traversal.mem_of_mapM (applyAssignment_eq h).2.1).mp hproc' with
      ⟨proc, hproc, happly⟩
    rcases applyToProcedure_eq happly with
      ⟨requires, ensures, _, hensures, rfl⟩
    rcases (mem_collectResults hensures).mp hr' with ⟨r, hr, hresult⟩
    right
    refine ⟨r.condition, Checked.ensures hproc hr rfl, ?_⟩
    rcases leftAs_of_result hdeclares hresult with
      ⟨rfl, hleft⟩ | ⟨e', rfl, hleft⟩ <;> exact hleft
  | bodyOf impl' =>
    rcases he with ⟨himpl', b', hb', cmd', hcmd', hpredicate⟩
    rcases mem_cmds_applied h himpl' hb' hcmd' with
      ⟨impl, b, cmd, himpl, hb, hcmd, hresult⟩
    cases cmd with
    | assertCmd ac =>
      right
      refine ⟨ac.expr, Checked.assert himpl hb hcmd rfl, ?_⟩
      rcases leftAs_of_result hdeclares hresult with
        ⟨rfl, hleft⟩ | ⟨e'', rfl, hleft⟩
      · cases hpredicate
        exact hleft
      · cases hpredicate
        exact hleft
    | assumeCmd ac =>
      cases hresult
      cases hpredicate
      exact Or.inl (Assumed.assume himpl hb hcmd rfl)
    | _ =>
      cases hresult
      cases hpredicate

end Inversion

/-!
# The exact condition
-/

theorem guardedByOne_of_clean (hdeclares : Declares p prog)
    (h : applyAssignment p assignment prog = some prog')
    (hclean : forall e site, prog'.Annotates e site -> Clean p e) :
    GuardedByOne p assignment prog where
  assumed := by
    intro e he
    rcases assumed_annotates h he with ⟨site, hsite⟩
    exact hclean e site hsite
  checked := by
    intro e he c hc hmentions
    have hleft : forall e', LeftAs p prog assignment e e' -> Clean p e' := by
      intro e' hleft
      rcases checked_annotates h he hleft with ⟨site, hsite⟩
      exact hclean e' site hsite
    rcases treat_cases hdeclares assignment e with
      ⟨_, htreat⟩ | ⟨g, hmatch, ⟨hg, _⟩ | ⟨hg, htreat⟩⟩
    · exact absurd hmentions (hleft e (Or.inl ⟨htreat, rfl⟩) c hc)
    · refine ⟨g, hmatch, ?_⟩
      intro htrue
      rw [hg] at htrue
      cases htrue
    · refine ⟨g, hmatch, ?_⟩
      intro _
      by_contra hne
      exact hleft _ (Or.inr htreat) c hc (mentions_satisfied hne hmentions)

theorem Checked.annotates (he : Checked prog e) :
    exists site, prog.Annotates e site := by
  rcases he with ⟨hproc, hr, rfl⟩ | ⟨hproc, hr, rfl⟩ | ⟨himpl, hb, hcmd, rfl⟩
  · exact ⟨.requiresOf _, _, hproc, rfl, _, hr, rfl⟩
  · exact ⟨.ensuresOf _, _, hproc, rfl, _, hr, rfl⟩
  · exact ⟨.bodyOf _, himpl, _, hb, _, hcmd, rfl⟩

theorem removed_of_result {A : Type} {unchanged : A} {assumed : Expr -> A}
    (hdeclares : Declares p prog) (he : Checked prog e) (hresult : (treat p assignment prog e).map
      (Treatment.result unchanged assumed) = some none) :
    Removed p assignment e := by
  rcases result_eq_none hdeclares hresult with ⟨g, hmatch, hg⟩
  rcases he.annotates with ⟨site, hsite⟩
  exact ⟨g, guards_of_matchCandidate (hdeclares.resolved e site hsite) hmatch,
    hg⟩

section Sufficient

variable (hdeclares : Declares p prog)
  (hone : GuardedByOne p assignment prog)

include hone

theorem GuardedByOne.clean (he : Checked prog e)
    (hmatch : p.matchCandidate e = none) : Clean p e := by
  intro c hc hmentions
  rcases hone.checked e he c hc hmentions with ⟨g, hg, _⟩
  rw [hmatch] at hg
  cases hg

theorem GuardedByOne.only (he : Checked prog e)
    (hmatch : p.matchCandidate e = some c) (htrue : assignment c = true)
    (d : Variable) (hd : d ∈ p.houdiniConstants) (hmentions : e.Mentions d) :
    d = c := by
  rcases hone.checked e he d hd hmentions with ⟨g, hg, honly⟩
  rw [hmatch] at hg
  cases hg
  exact honly htrue

include hdeclares

theorem GuardedByOne.left {A : Type} {unchanged a : A} {assumed : Expr -> A} (he : Checked prog e)
    (hresult : (treat p assignment prog e).map
      (Treatment.result unchanged assumed) = some (some a)) :
    (a = unchanged ∧ forall free, Left p assignment e e free free) ∨ exists e', a = assumed e' ∧
        forall free, Left p assignment e e' free true := by
  rcases result_eq_some hdeclares hresult with
    ⟨hmatch, _, rfl⟩ | ⟨g, hmatch, hg, _, rfl⟩
  · exact Or.inl ⟨rfl, (hone.clean he hmatch).left⟩
  · rcases he.annotates with ⟨site, hsite⟩
    have hguards :=
      guards_of_matchCandidate (hdeclares.resolved e site hsite) hmatch
    exact Or.inr ⟨_, rfl, satisfied_left hguards hg (hone.only he hmatch hg)⟩

theorem GuardedByOne.clean_applied {site : Site}
    (h : applyAssignment p assignment prog = some prog')
    (he : prog'.Annotates e' site) : Clean p e' := by
  rcases annotates_cases hdeclares h he with hassumed | ⟨e, hchecked, hleft⟩
  · exact hone.assumed e' hassumed
  · rcases treat_cases hdeclares assignment e with
      ⟨hmatch, htreat⟩ | ⟨g, hmatch, ⟨_, htreat⟩ | ⟨hg, htreat⟩⟩
    · rcases hleft with ⟨_, rfl⟩ | hassume
      · exact hone.clean hchecked hmatch
      · rw [htreat] at hassume
        cases hassume
    · rcases hleft with ⟨hkeep, _⟩ | hassume
      · rw [htreat] at hkeep
        cases hkeep
      · rw [htreat] at hassume
        cases hassume
    · rcases hleft with ⟨hkeep, _⟩ | hassume
      · rw [htreat] at hkeep
        cases hkeep
      · rw [htreat] at hassume
        cases hassume
        exact satisfied_clean (hone.only hchecked hmatch hg)

theorem GuardedByOne.blockApplied {impl : Implementation} {b b' : Block}
    (himpl : impl ∈ prog.implementations) (hb : b ∈ impl.blocks)
    (h : applyToBlock p assignment prog b = some b') :
    BlockApplied p assignment b b' := by
  rcases applyToBlock_eq h with ⟨cmds, hcmds, rfl⟩
  refine ⟨rfl, rfl, rfl, Aligned.of_collectResults hcmds ?_ ?_⟩
  · intro cmd hcmd hresult
    cases cmd with
    | assertCmd ac =>
      exact ⟨ac.expr, rfl, removed_of_result hdeclares
        (Checked.assert himpl hb hcmd rfl) hresult⟩
    | _ => cases hresult
  · intro cmd cmd' hcmd hresult
    cases cmd with
    | assertCmd ac =>
      rcases hone.left hdeclares (Checked.assert himpl hb hcmd rfl)
        hresult with ⟨rfl, hleft⟩ | ⟨e', rfl, hleft⟩
      · exact CmdLeft.checked (hleft false)
      · exact CmdLeft.assumed (hleft false)
    | assumeCmd ac =>
      cases hresult
      apply CmdLeft.assume
      rw [Clean.assigned_eq
        (hone.assumed ac.expr (Assumed.assume himpl hb hcmd rfl))]
      exact Equivalent.refl _
    | _ =>
      cases hresult
      exact CmdLeft.other rfl

theorem GuardedByOne.procedureApplied {proc proc' : Procedure} (hproc : proc ∈ prog.procedures)
    (h : applyToProcedure p assignment prog proc = some proc') :
    ProcedureApplied p assignment proc proc' := by
  rcases applyToProcedure_eq h with
    ⟨requires, ensures, hrequires, hensures, rfl⟩
  refine ⟨rfl, Aligned.of_collectResults hrequires ?_ ?_,
    Aligned.of_collectResults hensures ?_ ?_⟩
  · intro r hr hresult
    exact removed_of_result hdeclares (Checked.requires hproc hr rfl) hresult
  · intro r r' hr hresult
    rcases hone.left hdeclares (Checked.requires hproc hr rfl) hresult with
      ⟨rfl, hleft⟩ | ⟨e', rfl, hleft⟩
    · exact hleft r'.free
    · exact hleft r.free
  · intro r hr hresult
    exact removed_of_result hdeclares (Checked.ensures hproc hr rfl) hresult
  · intro r r' hr hresult
    rcases hone.left hdeclares (Checked.ensures hproc hr rfl) hresult with
      ⟨rfl, hleft⟩ | ⟨e', rfl, hleft⟩
    · exact hleft r'.free
    · exact hleft r.free

end Sufficient

theorem constants_applied (hdeclares : Declares p prog)
    (h : applyAssignment p assignment prog = some prog') (v : Variable) :
    v ∈ prog'.constants.map Constant.variable <->
      v ∈ prog.constants.map Constant.variable ∧ v ∉ p.houdiniConstants := by
  rw [(applyAssignment_eq h).2.2]
  simp only [List.mem_map, List.mem_filter, decide_eq_true_eq]
  constructor
  · rintro ⟨decl, ⟨hdecl, hname⟩, rfl⟩
    exact ⟨⟨decl, hdecl, rfl⟩, fun hmem => hname ⟨_, hmem, rfl⟩⟩
  · rintro ⟨⟨decl, hdecl, rfl⟩, hnot⟩
    refine ⟨decl, ⟨hdecl, ?_⟩, rfl⟩
    rintro ⟨w, hw, hname⟩
    rcases List.mem_map.mp (hdeclares.declared w hw) with ⟨decl', hdecl', rfl⟩
    have hsame : decl' = decl :=
      List.inj_on_of_nodup_map hdeclares.names hdecl' hdecl hname
    rw [hsame] at hw
    exact hnot hw

/--
The transformation succeeds on every resolved program, and the program it
leaves mentions no candidate and has the values of the assignment in its
annotations exactly when no assumption mentions a candidate and each other
condition that does is guarded by a false candidate or by its only one.
-/
theorem applyAssignment_applied_iff (hdeclares : Declares p prog) (assignment : Variable -> Bool) :
    exists prog', applyAssignment p assignment prog = some prog' ∧
      (Applied p assignment prog prog' <-> GuardedByOne p assignment prog) := by
  rcases exists_applyAssignment hdeclares assignment with ⟨prog', h⟩
  refine ⟨prog', h, ?_⟩
  constructor
  · intro happlied
    exact guardedByOne_of_clean hdeclares h happlied.clean
  · intro hone
    refine ⟨fun e site he => hone.clean_applied hdeclares h he,
      constants_applied hdeclares h, ?_, ?_⟩
    · exact (Traversal.forall₂_of_mapM (applyAssignment_eq h).2.1).imp
        (fun _ _ hproc => hone.procedureApplied hdeclares hproc.1 hproc.2)
    · apply (Traversal.forall₂_of_mapM (applyAssignment_eq h).1).imp
      intro impl impl' ⟨himpl, happly⟩
      rcases applyToImplementation_eq happly with ⟨blocks, hblocks, rfl⟩
      refine ⟨rfl, rfl, rfl, (Traversal.forall₂_of_mapM hblocks).imp ?_⟩
      intro b b' ⟨hb, hblock⟩
      exact hone.blockApplied hdeclares himpl hb hblock

/-!
# Two candidates in one condition
-/

section TwoCandidates

def existentialConstant (name : String) : Constant where
  ident := ⟨name, .bool⟩
  attributes := [⟨"existential", [.expr (.literal (.bool true))]⟩]

def firstCandidate : Variable :=
  (existentialConstant "c1").variable

def secondCandidate : Variable :=
  (existentialConstant "c2").variable

def twoGuards : Expr :=
  Expr.imp (.ident firstCandidate)
    (Expr.imp (.ident secondCandidate) Expr.falseExpr)

/-- `procedure P(); requires c1 ==> c2 ==> false;` -/
def twoCandidates : Program where
  constants := [existentialConstant "c1", existentialConstant "c2"]
  axioms := []
  procedures := [⟨"P", [⟨false, twoGuards⟩], []⟩]
  implementations := []

theorem twoCandidates_constants :
    twoCandidates.houdiniConstants = [firstCandidate, secondCandidate] := by
  decide

theorem twoGuards_mentions {x : Variable} (h : twoGuards.Mentions x) :
    x = firstCandidate ∨ x = secondCandidate := by
  rcases h with _ | _ | ⟨ha, hx⟩
  simp only [List.mem_cons, List.not_mem_nil, or_false] at ha
  rcases ha with rfl | rfl
  · cases hx
    exact Or.inl rfl
  · rcases hx with _ | _ | ⟨hb, hx⟩
    simp only [List.mem_cons, List.not_mem_nil, or_false] at hb
    rcases hb with rfl | rfl
    · cases hx
      exact Or.inr rfl
    · cases hx

theorem twoGuards_matchCandidate :
    twoCandidates.matchCandidate twoGuards = some firstCandidate := by
  decide

theorem twoCandidates_annotates {site : Site}
    (h : twoCandidates.Annotates e site) : e = twoGuards := by
  cases site with
  | requiresOf name =>
    rcases h with ⟨proc, hproc, _, r, hr, rfl⟩
    cases List.mem_singleton.mp hproc
    rw [List.mem_singleton.mp hr]
  | ensuresOf name =>
    rcases h with ⟨proc, hproc, _, r, hr, rfl⟩
    cases List.mem_singleton.mp hproc
    cases hr
  | bodyOf impl =>
    rcases h with ⟨himpl, _⟩
    cases himpl

theorem twoCandidates_declares : Declares twoCandidates twoCandidates where
  declared := fun c hc => Program.houdiniConstants_subset hc
  names := by decide
  resolved := by
    intro e site h c hc x hx _ hname
    rw [twoCandidates_annotates h] at hx
    rw [twoCandidates_constants] at hc
    simp only [List.mem_cons, List.not_mem_nil, or_false] at hc
    rcases twoGuards_mentions hx with rfl | rfl <;> rcases hc with rfl | rfl
    · rfl
    · exact absurd hname (by decide)
    · exact absurd hname (by decide)
    · rfl

/-- When the first candidate is false the precondition is removed. -/
theorem applyAssignment_applied_iff_firstFalse : exists prog',
    applyAssignment twoCandidates (fun v => v ≠ firstCandidate) twoCandidates = some prog' ∧
      Applied twoCandidates (fun v => v ≠ firstCandidate) twoCandidates prog' := by
  rcases applyAssignment_applied_iff twoCandidates_declares
    (fun v => v ≠ firstCandidate) with ⟨prog', h, hiff⟩
  refine ⟨prog', h, hiff.mpr ⟨?_, ?_⟩⟩
  · intro e he
    rcases he with ⟨himpl, _⟩
    cases himpl
  · intro e he c _ _
    rcases he.annotates with ⟨site, hsite⟩
    rw [twoCandidates_annotates hsite]
    refine ⟨firstCandidate, twoGuards_matchCandidate, ?_⟩
    intro htrue
    simp at htrue

/--
When both candidates are true the precondition still mentions the second one,
whose declaration is gone.
-/
theorem twoCandidates_dangling : exists prog',
    applyAssignment twoCandidates (fun _ => true) twoCandidates = some prog' ∧
      (exists e site, prog'.Annotates e site ∧ e.Mentions secondCandidate) ∧ prog'.constants = [] ∧
      ¬ Applied twoCandidates (fun _ => true) twoCandidates prog' := by
  let left : Expr :=
    Expr.imp Expr.trueExpr (Expr.imp (.ident secondCandidate) Expr.falseExpr)
  let prog' : Program :=
    { constants := []
      axioms := []
      procedures := [⟨"P", [⟨true, left⟩], []⟩]
      implementations := [] }
  have happly : applyAssignment twoCandidates (fun _ => true) twoCandidates =
      some prog' := by
    rfl
  have hannotates : prog'.Annotates left (.requiresOf "P") :=
    ⟨_, List.mem_cons_self, rfl, _, List.mem_cons_self, rfl⟩
  have hmentions : left.Mentions secondCandidate := by
    apply Expr.Mentions.nary (a := Expr.imp (.ident secondCandidate)
      Expr.falseExpr) (by simp)
    exact Expr.Mentions.nary (by simp) Expr.Mentions.ident
  refine ⟨prog', happly, ⟨left, _, hannotates, hmentions⟩, rfl, ?_⟩
  intro happlied
  apply happlied.clean left _ hannotates secondCandidate _ hmentions
  rw [twoCandidates_constants]
  simp

end TwoCandidates

end Houdini

end Boogie
