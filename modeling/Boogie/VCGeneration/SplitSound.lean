import Boogie.VCGeneration.FailurePaths
import Boogie.VCGeneration.Split

/-!
# Splitting loses no assertion

A failing execution of the program is one of one of the halves, up to its first
assertion that fails.  The other way round, a half has fewer executions and its
assertions are assertions of the program.
-/

namespace Boogie

/-!
# First failing assertions
-/

section First

variable {U : Type} [DecidableEq U] {C : Context U} {blocks : List Block}
  {ρ ρ' : Env U} {cs : List Cmd} {id : Nat}

theorem CmdsFail.first (h : CmdsFail C cs ρ) (hp : forall c, c ∈ cs -> c.passive = true) :
    exists before ac after, cs = before ++ .assertCmd ac :: after ∧
      Passes C (fun _ => true) ρ before ∧ ¬ C.Holds ρ ac.expr := by
  induction cs with
  | nil => cases h
  | cons c cs ih =>
    have ihrest := fun h => ih h (fun d hd => hp d (List.mem_cons_of_mem c hd))
    cases c with
    | assertCmd ac =>
      by_cases hac : C.Holds ρ ac.expr
      · cases h with
        | here hfails => exact absurd hac hfails
        | later hstep hrest =>
          cases hstep
          rcases ihrest hrest with
            ⟨before, ac', after, hcs, hpasses, hfalse⟩
          exact ⟨.assertCmd ac :: before, ac', after, by rw [hcs]; rfl,
            hpasses.assertCmd (fun _ => hac), hfalse⟩
      · exact ⟨[], ac, cs, rfl, Passes.nil, hac⟩
    | assumeCmd ac =>
      cases h with
      | here hfails => exact hfails.elim
      | later hstep hrest =>
        cases hstep with
        | assume _ _ hac =>
          rcases ihrest hrest with
            ⟨before, ac', after, hcs, hpasses, hfalse⟩
          exact ⟨.assumeCmd ac :: before, ac', after, by rw [hcs]; rfl,
            hpasses.assumeCmd hac, hfalse⟩
    | assignCmd => simpa [Cmd.passive] using hp _ List.mem_cons_self
    | havocCmd => simpa [Cmd.passive] using hp _ List.mem_cons_self
    | callCmd => simpa [Cmd.passive] using hp _ List.mem_cons_self
    | commentCmd => simpa [Cmd.passive] using hp _ List.mem_cons_self

theorem CmdsRun.passes (h : CmdsRun C cs ρ ρ')
    (hp : forall c, c ∈ cs -> c.passive = true) (hfail : ¬ CmdsFail C cs ρ) :
    Passes C (fun _ => true) ρ cs where
  run := by
    have hstate := h.passive_eq hp
    rw [hstate] at h
    exact h
  holds := by
    intro ac hac _
    by_contra hfalse
    rcases List.append_of_mem hac with ⟨before, after, hcs⟩
    apply hfail
    rw [hcs] at h hp ⊢
    rcases cmdsRun_append.mp h with ⟨ρ'', hbefore, _⟩
    have hstate := hbefore.passive_eq
      (fun c hc => hp c (List.mem_append_left _ hc))
    rw [hstate] at hbefore
    exact cmdsFail_append.mpr (Or.inr ⟨ρ, hbefore, CmdsFail.here hfalse⟩)

theorem Wrong.failsAt (h : Wrong C blocks id ρ)
    (hp : forall b, b ∈ blocks -> forall c, c ∈ b.cmds -> c.passive = true) :
    exists last ac, FailsAt C (fun _ => true) blocks ρ last ac id := by
  induction h with
  | @cmds b ρ hb hfail =>
    rcases hfail.first (hp b hb) with ⟨_, _, _, hcs, hpasses, hfalse⟩
    exact ⟨_, _, FailsAt.here hb hcs hpasses hfalse⟩
  | @jump b target ρ₁ ρ₂ hb hrun ht _ ih =>
    by_cases hfail : CmdsFail C b.cmds ρ₁
    · rcases hfail.first (hp b hb) with ⟨_, _, _, hcs, hpasses, hfalse⟩
      exact ⟨_, _, FailsAt.here hb hcs hpasses hfalse⟩
    · have hstate := hrun.passive_eq (hp b hb)
      rw [hstate] at ih
      rcases ih with ⟨last, ac, hfails⟩
      exact ⟨last, ac,
        FailsAt.jump hb (hrun.passes (hp b hb) hfail) ht hfails⟩

end First


namespace VCGen

/-!
# Turned assertions
-/

section Turned

variable {o : CommandLineOptions} {U : Type} [DecidableEq U] {C : Context U}
  {ρ ρ' : Env U} {c c' : Cmd} {cs cs' : List Cmd} {a : AssertCmd}

theorem holds_trueExpr : C.Holds ρ Expr.trueExpr :=
  rfl

theorem holds_assertTurnedIntoAssume (h : C.Holds ρ a.expr) :
    C.Holds ρ (assertTurnedIntoAssume o a).expr := by
  unfold assertTurnedIntoAssume
  cases Wlp.subsumption o a with
  | never => exact holds_trueExpr
  | always => exact h
  | notForQuantifiers =>
    cases he : a.expr with
    | quantifier _ _ _ => exact holds_trueExpr
    | _ =>
      rw [he] at h
      exact h

theorem passive_assertTurnedIntoAssume (h : a.expr.passive = true) :
    (assertTurnedIntoAssume o a).expr.passive = true := by
  unfold assertTurnedIntoAssume
  cases Wlp.subsumption o a with
  | never => rfl
  | always => exact h
  | notForQuantifiers =>
    cases he : a.expr with
    | quantifier _ _ _ => rfl
    | _ =>
      rw [he] at h
      exact h

namespace Split

def Turned (o : CommandLineOptions) (c c' : Cmd) : Prop :=
  c' = c ∨ c' = turnAssert o c

namespace Turned

theorem passive (h : Turned o c c') (hc : c.passive = true) :
    c'.passive = true := by
  rcases h with rfl | rfl
  · exact hc
  · cases c with
    | assertCmd a => exact passive_assertTurnedIntoAssume hc
    | _ => exact hc

theorem uniqueId (h : Turned o c c') : c'.uniqueId? = c.uniqueId? := by
  rcases h with rfl | rfl
  · rfl
  · cases c with
    | _ => rfl

theorem step (h : Turned o c c') (hstep : CmdStep C c' ρ ρ') :
    CmdStep C c ρ ρ' := by
  rcases h with rfl | rfl
  · exact hstep
  · cases c with
    | assertCmd a =>
      cases hstep
      exact CmdStep.assert a ρ
    | _ => exact hstep

theorem fails (h : Turned o c c') (hfails : CmdFails C ρ c') :
    CmdFails C ρ c := by
  rcases h with rfl | rfl
  · exact hfails
  · cases c with
    | assertCmd a => exact hfails.elim
    | _ => exact hfails

end Turned

def AllTurned (o : CommandLineOptions) : List Cmd -> List Cmd -> Prop :=
  List.Forall₂ (Turned o)

namespace AllTurned

theorem refl (cs : List Cmd) : AllTurned o cs cs :=
  List.forall₂_same.mpr (fun _ _ => Or.inl rfl)

theorem turnAsserts (cs : List Cmd) : AllTurned o cs (cs.map (turnAssert o)) := by
  induction cs with
  | nil => exact List.Forall₂.nil
  | cons c cs ih => exact List.Forall₂.cons (Or.inr rfl) ih

theorem passive (h : AllTurned o cs cs') (hcs : forall c, c ∈ cs -> c.passive = true) :
    forall c, c ∈ cs' -> c.passive = true := by
  induction h with
  | nil => exact hcs
  | cons hc _ ih =>
    intro d hd
    rcases List.mem_cons.mp hd with rfl | hrest
    · exact hc.passive (hcs _ List.mem_cons_self)
    · exact ih (fun d hd => hcs d (List.mem_cons_of_mem _ hd)) d hrest

theorem uniqueIds (h : AllTurned o cs cs') :
    cs'.filterMap Cmd.uniqueId? = cs.filterMap Cmd.uniqueId? := by
  induction h with
  | nil => rfl
  | cons hc _ ih =>
    rw [List.filterMap_cons, List.filterMap_cons, hc.uniqueId, ih]

theorem run (h : AllTurned o cs cs') (hrun : CmdsRun C cs' ρ ρ') :
    CmdsRun C cs ρ ρ' := by
  induction h generalizing ρ with
  | nil => exact hrun
  | cons hc _ ih =>
    cases hrun with
    | cons hstep hrest => exact CmdsRun.cons (hc.step hstep) (ih hrest)

theorem fail (h : AllTurned o cs cs') (hfail : CmdsFail C cs' ρ) :
    CmdsFail C cs ρ := by
  induction h generalizing ρ with
  | nil => exact hfail
  | cons hc _ ih =>
    cases hfail with
    | here hfails => exact CmdsFail.here (hc.fails hfails)
    | later hstep hrest => exact CmdsFail.later (hc.step hstep) (ih hrest)

theorem run_of_passes (h : AllTurned o cs cs') (hp : forall c, c ∈ cs -> c.passive = true)
    (hpasses : Passes C (fun _ => true) ρ cs) : CmdsRun C cs' ρ ρ := by
  induction h with
  | nil => exact CmdsRun.nil ρ
  | @cons c c' cs cs' hc _ ih =>
    have hrest := ih (fun d hd => hp d (List.mem_cons_of_mem c hd))
      (hpasses.tail (hp c List.mem_cons_self))
    have hstep : CmdStep C c ρ ρ := by
      cases hpasses.run with
      | cons hstep _ =>
        have hstate := hstep.passive_eq (hp c List.mem_cons_self)
        rwa [hstate] at hstep
    rcases hc with rfl | rfl
    · exact CmdsRun.cons hstep hrest
    · cases c with
      | assertCmd a =>
        have ha := hpasses.holds a List.mem_cons_self rfl
        exact CmdsRun.cons (CmdStep.assume _ ρ (holds_assertTurnedIntoAssume ha))
          hrest
      | _ => exact CmdsRun.cons hstep hrest

end AllTurned

end Split

end Turned

namespace Split

/-!
# The copies of a half
-/

/-- A passive program; the predecessor lists hold all of its edges. -/
structure Valid (s : Split) : Prop where
  passive : exists P : PassiveProgram, P.blocks = s.blocks
  predecessors : forall b, b ∈ s.blocks -> forall t, t ∈ b.labelTargets ->
    b.uniqueId ∈ s.predecessors t
  labels : forall b, b ∈ s.blocks -> forall x y, x ∈ s.exitBlocks b ->
    y ∈ s.exitBlocks b -> x.label = y.label -> x = y

def limitAfter (s : Split) (o : CommandLineOptions) (half : Half)
    (sliceLimit : Rat) (id : Nat) : Rat :=
  match findBlock s.blocks id with
  | none => sliceLimit
  | some b => (s.sliceCmds o b sliceLimit half).2

def limitBefore (s : Split) (o : CommandLineOptions) (half : Half) :
    Rat -> List Nat -> Nat -> Rat
  | sliceLimit, [], _ => sliceLimit
  | sliceLimit, x :: xs, id =>
    if x = id then sliceLimit
    else limitBefore s o half (s.limitAfter o half sliceLimit x) xs id

def cloned (s : Split) (half : Half) : List Nat :=
  DepthFirst.order (s.cloneExits half) s.blocks.length s.start

def copyOf (s : Split) (o : CommandLineOptions) (half : Half) (b : Block) :
    Block :=
  s.copyBlock o half
    (s.limitBefore o half half.sliceLimit (s.cloned half) b.uniqueId) b

section Copies

variable {s : Split} {o : CommandLineOptions} {half : Half} {b b' : Block}
  {id t : Nat} {xs : List Nat}

theorem findBlock_uniqueId {blocks : List Block}
    (h : findBlock blocks id = some b) : b ∈ blocks ∧ b.uniqueId = id := by
  constructor
  · exact List.mem_of_find?_eq_some h
  · simpa using List.find?_some h

theorem findBlock_filterMap {f : Nat -> Option Block}
    (hf : forall id b, f id = some b -> b.uniqueId = id) :
    findBlock (xs.filterMap f) id = if id ∈ xs then f id else none := by
  induction xs with
  | nil => rfl
  | cons x xs ih =>
    rw [List.filterMap_cons]
    cases hx : f x with
    | none =>
      by_cases hid : id = x
      · subst hid
        rw [ih, if_pos List.mem_cons_self, hx]
        split <;> rfl
      · simp only [ih, List.mem_cons, hid, false_or]
    | some b =>
      have hb := hf x b hx
      unfold findBlock at ih ⊢
      by_cases hid : id = x
      · subst hid
        rw [List.find?_cons_of_pos (by simpa using hb),
          if_pos List.mem_cons_self, hx]
      · rw [List.find?_cons_of_neg (by simpa [hb] using Ne.symm hid), ih]
        simp only [List.mem_cons, hid, false_or]

theorem copies_foldl (st : CloneState) (hnodup : xs.Nodup) :
    (xs.foldl (s.cloneBlock o half) st).copies =
      st.copies ++ xs.filterMap (fun id => (findBlock s.blocks id).map
        (s.copyBlock o half (s.limitBefore o half st.sliceLimit xs id))) := by
  induction xs generalizing st with
  | nil => rw [List.foldl_nil, List.filterMap_nil, List.append_nil]
  | cons x xs ih =>
    rw [List.nodup_cons] at hnodup
    have htail : forall limit, xs.filterMap (fun id =>
        (findBlock s.blocks id).map (s.copyBlock o half
          (s.limitBefore o half limit (x :: xs) id))) =
        xs.filterMap (fun id => (findBlock s.blocks id).map
          (s.copyBlock o half (s.limitBefore o half
            (s.limitAfter o half limit x) xs id))) := by
      intro limit
      apply List.filterMap_congr
      intro id hid
      have hne : x ≠ id := by
        rintro rfl
        exact hnodup.1 hid
      rw [limitBefore, if_neg hne]
    rw [List.foldl_cons, ih _ hnodup.2, List.filterMap_cons, htail]
    cases hx : findBlock s.blocks x with
    | none => simp only [cloneBlock, limitAfter, hx, Option.map_none]
    | some b =>
      simp only [cloneBlock, limitAfter, limitBefore, hx, if_true,
        Option.map_some, List.append_assoc, List.singleton_append]

namespace Valid

theorem findBlock_eq (h : s.Valid) (hb : b ∈ s.blocks) :
    findBlock s.blocks b.uniqueId = some b := by
  rcases h.passive with ⟨P, hP⟩
  rw [← hP] at hb ⊢
  exact P.findBlock_eq hb

theorem unique (h : s.Valid) (hb : b ∈ s.blocks) (hb' : b' ∈ s.blocks)
    (hid : b.uniqueId = b'.uniqueId) : b = b' := by
  have hfind := h.findBlock_eq hb
  rw [hid, h.findBlock_eq hb'] at hfind
  exact (Option.some.inj hfind).symm

theorem exits_eq (h : s.Valid) (hb : b ∈ s.blocks) :
    s.exits b.uniqueId = b.labelTargets := by
  unfold exits
  rw [h.findBlock_eq hb]

theorem jumps_iff (h : s.Valid) (hb : b ∈ s.blocks) :
    t ∈ s.exits b.uniqueId <-> Jumps s.blocks b.uniqueId t := by
  rw [h.exits_eq hb]
  constructor
  · intro ht
    exact ⟨b, hb, rfl, ht⟩
  · rintro ⟨b', hb', hid, ht⟩
    rw [← h.unique hb' hb hid]
    exact ht

theorem mem_ids : id ∈ s.ids <-> exists b, b ∈ s.blocks ∧ b.uniqueId = id :=
  List.mem_map

theorem closed (h : s.Valid) : DepthFirst.Closed s.exits s.ids := by
  intro id hid t ht
  rcases mem_ids.mp hid with ⟨b, hb, rfl⟩
  rw [h.exits_eq hb] at ht
  rcases h.passive with ⟨P, hP⟩
  rw [← hP] at hb
  rcases P.closed b hb t ht with ⟨b', hb', rfl⟩
  have hmem : b' ∈ s.blocks := by
    rw [← hP]
    exact hb'
  exact List.mem_map_of_mem hmem

theorem start_mem (h : s.Valid) : s.start ∈ s.ids := by
  rcases h.passive with ⟨P, hP⟩
  unfold start ids
  rw [← hP]
  exact List.mem_cons_self

theorem acyclic (h : s.Valid) : Acyclic s.blocks := by
  rcases h.passive with ⟨P, hP⟩
  rw [← hP]
  exact P.acyclic

theorem passive_cmds (h : s.Valid) (hb : b ∈ s.blocks) :
    forall c, c ∈ b.cmds -> c.passive = true := by
  rcases h.passive with ⟨P, hP⟩
  rw [← hP] at hb
  exact P.passive b hb

end Valid

theorem mem_exits_of_mem_cloneExits (ht : t ∈ s.cloneExits half id) :
    t ∈ s.exits id := by
  cases half with
  | branch => exact (List.mem_filter.mp ht).1
  | slice => exact ht

theorem closed_of_subset {next : Nat -> List Nat} (h : s.Valid)
    (hnext : forall id t, t ∈ next id -> t ∈ s.exits id) :
    DepthFirst.Closed next s.ids :=
  fun id hid t ht => h.closed id hid t (hnext id t ht)

theorem closed_cloneExits (h : s.Valid) :
    DepthFirst.Closed (s.cloneExits half) s.ids :=
  closed_of_subset h (fun _ _ => mem_exits_of_mem_cloneExits)

theorem ids_length : s.ids.length ≤ s.blocks.length := by
  unfold ids
  rw [List.length_map]

theorem cloned_nodup (h : s.Valid) : (s.cloned half).Nodup :=
  DepthFirst.order_nodup (closed_cloneExits h) ids_length h.start_mem

theorem cloned_closed (h : s.Valid) :
    DepthFirst.Closed (s.cloneExits half) (s.cloned half) :=
  DepthFirst.order_closed (closed_cloneExits h) ids_length h.start_mem

theorem start_mem_cloned (h : s.Valid) : s.start ∈ s.cloned half :=
  DepthFirst.mem_order_self (closed_cloneExits h) ids_length h.start_mem

theorem cloned_subset (h : s.Valid) (hid : id ∈ s.cloned half) : id ∈ s.ids := by
  unfold cloned at hid
  rw [DepthFirst.mem_order (closed_cloneExits h) ids_length h.start_mem] at hid
  induction hid with
  | refl => exact h.start_mem
  | tail _ hstep ih => exact closed_cloneExits h _ ih _ hstep

theorem copies_eq (h : s.Valid) : s.copies o half =
    (s.cloned half).filterMap (fun id => (findBlock s.blocks id).map (s.copyBlock o half
        (s.limitBefore o half half.sliceLimit (s.cloned half) id))) := by
  unfold copies
  rw [DepthFirst.visit_eq (closed_cloneExits h) ids_length h.start_mem]
  exact copies_foldl { copies := [], sliceLimit := half.sliceLimit }
    (cloned_nodup h)

theorem findBlock_copies (h : s.Valid) (hb : b ∈ s.blocks) :
    findBlock (s.copies o half) b.uniqueId =
      if b.uniqueId ∈ s.cloned half then some (s.copyOf o half b) else none := by
  rw [copies_eq h, findBlock_filterMap]
  · rw [h.findBlock_eq hb]
    rfl
  · intro id c hc
    rcases Option.map_eq_some_iff.mp hc with ⟨b', hb', rfl⟩
    exact (findBlock_uniqueId hb').2

theorem doHalf_blocks (h : s.Valid) : (s.doHalf o half).blocks =
    (s.blocks.filter (fun b => (s.cloned half).contains b.uniqueId)).map (s.copyOf o half) := by
  rw [← List.filterMap_eq_map, ← List.filterMap_eq_filter,
    List.filterMap_filterMap]
  apply List.filterMap_congr
  intro b hb
  rw [findBlock_copies h hb]
  by_cases hid : b.uniqueId ∈ s.cloned half
  · simp [hid, Option.guard]
  · simp [hid, Option.guard]

theorem mem_doHalf (h : s.Valid) : b' ∈ (s.doHalf o half).blocks <->
    exists b, b ∈ s.blocks ∧ b.uniqueId ∈ s.cloned half ∧ s.copyOf o half b = b' := by
  rw [doHalf_blocks h]
  simp only [List.mem_map, List.mem_filter, List.contains_iff_mem, and_assoc]

@[simp] theorem copyOf_uniqueId :
    (s.copyOf o half b).uniqueId = b.uniqueId :=
  rfl

@[simp] theorem copyOf_label : (s.copyOf o half b).label = b.label :=
  rfl

theorem copyOf_labelTargets (h : s.Valid) (hb : b ∈ s.blocks) :
    (s.copyOf o half b).labelTargets = s.cloneExits half b.uniqueId := by
  unfold copyOf copyBlock Block.labelTargets
  cases ht : b.transferCmd with
  | gotoCmd targets => rfl
  | _ =>
    have hexits : s.exits b.uniqueId = [] := by
      rw [h.exits_eq hb, Block.labelTargets, ht]
      rfl
    cases half with
    | branch => simp [cloneExits, hexits, TransferCmd.labelTargets]
    | slice => simp [cloneExits, hexits, TransferCmd.labelTargets]

theorem allTurned_sliceLoop (limit : Rat) (pos : Bool) (cs : List Cmd)
    (rest : Rat) : AllTurned o cs (sliceLoop o limit pos cs rest).1 := by
  induction cs generalizing rest with
  | nil => exact List.Forall₂.nil
  | cons c cs ih =>
    cases c with
    | assertCmd a =>
      rw [sliceLoop]
      apply List.Forall₂.cons _ (ih _)
      split
      · exact Or.inr rfl
      · exact Or.inl rfl
    | _ => exact List.Forall₂.cons (Or.inl rfl) (ih _)

theorem allTurned_copyOf : AllTurned o b.cmds (s.copyOf o half b).cmds := by
  unfold copyOf copyBlock
  cases half with
  | branch assertToAssume splitBlock assumizedBranches =>
    simp only [sliceCmds]
    split
    · exact AllTurned.turnAsserts b.cmds
    · exact AllTurned.refl b.cmds
  | slice limit pos => exact allTurned_sliceLoop limit pos b.cmds _

theorem copyOf_ids : (s.copyOf o half b).ids = b.ids := by
  unfold Block.ids
  rw [allTurned_copyOf.uniqueIds, copyOf_uniqueId]

/-!
# A half is a program again
-/

theorem jumps_doHalf (h : s.Valid) {source : Nat}
    (hjump : Jumps (s.doHalf o half).blocks source t) :
    Jumps s.blocks source t := by
  rcases hjump with ⟨b', hb', rfl, ht⟩
  rcases (mem_doHalf h).mp hb' with ⟨b, hb, _, rfl⟩
  rw [copyOf_labelTargets h hb] at ht
  exact (h.jumps_iff hb).mp (mem_exits_of_mem_cloneExits ht)

theorem acyclic_doHalf (h : s.Valid) : Acyclic (s.doHalf o half).blocks := by
  intro id hcycle
  apply h.acyclic id
  exact Relation.TransGen.mono (fun _ _ => jumps_doHalf h) _ _ hcycle

theorem doHalf_start (h : s.Valid) : exists b rest, b ∈ s.blocks ∧
    b.uniqueId = s.start ∧ b.uniqueId ∈ s.cloned half ∧
    (s.doHalf o half).blocks = s.copyOf o half b :: rest := by
  rcases h.passive with ⟨P, hP⟩
  have hblocks : s.blocks = P.start :: P.rest := hP.symm
  have hstart : P.start.uniqueId = s.start := by
    unfold start ids
    rw [hblocks]
    rfl
  have hmem : P.start.uniqueId ∈ s.cloned half := by
    rw [hstart]
    exact start_mem_cloned h
  refine ⟨P.start, (P.rest.filter (fun b =>
    (s.cloned half).contains b.uniqueId)).map (s.copyOf o half), ?_, hstart,
    hmem, ?_⟩
  · rw [hblocks]
    exact List.mem_cons_self
  · rw [doHalf_blocks h, hblocks, List.filter_cons_of_pos, List.map_cons]
    simpa using hmem

theorem start_doHalf (h : s.Valid) : (s.doHalf o half).start = s.start := by
  rcases doHalf_start h with ⟨b, rest, _, hid, _, hblocks⟩
  rw [← hid]
  unfold start ids
  rw [hblocks]
  rfl

theorem distinct_doHalf (h : s.Valid) :
    ((s.doHalf o half).blocks.flatMap Block.ids).Nodup := by
  rcases h.passive with ⟨P, hP⟩
  have hdistinct : (s.blocks.flatMap Block.ids).Nodup := by
    rw [← hP]
    exact P.distinct
  apply List.Nodup.sublist _ hdistinct
  rw [doHalf_blocks h, List.flatMap_map]
  have hids : (fun b => (s.copyOf o half b).ids) = Block.ids := by
    funext b
    exact copyOf_ids
  rw [hids]
  exact List.Sublist.flatMap List.filter_sublist Block.ids

theorem doHalf_closed (h : s.Valid) (hb' : b' ∈ (s.doHalf o half).blocks)
    (ht : t ∈ b'.labelTargets) :
    exists x, x ∈ (s.doHalf o half).blocks ∧ x.uniqueId = t := by
  rcases (mem_doHalf h).mp hb' with ⟨b, hb, hcloned, rfl⟩
  rw [copyOf_labelTargets h hb] at ht
  have ht' := cloned_closed h _ hcloned t ht
  rcases Valid.mem_ids.mp (cloned_subset h ht') with ⟨x, hx, rfl⟩
  exact ⟨_, (mem_doHalf h).mpr ⟨x, hx, ht', rfl⟩, rfl⟩

theorem passive_doHalf (h : s.Valid) :
    exists P : PassiveProgram, P.blocks = (s.doHalf o half).blocks := by
  rcases doHalf_start h with ⟨start, rest, _, _, _, hblocks⟩
  refine ⟨⟨s.copyOf o half start, rest, ?_, ?_, ?_, ?_, ?_, ?_⟩,
    hblocks.symm⟩
  all_goals rw [← hblocks]
  · intro b' hb'
    rcases (mem_doHalf h).mp hb' with ⟨b, hb, _, rfl⟩
    exact allTurned_copyOf.passive (h.passive_cmds hb)
  · intro b' hb' e
    rcases (mem_doHalf h).mp hb' with ⟨b, hb, _, rfl⟩
    have htransfer : b.transferCmd ≠ .returnExprCmd e := by
      rcases h.passive with ⟨P, hP⟩
      rw [← hP] at hb
      exact P.transfers b hb e
    unfold copyOf copyBlock
    cases hcmd : b.transferCmd with
    | gotoCmd => simp
    | returnCmd => simp
    | returnExprCmd e' =>
      rw [hcmd] at htransfer
      exact htransfer
  · intro b' hb' t ht
    exact doHalf_closed h hb' ht
  · exact acyclic_doHalf h
  · exact distinct_doHalf h
  · intro b' hb'
    rcases (mem_doHalf h).mp hb' with ⟨b, hb, _, rfl⟩
    rw [copyOf_ids]
    rcases h.passive with ⟨P, hP⟩
    rw [← hP] at hb
    exact P.positive b hb

theorem exitBlocks_copyOf (h : s.Valid) (hb : b ∈ s.blocks) {x : Block}
    (hx : x ∈ (s.doHalf o half).exitBlocks (s.copyOf o half b)) :
    exists y, y ∈ s.exitBlocks b ∧ y ∈ s.blocks ∧
      y.uniqueId ∈ s.cloneExits half b.uniqueId ∧ x = s.copyOf o half y := by
  rcases List.mem_filterMap.mp hx with ⟨t, ht, hfind⟩
  rw [copyOf_labelTargets h hb] at ht
  rcases findBlock_uniqueId hfind with ⟨hx', rfl⟩
  rcases (mem_doHalf h).mp hx' with ⟨y, hy, _, rfl⟩
  refine ⟨y, ?_, hy, ht, rfl⟩
  apply List.mem_filterMap.mpr
  refine ⟨y.uniqueId, ?_, h.findBlock_eq hy⟩
  rw [← h.exits_eq hb]
  exact mem_exits_of_mem_cloneExits ht

theorem valid_doHalf (h : s.Valid) : (s.doHalf o half).Valid where
  passive := passive_doHalf h
  predecessors := by
    intro b' hb' t ht
    rcases (mem_doHalf h).mp hb' with ⟨b, hb, hcloned, rfl⟩
    rw [copyOf_labelTargets h hb] at ht
    have hexit := mem_exits_of_mem_cloneExits ht
    rw [h.exits_eq hb] at hexit
    apply List.mem_filter.mpr
    refine ⟨h.predecessors b hb t hexit, ?_⟩
    rw [copyOf_uniqueId, findBlock_copies h hb, if_pos hcloned]
    rfl
  labels := by
    intro b' hb' x y hx hy hlabel
    rcases (mem_doHalf h).mp hb' with ⟨b, hb, _, rfl⟩
    rcases exitBlocks_copyOf h hb hx with ⟨x', hx', _, _, rfl⟩
    rcases exitBlocks_copyOf h hb hy with ⟨y', hy', _, _, rfl⟩
    rw [h.labels b hb x' y' hx' hy' hlabel]

/-!
# Executions of a half
-/

section Executions

variable {U : Type} [DecidableEq U] {C : Context U} {ρ : Env U} {last : Block}
  {ac : AssertCmd}

theorem wrong_of_doHalf (h : s.Valid)
    (hwrong : Wrong C (s.doHalf o half).blocks id ρ) : Wrong C s.blocks id ρ := by
  induction hwrong with
  | cmds hb' hfail =>
    rcases (mem_doHalf h).mp hb' with ⟨b, hb, _, rfl⟩
    rw [copyOf_uniqueId]
    exact Wrong.cmds hb (allTurned_copyOf.fail hfail)
  | jump hb' hrun ht _ ih =>
    rcases (mem_doHalf h).mp hb' with ⟨b, hb, _, rfl⟩
    rw [copyOf_labelTargets h hb] at ht
    have hexit := mem_exits_of_mem_cloneExits ht
    rw [h.exits_eq hb] at hexit
    rw [copyOf_uniqueId]
    exact Wrong.jump hb (allTurned_copyOf.run hrun) hexit ih

theorem wrong_jump (h : s.Valid) (hb : b ∈ s.blocks) (hcloned : b.uniqueId ∈ s.cloned half)
    (hpasses : Passes C (fun _ => true) ρ b.cmds) (ht : t ∈ s.cloneExits half b.uniqueId)
    (hwrong : Wrong C (s.doHalf o half).blocks t ρ) :
    Wrong C (s.doHalf o half).blocks b.uniqueId ρ := by
  have hcopy : s.copyOf o half b ∈ (s.doHalf o half).blocks :=
    (mem_doHalf h).mpr ⟨b, hb, hcloned, rfl⟩
  have hturned : AllTurned o b.cmds (s.copyOf o half b).cmds := allTurned_copyOf
  have hrun := hturned.run_of_passes (h.passive_cmds hb) hpasses
  have htarget : t ∈ (s.copyOf o half b).labelTargets := by
    rw [copyOf_labelTargets h hb]
    exact ht
  change Wrong C _ (s.copyOf o half b).uniqueId ρ
  exact Wrong.jump hcopy hrun htarget hwrong

theorem wrong_here (h : s.Valid) (hb : b ∈ s.blocks)
    (hcloned : b.uniqueId ∈ s.cloned half) {before before' after' : List Cmd}
    (hcmds : (s.copyOf o half b).cmds = before' ++ .assertCmd ac :: after')
    (hbefore : AllTurned o before before') (hp : forall c, c ∈ before -> c.passive = true)
    (hpasses : Passes C (fun _ => true) ρ before) (hfalse : ¬ C.Holds ρ ac.expr) :
    Wrong C (s.doHalf o half).blocks b.uniqueId ρ := by
  have hcopy : s.copyOf o half b ∈ (s.doHalf o half).blocks :=
    (mem_doHalf h).mpr ⟨b, hb, hcloned, rfl⟩
  change Wrong C _ (s.copyOf o half b).uniqueId ρ
  apply Wrong.cmds hcopy
  rw [hcmds]
  exact cmdsFail_append.mpr
    (Or.inr ⟨ρ, hbefore.run_of_passes hp hpasses, CmdsFail.here hfalse⟩)

theorem wrong_unchanged (h : s.Valid) (hb : b ∈ s.blocks)
    (hcloned : b.uniqueId ∈ s.cloned half) {before after : List Cmd}
    (hcopy : (s.copyOf o half b).cmds = b.cmds) (hcmds : b.cmds = before ++ .assertCmd ac :: after)
    (hpasses : Passes C (fun _ => true) ρ before) (hfalse : ¬ C.Holds ρ ac.expr) :
    Wrong C (s.doHalf o half).blocks b.uniqueId ρ := by
  have hp := h.passive_cmds hb
  rw [hcmds] at hcopy hp
  exact wrong_here h hb hcloned hcopy (AllTurned.refl before)
    (fun c hc => hp c (List.mem_append_left _ hc)) hpasses hfalse

end Executions

/-!
# Reachable blocks
-/

theorem jumps_of_exits (ht : t ∈ s.exits id) : Jumps s.blocks id t := by
  unfold exits at ht
  cases hb : findBlock s.blocks id with
  | none =>
    rw [hb] at ht
    cases ht
  | some b =>
    rw [hb] at ht
    rcases findBlock_uniqueId hb with ⟨hmem, hid⟩
    exact ⟨b, hmem, hid, ht⟩

theorem mem_ids_of_exits (h : s.Valid) (ht : t ∈ s.exits id) : t ∈ s.ids := by
  rcases jumps_of_exits ht with ⟨b, hb, rfl, _⟩
  exact h.closed _ (List.mem_map_of_mem hb) t ht

theorem not_reaches_back (h : s.Valid) (ht : t ∈ s.exits id) :
    ¬ DepthFirst.Reaches s.exits t id := by
  intro hreaches
  have hjumps : Relation.ReflTransGen (Jumps s.blocks) t id :=
    Relation.ReflTransGen.mono (fun _ _ => jumps_of_exits) _ _ hreaches
  exact h.acyclic id (Relation.TransGen.head' (jumps_of_exits ht) hjumps)

theorem mem_computeReachableNodes (h : s.Valid) (hid : id ∈ s.ids) :
    t ∈ s.computeReachableNodes id <-> DepthFirst.Reaches s.exits id t :=
  DepthFirst.mem_order h.closed ids_length hid

section Branch

variable {splitBlock : Nat} {branches : List Nat} {assertToAssume : Bool}

theorem mem_protected (h : s.Valid) (hbranches : forall t, t ∈ branches -> t ∈ s.ids) :
    id ∈ (s.computeBlockSets true splitBlock branches).protectedFromAssertToAssume <->
      exists t, t ∈ branches ∧ DepthFirst.Reaches s.exits t id := by
  unfold computeBlockSets
  rw [if_pos rfl, List.mem_flatMap]
  constructor
  · rintro ⟨t, ht, hmem⟩
    exact ⟨t, ht, (mem_computeReachableNodes h (hbranches t ht)).mp hmem⟩
  · rintro ⟨t, ht, hreaches⟩
    exact ⟨t, ht, (mem_computeReachableNodes h (hbranches t ht)).mpr hreaches⟩

theorem keepAtAll_of_protected (hid : id ∈ (s.computeBlockSets true splitBlock
      branches).protectedFromAssertToAssume) :
    id ∈ (s.computeBlockSets true splitBlock branches).keepAtAll := by
  unfold computeBlockSets at hid ⊢
  rw [if_pos rfl] at hid ⊢
  exact List.mem_append_right _ hid

theorem keepAtAll_of_reaches (h : s.Valid) (hid : id ∈ s.ids)
    (hreaches : DepthFirst.Reaches s.exits id splitBlock) :
    id ∈ (s.computeBlockSets true splitBlock branches).keepAtAll := by
  unfold computeBlockSets
  rw [if_pos rfl]
  apply List.mem_append_left
  apply List.mem_filter.mpr
  refine ⟨hid, ?_⟩
  rw [List.contains_iff_mem]
  exact (mem_computeReachableNodes h hid).mpr hreaches

theorem mem_cloneExits_branch :
    t ∈ s.cloneExits (.branch assertToAssume splitBlock branches) id <-> t ∈ s.exits id ∧
        (id ≠ splitBlock ∨ branches.contains t = assertToAssume) ∧
        t ∈ (s.computeBlockSets assertToAssume splitBlock branches).keepAtAll := by
  simp only [cloneExits, List.mem_filter, Bool.and_eq_true, Bool.or_eq_true,
    decide_eq_true_eq, beq_iff_eq, List.contains_iff_mem]

theorem mem_helperExits : t ∈ s.helperExits splitBlock branches id <->
    t ∈ s.exits id ∧ (id ≠ splitBlock ∨ branches.contains t = false) := by
  simp only [helperExits, List.mem_filter, Bool.not_eq_true',
    Bool.and_eq_false_iff, decide_eq_false_iff_not, ne_eq]

theorem mem_keepAtAll_dropped (h : s.Valid) :
    id ∈ (s.computeBlockSets false splitBlock branches).keepAtAll <->
      DepthFirst.Reaches (s.helperExits splitBlock branches) s.start id := by
  have hclosed : DepthFirst.Closed (s.helperExits splitBlock branches) s.ids :=
    closed_of_subset h (fun _ _ ht => (mem_helperExits.mp ht).1)
  exact DepthFirst.mem_order hclosed ids_length h.start_mem

theorem cloneExits_dropped (h : s.Valid) (hid : id ∈ s.cloned (.branch false splitBlock branches))
    (ht : t ∈ s.exits id) (hkeep : id ≠ splitBlock ∨ t ∉ branches) :
    t ∈ s.cloneExits (.branch false splitBlock branches) id := by
  have hcontains : id ≠ splitBlock ∨ branches.contains t = false := by
    rcases hkeep with hne | hnot
    · exact Or.inl hne
    · right
      simpa using hnot
  refine mem_cloneExits_branch.mpr ⟨ht, hcontains, ?_⟩
  rw [mem_keepAtAll_dropped h]
  have hreaches :
      DepthFirst.Reaches (s.helperExits splitBlock branches) s.start id := by
    unfold cloned at hid
    rw [DepthFirst.mem_order (closed_cloneExits h) ids_length h.start_mem] at hid
    apply Relation.ReflTransGen.mono _ _ _ hid
    intro x y hy
    rcases mem_cloneExits_branch.mp hy with ⟨hexit, hbranch, _⟩
    exact mem_helperExits.mpr ⟨hexit, hbranch⟩
  exact Relation.ReflTransGen.tail hreaches (mem_helperExits.mpr ⟨ht, hcontains⟩)

theorem copyOf_cmds_kept (hunchanged : shouldAssumize assertToAssume
      (s.computeBlockSets assertToAssume splitBlock branches) b.uniqueId = false) :
    (s.copyOf o (.branch assertToAssume splitBlock branches) b).cmds = b.cmds := by
  simp only [copyOf, copyBlock, sliceCmds]
  rw [hunchanged]
  rfl

theorem cloneExits_above (h : s.Valid) (ht : t ∈ s.exits id)
    (hreaches : DepthFirst.Reaches s.exits t splitBlock) :
    t ∈ s.cloneExits (.branch true splitBlock branches) id := by
  have hne : id ≠ splitBlock := by
    rintro rfl
    exact not_reaches_back h ht hreaches
  exact mem_cloneExits_branch.mpr ⟨ht, Or.inl hne,
    keepAtAll_of_reaches h (mem_ids_of_exits h ht) hreaches⟩

section Below

variable (h : s.Valid)
  (hbranches : forall t, t ∈ branches -> t ∈ s.exits splitBlock)

include h hbranches

theorem protected_below (hbelow : exists t, t ∈ branches ∧ DepthFirst.Reaches s.exits t id) :
    id ∈ (s.computeBlockSets true splitBlock branches).protectedFromAssertToAssume :=
  (mem_protected h (fun t ht => mem_ids_of_exits h (hbranches t ht))).mpr hbelow

theorem cloneExits_taken (hid : id = splitBlock) (ht : t ∈ branches) :
    t ∈ s.cloneExits (.branch true splitBlock branches) id := by
  have hexit := hbranches t ht
  rw [← hid] at hexit
  exact mem_cloneExits_branch.mpr ⟨hexit, Or.inr (by simpa using ht),
    keepAtAll_of_protected (protected_below h hbranches
      ⟨t, ht, Relation.ReflTransGen.refl⟩)⟩

theorem cloneExits_below (hbelow : exists t, t ∈ branches ∧ DepthFirst.Reaches s.exits t id)
    (ht : t ∈ s.exits id) :
    t ∈ s.cloneExits (.branch true splitBlock branches) id := by
  rcases hbelow with ⟨r, hr, hreaches⟩
  have hne : id ≠ splitBlock := by
    rintro rfl
    exact not_reaches_back h (hbranches r hr) hreaches
  exact mem_cloneExits_branch.mpr ⟨ht, Or.inl hne,
    keepAtAll_of_protected (protected_below h hbranches
      ⟨r, hr, Relation.ReflTransGen.tail hreaches ht⟩)⟩

theorem copyOf_cmds_protected (hbelow : exists t, t ∈ branches ∧
      DepthFirst.Reaches s.exits t b.uniqueId) :
    (s.copyOf o (.branch true splitBlock branches) b).cmds = b.cmds := by
  apply copyOf_cmds_kept
  rw [shouldAssumize, Bool.true_and, Bool.not_eq_false', List.contains_iff_mem]
  exact protected_below h hbranches hbelow

end Below

section Executions

variable {U : Type} [DecidableEq U] {C : Context U} {ρ : Env U} {last : Block}
  {ac : AssertCmd} (h : s.Valid)
  (hbranches : forall t, t ∈ branches -> t ∈ s.exits splitBlock)

include h hbranches

theorem wrong_protected (hfails : FailsAt C (fun _ => true) s.blocks ρ last ac id)
    (hcloned : id ∈ s.cloned (.branch true splitBlock branches))
    (hbelow : exists t, t ∈ branches ∧ DepthFirst.Reaches s.exits t id) :
    Wrong C (s.doHalf o (.branch true splitBlock branches)).blocks id ρ := by
  induction hfails with
  | here hb hcmds hpasses hfalse =>
    exact wrong_unchanged h hb hcloned
      (copyOf_cmds_protected h hbranches hbelow) hcmds hpasses hfalse
  | @jump b t hb hpasses ht _ ih =>
    have hexit : t ∈ s.exits b.uniqueId := by
      rw [h.exits_eq hb]
      exact ht
    have hclone := cloneExits_below h hbranches hbelow hexit
    rcases hbelow with ⟨r, hr, hreaches⟩
    exact wrong_jump h hb hcloned hpasses hclone
      (ih (cloned_closed h _ hcloned t hclone)
        ⟨r, hr, Relation.ReflTransGen.tail hreaches hexit⟩)

theorem wrong_branch (hfails : FailsAt C (fun _ => true) s.blocks ρ last ac id) :
    (id ∈ s.cloned (.branch false splitBlock branches) ->
        Wrong C (s.doHalf o (.branch false splitBlock branches)).blocks id ρ) ∨
      (DepthFirst.Reaches s.exits id splitBlock ∧
        (id ∈ s.cloned (.branch true splitBlock branches) ->
          Wrong C (s.doHalf o (.branch true splitBlock branches)).blocks id ρ)) := by
  induction hfails with
  | here hb hcmds hpasses hfalse =>
    left
    intro hcloned
    exact wrong_unchanged h hb hcloned (copyOf_cmds_kept rfl) hcmds hpasses
      hfalse
  | @jump b t hb hpasses ht hrest ih =>
    have hexit : t ∈ s.exits b.uniqueId := by
      rw [h.exits_eq hb]
      exact ht
    by_cases htaken : b.uniqueId = splitBlock ∧ t ∈ branches
    · right
      rcases htaken with ⟨heq, hbranch⟩
      constructor
      · rw [heq]
        exact Relation.ReflTransGen.refl
      · intro hcloned
        have hclone := cloneExits_taken h hbranches heq hbranch
        exact wrong_jump h hb hcloned hpasses hclone
          (wrong_protected h hbranches hrest
            (cloned_closed h _ hcloned t hclone)
            ⟨t, hbranch, Relation.ReflTransGen.refl⟩)
    · have hother : b.uniqueId ≠ splitBlock ∨ t ∉ branches := by tauto
      rcases ih with hdropped | ⟨hreaches, hkept⟩
      · left
        intro hcloned
        have hclone := cloneExits_dropped h hcloned hexit hother
        exact wrong_jump h hb hcloned hpasses hclone
          (hdropped (cloned_closed h _ hcloned t hclone))
      · right
        constructor
        · exact Relation.ReflTransGen.head hexit hreaches
        · intro hcloned
          have hclone : t ∈ s.cloneExits (.branch true splitBlock branches)
              b.uniqueId := cloneExits_above h hexit hreaches
          exact wrong_jump h hb hcloned hpasses hclone
            (hkept (cloned_closed h _ hcloned t hclone))

end Executions

end Branch

/-!
# The two groups of a slice
-/

section Slice

variable {limit rest : Rat} {pos pos' : Bool} {cs before after : List Cmd}
  {ac : AssertCmd}

theorem sliceLoop_append : sliceLoop o limit pos (before ++ cs) rest =
    ((sliceLoop o limit pos before rest).1 ++
        (sliceLoop o limit pos cs (sliceLoop o limit pos before rest).2).1,
      (sliceLoop o limit pos cs (sliceLoop o limit pos before rest).2).2) := by
  induction before generalizing rest with
  | nil => rfl
  | cons c before ih =>
    cases c with
    | _ => simp [sliceLoop, ih]

theorem sliceLoop_limit : (sliceLoop o limit pos cs rest).2 =
    (sliceLoop o limit pos' cs rest).2 := by
  induction cs generalizing rest with
  | nil => rfl
  | cons c cs ih =>
    cases c with
    | _ =>
      simp only [sliceLoop]
      exact ih

theorem limitBefore_slice {xs : List Nat} :
    s.limitBefore o (.slice limit pos) rest xs id =
      s.limitBefore o (.slice limit pos') rest xs id := by
  induction xs generalizing rest with
  | nil => rfl
  | cons x xs ih =>
    have hafter : s.limitAfter o (.slice limit pos) rest x =
        s.limitAfter o (.slice limit pos') rest x := by
      unfold limitAfter
      cases findBlock s.blocks x with
      | none => rfl
      | some b => exact sliceLoop_limit
    rw [limitBefore, limitBefore, hafter, ih]

theorem exists_group (hcmds : b.cmds = before ++ .assertCmd ac :: after) :
    exists pos before' after', AllTurned o before before' ∧ (s.copyOf o (.slice limit pos) b).cmds =
        before' ++ .assertCmd ac :: after' := by
  let rest := s.limitBefore o (.slice limit true) limit
    (s.cloned (.slice limit true)) b.uniqueId
  let here := (sliceLoop o limit true before rest).2
  let pos := !isFirst limit here
  have hcopy : (s.copyOf o (.slice limit pos) b).cmds =
      (sliceLoop o limit pos b.cmds rest).1 := by
    have hrest : rest = s.limitBefore o (.slice limit pos) limit
        (s.cloned (.slice limit pos)) b.uniqueId := limitBefore_slice
    rw [hrest]
    rfl
  have hhere : (sliceLoop o limit pos before rest).2 = here := sliceLoop_limit
  have hswap : (pos == isFirst limit here) = false := by
    change ((!isFirst limit here) == isFirst limit here) = false
    exact Bool.not_beq_self (isFirst limit here)
  refine ⟨pos, (sliceLoop o limit pos before rest).1,
    (sliceLoop o limit pos after (here - assertionCost)).1,
    allTurned_sliceLoop limit pos before rest, ?_⟩
  rw [hcopy, hcmds, sliceLoop_append, hhere, sliceLoop, hswap]
  rfl

theorem wrong_slice {U : Type} [DecidableEq U] {C : Context U} {ρ : Env U}
    {last : Block} (h : s.Valid) (hfails : FailsAt C (fun _ => true) s.blocks ρ last ac id) :
    exists pos, id ∈ s.cloned (.slice limit pos) ->
      Wrong C (s.doHalf o (.slice limit pos)).blocks id ρ := by
  induction hfails with
  | here hb hcmds hpasses hfalse =>
    rcases exists_group hcmds with ⟨pos, before', after', hbefore, hcopy⟩
    refine ⟨pos, ?_⟩
    intro hcloned
    have hp := h.passive_cmds hb
    rw [hcmds] at hp
    exact wrong_here h hb hcloned hcopy hbefore
      (fun c hc => hp c (List.mem_append_left _ hc)) hpasses hfalse
  | @jump b t hb hpasses ht _ ih =>
    rcases ih with ⟨pos, hrest⟩
    refine ⟨pos, ?_⟩
    intro hcloned
    have hclone : t ∈ s.cloneExits (.slice limit pos) b.uniqueId := by
      unfold cloneExits
      rw [h.exits_eq hb]
      exact ht
    exact wrong_jump h hb hcloned hpasses hclone
      (hrest (cloned_closed h _ hcloned t hclone))

end Slice

/-!
# Both halves together
-/

def Holds (s : Split) {U : Type} [DecidableEq U] (C : Context U) (ρ : Env U) :
    Prop :=
  Safe C s.blocks s.start ρ

section Halves

variable {U : Type} [DecidableEq U] {C : Context U} {ρ : Env U}

theorem holds_doHalf (h : s.Valid) (hholds : s.Holds C ρ) :
    (s.doHalf o half).Holds C ρ := by
  intro hwrong
  rw [start_doHalf h] at hwrong
  exact hholds (wrong_of_doHalf h hwrong)

theorem wrong_start (h : s.Valid) (hwrong : s.start ∈ s.cloned half ->
      Wrong C (s.doHalf o half).blocks s.start ρ) :
    ¬ (s.doHalf o half).Holds C ρ := by
  intro hholds
  apply hholds
  rw [start_doHalf h]
  exact hwrong (start_mem_cloned h)

theorem exists_failsAt (h : s.Valid) (hholds : ¬ s.Holds C ρ) :
    exists last ac, FailsAt C (fun _ => true) s.blocks ρ last ac s.start := by
  have hwrong : Wrong C s.blocks s.start ρ := not_not.mp hholds
  exact hwrong.failsAt (fun b hb => h.passive_cmds hb)

theorem holds_splitAt {splitBlock : Nat} {branches : List Nat} (h : s.Valid)
    (hbranches : forall t, t ∈ branches -> t ∈ s.exits splitBlock) :
    s.Holds C ρ <-> (s.splitAt o splitBlock branches 0).Holds C ρ ∧
        (s.splitAt o splitBlock branches 1).Holds C ρ := by
  constructor
  · intro hholds
    exact ⟨holds_doHalf h hholds, holds_doHalf h hholds⟩
  · rintro ⟨hkept, hdropped⟩
    by_contra hholds
    rcases exists_failsAt h hholds with ⟨last, ac, hfails⟩
    rcases wrong_branch h hbranches hfails with hwrong | ⟨_, hwrong⟩
    · exact wrong_start h hwrong hdropped
    · exact wrong_start h hwrong hkept

theorem holds_sliceAsserts {limit : Rat} (h : s.Valid) :
    s.Holds C ρ <-> (s.sliceAsserts o limit true).Holds C ρ ∧
        (s.sliceAsserts o limit false).Holds C ρ := by
  constructor
  · intro hholds
    exact ⟨holds_doHalf h hholds, holds_doHalf h hholds⟩
  · rintro ⟨hfirst, hsecond⟩
    by_contra hholds
    rcases exists_failsAt h hholds with ⟨last, ac, hfails⟩
    rcases wrong_slice h hfails with ⟨pos, hwrong⟩
    cases pos with
    | true => exact wrong_start h hwrong hfirst
    | false => exact wrong_start h hwrong hsecond

end Halves

end Copies

end Split

end VCGen

end Boogie
