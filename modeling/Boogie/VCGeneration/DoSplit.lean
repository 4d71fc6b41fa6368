import Boogie.VCGeneration.BigBlocks

/-!
# The loop that splits

No check of the loop fails, and all assertions of a program hold exactly when
those of the programs that it is split into do.
-/

namespace Boogie

namespace VCGen

namespace Split

section SoundnessCheck

variable {s : Split} {o : CommandLineOptions} {half : Bool -> Half}
  {b x y : Block} {copies : Copies} {second : Bool}

/-!
# Copies along a path
-/

def halfPrograms (s : Split) (o : CommandLineOptions) (half : Bool -> Half)
    (second : Bool) : Split :=
  s.doHalf o (half second)

def HasCopy (s : Split) (o : CommandLineOptions) (half : Bool -> Half)
    (copies : Copies) (b : Block) (second : Bool) : Prop :=
  b.uniqueId ∈ s.cloned (half second) ∧
    (second, s.copyOf o (half second) b) ∈ copies

def AllCopies (s : Split) (o : CommandLineOptions) (half : Bool -> Half)
    (copies : Copies) (b : Block) : Prop :=
  forall c, c ∈ copies -> c.2 = s.copyOf o (half c.1) b

theorem mem_exitBlocks (h : s.Valid) (hb : b ∈ s.blocks) (hy : y ∈ s.exitBlocks b) :
    y ∈ s.blocks ∧ y.uniqueId ∈ s.exits b.uniqueId := by
  rcases List.mem_filterMap.mp hy with ⟨t, ht, hfind⟩
  rcases findBlock_uniqueId hfind with ⟨hmem, rfl⟩
  rw [h.exits_eq hb]
  exact ⟨hmem, ht⟩

theorem mem_newCopies {halves : Bool -> Split} :
    (second, x) ∈ newCopies halves copies y <->
      exists c, (second, c) ∈ copies ∧ x ∈ (halves second).exitBlocks c ∧ x.label = y.label := by
  simp only [newCopies, List.mem_flatMap, List.mem_map, List.mem_filter,
    decide_eq_true_eq]
  constructor
  · rintro ⟨c, hc, z, ⟨hz, hlabel⟩, heq⟩
    cases heq
    exact ⟨c.2, hc, hz, hlabel⟩
  · rintro ⟨c, hc, hx, hlabel⟩
    exact ⟨(second, c), hc, x, ⟨hx, hlabel⟩, rfl⟩

theorem AllCopies.newCopies (h : s.Valid) (hb : b ∈ s.blocks)
    (hcopies : AllCopies s o half copies b) (hy : y ∈ s.exitBlocks b) :
    AllCopies s o half (newCopies (s.halfPrograms o half) copies y) y := by
  rintro ⟨second, x⟩ hx
  rcases mem_newCopies.mp hx with ⟨c, hc, hexit, hlabel⟩
  have hcopy := hcopies _ hc
  simp only at hcopy
  rw [hcopy] at hexit
  rcases exitBlocks_copyOf h hb hexit with ⟨y', hy', _, _, rfl⟩
  rw [copyOf_label] at hlabel
  rw [h.labels b hb y' y hy' hy hlabel]

theorem HasCopy.newCopies (h : s.Valid) (hb : b ∈ s.blocks)
    (hcopy : HasCopy s o half copies b second) (hy : y ∈ s.blocks)
    (hexit : y.uniqueId ∈ s.cloneExits (half second) b.uniqueId) :
    HasCopy s o half (newCopies (s.halfPrograms o half) copies y) y second := by
  have hcloned : y.uniqueId ∈ s.cloned (half second) :=
    cloned_closed h _ hcopy.1 _ hexit
  refine ⟨hcloned, mem_newCopies.mpr ⟨_, hcopy.2, ?_, rfl⟩⟩
  apply List.mem_filterMap.mpr
  refine ⟨y.uniqueId, ?_, ?_⟩
  · rw [copyOf_labelTargets h hb]
    exact hexit
  · have hmem : s.copyOf o (half second) y ∈ (s.doHalf o (half second)).blocks :=
      (mem_doHalf h).mpr ⟨y, hy, hcloned, rfl⟩
    exact (valid_doHalf h).findBlock_eq hmem

/-!
# The check
-/

structure Coverage (s : Split) (o : CommandLineOptions) (half : Bool -> Half)
    (Covers : Copies -> Block -> Prop) : Prop where
  found : forall copies b, Covers copies b ->
    forall before ac after, b.cmds = before ++ .assertCmd ac :: after ->
      exists second, HasCopy s o half copies b second ∧
        (s.copyOf o (half second) b).cmds[before.length]? =
          some (.assertCmd ac)
  exits : forall copies b y, Covers copies b -> b ∈ s.blocks ->
    y ∈ s.blocks -> y.uniqueId ∈ s.exits b.uniqueId ->
      Covers (newCopies (s.halfPrograms o half) copies y) y
  nonempty : forall copies b, Covers copies b -> copies ≠ []

theorem AllTurned.length {cs cs' : List Cmd} (h : AllTurned o cs cs') :
    cs'.length = cs.length :=
  (List.Forall₂.length_eq h).symm

theorem checkCmds_ok {cs : List Cmd} {i : Nat}
    (h : forall before ac after, cs = before ++ .assertCmd ac :: after ->
      checkCmd copies (i + before.length) (.assertCmd ac) = .ok ()) :
    checkCmds copies i cs = .ok () := by
  induction cs generalizing i with
  | nil => rfl
  | cons c cs ih =>
    have hrest : checkCmds copies (i + 1) cs = .ok () := by
      apply ih
      intro before ac after hcs
      have hcheck := h (c :: before) ac after (by rw [hcs]; rfl)
      rw [List.length_cons] at hcheck
      rw [← hcheck]
      congr 1
      omega
    rw [checkCmds, hrest]
    cases c with
    | assertCmd a =>
      have hhere : checkCmd copies i (.assertCmd a) = .ok () := h [] a cs rfl
      rw [hhere]
      rfl
    | _ => rfl

theorem Coverage.checkCmds_ok {Covers : Copies -> Block -> Prop}
    (h : Coverage s o half Covers) (hcopies : AllCopies s o half copies b)
    (hcovers : Covers copies b) : checkCmds copies 0 b.cmds = .ok () := by
  apply Split.checkCmds_ok
  intro before ac after hcmds
  rw [Nat.zero_add]
  have hlength : copies.all (fun c => before.length < c.2.cmds.length) = true := by
    apply List.all_eq_true.mpr
    intro c hc
    rw [hcopies c hc, allTurned_copyOf.length, hcmds]
    simp
  have hfound : copies.any
      (fun c => c.2.cmds[before.length]? = some (.assertCmd ac)) = true := by
    rcases h.found copies b hcovers before ac after hcmds with
      ⟨second, hcopy, hget⟩
    apply List.any_eq_true.mpr
    exact ⟨_, hcopy.2, by simpa using hget⟩
  rw [checkCmd, if_pos hlength, if_pos hfound]

theorem Coverage.checkExits_ok {Covers : Copies -> Block -> Prop}
    (h : Coverage s o half Covers) (hvalid : s.Valid) {depth : Nat}
    {exits : List Block} (hb : b ∈ s.blocks) (hcovers : Covers copies b)
    (hexits : forall exit, exit ∈ exits -> exit ∈ s.exitBlocks b)
    (hchecks : forall exit, exit ∈ s.exitBlocks b -> forall cache,
      exists cache', s.soundnessCheck (s.halfPrograms o half) depth cache exit
        (newCopies (s.halfPrograms o half) copies exit) = .ok cache') (cache : Cache) :
    exists cache', exits.foldlM (fun cache exit =>
      let newcopies := newCopies (s.halfPrograms o half) copies exit
      if newcopies.isEmpty then .error SplitError.missingExit
      else s.soundnessCheck (s.halfPrograms o half) depth cache exit newcopies)
        cache = .ok cache' := by
  induction exits generalizing cache with
  | nil => exact ⟨cache, rfl⟩
  | cons exit exits ih =>
    have hexit := hexits exit List.mem_cons_self
    rcases mem_exitBlocks hvalid hb hexit with ⟨hmem, hid⟩
    rcases hchecks exit hexit cache with ⟨cache', hcheck⟩
    rcases ih (fun y hy => hexits y (List.mem_cons_of_mem exit hy)) cache'
      with ⟨cache'', hrest⟩
    exists cache''
    have hnonempty : (newCopies (s.halfPrograms o half) copies
        exit).isEmpty = false := by
      rw [List.isEmpty_eq_false_iff]
      exact h.nonempty _ exit (h.exits copies b exit hcovers hb hmem hid)
    rw [List.foldlM_cons]
    simp only [hnonempty, hcheck]
    exact hrest

theorem Coverage.soundnessCheck_ok {Covers : Copies -> Block -> Prop}
    (h : Coverage s o half Covers) (hvalid : s.Valid) {depth : Nat}
    (hdepth : s.ids.length ≤ depth) (hb : b ∈ s.blocks)
    (hcopies : AllCopies s o half copies b) (hcovers : Covers copies b) (cache : Cache) :
    exists cache', s.soundnessCheck (s.halfPrograms o half) depth cache b copies = .ok cache' := by
  let Succeeds (depth : Nat) (id : Nat) : Prop := forall b copies cache,
    b ∈ s.blocks -> b.uniqueId = id -> AllCopies s o half copies b ->
      Covers copies b -> exists cache', s.soundnessCheck
        (s.halfPrograms o half) depth cache b copies = .ok cache'
  have hstep : forall depth id, id ∈ s.ids ->
      (forall id', id' ∈ s.exits id -> Succeeds depth id') ->
        Succeeds (depth + 1) id := by
    intro depth id _ hexits b copies cache hb hid hcopies hcovers
    subst hid
    rw [soundnessCheck]
    by_cases hcached : (b, copies) ∈ cache
    · rw [if_pos hcached]
      exact ⟨cache, rfl⟩
    · rw [if_neg hcached, h.checkCmds_ok hcopies hcovers]
      apply h.checkExits_ok hvalid hb hcovers (fun exit hexit => hexit)
      intro exit hexit cache
      rcases mem_exitBlocks hvalid hb hexit with ⟨hmem, hid⟩
      exact hexits exit.uniqueId hid exit _ cache hmem rfl
        (hcopies.newCopies hvalid hb hexit)
        (h.exits copies b exit hcovers hb hmem hid)
  exact DepthFirst.acyclic_bounded hvalid.closed
    (fun _ _ hexit => not_reaches_back hvalid hexit) hstep
    (List.mem_map_of_mem hb) hdepth b copies cache hb rfl hcopies hcovers

theorem Coverage.checkHalves_ok {Covers : Copies -> Block -> Prop}
    (h : Coverage s o half Covers) (hvalid : s.Valid) (hstart : forall copies b, b ∈ s.blocks ->
      (forall second, HasCopy s o half copies b second) -> Covers copies b) :
    checkHalves s (s.doHalf o (half false)) (s.doHalf o (half true)) = .ok () := by
  rcases @doHalf_start s o (half false) hvalid with
    ⟨b, rest, hb, hid, hcloned, hblocks⟩
  rcases @doHalf_start s o (half true) hvalid with
    ⟨b', rest', hb', hid', hcloned', hblocks'⟩
  have heq : b = b' := hvalid.unique hb hb' (hid.trans hid'.symm)
  subst heq
  have hfirst : exists tail, s.blocks = b :: tail := by
    rcases hvalid.passive with ⟨P, hP⟩
    refine ⟨P.rest, ?_⟩
    have hstartid : P.start.uniqueId = s.start := by
      unfold start ids
      rw [← hP]
      rfl
    have hmem : P.start ∈ s.blocks := by
      rw [← hP]
      exact List.mem_cons_self
    rw [hvalid.unique hb hmem (hid.trans hstartid.symm)]
    exact hP.symm
  rcases hfirst with ⟨tail, htail⟩
  let copies : Copies := [(false, s.copyOf o (half false) b),
    (true, s.copyOf o (half true) b)]
  have hall : AllCopies s o half copies b := by
    intro c hc
    simp only [copies, List.mem_cons, List.not_mem_nil, or_false] at hc
    rcases hc with rfl | rfl
    · rfl
    · rfl
  have hboth : forall second, HasCopy s o half copies b second := by
    intro second
    cases second with
    | false => exact ⟨hcloned, by simp [copies]⟩
    | true => exact ⟨hcloned', by simp [copies]⟩
  have hprograms : (fun second => if second then s.doHalf o (half true)
      else s.doHalf o (half false)) = s.halfPrograms o half := by
    funext second
    cases second with
    | false => rfl
    | true => rfl
  have hcheck : exists cache, s.soundnessCheck (s.halfPrograms o half)
      (s.blocks.length + 1) [] b copies = .ok cache :=
    h.soundnessCheck_ok hvalid (Nat.le_succ_of_le ids_length) hb hall
      (hstart copies b hb hboth) []
  rcases hcheck with ⟨cache, hcheck⟩
  unfold checkHalves
  rw [htail, hblocks, hblocks']
  simp only
  rw [hprograms, ← htail, hcheck]
  rfl

end SoundnessCheck

/-!
# The copies of a branch and of a slice
-/

section Covers

variable {s : Split} {o : CommandLineOptions} {copies : Copies} {b : Block}
  {splitBlock : Nat} {branches : List Nat} {limit : Rat}

def branchHalf (splitBlock : Nat) (branches : List Nat) (second : Bool) : Half :=
  .branch (!second) splitBlock branches

def sliceHalf (limit : Rat) (second : Bool) : Half :=
  .slice limit (!second)

/--
The second half has a copy until a branch is taken, and the first half before
and after it.
-/
def BranchCovers (s : Split) (o : CommandLineOptions) (splitBlock : Nat)
    (branches : List Nat) (copies : Copies) (b : Block) : Prop :=
  (HasCopy s o (branchHalf splitBlock branches) copies b true ∧
      (DepthFirst.Reaches s.exits b.uniqueId splitBlock ->
        HasCopy s o (branchHalf splitBlock branches) copies b false)) ∨
    (exists t, t ∈ branches ∧ DepthFirst.Reaches s.exits t b.uniqueId) ∧
      HasCopy s o (branchHalf splitBlock branches) copies b false

def SliceCovers (s : Split) (o : CommandLineOptions) (limit : Rat)
    (copies : Copies) (b : Block) : Prop :=
  forall second, HasCopy s o (sliceHalf limit) copies b second

theorem getElem?_length {cs before after : List Cmd} {c : Cmd}
    (h : cs = before ++ c :: after) : cs[before.length]? = some c := by
  rw [h]
  simp

theorem branchCovers_coverage (h : s.Valid)
    (hbranches : forall t, t ∈ branches -> t ∈ s.exits splitBlock) :
    Coverage s o (branchHalf splitBlock branches) (BranchCovers s o splitBlock branches) where
  found := by
    intro copies b hcovers before ac after hcmds
    rcases hcovers with ⟨hdropped, _⟩ | ⟨hbelow, hkept⟩
    · refine ⟨true, hdropped, ?_⟩
      have hcopy : (s.copyOf o (branchHalf splitBlock branches true) b).cmds =
          b.cmds := copyOf_cmds_kept rfl
      rw [hcopy]
      exact getElem?_length hcmds
    · refine ⟨false, hkept, ?_⟩
      have hcopy : (s.copyOf o (branchHalf splitBlock branches false) b).cmds =
          b.cmds := copyOf_cmds_protected h hbranches hbelow
      rw [hcopy]
      exact getElem?_length hcmds
  exits := by
    intro copies b y hcovers hb hy hexit
    rcases hcovers with ⟨hdropped, hkept⟩ | ⟨hbelow, hkept⟩
    · by_cases htaken : b.uniqueId = splitBlock ∧ y.uniqueId ∈ branches
      · right
        rcases htaken with ⟨heq, hbranch⟩
        have hcopy := hkept (by rw [heq]; exact Relation.ReflTransGen.refl)
        exact ⟨⟨y.uniqueId, hbranch, Relation.ReflTransGen.refl⟩,
          hcopy.newCopies h hb hy (cloneExits_taken h hbranches heq hbranch)⟩
      · left
        have hother : b.uniqueId ≠ splitBlock ∨ y.uniqueId ∉ branches := by tauto
        constructor
        · exact hdropped.newCopies h hb hy
            (cloneExits_dropped h hdropped.1 hexit hother)
        · intro hreaches
          have hcopy := hkept (Relation.ReflTransGen.head hexit hreaches)
          exact hcopy.newCopies h hb hy (cloneExits_above h hexit hreaches)
    · right
      rcases hbelow with ⟨t, ht, hreaches⟩
      exact ⟨⟨t, ht, Relation.ReflTransGen.tail hreaches hexit⟩,
        hkept.newCopies h hb hy
          (cloneExits_below h hbranches ⟨t, ht, hreaches⟩ hexit)⟩
  nonempty := by
    intro copies b hcovers hempty
    rcases hcovers with ⟨hdropped, _⟩ | ⟨_, hkept⟩
    · have hmem := hdropped.2
      rw [hempty] at hmem
      cases hmem
    · have hmem := hkept.2
      rw [hempty] at hmem
      cases hmem

theorem sliceCovers_coverage (h : s.Valid) :
    Coverage s o (sliceHalf limit) (SliceCovers s o limit) where
  found := by
    intro copies b hcovers before ac after hcmds
    rcases exists_group (s := s) (o := o) hcmds with
      ⟨pos, before', after', hbefore, hcopy⟩
    refine ⟨!pos, hcovers (!pos), ?_⟩
    rw [← hbefore.length]
    apply getElem?_length
    rw [sliceHalf, Bool.not_not]
    exact hcopy
  exits := by
    intro copies b y hcovers hb hy hexit second
    exact (hcovers second).newCopies h hb hy hexit
  nonempty := by
    intro copies b hcovers hempty
    have hmem := (hcovers true).2
    rw [hempty] at hmem
    cases hmem

theorem checkHalves_splitAt (h : s.Valid)
    (hbranches : forall t, t ∈ branches -> t ∈ s.exits splitBlock) :
    checkHalves s (s.splitAt o splitBlock branches 0)
      (s.splitAt o splitBlock branches 1) = .ok () := by
  apply (branchCovers_coverage h hbranches).checkHalves_ok h
  intro copies b _ hboth
  exact Or.inl ⟨hboth true, fun _ => hboth false⟩

theorem checkHalves_sliceAsserts (h : s.Valid) :
    checkHalves s (s.sliceAsserts o limit true) (s.sliceAsserts o limit false) = .ok () := by
  apply (sliceCovers_coverage h).checkHalves_ok h
  intro copies b _ hboth
  exact hboth

end Covers

/-!
# Steps of the loop
-/

inductive SplitStep (o : CommandLineOptions) : List Split -> List Split -> Prop
    where
  | branch {s : Split} {before after : List Split} {splitBlock : Nat}
      {branches : List Nat} :
      (forall t, t ∈ branches -> t ∈ s.exits splitBlock) ->
      SplitStep o (before ++ s :: after)
        (before ++ s.splitAt o splitBlock branches 0 :: after ++
          [s.splitAt o splitBlock branches 1])
  | slice {s : Split} {before after : List Split} {limit : Rat} :
      SplitStep o (before ++ s :: after)
        (before ++ s.sliceAsserts o limit true :: after ++
          [s.sliceAsserts o limit false])

def SplitRun (o : CommandLineOptions) (initial : Split) (res : List Split) :
    Prop :=
  Relation.ReflTransGen (SplitStep o) [initial] res

section Steps

variable {o : CommandLineOptions} {initial : Split} {res res' : List Split}
  {before after : List Split} {s s0 s1 : Split}

def AllValid (res : List Split) : Prop :=
  forall r, r ∈ res -> r.Valid

def AllHold {U : Type} [DecidableEq U] (C : Context U) (ρ : Env U)
    (res : List Split) : Prop :=
  forall r, r ∈ res -> r.Holds C ρ

theorem forall_replaced {p : Split -> Prop} (h : p s <-> p s0 ∧ p s1) :
    (forall r, r ∈ before ++ s :: after -> p r) <->
      forall r, r ∈ before ++ s0 :: after ++ [s1] -> p r := by
  simp only [List.mem_append, List.mem_cons, List.not_mem_nil, or_false]
  constructor
  · intro hall r hr
    have hs := h.mp (hall s (Or.inr (Or.inl rfl)))
    rcases hr with (hbefore | rfl | hafter) | rfl
    · exact hall r (Or.inl hbefore)
    · exact hs.1
    · exact hall r (Or.inr (Or.inr hafter))
    · exact hs.2
  · intro hall r hr
    rcases hr with hbefore | rfl | hafter
    · exact hall r (Or.inl (Or.inl hbefore))
    · exact h.mpr ⟨hall s0 (Or.inl (Or.inr (Or.inl rfl))), hall s1 (Or.inr rfl)⟩
    · exact hall r (Or.inl (Or.inr (Or.inr hafter)))

theorem SplitStep.allValid (h : SplitStep o res res') (hvalid : AllValid res) :
    AllValid res' := by
  have hhalves : forall {s s0 s1 : Split} {before after : List Split},
      s0.Valid -> s1.Valid -> AllValid (before ++ s :: after) ->
        AllValid (before ++ s0 :: after ++ [s1]) := by
    intro s s0 s1 before after hs0 hs1 hall
    apply (forall_replaced (s := s) ?_).mp hall
    exact ⟨fun _ => ⟨hs0, hs1⟩, fun _ => hall s (by simp)⟩
  cases h with
  | branch hbranches =>
    have hs := hvalid _ (List.mem_append_right _ List.mem_cons_self)
    exact hhalves (valid_doHalf hs) (valid_doHalf hs) hvalid
  | slice =>
    have hs := hvalid _ (List.mem_append_right _ List.mem_cons_self)
    exact hhalves (valid_doHalf hs) (valid_doHalf hs) hvalid

theorem SplitStep.allHold (h : SplitStep o res res') (hvalid : AllValid res)
    {U : Type} [DecidableEq U] {C : Context U} {ρ : Env U} :
    AllHold C ρ res <-> AllHold C ρ res' := by
  cases h with
  | branch hbranches =>
    have hs := hvalid _ (List.mem_append_right _ List.mem_cons_self)
    exact forall_replaced (holds_splitAt hs hbranches)
  | slice =>
    have hs := hvalid _ (List.mem_append_right _ List.mem_cons_self)
    exact forall_replaced (holds_sliceAsserts hs)

theorem SplitRun.allValid (h : SplitRun o initial res) (hvalid : initial.Valid) :
    AllValid res := by
  induction h with
  | refl =>
    intro r hr
    rw [List.mem_singleton.mp hr]
    exact hvalid
  | tail _ hstep ih => exact hstep.allValid ih

theorem SplitRun.allHold (h : SplitRun o initial res) (hvalid : initial.Valid)
    {U : Type} [DecidableEq U] {C : Context U} {ρ : Env U} :
    initial.Holds C ρ <-> AllHold C ρ res := by
  induction h with
  | refl =>
    unfold AllHold
    simp only [List.mem_singleton, forall_eq]
  | tail hrun hstep ih =>
    exact ih.trans (hstep.allHold (SplitRun.allValid hrun hvalid))

/-!
# Runs of the loop
-/

variable {scores : Scores} {maxCost : Rat}

theorem computeBestSplit_ok (h : s.Valid) :
    exists bs, computeBestSplit scores s = .ok bs ∧
      forall b branches, bs.splitBlock = some (b, branches) ->
        forall t, t ∈ branches -> t ∈ s.exits b.uniqueId := by
  unfold computeBestSplit
  rw [if_pos (checkBigBlocks_computeStats h)]
  refine ⟨_, rfl, ?_⟩
  intro b branches heq t ht
  simp only at heq
  cases hbest : scores.bestSplit s (s.splitCandidates s.computeStats) with
  | none =>
    rw [hbest] at heq
    cases heq
  | some best =>
    rw [hbest] at heq
    have hmem : (s.splitCandidates s.computeStats).get best.1 ∈ s.blocks :=
      List.mem_of_mem_filter (List.get_mem _ best.1)
    simp only at heq
    split at heq
    · cases heq
      rw [h.exits_eq hmem]
      exact List.mem_of_mem_take ht
    · cases heq
      rw [h.exits_eq hmem]
      exact List.mem_of_mem_drop ht

theorem findBest_ok (h : AllValid res) {pos : Nat}
    {best : Option (Nat × Split × BestSplit)} (hbest : forall i s bs, best = some (i, s, bs) ->
      (before ++ res)[i]? = some s ∧ computeBestSplit scores s = .ok bs)
    (hpos : pos = before.length) :
    exists best', findBest scores maxCost res pos best = .ok best' ∧
      forall i s bs, best' = some (i, s, bs) ->
        (before ++ res)[i]? = some s ∧ computeBestSplit scores s = .ok bs := by
  induction res generalizing before pos best with
  | nil => exact ⟨best, rfl, hbest⟩
  | cons r res ih =>
    have hok : exists bs, computeBestSplit scores r = .ok bs := by
      rcases computeBestSplit_ok (h r List.mem_cons_self) with ⟨bs, hbs, _⟩
      exact ⟨bs, hbs⟩
    rcases hok with ⟨bs, hbs⟩
    have hassoc : before ++ r :: res = (before ++ [r]) ++ res := by
      rw [List.append_assoc, List.singleton_append]
    have hnew : forall (better : Bool) i s' bs',
        (if better then some (pos, r, bs) else best) = some (i, s', bs') ->
          (before ++ r :: res)[i]? = some s' ∧
            computeBestSplit scores s' = .ok bs' := by
      intro better i s' bs' heq
      cases better with
      | true =>
        cases heq
        rw [hpos]
        exact ⟨by simp, hbs⟩
      | false => exact hbest i s' bs' heq
    rw [findBest, hbs]
    rw [hassoc] at hnew ⊢
    apply ih (fun r' hr' => h r' (List.mem_cons_of_mem r hr'))
    · intro i s' bs' heq
      exact hnew _ i s' bs' heq
    · rw [List.length_append, hpos]
      rfl

theorem halves_step (h : AllValid (before ++ s :: after)) {bs : BestSplit}
    (hbs : computeBestSplit scores s = .ok bs) :
    checkHalves s (halves o s bs).1 (halves o s bs).2 = .ok () ∧ SplitStep o (before ++ s :: after)
        (before ++ (halves o s bs).1 :: after ++ [(halves o s bs).2]) := by
  have hs : s.Valid := h s (List.mem_append_right _ List.mem_cons_self)
  rcases computeBestSplit_ok hs with ⟨bs', hbs', hbranches⟩
  rw [hbs] at hbs'
  cases hbs'
  unfold halves
  cases hsplit : bs.splitBlock with
  | none => exact ⟨checkHalves_sliceAsserts hs, SplitStep.slice⟩
  | some best =>
    rcases best with ⟨b, branches⟩
    have hexits := hbranches b branches hsplit
    exact ⟨checkHalves_splitAt hs hexits, SplitStep.branch hexits⟩

theorem doSplitLoop_ok (rounds : Nat) (hvalid : initial.Valid) (h : SplitRun o initial res) :
    exists res', doSplitLoop o scores maxCost rounds res = .ok res' ∧ SplitRun o initial res' := by
  induction rounds generalizing res with
  | zero => exact ⟨res, rfl, h⟩
  | succ rounds ih =>
    have hall := h.allValid hvalid
    have hfind : exists best, findBest scores maxCost res 0 none = .ok best ∧
        forall i s bs, best = some (i, s, bs) ->
          ([] ++ res)[i]? = some s ∧ computeBestSplit scores s = .ok bs := by
      apply findBest_ok hall
      · intro i s bs heq
        cases heq
      · rfl
    rcases hfind with ⟨best, hbest, hspec⟩
    cases best with
    | none =>
      refine ⟨res, ?_, h⟩
      rw [doSplitLoop, hbest]
      rfl
    | some best =>
      rcases best with ⟨i, s, bs⟩
      rcases hspec i s bs rfl with ⟨hget, hbs⟩
      rw [List.nil_append] at hget
      rcases List.getElem?_eq_some_iff.mp hget with ⟨hi, hget⟩
      have hres : res = res.take i ++ s :: res.drop (i + 1) := by
        rw [← hget, List.cons_getElem_drop_succ, List.take_append_drop]
      have hset : forall s0, res.set i s0 =
          res.take i ++ s0 :: res.drop (i + 1) := by
        intro s0
        rw [List.set_eq_take_append_cons_drop, if_pos hi]
      have hall' : AllValid (res.take i ++ s :: res.drop (i + 1)) := by
        rw [← hres]
        exact hall
      rcases halves_step hall' hbs with ⟨hcheck, hstep⟩
      rw [← hres, ← hset] at hstep
      rcases ih (Relation.ReflTransGen.tail h hstep) with ⟨res', hloop, hrun⟩
      refine ⟨res', ?_, hrun⟩
      rw [doSplitLoop, hbest]
      simp only [bind, Except.bind, hcheck]
      exact hloop

/--
The loop ends without an error, its results follow by splitting, and after any
run of splits the assertions hold exactly when those of the program do.
-/
theorem doSplit_lossless (o : CommandLineOptions) (scores : Scores)
    (initial : Split) (maxCost : Rat) (max : Int) (hvalid : initial.Valid) :
    (exists res, doSplit o scores initial maxCost max = .ok res ∧ SplitRun o initial res) ∧
      forall res, SplitRun o initial res -> AllValid res ∧
          forall (U : Type) [DecidableEq U] (C : Context U) (ρ : Env U),
            initial.Holds C ρ <-> AllHold C ρ res := by
  constructor
  · exact doSplitLoop_ok (max - 1).toNat hvalid Relation.ReflTransGen.refl
  · intro res hrun
    refine ⟨hrun.allValid hvalid, ?_⟩
    intro U _ C ρ
    exact hrun.allHold hvalid

end Steps

/-!
# A program with a branch
-/

theorem acyclic_of_increasing {blocks : List Block}
    (h : forall b, b ∈ blocks -> forall t, t ∈ b.labelTargets ->
      b.uniqueId < t) : Acyclic blocks := by
  have hjump : forall {source target : Nat}, Jumps blocks source target ->
      source < target := by
    rintro source target ⟨b, hb, rfl, ht⟩
    exact h b hb target ht
  intro id hcycle
  have hless : forall {target : Nat},
      Relation.TransGen (Jumps blocks) id target -> id < target := by
    intro target hpath
    induction hpath with
    | single hstep => exact hjump hstep
    | tail _ hstep ih => exact Nat.lt_trans ih (hjump hstep)
  exact Nat.lt_irrefl id (hless hcycle)

def diamondAssert (id : Nat) : AssertCmd where
  uniqueId := id
  expr := .literal (.bool false)
  attributes := []
  kind := .assertCmd
  origExpr := none

def diamondStart : Block :=
  ⟨1, "anon0", [], .gotoCmd [2, 3]⟩

def diamondRest : List Block :=
  [⟨2, "anon3_Then", [.assertCmd (diamondAssert 5)], .gotoCmd [4]⟩,
    ⟨3, "anon3_Else", [.assertCmd (diamondAssert 6)], .gotoCmd [4]⟩,
    ⟨4, "anon2", [.assertCmd (diamondAssert 7)], .returnCmd⟩]

def diamondProgram : PassiveProgram where
  start := diamondStart
  rest := diamondRest
  passive := by decide
  transfers := by
    intro b hb e
    simp only [diamondStart, diamondRest, List.mem_cons, List.not_mem_nil,
      or_false] at hb
    rcases hb with rfl | rfl | rfl | rfl
    all_goals simp
  closed := by decide
  acyclic := acyclic_of_increasing (by decide)
  distinct := by decide
  positive := by decide

def diamond : Split where
  blocks := diamondProgram.blocks
  predecessors := fun id =>
    if id = 4 then [2, 3] else if id = 2 ∨ id = 3 then [1] else []

theorem diamond_valid : diamond.Valid where
  passive := ⟨diamondProgram, rfl⟩
  predecessors := by decide
  labels := by
    intro b hb x y hx hy hlabel
    have hmem : forall z, z ∈ diamond.exitBlocks b -> z ∈ diamond.blocks := by
      intro z hz
      rcases List.mem_filterMap.mp hz with ⟨t, _, hfind⟩
      exact (findBlock_uniqueId hfind).1
    have hdistinct : (diamond.blocks.map Block.label).Nodup := by decide
    exact List.inj_on_of_nodup_map hdistinct (hmem x hx) (hmem y hy) hlabel

def firstScores : Scores where
  totalCost := fun _ => 1
  bestSplit := fun _ candidates =>
    if h : 0 < candidates.length then some (⟨0, h⟩, true) else none

theorem doSplit_lossless_diamond :
    (exists res, doSplit defaultOptions firstScores diamond 0 3 = .ok res ∧
        SplitRun defaultOptions diamond res) ∧ forall res, SplitRun defaultOptions diamond res ->
        AllValid res ∧ forall (U : Type) [DecidableEq U] (C : Context U) (ρ : Env U),
            diamond.Holds C ρ <-> AllHold C ρ res :=
  doSplit_lossless defaultOptions firstScores diamond 0 3 diamond_valid

end Split

end VCGen

end Boogie
