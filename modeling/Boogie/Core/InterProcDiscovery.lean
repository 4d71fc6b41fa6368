import Mathlib.Data.Finset.SDiff
import Mathlib.Logic.Relation
import Boogie.Core.InterProcGenKill

/-!
# The procedures that are analysed

The work list of procedures ends with those that can be called from the main
implementation, and with all their calls.
-/

namespace Boogie
namespace InterProcGenKill

section Discovery

variable {ProcName BlockId : Type} [DecidableEq ProcName]
variable {program : Program ProcName BlockId}

def CallsAt (program : Program ProcName BlockId) (x : WorkItem ProcName BlockId)
    (q : ProcName) : Prop :=
  (program.name2Impl q).isSome = true ∧ x.2 ∈ (program.cfg x.1).blocks ∧
    q ∈ (program.cfg x.1).callees x.2

def Calls (program : Program ProcName BlockId) (p q : ProcName) : Prop :=
  exists b, CallsAt program (p, b) q

/-- The procedures that can be called from the main implementation. -/
def Analysed (program : Program ProcName BlockId) (p : ProcName) : Prop :=
  Relation.ReflTransGen (Calls program) program.mainName p

theorem mem_calledProcs {impl : Implementation ProcName BlockId} {q : ProcName} :
    q ∈ impl.calledProcs <-> exists b, b ∈ impl.blocks ∧ q ∈ impl.callees b := by
  rw [Implementation.calledProcs, List.mem_reverse, List.mem_dedup, List.mem_reverse,
    List.mem_flatMap]

theorem mem_procsCalled {impl : Implementation ProcName BlockId} {q : ProcName}
    {b : BlockId} :
    b ∈ impl.procsCalled q <-> b ∈ impl.blocks ∧ q ∈ impl.callees b := by
  rw [Implementation.procsCalled, List.mem_flatMap]
  constructor
  · intro ⟨a, ha, hb⟩
    rcases List.mem_map.mp hb with ⟨q', hq', rfl⟩
    rw [List.mem_filter, decide_eq_true_iff] at hq'
    exact ⟨ha, hq'.2 ▸ hq'.1⟩
  · intro ⟨hb, hq⟩
    exact ⟨b, hb, List.mem_map.mpr
      ⟨q, List.mem_filter.mpr ⟨hq, decide_eq_true rfl⟩, rfl⟩⟩

theorem calls_iff {p q : ProcName} :
    Calls program p q <->
      q ∈ (program.cfg p).calledProcs ∧ (program.name2Impl q).isSome = true := by
  rw [mem_calledProcs]
  constructor
  · intro ⟨b, himpl, hb, hq⟩
    exact ⟨⟨b, hb, hq⟩, himpl⟩
  · intro ⟨⟨b, hb, hq⟩, himpl⟩
    exact ⟨b, himpl, hb, hq⟩

/-!
# One procedure
-/

def Program.names (program : Program ProcName BlockId) : Finset ProcName :=
  (program.implementations.map Prod.fst).toFinset

theorem mem_names {q : ProcName} (h : (program.name2Impl q).isSome = true) :
    q ∈ program.names := by
  rcases Option.isSome_iff_exists.mp h with ⟨impl, himpl⟩
  rcases Option.map_eq_some_iff.mp himpl with ⟨e, he, _⟩
  have hname : e.1 = q := by simpa using List.find?_some he
  have hmem := List.mem_reverse.mp (List.mem_of_find?_eq_some he)
  exact List.mem_toFinset.mpr (List.mem_map.mpr ⟨e, hmem, hname⟩)

def Discovery.room (program : Program ProcName BlockId)
    (d : Discovery ProcName BlockId) : Nat :=
  d.procsToConsider.length + 2 * (program.names \ d.procICFG.toFinset).card

structure Visited (program : Program ProcName BlockId) (p : ProcName)
    (callees : List ProcName) (d d' : Discovery ProcName BlockId) : Prop where
  procICFG : forall q, q ∈ d'.procICFG <->
    q ∈ d.procICFG ∨ q ∈ callees ∧ (program.name2Impl q).isSome = true
  procsToConsider : forall q, q ∈ d'.procsToConsider <->
    q ∈ d.procsToConsider ∨
      q ∈ callees ∧ (program.name2Impl q).isSome = true ∧ q ∉ d.procICFG
  callers : forall q x, x ∈ d'.callers q <->
    x ∈ d.callers q ∨ q ∈ callees ∧ x.1 = p ∧ CallsAt program x q
  nodup : d.procsToConsider.Nodup -> d.procsToConsider ⊆ d.procICFG ->
    d'.procsToConsider.Nodup
  room : d'.room program ≤ d.room program

theorem mem_callers_update {p q callee : ProcName}
    {callers : ProcName -> List (ProcName × BlockId)} {x : ProcName × BlockId}
    (h : (program.name2Impl callee).isSome = true) :
    x ∈ Function.update callers callee (callers callee ++
        ((program.cfg p).procsCalled callee).map (fun b => (p, b))) q <->
      x ∈ callers q ∨ q ∈ [callee] ∧ x.1 = p ∧ CallsAt program x q := by
  rw [List.mem_singleton]
  by_cases hq : q = callee
  · subst hq
    rw [Function.update_self, List.mem_append]
    apply or_congr Iff.rfl
    constructor
    · intro hx
      rcases List.mem_map.mp hx with ⟨b, hb, rfl⟩
      rcases mem_procsCalled.mp hb with ⟨hblock, hcall⟩
      exact ⟨rfl, rfl, h, hblock, hcall⟩
    · intro ⟨_, hp, _, hblock, hcall⟩
      subst hp
      exact List.mem_map.mpr ⟨x.2, mem_procsCalled.mpr ⟨hblock, hcall⟩, rfl⟩
  · rw [Function.update_of_ne hq]
    exact (or_iff_left_of_imp (fun h => absurd h.1 hq)).symm

theorem card_sdiff_append_lt {callee : ProcName} {procICFG : List ProcName}
    (hsome : (program.name2Impl callee).isSome = true) (hmem : callee ∉ procICFG) :
    (program.names \ (procICFG ++ [callee]).toFinset).card <
      (program.names \ procICFG.toFinset).card := by
  have hname : callee ∈ program.names \ procICFG.toFinset :=
    Finset.mem_sdiff.mpr ⟨mem_names hsome, fun h => hmem (List.mem_toFinset.mp h)⟩
  apply Finset.card_lt_card
  constructor
  · intro q hq
    rw [Finset.mem_sdiff, List.mem_toFinset, List.mem_append] at hq
    exact Finset.mem_sdiff.mpr ⟨hq.1,
      fun h => hq.2 (Or.inl (List.mem_toFinset.mp h))⟩
  · intro hback
    have hq := (Finset.mem_sdiff.mp (hback hname)).2
    exact hq (List.mem_toFinset.mpr
      (List.mem_append_right _ (List.mem_singleton_self callee)))

theorem visitCallee_spec (p : ProcName) (d : Discovery ProcName BlockId) (callee : ProcName) :
    Visited program p [callee] d (visitCallee program p d callee) := by
  unfold visitCallee
  cases himpl : program.name2Impl callee with
  | none =>
    have hnot : forall q, q ∈ [callee] -> ¬ (program.name2Impl q).isSome = true := by
      intro q hq hsome
      rw [List.mem_singleton.mp hq, himpl] at hsome
      cases hsome
    simp only [Option.isNone_none, if_true]
    constructor
    · intro q
      exact (or_iff_left_of_imp (fun h => absurd h.2 (hnot q h.1))).symm
    · intro q
      exact (or_iff_left_of_imp (fun h => absurd h.2.1 (hnot q h.1))).symm
    · intro q x
      exact (or_iff_left_of_imp (fun h => absurd h.2.2.1 (hnot q h.1))).symm
    · exact fun h _ => h
    · exact le_refl _
  | some impl =>
    simp only [Option.isNone_some, Bool.false_eq_true, if_false]
    have hsome : (program.name2Impl callee).isSome = true := by
      rw [himpl]
      rfl
    have hcallers : forall q x,
        x ∈ Function.update d.callers callee (d.callers callee ++
          ((program.cfg p).procsCalled callee).map (fun b => (p, b))) q <->
        x ∈ d.callers q ∨ q ∈ [callee] ∧ x.1 = p ∧ CallsAt program x q :=
      fun q x => mem_callers_update hsome
    by_cases hmem : callee ∈ d.procICFG
    · rw [if_pos hmem]
      constructor
      · intro q
        apply (or_iff_left_of_imp _).symm
        rintro ⟨hq, _⟩
        rwa [List.mem_singleton.mp hq]
      · intro q
        apply (or_iff_left_of_imp _).symm
        rintro ⟨hq, _, hnew⟩
        rw [List.mem_singleton.mp hq] at hnew
        exact absurd hmem hnew
      · exact hcallers
      · exact fun h _ => h
      · exact le_refl _
    · rw [if_neg hmem]
      constructor
      · intro q
        simp only [List.mem_append, List.mem_singleton]
        apply or_congr_right
        constructor
        · rintro rfl
          exact ⟨rfl, hsome⟩
        · exact And.left
      · intro q
        simp only [List.mem_append, List.mem_singleton]
        apply or_congr_right
        constructor
        · rintro rfl
          exact ⟨rfl, hsome, hmem⟩
        · exact And.left
      · exact hcallers
      · intro hnodup hsub
        rw [List.nodup_append]
        refine ⟨hnodup, List.nodup_singleton callee, ?_⟩
        intro a ha b hb heq
        rw [List.mem_singleton.mp hb] at heq
        exact hmem (hsub (heq ▸ ha))
      · have hless := card_sdiff_append_lt hsome hmem
        unfold Discovery.room
        rw [List.length_append, List.length_singleton]
        dsimp only
        omega

theorem Visited.trans {p : ProcName} {callees callees' : List ProcName}
    {d d' d'' : Discovery ProcName BlockId} (h : Visited program p callees d d')
    (h' : Visited program p callees' d' d'') :
    Visited program p (callees ++ callees') d d'' where
  procICFG := by
    intro q
    rw [h'.procICFG, h.procICFG, List.mem_append, or_and_right, or_assoc]
  procsToConsider := by
    intro q
    rw [h'.procsToConsider, h.procsToConsider, h.procICFG, List.mem_append]
    tauto
  callers := by
    intro q x
    rw [h'.callers, h.callers, List.mem_append, or_and_right, or_assoc]
  nodup := by
    intro hnodup hsub
    apply h'.nodup (h.nodup hnodup hsub)
    intro q hq
    rcases (h.procsToConsider q).mp hq with hq | ⟨hq, himpl, _⟩
    · exact (h.procICFG q).mpr (Or.inl (hsub hq))
    · exact (h.procICFG q).mpr (Or.inr ⟨hq, himpl⟩)
  room := le_trans h'.room h.room

theorem visitCallees_spec (p : ProcName) (callees : List ProcName)
    (d : Discovery ProcName BlockId) :
    Visited program p callees d (callees.foldl (visitCallee program p) d) := by
  induction callees generalizing d with
  | nil => exact ⟨by simp, by simp, by simp, fun h _ => h, le_refl _⟩
  | cons callee callees ih =>
    exact (visitCallee_spec p d callee).trans (ih _)

theorem Analysed.isSome {p : ProcName} (h : Analysed program p) :
    (program.name2Impl p).isSome = true := by
  rcases Relation.ReflTransGen.cases_tail h with rfl | ⟨_, _, _, himpl, _⟩
  · rw [Program.name2Impl, Option.isSome_map, List.find?_isSome]
    exact ⟨_, List.mem_reverse.mpr program.mainImpl_mem, decide_eq_true rfl⟩
  · exact himpl

/-!
# All procedures
-/

structure DiscoveryInvariant (program : Program ProcName BlockId)
    (d : Discovery ProcName BlockId) : Prop where
  main : program.mainName ∈ d.procICFG
  analysed : forall p, p ∈ d.procICFG -> Analysed program p
  subset : d.procsToConsider ⊆ d.procICFG
  nodup : d.procsToConsider.Nodup
  closed : forall p, p ∈ d.procICFG -> p ∉ d.procsToConsider ->
    forall q, Calls program p q -> q ∈ d.procICFG
  callers : forall q x, x ∈ d.callers q <->
    x.1 ∈ d.procICFG ∧ x.1 ∉ d.procsToConsider ∧ CallsAt program x q

theorem discoverStep_spec {d : Discovery ProcName BlockId}
    (hd : DiscoveryInvariant program d) (hmore : d.procsToConsider ≠ []) :
    exists d', discoverStep program d = some d' ∧ DiscoveryInvariant program d' ∧
      d'.room program < d.room program := by
  cases hcons : d.procsToConsider with
  | nil => exact absurd hcons hmore
  | cons p rest =>
    have hvisited := @visitCallees_spec _ _ _ program p (program.cfg p).calledProcs
      { d with procsToConsider := rest }
    have hmem : forall q, q ∈ d.procsToConsider <-> q = p ∨ q ∈ rest := by
      intro q
      rw [hcons, List.mem_cons]
    have hnodup := List.nodup_cons.mp (hcons ▸ hd.nodup)
    have hp : p ∈ d.procICFG := hd.subset ((hmem p).mpr (Or.inl rfl))
    have hrest : rest ⊆ d.procICFG := fun q hq => hd.subset ((hmem q).mpr (Or.inr hq))
    have hpnew : p ∉ ((program.cfg p).calledProcs.foldl (visitCallee program p)
        { d with procsToConsider := rest }).procsToConsider := by
      intro hin
      rcases (hvisited.procsToConsider p).mp hin with hin | ⟨_, _, hnew⟩
      · exact hnodup.1 hin
      · exact hnew hp
    refine ⟨_, by rw [discoverStep, hcons], ⟨?_, ?_, ?_, ?_, ?_, ?_⟩, ?_⟩
    · exact (hvisited.procICFG _).mpr (Or.inl hd.main)
    · intro q hq
      rcases (hvisited.procICFG q).mp hq with hq | ⟨hq, himpl⟩
      · exact hd.analysed q hq
      · exact (hd.analysed p hp).tail (calls_iff.mpr ⟨hq, himpl⟩)
    · intro q hq
      rcases (hvisited.procsToConsider q).mp hq with hq | ⟨hq, himpl, _⟩
      · exact (hvisited.procICFG q).mpr (Or.inl (hrest hq))
      · exact (hvisited.procICFG q).mpr (Or.inr ⟨hq, himpl⟩)
    · exact hvisited.nodup hnodup.2 hrest
    · intro q hq hdone r hcalls
      by_cases hqp : q = p
      · subst hqp
        exact (hvisited.procICFG r).mpr (Or.inr (calls_iff.mp hcalls))
      · have hold : q ∈ d.procICFG := by
          rcases (hvisited.procICFG q).mp hq with hq | ⟨hq, himpl⟩
          · exact hq
          · by_contra hnew
            exact hdone ((hvisited.procsToConsider q).mpr
              (Or.inr ⟨hq, himpl, hnew⟩))
        have hnot : q ∉ d.procsToConsider := by
          intro hin
          rcases (hmem q).mp hin with heq | hin
          · exact hqp heq
          · exact hdone ((hvisited.procsToConsider q).mpr (Or.inl hin))
        exact (hvisited.procICFG r).mpr (Or.inl (hd.closed q hold hnot r hcalls))
    · intro q x
      rw [hvisited.callers]
      constructor
      · intro h
        rcases h with h | ⟨_, hxp, hcalls⟩
        · rcases (hd.callers q x).mp h with ⟨hx, hdone, hcalls⟩
          refine ⟨(hvisited.procICFG _).mpr (Or.inl hx), ?_, hcalls⟩
          intro hin
          rcases (hvisited.procsToConsider _).mp hin with hin | ⟨_, _, hnew⟩
          · exact hdone ((hmem _).mpr (Or.inr hin))
          · exact hnew hx
        · rw [hxp]
          exact ⟨(hvisited.procICFG p).mpr (Or.inl hp), hpnew, hcalls⟩
      · intro ⟨hx, hdone, hcalls⟩
        by_cases hxp : x.1 = p
        · right
          exact ⟨mem_calledProcs.mpr ⟨x.2, hxp ▸ hcalls.2.1, hxp ▸ hcalls.2.2⟩,
            hxp, hcalls⟩
        · left
          have hold : x.1 ∈ d.procICFG := by
            rcases (hvisited.procICFG _).mp hx with hx | ⟨hx, himpl⟩
            · exact hx
            · by_contra hnew
              exact hdone ((hvisited.procsToConsider _).mpr
                (Or.inr ⟨hx, himpl, hnew⟩))
          refine (hd.callers q x).mpr ⟨hold, ?_, hcalls⟩
          intro hin
          rcases (hmem _).mp hin with heq | hin
          · exact hxp heq
          · exact hdone ((hvisited.procsToConsider _).mpr (Or.inl hin))
    · have hroom := hvisited.room
      unfold Discovery.room at hroom ⊢
      rw [hcons, List.length_cons]
      dsimp only at hroom
      omega

structure Discovered (program : Program ProcName BlockId)
    (d : Discovery ProcName BlockId) : Prop where
  analysed : forall p, p ∈ d.procICFG <-> Analysed program p
  callers : forall q x, x ∈ d.callers q <->
    Analysed program x.1 ∧ CallsAt program x q

theorem discover_spec (program : Program ProcName BlockId) :
    exists n d, (forall m, n ≤ m -> discover m program = some d) ∧ Discovered program d := by
  have hinitial : DiscoveryInvariant program
      { procICFG := [program.mainName]
        callers := fun _ => []
        procsToConsider := [program.mainName] } := by
    refine ⟨List.mem_singleton_self _, ?_, List.Subset.refl _,
      List.nodup_singleton _, ?_, ?_⟩
    · intro p hp
      rw [List.mem_singleton.mp hp]
      exact Relation.ReflTransGen.refl
    · exact fun p hp hnot => absurd hp hnot
    · intro q x
      constructor
      · exact fun h => absurd h List.not_mem_nil
      · exact fun h => absurd h.1 h.2.1
  have hround : forall d : Discovery ProcName BlockId,
      (DiscoveryInvariant program d ∧ d.procsToConsider ≠ []) ->
        exists d', discoverStep program d = some d' ∧
          ((!d'.procsToConsider.isEmpty) = true ->
            (DiscoveryInvariant program d' ∧ d'.procsToConsider ≠ []) ∧
              d'.room program < d.room program) := by
    intro d ⟨hd, hmore⟩
    rcases discoverStep_spec hd hmore with ⟨d', hstep, hd', hlower⟩
    exact ⟨d', hstep, fun hagain => ⟨⟨hd', by simpa using hagain⟩, hlower⟩⟩
  rcases @Rounds.exists_repeatWhile _ _ _ _ _ hround
    { procICFG := [program.mainName]
      callers := fun _ => []
      procsToConsider := [program.mainName] }
    ⟨hinitial, List.cons_ne_nil _ _⟩ with
    ⟨n, d, hruns, last, ⟨hlast, hmore⟩, hstep, hagain⟩
  rcases discoverStep_spec hlast hmore with ⟨d', hstep', hd, _⟩
  rw [hstep] at hstep'
  cases hstep'
  have hempty : d.procsToConsider = [] := by simpa using hagain
  have hdone : forall p, p ∉ d.procsToConsider := by simp [hempty]
  have hmem : forall p, p ∈ d.procICFG <-> Analysed program p := by
    intro p
    refine ⟨hd.analysed p, ?_⟩
    intro h
    induction h with
    | refl => exact hd.main
    | tail _ hcalls ih => exact hd.closed _ ih (hdone _) _ hcalls
  refine ⟨n, d, hruns, hmem, ?_⟩
  intro q x
  rw [hd.callers, hmem]
  exact ⟨fun h => ⟨h.1, h.2.2⟩, fun h => ⟨h.1, hdone _, h.2⟩⟩

end Discovery

end InterProcGenKill
end Boogie
