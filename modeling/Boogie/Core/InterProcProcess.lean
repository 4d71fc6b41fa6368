import Boogie.Core.GenKillAllocation

/-!
# One item of the first loop

An item whose weight after is zero changes nothing.  Every other item puts all its
predecessors on the work list, and its callers when it is a first block, since the
new weights are other objects than the ones before.
-/

namespace Boogie
namespace InterProcGenKill

section Process

variable {ProcName BlockId : Type} [DecidableEq ProcName] [DecidableEq BlockId]

/-!
# Growing work lists
-/

def Grown (items workList workList' : List (WorkItem ProcName BlockId)) : Prop :=
  exists new, workList' = workList ++ new ∧ new ⊆ items

omit [DecidableEq ProcName] [DecidableEq BlockId] in
theorem Grown.refl (items workList : List (WorkItem ProcName BlockId)) :
    Grown items workList workList :=
  ⟨[], (List.append_nil _).symm, List.nil_subset _⟩

omit [DecidableEq ProcName] [DecidableEq BlockId] in
theorem Grown.trans {items items' l l' l'' : List (WorkItem ProcName BlockId)}
    (h : Grown items l l') (h' : Grown items' l' l'') :
    Grown (items ++ items') l l'' := by
  rcases h with ⟨new, rfl, hnew⟩
  rcases h' with ⟨new', rfl, hnew'⟩
  refine ⟨new ++ new', List.append_assoc _ _ _, ?_⟩
  intro x hx
  rcases List.mem_append.mp hx with hx | hx
  · exact List.mem_append_left _ (hnew hx)
  · exact List.mem_append_right _ (hnew' hx)

omit [DecidableEq ProcName] [DecidableEq BlockId] in
theorem Grown.subset {items l l' : List (WorkItem ProcName BlockId)}
    (h : Grown items l l') : l ⊆ l' := by
  rcases h with ⟨new, rfl, _⟩
  exact List.subset_append_left _ _

theorem addToWorkList_grown (x : WorkItem ProcName BlockId)
    (workList : List (WorkItem ProcName BlockId)) :
    Grown [x] workList (addToWorkList x workList) := by
  unfold addToWorkList
  split
  · exact Grown.refl _ _
  · exact ⟨[x], rfl, List.Subset.refl _⟩

theorem mem_addToWorkList (x : WorkItem ProcName BlockId)
    (workList : List (WorkItem ProcName BlockId)) : x ∈ addToWorkList x workList := by
  unfold addToWorkList
  split
  next h => exact h
  next h => exact List.mem_append_right _ (List.mem_singleton_self x)

theorem addAll_grown (items workList : List (WorkItem ProcName BlockId)) :
    Grown items workList (items.foldl (fun l x => addToWorkList x l) workList) := by
  induction items generalizing workList with
  | nil => exact Grown.refl _ _
  | cons x items ih => exact (addToWorkList_grown x workList).trans (ih _)

theorem subset_addAll (items workList : List (WorkItem ProcName BlockId)) :
    items ⊆ items.foldl (fun l x => addToWorkList x l) workList := by
  induction items generalizing workList with
  | nil => exact List.nil_subset _
  | cons x items ih =>
    intro y hy
    rcases List.mem_cons.mp hy with rfl | hy
    · exact (addAll_grown items _).subset (mem_addToWorkList y workList)
    · exact ih _ hy

omit [DecidableEq ProcName] in
theorem mem_predecessors {impl : Implementation ProcName BlockId} {a b : BlockId} :
    a ∈ impl.predecessors b <-> a ∈ impl.blocks ∧ b ∈ impl.successors a := by
  rw [Implementation.predecessors, List.mem_filter, decide_eq_true_iff]

omit [DecidableEq ProcName] in
theorem isNode_of_successor {impl : Implementation ProcName BlockId} {a b : BlockId}
    (h : b ∈ impl.successors a) : impl.isNode a = true := by
  have hne : (impl.successors a).isEmpty = false := by
    cases hsuccessors : impl.successors a with
    | nil => exact absurd (hsuccessors ▸ h) List.not_mem_nil
    | cons _ _ => rfl
  unfold Implementation.isNode
  rw [hne, Bool.not_false, Bool.or_true, Bool.true_or]

/-!
# Effects
-/

namespace WeightState

structure Valid (s : WeightState ProcName BlockId) : Prop where
  weightBefore : forall x, (s.weightBefore x).Allocated s.memo.next
  weightAfter : forall x, (s.weightAfter x).Allocated s.memo.next
  summary : forall p, (s.summary p).Allocated s.memo.next

def Live (s : WeightState ProcName BlockId) (x : WorkItem ProcName BlockId) : Prop :=
  (s.weightAfter x).isZero = false

/-- `items` get on the work list, and the weights after `raised` are not zero any
more. -/
structure Effect (items raised : List (WorkItem ProcName BlockId))
    (s s' : WeightState ProcName BlockId) : Prop where
  valid : s'.Valid
  next : s.memo.next ≤ s'.memo.next
  grown : Grown items s.workList s'.workList
  added : items ⊆ s'.workList
  live : forall y, s'.Live y <-> s.Live y ∨ y ∈ raised

omit [DecidableEq ProcName] [DecidableEq BlockId] in
theorem Valid.setMemo {s : WeightState ProcName BlockId} (h : s.Valid) {memo : Memo}
    (hnext : s.memo.next ≤ memo.next) : Effect [] [] s { s with memo := memo } where
  valid := ⟨fun x => (h.weightBefore x).mono hnext, fun x => (h.weightAfter x).mono hnext,
    fun p => (h.summary p).mono hnext⟩
  next := hnext
  grown := Grown.refl _ _
  added := List.nil_subset _
  live := fun _ => (or_iff_left List.not_mem_nil).symm

omit [DecidableEq ProcName] [DecidableEq BlockId] in
theorem Effect.trans {items raised items' raised' : List (WorkItem ProcName BlockId)}
    {s s' s'' : WeightState ProcName BlockId} (h : Effect items raised s s')
    (h' : Effect items' raised' s' s'') :
    Effect (items ++ items') (raised ++ raised') s s'' where
  valid := h'.valid
  next := h.next.trans h'.next
  grown := h.grown.trans h'.grown
  added := by
    intro x hx
    rcases List.mem_append.mp hx with hx | hx
    · exact h'.grown.subset (h.added hx)
    · exact h'.added hx
  live := by
    intro y
    rw [h'.live, h.live, List.mem_append, or_assoc]

end WeightState

open WeightState

def unlessZero (w : GenKillWeight) (items : List (WorkItem ProcName BlockId)) :
    List (WorkItem ProcName BlockId) :=
  if w.isZero then [] else items

omit [DecidableEq ProcName] [DecidableEq BlockId] in
theorem mem_unlessZero {w : GenKillWeight} {items : List (WorkItem ProcName BlockId)}
    {x : WorkItem ProcName BlockId} :
    x ∈ unlessZero w items <-> w.isZero = false ∧ x ∈ items := by
  unfold unlessZero
  cases w.isZero with
  | true => simp
  | false => simp

omit [DecidableEq ProcName] [DecidableEq BlockId] in
theorem unlessZero_append (w : GenKillWeight) (items items' : List (WorkItem ProcName BlockId)) :
    unlessZero w items ++ unlessZero w items' = unlessZero w (items ++ items') := by
  unfold unlessZero
  cases w.isZero with
  | true => rfl
  | false => rfl

omit [DecidableEq ProcName] [DecidableEq BlockId] in
theorem allocated_update {Key : Type} [DecidableEq Key] {f : Key -> GenKillWeight}
    {n : Nat} (hf : forall x, (f x).Allocated n) {w : GenKillWeight}
    (hw : w.Allocated n) (x : Key) (y : Key) : (Function.update f x w y).Allocated n :=
  (Function.forall_update_iff f (fun _ w => w.Allocated n)).mpr
    ⟨hw, fun y _ => hf y⟩ y

theorem setWeightBefore_spec {s : WeightState ProcName BlockId} (hs : s.Valid)
    {w : GenKillWeight} (hw : w.Allocated s.memo.next) (x : WorkItem ProcName BlockId) :
    (setWeightBefore s x w).1 = !w.isZero ∧ Effect [] [] s (setWeightBefore s x w).2 ∧
      (w.isZero = false -> ((setWeightBefore s x w).2.weightBefore x).isZero = false) := by
  unfold setWeightBefore
  dsimp only
  have hcombined := GenKillWeight.combine_spec' (hs.weightBefore x) hw
  generalize GenKillWeight.combine w (s.weightBefore x) s.memo = r at hcombined ⊢
  rcases r with ⟨curr, memo⟩
  have heffect := hs.setMemo hcombined.next
  have hequal := hcombined.isEqual
  have hzero := hcombined.isZero
  dsimp only at hequal hzero ⊢
  rw [hequal]
  cases hwzero : w.isZero with
  | true => exact ⟨rfl, heffect, fun h => nomatch h⟩
  | false =>
    simp only [Bool.false_eq_true, if_false]
    refine ⟨rfl, ⟨⟨?_, heffect.valid.weightAfter, heffect.valid.summary⟩, heffect.next,
      heffect.grown, heffect.added, heffect.live⟩, ?_⟩
    · exact allocated_update heffect.valid.weightBefore hcombined.allocated x
    · intro _
      rw [Function.update_self, hzero, hwzero, Bool.and_false]

theorem updateSummary_spec {callers : ProcName -> List (WorkItem ProcName BlockId)}
    {s : WeightState ProcName BlockId} (hs : s.Valid) {x : WorkItem ProcName BlockId}
    (hbefore : (s.weightBefore x).isZero = false) :
    Effect (callers x.1) [] s (updateSummary callers s x) := by
  unfold updateSummary
  dsimp only
  have hcombined := GenKillWeight.combine_spec (hs.summary x.1) (hs.weightBefore x)
  generalize GenKillWeight.combine (s.summary x.1) (s.weightBefore x) s.memo = r
    at hcombined ⊢
  rcases r with ⟨curr, memo⟩
  have heffect := hs.setMemo hcombined.next
  have hequal := hcombined.isEqual
  dsimp only at hequal ⊢
  rw [hequal, hbefore]
  simp only [Bool.false_eq_true, if_false]
  exact ⟨⟨heffect.valid.weightBefore, heffect.valid.weightAfter,
    allocated_update heffect.valid.summary hcombined.allocated x.1⟩, heffect.next,
    addAll_grown _ _, subset_addAll _ _, heffect.live⟩

theorem updatePredecessor_spec {s : WeightState ProcName BlockId} (hs : s.Valid)
    {w : GenKillWeight} (hw : w.Allocated s.memo.next) (p : ProcName) (b : BlockId) :
    Effect (unlessZero w [(p, b)]) (unlessZero w [(p, b)]) s (updatePredecessor p w s b) := by
  unfold updatePredecessor unlessZero
  dsimp only
  have hcombined := GenKillWeight.combine_spec (hs.weightAfter (p, b)) hw
  generalize GenKillWeight.combine (s.weightAfter (p, b)) w s.memo = r at hcombined ⊢
  rcases r with ⟨curr, memo⟩
  have heffect := hs.setMemo hcombined.next
  have hequal := hcombined.isEqual
  have hzero := hcombined.isZero
  dsimp only at hequal hzero ⊢
  rw [hequal]
  cases hwzero : w.isZero with
  | true => exact heffect
  | false =>
    simp only [Bool.false_eq_true, if_false]
    refine ⟨⟨heffect.valid.weightBefore, ?_, heffect.valid.summary⟩, heffect.next,
      addToWorkList_grown _ _, ?_, ?_⟩
    · exact allocated_update heffect.valid.weightAfter hcombined.allocated (p, b)
    · intro y hy
      rw [List.mem_singleton.mp hy]
      exact mem_addToWorkList _ _
    · intro y
      unfold Live
      dsimp only
      rw [List.mem_singleton]
      by_cases hy : y = (p, b)
      · subst hy
        rw [Function.update_self, hzero, hwzero, Bool.and_false]
        exact iff_of_true rfl (Or.inr rfl)
      · rw [Function.update_of_ne hy]
        exact (or_iff_left hy).symm

theorem updatePredecessors_spec {s : WeightState ProcName BlockId} (hs : s.Valid)
    {w : GenKillWeight} (hw : w.Allocated s.memo.next) (p : ProcName) (preds : List BlockId) :
    Effect (unlessZero w (preds.map (fun b => (p, b))))
      (unlessZero w (preds.map (fun b => (p, b)))) s (preds.foldl (updatePredecessor p w) s) := by
  induction preds generalizing s with
  | nil =>
    rw [List.map_nil, unlessZero, ite_self]
    exact hs.setMemo (le_refl _)
  | cons b preds ih =>
    have hfirst := updatePredecessor_spec hs hw p b
    have hrest := ih hfirst.valid (hw.mono hfirst.next)
    have hboth := hfirst.trans hrest
    rwa [unlessZero_append] at hboth

/-!
# The whole item
-/

variable {program : Program ProcName BlockId} {d : Discovery ProcName BlockId}

def callersOf (program : Program ProcName BlockId) (d : Discovery ProcName BlockId)
    (x : WorkItem ProcName BlockId) : List (WorkItem ProcName BlockId) :=
  if x.2 = (program.cfg x.1).first then d.callers x.1 else []

def predItems (program : Program ProcName BlockId) (x : WorkItem ProcName BlockId) :
    List (WorkItem ProcName BlockId) :=
  ((program.cfg x.1).predecessors x.2).map (fun b => (x.1, b))

omit [DecidableEq BlockId] in
theorem mem_callersOf [DecidableEq BlockId] {x y : WorkItem ProcName BlockId} :
    y ∈ callersOf program d x <-> x.2 = (program.cfg x.1).first ∧ y ∈ d.callers x.1 := by
  unfold callersOf
  split
  next h => exact (and_iff_right h).symm
  next h => exact iff_of_false List.not_mem_nil (fun hand => h hand.1)

theorem mem_predItems {x y : WorkItem ProcName BlockId} :
    y ∈ predItems program x <-> y.1 = x.1 ∧ y.2 ∈ (program.cfg x.1).blocks ∧
        x.2 ∈ (program.cfg x.1).successors y.2 := by
  rw [predItems, List.mem_map]
  constructor
  · rintro ⟨b, hb, rfl⟩
    exact ⟨rfl, mem_predecessors.mp hb⟩
  · intro ⟨hp, hy⟩
    exact ⟨y.2, mem_predecessors.mpr hy, Prod.ext hp.symm rfl⟩

theorem process_eq_none {s : WeightState ProcName BlockId}
    {x : WorkItem ProcName BlockId} (h : (program.cfg x.1).isNode x.2 = false) :
    process program d s x = none := by
  unfold process Implementation.predEdges
  rw [h]
  rfl

def summarize (program : Program ProcName BlockId) (d : Discovery ProcName BlockId)
    (s : WeightState ProcName BlockId) (x : WorkItem ProcName BlockId)
    (w : GenKillWeight) : WeightState ProcName BlockId :=
  if (setWeightBefore s x w).1 && decide (x.2 = (program.cfg x.1).first) then
    updateSummary d.callers (setWeightBefore s x w).2 x
  else (setWeightBefore s x w).2

theorem summarize_spec {s : WeightState ProcName BlockId} (hs : s.Valid)
    {w : GenKillWeight} (hw : w.Allocated s.memo.next) (x : WorkItem ProcName BlockId) :
    Effect (unlessZero w (callersOf program d x)) [] s (summarize program d s x w) := by
  rcases setWeightBefore_spec hs hw x with ⟨hchange, hset, hbefore⟩
  unfold summarize unlessZero callersOf
  rw [hchange]
  cases hwzero : w.isZero with
  | true => exact hset
  | false =>
    by_cases hfirst : x.2 = (program.cfg x.1).first
    · simp only [hfirst, decide_true, Bool.not_false, Bool.and_self, if_true,
        Bool.false_eq_true, if_false]
      exact hset.trans (updateSummary_spec hset.valid (hbefore hwzero))
    · simp only [hfirst, decide_false, Bool.and_false, Bool.false_eq_true, if_false]
      exact hset

theorem process_eq {s : WeightState ProcName BlockId} {x : WorkItem ProcName BlockId}
    (h : (program.cfg x.1).isNode x.2 = true) {r : GenKillWeight × Memo}
    (hr : blockWeight program d.procICFG s.summary x.1 ((program.cfg x.1).cmds x.2)
      (s.weightAfter x) s.memo = r) :
    process program d s x =
      some (((program.cfg x.1).predecessors x.2).foldl (updatePredecessor x.1 r.1)
        (summarize program d { s with memo := r.2 } x r.1)) := by
  unfold process Implementation.predEdges
  rw [if_pos h, hr]
  rfl

theorem process_spec {s : WeightState ProcName BlockId} (hs : s.Valid)
    {x : WorkItem ProcName BlockId} (h : (program.cfg x.1).isNode x.2 = true) :
    exists s', process program d s x = some s' ∧
      Effect (unlessZero (s.weightAfter x) (callersOf program d x ++ predItems program x))
        (unlessZero (s.weightAfter x) (predItems program x)) s s' := by
  rcases @blockWeight_spec _ _ _ program d.procICFG s.summary x.1
    ((program.cfg x.1).cmds x.2) _ _ (hs.weightAfter x) with ⟨hnext, hzero, hw⟩
  refine ⟨_, process_eq h rfl, ?_⟩
  generalize blockWeight program d.procICFG s.summary x.1 ((program.cfg x.1).cmds x.2)
    (s.weightAfter x) s.memo = r at hnext hzero hw ⊢
  have hunless : forall items : List (WorkItem ProcName BlockId),
      unlessZero (s.weightAfter x) items = unlessZero r.1 items := by
    intro items
    rw [unlessZero, unlessZero, hzero]
  rw [hunless, hunless, ← unlessZero_append]
  have hmemo := hs.setMemo hnext
  have hsummary := @summarize_spec _ _ _ _ program d _ hmemo.valid _ hw x
  exact (hmemo.trans hsummary).trans
    (updatePredecessors_spec hsummary.valid (hw.mono hsummary.next) x.1 _)

end Process

end InterProcGenKill
end Boogie
