import Boogie.VCGeneration.SplitSound
import Mathlib.Algebra.Order.Ring.Rat
import Mathlib.Tactic.NormNum

/-!
# Big blocks

A block that is merged with its only predecessor is not big.  The successors of
a merged block are exits of a block that is not merged itself, so no big block
has a successor that is not big.
-/

namespace Boogie

namespace VCGen

namespace Split

section BigBlocks

variable {s : Split} {st st' st'' : Stats} {pending : List Nat} {id next : Nat}

def Stats.Counted (st : Stats) (id : Nat) : Prop :=
  0 ≤ (st.stats id).assertionCost

def Stats.virtualSuccessors (st : Stats) (id : Nat) : List Nat :=
  (st.stats id).virtualSuccessors

def Unmerged (s : Split) (st : Stats) (id : Nat) : Prop :=
  forall next, s.exits id = [next] -> st.Counted next ∧
    (1 < (s.predecessors next).length ∨
      (st.virtualSuccessors next).length ≠ 1)

structure StatsInv (s : Split) (pending : List Nat) (st : Stats) : Prop where
  merged : forall ch, st.Counted ch -> (st.stats ch).bigBlock = false ->
    ch ∉ pending ∧ (st.virtualSuccessors ch).length = 1 ∧
      (s.predecessors ch).length ≤ 1 ∧ exists a, s.exits a = [ch]
  virtual : forall b, st.Counted b -> b ∉ pending ->
    forall ch, ch ∈ st.virtualSuccessors b ->
      exists z, ch ∈ s.exits z ∧ Unmerged s st z

def Stats.Extends (st st' : Stats) : Prop :=
  forall id, st.Counted id -> st'.Counted id ∧
    st'.virtualSuccessors id = st.virtualSuccessors id

theorem Stats.Extends.trans (h : st.Extends st') (h' : st'.Extends st'') :
    st.Extends st'' := by
  intro id hid
  rcases h id hid with ⟨hcounted, heq⟩
  rcases h' id hcounted with ⟨hcounted', heq'⟩
  exact ⟨hcounted', heq'.trans heq⟩

theorem Unmerged.extends (h : Unmerged s st id) (hext : st.Extends st') :
    Unmerged s st' id := by
  intro next hnext
  rcases h next hnext with ⟨hcounted, hcond⟩
  rcases hext next hcounted with ⟨hcounted', heq⟩
  rw [heq]
  exact ⟨hcounted', hcond⟩

theorem StatsInv.empty : StatsInv s [] .empty where
  merged := by
    intro ch hcounted
    exact absurd hcounted (by norm_num [Stats.Counted, Stats.empty])
  virtual := by
    intro b hcounted
    exact absurd hcounted (by norm_num [Stats.Counted, Stats.empty])

/-!
# One block
-/

theorem counted_count : (st.count s id).Counted id := by
  unfold Stats.Counted Stats.count
  simp only [Function.update_self]
  exact mul_nonneg (Nat.cast_nonneg _) (by norm_num [assertionCost])

theorem virtual_count : (st.count s id).virtualSuccessors id = s.exits id := by
  simp [Stats.virtualSuccessors, Stats.count]

theorem stats_count {x : Nat} (hne : x ≠ id) :
    (st.count s id).stats x = st.stats x := by
  simp [Stats.count, Function.update_of_ne hne]

theorem extends_count (hid : ¬ st.Counted id) : st.Extends (st.count s id) := by
  intro x hx
  have hne : x ≠ id := by
    rintro rfl
    exact hid hx
  unfold Stats.Counted Stats.virtualSuccessors
  rw [stats_count hne]
  exact ⟨hx, rfl⟩

theorem StatsInv.count (h : StatsInv s pending st) (hid : ¬ st.Counted id) :
    StatsInv s (id :: pending) (st.count s id) where
  merged := by
    intro ch hcounted hsmall
    have hne : ch ≠ id := by
      rintro rfl
      simp [Stats.count] at hsmall
    unfold Stats.Counted at hcounted
    unfold Stats.virtualSuccessors
    rw [stats_count hne] at hcounted hsmall ⊢
    rcases h.merged ch hcounted hsmall with ⟨hpending, hrest⟩
    refine ⟨?_, hrest⟩
    simp [hne, hpending]
  virtual := by
    intro b hcounted hpending ch hch
    rw [List.mem_cons, not_or] at hpending
    unfold Stats.Counted at hcounted
    unfold Stats.virtualSuccessors at hch
    rw [stats_count hpending.1] at hcounted hch
    rcases h.virtual b hcounted hpending.2 ch hch with ⟨z, hz, hunmerged⟩
    exact ⟨z, hz, hunmerged.extends (extends_count hid)⟩

theorem StatsInv.unmerged (h : StatsInv s (id :: pending) st)
    (hvirtual : st.virtualSuccessors id = s.exits id)
    (hunmerged : Unmerged s st id) : StatsInv s pending st where
  merged := by
    intro ch hcounted hsmall
    rcases h.merged ch hcounted hsmall with ⟨hpending, hrest⟩
    exact ⟨fun hmem => hpending (List.mem_cons_of_mem id hmem), hrest⟩
  virtual := by
    intro b hcounted hpending ch hch
    by_cases hb : b = id
    · rw [hb, hvirtual] at hch
      exact ⟨id, hch, hunmerged⟩
    · exact h.virtual b hcounted (by simp [hb, hpending]) ch hch

section Merge

variable (hne : id ≠ next)

include hne

theorem stats_merge_self : (st.merge id next).stats id =
    { st.stats id with
      virtualSuccessors := (st.stats next).virtualSuccessors
      assertionCost :=
        (st.stats id).assertionCost + (st.stats next).assertionCost } := by
  simp [Stats.merge, Function.update_of_ne hne]

omit hne in
theorem stats_merge_next : (st.merge id next).stats next =
    { st.stats next with bigBlock := false } := by
  simp [Stats.merge]

omit hne in
theorem stats_merge {x : Nat} (hx : x ≠ id) (hx' : x ≠ next) :
    (st.merge id next).stats x = st.stats x := by
  simp [Stats.merge, Function.update_of_ne hx, Function.update_of_ne hx']

theorem counted_merge {x : Nat} (hid : st.Counted id) (hnext : st.Counted next) :
    (st.merge id next).Counted x <-> st.Counted x := by
  unfold Stats.Counted at *
  by_cases hx : x = id
  · subst hx
    rw [stats_merge_self hne]
    constructor
    · exact fun _ => hid
    · intro _
      exact add_nonneg hid hnext
  · by_cases hx' : x = next
    · subst hx'
      rw [stats_merge_next]
    · rw [stats_merge hx hx']

theorem virtual_merge {x : Nat} (hx : x ≠ id) :
    (st.merge id next).virtualSuccessors x = st.virtualSuccessors x := by
  unfold Stats.virtualSuccessors
  by_cases hx' : x = next
  · subst hx'
    rw [stats_merge_next]
  · rw [stats_merge hx hx']

theorem Unmerged.merge {z : Nat} (h : Unmerged s st z) (hid : st.Counted id)
    (hnext : st.Counted next) (hlength : (st.virtualSuccessors id).length = 1) :
    Unmerged s (st.merge id next) z := by
  intro y hy
  rcases h y hy with ⟨hcounted, hcond⟩
  refine ⟨(counted_merge hne hid hnext).mpr hcounted, ?_⟩
  by_cases hyid : y = id
  · rw [hyid] at hcond ⊢
    exact Or.inl (hcond.resolve_right (fun hnot => hnot hlength))
  · rw [virtual_merge hne hyid]
    exact hcond

theorem StatsInv.merge (h : StatsInv s (id :: pending) st) (hid : st.Counted id)
    (hnext : st.Counted next) (hpending : next ∉ pending) (hexits : s.exits id = [next])
    (hvirtual : st.virtualSuccessors id = s.exits id)
    (hpredecessors : (s.predecessors next).length ≤ 1)
    (hlength : (st.virtualSuccessors next).length = 1) :
    StatsInv s pending (st.merge id next) where
  merged := by
    intro ch hcounted hsmall
    by_cases hch : ch = next
    · subst hch
      rw [virtual_merge hne (Ne.symm hne)]
      exact ⟨hpending, hlength, hpredecessors, id, hexits⟩
    · have hcounted' := (counted_merge hne hid hnext).mp hcounted
      have hsmall' : (st.stats ch).bigBlock = false := by
        by_cases hchid : ch = id
        · subst hchid
          rw [stats_merge_self hne] at hsmall
          exact hsmall
        · rw [stats_merge hchid hch] at hsmall
          exact hsmall
      rcases h.merged ch hcounted' hsmall' with ⟨hnot, hrest⟩
      rw [List.mem_cons, not_or] at hnot
      rw [virtual_merge hne hnot.1]
      exact ⟨hnot.2, hrest⟩
  virtual := by
    have hlengthid : (st.virtualSuccessors id).length = 1 := by
      rw [hvirtual, hexits]
      rfl
    intro b hcounted hnot ch hch
    have hcounted' := (counted_merge hne hid hnext).mp hcounted
    have hz : exists z, ch ∈ s.exits z ∧ Unmerged s st z := by
      by_cases hb : b = id
      · have heq : (st.merge id next).virtualSuccessors b =
            st.virtualSuccessors next := by
          unfold Stats.virtualSuccessors
          rw [hb, stats_merge_self hne]
        rw [heq] at hch
        exact h.virtual next hnext (by simp [Ne.symm hne, hpending]) ch hch
      · rw [virtual_merge hne hb] at hch
        exact h.virtual b hcounted' (by simp [hb, hnot]) ch hch
    rcases hz with ⟨z, hz, hunmerged⟩
    exact ⟨z, hz, hunmerged.merge hne hid hnext hlengthid⟩

end Merge

/-!
# All blocks
-/

section Steps

variable {depth : Nat}

theorem countAssertions_counted (hid : st.Counted id) :
    s.countAssertions (depth + 1) st id = st := by
  unfold Stats.Counted at hid
  rw [countAssertions, if_pos hid]

theorem countAssertions_exit (hid : ¬ st.Counted id) (hexits : s.exits id = [next]) :
    s.countAssertions (depth + 1) st id =
      let st' := s.countAssertions depth (st.count s id) next
      if 1 < (s.predecessors next).length ∨
          (st'.virtualSuccessors next).length ≠ 1 then st'
      else st'.merge id next := by
  unfold Stats.Counted at hid
  rw [countAssertions, if_neg hid, hexits]
  rfl

theorem countAssertions_exits (hid : ¬ st.Counted id)
    (hexits : ¬ exists next, s.exits id = [next]) :
    s.countAssertions (depth + 1) st id = st.count s id := by
  unfold Stats.Counted at hid
  rw [countAssertions, if_neg hid]
  match hs : s.exits id with
  | [] => rfl
  | [next] => exact absurd ⟨next, hs⟩ hexits
  | _ :: _ :: _ => rfl

end Steps

theorem countAssertions_spec (h : s.Valid) {depth : Nat}
    (hinv : StatsInv s pending st) (hnodup : (id :: pending).Nodup)
    (hids : forall x, x ∈ id :: pending -> x ∈ s.ids)
    (hpath : forall x, x ∈ id :: pending -> DepthFirst.Reaches s.exits x id)
    (hdepth : s.ids.length ≤ depth + pending.length) :
    StatsInv s pending (s.countAssertions depth st id) ∧
      st.Extends (s.countAssertions depth st id) ∧ (s.countAssertions depth st id).Counted id := by
  induction depth generalizing st id pending with
  | zero =>
    have hlength := (List.Nodup.subperm hnodup (fun x hx => hids x hx)).length_le
    rw [List.length_cons] at hlength
    omega
  | succ depth ih =>
    by_cases hid : st.Counted id
    · rw [countAssertions_counted hid]
      exact ⟨hinv, fun x hx => ⟨hx, rfl⟩, hid⟩
    have hcount := hinv.count hid
    have hextends : st.Extends (st.count s id) := extends_count hid
    by_cases hexits : exists next, s.exits id = [next]
    · rcases hexits with ⟨next, hexits⟩
      have hexit : next ∈ s.exits id := by
        rw [hexits]
        exact List.mem_singleton.mpr rfl
      have hnew : next ∉ id :: pending :=
        fun hmem => not_reaches_back h hexit (hpath next hmem)
      have hpath' : forall x, x ∈ next :: id :: pending ->
          DepthFirst.Reaches s.exits x next := by
        intro x hx
        rcases List.mem_cons.mp hx with rfl | hrest
        · exact Relation.ReflTransGen.refl
        · exact Relation.ReflTransGen.tail (hpath x hrest) hexit
      have hids' : forall x, x ∈ next :: id :: pending -> x ∈ s.ids := by
        intro x hx
        rcases List.mem_cons.mp hx with rfl | hrest
        · exact mem_ids_of_exits h hexit
        · exact hids x hrest
      have hdepth' : s.ids.length ≤ depth + (id :: pending).length := by
        rw [List.length_cons]
        omega
      rcases ih hcount (List.nodup_cons.mpr ⟨hnew, hnodup⟩) hids' hpath' hdepth'
        with ⟨hinv', hextends', hnext⟩
      rcases hextends' id counted_count with ⟨hcounted, hvirtual⟩
      rw [virtual_count] at hvirtual
      rw [List.mem_cons, not_or] at hnew
      have hne : id ≠ next := Ne.symm hnew.1
      rw [countAssertions_exit hid hexits]
      simp only
      split
      · rename_i hcond
        refine ⟨hinv'.unmerged hvirtual ?_, hextends.trans hextends', hcounted⟩
        intro next' hnext'
        rw [hexits] at hnext'
        cases hnext'
        exact ⟨hnext, hcond⟩
      · rename_i hcond
        push Not at hcond
        refine ⟨hinv'.merge hne hcounted hnext hnew.2 hexits hvirtual hcond.1
          hcond.2, ?_, (counted_merge hne hcounted hnext).mpr hcounted⟩
        intro x hx
        rcases hextends.trans hextends' x hx with ⟨hx', heq⟩
        have hxid : x ≠ id := by
          rintro rfl
          exact hid hx
        rw [virtual_merge hne hxid]
        exact ⟨(counted_merge hne hcounted hnext).mpr hx', heq⟩
    · rw [countAssertions_exits hid hexits]
      refine ⟨hcount.unmerged virtual_count ?_, hextends, counted_count⟩
      intro next hnext
      exact absurd ⟨next, hnext⟩ hexits

theorem computeStats_spec (h : s.Valid) : StatsInv s [] s.computeStats ∧
    forall id, id ∈ s.ids -> s.computeStats.Counted id := by
  have hfold : forall (xs : List Nat) (st : Stats), StatsInv s [] st ->
      (forall x, x ∈ xs -> x ∈ s.ids) ->
      StatsInv s [] (xs.foldl (s.countAssertions s.blocks.length) st) ∧
        st.Extends (xs.foldl (s.countAssertions s.blocks.length) st) ∧
        forall x, x ∈ xs ->
          (xs.foldl (s.countAssertions s.blocks.length) st).Counted x := by
    intro xs
    induction xs with
    | nil =>
      intro st hinv _
      refine ⟨hinv, fun x hx => ⟨hx, rfl⟩, ?_⟩
      intro x hx
      cases hx
    | cons x xs ih =>
      intro st hinv hxs
      have hids : forall y, y ∈ [x] -> y ∈ s.ids := by
        intro y hy
        rw [List.mem_singleton.mp hy]
        exact hxs x List.mem_cons_self
      have hpath : forall y, y ∈ [x] -> DepthFirst.Reaches s.exits y x := by
        intro y hy
        rw [List.mem_singleton.mp hy]
        exact Relation.ReflTransGen.refl
      rcases countAssertions_spec h hinv (List.nodup_singleton x) hids hpath
        ids_length with ⟨hinv', hextends, hcounted⟩
      rcases ih _ hinv' (fun y hy => hxs y (List.mem_cons_of_mem x hy)) with
        ⟨hinv'', hextends', hall⟩
      refine ⟨hinv'', hextends.trans hextends', ?_⟩
      intro y hy
      rcases List.mem_cons.mp hy with rfl | hrest
      · exact (hextends' y hcounted).1
      · exact hall y hrest
  rcases hfold s.ids .empty StatsInv.empty (fun x hx => hx) with ⟨hinv, _, hall⟩
  exact ⟨hinv, hall⟩

theorem mem_predecessors (h : s.Valid) (ht : next ∈ s.exits id) :
    id ∈ s.predecessors next := by
  rcases jumps_of_exits ht with ⟨b, hb, rfl, hmem⟩
  exact h.predecessors b hb next hmem

theorem checkBigBlocks_computeStats (h : s.Valid) :
    s.checkBigBlocks s.computeStats = true := by
  rcases computeStats_spec h with ⟨hinv, hcounted⟩
  apply List.all_eq_true.mpr
  intro b hb
  rw [Bool.or_eq_true]
  right
  apply List.all_eq_true.mpr
  intro ch hch
  by_contra hsmall
  rw [Bool.not_eq_true] at hsmall
  rcases hinv.virtual b (hcounted b hb) List.not_mem_nil ch hch with
    ⟨z, hz, hunmerged⟩
  rcases hinv.merged ch (hcounted ch (mem_ids_of_exits h hz)) hsmall with
    ⟨_, hlength, hpredecessors, a, ha⟩
  have hmem : a ∈ s.predecessors ch := by
    apply mem_predecessors h
    rw [ha]
    exact List.mem_singleton.mpr rfl
  have hmem' : z ∈ s.predecessors ch := mem_predecessors h hz
  have heq : z = a := by
    match hs : s.predecessors ch with
    | [] =>
      rw [hs] at hmem
      cases hmem
    | [p] =>
      rw [hs] at hmem hmem'
      rw [List.mem_singleton.mp hmem, List.mem_singleton.mp hmem']
    | _ :: _ :: _ =>
      rw [hs] at hpredecessors
      simp at hpredecessors
  rw [← heq] at ha
  rcases (hunmerged ch ha).2 with hmany | hnot
  · omega
  · exact hnot hlength

end BigBlocks

end Split

end VCGen

end Boogie
