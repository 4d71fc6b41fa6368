import Mathlib.Tactic.FinCases
import Boogie.Core.BlockCoalescerEdges
import Boogie.Core.BlockCoalescerNames

/-!
# The coalesced implementation

The first search counts the edges between the blocks that can be reached.  The
second one keeps these numbers for the blocks that are left.
-/

namespace Boogie
namespace BlockCoalescer

section Searches

variable {BlockId Label Token Cmd : Type} [DecidableEq BlockId]
variable {isValid : Token -> Bool}
variable {impl : Implementation BlockId Label Token Cmd}

def room (heap : Heap BlockId Label Token Cmd) (dfsStack : List BlockId)
    (pending : Finset BlockId) : Nat :=
  dfsStack.length + ∑ u ∈ pending, (1 + (successors heap u).length)

theorem room_visit {heap : Heap BlockId Label Token Cmd} {b : BlockId}
    {rest : List BlockId} {pending : Finset BlockId} (hb : b ∈ pending) :
    room heap ((successors heap b).reverse ++ rest) (pending.erase b) <
      room heap (b :: rest) pending := by
  have hsplit := Finset.add_sum_erase pending
    (fun u => 1 + (successors heap u).length) hb
  unfold room
  rw [List.length_append, List.length_reverse, List.length_cons]
  omega

/-!
# The first search
-/

/-- `extra` counts the visits after the first one. -/
structure SearchInvariant (impl : Implementation BlockId Label Token Cmd)
    (s : SearchState BlockId) (extra : BlockId -> Nat) : Prop where
  count : forall v, s.dfsStack.count v + (if v ∈ s.visitedBlocks then 1 else 0) +
    extra v = entries impl.first impl.heap s.visitedBlocks v
  multi : forall v, v ∈ s.multiPredBlocks <-> 0 < extra v
  first_seen : impl.first ∈ s.visitedBlocks ∨ impl.first ∈ s.dfsStack
  closed : forall u, u ∈ s.visitedBlocks -> forall t, t ∈ successors impl.heap u ->
    t ∈ s.visitedBlocks ∨ t ∈ s.dfsStack
  reach : forall v, v ∈ s.visitedBlocks ∨ v ∈ s.dfsStack ->
    v ∈ impl.blocks ∧ Reaches impl.heap impl.first v

def SearchState.room (impl : Implementation BlockId Label Token Cmd)
    (s : SearchState BlockId) : Nat :=
  BlockCoalescer.room impl.heap s.dfsStack (impl.blocks.toFinset \ s.visitedBlocks)

theorem searchStep_visited {s : SearchState BlockId} {extra : BlockId -> Nat}
    (hs : SearchInvariant impl s extra) {b : BlockId} {rest : List BlockId}
    (hstack : s.dfsStack = b :: rest) (hvisited : b ∈ s.visitedBlocks) :
    SearchInvariant impl
      { s with
        dfsStack := rest
        multiPredBlocks := insert b s.multiPredBlocks }
      (fun v => if v = b then extra v + 1 else extra v) := by
  have hmem : forall v, v ∈ s.dfsStack <-> v = b ∨ v ∈ rest := by
    intro v
    rw [hstack, List.mem_cons]
  refine ⟨?_, ?_, ?_, ?_, ?_⟩
  · intro v
    have hcount := hs.count v
    rw [hstack, List.count_cons] at hcount
    by_cases hv : v = b
    · subst hv
      simp at hcount ⊢
      omega
    · have hne : ¬ b = v := fun heq => hv heq.symm
      simp only [beq_iff_eq, hne, if_false, hv] at hcount ⊢
      omega
  · intro v
    by_cases hv : v = b
    · simp [hv]
    · simp [hv, hs.multi v]
  · rcases hs.first_seen with h | h
    · exact Or.inl h
    · rcases (hmem _).mp h with h | h
      · exact Or.inl (h ▸ hvisited)
      · exact Or.inr h
  · intro u hu t ht
    rcases hs.closed u hu t ht with h | h
    · exact Or.inl h
    · rcases (hmem t).mp h with rfl | h
      · exact Or.inl hvisited
      · exact Or.inr h
  · intro v hv
    apply hs.reach v
    rcases hv with h | h
    · exact Or.inl h
    · exact Or.inr ((hmem v).mpr (Or.inr h))

theorem searchStep_new {s : SearchState BlockId} {extra : BlockId -> Nat}
    (hs : SearchInvariant impl s extra) {b : BlockId} {rest : List BlockId}
    (hstack : s.dfsStack = b :: rest) (hnew : b ∉ s.visitedBlocks) :
    SearchInvariant impl
      { s with
        dfsStack := (successors impl.heap b).reverse ++ rest
        visitedBlocks := insert b s.visitedBlocks } extra := by
  have hmem : forall v, v ∈ s.dfsStack <-> v = b ∨ v ∈ rest := by
    intro v
    rw [hstack, List.mem_cons]
  have hb := hs.reach b (Or.inr ((hmem b).mpr (Or.inl rfl)))
  refine ⟨?_, hs.multi, ?_, ?_, ?_⟩
  · intro v
    have hcount := hs.count v
    rw [hstack, List.count_cons] at hcount
    rw [List.count_append, List.count_reverse, entries, edges,
      Finset.sum_insert hnew]
    rw [entries, edges] at hcount
    by_cases hv : v = b
    · subst hv
      simp [hnew] at hcount ⊢
      omega
    · have hne : ¬ b = v := fun heq => hv heq.symm
      simp only [beq_iff_eq, hne, if_false, Finset.mem_insert, hv, false_or] at hcount ⊢
      omega
  · rcases hs.first_seen with h | h
    · exact Or.inl (Finset.mem_insert_of_mem h)
    · rcases (hmem _).mp h with h | h
      · left
        rw [h]
        exact Finset.mem_insert_self b _
      · exact Or.inr (List.mem_append_right _ h)
  · intro u hu t ht
    rcases Finset.mem_insert.mp hu with rfl | hu
    · exact Or.inr (List.mem_append_left _ (List.mem_reverse.mpr ht))
    · rcases hs.closed u hu t ht with h | h
      · exact Or.inl (Finset.mem_insert_of_mem h)
      · rcases (hmem t).mp h with rfl | h
        · exact Or.inl (Finset.mem_insert_self _ _)
        · exact Or.inr (List.mem_append_right _ h)
  · intro v hv
    rcases hv with hv | hv
    · rcases Finset.mem_insert.mp hv with rfl | hv
      · exact hb
      · exact hs.reach v (Or.inl hv)
    · rcases List.mem_append.mp hv with hv | hv
      · have ht := List.mem_reverse.mp hv
        exact ⟨impl.targets_mem b hb.1 ht, hb.2.tail ht⟩
      · exact hs.reach v (Or.inr ((hmem v).mpr (Or.inr hv)))

theorem searchStep_spec {s : SearchState BlockId} {extra : BlockId -> Nat}
    (hs : SearchInvariant impl s extra) (hstack : s.dfsStack ≠ []) :
    exists s' extra', searchStep impl.heap s = some s' ∧
      SearchInvariant impl s' extra' ∧ s'.room impl < s.room impl := by
  cases hcons : s.dfsStack with
  | nil => exact absurd hcons hstack
  | cons b rest =>
    by_cases hvisited : b ∈ s.visitedBlocks
    · refine ⟨_, _, ?_, searchStep_visited hs hcons hvisited, ?_⟩
      · rw [searchStep, hcons]
        simp only [hvisited, if_true]
      · unfold SearchState.room room
        rw [hcons, List.length_cons]
        dsimp only
        omega
    · refine ⟨_, _, ?_, searchStep_new hs hcons hvisited, ?_⟩
      · rw [searchStep, hcons]
        simp only [hvisited, if_false]
      · have hb : b ∈ impl.blocks.toFinset \ s.visitedBlocks := by
          have hmem := (hs.reach b (Or.inr (hcons ▸ List.mem_cons_self))).1
          exact Finset.mem_sdiff.mpr ⟨List.mem_toFinset.mpr hmem, hvisited⟩
        have hlower := @room_visit _ _ _ _ _ impl.heap b rest _ hb
        unfold SearchState.room
        rw [hcons, Finset.sdiff_insert]
        exact hlower

structure Searched (impl : Implementation BlockId Label Token Cmd)
    (alive multiPredBlocks : Finset BlockId) : Prop where
  first_mem : impl.first ∈ alive
  closed : forall u, u ∈ alive -> forall t, t ∈ successors impl.heap u -> t ∈ alive
  reach : forall v, v ∈ alive -> v ∈ impl.blocks ∧ Reaches impl.heap impl.first v
  multi : forall v, v ∈ alive -> v ∈ multiPredBlocks ->
    2 ≤ entries impl.first impl.heap alive v
  single : forall v, v ∈ alive -> v ∉ multiPredBlocks ->
    entries impl.first impl.heap alive v = 1

theorem computeMultiPredecessorBlocks_spec (impl : Implementation BlockId Label Token Cmd) :
    exists n multiPredBlocks alive, (forall m, n ≤ m ->
        computeMultiPredecessorBlocks m impl = some multiPredBlocks) ∧
      Searched impl alive multiPredBlocks := by
  have hinitial : SearchInvariant impl
      { dfsStack := [impl.first]
        visitedBlocks := ∅
        multiPredBlocks := ∅ } (fun _ => 0) := by
    refine ⟨?_, ?_, ?_, ?_, ?_⟩
    · intro v
      by_cases hv : v = impl.first
      · simp [entries, edges, hv]
      · simp [entries, edges, hv, List.count_eq_zero]
    · simp
    · simp
    · simp
    · intro v hv
      have hfirst : v = impl.first := by simpa using hv
      exact ⟨hfirst ▸ List.mem_cons_self, hfirst ▸ Relation.ReflTransGen.refl⟩
  have hround : forall s : SearchState BlockId,
      ((exists extra, SearchInvariant impl s extra) ∧ s.dfsStack ≠ []) ->
        exists s', searchStep impl.heap s = some s' ∧
          ((!s'.dfsStack.isEmpty) = true ->
            ((exists extra, SearchInvariant impl s' extra) ∧ s'.dfsStack ≠ []) ∧
              s'.room impl < s.room impl) := by
    intro s ⟨⟨extra, hs⟩, hstack⟩
    rcases searchStep_spec hs hstack with ⟨s', extra', hstep, hs', hlower⟩
    refine ⟨s', hstep, fun hmore => ⟨⟨⟨extra', hs'⟩, ?_⟩, hlower⟩⟩
    simpa using hmore
  rcases Rounds.exists_repeatWhile hround ⟨⟨_, hinitial⟩, List.cons_ne_nil _ _⟩ with
    ⟨n, s, hruns, last, ⟨⟨extra, hlast⟩, hstack⟩, hstep, hagain⟩
  rcases searchStep_spec hlast hstack with ⟨s', extra', hstep', hs, _⟩
  rw [hstep] at hstep'
  cases hstep'
  have hempty : s.dfsStack = [] := by simpa using hagain
  refine ⟨n, s.multiPredBlocks, s.visitedBlocks, ?_, ?_⟩
  · intro m hm
    rw [computeMultiPredecessorBlocks, hruns m hm]
    rfl
  · have hcount : forall v, v ∈ s.visitedBlocks ->
        entries impl.first impl.heap s.visitedBlocks v = 1 + extra' v := by
      intro v hv
      rw [← hs.count v, hempty, if_pos hv]
      simp
    refine ⟨?_, ?_, ?_, ?_, ?_⟩
    · simpa [hempty] using hs.first_seen
    · intro u hu t ht
      simpa [hempty] using hs.closed u hu t ht
    · exact fun v hv => hs.reach v (Or.inl hv)
    · intro v hv hmulti
      have hpos := (hs.multi v).mp hmulti
      rw [hcount v hv]
      omega
    · intro v hv hmulti
      have hzero : extra' v = 0 := by
        by_contra hne
        exact hmulti ((hs.multi v).mpr (Nat.pos_of_ne_zero hne))
      rw [hcount v hv, hzero]

/-!
# The second search
-/

/-- The blocks that are left are those of the first search that have not been
removed. -/
structure Invariant (impl : Implementation BlockId Label Token Cmd)
    (alive multiPredBlocks : Finset BlockId) (s : State BlockId Label Token Cmd) :
    Prop where
  first_mem : impl.first ∈ alive
  closed : forall u, u ∈ alive -> forall t, t ∈ successors s.heap u -> t ∈ alive
  reach : forall v, v ∈ alive -> Reaches s.heap impl.first v
  multi : forall v, v ∈ alive -> v ∈ multiPredBlocks ->
    2 ≤ entries impl.first s.heap alive v
  single : forall v, v ∈ alive -> v ∉ multiPredBlocks ->
    entries impl.first s.heap alive v = 1
  seen : forall v, v ∈ s.visitedBlocks ∨ v ∈ s.dfsStack ->
    v ∈ alive ∧ (v = impl.first ∨
      exists u, u ∈ s.visitedBlocks ∧ v ∈ successors s.heap u)
  first_seen : impl.first ∈ s.visitedBlocks ∨ impl.first ∈ s.dfsStack
  followed : forall u, u ∈ s.visitedBlocks -> forall t, t ∈ successors s.heap u ->
    t ∈ s.visitedBlocks ∨ t ∈ s.dfsStack
  merged : forall u, u ∈ s.visitedBlocks -> forall t, successors s.heap u = [t] ->
    t ∈ multiPredBlocks
  sequences : commandSequences s.heap impl.first =
    commandSequences impl.heap impl.first

section Step

variable {alive multiPredBlocks : Finset BlockId}
variable {s : State BlockId Label Token Cmd} {b succ : BlockId} {rest : List BlockId}

theorem Invariant.two_le_entries (hs : Invariant impl alive multiPredBlocks s)
    {x v : BlockId} (hx : x ∈ alive) (hunvisited : x ∉ s.visitedBlocks)
    (hxv : v ∈ successors s.heap x) (hv : v ∈ s.visitedBlocks ∨ v ∈ s.dfsStack) :
    2 ≤ entries impl.first s.heap alive v := by
  unfold entries
  rcases (hs.seen v hv).2 with hfirst | ⟨u, hu, huv⟩
  · have hpos := edges_pos hx hxv
    rw [if_pos hfirst]
    omega
  · have hne : u ≠ x := fun heq => hunvisited (heq ▸ hu)
    have hedges := two_le_edges hne (hs.seen u (Or.inl hu)).1 hx huv hxv
    omega

theorem Invariant.mergeable (hs : Invariant impl alive multiPredBlocks s)
    (hb : b ∈ s.dfsStack) (hnew : b ∉ s.visitedBlocks)
    (hsucc : successors s.heap b = [succ]) (hsingle : succ ∉ multiPredBlocks) :
    Mergeable s.heap alive b succ ∧
      (succ ∉ s.visitedBlocks ∧ succ ∉ s.dfsStack) ∧ succ ≠ impl.first := by
  have halive := (hs.seen b (Or.inr hb)).1
  have hmem : succ ∈ successors s.heap b := by
    rw [hsucc]
    exact List.mem_singleton_self succ
  have hsuccAlive := hs.closed b halive succ hmem
  have hone := hs.single succ hsuccAlive hsingle
  have hunseen : ¬ (succ ∈ s.visitedBlocks ∨ succ ∈ s.dfsStack) := by
    intro hseen
    have htwo := hs.two_le_entries halive hnew hmem hseen
    omega
  have hfirst : succ ≠ impl.first := by
    intro heq
    exact hunseen (heq ▸ hs.first_seen)
  refine ⟨⟨halive, hsuccAlive, ?_, hsucc, ?_, hs.closed⟩,
    ⟨fun h => hunseen (Or.inl h), fun h => hunseen (Or.inr h)⟩, hfirst⟩
  · intro heq
    exact hunseen (Or.inr (heq ▸ hb))
  · intro x hx hxs
    by_contra hne
    have hedges := two_le_edges hne hx halive hxs hmem
    rw [entries, if_neg hfirst] at hone
    omega

theorem Invariant.pop (hs : Invariant impl alive multiPredBlocks s)
    (hstack : s.dfsStack = b :: rest) (hvisited : b ∈ s.visitedBlocks) :
    Invariant impl alive multiPredBlocks { s with dfsStack := rest } := by
  have hmem : forall v, v ∈ s.dfsStack <-> v = b ∨ v ∈ rest := by
    intro v
    rw [hstack, List.mem_cons]
  have hkept : forall v, v ∈ s.visitedBlocks ∨ v ∈ s.dfsStack ->
      v ∈ s.visitedBlocks ∨ v ∈ rest := by
    intro v hv
    rcases hv with hv | hv
    · exact Or.inl hv
    · rcases (hmem v).mp hv with rfl | hv
      · exact Or.inl hvisited
      · exact Or.inr hv
  refine ⟨hs.first_mem, hs.closed, hs.reach, hs.multi, hs.single, ?_, ?_, ?_,
    hs.merged, hs.sequences⟩
  · intro v hv
    apply hs.seen v
    rcases hv with hv | hv
    · exact Or.inl hv
    · exact Or.inr ((hmem v).mpr (Or.inr hv))
  · exact hkept _ hs.first_seen
  · exact fun u hu t ht => hkept t (hs.followed u hu t ht)

theorem Invariant.visit (hs : Invariant impl alive multiPredBlocks s)
    (hstack : s.dfsStack = b :: rest)
    (hmerged : forall t, successors s.heap b = [t] -> t ∈ multiPredBlocks) :
    Invariant impl alive multiPredBlocks
      { s with
        dfsStack := (successors s.heap b).reverse ++ rest
        visitedBlocks := insert b s.visitedBlocks } := by
  have hmem : forall v, v ∈ s.dfsStack <-> v = b ∨ v ∈ rest := by
    intro v
    rw [hstack, List.mem_cons]
  have hb := hs.seen b (Or.inr ((hmem b).mpr (Or.inl rfl)))
  have hkept : forall v, v ∈ s.visitedBlocks ∨ v ∈ s.dfsStack ->
      v ∈ insert b s.visitedBlocks ∨ v ∈ (successors s.heap b).reverse ++ rest := by
    intro v hv
    rcases hv with hv | hv
    · exact Or.inl (Finset.mem_insert_of_mem hv)
    · rcases (hmem v).mp hv with rfl | hv
      · exact Or.inl (Finset.mem_insert_self _ _)
      · exact Or.inr (List.mem_append_right _ hv)
  refine ⟨hs.first_mem, hs.closed, hs.reach, hs.multi, hs.single, ?_, ?_, ?_, ?_,
    hs.sequences⟩
  · have hold : forall v, v ∈ s.visitedBlocks ∨ v ∈ s.dfsStack ->
        v ∈ alive ∧ (v = impl.first ∨
          exists u, u ∈ insert b s.visitedBlocks ∧ v ∈ successors s.heap u) := by
      intro v hv
      rcases hs.seen v hv with ⟨halive, hfirst | ⟨u, hu, huv⟩⟩
      · exact ⟨halive, Or.inl hfirst⟩
      · exact ⟨halive, Or.inr ⟨u, Finset.mem_insert_of_mem hu, huv⟩⟩
    intro v hv
    rcases hv with hv | hv
    · rcases Finset.mem_insert.mp hv with rfl | hv
      · exact hold _ (Or.inr ((hmem _).mpr (Or.inl rfl)))
      · exact hold v (Or.inl hv)
    · rcases List.mem_append.mp hv with hv | hv
      · have ht := List.mem_reverse.mp hv
        exact ⟨hs.closed b hb.1 v ht,
          Or.inr ⟨b, Finset.mem_insert_self _ _, ht⟩⟩
      · exact hold v (Or.inr ((hmem v).mpr (Or.inr hv)))
  · exact hkept _ hs.first_seen
  · intro u hu t ht
    rcases Finset.mem_insert.mp hu with rfl | hu
    · exact Or.inr (List.mem_append_left _ (List.mem_reverse.mpr ht))
    · exact hkept t (hs.followed u hu t ht)
  · intro u hu t ht
    rcases Finset.mem_insert.mp hu with rfl | hu
    · exact hmerged t ht
    · exact hs.merged u hu t ht

theorem Invariant.merge (hs : Invariant impl alive multiPredBlocks s)
    (hb : b ∈ s.dfsStack) (hnew : b ∉ s.visitedBlocks)
    (hsucc : successors s.heap b = [succ]) (hsingle : succ ∉ multiPredBlocks) :
    Invariant impl (alive.erase succ) multiPredBlocks
      { s with
        heap := merge isValid s.heap b succ
        removedBlocks := insert succ s.removedBlocks } := by
  rcases hs.mergeable hb hnew hsucc hsingle with ⟨hmergeable, hunseen, hfirst⟩
  have hsame : forall u, u ∈ s.visitedBlocks ->
      successors (BlockCoalescer.merge isValid s.heap b succ) u =
        successors s.heap u :=
    fun u hu => successors_merge_of_ne (fun heq => hnew (heq ▸ hu))
  have hentries : forall v, v ∈ alive.erase succ ->
      entries impl.first (BlockCoalescer.merge isValid s.heap b succ)
        (alive.erase succ) v = entries impl.first s.heap alive v := by
    intro v hv
    rw [entries, entries, edges_merge hmergeable (Finset.ne_of_mem_erase hv)]
  refine ⟨?_, ?_, ?_, ?_, ?_, ?_, hs.first_seen, ?_, ?_, ?_⟩
  · exact Finset.mem_erase.mpr ⟨hfirst.symm, hs.first_mem⟩
  · intro u hu t ht
    have hualive := Finset.mem_of_mem_erase hu
    by_cases hub : u = b
    · subst hub
      rw [successors_merge_self] at ht
      exact Finset.mem_erase.mpr ⟨hmergeable.target_ne hmergeable.mem_succ hmergeable.ne ht,
        hs.closed succ hmergeable.mem_succ t ht⟩
    · rw [successors_merge_of_ne hub] at ht
      exact Finset.mem_erase.mpr ⟨hmergeable.target_ne hualive hub ht,
        hs.closed u hualive t ht⟩
  · intro v hv
    exact (Reaches.merge hmergeable hs.first_mem hfirst.symm
      (hs.reach v (Finset.mem_of_mem_erase hv))).1 (Finset.ne_of_mem_erase hv)
  · intro v hv hmulti
    rw [hentries v hv]
    exact hs.multi v (Finset.mem_of_mem_erase hv) hmulti
  · intro v hv hmulti
    rw [hentries v hv]
    exact hs.single v (Finset.mem_of_mem_erase hv) hmulti
  · intro v hv
    have hne : v ≠ succ := by
      intro heq
      rcases hv with hv | hv
      · exact hunseen.1 (heq ▸ hv)
      · exact hunseen.2 (heq ▸ hv)
    rcases hs.seen v hv with ⟨halive, hreason⟩
    refine ⟨Finset.mem_erase.mpr ⟨hne, halive⟩, ?_⟩
    rcases hreason with hreason | ⟨u, hu, huv⟩
    · exact Or.inl hreason
    · exact Or.inr ⟨u, hu, by rwa [hsame u hu]⟩
  · intro u hu t ht
    rw [hsame u hu] at ht
    exact hs.followed u hu t ht
  · intro u hu t ht
    rw [hsame u hu] at ht
    exact hs.merged u hu t ht
  · rw [hmergeable.commandSequences_eq hs.first_mem hfirst.symm, hs.sequences]

end Step

def State.room (searched : Finset BlockId) (s : State BlockId Label Token Cmd) : Nat :=
  BlockCoalescer.room s.heap s.dfsStack
    ((searched \ s.removedBlocks) \ s.visitedBlocks)

theorem room_merge {alive visited : Finset BlockId}
    {heap : Heap BlockId Label Token Cmd} {b succ : BlockId} {dfsStack : List BlockId}
    (h : Mergeable heap alive b succ) (hb : b ∉ visited) (hsucc : succ ∉ visited) :
    BlockCoalescer.room (BlockCoalescer.merge isValid heap b succ) dfsStack
        (alive.erase succ \ visited) < BlockCoalescer.room heap dfsStack (alive \ visited) := by
  have hsum := @sum_merge _ _ _ _ _ isValid heap alive b succ (fun l => 1 + l.length) h
    (alive \ visited) (Finset.mem_sdiff.mpr ⟨h.mem, hb⟩)
    (Finset.mem_sdiff.mpr ⟨h.mem_succ, hsucc⟩)
  have herase : alive.erase succ \ visited = (alive \ visited).erase succ := by
    rw [Finset.erase_sdiff_comm]
  unfold room
  rw [herase]
  simp only [List.length_singleton] at hsum
  omega

theorem coalesceStep_spec {searched multiPredBlocks : Finset BlockId}
    {s : State BlockId Label Token Cmd}
    (hs : Invariant impl (searched \ s.removedBlocks) multiPredBlocks s)
    (hstack : s.dfsStack ≠ []) :
    exists s', coalesceStep isValid multiPredBlocks s = some s' ∧
      Invariant impl (searched \ s'.removedBlocks) multiPredBlocks s' ∧
        s'.room searched < s.room searched := by
  cases hcons : s.dfsStack with
  | nil => exact absurd hcons hstack
  | cons b rest =>
    have hb : b ∈ s.dfsStack := hcons ▸ List.mem_cons_self
    by_cases hvisited : b ∈ s.visitedBlocks
    · refine ⟨{ s with dfsStack := rest }, ?_, hs.pop hcons hvisited, ?_⟩
      · rw [coalesceStep, hcons]
        simp only [hvisited, if_true]
      · unfold State.room room
        rw [hcons, List.length_cons]
        dsimp only
        omega
    · have hpending : b ∈ (searched \ s.removedBlocks) \ s.visitedBlocks :=
        Finset.mem_sdiff.mpr ⟨(hs.seen b (Or.inr hb)).1, hvisited⟩
      have hlower := @room_visit _ _ _ _ _ s.heap b rest _ hpending
      by_cases hmerge : exists succ, successors s.heap b = [succ] ∧
          succ ∉ multiPredBlocks
      · rcases hmerge with ⟨succ, hsucc, hsingle⟩
        rcases hs.mergeable hb hvisited hsucc hsingle with ⟨hmergeable, hunseen, _⟩
        refine ⟨{ s with
          heap := BlockCoalescer.merge isValid s.heap b succ
          removedBlocks := insert succ s.removedBlocks }, ?_, ?_, ?_⟩
        · rw [coalesceStep, hcons]
          simp only [hvisited, if_false, hsucc, hsingle, hmergeable.ne]
        · have hmerged := @Invariant.merge _ _ _ _ _ isValid _ _ _ _ _ _ hs hb
            hvisited hsucc hsingle
          rwa [← Finset.sdiff_insert] at hmerged
        · have hroom := @room_merge _ _ _ _ _ isValid _ _ _ _ _ s.dfsStack hmergeable
            hvisited hunseen.1
          unfold State.room
          dsimp only
          rwa [Finset.sdiff_insert]
      · have hmerged : forall t, successors s.heap b = [t] -> t ∈ multiPredBlocks := by
          intro t ht
          by_contra hnot
          exact hmerge ⟨t, ht, hnot⟩
        refine ⟨{ s with
          dfsStack := (successors s.heap b).reverse ++ rest
          visitedBlocks := insert b s.visitedBlocks }, ?_, hs.visit hcons hmerged, ?_⟩
        · rw [coalesceStep, hcons]
          simp only [hvisited, if_false]
          split
          · next succ hsucc => simp [hmerged succ hsucc, hsucc]
          · rfl
        · unfold State.room
          rw [hcons, Finset.sdiff_insert]
          exact hlower

/-!
# The result
-/

theorem Invariant.visited_eq {alive multiPredBlocks : Finset BlockId}
    {s : State BlockId Label Token Cmd} (hs : Invariant impl alive multiPredBlocks s)
    (hempty : s.dfsStack = []) : s.visitedBlocks = alive := by
  apply Finset.Subset.antisymm
  · exact fun v hv => (hs.seen v (Or.inl hv)).1
  · intro v hv
    have hfirst : impl.first ∈ s.visitedBlocks := by
      simpa [hempty] using hs.first_seen
    apply Reaches.mem _ hfirst (hs.reach v hv)
    intro u hu t ht
    simpa [hempty] using hs.followed u hu t ht

/-- Coalescing ends; it keeps the first block in front, the targets among the
blocks that are left, the command sequences, and the label names of targets that
are not renamed, and a single goto to a block other than the first one is not the
only edge into it. -/
theorem visitImplementation_coalesces (isValid : Token -> Bool)
    (impl : Implementation BlockId Label Token Cmd) :
    exists n result, (forall m, n ≤ m -> visitImplementation isValid m impl = some result) ∧
      result.blocks.head? = some impl.first ∧
      (forall b, b ∈ result.blocks -> successors result.heap b ⊆ result.blocks) ∧
      commandSequences result.heap impl.first = commandSequences impl.heap impl.first ∧
      (LabelsAgree impl.heap impl.blocks ->
        LabelsKept isValid impl.heap result.heap
          (fun r => r ∈ impl.blocks ∧ r ∉ result.blocks) result.blocks) ∧
      forall b, b ∈ result.blocks -> forall t, successors result.heap b = [t] ->
        t ≠ impl.first -> 2 ≤ edges result.heap result.blocks.toFinset t := by
  rcases computeMultiPredecessorBlocks_spec impl with
    ⟨k, multiPredBlocks, searched, hsearch, hsearched⟩
  have hround : forall s : State BlockId Label Token Cmd,
      (Invariant impl (searched \ s.removedBlocks) multiPredBlocks s ∧
        Named isValid impl s ∧ s.dfsStack ≠ []) ->
      exists s', coalesceStep isValid multiPredBlocks s = some s' ∧
        ((!s'.dfsStack.isEmpty) = true ->
          (Invariant impl (searched \ s'.removedBlocks) multiPredBlocks s' ∧
            Named isValid impl s' ∧ s'.dfsStack ≠ []) ∧
              s'.room searched < s.room searched) := by
    intro s ⟨hs, hnamed, hstack⟩
    rcases @coalesceStep_spec _ _ _ _ _ isValid _ _ _ _ hs hstack with
      ⟨s', hstep, hs', hlower⟩
    refine ⟨s', hstep, ?_⟩
    intro hmore
    exact ⟨⟨hs', coalesceStep_named hstep hnamed, by simpa using hmore⟩, hlower⟩
  have hinitial : Invariant impl (searched \ ∅) multiPredBlocks
      { heap := impl.heap
        dfsStack := [impl.first]
        visitedBlocks := ∅
        removedBlocks := ∅ } := by
    rw [Finset.sdiff_empty]
    refine ⟨hsearched.first_mem, hsearched.closed, fun v hv => (hsearched.reach v hv).2,
      hsearched.multi, hsearched.single, ?_, by simp, by simp, by simp, rfl⟩
    intro v hv
    have hfirst : v = impl.first := by simpa using hv
    exact ⟨hfirst ▸ hsearched.first_mem, Or.inl hfirst⟩
  rcases @Rounds.exists_repeatWhile _ _ _ _ _ hround
    { heap := impl.heap
      dfsStack := [impl.first]
      visitedBlocks := ∅
      removedBlocks := ∅ } ⟨hinitial, named_initial, List.cons_ne_nil _ _⟩ with
    ⟨n, s, hruns, last, ⟨hlast, hnamed, hstack⟩, hstep, hagain⟩
  rcases @coalesceStep_spec _ _ _ _ _ isValid _ _ _ _ hlast hstack with
    ⟨s', hstep', hs, _⟩
  rw [hstep] at hstep'
  cases hstep'
  have hnames := coalesceStep_named hstep hnamed
  have hempty : s.dfsStack = [] := by simpa using hagain
  have hvisited := hs.visited_eq hempty
  have hmem : forall v, v ∈ newBlocks impl s <-> v ∈ searched \ s.removedBlocks := by
    intro v
    rw [newBlocks, List.mem_filter, decide_eq_true_iff, hvisited, Finset.mem_sdiff]
    constructor
    · exact fun h => h.2.1
    · intro h
      exact ⟨(hsearched.reach v h.1).1, h, h.2⟩
  have hfinset : (newBlocks impl s).toFinset = searched \ s.removedBlocks := by
    ext v
    rw [List.mem_toFinset, hmem]
  refine ⟨max k n, ⟨s.heap, newBlocks impl s⟩, ?_, ?_, ?_, hs.sequences,
    hnames.labelsKept, ?_⟩
  · intro m hm
    rw [visitImplementation, hsearch m (le_trans (le_max_left k n) hm),
      Option.bind_eq_bind, Option.bind_some, hruns m (le_trans (le_max_right k n) hm)]
    rfl
  · have hfirst := Finset.mem_sdiff.mp hs.first_mem
    have hkept : impl.first ∈ s.visitedBlocks ∧ impl.first ∉ s.removedBlocks :=
      ⟨hvisited ▸ hs.first_mem, hfirst.2⟩
    show (newBlocks impl s).head? = some impl.first
    simp [newBlocks, Implementation.blocks, hkept]
  · intro b hb t ht
    exact (hmem t).mpr (hs.closed b ((hmem b).mp hb) t ht)
  · intro b hb t ht hne
    have halive := (hmem b).mp hb
    have htarget : t ∈ searched \ s.removedBlocks :=
      hs.closed b halive t (ht ▸ List.mem_singleton_self t)
    have hmulti := hs.merged b (hvisited ▸ halive) t ht
    have htwo := hs.multi t htarget hmulti
    rw [entries, if_neg hne, Nat.zero_add] at htwo
    rwa [hfinset]

end Searches

/-!
# Label names and the first block
-/

/-- Block 1 has no position in the program text and two edges into it; it is merged
with block 3 and takes over its label. -/
def renamed : Implementation (Fin 4) String Bool Unit where
  first := 0
  others := [1, 2, 3]
  heap := fun b => match b with
    | 0 => ⟨true, "a", [], some (.gotoCmd ["b", "c"] (some [1, 2]))⟩
    | 1 => ⟨false, "b", [], some (.gotoCmd ["d"] (some [3]))⟩
    | 2 => ⟨true, "c", [], some (.gotoCmd ["b"] (some [1]))⟩
    | 3 => ⟨true, "d", [], some .returnCmd⟩
  distinct := by decide
  targets_mem := by decide

def loop : Implementation (Fin 1) String Bool Unit where
  first := 0
  others := []
  heap := fun _ => ⟨true, "a", [], some (.gotoCmd ["a"] (some [0]))⟩
  distinct := by decide
  targets_mem := by decide

/-- The names in other gotos are not changed with a label, and a goto back to the
first block may be the only edge into it. -/
theorem not_labelsAgree_and_single_edge :
    (LabelsAgree renamed.heap renamed.blocks ∧
      exists m result, visitImplementation id m renamed = some result ∧
        ¬ LabelsAgree result.heap result.blocks) ∧
    exists m result, visitImplementation id m loop = some result ∧
      exists b, b ∈ result.blocks ∧ exists t, successors result.heap b = [t] ∧
        edges result.heap result.blocks.toFinset t = 1 := by
  refine ⟨⟨?_, ?_⟩, ?_⟩
  · intro b _ names targets hgoto
    fin_cases b
    · cases hgoto
      rfl
    · cases hgoto
      rfl
    · cases hgoto
      rfl
    · cases hgoto
  · have hrun : (visitImplementation id 9 renamed).map
        (fun r => (r.blocks, (r.heap 0).transferCmd, (r.heap 1).label)) =
          some ([0, 1, 2], some (.gotoCmd ["b", "c"] (some [1, 2])), "d") := by
      decide
    rcases Option.map_eq_some_iff.mp hrun with ⟨result, hresult, heq⟩
    refine ⟨9, result, hresult, ?_⟩
    intro hagree
    rcases Prod.mk.inj heq with ⟨hblocks, heq⟩
    rcases Prod.mk.inj heq with ⟨hgoto, hlabel⟩
    have hzero : 0 ∈ result.blocks := by
      rw [hblocks]
      decide
    have hnames := hagree 0 hzero _ _ hgoto
    rw [List.map_cons, hlabel] at hnames
    exact absurd (List.cons.inj hnames).1 (by decide)
  · have hrun : (visitImplementation id 9 loop).map
        (fun r => (r.blocks, successors r.heap 0, edges r.heap r.blocks.toFinset 0)) =
          some ([0], [0], 1) := by
      decide
    rcases Option.map_eq_some_iff.mp hrun with ⟨result, hresult, heq⟩
    rcases Prod.mk.inj heq with ⟨hblocks, heq⟩
    rcases Prod.mk.inj heq with ⟨hgoto, hedges⟩
    have hzero : 0 ∈ result.blocks := by
      rw [hblocks]
      decide
    exact ⟨9, result, hresult, 0, hzero, 0, hgoto, hedges⟩

end BlockCoalescer
end Boogie
