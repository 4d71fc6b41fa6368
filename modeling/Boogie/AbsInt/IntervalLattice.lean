import Boogie.AbsInt.IntervalBounds
import Boogie.Foundation.Traversal

/-!
# The lattice of the interval domain

A well-formed list of nodes is determined by the bounds it gives to each
variable, and each operation of the domain by what it does to the bounds of one
variable.
-/

namespace Boogie
namespace AbstractInterpretation

variable {Variable : Type*} [LinearOrder Variable]

structure WellFormed (n : List (Node Variable)) : Prop where
  sorted : SortedMerge.Sorted Node.v n
  bounded : forall m, m ∈ n -> m.lo.isSome || m.hi.isSome

def Element.WellFormed : Element Variable -> Prop
  | .bottom => True
  | .e n => AbstractInterpretation.WellFormed n

def Element.denote {R : Type*} [Ring R] [LinearOrder R] :
    Element Variable -> Set (Variable -> R)
  | .bottom => ∅
  | .e n => { σ | forall m, m ∈ n -> Within (m.lo, m.hi) (σ m.v) }

variable {domain : Thresholds} {n aa bb : List (Node Variable)} {v : Variable}

/-!
# The bounds of a list of nodes
-/

def nodeBounds : Option (Node Variable) -> Bounds
  | none => (none, none)
  | some m => (m.lo, m.hi)

omit [LinearOrder Variable] in
@[simp] theorem nodeBounds_none :
    nodeBounds (none : Option (Node Variable)) = (none, none) := rfl

omit [LinearOrder Variable] in
@[simp] theorem nodeBounds_some (m : Node Variable) :
    nodeBounds (some m) = (m.lo, m.hi) := rfl

omit [LinearOrder Variable] in
@[simp] theorem nodeBounds_constrained (v : Variable) (lo hi : Option Int) :
    nodeBounds (constrained v lo hi) = (lo, hi) := by
  unfold constrained
  cases lo with
  | some l => simp
  | none =>
    cases hi with
    | some h => simp
    | none => simp

theorem getBounds_eq (h : SortedMerge.Sorted Node.v n) (v : Variable) :
    Node.getBounds n v = nodeBounds (SortedMerge.lookup Node.v n v) := by
  induction n with
  | nil => rfl
  | cons m next ih =>
    rw [Node.getBounds, SortedMerge.lookup_cons]
    split
    next => rfl
    next hne =>
      split
      next hlt =>
        have hnone := SortedMerge.lookup_tail_eq_none h (le_of_lt hlt)
        rw [hnone, nodeBounds_none]
      next => exact ih h.tail

theorem mem_denote_iff {R : Type*} [Ring R] [LinearOrder R]
    (h : SortedMerge.Sorted Node.v n) (σ : Variable -> R) :
    σ ∈ (Element.e n).denote <-> forall v, Within (Node.getBounds n v) (σ v) := by
  constructor
  · intro hσ v
    rw [getBounds_eq h]
    cases hm : SortedMerge.lookup Node.v n v with
    | none => exact within_none (σ v)
    | some m =>
      rcases SortedMerge.lookup_eq_some hm with ⟨hmem, hv⟩
      have hwithin := hσ m hmem
      rw [hv] at hwithin
      exact hwithin
  · intro hσ m hm
    have hwithin := hσ m.v
    rw [getBounds_eq h, h.mem_iff.mp hm] at hwithin
    exact hwithin

theorem wellFormed_filterMap
    {f : Option (Node Variable) × Option (Node Variable) ->
      Option (Node Variable)} (hf : SortedMerge.KeyPreserving Node.v f) (hbounded : forall x y m,
      (forall a, x = some a -> a.lo.isSome || a.hi.isSome) ->
      (forall b, y = some b -> b.lo.isSome || b.hi.isSome) ->
      f (x, y) = some m -> m.lo.isSome || m.hi.isSome) (haa : WellFormed aa) (hbb : WellFormed bb) :
    WellFormed ((Node.merge aa bb).filterMap f) ∧ forall v,
      Node.getBounds ((Node.merge aa bb).filterMap f) v =
        nodeBounds (f (SortedMerge.lookup Node.v aa v, SortedMerge.lookup Node.v bb v)) := by
  rcases SortedMerge.filterMap_merge hf haa.sorted hbb.sorted
    with ⟨hsorted, hlookup⟩
  refine ⟨⟨hsorted, ?_⟩, ?_⟩
  · intro m hm
    have hfm := hlookup m.v
    rw [hsorted.mem_iff.mp hm] at hfm
    exact hbounded _ _ m
      (fun a ha => haa.bounded a (SortedMerge.lookup_eq_some ha).1)
      (fun b hb => hbb.bounded b (SortedMerge.lookup_eq_some hb).1) hfm.symm
  · intro v
    rw [getBounds_eq (n := (Node.merge aa bb).filterMap f) hsorted]
    exact congrArg nodeBounds (hlookup v)

omit [LinearOrder Variable] in
theorem constrained_eq {m : Node Variable} {lo hi : Option Int} (h : constrained v lo hi = some m) :
    m.v = v ∧ (m.lo.isSome || m.hi.isSome) := by
  unfold constrained at h
  split at h
  next hsome =>
    cases h
    exact ⟨rfl, hsome⟩
  next => cases h

/-!
# Join and Widen
-/

omit [LinearOrder Variable] in
theorem joinNode_keyPreserving :
    SortedMerge.KeyPreserving (Node.v : Node Variable -> Variable) joinNode where
  empty := rfl
  keeps := by
    intro k x y m hx hy hm
    unfold joinNode at hm
    split at hm
    next x y heq =>
      cases heq
      rw [(constrained_eq hm).1]
      exact hx x rfl
    next => cases hm

omit [LinearOrder Variable] in
theorem nodeBounds_joinNode (x y : Option (Node Variable)) :
    nodeBounds (joinNode (x, y)) = joinBounds (nodeBounds x) (nodeBounds y) := by
  cases x with
  | none => rfl
  | some x =>
    cases y with
    | none =>
      have hlo : Node.min x.lo none false = none := by
        cases x.lo with
        | none => rfl
        | some l => rfl
      have hhi : Node.max x.hi none false = none := by
        cases x.hi with
        | none => rfl
        | some h => rfl
      simp [joinNode, joinBounds, hlo, hhi]
    | some y => exact nodeBounds_constrained x.v _ _

theorem join_spec (haa : WellFormed aa) (hbb : WellFormed bb) :
    exists n, join (.e aa) (.e bb) = .e n ∧ WellFormed n ∧ forall v, Node.getBounds n v =
        joinBounds (Node.getBounds aa v) (Node.getBounds bb v) := by
  have hmap := wellFormed_filterMap joinNode_keyPreserving (by
    intro x y m _ _ hm
    unfold joinNode at hm
    split at hm
    next => exact (constrained_eq hm).2
    next => cases hm) haa hbb
  refine ⟨_, rfl, hmap.1, ?_⟩
  intro v
  rw [hmap.2, nodeBounds_joinNode, getBounds_eq haa.sorted,
    getBounds_eq hbb.sorted]

omit [LinearOrder Variable] in
theorem widenNode_keyPreserving (domain : Thresholds) :
    SortedMerge.KeyPreserving (Node.v : Node Variable -> Variable) (widenNode domain) where
  empty := rfl
  keeps := by
    intro k x y m hx hy hm
    unfold widenNode at hm
    split at hm
    next x y heq =>
      cases heq
      rw [(constrained_eq hm).1]
      exact hx x rfl
    next => cases hm

omit [LinearOrder Variable] in
theorem nodeBounds_widenNode (x y : Option (Node Variable)) :
    nodeBounds (widenNode domain (x, y)) = widenBounds domain (nodeBounds x) (nodeBounds y) := by
  cases x with
  | none => rfl
  | some x =>
    cases y with
    | none => simp [widenNode, widenBounds, widenLo, widenHi]
    | some y => exact nodeBounds_constrained x.v _ _

variable (domain) in
theorem widen_spec (haa : WellFormed aa) (hbb : WellFormed bb) :
    exists n, widen domain (.e aa) (.e bb) = .e n ∧ WellFormed n ∧ forall v, Node.getBounds n v =
        widenBounds domain (Node.getBounds aa v) (Node.getBounds bb v) := by
  have hmap := wellFormed_filterMap (widenNode_keyPreserving domain) (by
    intro x y m _ _ hm
    unfold widenNode at hm
    split at hm
    next => exact (constrained_eq hm).2
    next => cases hm) haa hbb
  refine ⟨_, rfl, hmap.1, ?_⟩
  intro v
  rw [hmap.2, nodeBounds_widenNode, getBounds_eq haa.sorted,
    getBounds_eq hbb.sorted]

/-!
# Meet and Below
-/

omit [LinearOrder Variable] in
theorem meetNode_keyPreserving :
    SortedMerge.KeyPreserving (Node.v : Node Variable -> Variable) meetNode where
  empty := rfl
  keeps := by
    intro k x y m hx hy hm
    cases x with
    | none =>
      cases y with
      | none => cases hm
      | some y =>
        cases hm
        exact hy y rfl
    | some x =>
      cases y with
      | none =>
        cases hm
        exact hx x rfl
      | some y =>
        simp only [meetNode] at hm
        split at hm
        next => cases hm
        next =>
          cases hm
          exact hx x rfl

def pairBounds (p : Option (Node Variable) × Option (Node Variable)) : Bounds :=
  meetBounds (nodeBounds p.1) (nodeBounds p.2)

omit [LinearOrder Variable] in
theorem meetNode_eq_none
    {p : Option (Node Variable) × Option (Node Variable)}
    (h : meetNode p = none) (hp : p ≠ (none, none)) :
    overconstrained (pairBounds p).1 (pairBounds p).2 := by
  rcases p with ⟨x, y⟩
  cases x with
  | none =>
    cases y with
    | none => exact absurd rfl hp
    | some y => cases h
  | some x =>
    cases y with
    | none => cases h
    | some y =>
      simp only [meetNode] at h
      split at h
      next hover => exact hover
      next => cases h

omit [LinearOrder Variable] in
theorem nodeBounds_meetNode
    {p : Option (Node Variable) × Option (Node Variable)} {m : Node Variable}
    (h : meetNode p = some m) : (m.lo, m.hi) = pairBounds p := by
  rcases p with ⟨x, y⟩
  cases x with
  | none =>
    cases y with
    | none => cases h
    | some y =>
      cases h
      rfl
  | some x =>
    cases y with
    | none =>
      cases h
      cases hlo : x.lo with
      | none =>
        cases hhi : x.hi with
        | none => simp [pairBounds, meetBounds, Node.max, Node.min, hlo, hhi]
        | some u => simp [pairBounds, meetBounds, Node.max, Node.min, hlo, hhi]
      | some l =>
        cases hhi : x.hi with
        | none => simp [pairBounds, meetBounds, Node.max, Node.min, hlo, hhi]
        | some u => simp [pairBounds, meetBounds, Node.max, Node.min, hlo, hhi]
    | some y =>
      simp only [meetNode] at h
      split at h
      next => cases h
      next =>
        cases h
        rfl

omit [LinearOrder Variable] in
theorem meetNode_bounded {x y : Option (Node Variable)} {m : Node Variable}
    (hx : forall a, x = some a -> a.lo.isSome || a.hi.isSome)
    (hy : forall b, y = some b -> b.lo.isSome || b.hi.isSome)
    (h : meetNode (x, y) = some m) : m.lo.isSome || m.hi.isSome := by
  cases x with
  | none =>
    cases y with
    | none => cases h
    | some y =>
      cases h
      exact hy y rfl
  | some x =>
    cases y with
    | none =>
      cases h
      exact hx x rfl
    | some y =>
      simp only [meetNode] at h
      split at h
      next => cases h
      next =>
        cases h
        have hbounded := hx x rfl
        cases hlo : x.lo with
        | some l => cases y.lo <;> simp [Node.max]
        | none =>
          cases hhi : x.hi with
          | some u => cases y.hi <;> simp [Node.min]
          | none => simp [hlo, hhi] at hbounded

/-- The meet takes the stronger of the bounds for each variable, unless they
leave no value for one of them. -/
theorem meet_spec (haa : WellFormed aa) (hbb : WellFormed bb) :
    (exists n, meet (.e aa) (.e bb) = .e n ∧ WellFormed n ∧ forall v, Node.getBounds n v =
        meetBounds (Node.getBounds aa v) (Node.getBounds bb v)) ∨
    meet (.e aa) (.e bb) = .bottom ∧ exists v, overconstrained
        (meetBounds (Node.getBounds aa v) (Node.getBounds bb v)).1
        (meetBounds (Node.getBounds aa v) (Node.getBounds bb v)).2 := by
  have hpair : forall v, meetBounds (Node.getBounds aa v) (Node.getBounds bb v) =
      pairBounds (SortedMerge.lookup Node.v aa v, SortedMerge.lookup Node.v bb v) := by
    intro v
    rw [getBounds_eq haa.sorted, getBounds_eq hbb.sorted]
    rfl
  have hmeet : meet (.e aa) (.e bb) =
      ((Node.merge aa bb).mapM meetNode).elim .bottom .e := by
    rw [meet]
    cases (Node.merge aa bb).mapM meetNode with
    | none => rfl
    | some n => rfl
  cases hmap : (Node.merge aa bb).mapM meetNode with
  | some r =>
    left
    have hr := Traversal.eq_filterMap_of_mapM hmap
    rcases wellFormed_filterMap meetNode_keyPreserving
      (fun _ _ _ => meetNode_bounded) haa hbb with ⟨hwf, hbounds⟩
    rw [← hr] at hwf hbounds
    refine ⟨r, by rw [hmeet, hmap, Option.elim_some], hwf, ?_⟩
    intro v
    rw [hbounds, hpair]
    have hne : forall p, p ∈ Node.merge aa bb ->
        p = (none, none) ∨ meetNode p ≠ none :=
      fun p hp => Or.inr (Traversal.ne_none_of_mapM hmap hp)
    rcases (SortedMerge.forall_merge (Or.inl rfl) haa.sorted hbb.sorted).mp
      hne v with hnone | hsome
    · rw [hnone]
      rfl
    · rcases Option.ne_none_iff_exists'.mp hsome with ⟨m, hm⟩
      rw [hm]
      exact nodeBounds_meetNode hm
  | none =>
    right
    refine ⟨by rw [hmeet, hmap, Option.elim_none], ?_⟩
    by_contra hall
    have hnot : forall p, p ∈ Node.merge aa bb ->
        ¬ overconstrained (pairBounds p).1 (pairBounds p).2 := by
      refine (SortedMerge.forall_merge
        (by simp [pairBounds, meetBounds, Node.max, overconstrained]) haa.sorted hbb.sorted).mpr ?_
      intro v hover
      exact hall ⟨v, by rw [hpair]; exact hover⟩
    rcases Traversal.exists_of_mapM_eq_none hmap with ⟨p, hp, hnone⟩
    exact hnot p hp
      (meetNode_eq_none hnone (SortedMerge.ne_none_of_mem_merge hp))

omit [LinearOrder Variable] in
theorem belowNode_iff {x y : Option (Node Variable)}
    (hy : forall b, y = some b -> b.lo.isSome || b.hi.isSome) :
    belowNode (x, y) = true <-> Tighter (nodeBounds x) (nodeBounds y) := by
  cases y with
  | none => cases x <;> simp [belowNode, Tighter]
  | some y =>
    cases x with
    | none =>
      have hbounded := hy y rfl
      cases hlo : y.lo <;> cases hhi : y.hi <;>
        simp [belowNode, Tighter, hlo, hhi] at hbounded ⊢
    | some x =>
      cases hlo : y.lo <;> cases hhi : y.hi <;> cases hxlo : x.lo <;>
        cases hxhi : x.hi <;>
        simp [belowNode, Tighter, hlo, hhi, hxlo, hxhi]

theorem below_iff (haa : WellFormed aa) (hbb : WellFormed bb) :
    below (.e aa) (.e bb) = true <->
      forall v, Tighter (Node.getBounds aa v) (Node.getBounds bb v) := by
  have hall : below (.e aa) (.e bb) = true <->
      forall p, p ∈ Node.merge aa bb -> belowNode p = true := by
    exact List.all_eq_true
  rw [hall]
  unfold Node.merge
  rw [SortedMerge.forall_merge (P := fun p => belowNode p = true) rfl
    haa.sorted hbb.sorted]
  constructor
  · intro h v
    rw [getBounds_eq haa.sorted, getBounds_eq hbb.sorted]
    refine (belowNode_iff ?_).mp (h v)
    exact fun b hb => hbb.bounded b (SortedMerge.lookup_eq_some hb).1
  · intro h v
    refine (belowNode_iff ?_).mpr ?_
    · exact fun b hb => hbb.bounded b (SortedMerge.lookup_eq_some hb).1
    · rw [← getBounds_eq haa.sorted, ← getBounds_eq hbb.sorted]
      exact h v

/-!
# UpdateOne
-/

structure SplitAt (v : Variable) (nn head mid next : List (Node Variable)) :
    Prop where
  eq : nn = head ++ (mid ++ next)
  before : forall m, m ∈ head -> m.v < v
  middle : forall m, m ∈ mid -> m.v = v
  after : forall m, m ∈ next -> v < m.v

theorem splitAt_spec (h : SortedMerge.Sorted Node.v n) (v : Variable) :
    exists mid, SplitAt v n (splitAt v n).1 mid (splitAt v n).2.2 ∧
      ((splitAt v n).2.1 = false -> mid = []) := by
  induction n with
  | nil => exact ⟨[], ⟨rfl, by simp [splitAt], by simp, by simp [splitAt]⟩, by simp⟩
  | cons m next ih =>
    rw [splitAt]
    split
    next hlt =>
      exact ⟨[], ⟨rfl, by simp, by simp, h.above_cons hlt⟩, by simp⟩
    next hge =>
      split
      next heq =>
        refine ⟨[m], ⟨rfl, by simp, by simpa using heq, ?_⟩, by simp⟩
        exact h.above (le_of_eq heq.symm)
      next hne =>
        rcases ih h.tail with ⟨mid, hsplit, hfound⟩
        refine ⟨mid, ⟨?_, ?_, hsplit.middle, hsplit.after⟩, hfound⟩
        · exact congrArg (m :: ·) hsplit.eq
        · intro k hk
          rcases List.mem_cons.mp hk with rfl | hrest
          · exact lt_of_le_of_ne (not_lt.mp hge) hne
          · exact hsplit.before k hrest

namespace SplitAt

variable {nn head mid mid' next : List (Node Variable)}

theorem sorted (h : SplitAt v nn head mid next)
    (hnn : SortedMerge.Sorted Node.v nn) (hmid : SortedMerge.Sorted Node.v mid')
    (hv : forall m, m ∈ mid' -> m.v = v) :
    SortedMerge.Sorted Node.v (head ++ (mid' ++ next)) := by
  unfold SortedMerge.Sorted at hnn hmid ⊢
  rw [h.eq] at hnn
  rcases List.pairwise_append.mp hnn with ⟨hhead, hrest, _⟩
  rcases List.pairwise_append.mp hrest with ⟨_, hnext, _⟩
  apply List.pairwise_append.mpr
  refine ⟨hhead, List.pairwise_append.mpr ⟨hmid, hnext, ?_⟩, ?_⟩
  · intro a ha b hb
    rw [hv a ha]
    exact h.after b hb
  · intro a ha b hb
    rcases List.mem_append.mp hb with hbmid | hbnext
    · rw [hv b hbmid]
      exact h.before a ha
    · exact lt_trans (h.before a ha) (h.after b hbnext)

theorem wellFormed (h : SplitAt v nn head mid next) (hnn : WellFormed nn)
    (hmid : WellFormed mid') (hv : forall m, m ∈ mid' -> m.v = v) :
    WellFormed (head ++ (mid' ++ next)) := by
  refine ⟨h.sorted hnn.sorted hmid.sorted hv, ?_⟩
  intro m hm
  have hbounded := hnn.bounded
  rw [h.eq] at hbounded
  rcases List.mem_append.mp hm with hhead | hrest
  · exact hbounded m (List.mem_append_left _ hhead)
  · rcases List.mem_append.mp hrest with hm' | hnext
    · exact hmid.bounded m hm'
    · exact hbounded m
        (List.mem_append_right _ (List.mem_append_right _ hnext))

theorem lookup_none {k : List (Node Variable)} {u : Variable}
    (h : forall m, m ∈ k -> m.v ≠ u) : SortedMerge.lookup Node.v k u = none := by
  cases hm : SortedMerge.lookup Node.v k u with
  | none => rfl
  | some m =>
    rcases SortedMerge.lookup_eq_some hm with ⟨hmem, hu⟩
    exact absurd hu (h m hmem)

theorem lookup_eq (h : SplitAt v nn head mid next)
    (hv : forall m, m ∈ mid' -> m.v = v) (u : Variable) :
    SortedMerge.lookup Node.v (head ++ (mid' ++ next)) u =
      if u = v then SortedMerge.lookup Node.v mid' v
      else SortedMerge.lookup Node.v nn u := by
  rw [h.eq]
  simp only [SortedMerge.lookup_append]
  split
  next heq =>
    rw [heq, lookup_none (fun m hm => ne_of_lt (h.before m hm)),
      lookup_none (fun m hm => ne_of_gt (h.after m hm))]
    simp
  next hne =>
    have hmid' := lookup_none (fun m hm hu => hne ((hu.symm).trans (hv m hm)))
    have hmid := lookup_none (fun m hm hu => hne ((hu.symm).trans (h.middle m hm)))
    rw [hmid', hmid]

end SplitAt

theorem updateOne_spec (hn : WellFormed n) (v : Variable)
    (lo hi : Option Int) : WellFormed (updateOne n v lo hi) ∧ forall u,
      Node.getBounds (updateOne n v lo hi) u = if u = v then (lo, hi) else Node.getBounds n u := by
  rcases splitAt_spec hn.sorted v with ⟨mid, hsplit, hfound⟩
  have hput : forall mid', WellFormed mid' -> (forall m, m ∈ mid' -> m.v = v) ->
      nodeBounds (SortedMerge.lookup Node.v mid' v) = (lo, hi) ->
      WellFormed ((splitAt v n).1 ++ (mid' ++ (splitAt v n).2.2)) ∧ forall u,
        Node.getBounds ((splitAt v n).1 ++ (mid' ++ (splitAt v n).2.2)) u =
          if u = v then (lo, hi) else Node.getBounds n u := by
    intro mid' hwf hv hbounds
    have hnew := hsplit.wellFormed hn hwf hv
    refine ⟨hnew, ?_⟩
    intro u
    rw [getBounds_eq hnew.sorted, hsplit.lookup_eq hv]
    split
    next => exact hbounds
    next => rw [getBounds_eq hn.sorted]
  have hnil := hput [] ⟨List.Pairwise.nil, by simp⟩ (by simp)
  unfold updateOne
  dsimp only
  split
  next hnone =>
    rw [hnone.1, hnone.2] at hnil
    split
    next =>
      rw [hnone.1, hnone.2]
      exact hnil rfl
    next hfalse =>
      have hmid := hfound (by simpa using hfalse)
      have heq := hsplit.eq
      rw [hmid] at heq
      rw [hnone.1, hnone.2]
      have h := hnil rfl
      rw [← heq] at h
      exact h
  next hsome =>
    refine hput [⟨v, lo, hi⟩] ⟨List.pairwise_singleton _ _, ?_⟩ (by simp) ?_
    · intro m hm
      rw [List.mem_singleton.mp hm]
      cases lo with
      | some l => rfl
      | none =>
        cases hi with
        | some h => rfl
        | none => exact absurd ⟨rfl, rfl⟩ hsome
    · rw [SortedMerge.lookup_cons, if_pos rfl]
      rfl

end AbstractInterpretation
end Boogie
