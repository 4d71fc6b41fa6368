import Boogie.Foundation.Stabilization
import Boogie.Foundation.TopologicalSort
import Mathlib.Data.Fintype.Basic
import Mathlib.Logic.Function.Iterate

/-!
# Worklist iteration

Every node has information.  An entry of the queue brings new information to a
node; if it is not below what the node has, both are combined and the result goes
on to the targets.  How they are combined can depend on the number of earlier
visits, so that the information grows freely at first and is widened later.
-/

structure Dataflow (Node Info : Type*) where
  below : Info -> Info -> Bool
  combine : Node -> Nat -> Info -> Info -> Info
  transfer : Node -> Info -> Info
  targets : Node -> List Node

namespace Dataflow

variable {Node Info : Type*} [DecidableEq Node]

structure State (Node Info : Type*) where
  info : Node -> Info
  visits : Node -> Nat
  queue : List (Node × Info)

def update (P : Dataflow Node Info) (s : State Node Info) (n : Node) (i : Info) :
    State Node Info :=
  { info := Function.update s.info n i
    visits := Function.update s.visits n (s.visits n + 1)
    queue := s.queue ++ (P.targets n).map (fun t => (t, P.transfer n i)) }

def treat (P : Dataflow Node Info) (s : State Node Info) (n : Node) (i : Info) :
    State Node Info :=
  if P.below i (s.info n) then s
  else P.update s n (P.combine n (s.visits n) (s.info n) i)

def step (P : Dataflow Node Info) (s : State Node Info) : State Node Info :=
  match s.queue with
  | [] => s
  | (n, i) :: rest => P.treat { s with queue := rest } n i

def run (P : Dataflow Node Info) (s : State Node Info) (k : Nat) :
    State Node Info :=
  (P.step)^[k] s

def Changes (P : Dataflow Node Info) (s : State Node Info) (n : Node) : Prop :=
  exists i rest, s.queue = (n, i) :: rest ∧ P.below i (s.info n) = false

variable {P : Dataflow Node Info} {s : State Node Info} {n m : Node} {k : Nat}

theorem run_succ : P.run s (k + 1) = P.step (P.run s k) :=
  Function.iterate_succ_apply' _ _ _

theorem step_nil (h : s.queue = []) : P.step s = s := by
  unfold step
  rw [h]

theorem step_below {i : Info} {rest : List (Node × Info)}
    (h : s.queue = (n, i) :: rest) (hbelow : P.below i (s.info n) = true) :
    P.step s = { s with queue := rest } := by
  unfold step treat
  rw [h]
  exact if_pos hbelow

theorem step_changes {i : Info} {rest : List (Node × Info)}
    (h : s.queue = (n, i) :: rest) (hbelow : P.below i (s.info n) = false) :
    P.step s = P.update { s with queue := rest } n (P.combine n (s.visits n) (s.info n) i) := by
  unfold step treat
  rw [h]
  exact if_neg (by simp [hbelow])

theorem step_node (s : State Node Info) (n : Node) :
    ((P.step s).info n = s.info n ∧ (P.step s).visits n = s.visits n) ∨
      exists i rest, s.queue = (n, i) :: rest ∧ P.below i (s.info n) = false ∧
        (P.step s).info n = P.combine n (s.visits n) (s.info n) i ∧
        (P.step s).visits n = s.visits n + 1 := by
  cases hqueue : s.queue with
  | nil =>
    rw [step_nil hqueue]
    exact Or.inl ⟨rfl, rfl⟩
  | cons entry rest =>
    rcases entry with ⟨m, i⟩
    cases hbelow : P.below i (s.info m) with
    | true =>
      rw [step_below hqueue hbelow]
      exact Or.inl ⟨rfl, rfl⟩
    | false =>
      rw [step_changes hqueue hbelow]
      by_cases hnm : n = m
      · rw [← hnm] at hbelow ⊢
        exact Or.inr ⟨i, rest, rfl, hbelow, Function.update_self ..,
          Function.update_self ..⟩
      · exact Or.inl ⟨Function.update_of_ne hnm .., Function.update_of_ne hnm ..⟩

/-!
# Termination

The nodes of a set are widened: from some number of visits on, no chain of
combinations grows for ever.  Every cycle has such a node.
-/

section Termination

/-- Combining never stops to bring information that is below what there was. -/
def Stabilizes (P : Dataflow Node Info) (n : Node) : Prop :=
  exists least, forall (x y : Nat -> Info) (visits : Nat -> Nat),
    (forall k, least ≤ visits k) ->
    (forall k, x (k + 1) = P.combine n (visits k) (x k) (y k)) ->
    exists k, P.below (x (k + 1)) (x k) = true

structure Terminating (P : Dataflow Node Info) (widens : Node -> Prop) : Prop where
  trans : forall {i j k}, P.below i j = true -> P.below j k = true ->
    P.below i k = true
  right : forall n visits i j, P.below j (P.combine n visits i j) = true
  stabilizes : forall n, widens n -> P.Stabilizes n
  acyclic : forall n, ¬ Relation.TransGen
    (fun m n => n ∈ P.targets m ∧ ¬ widens m) n n

def Still (P : Dataflow Node Info) (s : State Node Info) (n : Node) : Prop :=
  exists N, forall k, N ≤ k -> ¬ P.Changes (P.run s k) n

variable {widens : Node -> Prop}

def Widened (P : Dataflow Node Info) (n : Node) (least : Nat) (j i : Info) : Prop :=
  exists visits new, least ≤ visits ∧ j = P.combine n visits i new ∧
    P.below new i = false

omit [DecidableEq Node] in
theorem exists_widened_wellFounded (h : P.Terminating widens) (hn : widens n) :
    exists least, WellFounded (P.Widened n least) := by
  rcases h.stabilizes n hn with ⟨least, hstable⟩
  refine ⟨least, ?_⟩
  rw [wellFounded_iff_isEmpty_descending_chain]
  constructor
  rintro ⟨x, hx⟩
  choose visits y hvisits hnext hnew using hx
  rcases hstable x y visits hvisits hnext with ⟨k, hk⟩
  have hbelow : P.below (y k) (x k) = true := by
    apply h.trans _ hk
    rw [hnext k]
    exact h.right n (visits k) (x k) (y k)
  rw [hnew k] at hbelow
  cases hbelow

theorem visits_mono : forall {k l}, k ≤ l -> (P.run s k).visits n ≤ (P.run s l).visits n := by
  intro k l hkl
  induction l, hkl using Nat.le_induction with
  | base => exact le_refl _
  | succ l _ ih =>
    rw [run_succ]
    rcases step_node (P := P) (P.run s l) n with ⟨_, hsame⟩ | ⟨_, _, _, _, _, hnext⟩
    · rw [hsame]
      exact ih
    · rw [hnext]
      exact Nat.le_succ_of_le ih

theorem still_of_visits {N : Nat}
    (h : forall k, N ≤ k -> (P.run s k).visits n = (P.run s N).visits n) :
    P.Still s n := by
  refine ⟨N, ?_⟩
  intro k hk hchanges
  have hthis := h k hk
  have hnext := h (k + 1) (Nat.le_succ_of_le hk)
  rcases hchanges with ⟨i, rest, hqueue, hbelow⟩
  rw [run_succ, step_changes hqueue hbelow] at hnext
  change Function.update _ n _ n = _ at hnext
  rw [Function.update_self, ← hthis] at hnext
  exact Nat.succ_ne_self _ hnext

theorem still_of_widens (h : P.Terminating widens) (hn : widens n) :
    P.Still s n := by
  rcases exists_widened_wellFounded h hn with ⟨least, hwf⟩
  by_cases hreached : exists N, least ≤ (P.run s N).visits n
  · rcases hreached with ⟨N, hN⟩
    have hsteps : forall k, N ≤ k ->
        (P.run s (k + 1)).info n = (P.run s k).info n ∨
          P.Widened n least ((P.run s (k + 1)).info n) ((P.run s k).info n) := by
      intro k hk
      rw [run_succ]
      rcases step_node (P := P) (P.run s k) n with
        ⟨hsame, _⟩ | ⟨i, _, _, hbelow, hnext, _⟩
      · exact Or.inl hsame
      · exact Or.inr ⟨_, i, le_trans hN (visits_mono hk), hnext, hbelow⟩
    rcases Stabilization.eventually_constant hwf
      (fun k => (P.run s k).info n) hsteps with ⟨M, _, hconst⟩
    refine ⟨M, ?_⟩
    rintro k hk ⟨i, rest, hqueue, hbelow⟩
    have hsame : (P.run s (k + 1)).info n = (P.run s k).info n := by
      exact (hconst (k + 1) (Nat.le_succ_of_le hk)).trans (hconst k hk).symm
    rw [run_succ, step_changes hqueue hbelow] at hsame
    change Function.update _ n _ n = _ at hsame
    rw [Function.update_self] at hsame
    have hright := h.right n ((P.run s k).visits n) ((P.run s k).info n) i
    rw [hsame, hbelow] at hright
    cases hright
  · -- The visits are bounded, so there is a last one.
    have hbound : forall k, (P.run s k).visits n < least := by
      intro k
      by_contra hle
      exact hreached ⟨k, not_lt.mp hle⟩
    have hsteps : forall k, 0 ≤ k ->
        (P.run s (k + 1)).visits n = (P.run s k).visits n ∨
          least - (P.run s (k + 1)).visits n < least - (P.run s k).visits n := by
      intro k _
      rcases Nat.eq_or_lt_of_le (visits_mono (P := P) (s := s) (n := n)
        (Nat.le_succ k)) with hsame | hlt
      · exact Or.inl hsame.symm
      · exact Or.inr (Nat.sub_lt_sub_left (hbound k) hlt)
    rcases Stabilization.eventually_constant (measure (fun v => least - v)).wf
      (fun k => (P.run s k).visits n) hsteps with ⟨M, _, hconst⟩
    exact still_of_visits hconst

def pending (s : State Node Info) (n : Node) : Nat :=
  s.queue.countP (fun entry => entry.1 = n)

theorem pending_update {s : State Node Info} {i : Info} (hm : n ∉ P.targets m) :
    pending (P.update s m i) n = pending s n := by
  unfold pending update
  rw [List.countP_append, Nat.add_eq_left, List.countP_eq_zero]
  intro entry hentry
  rcases List.mem_map.mp hentry with ⟨t, ht, rfl⟩
  simp only [decide_eq_true_eq]
  rintro rfl
  exact hm ht

theorem pending_step (h : forall m, n ∈ P.targets m -> ¬ P.Changes s m) :
    pending (P.step s) n = pending s n ∧ ¬ P.Changes s n ∨ pending (P.step s) n < pending s n := by
  cases hqueue : s.queue with
  | nil =>
    refine Or.inl ⟨by rw [step_nil hqueue], ?_⟩
    rintro ⟨i, rest, hcons, _⟩
    rw [hqueue] at hcons
    cases hcons
  | cons entry rest =>
    rcases entry with ⟨m, i⟩
    have hrest : pending (P.step s) n = pending { s with queue := rest } n := by
      cases hbelow : P.below i (s.info m) with
      | true => rw [step_below hqueue hbelow]
      | false =>
        rw [step_changes hqueue hbelow]
        exact pending_update (fun hm => h m hm ⟨i, rest, hqueue, hbelow⟩)
    have hcount : pending s n =
        pending { s with queue := rest } n + if m = n then 1 else 0 := by
      unfold pending
      rw [hqueue, List.countP_cons]
      simp only [decide_eq_true_eq]
    by_cases hmn : m = n
    · rw [if_pos hmn] at hcount
      exact Or.inr (by omega)
    · rw [if_neg hmn] at hcount
      refine Or.inl ⟨by omega, ?_⟩
      rintro ⟨j, rest', hcons, _⟩
      rw [hqueue] at hcons
      injection hcons with hentry
      injection hentry with hn
      exact hmn hn

theorem still_of_sources {N : Nat}
    (h : forall k, N ≤ k -> forall m, n ∈ P.targets m -> ¬ P.Changes (P.run s k) m) :
    P.Still s n := by
  have hsteps : forall k, N ≤ k ->
      pending (P.run s (k + 1)) n = pending (P.run s k) n ∨
        pending (P.run s (k + 1)) n < pending (P.run s k) n := by
    intro k hk
    rw [run_succ]
    rcases pending_step (h k hk) with ⟨hsame, _⟩ | hlt
    · exact Or.inl hsame
    · exact Or.inr hlt
  rcases Stabilization.eventually_constant Nat.lt_wfRel.wf
    (fun k => pending (P.run s k) n) hsteps with ⟨M, hNM, hconst⟩
  refine ⟨M, ?_⟩
  intro k hk
  rcases pending_step (h k (le_trans hNM hk)) with ⟨_, hnot⟩ | hlt
  · exact hnot
  · have hsame : pending (P.run s (k + 1)) n = pending (P.run s k) n :=
      (hconst (k + 1) (Nat.le_succ_of_le hk)).trans (hconst k hk).symm
    rw [run_succ] at hsame
    exact absurd hsame (Nat.ne_of_lt hlt)

theorem exists_common {nodes : List Node} (h : forall n, n ∈ nodes -> P.Still s n) :
    exists N, forall k, N ≤ k -> forall n, n ∈ nodes -> ¬ P.Changes (P.run s k) n := by
  induction nodes with
  | nil => exact ⟨0, fun _ _ n hn => by cases hn⟩
  | cons n nodes ih =>
    rcases h n List.mem_cons_self with ⟨N, hN⟩
    rcases ih (fun m hm => h m (List.mem_cons_of_mem _ hm)) with ⟨M, hM⟩
    refine ⟨max N M, ?_⟩
    intro k hk m hm
    rcases List.mem_cons.mp hm with rfl | hm
    · exact hN k (le_trans (le_max_left N M) hk)
    · exact hM k (le_trans (le_max_right N M) hk) m hm

theorem still (h : P.Terminating widens) {nodes : List Node}
    (hnodes : forall n, n ∈ nodes) (n : Node) : P.Still s n := by
  have hwf : WellFounded (fun m n => n ∈ P.targets m ∧ ¬ widens m) :=
    TopologicalSort.wellFounded_of_acyclic (fun m _ _ => hnodes m) h.acyclic
  induction n using hwf.induction with
  | _ n ih =>
    have hsources : forall m, m ∈ nodes.filter (fun m => n ∈ P.targets m) ->
        P.Still s m := by
      intro m hm
      by_cases hwidens : widens m
      · exact still_of_widens h hwidens
      · have htarget := (List.mem_filter.mp hm).2
        exact ih m ⟨of_decide_eq_true htarget, hwidens⟩
    rcases exists_common hsources with ⟨N, hN⟩
    refine still_of_sources (N := N) ?_
    intro k hk m hm
    exact hN k hk m (List.mem_filter.mpr ⟨hnodes m, decide_eq_true hm⟩)

theorem exists_empty (h : P.Terminating widens) {nodes : List Node}
    (hnodes : forall n, n ∈ nodes) : exists k, (P.run s k).queue = [] := by
  rcases exists_common (s := s) (fun n (_ : n ∈ nodes) => still h hnodes n)
    with ⟨N, hN⟩
  by_contra hnever
  refine @Stabilization.not_decreasing (fun k => (P.run s k).queue.length) N ?_
  intro k hk
  cases hqueue : (P.run s k).queue with
  | nil => exact absurd ⟨k, hqueue⟩ hnever
  | cons entry rest =>
    rcases entry with ⟨n, i⟩
    have hbelow : P.below i ((P.run s k).info n) = true := by
      by_contra hnot
      exact hN k hk n (hnodes n) ⟨i, rest, hqueue, by simpa using hnot⟩
    rw [run_succ, step_below hqueue hbelow]
    exact Nat.lt_succ_self _

end Termination

/-!
# Soundness

Information describes things, and a flow takes the things at a node to its
targets.  What the transfer function, the order and the combinations say about
them is true.
-/

section Soundness

variable {A : Type*}

structure Sound (P : Dataflow Node Info) (describes : Info -> A -> Prop)
    (flow : Node -> A -> A -> Prop) : Prop where
  below : forall {i j x}, P.below i j = true -> describes i x -> describes j x
  left : forall {n visits i j x}, describes i x ->
    describes (P.combine n visits i j) x
  right : forall {n visits i j x}, describes j x ->
    describes (P.combine n visits i j) x
  transfer : forall {n i x y}, describes i x -> flow n x y ->
    describes (P.transfer n i) y

inductive Arrives (P : Dataflow Node Info) (flow : Node -> A -> A -> Prop)
    (initial : Node -> A -> Prop) : Node -> A -> Prop where
  | start {n : Node} {x : A} : initial n x -> Arrives P flow initial n x
  | flow {n t : Node} {x y : A} : Arrives P flow initial n x -> flow n x y ->
      t ∈ P.targets n -> Arrives P flow initial t y

variable {describes : Info -> A -> Prop} {flow : Node -> A -> A -> Prop}
  {initial : Node -> A -> Prop} {x : A}

/-- The information of the node, or an entry that waits, describes `x`. -/
def Covered (describes : Info -> A -> Prop) (s : State Node Info) (n : Node)
    (x : A) : Prop :=
  describes (s.info n) x ∨ exists i, (n, i) ∈ s.queue ∧ describes i x

structure Covers (P : Dataflow Node Info) (describes : Info -> A -> Prop)
    (flow : Node -> A -> A -> Prop) (initial : Node -> A -> Prop)
    (s : State Node Info) : Prop where
  start : forall {n x}, initial n x -> Covered describes s n x
  targets : forall {n t x y}, describes (s.info n) x -> flow n x y ->
    t ∈ P.targets n -> Covered describes s t y

theorem Covered.step (h : P.Sound describes flow) (hx : Covered describes s n x) :
    Covered describes (P.step s) n x := by
  cases hqueue : s.queue with
  | nil =>
    rw [step_nil hqueue]
    exact hx
  | cons entry rest =>
    rcases entry with ⟨m, i⟩
    cases hbelow : P.below i (s.info m) with
    | true =>
      rw [step_below hqueue hbelow]
      rcases hx with hinfo | ⟨j, hj, hx⟩
      · exact Or.inl hinfo
      · rw [hqueue] at hj
        rcases List.mem_cons.mp hj with hhead | hrest
        · cases hhead
          exact Or.inl (h.below hbelow hx)
        · exact Or.inr ⟨j, hrest, hx⟩
    | false =>
      rw [step_changes hqueue hbelow]
      rcases hx with hinfo | ⟨j, hj, hx⟩
      · by_cases hnm : n = m
        · rw [hnm] at hinfo ⊢
          refine Or.inl ?_
          change describes (Function.update s.info m _ m) x
          rw [Function.update_self]
          exact h.left hinfo
        · refine Or.inl ?_
          change describes (Function.update s.info m _ n) x
          rw [Function.update_of_ne hnm]
          exact hinfo
      · rw [hqueue] at hj
        rcases List.mem_cons.mp hj with hhead | hrest
        · cases hhead
          refine Or.inl ?_
          change describes (Function.update s.info n _ n) x
          rw [Function.update_self]
          exact h.right hx
        · exact Or.inr ⟨j, List.mem_append_left _ hrest, hx⟩

theorem Covers.step (h : P.Sound describes flow) (hs : Covers P describes flow initial s) :
    Covers P describes flow initial (P.step s) := by
  refine ⟨fun hx => (hs.start hx).step h, ?_⟩
  intro n t x y hx hflow ht
  rcases step_node (P := P) s n with ⟨hsame, _⟩ | ⟨i, rest, hqueue, hbelow, hnext, _⟩
  · rw [hsame] at hx
    exact (hs.targets hx hflow ht).step h
  · -- What flows on from the new information is in the queue.
    rw [hnext] at hx
    refine Or.inr ⟨_, ?_, h.transfer hx hflow⟩
    rw [step_changes hqueue hbelow]
    exact List.mem_append_right _ (List.mem_map.mpr ⟨t, ht, rfl⟩)

theorem Covers.run (h : P.Sound describes flow) (hs : Covers P describes flow initial s) (k : Nat) :
    Covers P describes flow initial (P.run s k) := by
  induction k with
  | zero => exact hs
  | succ k ih =>
    rw [run_succ]
    exact ih.step h

omit [DecidableEq Node] in
theorem Covers.describes_info (hs : Covers P describes flow initial s)
    (hempty : s.queue = []) (hx : Arrives P flow initial n x) :
    describes (s.info n) x := by
  have hcovered : forall {n x}, Covered describes s n x -> describes (s.info n) x := by
    intro n x hx
    rcases hx with hinfo | ⟨i, hi, _⟩
    · exact hinfo
    · rw [hempty] at hi
      cases hi
  induction hx with
  | start hx => exact hcovered (hs.start hx)
  | flow _ hflow ht ih => exact hcovered (hs.targets ih hflow ht)

end Soundness

end Dataflow
