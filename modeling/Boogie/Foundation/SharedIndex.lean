import Mathlib.Algebra.BigOperators.Intervals
import Mathlib.Algebra.BigOperators.Group.Finset.Basic
import Mathlib.Algebra.Order.BigOperators.Group.List
import Mathlib.Algebra.Order.BigOperators.Group.Finset
import Mathlib.Data.List.GetD
import Mathlib.Data.List.Nodup
import Mathlib.Data.List.Perm.Subperm
import Mathlib.Data.List.Range

/-!
# Loops that share one index

A tree is gone through from its root.  At some nodes a loop goes through the
children, and all these loops have one index in common: where a child has a loop of
its own, the outer loop goes on from the index that the inner loop leaves behind.
A node comes out with the children that were gone through, in that order.
-/

namespace SharedIndex

inductive Rose (L : Type) where
  | node (label : L) (children : List (Rose L))

namespace Rose

variable {L : Type}

mutual

def size : Rose L -> Nat
  | node _ cs => sizes cs + 1

def sizes : List (Rose L) -> Nat
  | [] => 0
  | c :: cs => size c + sizes cs

end

theorem sizes_eq (cs : List (Rose L)) : sizes cs = (cs.map size).sum := by
  induction cs with
  | nil => rfl
  | cons c cs ih => rw [sizes, ih, List.map_cons, List.sum_cons]

theorem size_pos (t : Rose L) : 0 < t.size := by
  cases t with
  | node l cs => exact Nat.succ_pos _

theorem size_lt_of_mem {l : L} {cs : List (Rose L)} {c : Rose L} (h : c ∈ cs) :
    c.size < (node l cs).size := by
  rw [size, sizes_eq]
  exact Nat.lt_succ_of_le (List.single_le_sum (fun _ _ => Nat.zero_le _) _
    (List.mem_map_of_mem h))

theorem induct {P : Rose L -> Prop}
    (h : forall l cs, (forall c, c ∈ cs -> P c) -> P (node l cs)) (t : Rose L) : P t := by
  induction hsize : t.size using Nat.strong_induction_on generalizing t with
  | _ n ih =>
    cases t with
    | node l cs =>
      apply h
      intro c hc
      exact ih c.size (hsize ▸ size_lt_of_mem hc) c rfl

end Rose

open Rose

/-!
# The order of the children

Children are numbered from one.
-/

/-- The positions from `p` on, until one lies behind `n`. -/
inductive Path (next : Nat -> Nat) (n : Nat) : Nat -> List Nat -> Nat -> Prop where
  | done {p : Nat} (h : n < p) : Path next n p [] p
  | step {p q : Nat} {ps : List Nat} (hp : p ≤ n) (rest : Path next n (next p) ps q) :
      Path next n p (p :: ps) q

def advance (marks : Nat -> Option Nat) (p : Nat) : Nat :=
  if p = 1 then 2 else (marks p).getD p + 1

def lastMark (marks : Nat -> Option Nat) : List Nat -> Option Nat
  | [] => none
  | p :: ps => (lastMark marks ps).or (marks p)

def child (l : L) (cs : List (Rose L)) (p : Nat) : Rose L :=
  cs.getD (p - 1) (node l [])

section Shows

variable {L : Type} (loops : L -> Bool)

/-- The positions gone through at a node, and the index left behind. -/
inductive Order (l : L) (marks : Nat -> Option Nat) (n : Nat) :
    List Nat -> Option Nat -> Prop where
  | straight (h : loops l = false) :
      Order l marks n (List.range' 1 n) (lastMark marks (List.range' 1 n))
  | loop {ps : List Nat} {q : Nat} (h : loops l = true)
      (path : Path (advance marks) n 1 ps q) : Order l marks n ps (some q)

/-- What comes out of a tree, with the index left behind if there was a loop. -/
inductive Shows : Rose L -> Rose L -> Option Nat -> Prop where
  | node {l : L} {cs : List (Rose L)} {ps : List Nat} {mark : Option Nat}
      (marks : Nat -> Option Nat) (shown : Nat -> Rose L)
      (order : Order loops l marks cs.length ps mark)
      (shows : forall p, p ∈ ps -> Shows (child l cs p) (shown p) (marks p)) :
      Shows (.node l cs) (.node l (ps.map shown)) mark

end Shows

/-!
# Paths
-/

section Path

variable {next : Nat -> Nat} {n p q : Nat} {ps : List Nat}

theorem Path.unique {qs : List Nat} {q' : Nat} (h : Path next n p ps q)
    (h' : Path next n p qs q') : ps = qs ∧ q = q' := by
  induction h generalizing qs with
  | done hp =>
    cases h' with
    | done _ => exact ⟨rfl, rfl⟩
    | step hp' _ => exact absurd hp' (Nat.not_le_of_lt hp)
  | step hp _ ih =>
    cases h' with
    | done hp' => exact absurd hp (Nat.not_le_of_lt hp')
    | step _ rest' =>
      rcases ih rest' with ⟨rfl, rfl⟩
      exact ⟨rfl, rfl⟩

theorem Path.congr {next' : Nat -> Nat} (h : Path next n p ps q)
    (hnext : forall x, x ∈ ps -> next x = next' x) : Path next' n p ps q := by
  induction h with
  | done hp => exact .done hp
  | @step p q ps hp rest ih =>
    refine .step hp ?_
    rw [← hnext p (List.mem_cons_self ..)]
    exact ih (fun x hx => hnext x (List.mem_cons_of_mem _ hx))

theorem Path.le (h : Path next n p ps q) : forall x, x ∈ ps -> x ≤ n := by
  induction h with
  | done _ => simp
  | step hp _ ih =>
    intro x hx
    rcases List.mem_cons.mp hx with rfl | hmem
    · exact hp
    · exact ih x hmem

theorem Path.ge {b : Nat} (h : Path next n p ps q) (hp : b ≤ p)
    (hnext : forall x, b ≤ next x) : forall x, x ∈ ps -> b ≤ x := by
  induction h with
  | done _ => simp
  | @step p q ps _ rest ih =>
    intro x hx
    rcases List.mem_cons.mp hx with rfl | hmem
    · exact hp
    · exact ih (hnext p) x hmem

theorem Path.end_gt (h : Path next n p ps q) : n < q := by
  induction h with
  | done hp => exact hp
  | step _ _ ih => exact ih

theorem Path.of_mem (h : Path next n p ps q) {x : Nat} (hx : x ∈ ps) :
    exists qs, Path next n x qs q ∧ qs <:+ ps := by
  induction h with
  | done _ => cases hx
  | @step p q ps hp rest ih =>
    rcases List.mem_cons.mp hx with rfl | hmem
    · exact ⟨x :: ps, .step hp rest, List.suffix_rfl⟩
    · rcases ih hmem with ⟨qs, hpath, hsuffix⟩
      exact ⟨qs, hpath, hsuffix.trans (List.suffix_cons p ps)⟩

theorem Path.nodup (h : Path next n p ps q) : ps.Nodup := by
  induction h with
  | done _ => exact List.nodup_nil
  | @step p q ps hp rest ih =>
    rw [List.nodup_cons]
    refine ⟨?_, ih⟩
    intro hmem
    rcases rest.of_mem hmem with ⟨qs, hpath, hsuffix⟩
    have heq : qs = p :: ps := (hpath.unique (.step hp rest)).left
    have hlength := hsuffix.length_le
    rw [heq, List.length_cons] at hlength
    exact absurd hlength (Nat.not_succ_le_self _)

theorem Path.next_eq (h : Path next n p ps q) {i a b : Nat} (ha : ps[i]? = some a)
    (hb : ps[i + 1]? = some b) : next a = b := by
  induction h generalizing i with
  | done _ => cases ha
  | @step p q ps hp rest ih =>
    cases i with
    | succ i => exact ih ha hb
    | zero =>
      rw [List.getElem?_cons_zero, Option.some.injEq] at ha
      rw [List.getElem?_cons_succ] at hb
      cases rest with
      | done _ => cases hb
      | step _ _ =>
        rw [List.getElem?_cons_zero, Option.some.injEq] at hb
        rw [← ha, hb]

theorem Path.next_last (h : Path next n p ps q) {a : Nat} (ha : ps.getLast? = some a) :
    next a = q := by
  induction h with
  | done _ => cases ha
  | @step p q ps hp rest ih =>
    cases ps with
    | nil =>
      cases rest
      rw [List.getLast?_singleton, Option.some.injEq] at ha
      rw [ha]
    | cons b ps =>
      rw [List.getLast?_cons_cons] at ha
      exact ih ha

theorem path_range' (hp : p ≤ n + 1)
    (hnext : forall x, p ≤ x -> x ≤ n -> min (next x) (n + 1) = x + 1) :
    Path next n p (List.range' p (n + 1 - p)) (if p ≤ n then next n else p) := by
  induction hk : n + 1 - p generalizing p with
  | zero =>
    rw [List.range'_zero, if_neg (by omega)]
    exact .done (by omega)
  | succ k ih =>
    have hle : p ≤ n := by omega
    have hsucc := hnext p (Nat.le_refl p) hle
    rw [List.range'_succ, if_pos hle]
    refine .step hle ?_
    rcases Nat.lt_or_eq_of_le hle with hlt | rfl
    · have heq : next p = p + 1 := by omega
      rw [heq]
      have hrest := ih (p := p + 1) (by omega) (fun x hx => hnext x (by omega)) (by omega)
      rwa [if_pos (show p + 1 ≤ n from hlt)] at hrest
    · have hk0 : k = 0 := by omega
      rw [hk0, List.range'_zero]
      exact .done (by omega)

end Path

/-!
# Trees that keep their order
-/

def Stays (n p : Nat) (mark : Option Nat) : Prop :=
  forall x, mark = some x -> min x n = p

instance (n p : Nat) (mark : Option Nat) : Decidable (Stays n p mark) :=
  match mark with
  | none => .isTrue (by simp [Stays])
  | some x => decidable_of_iff (min x n = p) (by simp [Stays])

def markOf (marks : List (Option Nat)) (p : Nat) : Option Nat :=
  marks.getD (p - 1) none

section InOrder

variable {L : Type} (loops : L -> Bool)

mutual

def exit : Rose L -> Option Nat
  | .node l cs =>
    if loops l then
      some (if cs.length = 0 then 1 else advance (markOf (exits cs)) cs.length)
    else lastMark (markOf (exits cs)) (List.range' 1 cs.length)

def exits : List (Rose L) -> List (Option Nat)
  | [] => []
  | c :: cs => exit c :: exits cs

end

mutual

def InOrder : Rose L -> Prop
  | .node l cs =>
    (loops l = true -> forall p, p ≤ cs.length -> 2 ≤ p ->
      Stays cs.length p (markOf (exits loops cs) p)) ∧ AllInOrder cs

def AllInOrder : List (Rose L) -> Prop
  | [] => True
  | c :: cs => InOrder c ∧ AllInOrder cs

end

variable {loops : L -> Bool}

theorem exits_eq (cs : List (Rose L)) : exits loops cs = cs.map (exit loops) := by
  induction cs with
  | nil => rfl
  | cons c cs ih => rw [exits, ih, List.map_cons]

theorem allInOrder_iff {cs : List (Rose L)} :
    AllInOrder loops cs <-> forall c, c ∈ cs -> InOrder loops c := by
  induction cs with
  | nil => simp [AllInOrder]
  | cons c cs ih => simp [AllInOrder, ih]

theorem child_mem {l : L} {cs : List (Rose L)} {p : Nat} (h1 : 1 ≤ p)
    (hn : p ≤ cs.length) : child l cs p ∈ cs := by
  rw [child, List.getD_eq_getElem _ _ (show p - 1 < cs.length by omega)]
  exact List.getElem_mem _

theorem markOf_exits {l : L} {cs : List (Rose L)} {p : Nat} (h1 : 1 ≤ p) (hn : p ≤ cs.length) :
    markOf (exits loops cs) p = exit loops (child l cs p) := by
  have hlt : p - 1 < cs.length := by omega
  rw [markOf, child, exits_eq, List.getD_eq_getElem _ _ (by rwa [List.length_map]),
    List.getElem_map, List.getD_eq_getElem _ _ hlt]

theorem map_child (l : L) (cs : List (Rose L)) :
    (List.range' 1 cs.length).map (child l cs) = cs := by
  apply List.ext_getElem
  · simp
  · intro i hi hi'
    rw [List.getElem_map, List.getElem_range', child,
      show 1 + 1 * i - 1 = i by omega, List.getD_eq_getElem _ _ hi']

theorem lastMark_congr {marks marks' : Nat -> Option Nat} {ps : List Nat}
    (h : forall p, p ∈ ps -> marks p = marks' p) :
    lastMark marks ps = lastMark marks' ps := by
  induction ps with
  | nil => rfl
  | cons p ps ih =>
    rw [lastMark, lastMark, ih (fun x hx => h x (List.mem_cons_of_mem _ hx)),
      h p (List.mem_cons_self ..)]

theorem advance_congr {marks marks' : Nat -> Option Nat} {p : Nat}
    (h : marks p = marks' p) : advance marks p = advance marks' p := by
  rw [advance, advance, h]

theorem one_le_advance {marks : Nat -> Option Nat} {p : Nat} : 1 ≤ advance marks p := by
  rw [advance]
  split
  · exact Nat.le_succ 1
  · exact Nat.le_add_left 1 _

theorem min_advance {marks : Nat -> Option Nat} {n p : Nat} (h1 : 1 ≤ p) (hn : p ≤ n)
    (h : 2 ≤ p -> Stays n p (marks p)) : min (advance marks p) (n + 1) = p + 1 := by
  rw [advance]
  split
  next heq => omega
  next hne =>
    have hstays := h (by omega)
    rw [Stays] at hstays
    cases hmark : marks p with
    | none => simp; omega
    | some x =>
      have hmin := hstays x hmark
      simp
      omega

theorem order_in_order {l : L} {marks : Nat -> Option Nat} {n : Nat}
    (h : loops l = true -> forall p, p ≤ n -> 2 ≤ p -> Stays n p (marks p)) :
    Order loops l marks n (List.range' 1 n)
      (if loops l then some (if n = 0 then 1 else advance marks n)
        else lastMark marks (List.range' 1 n)) := by
  split
  next hloop =>
    refine .loop hloop ?_
    have hpath := @path_range' (advance marks) n 1 (by omega)
      (fun x h1 hn => min_advance h1 hn (h hloop x hn))
    rw [Nat.add_sub_cancel] at hpath
    convert hpath using 1
    split
    next hzero => rw [if_neg (by omega)]
    next hpos => rw [if_pos (by omega)]
  next hstraight => exact .straight (by simpa using hstraight)

theorem Order.unique {l : L} {marks marks' : Nat -> Option Nat} {n : Nat}
    {ps qs : List Nat} {mark mark' : Option Nat} (h : Order loops l marks n ps mark)
    (h' : Order loops l marks' n qs mark')
    (hmarks : forall p, p ∈ ps -> marks p = marks' p) : ps = qs ∧ mark = mark' := by
  cases h with
  | straight hl =>
    cases h' with
    | straight _ => exact ⟨rfl, lastMark_congr hmarks⟩
    | loop hl' _ => rw [hl] at hl'; cases hl'
  | loop hl path =>
    cases h' with
    | straight hl' => rw [hl] at hl'; cases hl'
    | loop _ path' =>
      have hcongr := path.congr (fun x hx => advance_congr (hmarks x hx))
      rcases hcongr.unique path' with ⟨rfl, rfl⟩
      exact ⟨rfl, rfl⟩

theorem Order.mem {l : L} {marks : Nat -> Option Nat} {n : Nat} {ps : List Nat}
    {mark : Option Nat} (h : Order loops l marks n ps mark) {p : Nat} (hp : p ∈ ps) :
    1 ≤ p ∧ p ≤ n := by
  cases h with
  | straight _ =>
    rcases List.mem_range'_1.mp hp with ⟨h1, hlt⟩
    exact ⟨h1, by omega⟩
  | loop _ path => exact ⟨path.ge (Nat.le_refl 1) (fun _ => one_le_advance) p hp, path.le p hp⟩

theorem Order.nodup {l : L} {marks : Nat -> Option Nat} {n : Nat} {ps : List Nat}
    {mark : Option Nat} (h : Order loops l marks n ps mark) : ps.Nodup := by
  cases h with
  | straight _ => exact List.nodup_range'
  | loop _ path => exact path.nodup

theorem InOrder.shows {t : Rose L} (h : InOrder loops t) :
    Shows loops t t (exit loops t) := by
  induction t using Rose.induct with
  | _ l cs ih =>
    rw [InOrder, allInOrder_iff] at h
    have hchildren : forall p, p ∈ List.range' 1 cs.length ->
        Shows loops (child l cs p) (child l cs p) (markOf (exits loops cs) p) := by
      intro p hp
      rcases List.mem_range'_1.mp hp with ⟨h1, hlt⟩
      have hmem : child l cs p ∈ cs := child_mem h1 (by omega)
      rw [markOf_exits (l := l) h1 (by omega)]
      exact ih _ hmem (h.right _ hmem)
    have hnode := Shows.node _ _ (order_in_order h.left) hchildren
    rw [map_child] at hnode
    rwa [exit]

theorem Shows.eq_of_inOrder {t t' : Rose L} {mark : Option Nat}
    (hshows : Shows loops t t' mark) (h : InOrder loops t) :
    t' = t ∧ mark = exit loops t := by
  induction hshows with
  | @node l cs ps mark marks shown order _ ih =>
    rw [InOrder, allInOrder_iff] at h
    have hshown : forall p, p ∈ ps ->
        shown p = child l cs p ∧ marks p = markOf (exits loops cs) p := by
      intro p hp
      rcases order.mem hp with ⟨h1, hn⟩
      rcases ih p hp (h.right _ (child_mem h1 hn)) with ⟨heq, hmark⟩
      exact ⟨heq, by rw [hmark, markOf_exits h1 hn]⟩
    rcases order.unique (order_in_order h.left) (fun p hp => (hshown p hp).right)
      with ⟨rfl, hmark⟩
    refine ⟨?_, by rw [hmark, exit]⟩
    rw [List.map_congr_left (fun p hp => (hshown p hp).left), map_child]

end InOrder

/-!
# The weight of the indices in place

In a loop that goes through all its children in another order, the last place that
changes gets a child that holds the loop there.
-/

section Weight

def held (n p : Nat) : Option Nat -> Nat
  | none => 0
  | some x => if min x n = p then 2 ^ p else 0

def weight (n : Nat) (marks : Nat -> Option Nat) : Nat :=
  ∑ p ∈ Finset.Icc 1 n, held n p (marks p)

theorem held_le (n p : Nat) (mark : Option Nat) : held n p mark ≤ 2 ^ p := by
  cases mark with
  | none => exact Nat.zero_le _
  | some x =>
    rw [held]
    split
    · exact Nat.le_refl _
    · exact Nat.zero_le _

theorem sum_lt_pow {f : Nat -> Nat} (hf : forall p, f p ≤ 2 ^ p) (n : Nat) :
    ∑ p ∈ Finset.Icc 1 n, f p < 2 ^ (n + 1) := by
  induction n with
  | zero => simp
  | succ n ih =>
    rw [Finset.sum_Icc_succ_top (Nat.le_add_left 1 n), Nat.pow_succ 2 (n + 1)]
    have hlast := hf (n + 1)
    omega

theorem sum_lt_of_last {f g : Nat -> Nat} {m n : Nat} (hm : 1 ≤ m) (hn : m ≤ n)
    (hf : forall p, f p ≤ 2 ^ p) (hfm : f m = 0) (hgm : g m = 2 ^ m)
    (heq : forall p, m < p -> p ≤ n -> f p = g p) :
    ∑ p ∈ Finset.Icc 1 n, f p < ∑ p ∈ Finset.Icc 1 n, g p := by
  induction n with
  | zero => omega
  | succ n ih =>
    rw [Finset.sum_Icc_succ_top (Nat.le_add_left 1 n),
      Finset.sum_Icc_succ_top (Nat.le_add_left 1 n)]
    rcases Nat.lt_or_eq_of_le hn with hlt | rfl
    · have hrest := ih (by omega) (fun p hp hle => heq p hp (by omega))
      rw [heq (n + 1) hlt (Nat.le_refl _)]
      omega
    · have hrest := sum_lt_pow hf n
      rw [hfm, hgm]
      omega

variable {marks : Nat -> Option Nat} {n q : Nat} {ps : List Nat}

def position (ps : List Nat) (j : Nat) : Nat :=
  ps.getD (j - 1) 0

theorem getElem?_position {j : Nat} (h1 : 1 ≤ j) (hlength : j ≤ ps.length) :
    ps[j - 1]? = some (position ps j) := by
  have hlt : j - 1 < ps.length := by omega
  rw [position, List.getD_eq_getElem _ _ hlt, List.getElem?_eq_getElem hlt]

theorem position_inj (h : ps.Nodup) {i j : Nat} (hi : 1 ≤ i) (hil : i ≤ ps.length)
    (hj : 1 ≤ j) (hjl : j ≤ ps.length) (heq : position ps i = position ps j) : i = j := by
  have hget : ps[i - 1]? = ps[j - 1]? := by
    rw [getElem?_position hi hil, getElem?_position hj hjl, heq]
  have hidx := (List.getElem?_inj (show i - 1 < ps.length by omega) h).mp hget
  omega

theorem exists_position {p : Nat} (h : p ∈ ps) :
    exists j, 1 ≤ j ∧ j ≤ ps.length ∧ position ps j = p := by
  rcases List.mem_iff_getElem.mp h with ⟨i, hi, heq⟩
  refine ⟨i + 1, Nat.le_add_left 1 i, hi, ?_⟩
  rw [position, Nat.add_sub_cancel, List.getD_eq_getElem _ _ hi, heq]

theorem exists_last_change (hlength : ps.length = n) (hne : ps ≠ List.range' 1 n) :
    exists m, 1 ≤ m ∧ m ≤ n ∧ position ps m ≠ m ∧
      forall j, m < j -> j ≤ n -> position ps j = j := by
  classical
  have hchange : exists j, j ≤ n ∧ 1 ≤ j ∧ position ps j ≠ j := by
    by_contra hcontra
    apply hne
    apply List.ext_getElem
    · rw [hlength, List.length_range']
    · intro i hi _
      have hj : position ps (i + 1) = i + 1 := by
        by_contra hchanged
        exact hcontra ⟨i + 1, by omega, by omega, hchanged⟩
      rw [position, Nat.add_sub_cancel, List.getD_eq_getElem _ _ hi] at hj
      rw [hj, List.getElem_range']
      omega
  rcases hchange with ⟨j, hjn, hchanged⟩
  have hm := Nat.findGreatest_spec (P := fun j => 1 ≤ j ∧ position ps j ≠ j) hjn hchanged
  refine ⟨_, hm.left, Nat.findGreatest_le n, hm.right, ?_⟩
  intro j hj hjn
  by_contra hcontra
  exact Nat.findGreatest_is_greatest hj hjn ⟨by omega, hcontra⟩

theorem Path.weight_lt (path : Path (advance marks) n 1 ps q) (hlength : ps.length = n)
    (hall : forall p, 1 ≤ p -> p ≤ n -> p ∈ ps) (hne : ps ≠ List.range' 1 n) :
    weight n marks < weight n (fun j => marks (position ps j)) := by
  have hfirst : 1 ≤ n -> position ps 1 = 1 := by
    intro h1
    cases path with
    | done h => omega
    | step _ _ => rfl
  rcases exists_last_change hlength hne with ⟨m, hm, hmn, hchanged, hafter⟩
  have hm1 : m ≠ 1 := by
    intro heq
    rw [heq] at hchanged
    exact hchanged (hfirst (by omega))
  have hposition : forall j, 1 ≤ j -> j ≤ n -> ps[j - 1]? = some (position ps j) :=
    fun j h1 hjn => getElem?_position h1 (hlength ▸ hjn)
  have hinj : forall i j, 1 ≤ i -> i ≤ n -> 1 ≤ j -> j ≤ n ->
      position ps i = position ps j -> i = j :=
    fun i j hi hin hj hjn => position_inj path.nodup hi (hlength ▸ hin) hj (hlength ▸ hjn)
  have hstep : forall j, 1 ≤ j -> j + 1 ≤ n -> position ps j ≠ 1 ->
      (marks (position ps j)).getD (position ps j) + 1 = position ps (j + 1) := by
    intro j h1 hjn hj
    have hnext := path.next_eq (i := j - 1) (hposition j h1 (by omega))
      (by rw [Nat.sub_add_cancel h1]; exact hposition (j + 1) (by omega) hjn)
    rwa [advance, if_neg hj] at hnext
  have hne1 : position ps m ≠ 1 := by
    intro heq
    apply hm1
    exact hinj m 1 hm hmn (Nat.le_refl 1) (by omega)
      (heq.trans (hfirst (by omega)).symm)
  have hle : position ps m ≤ n :=
    path.le _ (List.mem_of_getElem? (hposition m hm hmn))
  have hgets : held n m (marks (position ps m)) = 2 ^ m := by
    have hmin : min ((marks (position ps m)).getD (position ps m)) n = m := by
      rcases Nat.lt_or_eq_of_le hmn with hlt | heq
      · have hnext := hstep m hm hlt hne1
        rw [hafter (m + 1) (Nat.lt_succ_self m) hlt] at hnext
        omega
      · have hlast : ps.getLast? = some (position ps m) := by
          rw [List.getLast?_eq_getElem?, hlength, ← heq]
          exact hposition m hm hmn
        have hend := path.next_last hlast
        rw [advance, if_neg hne1] at hend
        have hgt := path.end_gt
        omega
    cases hmark : marks (position ps m) with
    | none =>
      rw [hmark, Option.getD_none, Nat.min_eq_left hle] at hmin
      exact absurd hmin hchanged
    | some x =>
      rw [hmark, Option.getD_some] at hmin
      rw [held, if_pos hmin]
  have hlacks : held n m (marks m) = 0 := by
    cases hmark : marks m with
    | none => rfl
    | some x =>
      rw [held, if_neg]
      intro hmin
      -- the loop goes through `m` earlier, and goes on to `m + 1` there
      rcases exists_position (hall m hm hmn) with ⟨j, hj1, hjl, hj⟩
      have hjm : j < m := by
        by_contra hge
        rcases Nat.lt_or_eq_of_le (Nat.le_of_not_lt hge) with hlt | rfl
        · exact absurd ((hafter j hlt (hlength ▸ hjl)).symm.trans hj) (Nat.ne_of_gt hlt)
        · exact hchanged hj
      have hnext := hstep j hj1 (by omega) (by rw [hj]; exact hm1)
      rw [hj, hmark, Option.getD_some] at hnext
      have hbound := path.le _ (List.mem_of_getElem?
        (hposition (j + 1) (by omega) (by omega)))
      have hx : position ps (j + 1) = m + 1 := by omega
      have hm' := hafter (m + 1) (Nat.lt_succ_self m) (by omega)
      have heq := hinj (j + 1) (m + 1) (by omega) (by omega) (by omega) (by omega)
        (hx.trans hm'.symm)
      omega
  exact sum_lt_of_last hm hmn (fun p => held_le n p _) hlacks hgets
    (fun j hj hjn => by simp only [hafter j hj hjn])

theorem Path.stays (path : Path (advance marks) n 1 (List.range' 1 n) q) {p : Nat}
    (hn : p ≤ n) (h2 : 2 ≤ p) : Stays n p (marks p) := by
  have hget : forall i, i < n -> (List.range' 1 n)[i]? = some (i + 1) := by
    intro i hi
    rw [List.getElem?_range' hi]
    congr 1
    omega
  have hp : (List.range' 1 n)[p - 1]? = some p := by
    rw [hget (p - 1) (by omega), Nat.sub_add_cancel (Nat.le_of_succ_le h2)]
  have hmin : min ((marks p).getD p) n = p := by
    rcases Nat.lt_or_eq_of_le hn with hlt | rfl
    · have hnext := path.next_eq hp (by
        rw [Nat.sub_add_cancel (Nat.le_of_succ_le h2)]
        exact hget p hlt)
      rw [advance, if_neg (Nat.ne_of_gt h2)] at hnext
      omega
    · have hlast : (List.range' 1 p).getLast? = some p := by
        rw [List.getLast?_eq_getElem?, List.length_range']
        exact hp
      have hend := path.next_last hlast
      rw [advance, if_neg (Nat.ne_of_gt h2)] at hend
      have hgt := path.end_gt
      omega
  intro x hx
  rwa [hx, Option.getD_some] at hmin

theorem weight_congr {marks' : Nat -> Option Nat}
    (h : forall p, 1 ≤ p -> p ≤ n -> marks p = marks' p) :
    weight n marks = weight n marks' := by
  apply Finset.sum_congr rfl
  intro p hp
  rcases Finset.mem_Icc.mp hp with ⟨h1, hn⟩
  rw [h p h1 hn]

theorem position_range' {j : Nat} (h1 : 1 ≤ j) (hn : j ≤ n) :
    position (List.range' 1 n) j = j := by
  have hlt : j - 1 < n := by omega
  rw [position, List.getD_eq_getElem _ _ (by rwa [List.length_range']),
    List.getElem_range']
  omega

end Weight

/-!
# Trees that come out as they are
-/

section Total

variable {L : Type} (loops : L -> Bool) (d : Nat)

def own (l : L) (cs : List (Rose L)) : Nat :=
  if sizes cs + 1 = d ∧ loops l = true then weight cs.length (markOf (exits loops cs))
  else 0

mutual

def total : Rose L -> Nat
  | .node l cs => own loops d l cs + totals cs

def totals : List (Rose L) -> Nat
  | [] => 0
  | c :: cs => total c + totals cs

end

mutual

/-- The loops at the nodes of less than `d` nodes keep their order. -/
def OrderedBelow : Rose L -> Prop
  | .node l cs =>
    (sizes cs + 1 < d -> loops l = true -> forall p, p ≤ cs.length -> 2 ≤ p ->
      Stays cs.length p (markOf (exits loops cs) p)) ∧ AllOrderedBelow cs

def AllOrderedBelow : List (Rose L) -> Prop
  | [] => True
  | c :: cs => OrderedBelow c ∧ AllOrderedBelow cs

end

variable {loops : L -> Bool} {d : Nat}

theorem totals_eq (cs : List (Rose L)) : totals loops d cs = (cs.map (total loops d)).sum := by
  induction cs with
  | nil => rfl
  | cons c cs ih => rw [totals, ih, List.map_cons, List.sum_cons]

theorem allOrderedBelow_iff {cs : List (Rose L)} :
    AllOrderedBelow loops d cs <-> forall c, c ∈ cs -> OrderedBelow loops d c := by
  induction cs with
  | nil => simp [AllOrderedBelow]
  | cons c cs ih => simp [AllOrderedBelow, ih]

theorem orderedBelow_zero (t : Rose L) : OrderedBelow loops 0 t := by
  induction t using Rose.induct with
  | _ l cs ih =>
    rw [OrderedBelow, allOrderedBelow_iff]
    exact ⟨fun h => absurd h (Nat.not_lt_zero _), ih⟩

theorem OrderedBelow.inOrder {t : Rose L} (h : OrderedBelow loops d t)
    (hsize : t.size < d) : InOrder loops t := by
  induction t using Rose.induct with
  | _ l cs ih =>
    rw [OrderedBelow, allOrderedBelow_iff] at h
    rw [InOrder, allInOrder_iff]
    exact ⟨h.left hsize, fun c hc =>
      ih c hc (h.right c hc) ((size_lt_of_mem hc).trans hsize)⟩

theorem sum_child (l : L) (cs : List (Rose L)) (f : Rose L -> Nat) :
    (cs.map f).sum = ∑ p ∈ Finset.Icc 1 cs.length, f (child l cs p) := by
  have hmap := map_child l cs
  have hfin : (List.range' 1 cs.length).toFinset = Finset.Icc 1 cs.length := by
    ext p
    simp [List.mem_range'_1]
    omega
  rw [← hfin, List.sum_toFinset _ List.nodup_range']
  conv_lhs => rw [← hmap]
  rw [List.map_map]
  rfl

theorem Order.subset {l : L} {marks : Nat -> Option Nat} {n : Nat} {ps : List Nat}
    {mark : Option Nat} (h : Order loops l marks n ps mark) :
    ps.toFinset ⊆ Finset.Icc 1 n := by
  intro p hp
  rw [Finset.mem_Icc]
  exact h.mem (List.mem_toFinset.mp hp)

theorem sum_shown {l : L} {marks : Nat -> Option Nat} {n : Nat} {ps : List Nat}
    {mark : Option Nat} (h : Order loops l marks n ps mark) (shown : Nat -> Rose L)
    (f : Rose L -> Nat) :
    ((ps.map shown).map f).sum = ∑ p ∈ ps.toFinset, f (shown p) := by
  rw [List.sum_toFinset _ h.nodup, List.map_map]
  rfl

theorem Shows.size_le {t t' : Rose L} {mark : Option Nat} (h : Shows loops t t' mark) :
    t'.size ≤ t.size := by
  induction h with
  | @node l cs ps mark marks shown order _ ih =>
    rw [size, size, sizes_eq, sizes_eq, sum_shown order, sum_child l]
    apply Nat.succ_le_succ
    exact (Finset.sum_le_sum (fun p hp => ih p (List.mem_toFinset.mp hp))).trans
      (Finset.sum_le_sum_of_subset order.subset)

theorem Order.complete {l : L} {cs : List (Rose L)} {marks : Nat -> Option Nat}
    {ps : List Nat} {mark : Option Nat} (h : Order loops l marks cs.length ps mark)
    {shown : Nat -> Rose L} (hle : forall p, p ∈ ps -> (shown p).size ≤ (child l cs p).size)
    (hsize : (Rose.node l (ps.map shown)).size = (Rose.node l cs).size) :
    ps.toFinset = Finset.Icc 1 cs.length ∧
      forall p, p ∈ ps -> (shown p).size = (child l cs p).size := by
  rw [size, size, sizes_eq, sizes_eq, sum_shown h, sum_child l, Nat.succ.injEq] at hsize
  have hshown : ∑ p ∈ ps.toFinset, (shown p).size ≤
      ∑ p ∈ ps.toFinset, (child l cs p).size :=
    Finset.sum_le_sum (fun p hp => hle p (List.mem_toFinset.mp hp))
  have hsubset : ∑ p ∈ ps.toFinset, (child l cs p).size ≤
      ∑ p ∈ Finset.Icc 1 cs.length, (child l cs p).size :=
    Finset.sum_le_sum_of_subset h.subset
  constructor
  · apply Finset.Subset.antisymm h.subset
    intro p hp
    by_contra hnot
    have hlt := Finset.sum_lt_sum_of_subset (f := fun p => (child l cs p).size) h.subset
      hp hnot (size_pos _) (fun _ _ _ => Nat.zero_le _)
    omega
  · intro p hp
    have heq : ∑ p ∈ ps.toFinset, (shown p).size =
        ∑ p ∈ ps.toFinset, (child l cs p).size := by omega
    exact (Finset.sum_eq_sum_iff_of_le
      (fun p hp => hle p (List.mem_toFinset.mp hp))).mp heq p (List.mem_toFinset.mpr hp)

theorem weight_le {l : L} {cs : List (Rose L)} {marks : Nat -> Option Nat}
    {ps : List Nat} {q : Nat} {shown : Nat -> Rose L} (path : Path (advance marks) cs.length 1 ps q)
    (hall : ps.toFinset = Finset.Icc 1 cs.length) (hshown : forall p, p ∈ ps ->
      shown p = child l cs p ∧ marks p = markOf (exits loops cs) p) :
    weight cs.length (markOf (exits loops cs)) ≤
        weight (ps.map shown).length (markOf (exits loops (ps.map shown))) ∧
      (weight (ps.map shown).length (markOf (exits loops (ps.map shown))) =
          weight cs.length (markOf (exits loops cs)) -> forall p, p ≤ cs.length -> 2 ≤ p ->
          Stays cs.length p (markOf (exits loops cs) p)) := by
  have hmem : forall p, 1 ≤ p -> p ≤ cs.length -> p ∈ ps := by
    intro p h1 hn
    rw [← List.mem_toFinset, hall, Finset.mem_Icc]
    exact ⟨h1, hn⟩
  have hlength : ps.length = cs.length := by
    rw [← List.toFinset_card_of_nodup path.nodup, hall, Nat.card_Icc, Nat.add_sub_cancel]
  have hpath : Path (advance (markOf (exits loops cs))) cs.length 1 ps q :=
    path.congr (fun p hp => advance_congr (hshown p hp).right)
  have hafter : weight (ps.map shown).length (markOf (exits loops (ps.map shown))) =
      weight cs.length (fun j => markOf (exits loops cs) (position ps j)) := by
    rw [List.length_map, hlength]
    apply weight_congr
    intro j h1 hn
    have hj : j ≤ ps.length := by rwa [hlength]
    have hget := getElem?_position h1 hj
    have hp : position ps j ∈ ps := List.mem_of_getElem? hget
    have hchild : child l (ps.map shown) j = shown (position ps j) := by
      rw [child, List.getD_eq_getElem?_getD, List.getElem?_map, hget]
      rfl
    rcases Finset.mem_Icc.mp (hall ▸ List.mem_toFinset.mpr hp) with ⟨hp1, hpn⟩
    rw [markOf_exits (l := l) h1 (by rwa [List.length_map]), hchild,
      (hshown _ hp).left, markOf_exits hp1 hpn]
  rw [hafter]
  by_cases hsame : ps = List.range' 1 cs.length
  · subst hsame
    exact ⟨Nat.le_of_eq (weight_congr (fun p h1 hn => by rw [position_range' h1 hn])),
      fun _ p hn h2 => hpath.stays hn h2⟩
  · have hlt := hpath.weight_lt hlength hmem hsame
    exact ⟨Nat.le_of_lt hlt, fun heq => absurd heq (Nat.ne_of_gt hlt)⟩

theorem Shows.own_le {l : L} {cs : List (Rose L)} {marks : Nat -> Option Nat}
    {ps : List Nat} {mark : Option Nat} {shown : Nat -> Rose L}
    (order : Order loops l marks cs.length ps mark)
    (shows : forall p, p ∈ ps -> Shows loops (child l cs p) (shown p) (marks p))
    (hall : ps.toFinset = Finset.Icc 1 cs.length) (hsizes : sizes (ps.map shown) = sizes cs)
    (hbelow : forall c, c ∈ cs -> OrderedBelow loops d c) :
    own loops d l cs ≤ own loops d l (ps.map shown) ∧
      (own loops d l (ps.map shown) = own loops d l cs ->
        sizes cs + 1 = d -> loops l = true -> forall p, p ≤ cs.length -> 2 ≤ p ->
          Stays cs.length p (markOf (exits loops cs) p)) := by
  rw [own, own, hsizes]
  split
  next hnode =>
    have hshown : forall p, p ∈ ps ->
        shown p = child l cs p ∧ marks p = markOf (exits loops cs) p := by
      intro p hp
      rcases order.mem hp with ⟨h1, hn⟩
      have hmem : child l cs p ∈ cs := child_mem h1 hn
      have hordered : InOrder loops (child l cs p) :=
        (hbelow _ hmem).inOrder (hnode.left ▸ size_lt_of_mem (l := l) hmem)
      rcases (shows p hp).eq_of_inOrder hordered with ⟨heq, hmark⟩
      exact ⟨heq, by rw [hmark, markOf_exits h1 hn]⟩
    cases order with
    | straight hl => rw [hnode.right] at hl; cases hl
    | loop _ path =>
      rcases weight_le path hall hshown with ⟨hle, heq⟩
      exact ⟨hle, fun hw _ _ => heq hw⟩
  next hnode => exact ⟨Nat.le_refl 0, fun _ hd hl => absurd ⟨hd, hl⟩ hnode⟩

theorem Shows.total_le {t t' : Rose L} {mark : Option Nat} (h : Shows loops t t' mark)
    (hbelow : OrderedBelow loops d t) (hsize : t'.size = t.size) :
    total loops d t ≤ total loops d t' ∧
      (total loops d t' = total loops d t -> OrderedBelow loops (d + 1) t) := by
  induction h with
  | @node l cs ps mark marks shown order shows ih =>
    rcases order.complete (fun p hp => (shows p hp).size_le) hsize with ⟨hall, hsizes⟩
    rw [OrderedBelow, allOrderedBelow_iff] at hbelow
    have hchildren : forall p, p ∈ ps ->
        total loops d (child l cs p) ≤ total loops d (shown p) ∧
          (total loops d (shown p) = total loops d (child l cs p) ->
            OrderedBelow loops (d + 1) (child l cs p)) := by
      intro p hp
      rcases order.mem hp with ⟨h1, hn⟩
      exact ih p hp (hbelow.right _ (child_mem h1 hn)) (hsizes p hp)
    have hle : forall p, p ∈ ps.toFinset ->
        total loops d (child l cs p) ≤ total loops d (shown p) :=
      fun p hp => (hchildren p (List.mem_toFinset.mp hp)).left
    have hsum := Finset.sum_le_sum hle
    have hown := Shows.own_le order shows hall (Nat.succ.inj hsize) hbelow.right
    rw [total, total, totals_eq, totals_eq, sum_shown order, sum_child l, ← hall]
    refine ⟨Nat.add_le_add hown.left hsum, ?_⟩
    intro htotal
    have hsums : ∑ p ∈ ps.toFinset, total loops d (child l cs p) =
        ∑ p ∈ ps.toFinset, total loops d (shown p) := by omega
    have heach := (Finset.sum_eq_sum_iff_of_le hle).mp hsums
    rw [OrderedBelow, allOrderedBelow_iff]
    constructor
    · intro hlt
      rcases Nat.lt_or_eq_of_le (Nat.le_of_lt_succ hlt) with hless | heq
      · exact hbelow.left hless
      · exact hown.right (by omega) heq
    · intro c hc
      rw [← map_child l cs] at hc
      rcases List.mem_map.mp hc with ⟨p, hp, rfl⟩
      have hmem : p ∈ ps := by
        rw [← List.mem_toFinset, hall, Finset.mem_Icc]
        rcases List.mem_range'_1.mp hp with ⟨h1, hlt⟩
        exact ⟨h1, by omega⟩
      exact (hchildren p hmem).right (heach p (List.mem_toFinset.mpr hmem)).symm

theorem Shows.inOrder {t : Rose L} {mark : Option Nat} (h : Shows loops t t mark) :
    InOrder loops t := by
  have hbelow : forall d, OrderedBelow loops d t := by
    intro d
    induction d with
    | zero => exact orderedBelow_zero t
    | succ d ih => exact (h.total_le ih rfl).right rfl
  exact (hbelow (t.size + 1)).inOrder (Nat.lt_succ_self _)

end Total

/-!
# Step by step
-/

theorem Path.unique_of_agree {next next' : Nat -> Nat} {n p q q' : Nat}
    {ps qs : List Nat} (h : Path next n p ps q) (h' : Path next' n p qs q')
    (hagree : forall x, x ∈ ps -> x ∈ qs -> next x = next' x) : ps = qs ∧ q = q' := by
  induction h generalizing qs with
  | done hp =>
    cases h' with
    | done _ => exact ⟨rfl, rfl⟩
    | step hp' _ => exact absurd hp' (Nat.not_le_of_lt hp)
  | @step p q ps hp _ ih =>
    cases h' with
    | done hp' => exact absurd hp (Nat.not_le_of_lt hp')
    | @step _ _ qs _ rest' =>
      have hnext := hagree p (List.mem_cons_self ..) (List.mem_cons_self ..)
      rw [← hnext] at rest'
      rcases ih rest' (fun x hx hx' =>
        hagree x (List.mem_cons_of_mem _ hx) (List.mem_cons_of_mem _ hx')) with ⟨rfl, rfl⟩
      exact ⟨rfl, rfl⟩

section Steps

variable {L : Type} {loops : L -> Bool}

theorem Shows.unique {t u v : Rose L} {mark mark' : Option Nat}
    (h : Shows loops t u mark) (h' : Shows loops t v mark') : u = v ∧ mark = mark' := by
  induction h generalizing v mark' with
  | @node l cs ps mark marks shown order shows ih =>
    cases h' with
    | @node _ _ qs _ marks' shown' order' shows' =>
      have hagree : forall p, p ∈ ps -> p ∈ qs ->
          shown p = shown' p ∧ marks p = marks' p :=
        fun p hp hq => ih p hp (shows' p hq)
      have hps : ps = qs := by
        cases order with
        | straight hl =>
          cases order' with
          | straight _ => rfl
          | loop hl' _ => rw [hl] at hl'; cases hl'
        | loop hl path =>
          cases order' with
          | straight hl' => rw [hl] at hl'; cases hl'
          | loop _ path' =>
            exact (path.unique_of_agree path' (fun p hp hq =>
              advance_congr (hagree p hp hq).right)).left
      subst hps
      rcases order.unique order' (fun p hp => (hagree p hp hp).right) with ⟨_, hmark⟩
      refine ⟨?_, hmark⟩
      rw [List.map_congr_left (fun p hp => (hagree p hp hp).left)]

inductive Walk (loops : L -> Bool) (l : L) (cs : List (Rose L)) :
    Nat -> List (Rose L) -> Nat -> Prop where
  | done {p : Nat} (h : cs.length < p) : Walk loops l cs p [] p
  | step {p q : Nat} {c : Rose L} {out : List (Rose L)} {mark : Option Nat}
      (hp : p ≤ cs.length) (shows : Shows loops (child l cs p) c mark)
      (rest : Walk loops l cs (advance (fun _ => mark) p) out q) :
      Walk loops l cs p (c :: out) q

theorem Walk.path {l : L} {cs : List (Rose L)} {p q : Nat} {out : List (Rose L)}
    (h : Walk loops l cs p out q) {marks : Nat -> Option Nat} {shown : Nat -> Rose L}
    (hmarks : forall p c mark, Shows loops (child l cs p) c mark -> shown p = c ∧ marks p = mark) :
    exists ps, Path (advance marks) cs.length p ps q ∧ out = ps.map shown ∧
      forall p, p ∈ ps -> Shows loops (child l cs p) (shown p) (marks p) := by
  induction h with
  | done h => exact ⟨[], .done h, rfl, by simp⟩
  | @step p q c out mark hp shows _ ih =>
    rcases ih with ⟨ps, path, hout, hshows⟩
    rcases hmarks p c mark shows with ⟨hshown, hmark⟩
    have hnext : advance (fun _ => mark) p = advance marks p :=
      advance_congr hmark.symm
    refine ⟨p :: ps, .step hp (hnext ▸ path), by rw [List.map_cons, hshown, hout], ?_⟩
    intro x hx
    rcases List.mem_cons.mp hx with rfl | hmem
    · rw [hshown, hmark]
      exact shows
    · exact hshows x hmem

theorem Walk.shows {l : L} {cs : List (Rose L)} {q : Nat} {out : List (Rose L)}
    (hl : loops l = true) (h : Walk loops l cs 1 out q) :
    Shows loops (.node l cs) (.node l out) (some q) := by
  classical
  let found : Nat -> Rose L × Option Nat := fun p =>
    if hp : exists o : Rose L × Option Nat, Shows loops (child l cs p) o.1 o.2 then
      hp.choose
    else (.node l [], none)
  have hfound : forall p c mark, Shows loops (child l cs p) c mark ->
      (found p).1 = c ∧ (found p).2 = mark := by
    intro p c mark hshows
    have hex : exists o : Rose L × Option Nat, Shows loops (child l cs p) o.1 o.2 :=
      ⟨(c, mark), hshows⟩
    have heq : found p = hex.choose := dif_pos hex
    rw [heq]
    exact hex.choose_spec.unique hshows
  rcases h.path hfound with ⟨ps, path, rfl, hshows⟩
  exact .node _ _ (.loop hl path) hshows

def lastSome : List (Option Nat) -> Option Nat
  | [] => none
  | mark :: marks => (lastSome marks).or mark

theorem lastMark_range' (marks : List (Option Nat)) :
    lastMark (markOf marks) (List.range' 1 marks.length) = lastSome marks := by
  have hgen : forall (suffix : List (Option Nat)) (k : Nat), marks.drop k = suffix ->
      lastMark (markOf marks) (List.range' (k + 1) suffix.length) = lastSome suffix := by
    intro suffix
    induction suffix with
    | nil => intro _ _; rfl
    | cons mark suffix ih =>
      intro k hdrop
      have hget : marks[k]? = some mark := by
        rw [← List.head?_drop, hdrop, List.head?_cons]
      have hnext : marks.drop (k + 1) = suffix := by
        rw [← List.tail_drop, hdrop, List.tail_cons]
      have hmark : markOf marks (k + 1) = mark := by
        rw [markOf, Nat.add_sub_cancel, List.getD_eq_getElem?_getD, hget, Option.getD_some]
      rw [List.length_cons, List.range'_succ, lastMark, lastSome, ih (k + 1) hnext, hmark]
  exact hgen marks 0 rfl

theorem shows_straight {l : L} (hl : loops l = false) {cs : List (Rose L)}
    {outs : List (Rose L × Option Nat)}
    (h : List.Forall₂ (fun c o => Shows loops c o.1 o.2) cs outs) :
    Shows loops (.node l cs) (.node l (outs.map Prod.fst)) (lastSome (outs.map Prod.snd)) := by
  have hlength := h.length_eq
  have hshows : forall p, p ∈ List.range' 1 cs.length ->
      Shows loops (child l cs p) (child l (outs.map Prod.fst) p)
        (markOf (outs.map Prod.snd) p) := by
    intro p hp
    rcases List.mem_range'_1.mp hp with ⟨h1, hlt⟩
    have hc : p - 1 < cs.length := by omega
    have ho : p - 1 < outs.length := by omega
    have hget := h.get hc ho
    rw [child, child, markOf, List.getD_eq_getElem _ _ hc,
      List.getD_eq_getElem _ _ (by rwa [List.length_map]),
      List.getD_eq_getElem _ _ (by rwa [List.length_map]), List.getElem_map, List.getElem_map]
    exact hget
  have hnode := Shows.node _ _ (@Order.straight L loops l
    (markOf (outs.map Prod.snd)) cs.length hl) hshows
  have hmark := lastMark_range' (outs.map Prod.snd)
  have hmap := map_child l (outs.map Prod.fst)
  rw [List.length_map, ← hlength] at hmark hmap
  rwa [hmap, hmark] at hnode

end Steps

/-!
# Other labels
-/

namespace Rose

variable {L M : Type}

mutual

def map (f : L -> M) : Rose L -> Rose M
  | node l cs => node (f l) (mapAll f cs)

def mapAll (f : L -> M) : List (Rose L) -> List (Rose M)
  | [] => []
  | c :: cs => map f c :: mapAll f cs

end

theorem mapAll_eq (f : L -> M) (cs : List (Rose L)) : mapAll f cs = cs.map (map f) := by
  induction cs with
  | nil => rfl
  | cons c cs ih => rw [mapAll, ih, List.map_cons]

theorem map_node (f : L -> M) (l : L) (cs : List (Rose L)) :
    (node l cs).map f = node (f l) (cs.map (map f)) := by
  rw [map, mapAll_eq]

end Rose

section Map

variable {L M : Type} {loops : L -> Bool} {loops' : M -> Bool} {f : L -> M}

theorem child_map (l : L) (cs : List (Rose L)) (p : Nat) :
    child (f l) (cs.map (Rose.map f)) p = (child l cs p).map f := by
  rw [child, child, List.getD_eq_getElem?_getD, List.getD_eq_getElem?_getD,
    List.getElem?_map]
  cases cs[p - 1]? with
  | none => rw [Option.map_none, Option.getD_none, Option.getD_none, Rose.map_node]; rfl
  | some c => rfl

theorem Shows.map (hf : forall l, loops' (f l) = loops l) {t t' : Rose L}
    {mark : Option Nat} (h : Shows loops t t' mark) :
    Shows loops' (t.map f) (t'.map f) mark := by
  induction h with
  | @node l cs ps mark marks shown order _ ih =>
    rw [Rose.map_node, Rose.map_node, List.map_map]
    refine .node marks (fun p => (shown p).map f) ?_ ?_
    · rw [List.length_map]
      cases order with
      | straight hl => exact .straight (by rw [hf, hl])
      | loop hl path => exact .loop (by rw [hf, hl]) path
    · intro p hp
      rw [child_map]
      exact ih p hp

theorem exit_map (hf : forall l, loops' (f l) = loops l) (t : Rose L) :
    exit loops' (t.map f) = exit loops t := by
  induction t using Rose.induct with
  | _ l cs ih =>
    have hexits : exits loops' (cs.map (Rose.map f)) = exits loops cs := by
      rw [exits_eq, exits_eq, List.map_map]
      exact List.map_congr_left ih
    rw [Rose.map_node, exit, exit, hexits, hf, List.length_map]

theorem inOrder_map (hf : forall l, loops' (f l) = loops l) (t : Rose L) :
    InOrder loops' (t.map f) <-> InOrder loops t := by
  induction t using Rose.induct with
  | _ l cs ih =>
    have hexits : exits loops' (cs.map (Rose.map f)) = exits loops cs := by
      rw [exits_eq, exits_eq, List.map_map]
      exact List.map_congr_left (fun c _ => exit_map hf c)
    rw [Rose.map_node, InOrder, InOrder, hexits, hf, List.length_map, allInOrder_iff,
      allInOrder_iff, List.forall_mem_map]
    exact and_congr_right' (forall₂_congr ih)

theorem Shows.inOrder_of_map_eq (hf : forall l, loops' (f l) = loops l) {t t' : Rose L}
    {mark : Option Nat} (h : Shows loops t t' mark) (heq : t'.map f = t.map f) :
    InOrder loops t := by
  have hshows : Shows loops' (t.map f) (t'.map f) mark := h.map hf
  rw [heq] at hshows
  exact (inOrder_map hf t).mp hshows.inOrder

end Map

end SharedIndex
