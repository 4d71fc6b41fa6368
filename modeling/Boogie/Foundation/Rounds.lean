import Mathlib.Data.Multiset.AddSub
import Mathlib.Logic.Hydra

/-!
# Rounds until nothing changes

A loop that repeats a round as long as the round asks for another one.
-/

namespace Rounds

variable {State : Type}

/-- `none` when a round fails, or when the rounds are not enough. -/
def repeatWhile (round : State -> Option State) (again : State -> Bool) :
    Nat -> State -> Option State
  | 0, _ => none
  | n + 1, s =>
    (round s).bind (fun s' => if again s' then repeatWhile round again n s' else some s')

variable {round : State -> Option State} {again : State -> Bool} {inv : State -> Prop}

theorem repeatWhile_succ (n : Nat) (s : State) :
    repeatWhile round again (n + 1) s =
      (round s).bind (fun s' => if again s' then repeatWhile round again n s' else some s') := rfl

theorem exists_repeatWhile_of_wellFounded {Rank : Type*} {below : Rank -> Rank -> Prop}
    (hbelow : WellFounded below) {rank : State -> Rank}
    (hround : forall s, inv s -> exists s', round s = some s' ∧
      (again s' = true -> inv s' ∧ below (rank s') (rank s)))
    {s : State} (hs : inv s) :
    exists n result, (forall m, n ≤ m -> repeatWhile round again m s = some result) ∧
      exists last, inv last ∧ round last = some result ∧ again result = false := by
  induction hrank : rank s using hbelow.induction generalizing s with
  | _ k ih =>
    rcases hround s hs with ⟨s', hstep, hnext⟩
    cases hagain : again s' with
    | false =>
      refine ⟨1, s', ?_, s, hs, hstep, hagain⟩
      intro m hm
      rcases Nat.exists_eq_add_of_le' hm with ⟨m, rfl⟩
      rw [repeatWhile_succ, hstep, Option.bind_some, hagain]
      rfl
    | true =>
      rcases hnext hagain with ⟨hs', hlower⟩
      rcases ih _ (hrank ▸ hlower) hs' rfl with ⟨n, result, hmore, hlast⟩
      refine ⟨n + 1, result, ?_, hlast⟩
      intro m hm
      rcases Nat.exists_eq_add_of_le' (Nat.le_of_add_left_le hm) with ⟨m, rfl⟩
      rw [repeatWhile_succ, hstep, Option.bind_some, hagain]
      exact hmore m (Nat.le_of_succ_le_succ hm)

theorem exists_repeatWhile {rank : State -> Nat}
    (hround : forall s, inv s -> exists s', round s = some s' ∧
      (again s' = true -> inv s' ∧ rank s' < rank s))
    {s : State} (hs : inv s) :
    exists n result, (forall m, n ≤ m -> repeatWhile round again m s = some result) ∧
      exists last, inv last ∧ round last = some result ∧ again result = false :=
  exists_repeatWhile_of_wellFounded wellFounded_lt hround hs

theorem repeatWhile_eq_none
    (hround : forall s s', inv s -> round s = some s' -> inv s' ∧ again s' = true)
    {s : State} (hs : inv s) (n : Nat) : repeatWhile round again n s = none := by
  induction n generalizing s with
  | zero => rfl
  | succ n ih =>
    rw [repeatWhile_succ, Option.bind_eq_none_iff]
    intro s' hstep
    rcases hround s s' hs hstep with ⟨hs', hagain⟩
    rw [if_pos hagain]
    exact ih hs'

theorem repeatWhile_invariant (hround : forall s s', inv s -> round s = some s' -> inv s')
    {n : Nat} {s result : State} (hs : inv s) (h : repeatWhile round again n s = some result) :
    inv result ∧ again result = false := by
  induction n generalizing s with
  | zero => cases h
  | succ n ih =>
    rcases Option.bind_eq_some_iff.mp h with ⟨s', hstep, hrest⟩
    have hs' := hround s s' hs hstep
    cases hagain : again s' with
    | true =>
      rw [hagain, if_pos rfl] at hrest
      exact ih hs' hrest
    | false =>
      rw [hagain, if_neg Bool.false_ne_true] at hrest
      cases hrest
      exact ⟨hs', hagain⟩

theorem repeatWhile_mono {n m : Nat} (hle : n ≤ m) {s result : State}
    (h : repeatWhile round again n s = some result) :
    repeatWhile round again m s = some result := by
  induction n generalizing m s with
  | zero => cases h
  | succ n ih =>
    rcases Nat.exists_eq_add_of_le' (Nat.le_of_add_left_le hle) with ⟨m, rfl⟩
    rcases Option.bind_eq_some_iff.mp h with ⟨s', hstep, hrest⟩
    rw [repeatWhile_succ, hstep, Option.bind_some]
    cases hagain : again s' with
    | true =>
      rw [hagain, if_pos rfl] at hrest
      rw [if_pos rfl]
      exact ih (Nat.le_of_succ_le_succ hle) hrest
    | false =>
      rw [hagain, if_neg Bool.false_ne_true] at hrest
      rw [if_neg Bool.false_ne_true]
      exact hrest

theorem repeatWhile_map {State' : Type} {f : State -> State'}
    {round' : State' -> Option State'} {again' : State' -> Bool}
    (hinv : forall s s', inv s -> round s = some s' -> inv s')
    (hround : forall s, inv s -> (round s).map f = round' (f s))
    (hagain : forall s, again' (f s) = again s) {s : State} (hs : inv s) (n : Nat) :
    (repeatWhile round again n s).map f = repeatWhile round' again' n (f s) := by
  induction n generalizing s with
  | zero => rfl
  | succ n ih =>
    rw [repeatWhile_succ, repeatWhile_succ, ← hround s hs]
    cases hstep : round s with
    | none => rfl
    | some s' =>
      rw [Option.map_some, Option.bind_some, Option.bind_some, hagain]
      split
      · exact ih (hinv s s' hs hstep)
      · rfl

/-!
# Work lists

A round takes an item away and adds items below it.
-/

section WorkLists

variable {Item : Type} [BEq Item] [LawfulBEq Item] {work : State -> List Item}
variable {below : Item -> Item -> Prop}

/-- `work'` is `work` with items below `x` in its place. -/
def Replaced (below : Item -> Item -> Prop) (x : Item) (work work' : List Item) : Prop :=
  exists new, work' = work.erase x ++ new ∧ forall y, y ∈ new -> below y x

theorem Replaced.cutExpand {x : Item} {items items' : List Item} (hx : x ∈ items)
    (h : Replaced below x items items') :
    Relation.CutExpand below (items' : Multiset Item) items := by
  rcases h with ⟨new, rfl, hnew⟩
  refine ⟨new, x, hnew, ?_⟩
  have hcons : (items : Multiset Item) = {x} + (items.erase x : List Item) := by
    rw [Multiset.singleton_add, Multiset.cons_coe]
    exact Multiset.coe_eq_coe.mpr (List.perm_cons_erase hx)
  rw [hcons, ← Multiset.coe_add]
  exact (add_comm _ _).trans (add_assoc _ _ _).symm

theorem exists_repeatWhile_of_items (hbelow : WellFounded below)
    (hround : forall s, inv s -> work s ≠ [] -> exists s' x, round s = some s' ∧ inv s' ∧
      x ∈ work s ∧ Replaced below x (work s) (work s'))
    {s : State} (hs : inv s) (hmore : work s ≠ []) :
    exists n result, (forall m, n ≤ m ->
        repeatWhile round (fun s => !(work s).isEmpty) m s = some result) ∧
      inv result ∧ work result = [] := by
  have hnext : forall s, inv s ∧ work s ≠ [] -> exists s', round s = some s' ∧
      ((!(work s').isEmpty) = true -> (inv s' ∧ work s' ≠ []) ∧
        Relation.CutExpand below (work s' : Multiset Item) (work s)) := by
    intro s ⟨hs, hmore⟩
    rcases hround s hs hmore with ⟨s', x, hstep, hs', hx, hreplaced⟩
    refine ⟨s', hstep, fun hagain => ⟨⟨hs', ?_⟩, hreplaced.cutExpand hx⟩⟩
    intro hempty
    rw [hempty] at hagain
    cases hagain
  rcases @exists_repeatWhile_of_wellFounded _ _ _ _ _ _ hbelow.cutExpand _ hnext s
    ⟨hs, hmore⟩ with ⟨n, result, hruns, last, ⟨hlast, hlastMore⟩, hstep, hagain⟩
  rcases hround last hlast hlastMore with ⟨s', x, hstep', hs', _⟩
  rw [hstep] at hstep'
  cases hstep'
  refine ⟨n, result, hruns, hs', ?_⟩
  simpa using hagain

end WorkLists

end Rounds
