import Boogie.Core.InterProcGenKill

/-!
# Objects of weights

A combination of two weights that are not zero has objects that no other weight has,
so that it is never equal to an earlier one.
-/

namespace Boogie
namespace InterProcGenKill

/-- The objects of the result are allocated, and it is zero or not whatever was
allocated before. -/
def Yields (isZero : Bool) (x : StateM Memo GenKillWeight) : Prop :=
  forall m, m.next ≤ (x m).2.next ∧ (x m).1.isZero = isZero ∧
    (x m).1.Allocated (x m).2.next

namespace Yields

theorem one : Yields false (pure GenKillWeight.one) := by
  intro m
  have h := m.four_le
  exact ⟨le_refl _, rfl, Nat.lt_of_lt_of_le (Nat.succ_pos 3) h,
    Nat.lt_of_lt_of_le (Nat.one_lt_succ_succ 2) h⟩

theorem zero : Yields true (pure GenKillWeight.zero) := by
  intro m
  have h := m.four_le
  exact ⟨le_refl _, rfl, Nat.lt_of_succ_lt h, h⟩

theorem newWeight (gen kill : Finset Variable) :
    Yields false (InterProcGenKill.newWeight gen kill) :=
  fun _ => ⟨Nat.le_add_right _ 2, rfl, Nat.lt_add_of_pos_right Nat.zero_lt_two,
    Nat.lt_succ_self _⟩

theorem storeWeight (c : Nat) (gen kill : Finset Variable) :
    Yields false (InterProcGenKill.storeWeight c gen kill) :=
  fun _ => ⟨Nat.le_add_right _ 2, rfl, Nat.lt_add_of_pos_right Nat.zero_lt_two,
    Nat.lt_succ_self _⟩

theorem bind {z z' : Bool} {x : StateM Memo GenKillWeight}
    {f : GenKillWeight -> StateM Memo GenKillWeight} (hx : Yields z x)
    (hf : forall w, w.isZero = z -> Yields z' (f w)) : Yields z' (x >>= f) := by
  intro m
  rcases hx m with ⟨hnext, hzero, _⟩
  rcases hf _ hzero (x m).2 with ⟨hnext', hzero', halloc⟩
  exact ⟨hnext.trans hnext', hzero', halloc⟩

theorem extend (w1 w2 : GenKillWeight) :
    Yields (w1.isZero || w2.isZero) (GenKillWeight.extend w1 w2) := by
  unfold GenKillWeight.extend
  cases hzero : w1.isZero || w2.isZero with
  | true => exact zero
  | false => exact newWeight _ _

theorem extend_false {w1 w2 : GenKillWeight} (h1 : w1.isZero = false)
    (h2 : w2.isZero = false) : Yields false (GenKillWeight.extend w1 w2) := by
  have h := extend w1 w2
  rwa [h1, h2] at h

end Yields

/-!
# Commands and calls
-/

section Commands

variable {ProcName : Type}

mutual

theorem getWeight_yields (scope : Scope) :
    (c : Cmd ProcName) -> Yields false (getWeight scope c)
  | .assign _ _ => Yields.newWeight _ _
  | .havoc _ => Yields.newWeight _ _
  | .predicate (.literal _) => Yields.newWeight _ _
  | .predicate (.ident _) => Yields.newWeight _ _
  | .predicate (.old _) => Yields.newWeight _ _
  | .predicate (.nary _ _) => Yields.newWeight _ _
  | .predicate (.quantifier _ _ _) => Yields.newWeight _ _
  | .comment => Yields.newWeight _ _
  | .call _ desugaring => getWeight_yields scope desugaring
  | .state _ cmds =>
    (getWeightCmds_yields scope cmds).bind fun _ hret =>
      (Yields.newWeight _ _).bind fun _ hw => Yields.extend_false hw hret

theorem getWeightCmds_yields (scope : Scope) :
    (cmds : List (Cmd ProcName)) -> Yields false (getWeightCmds scope cmds)
  | [] => Yields.one
  | c :: cmds =>
    (getWeightCmds_yields scope cmds).bind fun _ hret =>
      (getWeight_yields scope c).bind fun _ hw => Yields.extend_false hw hret

end

theorem getWeightAfterCall_yields (p : Procedure) (c : CallCmd ProcName) :
    Yields false (getWeightAfterCall p c) := by
  intro m
  unfold getWeightAfterCall
  cases hcached : m.weightCacheAfterCall c.uniqueId with
  | some w => exact ⟨le_refl _, m.stored _ _ hcached⟩
  | none => exact Yields.storeWeight _ _ _ m

theorem getWeightCall_yields (p : Procedure) (summary : GenKillWeight)
    (c : CallCmd ProcName) : Yields false (getWeightCall p summary c) := by
  apply Yields.bind (Yields.storeWeight _ _ _)
  intro w1 h1
  apply Yields.bind (Yields.newWeight _ _)
  intro w2 h2
  apply Yields.bind (getWeightAfterCall_yields p c)
  intro w3 h3
  apply Yields.bind (Yields.extend_false h2 h3)
  intro w h
  exact Yields.extend_false h1 h

end Commands

section Blocks

variable {ProcName BlockId : Type} [DecidableEq ProcName]
variable {program : Program ProcName BlockId} {procICFG : List ProcName}
variable {summary : ProcName -> GenKillWeight} {p : ProcName}

theorem cmdWeight_yields (c : Cmd ProcName) :
    Yields false (cmdWeight program procICFG summary p c) := by
  unfold cmdWeight
  cases c with
  | call call desugaring =>
    dsimp only
    split
    · exact getWeightCall_yields _ _ _
    · exact getWeight_yields _ _
  | assign lhss rhss => exact getWeight_yields _ _
  | havoc vars => exact getWeight_yields _ _
  | predicate expr => exact getWeight_yields _ _
  | comment => exact getWeight_yields _ _
  | state locals cmds => exact getWeight_yields _ _

theorem blockWeight_spec (cmds : List (Cmd ProcName)) {w : GenKillWeight} {m : Memo}
    (hw : w.Allocated m.next) :
    m.next ≤ (blockWeight program procICFG summary p cmds w m).2.next ∧
      (blockWeight program procICFG summary p cmds w m).1.isZero = w.isZero ∧
      (blockWeight program procICFG summary p cmds w m).1.Allocated
        (blockWeight program procICFG summary p cmds w m).2.next := by
  induction cmds with
  | nil => exact ⟨le_refl _, rfl, hw⟩
  | cons c cmds ih =>
    rcases ih with ⟨hnext, hzero, _⟩
    have hextend : Yields w.isZero (do
        let cweight ← cmdWeight program procICFG summary p c
        GenKillWeight.extend cweight
          (blockWeight program procICFG summary p cmds w m).1) := by
      apply Yields.bind (cmdWeight_yields c)
      intro cweight hcweight
      have h := Yields.extend cweight
        (blockWeight program procICFG summary p cmds w m).1
      rwa [hcweight, hzero, Bool.false_or] at h
    rcases hextend (blockWeight program procICFG summary p cmds w m).2 with
      ⟨hnext', hzero', halloc⟩
    exact ⟨hnext.trans hnext', hzero', halloc⟩

end Blocks

/-!
# Combinations
-/

namespace GenKillWeight

theorem Allocated.mono {w : GenKillWeight} {n n' : Nat} (h : w.Allocated n)
    (hle : n ≤ n') : w.Allocated n' :=
  ⟨Nat.lt_of_lt_of_le h.1 hle, Nat.lt_of_lt_of_le h.2 hle⟩

theorem isEqual_self (w : GenKillWeight) : isEqual w w = true := by
  unfold isEqual HashSet.equals
  cases w.isZero with
  | true => rfl
  | false => simp

theorem isEqual_of_isZero {w1 w2 : GenKillWeight} (h : w1.isZero = true) :
    isEqual w1 w2 = w2.isZero := by
  unfold isEqual
  rw [h]
  rfl

theorem isEqual_later {w : GenKillWeight} {n : Nat} {gen kill : Finset Variable}
    (hw : w.Allocated n) : isEqual w (ofSets n gen kill) = false := by
  unfold isEqual HashSet.equals ofSets
  cases w.isZero with
  | true => rfl
  | false =>
    have hne : w.gen.id ≠ n := Nat.ne_of_lt hw.1
    simp [hne]

/-- `r` has a combination of the old weight with `w`: it is another one unless `w` is
zero. -/
structure Combined (prev w : GenKillWeight) (m : Memo) (r : GenKillWeight × Memo) :
    Prop where
  next : m.next ≤ r.2.next
  allocated : r.1.Allocated r.2.next
  isZero : r.1.isZero = (prev.isZero && w.isZero)
  isEqual : GenKillWeight.isEqual prev r.1 = w.isZero

theorem combine_spec {prev w : GenKillWeight} {m : Memo}
    (hprev : prev.Allocated m.next) (hw : w.Allocated m.next) :
    Combined prev w m (combine prev w m) := by
  unfold combine
  cases hzero : prev.isZero with
  | true => exact ⟨le_refl _, hw, by rw [hzero]; rfl, isEqual_of_isZero hzero⟩
  | false =>
    cases hzero' : w.isZero with
    | true =>
      refine ⟨le_refl _, hprev, ?_, ?_⟩
      · rw [hzero, hzero']
        exact hzero
      · rw [hzero']
        exact isEqual_self prev
    | false =>
      rcases Yields.newWeight (prev.gen.elements ∪ w.gen.elements)
        (prev.kill.elements ∩ w.kill.elements) m with ⟨hnext, hnew, halloc⟩
      refine ⟨hnext, halloc, ?_, ?_⟩
      · rw [hzero]
        exact hnew
      · rw [hzero']
        exact isEqual_later hprev

theorem combine_spec' {prev w : GenKillWeight} {m : Memo}
    (hprev : prev.Allocated m.next) (hw : w.Allocated m.next) :
    Combined prev w m (combine w prev m) := by
  unfold combine
  cases hzero : w.isZero with
  | true =>
    refine ⟨le_refl _, hprev, ?_, ?_⟩
    · rw [hzero, Bool.and_true]
      rfl
    · rw [hzero]
      exact isEqual_self prev
  | false =>
    cases hzero' : prev.isZero with
    | true =>
      refine ⟨le_refl _, hw, ?_, isEqual_of_isZero hzero'⟩
      rw [hzero']
      rfl
    | false =>
      rcases Yields.newWeight (w.gen.elements ∪ prev.gen.elements)
        (w.kill.elements ∩ prev.kill.elements) m with ⟨hnext, hnew, halloc⟩
      refine ⟨hnext, halloc, ?_, ?_⟩
      · rw [hzero']
        exact hnew
      · rw [hzero]
        exact isEqual_later hprev

end GenKillWeight

end InterProcGenKill
end Boogie
