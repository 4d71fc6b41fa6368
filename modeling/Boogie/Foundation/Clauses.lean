import Mathlib.Data.Finset.Card
import Mathlib.Data.Finset.Lattice.Basic
import Mathlib.Data.Set.Insert

/-!
# Clauses and the best abstraction by short clauses

A clause is a disjunction of literals.  The clauses of bounded size that hold in
all of a set of states are represented by the strongest ones among them, and a
state is added by weakening every clause with every literal of the state.
-/

variable {α : Type} [DecidableEq α]

structure Clause (α : Type) where
  pos : Finset α
  neg : Finset α
deriving DecidableEq

namespace Clause

def Holds (v : α -> Prop) (c : Clause α) : Prop :=
  (exists a, a ∈ c.pos ∧ v a) ∨ exists a, a ∈ c.neg ∧ ¬ v a

def size (c : Clause α) : Nat :=
  c.pos.card + c.neg.card

def empty : Clause α :=
  ⟨∅, ∅⟩

def literal (a : α) (b : Bool) : Clause α :=
  if b then ⟨{a}, ∅⟩ else ⟨∅, {a}⟩

def or (c d : Clause α) : Clause α :=
  ⟨c.pos ∪ d.pos, c.neg ∪ d.neg⟩

def Strengthens (c d : Clause α) : Prop :=
  c.pos ⊆ d.pos ∧ c.neg ⊆ d.neg

/-- A clause over `atoms` that is no tautology and has at most `k` literals. -/
structure Proper (atoms : Finset α) (k : Nat) (c : Clause α) : Prop where
  pos_subset : c.pos ⊆ atoms
  neg_subset : c.neg ⊆ atoms
  disjoint : Disjoint c.pos c.neg
  size_le : c.size ≤ k

section Basic

variable {v : α -> Prop} {c d e : Clause α} {a : α} {b : Bool}
  {atoms : Finset α} {k : Nat}

omit [DecidableEq α] in
theorem not_holds_empty : ¬ (empty : Clause α).Holds v := by
  simp [Holds, empty]

omit [DecidableEq α] in
theorem Strengthens.holds (h : c.Strengthens d) (hc : c.Holds v) :
    d.Holds v := by
  rcases hc with ⟨a, ha, hv⟩ | ⟨a, ha, hv⟩
  · exact Or.inl ⟨a, h.1 ha, hv⟩
  · exact Or.inr ⟨a, h.2 ha, hv⟩

theorem holds_or : (c.or d).Holds v <-> c.Holds v ∨ d.Holds v := by
  unfold Holds or
  simp only [Finset.mem_union]
  constructor
  · rintro (⟨a, ha | ha, hv⟩ | ⟨a, ha | ha, hv⟩)
    · exact Or.inl (Or.inl ⟨a, ha, hv⟩)
    · exact Or.inr (Or.inl ⟨a, ha, hv⟩)
    · exact Or.inl (Or.inr ⟨a, ha, hv⟩)
    · exact Or.inr (Or.inr ⟨a, ha, hv⟩)
  · rintro ((⟨a, ha, hv⟩ | ⟨a, ha, hv⟩) | (⟨a, ha, hv⟩ | ⟨a, ha, hv⟩))
    · exact Or.inl ⟨a, Or.inl ha, hv⟩
    · exact Or.inr ⟨a, Or.inl ha, hv⟩
    · exact Or.inl ⟨a, Or.inr ha, hv⟩
    · exact Or.inr ⟨a, Or.inr ha, hv⟩

omit [DecidableEq α] in
theorem holds_literal : (literal a b).Holds v <-> (v a <-> b = true) := by
  cases b <;> simp [literal, Holds]

theorem empty_or : empty.or d = d := by
  simp [or, empty]

theorem Strengthens.or (hc : c.Strengthens e) (hd : d.Strengthens e) :
    (c.or d).Strengthens e :=
  ⟨Finset.union_subset hc.1 hd.1, Finset.union_subset hc.2 hd.2⟩

omit [DecidableEq α] in
theorem Proper.of_strengthens (h : c.Proper atoms k) (hdc : d.Strengthens c) :
    d.Proper atoms k where
  pos_subset := hdc.1.trans h.pos_subset
  neg_subset := hdc.2.trans h.neg_subset
  disjoint := Disjoint.mono hdc.1 hdc.2 h.disjoint
  size_le :=
    (Nat.add_le_add (Finset.card_le_card hdc.1) (Finset.card_le_card hdc.2)).trans
      h.size_le

omit [DecidableEq α] in
theorem proper_empty : (empty : Clause α).Proper atoms k where
  pos_subset := Finset.empty_subset _
  neg_subset := Finset.empty_subset _
  disjoint := Finset.disjoint_empty_left _
  size_le := Nat.zero_le _

end Basic

/-!
# Sets of clauses that represent sets of states
-/

/--
The clauses hold in all states, and every proper clause that does is implied by
one of them.
-/
structure Represents (atoms : Finset α) (k : Nat) (states : Set (α -> Prop))
    (clauses : Set (Clause α)) : Prop where
  proper : forall c, c ∈ clauses -> c.Proper atoms k
  sound : forall c, c ∈ clauses -> forall v, v ∈ states -> c.Holds v
  complete : forall c : Clause α, c.Proper atoms k ->
    (forall v, v ∈ states -> c.Holds v) ->
      exists d, d ∈ clauses ∧ d.Strengthens c

section Represents

variable {atoms : Finset α} {k : Nat} {states : Set (α -> Prop)}
  {clauses clauses' : Set (Clause α)} {v : α -> Prop} {b : α -> Bool}

omit [DecidableEq α] in
theorem represents_empty :
    Represents atoms k ∅ {(empty : Clause α)} where
  proper := by
    rintro c rfl
    exact proper_empty
  sound := by simp
  complete := fun c _ _ => ⟨empty, rfl, Finset.empty_subset _, Finset.empty_subset _⟩

omit [DecidableEq α] in
theorem Represents.holds_iff (h : Represents atoms k states clauses) :
    (forall c, c ∈ clauses -> c.Holds v) <-> forall c : Clause α, c.Proper atoms k ->
        (forall w, w ∈ states -> c.Holds w) -> c.Holds v := by
  constructor
  · intro hall c hproper hstates
    rcases h.complete c hproper hstates with ⟨d, hd, hdc⟩
    exact hdc.holds (hall d hd)
  · intro hall c hc
    exact hall c (h.proper c hc) (h.sound c hc)

/--
A state is added: every clause comes from one weakened by a literal of the
state, and every proper one of these is implied by a clause.
-/
theorem Represents.step (h : Represents atoms k states clauses)
    (hv : forall a, a ∈ atoms -> (v a <-> b a = true))
    (hsound : forall c', c' ∈ clauses' -> c'.Proper atoms k ∧
      exists a, a ∈ atoms ∧ exists c, c ∈ clauses ∧ c' = c.or (literal a (b a)))
    (hcomplete : forall a, a ∈ atoms -> forall c, c ∈ clauses ->
      (c.or (literal a (b a))).Proper atoms k ->
        exists c', c' ∈ clauses' ∧ c'.Strengthens (c.or (literal a (b a)))) :
    Represents atoms k (insert v states) clauses' where
  proper := fun c' hc' => (hsound c' hc').1
  sound := by
    intro c' hc' w hw
    rcases hsound c' hc' with ⟨_, a, ha, c, hc, rfl⟩
    rw [holds_or]
    rcases Set.mem_insert_iff.mp hw with rfl | hw
    · exact Or.inr (holds_literal.mpr (hv a ha))
    · exact Or.inl (h.sound c hc w hw)
  complete := by
    intro c hproper hstates
    rcases h.complete c hproper
      (fun w hw => hstates w (Set.mem_insert_of_mem v hw)) with ⟨d, hd, hdc⟩
    -- a literal of the clause that is one of the new state
    have hliteral : exists a, a ∈ atoms ∧ (literal a (b a)).Strengthens c := by
      rcases hstates v (Set.mem_insert v states) with ⟨a, ha, hva⟩ | ⟨a, ha, hva⟩
      · have hatom := hproper.pos_subset ha
        refine ⟨a, hatom, ?_⟩
        rw [(hv a hatom).mp hva]
        exact ⟨Finset.singleton_subset_iff.mpr ha, Finset.empty_subset _⟩
      · have hatom := hproper.neg_subset ha
        refine ⟨a, hatom, ?_⟩
        rw [Bool.eq_false_iff.mpr (fun hb => hva ((hv a hatom).mpr hb))]
        exact ⟨Finset.empty_subset _, Finset.singleton_subset_iff.mpr ha⟩
    rcases hliteral with ⟨a, ha, hac⟩
    have hor := hdc.or hac
    rcases hcomplete a ha d hd (hproper.of_strengthens hor) with
      ⟨c', hc', hstrengthens⟩
    exact ⟨c', hc', hstrengthens.1.trans hor.1, hstrengthens.2.trans hor.2⟩

end Represents

end Clause
