import Mathlib.Data.Finset.Basic
import Mathlib.Data.Finset.Lattice.Lemmas
import Mathlib.Data.Finset.SDiff
import Mathlib.Order.WithBot

/-!
# Gen and kill sets

A path is a list of steps that read variables and then overwrite variables.  The
variables that it reads before it overwrites them, and those that it overwrites, are
approximated by the weights of a set of paths: a weight is larger when it reads more
and overwrites less, and the least weight stands for no path.
-/

namespace GenKill

variable {V : Type*} [DecidableEq V]

/-!
# Paths
-/

/-- `reads` are read before `writes` are overwritten. -/
structure Effect (V : Type*) where
  reads : Finset V
  writes : Finset V

def readFirst : List (Effect V) -> Finset V
  | [] => ∅
  | e :: t => e.reads ∪ (readFirst t \ e.writes)

def overwritten : List (Effect V) -> Finset V
  | [] => ∅
  | e :: t => e.writes ∪ overwritten t

def readAnywhere : List (Effect V) -> Finset V
  | [] => ∅
  | e :: t => e.reads ∪ readAnywhere t

theorem readFirst_subset (t : List (Effect V)) : readFirst t ⊆ readAnywhere t := by
  induction t with
  | nil => exact Finset.Subset.refl _
  | cons e t ih =>
    exact Finset.union_subset_union (Finset.Subset.refl _)
      (Finset.sdiff_subset.trans ih)

theorem readAnywhere_append (t t' : List (Effect V)) :
    readAnywhere (t ++ t') = readAnywhere t ∪ readAnywhere t' := by
  induction t with
  | nil => exact (Finset.empty_union _).symm
  | cons e t ih =>
    rw [List.cons_append, readAnywhere, ih, readAnywhere, Finset.union_assoc]

theorem overwritten_append (t t' : List (Effect V)) :
    overwritten (t ++ t') = overwritten t ∪ overwritten t' := by
  induction t with
  | nil => exact (Finset.empty_union _).symm
  | cons e t ih =>
    rw [List.cons_append, overwritten, ih, overwritten, Finset.union_assoc]

theorem readFirst_append (t t' : List (Effect V)) :
    readFirst (t ++ t') = readFirst t ∪ (readFirst t' \ overwritten t) := by
  induction t with
  | nil => simp [readFirst, overwritten]
  | cons e t ih =>
    rw [List.cons_append, readFirst, ih, readFirst, overwritten,
      Finset.union_sdiff_distrib, Finset.sdiff_sdiff_left', Finset.union_assoc,
      ← Finset.sdiff_union_distrib, Finset.union_comm (overwritten t)]

def Effect.filter (p : V -> Prop) [DecidablePred p] (e : Effect V) : Effect V :=
  ⟨e.reads.filter p, e.writes.filter p⟩

theorem overwritten_filter (p : V -> Prop) [DecidablePred p] (t : List (Effect V)) :
    overwritten (t.map (Effect.filter p)) = (overwritten t).filter p := by
  induction t with
  | nil => rfl
  | cons e t ih =>
    rw [List.map_cons, overwritten, ih, overwritten, Finset.filter_union]
    rfl

theorem readFirst_filter (p : V -> Prop) [DecidablePred p] (t : List (Effect V)) :
    readFirst (t.map (Effect.filter p)) = (readFirst t).filter p := by
  induction t with
  | nil => rfl
  | cons e t ih =>
    rw [List.map_cons, readFirst, ih, readFirst, Finset.filter_union]
    congr 1
    ext v
    simp only [Effect.filter, Finset.mem_sdiff, Finset.mem_filter]
    tauto

/-!
# Weights
-/

abbrev Weight (V : Type*) :=
  WithBot (Finset V × (Finset V)ᵒᵈ)

def weight (gen kill : Finset V) : Weight V :=
  ((gen, OrderDual.toDual kill) : Finset V × (Finset V)ᵒᵈ)

def Weight.gen (w : Weight V) : Finset V :=
  w.recBotCoe ∅ (fun a => a.1)

def Weight.kill (w : Weight V) : Finset V :=
  w.recBotCoe ∅ (fun a => OrderDual.ofDual a.2)

def extend (w w' : Weight V) : Weight V :=
  WithBot.map₂ (fun a b => (a.1 ∪ (b.1 \ OrderDual.ofDual a.2),
    OrderDual.toDual (OrderDual.ofDual a.2 ∪ OrderDual.ofDual b.2))) w w'

def ofPath (t : List (Effect V)) : Weight V :=
  weight (readFirst t) (overwritten t)

omit [DecidableEq V] in
theorem eq_bot_or_weight (w : Weight V) : w = ⊥ ∨ exists gen kill, w = weight gen kill := by
  induction w using WithBot.recBotCoe with
  | bot => exact Or.inl rfl
  | coe a => exact Or.inr ⟨a.1, OrderDual.ofDual a.2, rfl⟩

variable {gen kill gen₂ kill₂ : Finset V} {w w' u u' : Weight V}

omit [DecidableEq V] in
theorem weight_le_weight :
    weight gen kill ≤ weight gen₂ kill₂ <-> gen ⊆ gen₂ ∧ kill₂ ⊆ kill :=
  WithBot.coe_le_coe.trans Prod.mk_le_mk

omit [DecidableEq V] in
theorem gen_weight : Weight.gen (weight gen kill) = gen :=
  rfl

omit [DecidableEq V] in
theorem kill_weight : Weight.kill (weight gen kill) = kill :=
  rfl

omit [DecidableEq V] in
theorem not_weight_le_bot : ¬ weight gen kill ≤ ⊥ :=
  WithBot.not_coe_le_bot _

theorem weight_sup_weight :
    weight gen kill ⊔ weight gen₂ kill₂ = weight (gen ∪ gen₂) (kill ∩ kill₂) :=
  rfl

theorem extend_weight : extend (weight gen kill) (weight gen₂ kill₂) =
    weight (gen ∪ (gen₂ \ kill)) (kill ∪ kill₂) :=
  rfl

theorem bot_extend : extend ⊥ w = ⊥ :=
  rfl

theorem extend_bot : extend w ⊥ = ⊥ :=
  WithBot.map₂_bot_right _ _

theorem extend_mono (h : w ≤ w') (hu : u ≤ u') : extend w u ≤ extend w' u' := by
  rcases eq_bot_or_weight w with rfl | ⟨gen, kill, rfl⟩
  · exact bot_le
  · rcases eq_bot_or_weight u with rfl | ⟨gen₂, kill₂, rfl⟩
    · rw [extend_bot]
      exact bot_le
    · rcases eq_bot_or_weight w' with rfl | ⟨gen₃, kill₃, rfl⟩
      · exact absurd h not_weight_le_bot
      · rcases eq_bot_or_weight u' with rfl | ⟨gen₄, kill₄, rfl⟩
        · exact absurd hu not_weight_le_bot
        · rw [extend_weight, extend_weight, weight_le_weight]
          rcases weight_le_weight.mp h with ⟨hgen, hkill⟩
          rcases weight_le_weight.mp hu with ⟨hgen', hkill'⟩
          exact ⟨Finset.union_subset_union hgen (Finset.sdiff_subset_sdiff hgen' hkill),
            Finset.union_subset_union hkill hkill'⟩

theorem gen_sup (w w' : Weight V) : Weight.gen (w ⊔ w') = Weight.gen w ∪ Weight.gen w' := by
  rcases eq_bot_or_weight w with rfl | ⟨gen, kill, rfl⟩
  · rw [bot_sup_eq]
    exact (Finset.empty_union _).symm
  · rcases eq_bot_or_weight w' with rfl | ⟨gen₂, kill₂, rfl⟩
    · exact (Finset.union_empty _).symm
    · rfl

theorem gen_extend_subset (w w' : Weight V) :
    Weight.gen (extend w w') ⊆ Weight.gen w ∪ Weight.gen w' := by
  rcases eq_bot_or_weight w with rfl | ⟨gen, kill, rfl⟩
  · exact Finset.empty_subset _
  · rcases eq_bot_or_weight w' with rfl | ⟨gen₂, kill₂, rfl⟩
    · exact Finset.empty_subset _
    · exact Finset.union_subset_union (Finset.Subset.refl _) Finset.sdiff_subset

theorem ofPath_append (t t' : List (Effect V)) :
    ofPath (t ++ t') = extend (ofPath t) (ofPath t') := by
  rw [ofPath, readFirst_append, overwritten_append]
  rfl

theorem ofPath_single (e : Effect V) : ofPath [e] = weight e.reads e.writes := by
  simp [ofPath, readFirst, overwritten]

end GenKill
