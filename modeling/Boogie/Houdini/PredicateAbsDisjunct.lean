import Mathlib.Order.WellFounded
import Boogie.Houdini.PredicateAbsElem

/-!
# Disjunctions of conjunctions of predicates

The predicates of a procedure are numbered.  A conjunct is a set of predicates
and a set of negated ones, or `false`; a conjunct with too many literals counts
as `false`.  All objects of a summary belong to the same procedure.
-/

namespace Boogie

namespace PredicateAbs

structure PredPair where
  proc : String
  first : Nat
  second : Nat
  firstPolarity : Bool
  secondPolarity : Bool
deriving DecidableEq, Repr

abbrev Literal := Nat × Bool

/-!
# Conjuncts
-/

structure Conjunct where
  isFalse : Bool
  posPreds : List Nat
  negPreds : List Nat
  cleared : isFalse = true -> posPreds = [] ∧ negPreds = []
  pos_nodup : posPreds.Nodup
  neg_nodup : negPreds.Nodup
  disjoint : posPreds.Disjoint negPreds

namespace Conjunct

theorem ext_iff_fields {c d : Conjunct} :
    c = d <-> c.isFalse = d.isFalse ∧ c.posPreds = d.posPreds ∧
      c.negPreds = d.negPreds := by
  cases c
  cases d
  simp

instance : DecidableEq Conjunct :=
  fun _ _ => decidable_of_iff' _ ext_iff_fields

def bottom : Conjunct where
  isFalse := true
  posPreds := []
  negPreds := []
  cleared := noIndices_cleared
  pos_nodup := List.nodup_nil
  neg_nodup := List.nodup_nil
  disjoint := noIndices_disjoint

/-- The constructor from two sequences, with its `Normalize`. -/
def ofSets (conjunctBound : Int) (pos neg : List Nat) : Conjunct :=
  if hoverlaps : (hashSet pos).any (fun i => i ∈ hashSet neg) then bottom
  else if ((hashSet pos).length + (hashSet neg).length : Int) > conjunctBound
  then bottom
  else
    { isFalse := false
      posPreds := hashSet pos
      negPreds := hashSet neg
      cleared := hashSet_cleared pos neg
      pos_nodup := hashSet_nodup pos
      neg_nodup := hashSet_nodup neg
      disjoint := hashSet_disjoint pos neg hoverlaps }

def singleton (conjunctBound : Int) (p : Nat) (isPositive : Bool) : Conjunct :=
  if isPositive then ofSets conjunctBound [p] []
  else ofSets conjunctBound [] [p]

/-- The candidates of `StrongNormalize`. -/
def literals (c : Conjunct) : List Literal :=
  c.posPreds.map (fun p => (p, true)) ++ c.negPreds.map (fun p => (p, false))

def pairs (c : Conjunct) : List (Literal × Literal) :=
  c.literals.zipIdx.flatMap (fun ci =>
    (c.literals.zipIdx.filter (fun cj => ci.2 ≠ cj.2)).map
      (fun cj => (ci.1, cj.1)))

section Normalize

variable (unsatPrePredPairs : List PredPair) (procName : String)

def excludes (l m : Literal) : Bool :=
  PredPair.mk procName l.1 m.1 l.2 m.2 ∈ unsatPrePredPairs

def covers (l m : Literal) : Bool :=
  excludes unsatPrePredPairs procName l (m.1, !m.2)

def drop (c : Conjunct) : List Nat :=
  (c.pairs.filter
    (fun lm => covers unsatPrePredPairs procName lm.1 lm.2)).map
      (fun lm => lm.2.1)

def strongNormalize (c : Conjunct) : Conjunct :=
  if c.isFalse then c
  else if c.pairs.any (fun lm =>
      excludes unsatPrePredPairs procName lm.1 lm.2) then bottom
  else
    { isFalse := c.isFalse
      posPreds := c.posPreds.filter
        (fun p => p ∉ c.drop unsatPrePredPairs procName)
      negPreds := c.negPreds.filter
        (fun p => p ∉ c.drop unsatPrePredPairs procName)
      cleared := by
        intro h
        rw [(c.cleared h).1, (c.cleared h).2]
        exact ⟨rfl, rfl⟩
      pos_nodup := c.pos_nodup.filter _
      neg_nodup := c.neg_nodup.filter _
      disjoint := fun i hpos hneg =>
        c.disjoint (List.mem_of_mem_filter hpos) (List.mem_of_mem_filter hneg) }

def and (conjunctBound : Int) (c d : Conjunct) : Conjunct :=
  if c.isFalse || d.isFalse then bottom
  else
    (ofSets conjunctBound (c.posPreds ++ d.posPreds)
      (c.negPreds ++ d.negPreds)).strongNormalize unsatPrePredPairs procName

end Normalize

def implies (c d : Conjunct) : Bool :=
  if c.isFalse then true
  else if d.isFalse then false
  else
    d.posPreds.all (fun p => p ∈ c.posPreds) &&
      d.negPreds.all (fun p => p ∈ c.negPreds)

def syntacticLessThan (c1 c2 : Conjunct) : Bool :=
  if c1.isFalse then true
  else if c2.isFalse then false
  else
    c2.posPreds.all (fun p => p ∈ c1.posPreds) &&
      c2.negPreds.all (fun p => p ∈ c1.negPreds)

end Conjunct

/-!
# Disjuncts
-/

structure Disjunct where
  isTrue : Bool
  conjuncts : List Conjunct
deriving DecidableEq

namespace Disjunct

def isFalse (d : Disjunct) : Bool :=
  if d.isTrue then false else d.conjuncts.length = 0

def ofBool (isTrue : Bool) : Disjunct :=
  ⟨isTrue, []⟩

def ofLiterals (conjunctBound : Int) (pos neg : List Nat) : Disjunct where
  isTrue := false
  conjuncts :=
    pos.map (fun p => Conjunct.singleton conjunctBound p true) ++
      neg.map (fun p => Conjunct.singleton conjunctBound p false)

def syntacticLessThan (d1 d2 : Disjunct) : Bool :=
  if d2.isTrue then true
  else if d1.isTrue then false
  else if d1.isFalse then true
  else if d2.isFalse then false
  else
    d1.conjuncts.all (fun c1 =>
      d2.conjuncts.any (fun c2 => c1.syntacticLessThan c2))

/-- A new conjunct comes first, unless it implies one that is there. -/
def addConjunct (result : List Conjunct) (c : Conjunct) : List Conjunct :=
  Subsumption.addFirst (fun d e => Conjunct.implies e d) result c

def and (unsatPrePredPairs : List PredPair) (procName : String)
    (conjunctBound : Int) (v1 v2 : Disjunct) : Disjunct :=
  if v1.isTrue then v2
  else if v2.isTrue then v1
  else
    { isTrue := false
      conjuncts := v1.conjuncts.foldl (fun result c1 =>
        v2.conjuncts.foldl (fun result c2 =>
          let c := c1.and unsatPrePredPairs procName conjunctBound c2
          if c.isFalse then result else addConjunct result c) result) [] }

def or (v1 v2 : Disjunct) : Disjunct :=
  if v1.isTrue then v1
  else if v2.isTrue then v2
  else if v1.isFalse then v2
  else if v2.isFalse then v1
  else
    { isTrue := false
      conjuncts := v2.conjuncts.foldl addConjunct v1.conjuncts }

def subtract (d that : Disjunct) : Disjunct :=
  { d with
    conjuncts := d.conjuncts.filter (fun c1 =>
      !that.conjuncts.any (fun c2 => c1.implies c2)) }

end Disjunct

/-!
# The meaning of conjuncts
-/

abbrev Valuation := Nat -> Prop

def Literal.Holds (v : Valuation) (l : Literal) : Prop :=
  v l.1 <-> l.2 = true

def Conjunct.Holds (v : Valuation) (c : Conjunct) : Prop :=
  c.isFalse = false ∧ forall l, l ∈ c.literals -> Literal.Holds v l

def Disjunct.Holds (v : Valuation) (d : Disjunct) : Prop :=
  d.isTrue = true ∨ exists c, c ∈ d.conjuncts ∧ c.Holds v

/-- The recorded pairs of the procedure are never true together. -/
def FactsHold (unsatPrePredPairs : List PredPair) (procName : String)
    (v : Valuation) : Prop :=
  forall l m : Literal,
    Conjunct.excludes unsatPrePredPairs procName l m = true ->
      ¬ (Literal.Holds v l ∧ Literal.Holds v m)

def Ordered (unsatPrePredPairs : List PredPair) : Prop :=
  forall pair, pair ∈ unsatPrePredPairs -> pair.first < pair.second

namespace Conjunct

section Literals

variable {c : Conjunct} {l m : Literal} {p : Nat}

theorem mem_literals : l ∈ c.literals <->
    (l.2 = true ∧ l.1 ∈ c.posPreds) ∨ (l.2 = false ∧ l.1 ∈ c.negPreds) := by
  rcases l with ⟨p, b⟩
  unfold literals
  rw [List.mem_append, List.mem_map, List.mem_map]
  constructor
  · rintro (⟨q, hq, heq⟩ | ⟨q, hq, heq⟩)
    · cases heq
      exact Or.inl ⟨rfl, hq⟩
    · cases heq
      exact Or.inr ⟨rfl, hq⟩
  · rintro (⟨hb, hp⟩ | ⟨hb, hp⟩)
    · exact Or.inl ⟨p, hp, by rw [← hb]⟩
    · exact Or.inr ⟨p, hp, by rw [← hb]⟩

theorem literal_unique (hl : l ∈ c.literals) (hm : m ∈ c.literals) (h : l.1 = m.1) : l = m := by
  rw [mem_literals] at hl hm
  rw [← h] at hm
  rcases hl with ⟨hl, hmem⟩ | ⟨hl, hmem⟩
  · rcases hm with ⟨hm, _⟩ | ⟨_, hmem'⟩
    · exact Prod.ext h (hl.trans hm.symm)
    · exact absurd hmem' (c.disjoint hmem)
  · rcases hm with ⟨_, hmem'⟩ | ⟨hm, _⟩
    · exact absurd hmem (c.disjoint hmem')
    · exact Prod.ext h (hl.trans hm.symm)

theorem mem_of_pairs (h : (l, m) ∈ c.pairs) :
    l ∈ c.literals ∧ m ∈ c.literals := by
  rcases List.mem_flatMap.mp h with ⟨ci, hci, h⟩
  rcases List.mem_map.mp h with ⟨cj, hcj, heq⟩
  cases heq
  exact ⟨List.fst_mem_of_mem_zipIdx hci,
    List.fst_mem_of_mem_zipIdx (List.mem_of_mem_filter hcj)⟩

theorem mem_pairs (hl : l ∈ c.literals) (hm : m ∈ c.literals) (hne : l ≠ m) :
    (l, m) ∈ c.pairs := by
  rcases List.mem_iff_getElem?.mp hl with ⟨i, hi⟩
  rcases List.mem_iff_getElem?.mp hm with ⟨j, hj⟩
  apply List.mem_flatMap.mpr
  refine ⟨(l, i), List.mem_zipIdx_iff_getElem?.mpr hi, ?_⟩
  apply List.mem_map.mpr
  refine ⟨(m, j), ?_, rfl⟩
  rw [List.mem_filter]
  refine ⟨List.mem_zipIdx_iff_getElem?.mpr hj, ?_⟩
  rw [decide_eq_true_eq]
  intro hij
  dsimp only at hij
  rw [← hij, hi] at hj
  exact hne (Option.some.inj hj)

end Literals

section Normalize

variable {unsatPrePredPairs : List PredPair} {procName : String}
  {conjunctBound : Int} {c d : Conjunct} {l m : Literal} {v : Valuation}

theorem lt_of_covers (hordered : Ordered unsatPrePredPairs)
    (h : covers unsatPrePredPairs procName l m = true) : l.1 < m.1 :=
  hordered _ (of_decide_eq_true h)

theorem covers_wellFounded (hordered : Ordered unsatPrePredPairs) :
    WellFounded (fun l m => covers unsatPrePredPairs procName l m = true) := by
  apply Subrelation.wf (r := InvImage (· < ·) Prod.fst)
  · intro l m h
    exact lt_of_covers hordered h
  · exact InvImage.wf Prod.fst Nat.lt_wfRel.wf

theorem holds_of_covers (hfacts : FactsHold unsatPrePredPairs procName v)
    (h : covers unsatPrePredPairs procName l m = true) (hl : l.Holds v) :
    m.Holds v := by
  have hnot : ¬ Literal.Holds v (m.1, !m.2) :=
    fun hm => hfacts _ _ h ⟨hl, hm⟩
  unfold Literal.Holds at hnot ⊢
  cases hb : m.2 with
  | true => simpa [hb] using hnot
  | false => simpa [hb] using hnot

theorem mem_drop {p : Nat} : p ∈ c.drop unsatPrePredPairs procName <->
    exists l m, (l, m) ∈ c.pairs ∧ covers unsatPrePredPairs procName l m = true ∧ m.1 = p := by
  unfold drop
  rw [List.mem_map]
  constructor
  · rintro ⟨⟨l, m⟩, hmem, heq⟩
    exact ⟨l, m, (List.mem_filter.mp hmem).1, (List.mem_filter.mp hmem).2, heq⟩
  · rintro ⟨l, m, hpair, hcovers, heq⟩
    exact ⟨(l, m), List.mem_filter.mpr ⟨hpair, hcovers⟩, heq⟩

theorem mem_strongNormalize (hordered : Ordered unsatPrePredPairs) (hfalse : c.isFalse = false)
    (hconflict : c.pairs.any (fun lm =>
      excludes unsatPrePredPairs procName lm.1 lm.2) = false) :
    l ∈ (c.strongNormalize unsatPrePredPairs procName).literals <-> Subsumption.Uncovered
        (fun l m => covers unsatPrePredPairs procName l m = true)
        {m | m ∈ c.literals} l := by
  have hkept : l ∈ (c.strongNormalize unsatPrePredPairs procName).literals <->
      l ∈ c.literals ∧ l.1 ∉ c.drop unsatPrePredPairs procName := by
    unfold strongNormalize
    rw [if_neg (Bool.eq_false_iff.mp hfalse),
      if_neg (Bool.eq_false_iff.mp hconflict), mem_literals, mem_literals]
    simp only [List.mem_filter, decide_eq_true_eq]
    tauto
  rw [hkept]
  constructor
  · rintro ⟨hl, hdrop⟩
    constructor
    · exact hl
    · intro m hm hcovers
      have hne : m ≠ l := by
        rintro rfl
        exact Nat.lt_irrefl _ (lt_of_covers hordered hcovers)
      exact hdrop (mem_drop.mpr ⟨m, l, mem_pairs hm hl hne, hcovers, rfl⟩)
  · rintro ⟨hl, hnot⟩
    constructor
    · exact hl
    · intro hdrop
      rcases mem_drop.mp hdrop with ⟨k, m, hpair, hcovers, heq⟩
      rcases mem_of_pairs hpair with ⟨hk, hm⟩
      rw [literal_unique hm hl heq] at hcovers
      exact hnot k hk hcovers

theorem isFalse_strongNormalize :
    (c.strongNormalize unsatPrePredPairs procName).isFalse = (c.isFalse || c.pairs.any (fun lm =>
        excludes unsatPrePredPairs procName lm.1 lm.2)) := by
  unfold strongNormalize
  split
  · rename_i hfalse
    rw [hfalse, Bool.true_or]
  · split
    · rename_i hconflict
      rw [hconflict, Bool.or_true]
      rfl
    · rename_i hconflict
      rw [Bool.eq_false_iff.mpr hconflict, Bool.or_false]

theorem not_holds_bottom : ¬ bottom.Holds v := by
  rintro ⟨h, _⟩
  cases h

theorem holds_strongNormalize (hordered : Ordered unsatPrePredPairs)
    (hfacts : FactsHold unsatPrePredPairs procName v) :
    (c.strongNormalize unsatPrePredPairs procName).Holds v <-> c.Holds v := by
  cases hfalse : c.isFalse with
  | true =>
    unfold strongNormalize
    rw [if_pos hfalse]
  | false =>
  cases hconflict : c.pairs.any (fun lm =>
      excludes unsatPrePredPairs procName lm.1 lm.2) with
  | true =>
    unfold strongNormalize
    rw [if_neg (Bool.eq_false_iff.mp hfalse), if_pos hconflict]
    constructor
    · exact fun h => absurd h not_holds_bottom
    · rintro ⟨_, hall⟩
      rcases List.any_eq_true.mp hconflict with ⟨⟨l, m⟩, hpair, hexcludes⟩
      rcases mem_of_pairs hpair with ⟨hl, hm⟩
      exact absurd ⟨hall l hl, hall m hm⟩ (hfacts l m hexcludes)
  | false =>
    have hmem := fun l =>
      mem_strongNormalize (l := l) hordered hfalse hconflict
    have hisFalse : (c.strongNormalize unsatPrePredPairs procName).isFalse =
        false := by
      rw [isFalse_strongNormalize, hfalse, hconflict]
      rfl
    constructor
    · rintro ⟨_, hall⟩
      constructor
      · exact hfalse
      · have hwf : WellFounded (fun l m =>
            covers unsatPrePredPairs procName l m = true) :=
          covers_wellFounded hordered
        apply Subsumption.forall_of_uncovered (P := Literal.Holds v)
          (S := {m | m ∈ c.literals}) hwf
        · exact fun l m hcovers hl => holds_of_covers hfacts hcovers hl
        · exact fun l hl => hall l ((hmem l).mpr hl)
    · rintro ⟨_, hall⟩
      exact ⟨hisFalse, fun l hl => hall l ((hmem l).mp hl).mem⟩

theorem exists_stronger_kept (hordered : Ordered unsatPrePredPairs) (hl : l ∈ c.literals)
    (hfalse : (c.strongNormalize unsatPrePredPairs procName).isFalse = false) :
    exists k, k ∈ (c.strongNormalize unsatPrePredPairs procName).literals ∧
      forall v : Valuation, FactsHold unsatPrePredPairs procName v -> k.Holds v -> l.Holds v := by
  rw [isFalse_strongNormalize, Bool.or_eq_false_iff] at hfalse
  rcases Subsumption.exists_uncovered (S := {m | m ∈ c.literals})
      (covers_wellFounded hordered) hl with ⟨k, hk, hreaches⟩
  refine ⟨k, (mem_strongNormalize hordered hfalse.1 hfalse.2).mpr hk, ?_⟩
  intro v hfacts hholds
  clear hl
  induction hreaches with
  | refl => exact hholds
  | tail _ hcovers ih => exact holds_of_covers hfacts hcovers ih

theorem holds_ofSets {pos neg : List Nat} (h : (ofSets conjunctBound pos neg).Holds v) :
    (forall p, p ∈ pos -> v p) ∧ forall p, p ∈ neg -> ¬ v p := by
  unfold ofSets at h
  split at h
  · exact absurd h not_holds_bottom
  · split at h
    · exact absurd h not_holds_bottom
    · constructor
      · intro p hp
        have hl := h.2 (p, true)
          (mem_literals.mpr (Or.inl ⟨rfl, mem_hashSet.mpr hp⟩))
        exact hl.mpr rfl
      · intro p hp hv
        have hl := h.2 (p, false)
          (mem_literals.mpr (Or.inr ⟨rfl, mem_hashSet.mpr hp⟩))
        cases hl.mp hv

theorem mem_literals_ofSets {pos neg : List Nat}
    (hfalse : (ofSets conjunctBound pos neg).isFalse = false)
    (h : (l.2 = true ∧ l.1 ∈ pos) ∨ (l.2 = false ∧ l.1 ∈ neg)) :
    l ∈ (ofSets conjunctBound pos neg).literals := by
  unfold ofSets at hfalse ⊢
  split at hfalse
  · cases hfalse
  · rename_i hoverlaps
    rw [dif_neg hoverlaps]
    split at hfalse
    · cases hfalse
    · rename_i hbound
      rw [if_neg hbound, mem_literals]
      simpa only [mem_hashSet] using h

theorem holds_singleton {p : Nat} {isPositive : Bool}
    (h : (singleton conjunctBound p isPositive).Holds v) :
    v p <-> isPositive = true := by
  cases isPositive with
  | true =>
    have hpos : (ofSets conjunctBound [p] []).Holds v := h
    exact iff_of_true ((holds_ofSets hpos).1 p List.mem_cons_self) rfl
  | false =>
    have hneg : (ofSets conjunctBound [] [p]).Holds v := h
    exact iff_of_false ((holds_ofSets hneg).2 p List.mem_cons_self)
      Bool.false_ne_true

theorem holds_iff : c.Holds v <-> c.isFalse = false ∧ (forall p, p ∈ c.posPreds -> v p) ∧
      forall p, p ∈ c.negPreds -> ¬ v p := by
  unfold Holds
  apply and_congr_right
  intro _
  constructor
  · intro h
    constructor
    · intro p hp
      exact (h (p, true) (mem_literals.mpr (Or.inl ⟨rfl, hp⟩))).mpr rfl
    · intro p hp hv
      cases (h (p, false) (mem_literals.mpr (Or.inr ⟨rfl, hp⟩))).mp hv
  · rintro ⟨hpos, hneg⟩ l hl
    unfold Literal.Holds
    rcases mem_literals.mp hl with ⟨hb, hp⟩ | ⟨hb, hp⟩
    · rw [hb]
      exact iff_of_true (hpos l.1 hp) rfl
    · rw [hb]
      exact iff_of_false (hneg l.1 hp) Bool.false_ne_true

theorem holds_of_and (hordered : Ordered unsatPrePredPairs)
    (hfacts : FactsHold unsatPrePredPairs procName v)
    (h : (c.and unsatPrePredPairs procName conjunctBound d).Holds v) :
    c.Holds v ∧ d.Holds v := by
  unfold and at h
  split at h
  · exact absurd h not_holds_bottom
  · rename_i hfalse
    rw [Bool.not_eq_true, Bool.or_eq_false_iff] at hfalse
    rw [holds_strongNormalize hordered hfacts] at h
    rcases holds_ofSets h with ⟨hpos, hneg⟩
    rw [List.forall_mem_append] at hpos hneg
    rw [holds_iff, holds_iff]
    exact ⟨⟨hfalse.1, hpos.1, hneg.1⟩, ⟨hfalse.2, hpos.2, hneg.2⟩⟩

theorem exists_stronger_of_and (hordered : Ordered unsatPrePredPairs)
    (hl : l ∈ c.literals ∨ l ∈ d.literals)
    (hfalse : (c.and unsatPrePredPairs procName conjunctBound d).isFalse = false) :
    exists k, k ∈ (c.and unsatPrePredPairs procName conjunctBound d).literals ∧
      forall v : Valuation, FactsHold unsatPrePredPairs procName v -> k.Holds v -> l.Holds v := by
  unfold and at hfalse ⊢
  split at hfalse
  · cases hfalse
  · rename_i hnot
    rw [if_neg hnot]
    apply exists_stronger_kept hordered _ hfalse
    rw [isFalse_strongNormalize, Bool.or_eq_false_iff] at hfalse
    apply mem_literals_ofSets hfalse.1
    rw [List.mem_append, List.mem_append]
    rcases hl with hl | hl
    · rcases mem_literals.mp hl with ⟨hb, hp⟩ | ⟨hb, hp⟩
      · exact Or.inl ⟨hb, Or.inl hp⟩
      · exact Or.inr ⟨hb, Or.inl hp⟩
    · rcases mem_literals.mp hl with ⟨hb, hp⟩ | ⟨hb, hp⟩
      · exact Or.inl ⟨hb, Or.inr hp⟩
      · exact Or.inr ⟨hb, Or.inr hp⟩

end Normalize

section Implies

variable {c d e : Conjunct} {v : Valuation}

theorem implies_eq_true : c.implies d = true <-> c.isFalse = true ∨
    (d.isFalse = false ∧ d.posPreds ⊆ c.posPreds ∧ d.negPreds ⊆ c.negPreds) := by
  unfold implies
  cases hc : c.isFalse with
  | true => simp
  | false =>
    cases hd : d.isFalse with
    | true => simp
    | false => simp [List.subset_def]

theorem holds_of_implies (h : c.implies d = true) (hc : c.Holds v) :
    d.Holds v := by
  rw [holds_iff] at hc ⊢
  rcases implies_eq_true.mp h with hfalse | ⟨hd, hpos, hneg⟩
  · rw [hc.1] at hfalse
    cases hfalse
  · exact ⟨hd, fun p hp => hc.2.1 p (hpos hp), fun p hp => hc.2.2 p (hneg hp)⟩

theorem implies_preorder :
    Subsumption.Preorder (fun d e => Conjunct.implies e d) where
  refl := by
    intro c
    rw [implies_eq_true]
    cases hc : c.isFalse with
    | true => exact Or.inl rfl
    | false => exact Or.inr ⟨rfl, List.Subset.refl _, List.Subset.refl _⟩
  trans := by
    intro c d e hdc hed
    rw [implies_eq_true] at hdc hed ⊢
    rcases hed with he | ⟨hd, hed⟩
    · exact Or.inl he
    · rcases hdc with hd' | ⟨hc, hdc⟩
      · rw [hd] at hd'
        cases hd'
      · exact Or.inr ⟨hc, List.Subset.trans hdc.1 hed.1,
          List.Subset.trans hdc.2 hed.2⟩

end Implies

end Conjunct

/-!
# The meaning of disjuncts
-/

namespace Disjunct

section Meaning

variable {unsatPrePredPairs : List PredPair} {procName : String}
  {conjunctBound : Int} {d d1 d2 : Disjunct} {v : Valuation}

theorem holds_addConjunct {result : List Conjunct} {c : Conjunct} :
    (exists e, e ∈ addConjunct result c ∧ e.Holds v) <->
      (exists e, e ∈ result ∧ e.Holds v) ∨ c.Holds v :=
  Subsumption.exists_addFirst Conjunct.implies_preorder
    (fun _ _ h => Conjunct.holds_of_implies h)

theorem not_holds_of_isFalse (h : d.isFalse = true) : ¬ d.Holds v := by
  unfold isFalse at h
  split at h
  · cases h
  · rename_i htrue
    rintro (hd | ⟨c, hc, _⟩)
    · exact htrue hd
    · rw [decide_eq_true_eq, List.length_eq_zero_iff] at h
      rw [h] at hc
      cases hc

theorem holds_of_and (hordered : Ordered unsatPrePredPairs)
    (hfacts : FactsHold unsatPrePredPairs procName v)
    (h : (d1.and unsatPrePredPairs procName conjunctBound d2).Holds v) :
    d1.Holds v ∧ d2.Holds v := by
  unfold and at h
  split at h
  · rename_i h1
    exact ⟨Or.inl h1, h⟩
  · split at h
    · rename_i h2
      exact ⟨h, Or.inl h2⟩
    · rcases h with h | hsome
      · cases h
      · revert hsome
        dsimp only
        apply List.foldlRecOn (motive := fun result : List Conjunct =>
          (exists e, e ∈ result ∧ e.Holds v) -> d1.Holds v ∧ d2.Holds v)
        · rintro ⟨e, he, _⟩
          cases he
        · intro result hresult c1 hc1
          apply List.foldlRecOn (motive := fun result : List Conjunct =>
            (exists e, e ∈ result ∧ e.Holds v) -> d1.Holds v ∧ d2.Holds v)
          · exact hresult
          · intro result hresult c2 hc2
            split
            · exact hresult
            · rw [holds_addConjunct]
              rintro (hold | hnew)
              · exact hresult hold
              · rcases Conjunct.holds_of_and hordered hfacts hnew with ⟨h1, h2⟩
                exact ⟨Or.inr ⟨c1, hc1, h1⟩, Or.inr ⟨c2, hc2, h2⟩⟩

theorem holds_or : (d1.or d2).Holds v <-> d1.Holds v ∨ d2.Holds v := by
  unfold or
  split
  · rename_i h
    exact ⟨Or.inl, fun _ => Or.inl h⟩
  · split
    · rename_i h
      exact ⟨Or.inr, fun _ => Or.inl h⟩
    · split
      · rename_i h
        exact ⟨Or.inr, fun hor => hor.resolve_left (not_holds_of_isFalse h)⟩
      · split
        · rename_i h
          exact ⟨Or.inl, fun hor => hor.resolve_right (not_holds_of_isFalse h)⟩
        · rename_i h1 h2 _ _
          have hfold : (exists c,
                c ∈ d2.conjuncts.foldl addConjunct d1.conjuncts ∧
                  c.Holds v) <->
              (exists c, c ∈ d1.conjuncts ∧ c.Holds v) ∨
                exists c, c ∈ d2.conjuncts ∧ c.Holds v :=
            Subsumption.exists_foldl_addFirst Conjunct.implies_preorder
              (fun _ _ h => Conjunct.holds_of_implies h)
          unfold Holds
          rw [Bool.not_eq_true] at h1 h2
          simp only [h1, h2, Bool.false_eq_true, false_or]
          exact hfold

theorem holds_of_syntacticLessThan (h : d1.syntacticLessThan d2 = true)
    (hd : d1.Holds v) : d2.Holds v := by
  unfold syntacticLessThan at h
  split at h
  · rename_i h2
    exact Or.inl h2
  · split at h
    · cases h
    · split at h
      · rename_i h1
        exact absurd hd (not_holds_of_isFalse h1)
      · split at h
        · cases h
        · rename_i htrue _ _
          rcases hd with hd | ⟨c1, hc1, hholds⟩
          · exact absurd hd htrue
          · have hany := List.all_eq_true.mp h c1 hc1
            rcases List.any_eq_true.mp hany with ⟨c2, hc2, hless⟩
            exact Or.inr ⟨c2, hc2, Conjunct.holds_of_implies hless hholds⟩

theorem holds_subtract {that : Disjunct} (hnot : ¬ that.Holds v) :
    (d.subtract that).Holds v <-> d.Holds v := by
  unfold subtract Holds
  apply or_congr_right
  constructor
  · rintro ⟨c, hc, hholds⟩
    exact ⟨c, List.mem_of_mem_filter hc, hholds⟩
  · rintro ⟨c, hc, hholds⟩
    refine ⟨c, List.mem_filter.mpr ⟨hc, ?_⟩, hholds⟩
    rw [Bool.not_eq_true', List.any_eq_false]
    intro c2 hc2 himplies
    exact hnot (Or.inr ⟨c2, hc2, Conjunct.holds_of_implies himplies hholds⟩)

end Meaning

end Disjunct

end PredicateAbs

end Boogie
