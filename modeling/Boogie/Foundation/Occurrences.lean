import Mathlib.Data.List.Infix

/-!
# Occurrences of one list in another

The first and the last occurrence of a pattern in a text, and the parts of a text
between the occurrences.
-/

namespace Occurrences

variable {A : Type} [DecidableEq A]

def splitFirst (pat : List A) : List A -> Option (List A × List A)
  | [] => if pat = [] then some ([], []) else none
  | c :: cs =>
    if pat <+: c :: cs then some ([], (c :: cs).drop pat.length)
    else (splitFirst pat cs).map (fun parts => (c :: parts.1, parts.2))

def splitLast (pat : List A) : List A -> Option (List A × List A)
  | [] => if pat = [] then some ([], []) else none
  | c :: cs =>
    match splitLast pat cs with
    | some parts => some (c :: parts.1, parts.2)
    | none => if pat <+: c :: cs then some ([], (c :: cs).drop pat.length) else none

def splitAll (pat : List A) (cs : List A) : List (List A) :=
  match splitFirst pat cs with
  | none => [cs]
  | some (a, b) => if b.length < cs.length then a :: splitAll pat b else [a, b]
termination_by cs.length

/-!
# The first occurrence
-/

section First

variable {pat cs u z a b : List A}

theorem splitFirst_nil :
    splitFirst pat [] = if pat = [] then some ([], []) else none := rfl

theorem splitFirst_cons (c : A) :
    splitFirst pat (c :: cs) =
      if pat <+: c :: cs then some ([], (c :: cs).drop pat.length)
      else (splitFirst pat cs).map (fun parts => (c :: parts.1, parts.2)) := rfl

theorem splitFirst_eq (h : splitFirst pat cs = some (a, b)) : cs = a ++ (pat ++ b) := by
  induction cs generalizing a b with
  | nil =>
    rw [splitFirst_nil] at h
    split at h
    next hpat =>
      rw [Option.some.injEq, Prod.mk.injEq] at h
      rw [← h.left, ← h.right, hpat]
      rfl
    next => cases h
  | cons c cs ih =>
    rw [splitFirst_cons] at h
    split at h
    next hstarts =>
      rw [Option.some.injEq, Prod.mk.injEq] at h
      rw [← h.left, ← h.right, List.nil_append]
      exact (List.prefix_iff_eq_append.mp hstarts).symm
    next =>
      rcases Option.map_eq_some_iff.mp h with ⟨⟨a', b'⟩, hrest, heq⟩
      rw [Prod.mk.injEq] at heq
      rw [← heq.left, ← heq.right, ih hrest]
      rfl

theorem splitFirst_none_iff :
    splitFirst pat cs = none <-> forall v, v <:+ cs -> ¬pat <+: v := by
  induction cs with
  | nil =>
    rw [splitFirst_nil]
    constructor
    · intro h v hv
      rw [List.suffix_nil] at hv
      rw [hv, List.prefix_nil]
      intro hpat
      rw [if_pos hpat] at h
      cases h
    · intro h
      rw [if_neg]
      rintro rfl
      exact h [] List.suffix_rfl (List.nil_prefix ..)
  | cons c cs ih =>
    rw [splitFirst_cons]
    constructor
    · intro h v hv
      split at h
      next => cases h
      next hnot =>
        rw [Option.map_eq_none_iff] at h
        rcases List.suffix_cons_iff.mp hv with rfl | hrest
        · exact hnot
        · exact ih.mp h v hrest
    · intro h
      rw [if_neg (h _ List.suffix_rfl), Option.map_eq_none_iff]
      exact ih.mpr (fun v hv => h v (hv.trans (List.suffix_cons c cs)))

theorem splitFirst_none_of_suffix (h : splitFirst pat cs = none) (hb : b <:+ cs) :
    splitFirst pat b = none :=
  splitFirst_none_iff.mpr (fun v hv => splitFirst_none_iff.mp h v (hv.trans hb))

theorem splitFirst_none_iff_avoids : splitFirst pat cs = none <-> ¬pat <:+: cs := by
  rw [splitFirst_none_iff]
  constructor
  · rintro h ⟨x, y, rfl⟩
    refine h (pat ++ y) ?_ (List.prefix_append ..)
    rw [List.append_assoc]
    exact List.suffix_append ..
  · rintro h v hv hpat
    exact h (hpat.isInfix.trans hv.isInfix)

theorem splitFirst_append (h : splitFirst pat u = some (a, b)) :
    splitFirst pat (u ++ z) = some (a, b ++ z) := by
  induction u generalizing a b with
  | nil =>
    rw [splitFirst_nil] at h
    split at h
    next hpat =>
      rw [Option.some.injEq, Prod.mk.injEq] at h
      rw [← h.left, ← h.right, hpat]
      cases z with
      | nil => rfl
      | cons d z => rw [List.nil_append, splitFirst_cons, if_pos (List.nil_prefix ..)]; rfl
    next => cases h
  | cons c u ih =>
    have hlength := congrArg List.length (splitFirst_eq h)
    rw [List.length_append, List.length_append] at hlength
    have hstarts : pat <+: c :: (u ++ z) <-> pat <+: c :: u := by
      rw [← List.cons_append]
      constructor
      · intro hp
        exact List.prefix_of_prefix_length_le hp (List.prefix_append ..) (by omega)
      · intro hp
        exact hp.trans (List.prefix_append ..)
    rw [List.cons_append, splitFirst_cons]
    rw [splitFirst_cons] at h
    split at h
    next hp =>
      rw [Option.some.injEq, Prod.mk.injEq] at h
      rw [if_pos (hstarts.mpr hp), ← h.left, ← h.right, ← List.cons_append,
        List.drop_append_of_le_length hp.length_le]
    next hp =>
      rcases Option.map_eq_some_iff.mp h with ⟨⟨a', b'⟩, hrest, heq⟩
      rw [Prod.mk.injEq] at heq
      rw [if_neg (mt hstarts.mp hp), ih hrest, ← heq.left, ← heq.right]
      rfl

theorem splitFirst_append_of_none (h : forall v, v <:+ u -> v ≠ [] -> ¬pat <+: v ++ z) :
    splitFirst pat (u ++ z) = (splitFirst pat z).map (fun parts => (u ++ parts.1, parts.2)) := by
  induction u with
  | nil => cases hz : splitFirst pat z <;> simp [hz]
  | cons c u ih =>
    have hnot := h (c :: u) List.suffix_rfl (List.cons_ne_nil c u)
    rw [List.cons_append] at hnot
    rw [List.cons_append, splitFirst_cons, if_neg hnot,
      ih (fun v hv hne => h v (hv.trans (List.suffix_cons c u)) hne), Option.map_map]
    rfl

theorem splitFirst_self : splitFirst pat (pat ++ b) = some ([], b) := by
  cases hcs : pat ++ b with
  | nil =>
    rcases List.append_eq_nil_iff.mp hcs with ⟨rfl, rfl⟩
    rfl
  | cons c cs =>
    have hp : pat <+: c :: cs := by
      rw [← hcs]
      exact List.prefix_append ..
    rw [splitFirst_cons, if_pos hp, ← hcs, List.drop_left]

theorem suffix_of_splitFirst_none (hu : splitFirst pat u = none)
    (h : splitFirst pat (u ++ z) = some (a, b)) : b <:+ z := by
  have heq := splitFirst_eq h
  have hb : b <:+ u ++ z := by
    rw [heq, ← List.append_assoc]
    exact List.suffix_append ..
  rcases Nat.le_total b.length z.length with hle | hle
  · exact List.suffix_of_suffix_length_le hb (List.suffix_append ..) hle
  · rcases List.suffix_of_suffix_length_le (List.suffix_append u z) hb hle with ⟨y, rfl⟩
    rw [← List.append_assoc, ← List.append_assoc, List.append_cancel_right_eq] at heq
    refine absurd ⟨a, y, ?_⟩ (splitFirst_none_iff_avoids.mp hu)
    rw [heq]

end First

/-!
# The last occurrence
-/

section Last

variable {pat cs u z a b m : List A}

theorem splitLast_nil :
    splitLast pat [] = if pat = [] then some ([], []) else none := rfl

theorem splitLast_cons (c : A) :
    splitLast pat (c :: cs) =
      match splitLast pat cs with
      | some parts => some (c :: parts.1, parts.2)
      | none => if pat <+: c :: cs then some ([], (c :: cs).drop pat.length) else none := rfl

theorem splitLast_eq (h : splitLast pat cs = some (a, b)) : cs = a ++ (pat ++ b) := by
  induction cs generalizing a b with
  | nil =>
    rw [splitLast_nil] at h
    split at h
    next hpat =>
      rw [Option.some.injEq, Prod.mk.injEq] at h
      rw [← h.left, ← h.right, hpat]
      rfl
    next => cases h
  | cons c cs ih =>
    rw [splitLast_cons] at h
    split at h
    next parts hrest =>
      rw [Option.some.injEq, Prod.mk.injEq] at h
      rw [← h.left, ← h.right, ih hrest]
      rfl
    next =>
      split at h
      next hstarts =>
        rw [Option.some.injEq, Prod.mk.injEq] at h
        rw [← h.left, ← h.right, List.nil_append]
        exact (List.prefix_iff_eq_append.mp hstarts).symm
      next => cases h

theorem splitLast_none_iff : splitLast pat cs = none <-> splitFirst pat cs = none := by
  induction cs with
  | nil => rw [splitLast_nil, splitFirst_nil]
  | cons c cs ih =>
    rw [splitLast_cons, splitFirst_cons]
    cases hlast : splitLast pat cs with
    | none =>
      rw [ih.mp hlast]
      dsimp only
      split
      · exact ⟨fun h => h, fun h => h⟩
      · exact ⟨fun _ => rfl, fun _ => rfl⟩
    | some parts =>
      have hfirst : splitFirst pat cs ≠ none := by
        intro h
        rw [ih.mpr h] at hlast
        cases hlast
      constructor
      · intro h
        cases h
      · intro h
        split at h
        · cases h
        · exact absurd (Option.map_eq_none_iff.mp h) hfirst

theorem splitLast_append (h : splitLast pat cs = some (m, z)) :
    splitLast pat (u ++ cs) = some (u ++ m, z) := by
  induction u with
  | nil => exact h
  | cons c u ih =>
    rw [List.cons_append, splitLast_cons, ih]
    rfl

theorem splitFirst_none_of_splitLast (hpat : pat ≠ [])
    (h : splitLast pat cs = some (m, z)) : splitFirst pat z = none := by
  induction cs generalizing m with
  | nil =>
    rw [splitLast_nil, if_neg hpat] at h
    cases h
  | cons c cs ih =>
    rw [splitLast_cons] at h
    cases hlast : splitLast pat cs with
    | some parts =>
      rw [hlast, Option.some.injEq, Prod.mk.injEq] at h
      exact ih (hlast.trans (congrArg some (Prod.ext rfl h.right)))
    | none =>
      rw [hlast] at h
      dsimp only at h
      split at h
      next =>
        rw [Option.some.injEq, Prod.mk.injEq] at h
        refine splitFirst_none_of_suffix (splitLast_none_iff.mp hlast) ?_
        rcases List.exists_cons_of_ne_nil hpat with ⟨d, pat', rfl⟩
        rw [← h.right, List.length_cons, List.drop_succ_cons]
        exact List.drop_suffix ..
      next => cases h

def Unbordered (pat : List A) : Prop :=
  forall v, v <:+ pat -> v <+: pat -> v = [] ∨ v = pat

instance : Decidable (Unbordered pat) :=
  decidable_of_iff (forall v, v ∈ pat.tails -> v <+: pat -> v = [] ∨ v = pat)
    (forall_congr' (fun v => by rw [List.mem_tails]))

def Clear (pat u z : List A) : Prop :=
  forall v, v <:+ u -> pat <+: v ++ z -> pat <+: v

omit [DecidableEq A] in
theorem Clear.mono (h : Clear pat u z) (hv : a <:+ u) : Clear pat a z :=
  fun v hva => h v (hva.trans hv)

theorem Clear.splitFirst_none (h : Clear pat u z) (hu : splitFirst pat u = none)
    (hz : splitFirst pat z = none) : splitFirst pat (u ++ z) = none := by
  rw [splitFirst_append_of_none, hz]
  · rfl
  · intro v hv _ hpat
    exact splitFirst_none_iff.mp hu v hv (h v hv hpat)

theorem Unbordered.clear (hborder : Unbordered pat) (hz : splitFirst pat z = none) :
    Clear pat (m ++ pat) z := by
  intro v hv hstarts
  rcases Nat.lt_or_ge v.length pat.length with hlt | hle
  · have hsuffix := List.suffix_of_suffix_length_le hv (List.suffix_append ..) hlt.le
    have hfront := List.prefix_of_prefix_length_le (List.prefix_append v z) hstarts hlt.le
    rcases hborder v hsuffix hfront with rfl | rfl
    · exact absurd hstarts (splitFirst_none_iff.mp hz _ List.suffix_rfl)
    · exact absurd rfl hlt.ne
  · exact List.prefix_of_prefix_length_le hstarts (List.prefix_append ..) hle

theorem splitLast_of_splitFirst (hpat : pat ≠ []) (hborder : Unbordered pat)
    (h : splitFirst pat cs = some (a, b)) :
    splitLast pat cs = match splitLast pat b with
      | none => some (a, b)
      | some (m, z) => some (a ++ (pat ++ m), z) := by
  rw [splitFirst_eq h]
  cases hlast : splitLast pat b with
  | some parts =>
    rw [← List.append_assoc, splitLast_append hlast, List.append_assoc]
  | none =>
    have hself : splitLast pat (pat ++ b) = some ([], b) := by
      have hb := splitLast_none_iff.mp hlast
      rcases List.exists_cons_of_ne_nil hpat with ⟨c, rest, rfl⟩
      have hrest : splitFirst (c :: rest) rest = none := by
        rw [splitFirst_none_iff]
        intro v hv hstarts
        have hle := hstarts.length_le.trans hv.length_le
        rw [List.length_cons] at hle
        exact absurd hle (Nat.not_succ_le_self _)
      have hclear : Clear (c :: rest) rest b :=
        (hborder.clear (m := []) hb).mono (List.suffix_cons c rest)
      rw [List.cons_append, splitLast_cons,
        splitLast_none_iff.mpr (hclear.splitFirst_none hrest hb), ← List.cons_append]
      dsimp only
      rw [if_pos (List.prefix_append ..), List.drop_left]
    have := splitLast_append (u := a) hself
    rwa [List.append_nil] at this

end Last

/-!
# The parts
-/

theorem splitAll_of_none {pat cs : List A} (h : splitFirst pat cs = none) :
    splitAll pat cs = [cs] := by
  rw [splitAll, h]

theorem splitAll_of_some {pat cs a b : List A} (hpat : pat ≠ [])
    (h : splitFirst pat cs = some (a, b)) : splitAll pat cs = a :: splitAll pat b := by
  have hlength := congrArg List.length (splitFirst_eq h)
  have hpos := List.length_pos_of_ne_nil hpat
  rw [List.length_append, List.length_append] at hlength
  rw [splitAll, h]
  exact if_pos (by omega)

theorem prefix_of_splitAll {pat cs : List A} :
    exists a rest, splitAll pat cs = a :: rest ∧ a <+: cs := by
  rw [splitAll]
  cases h : splitFirst pat cs with
  | none => exact ⟨cs, [], rfl, List.prefix_rfl⟩
  | some parts =>
    have hstarts : parts.1 <+: cs := by
      rw [splitFirst_eq h]
      exact List.prefix_append ..
    dsimp only
    split
    · exact ⟨_, _, rfl, hstarts⟩
    · exact ⟨_, _, rfl, hstarts⟩

/-!
# Regions

A region starts with one pattern and ends with the next occurrence of another one.
-/

section Regions

variable {start close payload : List A}

def splitRegion (start close text : List A) : Option (List A × List A × List A) :=
  (splitFirst start text).bind (fun parts =>
    (splitFirst close parts.2).map (fun rest => (parts.1, rest.1, rest.2)))

def replaceRegions (start close payload text : List A) : List A :=
  match splitRegion start close text with
  | none => text
  | some (before, _, rest) =>
    if rest.length < text.length then
      before ++ (payload ++ replaceRegions start close payload rest)
    else text
termination_by text.length

theorem splitRegion_eq {text before inside rest : List A}
    (h : splitRegion start close text = some (before, inside, rest)) :
    text = before ++ (start ++ (inside ++ (close ++ rest))) := by
  rcases Option.bind_eq_some_iff.mp h with ⟨parts, hstart, hclose⟩
  rcases Option.map_eq_some_iff.mp hclose with ⟨parts', hclose, heq⟩
  rw [Prod.mk.injEq, Prod.mk.injEq] at heq
  rw [splitFirst_eq hstart, splitFirst_eq hclose, heq.left, heq.right.left, heq.right.right]

theorem replaceRegions_of_none {text : List A} (h : splitRegion start close text = none) :
    replaceRegions start close payload text = text := by
  rw [replaceRegions, h]

theorem replaceRegions_of_some {text before inside rest : List A} (hstart : start ≠ [])
    (h : splitRegion start close text = some (before, inside, rest)) :
    replaceRegions start close payload text =
      before ++ (payload ++ replaceRegions start close payload rest) := by
  have hlength := congrArg List.length (splitRegion_eq h)
  have hpos := List.length_pos_of_ne_nil hstart
  simp only [List.length_append] at hlength
  rw [replaceRegions, h]
  exact if_pos (by omega)

theorem replaceRegions_append {u z : List A} (hstart : start ≠ []) (hclear : Clear close u z)
    (hz : splitFirst close z = none) :
    replaceRegions start close payload (u ++ z) = replaceRegions start close payload u ++ z := by
  induction hn : u.length using Nat.strong_induction_on generalizing u with
  | h n ih =>
    cases hu : splitFirst start u with
    | none =>
      have hnone : splitRegion start close u = none := by rw [splitRegion, hu]; rfl
      rw [replaceRegions_of_none hnone, replaceRegions_of_none]
      rw [splitRegion]
      cases huz : splitFirst start (u ++ z) with
      | none => rfl
      | some parts =>
        have hsuffix := suffix_of_splitFirst_none hu huz
        rw [Option.bind_some, splitFirst_none_of_suffix hz hsuffix]
        rfl
    | some parts =>
      have huz := splitFirst_append (z := z) hu
      have hrest : parts.2 <:+ u := by
        rw [splitFirst_eq hu, ← List.append_assoc]
        exact List.suffix_append ..
      cases hclose : splitFirst close parts.2 with
      | none =>
        have hnone : splitRegion start close u = none := by
          rw [splitRegion, hu, Option.bind_some, hclose]
          rfl
        rw [replaceRegions_of_none hnone, replaceRegions_of_none]
        rw [splitRegion, huz, Option.bind_some,
          (hclear.mono hrest).splitFirst_none hclose hz]
        rfl
      | some parts' =>
        have hsome : splitRegion start close u =
            some (parts.1, parts'.1, parts'.2) := by
          rw [splitRegion, hu, Option.bind_some, hclose]
          rfl
        have hsome' : splitRegion start close (u ++ z) =
            some (parts.1, parts'.1, parts'.2 ++ z) := by
          rw [splitRegion, huz, Option.bind_some, splitFirst_append hclose]
          rfl
        have heq := splitRegion_eq hsome
        have hsuffix : parts'.2 <:+ u := by
          rw [heq, ← List.append_assoc, ← List.append_assoc, ← List.append_assoc]
          exact List.suffix_append ..
        have hlt : parts'.2.length < n := by
          have hlength := congrArg List.length heq
          have hpos := List.length_pos_of_ne_nil hstart
          simp only [List.length_append] at hlength
          omega
        rw [replaceRegions_of_some hstart hsome, replaceRegions_of_some hstart hsome',
          ih _ hlt (hclear.mono hsuffix) rfl, List.append_assoc, List.append_assoc]

theorem replaceRegions_eq_nil {text : List A} (hstart : start ≠ [])
    (h : replaceRegions start close payload text = []) : text = [] ∨ payload = [] := by
  cases hregion : splitRegion start close text with
  | none =>
    rw [replaceRegions_of_none hregion] at h
    exact Or.inl h
  | some parts =>
    rw [replaceRegions_of_some hstart hregion, List.append_eq_nil_iff,
      List.append_eq_nil_iff] at h
    exact Or.inr h.right.left

end Regions

end Occurrences
