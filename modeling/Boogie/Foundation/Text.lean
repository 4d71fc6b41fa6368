import Mathlib.Data.List.Basic
import Std.Data.String.ToNat

/-!
# Texts of lines and columns

A text is divided by a separator into parts.  Parts without the separator come
back when they are put together and divided again.
-/

namespace Text

def splitAt (sep : Char) (text : String) : List String :=
  (text.toList.splitOn sep).map String.ofList

def lines (text : String) : List String :=
  splitAt '\n' text

def unlines : List String -> String
  | [] => ""
  | line :: rest => line ++ "\n" ++ unlines rest

/-- The parts after `first`, each with a separator in front. -/
def join (sep : Char) (first : String) : List String -> String
  | [] => first
  | part :: rest => join sep (first ++ String.singleton sep ++ part) rest

def separated (sep : Char) : List String -> String
  | [] => ""
  | [part] => part
  | part :: next :: rest =>
    part ++ String.singleton sep ++ separated sep (next :: rest)

theorem append_toString_injective {stem : String} {m n : Nat}
    (h : stem ++ toString m = stem ++ toString n) : m = n := by
  have hlist := congrArg String.toList h
  simp only [String.toList_append, List.append_cancel_left_eq] at hlist
  exact Nat.repr_injective (String.toList_inj.mp hlist)

theorem append_cons_inj {A : Type} {p : A -> Bool} {c : A}
    {xs ys us vs : List A} (hc : p c = false) (hus : forall u, u ∈ us -> p u = true)
    (hvs : forall v, v ∈ vs -> p v = true)
    (h : xs ++ c :: us = ys ++ c :: vs) : xs = ys ∧ us = vs := by
  have hend : forall {zs ws : List A}, (forall w, w ∈ ws -> p w = true) ->
      (zs ++ c :: ws).reverse.takeWhile p = ws.reverse := by
    intro zs ws hws
    rw [List.reverse_append, List.reverse_cons, List.append_assoc,
      List.takeWhile_append_of_pos (fun w hw => hws w (List.mem_reverse.mp hw)),
      List.singleton_append, List.takeWhile_cons_of_neg (by simp [hc]),
      List.append_nil]
  have heq : us.reverse = vs.reverse := by
    rw [← hend hus, ← hend hvs, h]
  rw [List.reverse_inj] at heq
  rw [heq, List.append_cancel_right_eq] at h
  exact ⟨h, heq⟩

theorem append_toString_inj {a b stem : String} {c : Char} {m n : Nat}
    (hstem : stem.toList.getLast? = some c) (hc : c.isDigit = false)
    (h : a ++ stem ++ toString m = b ++ stem ++ toString n) :
    a = b ∧ m = n := by
  have hdigits : forall k : Nat, forall d, d ∈ (toString k).toList ->
      d.isDigit = true := by
    intro k d hd
    rw [Nat.toString_eq_repr, Nat.toList_repr] at hd
    exact Nat.isDigit_of_mem_toDigits (by decide) (by decide) hd
  rcases List.getLast?_eq_some_iff.mp hstem with ⟨front, hstem⟩
  have hlist := congrArg String.toList h
  rw [String.toList_append, String.toList_append, String.toList_append,
    String.toList_append, hstem, ← List.append_assoc, ← List.append_assoc,
    List.append_assoc _ [c], List.append_assoc _ [c]] at hlist
  rcases append_cons_inj hc (hdigits m) (hdigits n) hlist with ⟨hfront, hnumber⟩
  constructor
  · exact String.toList_inj.mp (List.append_cancel_right hfront)
  · exact Nat.repr_injective (String.toList_inj.mp hnumber)

section Split

variable {sep : Char} {part text : String} {parts : List String}

theorem splitAt_singleton (h : sep ∉ part.toList) :
    splitAt sep part = [part] := by
  unfold splitAt
  rw [List.splitOn_eq_singleton h]
  simp

theorem splitAt_append (h : sep ∉ part.toList) :
    splitAt sep (part ++ String.singleton sep ++ text) = part :: splitAt sep text := by
  unfold splitAt
  rw [String.toList_append, String.toList_append, String.toList_singleton,
    List.append_assoc, List.singleton_append,
    List.splitOn_append_cons_self_of_not_mem h]
  simp

theorem join_append {first : String} :
    join sep (text ++ first) parts = text ++ join sep first parts := by
  induction parts generalizing first with
  | nil => rfl
  | cons part parts ih =>
    rw [join, join, String.append_assoc, String.append_assoc, ih,
      String.append_assoc]

theorem splitAt_join {first : String} (hfirst : sep ∉ first.toList)
    (h : forall part, part ∈ parts -> sep ∉ part.toList) :
    splitAt sep (join sep first parts) = first :: parts := by
  induction parts generalizing first with
  | nil => exact splitAt_singleton hfirst
  | cons part parts ih =>
    rw [join, join_append, splitAt_append hfirst,
      ih (h part List.mem_cons_self)
        (fun q hq => h q (List.mem_cons_of_mem _ hq))]

theorem mem_toList_separated {c : Char} (h : c ∈ (separated sep parts).toList) :
    c = sep ∨ exists part, part ∈ parts ∧ c ∈ part.toList := by
  induction parts with
  | nil => cases h
  | cons part parts ih =>
    cases parts with
    | nil => exact Or.inr ⟨part, List.mem_cons_self, h⟩
    | cons next rest =>
      simp only [separated, String.toList_append, String.toList_singleton,
        List.mem_append, List.mem_singleton] at h
      rcases h with (hpart | hsep) | hrest
      · exact Or.inr ⟨part, List.mem_cons_self, hpart⟩
      · exact Or.inl hsep
      · rcases ih hrest with hsep | ⟨q, hq, hc⟩
        · exact Or.inl hsep
        · exact Or.inr ⟨q, List.mem_cons_of_mem _ hq, hc⟩

theorem lines_append {line : String} (h : '\n' ∉ line.toList) :
    lines (line ++ "\n" ++ text) = line :: lines text :=
  splitAt_append h

theorem lines_unlines_append {rows : List String}
    (h : forall row, row ∈ rows -> '\n' ∉ row.toList) :
    lines (unlines rows ++ text) = rows ++ lines text := by
  induction rows with
  | nil => rw [unlines, String.empty_append, List.nil_append]
  | cons row rows ih =>
    rw [unlines, String.append_assoc, lines_append (h row List.mem_cons_self),
      ih (fun q hq => h q (List.mem_cons_of_mem _ hq)), List.cons_append]

theorem unlines_append (rows rows' : List String) :
    unlines (rows ++ rows') = unlines rows ++ unlines rows' := by
  induction rows with
  | nil => rw [unlines, String.empty_append, List.nil_append]
  | cons row rows ih =>
    rw [List.cons_append, unlines, unlines, ih]
    simp only [String.append_assoc]

theorem mem_toList_unlines {rows : List String} {c : Char} (h : c ∈ (unlines rows).toList) :
    c = '\n' ∨ exists row, row ∈ rows ∧ c ∈ row.toList := by
  induction rows with
  | nil => cases h
  | cons row rows ih =>
    rw [unlines, String.toList_append, String.toList_append, List.mem_append,
      List.mem_append] at h
    rcases h with (hrow | hfeed) | hrest
    · exact Or.inr ⟨row, List.mem_cons_self, hrow⟩
    · exact Or.inl (List.mem_singleton.mp hfeed)
    · rcases ih hrest with hfeed | ⟨row', hmem, hc⟩
      · exact Or.inl hfeed
      · exact Or.inr ⟨row', List.mem_cons_of_mem _ hmem, hc⟩

theorem mem_toList_join {c : Char} {first : String} :
    c ∈ (join sep first parts).toList ->
      c ∈ first.toList ∨ c = sep ∨ exists part, part ∈ parts ∧ c ∈ part.toList := by
  induction parts generalizing first with
  | nil => exact Or.inl
  | cons part parts ih =>
    intro h
    rcases ih h with hfirst | hsep | ⟨q, hq, hc⟩
    · simp only [String.toList_append, String.toList_singleton,
        List.mem_append, List.mem_singleton] at hfirst
      rcases hfirst with (hfirst | hsep) | hpart
      · exact Or.inl hfirst
      · exact Or.inr (Or.inl hsep)
      · exact Or.inr (Or.inr ⟨part, List.mem_cons_self, hpart⟩)
    · exact Or.inr (Or.inl hsep)
    · exact Or.inr (Or.inr ⟨q, List.mem_cons_of_mem _ hq, hc⟩)

end Split

end Text
