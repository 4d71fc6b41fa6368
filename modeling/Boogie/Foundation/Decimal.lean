import Mathlib.Data.Nat.Digits.Lemmas
import Mathlib.Tactic.Ring

/-!
# Decimal digits

Numbers and the digits that write them, the most significant digit first.
-/

namespace Decimal

def ofDigits (ds : List Nat) : Nat :=
  ds.foldl (fun n d => 10 * n + d) 0

theorem foldl_eq (ds : List Nat) (n : Nat) :
    ds.foldl (fun n d => 10 * n + d) n = n * 10 ^ ds.length + ofDigits ds := by
  induction ds generalizing n with
  | nil => simp [ofDigits]
  | cons d ds ih =>
    rw [ofDigits, List.foldl_cons, List.foldl_cons, ih, ih, List.length_cons,
      pow_succ]
    ring

@[simp] theorem ofDigits_nil : ofDigits [] = 0 := rfl

theorem ofDigits_singleton (d : Nat) : ofDigits [d] = d := by
  simp [ofDigits]

theorem ofDigits_append (ds es : List Nat) :
    ofDigits (ds ++ es) = ofDigits ds * 10 ^ es.length + ofDigits es := by
  rw [ofDigits, List.foldl_append, foldl_eq]
  rfl

theorem ofDigits_replicate_zero (n : Nat) :
    ofDigits (List.replicate n 0) = 0 := by
  induction n with
  | zero => rfl
  | succ n ih =>
    rw [List.replicate_succ', ofDigits_append, ih, ofDigits_singleton,
      Nat.zero_mul]

theorem ofDigits_lt {ds : List Nat} (h : forall d, d ∈ ds -> d < 10) :
    ofDigits ds < 10 ^ ds.length := by
  induction ds using List.reverseRecOn with
  | nil => simp
  | append_singleton ds d ih =>
    have hlast := h d (by simp)
    have hinit := ih (fun e he => h e (List.mem_append_left [d] he))
    rw [ofDigits_append, ofDigits_singleton, List.length_append,
      List.length_singleton, pow_one, pow_succ]
    omega

theorem ofDigits_take_drop {ds : List Nat} (h : forall d, d ∈ ds -> d < 10) (i : Nat) :
    ofDigits (ds.take i) = ofDigits ds / 10 ^ (ds.length - i) := by
  have hsplit := ofDigits_append (ds.take i) (ds.drop i)
  have hlt := ofDigits_lt (fun d hd => h d (List.mem_of_mem_drop hd) :
    forall d, d ∈ ds.drop i -> d < 10)
  rw [List.take_append_drop] at hsplit
  rw [List.length_drop] at hsplit hlt
  rw [hsplit, Nat.add_comm, Nat.add_mul_div_right _ _ (by positivity),
    Nat.div_eq_of_lt hlt, Nat.zero_add]

/-!
# The digits of a number
-/

def digits (n : Nat) : List Nat :=
  if n = 0 then [0] else (Nat.digits 10 n).reverse

theorem digits_lt {n d : Nat} (h : d ∈ digits n) : d < 10 := by
  unfold digits at h
  split at h
  · rw [List.mem_singleton.mp h]
    decide
  · exact Nat.digits_lt_base (by decide) (List.mem_reverse.mp h)

theorem digits_ne_nil (n : Nat) : digits n ≠ [] := by
  unfold digits
  split
  · exact List.cons_ne_nil 0 []
  · next h =>
      intro hnil
      exact Nat.digits_ne_nil_iff_ne_zero.mpr h (List.reverse_eq_nil_iff.mp hnil)

theorem ofDigits_reverse (ds : List Nat) :
    ofDigits ds.reverse = Nat.ofDigits 10 ds := by
  induction ds with
  | nil => rfl
  | cons d ds ih =>
    rw [List.reverse_cons, ofDigits_append, ih, ofDigits_singleton,
      List.length_singleton, pow_one, Nat.ofDigits_cons, Nat.mul_comm,
      Nat.add_comm]

theorem ofDigits_digits (n : Nat) : ofDigits (digits n) = n := by
  unfold digits
  split
  · next h => rw [h, ofDigits_singleton]
  · rw [ofDigits_reverse, Nat.ofDigits_digits]

theorem lt_pow_length_digits (n : Nat) : n < 10 ^ (digits n).length := by
  have hlt := ofDigits_lt (fun d hd => digits_lt hd : forall d, d ∈ digits n -> d < 10)
  rwa [ofDigits_digits] at hlt

theorem pow_length_digits_le {n : Nat} (h : n ≠ 0) :
    10 ^ ((digits n).length - 1) ≤ n := by
  have hle := Nat.base_pow_length_digits_le 10 n (by decide) h
  rw [digits, if_neg h, List.length_reverse]
  have hpos : (Nat.digits 10 n).length ≠ 0 :=
    fun hzero => Nat.digits_ne_nil_iff_ne_zero.mpr h
      (List.eq_nil_of_length_eq_zero hzero)
  have hsucc : (Nat.digits 10 n).length = (Nat.digits 10 n).length - 1 + 1 := by
    omega
  rw [hsucc, pow_succ] at hle
  omega

theorem length_digits_pos (n : Nat) : 0 < (digits n).length :=
  List.length_pos_iff.mpr (digits_ne_nil n)

theorem length_digits_le_iff {n k : Nat} (h : n ≠ 0) :
    (digits n).length ≤ k <-> n < 10 ^ k := by
  constructor
  · intro hle
    exact lt_of_lt_of_le (lt_pow_length_digits n)
      (Nat.pow_le_pow_right (by decide) hle)
  · intro hlt
    by_contra hgt
    have hle : k ≤ (digits n).length - 1 := by omega
    have hpow := Nat.pow_le_pow_right (by decide : 0 < 10) hle
    exact absurd (le_trans hpow (pow_length_digits_le h)) (not_le.mpr hlt)

/-!
# Characters
-/

def digitChar (d : Nat) : Char :=
  Char.ofNat (48 + d)

def charDigit (c : Char) : Option Nat :=
  if 48 ≤ c.toNat ∧ c.toNat ≤ 57 then some (c.toNat - 48) else none

theorem charDigit_digitChar {d : Nat} (h : d < 10) :
    charDigit (digitChar d) = some d := by
  have hall : forall d : Fin 10, charDigit (digitChar d) = some d.val := by
    decide
  exact hall ⟨d, h⟩

def chars (ds : List Nat) : List Char :=
  ds.map digitChar

def text (n : Nat) : List Char :=
  chars (digits n)

def parseNat (cs : List Char) : Option Nat :=
  if cs.isEmpty then none else (cs.mapM charDigit).map ofDigits

theorem mapM_charDigit {ds : List Nat} (h : forall d, d ∈ ds -> d < 10) :
    (chars ds).mapM charDigit = some ds := by
  induction ds with
  | nil => rfl
  | cons d ds ih =>
    have htail := ih (fun e he => h e (List.mem_cons_of_mem d he))
    rw [chars, List.map_cons, List.mapM_cons,
      charDigit_digitChar (h d List.mem_cons_self)]
    show ((chars ds).mapM charDigit).bind (fun es => some (d :: es)) = _
    rw [htail]
    rfl

theorem parseNat_chars {ds : List Nat} (hne : ds ≠ []) (h : forall d, d ∈ ds -> d < 10) :
    parseNat (chars ds) = some (ofDigits ds) := by
  have hempty : (chars ds).isEmpty = false := by
    cases ds with
    | nil => exact absurd rfl hne
    | cons d ds => rfl
  rw [parseNat, hempty, mapM_charDigit h]
  rfl

theorem not_mem_chars {ds : List Nat} (h : forall d, d ∈ ds -> d < 10) {c : Char}
    (hc : charDigit c = none) : c ∉ chars ds := by
  intro hmem
  rcases List.mem_map.mp hmem with ⟨d, hd, rfl⟩
  rw [charDigit_digitChar (h d hd)] at hc
  cases hc

end Decimal
