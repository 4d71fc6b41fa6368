import Boogie.Basetypes.BigDec
import Boogie.Foundation.Decimal

/-!
# Literals of decimal numbers

The text of a literal is read by `FromString` and written for the prover by
`ToDecimalString`, which is given a limit on the digits.
-/

namespace Boogie
namespace Basetypes
namespace BigDec

open MachineInt (wrap InRange minValue maxValue)
open Decimal (ofDigits digits chars text parseNat)

/-!
# Reading
-/

/-- `Substring`; `none` when it throws. -/
def substring (v : List Char) (startIndex length : Int) : Option (List Char) :=
  if 0 ≤ startIndex ∧ 0 ≤ length ∧ startIndex + length ≤ v.length then
    some ((v.drop startIndex.toNat).take length.toNat)
  else none

/-- `BigInteger.Parse` for texts without white space. -/
def parseInteger : List Char -> Option Int
  | '-' :: cs => (parseNat cs).map (fun n => -(n : Int))
  | '+' :: cs => (parseNat cs).map (fun n => (n : Int))
  | cs => (parseNat cs).map (fun n => (n : Int))

/-- `Int32.Parse`. -/
def parseInt32 (cs : List Char) : Option Int :=
  (parseInteger cs).filter (fun z => InRange z)

def readExponent (v : List Char) : Option (Int × Nat) :=
  match v.idxOf? 'e' with
  | some i =>
    if i + 1 = v.length then none
    else do
      let cs ← substring v (i + 1) (v.length - i - 1)
      let exponent ← parseInt32 cs
      some (exponent, i)
  | none => some (0, v.length)

def readFraction (v : List Char) (len : Nat) : Option (Int × Int × Nat) :=
  match v.idxOf? '.' with
  | some i =>
    if i + 1 = v.length then none
    else do
      let fractionLen : Int := len - i - 1
      let cs ← substring v (i + 1) fractionLen
      let fraction ← parseInteger cs
      some (fraction, fractionLen, i)
  | none => some (0, 0, len)

/-- The loop `while (fractionLen > 0)`. -/
def shiftFraction : Nat -> Int -> Int -> Int × Int
  | 0, integral, exponent => (integral, exponent)
  | n + 1, integral, exponent =>
    shiftFraction n (integral * 10) (wrap (exponent - 1))

def fromString (v : List Char) : Option BigDec := do
  let (exponent, len) ← readExponent v
  let (fraction, fractionLen, len) ← readFraction v len
  let cs ← substring v 0 len
  let integral ← parseInteger cs
  let (integral, exponent) :=
    if fraction ≠ 0 then shiftFraction fractionLen.toNat integral exponent
    else (integral, exponent)
  some (create (integral + fraction) exponent)

/-!
# Writing
-/

/-- `BigInteger.ToString`. -/
def integerText (z : Int) : List Char :=
  if 0 ≤ z then text z.natAbs else '-' :: text z.natAbs

def limitText (mantissa : Int) (maxDigits : Nat) : List Char :=
  integerText (if 0 ≤ mantissa then 10 ^ maxDigits else -10 ^ maxDigits) ++
    ['.', '0']

/-- The negation of the least exponent is negative; the parts of the text then
have lengths that overflow, and `Substring` throws. -/
def toDecimalString (d : BigDec) (maxDigits : Nat) : Option (List Char) :=
  let s := integerText d.mantissa
  let digits : Int := if 0 ≤ d.mantissa then s.length else s.length - 1
  if 0 ≤ d.exponent then
    if maxDigits < digits ∨ maxDigits - digits < d.exponent then
      some (limitText d.mantissa maxDigits)
    else some (s ++ List.replicate d.exponent.toNat '0' ++ ['.', '0'])
  else
    let exp := wrap (-d.exponent)
    if exp < 0 then none
    else if exp < digits then
      let intDigits := digits - exp
      if maxDigits < intDigits then some (limitText d.mantissa maxDigits)
      else do
        let fracDigits := min (maxDigits : Int) (digits - intDigits)
        let integral ← substring s 0 intDigits
        let fraction ← substring s intDigits fracDigits
        some (integral ++ '.' :: fraction)
    else do
      let fracDigits := min (maxDigits : Int) digits
      let fraction ← substring s 0 fracDigits
      some ('0' :: '.' :: (List.replicate (exp - fracDigits).toNat '0' ++ fraction))

/-- What is written for the prover, with at most 20 digits; SMT-LIB has no
literals of negative numbers. -/
def visitRealLit (lit : BigDec) : Option (List Char) :=
  if lit.mantissa < 0 then do
    let s ← toDecimalString (create |lit.mantissa| lit.exponent) 20
    some ("(- 0.0 ".toList ++ s ++ [')'])
  else toDecimalString lit 20

/-!
# The number a text stands for
-/

def decimalValue (cs : List Char) : Option ℚ :=
  match cs.splitOn '.' with
  | [integral, fraction] => do
      let m ← parseNat integral
      let n ← parseNat fraction
      some (m + n / 10 ^ fraction.length)
  | _ => none

theorem decimalValue_chars {ds es : List Nat} (hds : ds ≠ []) (hes : es ≠ [])
    (h : forall d, d ∈ ds ++ es -> d < 10) :
    decimalValue (chars ds ++ '.' :: chars es) =
      some ((ofDigits (ds ++ es) : ℚ) / 10 ^ es.length) := by
  have hds10 : forall d, d ∈ ds -> d < 10 :=
    fun d hd => h d (List.mem_append_left es hd)
  have hes10 : forall d, d ∈ es -> d < 10 :=
    fun d hd => h d (List.mem_append_right ds hd)
  have hpoint : Decimal.charDigit '.' = none := by decide
  rw [decimalValue, List.splitOn_append_cons_self_of_not_mem
    (Decimal.not_mem_chars hds10 hpoint),
    List.splitOn_eq_singleton (Decimal.not_mem_chars hes10 hpoint)]
  simp only [Decimal.parseNat_chars hds hds10, Decimal.parseNat_chars hes hes10,
    Option.bind_eq_bind, Option.bind_some]
  congr 1
  have hlength : (chars es).length = es.length := List.length_map _
  have hpow : (10 : ℚ) ^ es.length ≠ 0 := pow_ne_zero _ (by norm_num)
  rw [hlength, Decimal.ofDigits_append, Nat.cast_add, Nat.cast_mul, add_div,
    Nat.cast_pow, Nat.cast_ofNat, mul_div_assoc, div_self hpow, mul_one]

/-!
# Literals
-/

structure Numeral where
  digits : List Nat
  nonempty : digits ≠ []
  small : forall d, d ∈ digits -> d < 10

inductive Sign where
  | absent
  | plus
  | minus
deriving DecidableEq, Repr

def Sign.chars : Sign -> List Char
  | absent => []
  | plus => ['+']
  | minus => ['-']

def Sign.apply : Sign -> Int -> Int
  | minus, z => -z
  | _, z => z

structure Literal where
  integral : Numeral
  fraction : Option Numeral
  exponent : Option (Sign × Numeral)
  inRange : forall sign n, exponent = some (sign, n) ->
    InRange (sign.apply (ofDigits n.digits))

namespace Literal

def fractionDigits (l : Literal) : List Nat :=
  l.fraction.elim [] Numeral.digits

def exponentValue (l : Literal) : Int :=
  l.exponent.elim 0 (fun p => p.1.apply (ofDigits p.2.digits))

def text (l : Literal) : List Char :=
  chars l.integral.digits ++ l.fraction.elim [] (fun n => '.' :: chars n.digits) ++
    l.exponent.elim [] (fun p => 'e' :: (p.1.chars ++ chars p.2.digits))

def value (l : Literal) : ℚ :=
  (ofDigits l.integral.digits +
    ofDigits l.fractionDigits / 10 ^ l.fractionDigits.length) *
      10 ^ l.exponentValue

end Literal

/-!
# Reading a literal
-/

section Reading

theorem substring_append (a b c : List Char) :
    substring (a ++ b ++ c) a.length b.length = some b := by
  have hfits : (0 : Int) ≤ a.length ∧ (0 : Int) ≤ b.length ∧
      (a.length : Int) + b.length ≤ (a ++ b ++ c).length := by
    rw [List.length_append, List.length_append]
    omega
  rw [substring, if_pos hfits, Int.toNat_natCast, Int.toNat_natCast,
    List.append_assoc, List.drop_left, List.take_left]

theorem idxOf?_append_cons {a b : List Char} {c : Char} (h : c ∉ a) :
    (a ++ c :: b).idxOf? c = some a.length := by
  rw [List.idxOf?_eq_some_iff]
  refine ⟨by simp, by simp, ?_⟩
  intro j hj heq
  rw [List.getElem_append_left hj] at heq
  exact h (heq ▸ List.getElem_mem hj)

theorem digitChar_ne {d : Nat} (h : d < 10) :
    Decimal.digitChar d ≠ '-' ∧ Decimal.digitChar d ≠ '+' := by
  have hall : forall d : Fin 10, Decimal.digitChar d ≠ '-' ∧
      Decimal.digitChar d ≠ '+' := by decide
  exact hall ⟨d, h⟩

theorem parseInteger_chars (n : Numeral) :
    parseInteger (chars n.digits) = some (ofDigits n.digits : Int) := by
  have hparse := Decimal.parseNat_chars n.nonempty n.small
  have hsmall := n.small
  cases hdigits : n.digits with
  | nil => exact absurd hdigits n.nonempty
  | cons d ds =>
    rw [hdigits] at hparse hsmall
    have hne := digitChar_ne (hsmall d List.mem_cons_self)
    have hcons : chars (d :: ds) = Decimal.digitChar d :: chars ds := rfl
    rw [hcons] at hparse ⊢
    rw [parseInteger, hparse]
    · rfl
    · exact fun _ heq => hne.1 (List.cons.inj heq).1
    · exact fun _ heq => hne.2 (List.cons.inj heq).1

theorem parseInteger_sign (sign : Sign) (n : Numeral) :
    parseInteger (sign.chars ++ chars n.digits) = some (sign.apply (ofDigits n.digits)) := by
  have hparse := Decimal.parseNat_chars n.nonempty n.small
  cases sign with
  | absent => exact parseInteger_chars n
  | plus =>
    have hplus : Sign.plus.chars ++ chars n.digits = '+' :: chars n.digits := rfl
    rw [hplus, parseInteger, hparse]
    rfl
  | minus =>
    have hminus : Sign.minus.chars ++ chars n.digits = '-' :: chars n.digits :=
      rfl
    rw [hminus, parseInteger, hparse]
    rfl

theorem not_mem_digits (n : Numeral) :
    'e' ∉ chars n.digits ∧ '.' ∉ chars n.digits :=
  ⟨Decimal.not_mem_chars n.small (by decide),
    Decimal.not_mem_chars n.small (by decide)⟩

def Literal.front (l : Literal) : List Char :=
  chars l.integral.digits ++ l.fraction.elim [] (fun n => '.' :: chars n.digits)

theorem Literal.not_mem_front (l : Literal) : 'e' ∉ l.front := by
  intro hmem
  rcases List.mem_append.mp hmem with hmem | hmem
  · exact (not_mem_digits l.integral).1 hmem
  · cases hfraction : l.fraction with
    | none =>
      rw [hfraction] at hmem
      cases hmem
    | some n =>
      rw [hfraction] at hmem
      rcases List.mem_cons.mp hmem with heq | hmem
      · exact absurd heq (by decide)
      · exact (not_mem_digits n).1 hmem

theorem readExponent_text (l : Literal) :
    readExponent l.text = some (l.exponentValue, l.front.length) := by
  unfold readExponent
  cases hexp : l.exponent with
  | none =>
    have htext : l.text = l.front := by
      rw [Literal.text, hexp]
      exact List.append_nil _
    have hnone : l.front.idxOf? 'e' = none :=
      List.idxOf?_eq_none_iff.mpr l.not_mem_front
    rw [htext, hnone, Literal.exponentValue, hexp]
    rfl
  | some p =>
    rcases p with ⟨sign, n⟩
    have htext : l.text =
        l.front ++ 'e' :: (sign.chars ++ chars n.digits) := by
      rw [Literal.text, hexp]
      rfl
    have hlength : l.text.length =
        l.front.length + 1 + (sign.chars ++ chars n.digits).length := by
      rw [htext, List.length_append, List.length_cons]
      omega
    have hne : (chars n.digits).length ≠ 0 := by
      rw [chars, List.length_map]
      exact fun h => n.nonempty (List.eq_nil_of_length_eq_zero h)
    have hmore : ¬ l.front.length + 1 = l.text.length := by
      rw [hlength, List.length_append]
      omega
    have hsub : substring l.text (l.front.length + 1)
        (l.text.length - l.front.length - 1) =
          some (sign.chars ++ chars n.digits) := by
      have happ := substring_append (l.front ++ ['e'])
        (sign.chars ++ chars n.digits) []
      have hcount : (l.text.length : Int) - l.front.length - 1 =
          (sign.chars ++ chars n.digits).length := by
        rw [hlength]
        omega
      rw [hcount, htext]
      simpa using happ
    have hindex : l.text.idxOf? 'e' = some l.front.length := by
      rw [htext]
      exact idxOf?_append_cons l.not_mem_front
    have hvalue : l.exponentValue = sign.apply (ofDigits n.digits) := by
      rw [Literal.exponentValue, hexp]
      rfl
    have hparse : parseInt32 (sign.chars ++ chars n.digits) =
        some l.exponentValue := by
      rw [parseInt32, parseInteger_sign, hvalue]
      exact Option.filter_some_pos (decide_eq_true (l.inRange sign n hexp))
    rw [hindex]
    simp only [hmore, if_false]
    rw [hsub, Option.bind_eq_bind, Option.bind_some, hparse]
    rfl

theorem Literal.exists_text (l : Literal) :
    exists rest, l.text = l.front ++ rest ∧ '.' ∉ rest := by
  refine ⟨l.exponent.elim [] (fun p => 'e' :: (p.1.chars ++ chars p.2.digits)),
    rfl, ?_⟩
  cases l.exponent with
  | none => exact List.not_mem_nil
  | some p =>
    intro hmem
    rcases List.mem_cons.mp hmem with heq | hmem
    · exact absurd heq (by decide)
    · rcases List.mem_append.mp hmem with hmem | hmem
      · cases hsign : p.1 <;> rw [hsign] at hmem <;>
          simp [Sign.chars] at hmem
      · exact (not_mem_digits p.2).2 hmem

theorem readFraction_text (l : Literal) :
    readFraction l.text l.front.length =
      some ((ofDigits l.fractionDigits : Int), (l.fractionDigits.length : Int),
        l.integral.digits.length) := by
  have hlength : forall n : Numeral, (chars n.digits).length = n.digits.length :=
    fun n => List.length_map _
  rcases l.exists_text with ⟨rest, htext, hrest⟩
  unfold readFraction
  cases hfraction : l.fraction with
  | none =>
    have hfront : l.front = chars l.integral.digits := by
      rw [Literal.front, hfraction]
      exact List.append_nil _
    have hnone : l.text.idxOf? '.' = none := by
      rw [List.idxOf?_eq_none_iff, htext, hfront]
      intro hmem
      rcases List.mem_append.mp hmem with hmem | hmem
      · exact (not_mem_digits l.integral).2 hmem
      · exact hrest hmem
    have hdigits : l.fractionDigits = [] := by
      rw [Literal.fractionDigits, hfraction]
      rfl
    rw [hnone, hdigits, hfront, hlength]
    rfl
  | some n =>
    have hfront : l.front = chars l.integral.digits ++ '.' :: chars n.digits := by
      rw [Literal.front, hfraction]
      rfl
    have hdigits : l.fractionDigits = n.digits := by
      rw [Literal.fractionDigits, hfraction]
      rfl
    have hsplit : l.text =
        chars l.integral.digits ++ '.' :: (chars n.digits ++ rest) := by
      rw [htext, hfront, List.append_assoc]
      rfl
    have hindex : l.text.idxOf? '.' = some l.integral.digits.length := by
      rw [hsplit, ← hlength]
      exact idxOf?_append_cons (not_mem_digits l.integral).2
    have hpos : n.digits.length ≠ 0 :=
      fun h => n.nonempty (List.eq_nil_of_length_eq_zero h)
    have hmore : ¬ l.integral.digits.length + 1 = l.text.length := by
      rw [hsplit, List.length_append, List.length_cons, List.length_append,
        hlength, hlength]
      omega
    have hcount : (l.front.length : Int) - l.integral.digits.length - 1 =
        (chars n.digits).length := by
      rw [hfront, List.length_append, List.length_cons, hlength, hlength]
      omega
    have hsub : substring l.text (l.integral.digits.length + 1)
        (l.front.length - l.integral.digits.length - 1) =
          some (chars n.digits) := by
      have happ := substring_append (chars l.integral.digits ++ ['.'])
        (chars n.digits) rest
      rw [hcount, hsplit]
      simpa [hlength] using happ
    rw [hindex]
    simp only [hmore, if_false]
    rw [hsub, Option.bind_eq_bind, Option.bind_some, parseInteger_chars, hcount,
      hlength, hdigits]
    rfl

theorem shiftFraction_eq (n : Nat) (integral exponent : Int) :
    (shiftFraction n integral exponent).1 = integral * 10 ^ n ∧
      wrap (shiftFraction n integral exponent).2 = wrap (exponent - n) := by
  induction n generalizing integral exponent with
  | zero => simp [shiftFraction]
  | succ n ih =>
    rcases ih (integral * 10) (wrap (exponent - 1)) with ⟨hone, htwo⟩
    rw [shiftFraction]
    constructor
    · rw [hone, pow_succ', mul_assoc]
    · rw [htwo, sub_eq_add_neg, MachineInt.wrap_wrap_add]
      congr 1
      push_cast
      ring

theorem fromString_text (l : Literal) :
    exists m e, fromString l.text = some (create m e) ∧ 0 ≤ m ∧ (m : ℚ) * 10 ^ e = l.value := by
  have hsub : substring l.text 0 l.integral.digits.length =
      some (chars l.integral.digits) := by
    have happ := substring_append [] (chars l.integral.digits)
      (l.fraction.elim [] (fun n => '.' :: chars n.digits) ++
        l.exponent.elim [] (fun p => 'e' :: (p.1.chars ++ chars p.2.digits)))
    have hlength : (chars l.integral.digits).length = l.integral.digits.length :=
      List.length_map _
    rw [hlength] at happ
    simpa [Literal.text] using happ
  have hread : fromString l.text = some (create
      ((if (ofDigits l.fractionDigits : Int) ≠ 0 then
          shiftFraction l.fractionDigits.length (ofDigits l.integral.digits)
            l.exponentValue
        else (ofDigits l.integral.digits, l.exponentValue)).1 +
          ofDigits l.fractionDigits)
      (if (ofDigits l.fractionDigits : Int) ≠ 0 then
          shiftFraction l.fractionDigits.length (ofDigits l.integral.digits)
            l.exponentValue
        else (ofDigits l.integral.digits, l.exponentValue)).2) := by
    unfold fromString
    simp only [readExponent_text, readFraction_text, Option.bind_eq_bind,
      Option.bind_some, hsub, parseInteger_chars, Int.toNat_natCast]
  have hpow : (10 : ℚ) ^ l.fractionDigits.length ≠ 0 :=
    pow_ne_zero _ (by norm_num)
  by_cases hzero : ofDigits l.fractionDigits = 0
  · rw [hzero] at hread
    refine ⟨ofDigits l.integral.digits, l.exponentValue, by simpa using hread,
      Int.natCast_nonneg _, ?_⟩
    rw [Literal.value, hzero]
    push_cast
    ring
  · have hne : (ofDigits l.fractionDigits : Int) ≠ 0 := by exact_mod_cast hzero
    rw [if_pos hne] at hread
    rcases shiftFraction_eq l.fractionDigits.length
      (ofDigits l.integral.digits : Int) l.exponentValue with ⟨hone, htwo⟩
    rw [hone, create_congr htwo] at hread
    refine ⟨_, _, hread, by positivity, ?_⟩
    rw [Literal.value, zpow_sub₀ (by norm_num), zpow_natCast]
    push_cast
    field_simp

end Reading

/-!
# Writing a number that is not negative
-/

section Writing

variable {d : BigDec} {maxDigits : Nat}

theorem chars_append (ds es : List Nat) :
    chars (ds ++ es) = chars ds ++ chars es :=
  List.map_append

theorem chars_replicate_zero (k : Nat) :
    chars (List.replicate k 0) = List.replicate k '0' :=
  List.map_replicate

theorem length_chars (ds : List Nat) : (chars ds).length = ds.length :=
  List.length_map _

theorem chars_take (ds : List Nat) (i : Nat) :
    (chars ds).take i = chars (ds.take i) := by
  rw [chars, chars, List.map_take]

theorem chars_drop (ds : List Nat) (i : Nat) :
    (chars ds).drop i = chars (ds.drop i) := by
  rw [chars, chars, List.map_drop]

def mantissaDigits (d : BigDec) : List Nat :=
  digits d.mantissa.natAbs

theorem mantissaDigits_lt {n : Nat} (h : n ∈ mantissaDigits d) : n < 10 :=
  Decimal.digits_lt h

theorem length_mantissaDigits_pos : 0 < (mantissaDigits d).length :=
  Decimal.length_digits_pos _

theorem ofDigits_mantissaDigits (hpos : 0 ≤ d.mantissa) :
    (ofDigits (mantissaDigits d) : Int) = d.mantissa := by
  rw [mantissaDigits, Decimal.ofDigits_digits, Int.natAbs_of_nonneg hpos]

theorem integerText_mantissa (hpos : 0 ≤ d.mantissa) :
    integerText d.mantissa = chars (mantissaDigits d) := by
  rw [integerText, if_pos hpos]
  rfl

theorem decimalValue_text {ds es : List Nat} (hds : ds ≠ []) (hes : es ≠ [])
    (h : forall d, d ∈ ds ++ es -> d < 10) {k : Nat} (hk : es.length = k) :
    decimalValue (chars ds ++ '.' :: chars es) = some ((ofDigits (ds ++ es) : ℚ) / 10 ^ k) := by
  rw [← hk]
  exact decimalValue_chars hds hes h

theorem decimalValue_integer {ds : List Nat} (hds : ds ≠ []) (h : forall d, d ∈ ds -> d < 10) :
    decimalValue (chars ds ++ ['.', '0']) = some (ofDigits ds : ℚ) := by
  have hsmall : forall d, d ∈ ds ++ [0] -> d < 10 := by
    intro d hd
    rcases List.mem_append.mp hd with hd | hd
    · exact h d hd
    · rw [List.mem_singleton.mp hd]
      decide
  have htext : chars ds ++ ['.', '0'] = chars ds ++ '.' :: chars [0] := rfl
  rw [htext, decimalValue_chars hds (List.cons_ne_nil 0 []) hsmall,
    Decimal.ofDigits_append, Decimal.ofDigits_singleton]
  congr 1
  push_cast
  rw [List.length_singleton, pow_one, add_zero, mul_div_assoc, div_self (by norm_num),
    mul_one]

theorem decimalValue_limitText (hpos : 0 ≤ d.mantissa) (maxDigits : Nat) :
    decimalValue (limitText d.mantissa maxDigits) = some (10 ^ maxDigits) := by
  have hpow : (0 : Int) ≤ 10 ^ maxDigits := by positivity
  have hnat : ((10 : Int) ^ maxDigits).natAbs = 10 ^ maxDigits := by
    rw [Int.natAbs_pow]
    rfl
  rw [limitText, if_pos hpos, integerText, if_pos hpow, hnat, text,
    decimalValue_integer (Decimal.digits_ne_nil _) (fun d hd => Decimal.digits_lt hd),
    Decimal.ofDigits_digits, Nat.cast_pow, Nat.cast_ofNat]

theorem pow_le_value (hpos : 0 ≤ d.mantissa) (hne : d.mantissa ≠ 0) :
    (10 : ℚ) ^ ((mantissaDigits d).length - 1 + d.exponent) ≤ d.value := by
  have hle := Decimal.pow_length_digits_le (Int.natAbs_ne_zero.mpr hne)
  have hcast : ((10 ^ ((mantissaDigits d).length - 1) : Nat) : ℚ) ≤
      (d.mantissa.natAbs : Nat) := Nat.cast_le.mpr hle
  have hnat : ((d.mantissa.natAbs : Nat) : ℚ) = d.mantissa := by
    rw [Nat.cast_natAbs, abs_of_nonneg hpos]
  have hlength : ((mantissaDigits d).length : Int) - 1 =
      ((mantissaDigits d).length - 1 : Nat) := by
    have := @length_mantissaDigits_pos d
    omega
  rw [value, hlength, zpow_add₀ (by norm_num), zpow_natCast]
  rw [hnat, Nat.cast_pow, Nat.cast_ofNat] at hcast
  exact mul_le_mul_of_nonneg_right hcast (le_of_lt (ten_zpow_pos _))

theorem value_lt_pow (hpos : 0 ≤ d.mantissa) :
    d.value < (10 : ℚ) ^ ((mantissaDigits d).length + d.exponent) := by
  have hlt := Decimal.lt_pow_length_digits d.mantissa.natAbs
  have hcast : ((d.mantissa.natAbs : Nat) : ℚ) <
      (10 ^ (mantissaDigits d).length : Nat) := Nat.cast_lt.mpr hlt
  have hnat : ((d.mantissa.natAbs : Nat) : ℚ) = d.mantissa := by
    rw [Nat.cast_natAbs, abs_of_nonneg hpos]
  rw [value, zpow_add₀ (by norm_num), zpow_natCast]
  rw [hnat, Nat.cast_pow, Nat.cast_ofNat] at hcast
  exact mul_lt_mul_of_pos_right hcast (ten_zpow_pos _)

/-- The number that the prover is given. -/
def encoded (d : BigDec) (maxDigits : Nat) : Option ℚ :=
  (toDecimalString d maxDigits).bind decimalValue

theorem encoded_of_text {s : List Char} {q : ℚ}
    (htext : toDecimalString d maxDigits = some s) (hvalue : decimalValue s = some q) :
    encoded d maxDigits = some q := by
  rw [encoded, htext, Option.bind_some, hvalue]

theorem encoded_integer (hpos : 0 ≤ d.mantissa) (hexp : 0 ≤ d.exponent)
    (hfits : (mantissaDigits d).length + d.exponent ≤ maxDigits) :
    encoded d maxDigits = some d.value := by
  have hzeros : (d.exponent.toNat : Int) = d.exponent := Int.toNat_of_nonneg hexp
  apply encoded_of_text
    (s := chars (mantissaDigits d ++ List.replicate d.exponent.toNat 0) ++ ['.', '0'])
  · have hlimit : ¬ ((maxDigits : Int) < (mantissaDigits d).length ∨
        (maxDigits : Int) - (mantissaDigits d).length < d.exponent) := by
      omega
    rw [toDecimalString, integerText_mantissa hpos, if_pos hpos, if_pos hexp,
      length_chars, if_neg hlimit, chars_append, chars_replicate_zero]
  · have hne : mantissaDigits d ++ List.replicate d.exponent.toNat 0 ≠ [] :=
      List.append_ne_nil_of_left_ne_nil (Decimal.digits_ne_nil _) _
    rw [decimalValue_integer hne, Decimal.ofDigits_append,
      Decimal.ofDigits_replicate_zero, List.length_replicate, value, ← hzeros,
      zpow_natCast, Int.toNat_natCast, ← ofDigits_mantissaDigits hpos]
    · push_cast
      rw [add_zero]
    · intro n hn
      rcases List.mem_append.mp hn with hn | hn
      · exact mantissaDigits_lt hn
      · rw [List.eq_of_mem_replicate hn]
        decide

theorem encoded_limit (hpos : 0 ≤ d.mantissa) (hmin : d.exponent ≠ minValue)
    (hlimit : (maxDigits : Int) < (mantissaDigits d).length + d.exponent) :
    encoded d maxDigits = some (10 ^ maxDigits) := by
  refine encoded_of_text ?_ (decimalValue_limitText hpos maxDigits)
  rw [toDecimalString, integerText_mantissa hpos, if_pos hpos]
  dsimp only
  by_cases hexp : 0 ≤ d.exponent
  · have hmany : (maxDigits : Int) < (chars (mantissaDigits d)).length ∨
        (maxDigits : Int) - (chars (mantissaDigits d)).length < d.exponent := by
      rw [length_chars]
      omega
    rw [if_pos hexp, if_pos hmany]
  · have hneg : wrap (-d.exponent) = -d.exponent :=
      MachineInt.wrap_eq (MachineInt.inRange_neg d.inRange hmin)
    have hsmall : -d.exponent < ((chars (mantissaDigits d)).length : Int) := by
      rw [length_chars]
      omega
    have hmany : (maxDigits : Int) <
        (chars (mantissaDigits d)).length - -d.exponent := by
      rw [length_chars]
      omega
    have hnonneg : ¬ -d.exponent < 0 := by omega
    rw [if_neg hexp, hneg, if_neg hnonneg, if_pos hsmall, if_pos hmany]

theorem value_of_neg (hpos : 0 ≤ d.mantissa) {k : Nat} (hk : d.exponent = -k) :
    d.value = (ofDigits (mantissaDigits d) : ℚ) / 10 ^ k := by
  rw [value, hk, zpow_neg, zpow_natCast, ← div_eq_mul_inv,
    ← ofDigits_mantissaDigits hpos, Int.cast_natCast]

theorem encoded_fraction (hpos : 0 ≤ d.mantissa) (hmin : d.exponent ≠ minValue)
    (hmax : 0 < maxDigits) {k : Nat} (hk : d.exponent = -k) (hone : 0 < k)
    (hint : k < (mantissaDigits d).length) (hfits : (mantissaDigits d).length ≤ maxDigits + k) :
    encoded d maxDigits =
      some (((ofDigits (mantissaDigits d) / 10 ^ (k - min maxDigits k) : Nat) : ℚ) /
        10 ^ min maxDigits k) := by
  have hexp : ¬ 0 ≤ d.exponent := by omega
  have hneg : wrap (-d.exponent) = k := by
    rw [MachineInt.wrap_eq (MachineInt.inRange_neg d.inRange hmin), hk, neg_neg]
  have hnonneg : ¬ (k : Int) < 0 := by omega
  have hsmall : (k : Int) < (mantissaDigits d).length := by omega
  have hfew : ¬ (maxDigits : Int) < (mantissaDigits d).length - k := by omega
  have hcount : (mantissaDigits d).length - ((mantissaDigits d).length - k) = k := by
    omega
  have hint' : ((mantissaDigits d).length : Int) - k =
      ((mantissaDigits d).length - k : Nat) := by omega
  have hfrac : min (maxDigits : Int) ((mantissaDigits d).length -
      (((mantissaDigits d).length : Int) - k)) = (min maxDigits k : Nat) := by
    omega
  have hlen : ((mantissaDigits d).drop ((mantissaDigits d).length - k)).length = k := by
    rw [List.length_drop, hcount]
  have htake : (((mantissaDigits d).drop ((mantissaDigits d).length - k)).take
      (min maxDigits k)).length = min maxDigits k := by
    rw [List.length_take, hlen]
    omega
  have hsplit : (mantissaDigits d).take ((mantissaDigits d).length - k) ++
      ((mantissaDigits d).drop ((mantissaDigits d).length - k)).take (min maxDigits k) =
        (mantissaDigits d).take ((mantissaDigits d).length - k + min maxDigits k) :=
    List.take_add.symm
  have hleft : (mantissaDigits d).length -
      ((mantissaDigits d).length - k + min maxDigits k) = k - min maxDigits k := by
    omega
  apply encoded_of_text
    (s := chars ((mantissaDigits d).take ((mantissaDigits d).length - k)) ++ '.' ::
      chars (((mantissaDigits d).drop ((mantissaDigits d).length - k)).take
        (min maxDigits k)))
  · have hfirst : substring (chars (mantissaDigits d)) 0
        ((mantissaDigits d).length - k : Nat) =
          some (chars ((mantissaDigits d).take ((mantissaDigits d).length - k))) := by
      have hle : (0 : Int) ≤ 0 ∧ (0 : Int) ≤ ((mantissaDigits d).length - k : Nat) ∧
          (0 : Int) + ((mantissaDigits d).length - k : Nat) ≤
            (chars (mantissaDigits d)).length := by
        rw [length_chars]
        omega
      rw [substring, if_pos hle, Int.toNat_natCast, Int.toNat_zero, List.drop_zero,
        chars_take]
    have hsecond : substring (chars (mantissaDigits d))
        ((mantissaDigits d).length - k : Nat) (min maxDigits k : Nat) =
          some (chars (((mantissaDigits d).drop
            ((mantissaDigits d).length - k)).take (min maxDigits k))) := by
      have hle : (0 : Int) ≤ ((mantissaDigits d).length - k : Nat) ∧
          (0 : Int) ≤ (min maxDigits k : Nat) ∧
          (((mantissaDigits d).length - k : Nat) : Int) + (min maxDigits k : Nat) ≤
            (chars (mantissaDigits d)).length := by
        rw [length_chars]
        omega
      rw [substring, if_pos hle, Int.toNat_natCast, Int.toNat_natCast, chars_drop,
        chars_take]
    rw [toDecimalString, integerText_mantissa hpos, if_pos hpos, if_neg hexp]
    dsimp only
    rw [length_chars, hneg, if_neg hnonneg, if_pos hsmall, if_neg hfew, hfrac,
      hint', hfirst, hsecond]
    rfl
  · have hds : (mantissaDigits d).take ((mantissaDigits d).length - k) ≠ [] := by
      intro hnil
      have hzero := congrArg List.length hnil
      rw [List.length_take, List.length_nil] at hzero
      omega
    have hes : ((mantissaDigits d).drop ((mantissaDigits d).length - k)).take
        (min maxDigits k) ≠ [] := by
      intro hnil
      rw [hnil, List.length_nil] at htake
      omega
    rw [decimalValue_text hds hes _ htake, hsplit,
      Decimal.ofDigits_take_drop (fun n hn => mantissaDigits_lt hn), hleft]
    intro n hn
    rw [hsplit] at hn
    exact mantissaDigits_lt (List.mem_of_mem_take hn)

theorem encoded_small (hpos : 0 ≤ d.mantissa) (hmin : d.exponent ≠ minValue)
    {k : Nat} (hk : d.exponent = -k) (hone : 0 < k) (hint : (mantissaDigits d).length ≤ k)
    (hfits : (mantissaDigits d).length ≤ maxDigits) :
    encoded d maxDigits = some d.value := by
  have hexp : ¬ 0 ≤ d.exponent := by omega
  have hneg : wrap (-d.exponent) = k := by
    rw [MachineInt.wrap_eq (MachineInt.inRange_neg d.inRange hmin), hk, neg_neg]
  have hnonneg : ¬ (k : Int) < 0 := by omega
  have hlarge : ¬ (k : Int) < (mantissaDigits d).length := by omega
  have hfrac : min (maxDigits : Int) (mantissaDigits d).length =
      (mantissaDigits d).length := by omega
  have hzeros : ((k : Int) - (mantissaDigits d).length).toNat =
      k - (mantissaDigits d).length := by omega
  have hwhole : substring (chars (mantissaDigits d)) 0 (mantissaDigits d).length =
      some (chars (mantissaDigits d)) := by
    have happ := substring_append [] (chars (mantissaDigits d)) []
    rwa [List.nil_append, List.append_nil, length_chars, List.length_nil,
      Int.natCast_zero] at happ
  apply encoded_of_text
    (s := chars [0] ++ '.' :: chars
      (List.replicate (k - (mantissaDigits d).length) 0 ++ mantissaDigits d))
  · rw [toDecimalString, integerText_mantissa hpos, if_pos hpos, if_neg hexp]
    dsimp only
    rw [length_chars, hneg, if_neg hnonneg, if_neg hlarge, hfrac, hwhole, hzeros,
      chars_append, chars_replicate_zero]
    rfl
  · have hlen : (List.replicate (k - (mantissaDigits d).length) 0 ++
        mantissaDigits d).length = k := by
      rw [List.length_append, List.length_replicate]
      omega
    have hne : List.replicate (k - (mantissaDigits d).length) 0 ++
        mantissaDigits d ≠ [] :=
      List.append_ne_nil_of_right_ne_nil _ (Decimal.digits_ne_nil _)
    rw [decimalValue_text (List.cons_ne_nil 0 []) hne _ hlen, value_of_neg hpos hk,
      Decimal.ofDigits_append, Decimal.ofDigits_append,
      Decimal.ofDigits_replicate_zero, Decimal.ofDigits_singleton, Nat.zero_mul,
      Nat.zero_mul, Nat.zero_add, Nat.zero_add]
    intro n hn
    rcases List.mem_append.mp hn with hn | hn
    · rw [List.mem_singleton.mp hn]
      decide
    · rcases List.mem_append.mp hn with hn | hn
      · rw [List.eq_of_mem_replicate hn]
        decide
      · exact mantissaDigits_lt hn

/-!
# What a limit lets through
-/

/-- Numbers up to the limit with few digits after the point, or few digits
overall. -/
def Within (maxDigits : Nat) (q : ℚ) : Prop :=
  q ≤ 10 ^ maxDigits ∧
    ((exists n : Nat, q * 10 ^ maxDigits = n) ∨
      exists (m : Nat) (e : Int), m < 10 ^ maxDigits ∧ q = m * 10 ^ e)

theorem mantissa_nonneg (h : 0 ≤ d.value) : 0 ≤ d.mantissa := by
  rw [value] at h
  exact_mod_cast nonneg_of_mul_nonneg_left h (ten_zpow_pos _)

theorem exponent_le_of_value_eq {m e : Int} (hne : d.mantissa ≠ 0)
    (h : d.value = m * 10 ^ e) : e ≤ d.exponent := by
  have hten : ¬ (10 : Int) ∣ d.mantissa := by
    rcases d.canonical with ⟨hzero, _⟩ | hten
    · exact absurd hzero hne
    · exact hten
  by_contra hlt
  have hk : e = d.exponent + ((e - d.exponent).toNat : Int) := by omega
  rw [hk] at h
  apply hten
  rw [mantissa_eq_of_value_eq h]
  have hpos : (e - d.exponent).toNat ≠ 0 := by omega
  exact Dvd.dvd.mul_left (dvd_pow_self 10 hpos) m

theorem few_digits_of_within (hne : d.mantissa ≠ 0) (h : Within maxDigits d.value) :
    -(maxDigits : Int) ≤ d.exponent ∨ (mantissaDigits d).length ≤ maxDigits := by
  rcases h with ⟨_, ⟨n, hn⟩ | ⟨m, e, hm, heq⟩⟩
  · left
    have hvalue : d.value = (n : Int) * 10 ^ (-(maxDigits : Int)) := by
      rw [zpow_neg, zpow_natCast, Int.cast_natCast, ← hn, mul_assoc,
        mul_inv_cancel₀ (pow_ne_zero _ (by norm_num)), mul_one]
    exact exponent_le_of_value_eq hne hvalue
  · right
    have hvalue : d.value = (m : Int) * 10 ^ e := by
      rw [heq, Int.cast_natCast]
    have hle := exponent_le_of_value_eq hne hvalue
    have hk : d.exponent = e + ((d.exponent - e).toNat : Int) := by omega
    rw [value, hk] at hvalue
    have hmantissa := mantissa_eq_of_value_eq hvalue.symm
    have hnat : m = d.mantissa.natAbs * 10 ^ (d.exponent - e).toNat := by
      have habs := congrArg Int.natAbs hmantissa
      rw [Int.natAbs_mul, Int.natAbs_pow, Int.natAbs_natCast] at habs
      exact habs
    have hle' : d.mantissa.natAbs ≤ m := by
      rw [hnat]
      exact Nat.le_mul_of_pos_right _ (by positivity)
    exact (Decimal.length_digits_le_iff (Int.natAbs_ne_zero.mpr hne)).mpr
      (lt_of_le_of_lt hle' hm)

theorem encoded_ge (hmin : d.exponent ≠ minValue)
    (h : 10 ^ maxDigits ≤ d.value) : encoded d maxDigits = some (10 ^ maxDigits) := by
  have hpow : (0 : ℚ) < 10 ^ maxDigits := by positivity
  have hpos : 0 ≤ d.mantissa := mantissa_nonneg (le_trans (le_of_lt hpow) h)
  apply encoded_limit hpos hmin
  have hlt := lt_of_le_of_lt h (value_lt_pow hpos)
  rw [← zpow_natCast] at hlt
  exact (zpow_lt_zpow_iff_right₀ (by norm_num)).mp hlt

theorem length_le_of_value_lt (hmax : 0 < maxDigits) (hpos : 0 ≤ d.mantissa)
    (h : d.value < 10 ^ maxDigits) :
    (mantissaDigits d).length + d.exponent ≤ maxDigits := by
  rcases d.canonical with ⟨hzero, hexp⟩ | hten
  · have hlength : (mantissaDigits d).length = 1 := by
      rw [mantissaDigits, hzero]
      rfl
    omega
  · have hne : d.mantissa ≠ 0 := fun hzero => hten (hzero ▸ dvd_zero 10)
    have hlt := lt_of_le_of_lt (pow_le_value hpos hne) h
    rw [← zpow_natCast] at hlt
    have hlt' := (zpow_lt_zpow_iff_right₀ (by norm_num : (1 : ℚ) < 10)).mp hlt
    omega

theorem encoded_within (hmax : 0 < maxDigits) (hmin : d.exponent ≠ minValue)
    (hpos : 0 ≤ d.mantissa) (h : Within maxDigits d.value) :
    encoded d maxDigits = some d.value := by
  rcases lt_or_eq_of_le h.1 with hlt | heq
  · have hfits := length_le_of_value_lt hmax hpos hlt
    by_cases hexp : 0 ≤ d.exponent
    · exact encoded_integer hpos hexp hfits
    · have hne : d.mantissa ≠ 0 := by
        rcases d.canonical with ⟨_, hzero⟩ | hten
        · omega
        · exact fun hzero => hten (hzero ▸ dvd_zero 10)
      have hfew := few_digits_of_within hne h
      have hk : d.exponent = -(d.exponent.natAbs : Int) := by omega
      by_cases hint : d.exponent.natAbs < (mantissaDigits d).length
      · have hmin' : min maxDigits d.exponent.natAbs = d.exponent.natAbs := by omega
        rw [encoded_fraction hpos hmin hmax hk (by omega) hint (by omega), hmin',
          Nat.sub_self, pow_zero, Nat.div_one, value_of_neg hpos hk]
      · exact encoded_small hpos hmin hk (by omega) (by omega) (by omega)
  · rw [encoded_ge hmin (le_of_eq heq.symm), heq]

theorem encoded_floor (hmax : 0 < maxDigits) (hmin : d.exponent ≠ minValue)
    (hone : 1 ≤ d.value) (h : d.value ≤ 10 ^ maxDigits) :
    encoded d maxDigits = some ((⌊d.value * 10 ^ maxDigits⌋ : ℚ) / 10 ^ maxDigits) := by
  have hpos : 0 ≤ d.mantissa := mantissa_nonneg (le_trans zero_le_one hone)
  have hpow : (10 : ℚ) ^ maxDigits ≠ 0 := pow_ne_zero _ (by norm_num)
  by_cases hdigits : -(maxDigits : Int) ≤ d.exponent
  · -- all the digits after the point are written
    have hk : d.exponent + maxDigits =
        ((d.exponent + maxDigits).toNat : Int) := by omega
    have hnat : d.value * 10 ^ maxDigits =
        ((d.mantissa * 10 ^ (d.exponent + maxDigits).toNat : Int) : ℚ) := by
      rw [value, mul_assoc, ← zpow_natCast, ← zpow_add₀ (by norm_num), hk,
        zpow_natCast]
      push_cast
      rfl
    have hwithin : Within maxDigits d.value := by
      refine ⟨h, Or.inl ⟨(d.mantissa * 10 ^ (d.exponent + maxDigits).toNat).toNat, ?_⟩⟩
      have hnonneg : 0 ≤ d.mantissa * 10 ^ (d.exponent + maxDigits).toNat := by
        positivity
      have htoNat := Int.toNat_of_nonneg hnonneg
      rw [hnat]
      exact_mod_cast htoNat.symm
    rw [encoded_within hmax hmin hpos hwithin, hnat, Int.floor_intCast, ← hnat,
      mul_div_assoc, div_self hpow, mul_one]
  · rcases lt_or_eq_of_le h with hlt | heq
    · have hfits := length_le_of_value_lt hmax hpos hlt
      have hk : d.exponent = -(d.exponent.natAbs : Int) := by omega
      have hint : d.exponent.natAbs < (mantissaDigits d).length := by
        have hvalue := lt_of_le_of_lt hone (value_lt_pow hpos)
        rw [← zpow_zero (10 : ℚ)] at hvalue
        have := (zpow_lt_zpow_iff_right₀ (by norm_num : (1 : ℚ) < 10)).mp hvalue
        omega
      have hmin' : min maxDigits d.exponent.natAbs = maxDigits := by omega
      have hscaled : d.value * 10 ^ maxDigits =
          (ofDigits (mantissaDigits d) : ℚ) /
            (10 ^ (d.exponent.natAbs - maxDigits) : Nat) := by
        have hsplit : (10 : ℚ) ^ d.exponent.natAbs =
            10 ^ (d.exponent.natAbs - maxDigits) * 10 ^ maxDigits := by
          rw [← pow_add]
          congr 1
          omega
        rw [value_of_neg hpos hk, hsplit, Nat.cast_pow, Nat.cast_ofNat]
        field_simp
      rw [encoded_fraction hpos hmin hmax hk (by omega) hint (by omega), hmin',
        hscaled, Rat.floor_natCast_div_natCast]
      rfl
    · rw [encoded_ge hmin (le_of_eq heq.symm), heq, ← Nat.cast_ofNat,
        ← Nat.cast_pow, ← Nat.cast_mul, Int.floor_natCast, Int.cast_natCast,
        Nat.cast_mul, mul_div_assoc, div_self, mul_one]
      exact_mod_cast hpow

end Writing

/-!
# Literals for the prover
-/

namespace Literal

/-- The canonical form of the literal's number has an exponent that is an `int`
and can be negated. -/
def Encodable (l : Literal) : Prop :=
  exists d : BigDec, d.value = l.value ∧ d.exponent ≠ minValue

/-- The number that the prover is given for the literal. -/
def encoded (l : Literal) (maxDigits : Nat) : Option ℚ :=
  (fromString l.text).bind (fun d => d.encoded maxDigits)

theorem value_nonneg (l : Literal) : 0 ≤ l.value := by
  unfold value
  positivity

theorem fromString_of_encodable {l : Literal} (h : l.Encodable) :
    exists d, fromString l.text = some d ∧ d.value = l.value ∧
      d.exponent ≠ minValue ∧ 0 ≤ d.mantissa := by
  rcases h with ⟨d, hd, hmin⟩
  rcases fromString_text l with ⟨m, e, hread, _, hvalue⟩
  have hcreate : (create m e).value = l.value := by
    rw [← hvalue]
    exact (create_value_iff m e).mpr ⟨d, hd.trans hvalue.symm⟩
  have heq : create m e = d := value_injective (hcreate.trans hd.symm)
  rw [heq] at hread
  exact ⟨d, hread, hd, hmin, mantissa_nonneg (hd ▸ l.value_nonneg)⟩

theorem encoded_eq {l : Literal} {d : BigDec} (h : fromString l.text = some d)
    (maxDigits : Nat) : l.encoded maxDigits = d.encoded maxDigits := by
  rw [encoded, h, Option.bind_some]

theorem encoded_of_within {l : Literal} (h : l.Encodable) {maxDigits : Nat}
    (hmax : 0 < maxDigits) (hwithin : Within maxDigits l.value) :
    l.encoded maxDigits = some l.value := by
  rcases fromString_of_encodable h with ⟨d, hread, hvalue, hmin, hpos⟩
  rw [encoded_eq hread, ← hvalue]
  exact encoded_within hmax hmin hpos (hvalue.symm ▸ hwithin)

theorem encoded_of_ge {l : Literal} (h : l.Encodable) {maxDigits : Nat}
    (hge : 10 ^ maxDigits ≤ l.value) : l.encoded maxDigits = some (10 ^ maxDigits) := by
  rcases fromString_of_encodable h with ⟨d, hread, hvalue, hmin, _⟩
  rw [encoded_eq hread]
  exact encoded_ge hmin (hvalue.symm ▸ hge)

theorem encoded_of_one_le {l : Literal} (h : l.Encodable) {maxDigits : Nat}
    (hmax : 0 < maxDigits) (hone : 1 ≤ l.value) (hle : l.value ≤ 10 ^ maxDigits) :
    l.encoded maxDigits = some ((⌊l.value * 10 ^ maxDigits⌋ : ℚ) / 10 ^ maxDigits) := by
  rcases fromString_of_encodable h with ⟨d, hread, hvalue, hmin, _⟩
  rw [encoded_eq hread, ← hvalue]
  exact encoded_floor hmax hmin (hvalue.symm ▸ hone) (hvalue.symm ▸ hle)

/-- Literals are read exactly.  The prover is given numbers up to the limit with
few digits exactly, greater ones as the limit, and the others from one on
without the digits beyond the limit. -/
theorem encoded_upTo_limit {maxDigits : Nat} (hmax : 0 < maxDigits) :
    (forall l : Literal, l.Encodable -> (exists d, fromString l.text = some d ∧ d.value = l.value ∧
        visitRealLit d = toDecimalString d 20) ∧
      (Within maxDigits l.value -> l.encoded maxDigits = some l.value) ∧
      (10 ^ maxDigits ≤ l.value -> l.encoded maxDigits = some (10 ^ maxDigits)) ∧
      (1 ≤ l.value -> l.value ≤ 10 ^ maxDigits -> l.encoded maxDigits =
          some ((⌊l.value * 10 ^ maxDigits⌋ : ℚ) / 10 ^ maxDigits))) ∧
    (forall l l' : Literal, l.Encodable -> l'.Encodable ->
      Within maxDigits l.value -> Within maxDigits l'.value ->
        l.value ≠ l'.value -> l.encoded maxDigits ≠ l'.encoded maxDigits) := by
  constructor
  · intro l h
    rcases fromString_of_encodable h with ⟨d, hread, hvalue, _, hpos⟩
    have hvisit : visitRealLit d = toDecimalString d 20 := by
      rw [visitRealLit, if_neg (not_lt.mpr hpos)]
    exact ⟨⟨d, hread, hvalue, hvisit⟩, encoded_of_within h hmax, encoded_of_ge h,
      encoded_of_one_le h hmax⟩
  · intro l l' h h' hwithin hwithin' hne heq
    rw [encoded_of_within h hmax hwithin, encoded_of_within h' hmax hwithin'] at heq
    exact hne (Option.some.inj heq)

def tenToThe21 : Literal where
  integral := ⟨[1], by decide, by decide⟩
  fraction := none
  exponent := some (Sign.absent, ⟨[2, 1], by decide, by decide⟩)
  inRange := by
    intro sign n h
    cases h
    decide

theorem value_tenToThe21 : tenToThe21.value = 10 ^ 21 := by
  have hexp : tenToThe21.exponentValue = 21 := by decide
  have hint : ofDigits tenToThe21.integral.digits = 1 := by decide
  rw [value, hexp, hint, fractionDigits, tenToThe21]
  norm_num

theorem encodable_tenToThe21 : tenToThe21.Encodable :=
  ⟨⟨1, 21, Or.inr (by decide), by decide⟩,
    by rw [value_tenToThe21, BigDec.value]; norm_num, by decide⟩

theorem le_value_tenToThe21 : (10 : ℚ) ^ 20 ≤ tenToThe21.value := by
  rw [value_tenToThe21]
  norm_num

def eighth : Literal where
  integral := ⟨[1], by decide, by decide⟩
  fraction := some ⟨[2, 5], by decide, by decide⟩
  exponent := some (Sign.minus, ⟨[1], by decide, by decide⟩)
  inRange := by
    intro sign n h
    cases h
    decide

theorem value_eighth : eighth.value = 1 / 8 := by
  have hexp : eighth.exponentValue = -1 := by decide
  have hint : ofDigits eighth.integral.digits = 1 := by decide
  have hfraction : ofDigits eighth.fractionDigits = 25 := by decide
  have hlength : eighth.fractionDigits.length = 2 := by decide
  rw [value, hexp, hint, hfraction, hlength]
  norm_num

def twelveAndAHalf : Literal where
  integral := ⟨[1, 2], by decide, by decide⟩
  fraction := some ⟨[5, 0], by decide, by decide⟩
  exponent := none
  inRange := by
    intro sign n h
    cases h

theorem value_twelveAndAHalf : twelveAndAHalf.value = 25 / 2 := by
  have hexp : twelveAndAHalf.exponentValue = 0 := by decide
  have hint : ofDigits twelveAndAHalf.integral.digits = 12 := by decide
  have hfraction : ofDigits twelveAndAHalf.fractionDigits = 50 := by decide
  have hlength : twelveAndAHalf.fractionDigits.length = 2 := by decide
  rw [value, hexp, hint, hfraction, hlength]
  norm_num

theorem encoded_upTo_limit_twenty :
    eighth.text = "1.25e-1".toList ∧ eighth.encoded 20 = some (1 / 8) ∧
      twelveAndAHalf.text = "12.50".toList ∧ twelveAndAHalf.encoded 20 = some (25 / 2) ∧
      tenToThe21.text = "1e21".toList ∧ tenToThe21.encoded 20 = some (10 ^ 20) ∧
      eighth.encoded 20 ≠ twelveAndAHalf.encoded 20 := by
  rcases @encoded_upTo_limit 20 (by decide) with ⟨hread, hinj⟩
  have h : eighth.Encodable :=
    ⟨⟨125, -3, Or.inr (by decide), by decide⟩,
      by rw [value_eighth, BigDec.value]; norm_num, by decide⟩
  have h' : twelveAndAHalf.Encodable :=
    ⟨⟨125, -1, Or.inr (by decide), by decide⟩,
      by rw [value_twelveAndAHalf, BigDec.value]; norm_num, by decide⟩
  have hwithin : Within 20 eighth.value := by
    rw [value_eighth]
    exact ⟨by norm_num, Or.inr ⟨125, -3, by norm_num, by norm_num⟩⟩
  have hwithin' : Within 20 twelveAndAHalf.value := by
    rw [value_twelveAndAHalf]
    exact ⟨by norm_num, Or.inr ⟨125, -1, by norm_num, by norm_num⟩⟩
  have hencoded := (hread eighth h).2.1 hwithin
  have hencoded' := (hread twelveAndAHalf h').2.1 hwithin'
  have hlimit := (hread tenToThe21 encodable_tenToThe21).2.2.1 le_value_tenToThe21
  have hne : eighth.value ≠ twelveAndAHalf.value := by
    rw [value_eighth, value_twelveAndAHalf]
    norm_num
  rw [value_eighth] at hencoded
  rw [value_twelveAndAHalf] at hencoded'
  exact ⟨by decide, hencoded, by decide, hencoded', by decide, hlimit,
    hinj eighth twelveAndAHalf h h' hwithin hwithin' hne⟩

/-- The prover is given the limit for the literal `1e21`. -/
theorem not_encoded_exactly :
    ¬ forall l : Literal, l.encoded 20 = some l.value := by
  intro hall
  have heq := (encoded_of_ge encodable_tenToThe21 le_value_tenToThe21).symm.trans
    (hall tenToThe21)
  rw [value_tenToThe21] at heq
  exact absurd (Option.some.inj heq) (by norm_num)

end Literal

end BigDec
end Basetypes
end Boogie
