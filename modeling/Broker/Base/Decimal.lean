import Broker.Base.Bytes
import Mathlib.Algebra.Order.Field.Rat
import Mathlib.Data.List.Basic
import Mathlib.Tactic.FieldSimp
import Mathlib.Tactic.Ring

/-!
# Decimal texts and the numbers they denote

The text of a number grows at its right end by one digit for each factor of ten; a field
filled with zeros holds the digits at its places. A text with an optional sign, digits, a
point and more digits denotes a rational number.
-/

namespace Broker.Base

/-- The character is a decimal digit. -/
def isDigit (b : UInt8) : Bool := 48 ≤ b.toNat && b.toNat ≤ 57

/-- The number that a string of digits denotes. -/
def natOfDigits (text : Bytes) : Nat := text.foldl (fun n b ↦ n * 10 + (b.toNat - 48)) 0

/-- The digits of a number at its last places, zeros included. -/
def lastDigits : Nat → Nat → Bytes
  | 0, _ => []
  | w + 1, n => lastDigits w (n / 10) ++ [digit (n % 10)]

/-- The point between the two parts of a decimal number. -/
def point : UInt8 := 46

/-- The sign of a negative number. -/
def minus : UInt8 := 45

/-- Read a text of the form `digits.digits`. -/
def readUnsigned (text : Bytes) : Option ℚ :=
  match text.span isDigit with
  | (whole, b :: fraction) =>
    if b = point ∧ whole ≠ [] ∧ fraction ≠ [] ∧ fraction.all isDigit then
      some ((natOfDigits whole : ℚ) + natOfDigits fraction / 10 ^ fraction.length)
    else none
  | (_, []) => none

/-- Read a decimal number with an optional sign. -/
def readDecimal : Bytes → Option ℚ
  | [] => none
  | b :: rest => if b = minus then (readUnsigned rest).map (-·) else readUnsigned (b :: rest)

/-! ### Single digits -/

private theorem toNat_digit {d : Nat} (h : d < 10) : (digit d).toNat = 48 + d := by
  rw [digit, UInt8.toNat_ofNat']
  omega

/-- Digits are written as digits. -/
theorem isDigit_digit {d : Nat} (h : d < 10) : isDigit (digit d) = true := by
  rw [isDigit, toNat_digit h]
  simp
  omega

/-- Neither the point nor the sign is a digit. -/
theorem isDigit_point : isDigit point = false := by decide

private theorem natOfDigits_append_digit (text : Bytes) {d : Nat} (h : d < 10) :
    natOfDigits (text ++ [digit d]) = natOfDigits text * 10 + d := by
  rw [natOfDigits, List.foldl_append, List.foldl_cons, List.foldl_nil, toNat_digit h,
    Nat.add_sub_cancel_left]
  rfl

/-! ### The text of a number -/

/-- The last digit comes off the right end. -/
theorem decimal_eq (n : Nat) :
    decimal n = (if n < 10 then [] else decimal (n / 10)) ++ [digit (n % 10)] := by
  by_cases hz : n = 0
  · rw [hz]
    rfl
  have hd : decimal n = ((n % 10) :: Nat.digits 10 (n / 10)).reverse.map digit := by
    rw [decimal, if_neg hz, Nat.digits_def' (by omega) (by omega)]
  rw [hd, List.reverse_cons, List.map_append]
  split
  · next hlt =>
    rw [Nat.div_eq_of_lt hlt, Nat.digits_zero]
    rfl
  · next hge => rw [decimal, if_neg (by omega)]; rfl

/-- The text of a number is not empty. -/
theorem decimal_ne_nil (n : Nat) : decimal n ≠ [] := by
  rw [decimal_eq]
  simp

/-- The text of a number is made of digits. -/
theorem isDigit_of_mem_decimal {n : Nat} {b : UInt8} (h : b ∈ decimal n) : isDigit b = true := by
  induction n using Nat.strongRecOn with
  | ind n ih =>
    rw [decimal_eq] at h
    obtain h | h := List.mem_append.mp h
    · split at h
      · cases h
      · next hge => exact ih (n / 10) (by omega) h
    · rw [List.mem_singleton.mp h]
      exact isDigit_digit (Nat.mod_lt n (by omega))

/-- The text of a number denotes it. -/
theorem natOfDigits_decimal (n : Nat) : natOfDigits (decimal n) = n := by
  induction n using Nat.strongRecOn with
  | ind n ih =>
    rw [decimal_eq, natOfDigits_append_digit _ (Nat.mod_lt n (by omega))]
    split
    · next hlt =>
      show 0 * 10 + n % 10 = n
      omega
    · next hge =>
      rw [ih (n / 10) (by omega)]
      omega

/-- Different numbers have different texts. -/
theorem decimal_injective : Function.Injective decimal := by
  intro m n h
  rw [← natOfDigits_decimal m, h, natOfDigits_decimal]

/-! ### Fields filled with zeros -/

/-- There are as many digits as places. -/
@[simp] theorem length_lastDigits (w n : Nat) : (lastDigits w n).length = w := by
  induction w generalizing n with
  | zero => rfl
  | succ w ih => rw [lastDigits, List.length_append, ih, List.length_singleton]

/-- The digits at the last places are digits. -/
theorem isDigit_of_mem_lastDigits {w n : Nat} {b : UInt8} (h : b ∈ lastDigits w n) :
    isDigit b = true := by
  induction w generalizing n with
  | zero => cases h
  | succ w ih =>
    obtain h | h := List.mem_append.mp h
    · exact ih h
    · rw [List.mem_singleton.mp h]
      exact isDigit_digit (Nat.mod_lt n (by omega))

/-- The digits at the last places denote the remainder of the number. -/
theorem natOfDigits_lastDigits (w n : Nat) : natOfDigits (lastDigits w n) = n % 10 ^ w := by
  induction w generalizing n with
  | zero => rw [Nat.pow_zero, Nat.mod_one]; rfl
  | succ w ih =>
    rw [lastDigits, natOfDigits_append_digit _ (Nat.mod_lt n (by omega)), ih, Nat.pow_succ,
      Nat.mul_comm (10 ^ w), Nat.mod_mul]
    omega

private theorem lastDigits_zero (w : Nat) : lastDigits w 0 = List.replicate w (digit 0) := by
  induction w with
  | zero => rfl
  | succ w ih => rw [lastDigits, Nat.zero_div, ih, List.replicate_succ']

/-- A number that fits its field is filled up with zeros to its digits at all places. -/
theorem setw_decimal {w n : Nat} (hw : 0 < w) (h : n < 10 ^ w) :
    setw w (decimal n) = lastDigits w n := by
  induction w generalizing n with
  | zero => omega
  | succ w ih =>
    rw [lastDigits, decimal_eq, setw, List.length_append, List.length_singleton,
      Nat.add_sub_add_right, ← List.append_assoc]
    congr 1
    split
    · next hlt =>
      rw [Nat.div_eq_of_lt hlt, lastDigits_zero, List.append_nil]
      rfl
    · next hge =>
      -- Another digit needs another place.
      have hdiv : n / 10 < 10 ^ w := by
        rw [Nat.pow_succ] at h
        omega
      have hpos : 0 < w := by
        by_contra hz
        rw [Nat.eq_zero_of_not_pos hz, Nat.pow_zero] at hdiv
        omega
      rw [← ih hpos hdiv, setw]

/-! ### Reading a text back -/

private theorem readUnsigned_of_digits {whole fraction : Bytes} (hw : whole ≠ [])
    (hwd : ∀ b ∈ whole, isDigit b = true) (hf : fraction ≠ [])
    (hfd : ∀ b ∈ fraction, isDigit b = true) :
    readUnsigned (whole ++ point :: fraction) =
      some ((natOfDigits whole : ℚ) + natOfDigits fraction / 10 ^ fraction.length) := by
  have hs : (whole ++ point :: fraction).span isDigit = (whole, point :: fraction) := by
    rw [List.span_eq_takeWhile_dropWhile, List.takeWhile_append_of_pos hwd,
      List.dropWhile_append_of_pos hwd, List.takeWhile_cons_of_neg (by rw [isDigit_point]; simp),
      List.dropWhile_cons_of_neg (by rw [isDigit_point]; simp), List.append_nil]
  rw [readUnsigned, hs]
  exact if_pos ⟨rfl, hw, hf, List.all_eq_true.mpr hfd⟩

/-- A number divided by a power of ten, written with its digits in front of the point and the
digits of the remainder behind, is read back exactly. -/
theorem readUnsigned_quotient (n w : Nat) {fraction : Bytes} (hf : fraction ≠ [])
    (hfd : ∀ b ∈ fraction, isDigit b = true)
    (hv : (natOfDigits fraction : ℚ) / 10 ^ fraction.length = (n % 10 ^ w : Nat) / 10 ^ w) :
    readUnsigned (decimal (n / 10 ^ w) ++ point :: fraction) = some ((n : ℚ) / 10 ^ w) := by
  have hq : (n : ℚ) = (10 : ℚ) ^ w * (n / 10 ^ w : Nat) + (n % 10 ^ w : Nat) := by
    exact_mod_cast (Nat.div_add_mod n (10 ^ w)).symm
  have hne : (10 : ℚ) ^ w ≠ 0 := pow_ne_zero w (by norm_num)
  rw [readUnsigned_of_digits (decimal_ne_nil _) (fun _ ↦ isDigit_of_mem_decimal) hf hfd,
    natOfDigits_decimal, hv, hq]
  congr 1
  field_simp

/-! ### Whole numbers -/

/-- Read a string of digits. -/
def readDigits (text : Bytes) : Option ℕ :=
  if text ≠ [] ∧ text.all isDigit then some (natOfDigits text) else none

/-- Read a whole number with an optional sign. -/
def readInteger : Bytes → Option ℤ
  | [] => none
  | b :: rest =>
    if b = minus then (readDigits rest).map fun n : ℕ ↦ -(n : ℤ)
    else (readDigits (b :: rest)).map fun n : ℕ ↦ (n : ℤ)

/-- Read a number, a whole one or one with a point. -/
def readNumber (text : Bytes) : Option ℚ :=
  match readInteger text with
  | some z => some z
  | none => readDecimal text

/-- The text of a whole number. -/
def integerText (z : ℤ) : Bytes := (if z < 0 then [minus] else []) ++ decimal z.natAbs

/-- The digits of a number are read back. -/
theorem readDigits_decimal (n : Nat) : readDigits (decimal n) = some n := by
  rw [readDigits, if_pos, natOfDigits_decimal]
  exact ⟨decimal_ne_nil n, List.all_eq_true.mpr fun b hb ↦ isDigit_of_mem_decimal hb⟩

/-- The text of a whole number is read back. -/
theorem readInteger_integerText (z : ℤ) : readInteger (integerText z) = some z := by
  unfold integerText
  split
  · next hneg =>
    rw [List.singleton_append, readInteger, if_pos rfl, readDigits_decimal, Option.map_some]
    congr 1
    omega
  · next hpos =>
    obtain ⟨b, rest, hb⟩ := List.exists_cons_of_ne_nil (decimal_ne_nil z.natAbs)
    have hdigit : isDigit b = true :=
      isDigit_of_mem_decimal (n := z.natAbs) (by rw [hb]; exact List.mem_cons_self)
    have hne : b ≠ minus := by
      rintro rfl
      exact absurd hdigit (by decide)
    rw [List.nil_append, hb, readInteger, if_neg hne, ← hb, readDigits_decimal, Option.map_some]
    congr 1
    omega

private theorem readDigits_eq_none {text : Bytes} {b : UInt8} (hm : b ∈ text)
    (hb : isDigit b = false) : readDigits text = none := by
  apply if_neg
  rintro ⟨-, hall⟩
  rw [List.all_eq_true.mp hall b hm] at hb
  cases hb

/-- A text with a point is no whole number. -/
theorem readInteger_eq_none {text : Bytes} (h : point ∈ text) : readInteger text = none := by
  cases text with
  | nil => rfl
  | cons b rest =>
    rw [readInteger]
    split
    · next hb =>
      have hm : point ∈ rest := (List.mem_cons.mp h).resolve_left fun he ↦
        absurd (he.trans hb) (by decide)
      rw [readDigits_eq_none hm isDigit_point, Option.map_none]
    · rw [readDigits_eq_none h isDigit_point, Option.map_none]

end Broker.Base
