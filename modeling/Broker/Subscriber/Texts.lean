import Broker.Base.Decimal
import Broker.Subscriber.Display
import Mathlib.Data.Nat.GCD.Basic

/-!
# Texts that show the value sent

A FLOAT payload carries a sign, a mantissa and a decimal exponent; its text is the exact
quotient as long as the power of ten in the subscriber's 32-bit variable is good enough for
the mantissa. A STRING payload fills the last field of the packet; its text is the content up
to a NUL, and a content without one is read on behind the packet.
-/

namespace Broker.Subscriber
open Broker.Base Broker.Net

/-! ### FLOAT -/

/-- The digits behind the point: as many as the exponent says, and one where it is zero. -/
def fractionDigits (exponent remainder : Nat) : Bytes :=
  if exponent = 0 then [digit 0] else lastDigits exponent remainder

/-- The exact text of a signed mantissa divided by a power of ten. -/
def floatText (sign : UInt8) (mantissa exponent : Nat) : Bytes :=
  (if sign = 1 then [minus] else []) ++ decimal (mantissa / 10 ^ exponent) ++
    point :: fractionDigits exponent (mantissa % 10 ^ exponent)

/-- The number a FLOAT payload stands for. -/
def floatValue (sign : UInt8) (mantissa exponent : Nat) : ℚ :=
  (if sign = 1 then -1 else 1) * mantissa / 10 ^ exponent

/-- The sign byte of a FLOAT payload. -/
def signByte (m : Message) : UInt8 := getElem m.content 0 (by rw [m.length_content]; decide)

/-- The mantissa of a FLOAT payload, in network byte order. -/
def mantissa (m : Message) : Nat := ntoh ((m.content.drop 1).take 4)

/-- The exponent byte of a FLOAT payload. -/
def exponent (m : Message) : Nat :=
  (getElem m.content 5 (by rw [m.length_content]; decide)).toNat

/-- The exact text is read back as the number. -/
theorem readDecimal_floatText (sign : UInt8) (mantissa exponent : Nat) :
    readDecimal (floatText sign mantissa exponent) = some (floatValue sign mantissa exponent) := by
  have hu : readUnsigned (decimal (mantissa / 10 ^ exponent) ++
      point :: fractionDigits exponent (mantissa % 10 ^ exponent)) =
      some ((mantissa : ℚ) / 10 ^ exponent) := by
    unfold fractionDigits
    split
    · next he =>
      have hd (b : UInt8) (hb : b ∈ [digit 0]) : isDigit b = true :=
        List.mem_singleton.mp hb ▸ isDigit_digit (by decide)
      apply readUnsigned_quotient _ _ (List.cons_ne_nil _ _) hd
      rw [he, Nat.pow_zero, Nat.mod_one]
      norm_num [natOfDigits, digit]
    · next he =>
      apply readUnsigned_quotient _ _ _ fun b ↦ isDigit_of_mem_lastDigits
      · rw [natOfDigits_lastDigits, length_lastDigits, Nat.mod_mod]
      · intro hn
        have hl := congrArg List.length hn
        rw [length_lastDigits] at hl
        exact he hl
  unfold floatText floatValue
  split
  · rw [List.singleton_append, List.cons_append, readDecimal, if_pos rfl, hu]
    simp [neg_div]
  · rw [List.nil_append]
    obtain ⟨b, rest, hb⟩ := List.exists_cons_of_ne_nil (decimal_ne_nil (mantissa / 10 ^ exponent))
    have hd : isDigit b = true :=
      isDigit_of_mem_decimal (n := mantissa / 10 ^ exponent) (by rw [hb]; exact List.mem_cons_self)
    have hm : b ≠ minus := by
      rintro rfl
      exact absurd hd (by decide)
    rw [hb, List.cons_append] at hu ⊢
    rw [readDecimal, if_neg hm, hu, one_mul]

/-- The loop computes the power of ten in 32 bits. -/
theorem powerOf10_eq (n : Nat) : powerOf10 n = 10 ^ n % 2 ^ 32 := by
  induction n with
  | zero => rfl
  | succ n ih => rw [powerOf10, ih, Nat.mul_mod, Nat.mod_mod, ← Nat.mul_mod, pow_succ 10 n]

/-- The power of ten that the loop computes is zero from the exponent 32 on. -/
theorem powerOf10_eq_zero_iff (n : Nat) : powerOf10 n = 0 ↔ 32 ≤ n := by
  rw [powerOf10_eq, ← Nat.dvd_iff_mod_eq_zero, show 10 ^ n = 2 ^ n * 5 ^ n from Nat.mul_pow 2 5 n]
  have hodd : Nat.Coprime (2 ^ 32) (5 ^ n) := Nat.Coprime.pow 32 n (by decide)
  rw [Nat.Coprime.dvd_mul_right hodd]
  exact Nat.pow_dvd_pow_iff_le_right (by decide)

/-- A message divides by zero exactly when it is a FLOAT with an exponent from 32 on. -/
theorem dividesByZero_iff (m : Message) :
    dividesByZero m = true ↔ m.dataType = dataTypeFloat ∧ 32 ≤ exponent m := by
  have h5 : 5 < m.content.length := by rw [m.length_content]; decide
  rw [dividesByZero, decide_eq_true_iff, List.getElem?_eq_getElem h5, Option.any_some,
    decide_eq_true_iff, powerOf10_eq_zero_iff]
  rfl

private theorem mantissa_lt (m : Message) : mantissa m < 2 ^ 32 := by
  have hl : ((m.content.drop 1).take 4).length = 4 := by
    rw [List.length_take, List.length_drop, m.length_content]
    rfl
  have hn := ntoh_lt ((m.content.drop 1).take 4)
  rw [hl] at hn
  exact hn

/-- The FLOAT branch in terms of the payload's parts. -/
theorem displayFloat_eq (m : Message) (behind : Bytes) :
    displayFloat (m.content ++ behind) =
      if powerOf10 (exponent m) = 0 then none else
        some ((if signByte m = 1 then [minus] else []) ++
          decimal (mantissa m / powerOf10 (exponent m)) ++
          point :: setw (exponent m) (decimal (mantissa m % powerOf10 (exponent m)))) := by
  have hl := m.length_content
  have h0 : 0 < m.content.length := by rw [hl]; decide
  have h5 : 5 < m.content.length := by rw [hl]; decide
  rw [displayFloat, List.getElem?_append_left h0, List.getElem?_append_left h5,
    List.getElem?_eq_getElem h0, List.getElem?_eq_getElem h5, readBytes_append _ (by omega)]
  simp only [Option.map_some, bind, Option.bind]
  rw [← exponent, ← mantissa, ← signByte, List.append_assoc _ (ascii ['.'])]
  rfl

private theorem eq_of_append_point {sign : Bytes} {a b : Nat} {x y : Bytes}
    (h : sign ++ decimal a ++ point :: x = sign ++ decimal b ++ point :: y) : a = b := by
  have hn (n : Nat) (z : Bytes) : (decimal n ++ point :: z).takeWhile isDigit = decimal n := by
    rw [List.takeWhile_append_of_pos fun _ ↦ isDigit_of_mem_decimal,
      List.takeWhile_cons_of_neg (by rw [isDigit_point]; simp), List.append_nil]
  rw [List.append_assoc, List.append_assoc] at h
  have ht := List.append_cancel_left h
  apply decimal_injective
  rw [← hn a x, ht, hn b y]

/-- With a power of ten that is right, or larger than the mantissa where the right one is, the
text is exact; and only with such a power. -/
theorem displayFloat_eq_floatText_iff (m : Message) (behind : Bytes) :
    displayFloat (m.content ++ behind) =
        some (floatText (signByte m) (mantissa m) (exponent m)) ↔
      exponent m ≤ 9 ∨ mantissa m < 10 ^ exponent m % 2 ^ 32 := by
  have hm := mantissa_lt m
  rw [displayFloat_eq, floatText]
  generalize exponent m = e
  generalize mantissa m = n at hm ⊢
  have hbig (he : ¬ e ≤ 9) : n < 10 ^ e := by
    have hp : 10 ^ 10 ≤ 10 ^ e := Nat.pow_le_pow_right (by decide) (by omega)
    omega
  have hfield (r : Nat) (hr : r < 10 ^ e) : setw e (decimal r) = fractionDigits e r := by
    unfold fractionDigits
    split
    · next he =>
      rw [he, Nat.pow_zero] at hr
      rw [Nat.lt_one_iff.mp hr, he]
      rfl
    · next he => exact setw_decimal (Nat.pos_of_ne_zero he) hr
  constructor
  · intro h
    by_contra hn
    obtain ⟨he, hle⟩ := not_or.mp hn
    rw [← powerOf10_eq] at hle
    by_cases hz : powerOf10 e = 0
    · rw [if_pos hz] at h
      cases h
    · rw [if_neg hz] at h
      -- The exact quotient is zero, and the one shown is not.
      have hq := eq_of_append_point (Option.some.inj h)
      rw [Nat.div_eq_of_lt (hbig he)] at hq
      have hlt := (Nat.div_eq_zero_iff_lt (Nat.pos_of_ne_zero hz)).mp hq
      omega
  · intro h
    by_cases he : e ≤ 9
    · have hp : powerOf10 e = 10 ^ e := by
        rw [powerOf10_eq, Nat.mod_eq_of_lt]
        exact (Nat.pow_le_pow_right (by decide) he).trans_lt (by decide)
      have hpos : 0 < 10 ^ e := Nat.pow_pos (by decide)
      rw [hp, if_neg hpos.ne', hfield _ (Nat.mod_lt n hpos)]
    · have hlt := h.resolve_left he
      rw [← powerOf10_eq] at hlt
      rw [if_neg (Nat.ne_of_gt (Nat.zero_lt_of_lt hlt)), Nat.div_eq_of_lt hlt,
        Nat.mod_eq_of_lt hlt, Nat.div_eq_of_lt (hbig he), Nat.mod_eq_of_lt (hbig he),
        hfield n (hbig he)]

/-- A FLOAT payload is shown by its exact text, which is read back as the number it stands
for, exactly when its exponent is at most nine or its mantissa is less than the power of ten
that is left in 32 bits. -/
theorem displayedFloat_exact_iff {m : Message} (h : m.dataType = dataTypeFloat)
    (behind : Bytes) :
    (∃ text, getDisplayedContent m behind = some text ∧
      text = floatText (signByte m) (mantissa m) (exponent m) ∧
      readDecimal text = some (floatValue (signByte m) (mantissa m) (exponent m))) ↔
    exponent m ≤ 9 ∨ mantissa m < 10 ^ exponent m % 2 ^ 32 := by
  have hd : getDisplayedContent m behind = displayFloat (m.content ++ behind) := by
    rw [getDisplayedContent, displayContent, h]
    rfl
  rw [hd, ← displayFloat_eq_floatText_iff m behind]
  constructor
  · rintro ⟨text, ht, rfl, -⟩
    exact ht
  · intro ht
    exact ⟨_, ht, rfl, readDecimal_floatText _ _ _⟩

/-- A message whose content is a payload with NULs behind it. -/
def paddedMessage (dataType : UInt8) (payload : Bytes) : Message where
  topic := List.replicate 50 97
  dataType := dataType
  content := strncpy payload maxContentLength
  length_topic := List.length_replicate
  length_content := length_strncpy payload maxContentLength

/-- A FLOAT message with the mantissa 1234 and the exponent 2. -/
def hundredths : Message := paddedMessage dataTypeFloat [1, 0, 0, 4, 210, 2]

/-- The mantissa 1234 with the exponent 2 is shown exactly. -/
theorem displayedFloat_exact_hundredths :
    ∃ text, getDisplayedContent hundredths [] = some text ∧
      text = floatText (signByte hundredths) (mantissa hundredths) (exponent hundredths) ∧
      readDecimal text =
        some (floatValue (signByte hundredths) (mantissa hundredths) (exponent hundredths)) :=
  (displayedFloat_exact_iff rfl []).mpr (.inl (by decide))

/-- The exponent 32 makes the power of ten zero. -/
theorem not_displayedFloat_exact_of_exponent :
    ¬ ∀ m : Message, m.dataType = dataTypeFloat → (signByte m = 0 ∨ signByte m = 1) →
      ∃ text, getDisplayedContent m [] = some text ∧
        text = floatText (signByte m) (mantissa m) (exponent m) ∧
        readDecimal text = some (floatValue (signByte m) (mantissa m) (exponent m)) := by
  intro h
  obtain ⟨text, ht, -⟩ := h (paddedMessage dataTypeFloat [0, 0, 0, 0, 1, 32]) rfl (.inl rfl)
  have hn : getDisplayedContent (paddedMessage dataTypeFloat [0, 0, 0, 0, 1, 32]) [] = none := by
    decide +kernel
  rw [hn] at ht
  cases ht

/-! ### STRING -/

/-- Where the content lies in a packet, `utils.hpp:31–44`. -/
def contentOffset : Nat := 4 + 2 + maxTopicLength + 1

/-- Read a C string index by index from an image; an index outside of it fails. -/
def readStringAt (image : Bytes) (i : Nat) : Option Bytes :=
  if h : i < image.length then
    if getElem image i h = 0 then some []
    else (readStringAt image (i + 1)).map (getElem image i h :: ·)
  else none
termination_by image.length - i

private theorem readCString_cons (b : UInt8) (rest : Bytes) :
    readCString (b :: rest) = if b = 0 then some [] else (readCString rest).map (b :: ·) := by
  unfold readCString
  by_cases hb : b = 0
  · rw [if_pos hb, if_pos (hb ▸ List.mem_cons_self), cString,
      List.takeWhile_cons_of_neg (by simp [hb])]
  · have hm : (0 : UInt8) ∈ b :: rest ↔ (0 : UInt8) ∈ rest := by simp [Ne.symm hb]
    rw [if_neg hb, cString, List.takeWhile_cons_of_pos (by simp [hb])]
    simp only [hm]
    split
    · rfl
    · rfl

private theorem readStringAt_eq (image : Bytes) (i : Nat) :
    readStringAt image i = readCString (image.drop i) := by
  induction i using readStringAt.induct image with
  | case1 i h hz =>
    rw [readStringAt, dif_pos h, if_pos hz, List.drop_eq_getElem_cons h, readCString_cons,
      if_pos hz]
  | case2 i h hz ih =>
    rw [readStringAt, dif_pos h, if_neg hz, ih, List.drop_eq_getElem_cons h, readCString_cons,
      if_neg hz]
  | case3 i h =>
    rw [readStringAt, dif_neg h, List.drop_of_length_le (Nat.le_of_not_lt h)]
    rfl

private theorem drop_contentOffset (packet : MessageWithHeader) :
    packet.encode.drop contentOffset = packet.msg.content := by
  have hl : (packet.source.sAddr ++ packet.source.sinPort ++
      (packet.msg.topic ++ [packet.msg.dataType])).length = contentOffset := by
    simp only [List.length_append, packet.source.length_sAddr, packet.source.length_sinPort,
      packet.msg.length_topic, List.length_singleton]
    rfl
  have he : packet.encode = packet.source.sAddr ++ packet.source.sinPort ++
      (packet.msg.topic ++ [packet.msg.dataType]) ++ packet.msg.content := by
    rw [MessageWithHeader.encode, Message.encode]
    simp only [List.append_assoc, List.singleton_append]
  rw [he, ← hl, List.drop_left]

/-- The text of a STRING payload is read from the packet index by index, and is the content in
front of its first NUL, or all of it without one, exactly when there is a NUL in it. -/
theorem displayedString_exact_iff {packet : MessageWithHeader}
    (h : packet.msg.dataType = dataTypeString) :
    getDisplayedContent packet.msg [] = readStringAt packet.encode contentOffset ∧
      (getDisplayedContent packet.msg [] =
          some (packet.msg.content.takeWhile (· ≠ 0)) ↔ (0 : UInt8) ∈ packet.msg.content) := by
  have hd : getDisplayedContent packet.msg [] = readCString packet.msg.content := by
    rw [getDisplayedContent, displayContent, h, List.append_nil]
    rfl
  rw [hd, readStringAt_eq, drop_contentOffset]
  apply And.intro rfl
  rw [readCString]
  split
  · next hm => exact iff_of_true rfl hm
  · next hm => exact iff_of_false (Option.some_ne_none _).symm hm

/-- A STRING packet with this text. -/
def stringPacket (text : Bytes) : MessageWithHeader :=
  ⟨⟨[10, 0, 0, 1], [0, 80], rfl, rfl⟩, paddedMessage dataTypeString text⟩

/-- A short text with NULs behind it is shown. -/
theorem displayedString_exact_short :
    getDisplayedContent (stringPacket [97]).msg [] =
      some ((stringPacket [97]).msg.content.takeWhile (· ≠ 0)) :=
  (displayedString_exact_iff (rfl : (stringPacket [97]).msg.dataType = dataTypeString)).2.mpr
    (by decide)

/-- A content without a NUL is read on behind the packet. -/
theorem not_displayedString_exact_of_full :
    ¬ ∀ packet : MessageWithHeader, packet.msg.dataType = dataTypeString →
      getDisplayedContent packet.msg [] = some (packet.msg.content.takeWhile (· ≠ 0)) := by
  intro h
  have hs := h (stringPacket (List.replicate 1500 97)) rfl
  have hn : getDisplayedContent (stringPacket (List.replicate 1500 97)).msg [] = none := by
    decide +kernel
  rw [hn] at hs
  cases hs

end Broker.Subscriber
