import Mathlib.Data.List.Forall2
import Broker.Net.Address
import Broker.Subscriber.Texts

/-!
# Printed lines

What the line that is printed for a message tells about it. Source, topic, type and content are
joined with ` - ` (`subscriber.cpp:72–84`), and topics and strings may be made of any bytes. Yet for
all types but STRING the line has one reading, and the number in it is the one that was sent; and
so it has for STRING among messages on one topic.
-/

namespace Broker.Subscriber
open Broker.Base Broker.Net

/-! ### Numbers -/

/-- The number an INT payload stands for. -/
def intValue (m : Message) : ℤ := if signByte m = 1 then -(mantissa m : ℤ) else mantissa m

/-- The hundredths a SHORT_REAL payload stands for. -/
def numberTimes100 (m : Message) : Nat := ntoh (m.content.take 2)

/-- The number a message stands for. -/
def numberSent (m : Message) : Option ℚ :=
  if m.dataType = dataTypeInt then some (intValue m)
  else if m.dataType = dataTypeShortReal then some (numberTimes100 m / 100)
  else if m.dataType = dataTypeFloat then
    some (floatValue (signByte m) (mantissa m) (exponent m))
  else none

/-- The power of ten of a FLOAT payload is good enough in 32 bits. -/
def Exact (m : Message) : Prop :=
  m.dataType = dataTypeFloat → exponent m ≤ 9 ∨ mantissa m < 10 ^ exponent m % 2 ^ 32

/-- An INT payload is shown by the text of its number. -/
theorem displayInt_eq (m : Message) (behind : Bytes) :
    displayInt (m.content ++ behind) = some (integerText (intValue m)) := by
  have hl := m.length_content
  have h0 : 0 < m.content.length := by rw [hl]; decide
  have h4 : 1 + 4 ≤ m.content.length := by rw [hl]; decide
  rw [displayInt, List.getElem?_append_left h0, List.getElem?_eq_getElem h0,
    readBytes_append _ h4]
  simp only [Option.map_some, bind, Option.bind]
  rw [← mantissa, ← signByte, integerText, intValue]
  have hsign : (signByte m = 1 ∧ mantissa m ≠ 0) ↔
      (if signByte m = 1 then -(mantissa m : ℤ) else mantissa m) < 0 := by
    split
    · next hs => simp [hs, Nat.pos_iff_ne_zero]
    · next hs => simp [hs]
  have habs : (if signByte m = 1 then -(mantissa m : ℤ) else mantissa m).natAbs = mantissa m := by
    split <;> simp
  rw [habs]
  simp only [hsign]
  rfl

/-- A SHORT_REAL payload is shown by the exact text of its hundredths. -/
theorem displayShortReal_eq (m : Message) (behind : Bytes) :
    displayShortReal (m.content ++ behind) = some (floatText 0 (numberTimes100 m) 2) := by
  have h2 : 0 + 2 ≤ m.content.length := by rw [m.length_content]; decide
  have hfield : setw 2 (decimal (numberTimes100 m % 100)) =
      lastDigits 2 (numberTimes100 m % 100) :=
    setw_decimal (by decide) (Nat.mod_lt _ (by decide))
  rw [displayShortReal, readBytes_append _ h2]
  simp only [Option.map_some, bind, Option.bind]
  rw [List.drop_zero, ← numberTimes100, hfield, floatText, List.append_assoc _ (ascii ['.'])]
  rfl

private theorem readNumber_floatText (sign : UInt8) (mantissa exponent : Nat) :
    readNumber (floatText sign mantissa exponent) = some (floatValue sign mantissa exponent) := by
  have hpoint : point ∈ floatText sign mantissa exponent :=
    List.mem_append_right _ List.mem_cons_self
  rw [readNumber, readInteger_eq_none hpoint, readDecimal_floatText]

/-- The number a message stands for is shown and read back, and where it stands for none, none is
read. -/
theorem number_shown {m : Message} (hs : m.dataType ≠ dataTypeString) (he : Exact m)
    (behind : Bytes) : ∃ text, getDisplayedContent m behind = some text ∧
      readNumber text = numberSent m := by
  unfold getDisplayedContent displayContent numberSent
  split
  · refine ⟨_, displayInt_eq m behind, ?_⟩
    rw [readNumber, readInteger_integerText]
  split
  · refine ⟨_, displayShortReal_eq m behind, ?_⟩
    rw [readNumber_floatText, floatValue, if_neg (by decide)]
    norm_num
  split
  · next hf =>
    exact ⟨_, (displayFloat_eq_floatText_iff m behind).mpr (he hf), readNumber_floatText _ _ _⟩
  · refine ⟨_, rfl, ?_⟩
    decide +kernel

/-! ### Lines -/

/-- The blank around the separators. -/
def blank : UInt8 := 32

private theorem isDigit_blank : isDigit blank = false := by decide

private theorem blank_notMem_decimal (n : Nat) : blank ∉ decimal n := by
  intro hm
  have hd := isDigit_of_mem_decimal hm
  rw [isDigit_blank] at hd
  cases hd

private theorem blank_notMem_setw (w n : Nat) : blank ∉ setw w (decimal n) := by
  intro hm
  obtain hm | hm := List.mem_append.mp hm
  · exact absurd (List.eq_of_mem_replicate hm) (by decide)
  · exact blank_notMem_decimal n hm

private theorem blank_notMem_sign (p : Prop) [Decidable p] : blank ∉ if p then [minus] else [] := by
  split
  · decide
  · exact List.not_mem_nil

private theorem blank_notMem_content {m : Message} (hs : m.dataType ≠ dataTypeString)
    {behind text : Bytes} (h : getDisplayedContent m behind = some text) : blank ∉ text := by
  unfold getDisplayedContent displayContent at h
  split at h
  · rw [displayInt_eq] at h
    cases h
    exact List.not_mem_append (blank_notMem_sign _) (blank_notMem_decimal _)
  split at h
  · have hl : 0 + 2 ≤ m.content.length := by rw [m.length_content]; decide
    rw [displayShortReal, readBytes_append _ hl] at h
    cases h
    exact List.not_mem_append (List.not_mem_append (blank_notMem_decimal _) (by decide))
      (blank_notMem_setw _ _)
  split at h
  · rw [displayFloat_eq] at h
    obtain ⟨-, h⟩ := Option.ite_none_left_eq_some.mp h
    cases h
    refine List.not_mem_append (List.not_mem_append (blank_notMem_sign _)
      (blank_notMem_decimal _)) ?_
    exact List.not_mem_cons_of_ne_of_not_mem (by decide) (blank_notMem_setw _ _)
  · cases h
    decide

private theorem blank_notMem_type (m : Message) : blank ∉ getDataType m := by
  unfold getDataType
  split_ifs <;> decide

/-- Only STRING is called so. -/
theorem dataType_of_name {m : Message} {other : Message} (h : getDataType m = getDataType other)
    (ho : other.dataType = dataTypeString) : m.dataType = dataTypeString := by
  have hname : getDataType other = ascii ['S', 'T', 'R', 'I', 'N', 'G'] := by
    rw [getDataType, ho]
    rfl
  rw [hname, getDataType] at h
  split_ifs at h with _ _ _ hs
  · exact absurd h (by decide)
  · exact absurd h (by decide)
  · exact absurd h (by decide)
  · exact hs
  · exact absurd h (by decide)

variable {packet other : MessageWithHeader} {content content' : Bytes}

/-- Read from its end, a line tells a content without blanks, and from its beginning the
source. -/
theorem messageLine_tells (hc : blank ∉ content) (hc' : blank ∉ content')
    (h : messageLine packet content = messageLine other content') :
    packet.source = other.source ∧ topicString packet.msg = topicString other.msg ∧
      getDataType packet.msg = getDataType other.msg ∧ content = content' := by
  have hline (packet : MessageWithHeader) (content : Bytes) : messageLine packet content =
      inetNtoa packet.source.sAddr ++ ascii [':'] ++ decimal (ntoh packet.source.sinPort) ++
        blank :: minus :: blank :: topicString packet.msg ++ [blank, minus] ++
        blank :: getDataType packet.msg ++ [blank, minus] ++ blank :: content ++
        ascii ['\n'] := by
    have hsep : fieldSeparator = [blank, minus, blank] := by decide
    simp only [messageLine, messageFront, hsep, List.append_assoc, List.cons_append,
      List.nil_append]
  rw [hline, hline] at h
  obtain ⟨hfront, hcontent⟩ := eq_of_separator_append hc hc' (List.append_cancel_right h)
  obtain ⟨hfront', htype⟩ := eq_of_separator_append (blank_notMem_type packet.msg)
    (blank_notMem_type other.msg) (List.append_cancel_right hfront)
  obtain ⟨hsource, hrest⟩ := eq_of_address isDigit_blank isDigit_blank
    (List.append_cancel_right hfront')
  exact ⟨hsource, (List.cons.inj (List.cons.inj (List.cons.inj hrest).2).2).2, htype, hcontent⟩

/-- Read from its beginning, a line about a known topic tells the rest. -/
theorem messageLine_tells_of_topic (ht : topicString packet.msg = topicString other.msg)
    (h : messageLine packet content = messageLine other content') :
    packet.source = other.source ∧ getDataType packet.msg = getDataType other.msg ∧
      content = content' := by
  have hline (packet : MessageWithHeader) (content : Bytes) : messageLine packet content =
      inetNtoa packet.source.sAddr ++ ascii [':'] ++ decimal (ntoh packet.source.sinPort) ++
        blank :: (minus :: blank :: topicString packet.msg ++ [blank, minus, blank] ++
          (getDataType packet.msg ++ blank :: (minus :: blank :: content ++ ascii ['\n']))) := by
    have hsep : fieldSeparator = [blank, minus, blank] := by decide
    simp only [messageLine, messageFront, hsep, List.append_assoc, List.cons_append,
      List.nil_append]
  rw [hline, hline] at h
  obtain ⟨hsource, hrest⟩ := eq_of_address isDigit_blank isDigit_blank h
  have hbehind := (List.cons.inj hrest).2
  rw [ht] at hbehind
  obtain ⟨htype, hcontent⟩ := eq_of_append_separator (blank_notMem_type packet.msg)
    (blank_notMem_type other.msg) (List.append_cancel_left hbehind)
  exact ⟨hsource, htype,
    (List.cons.inj (List.cons.inj (List.append_cancel_right hcontent)).2).2⟩

/-- The line of a message tells it. Whatever bytes the topics and contents are made of, the same
line is printed for the same source, topic and type and with the same content only, unless there
is a string on another topic among them; and where the power of ten is good enough for it the
number in the line is the one that was sent. -/
theorem line_tells {behind behind' line : Bytes}
    (ht : (packet.msg.dataType ≠ dataTypeString ∧ other.msg.dataType ≠ dataTypeString) ∨
      topicString packet.msg = topicString other.msg)
    (h : displayMessage packet behind = some line)
    (h' : displayMessage other behind' = some line) :
    packet.source = other.source ∧ topicString packet.msg = topicString other.msg ∧
      getDataType packet.msg = getDataType other.msg ∧
      getDisplayedContent packet.msg behind = getDisplayedContent other.msg behind' ∧
      (packet.msg.dataType ≠ dataTypeString → Exact packet.msg → Exact other.msg →
        numberSent packet.msg = numberSent other.msg) := by
  obtain ⟨content, hc, hline⟩ := Option.map_eq_some_iff.mp h
  obtain ⟨content', hc', hline'⟩ := Option.map_eq_some_iff.mp h'
  have he : messageLine packet content = messageLine other content' := hline.trans hline'.symm
  obtain ⟨hsource, htopic, htype, hcontent⟩ : packet.source = other.source ∧
      topicString packet.msg = topicString other.msg ∧
      getDataType packet.msg = getDataType other.msg ∧ content = content' := by
    obtain ⟨hs, ho⟩ | htopic := ht
    · exact messageLine_tells (blank_notMem_content hs hc) (blank_notMem_content ho hc') he
    · obtain ⟨hsource, htype, hcontent⟩ := messageLine_tells_of_topic htopic he
      exact ⟨hsource, htopic, htype, hcontent⟩
  refine ⟨hsource, htopic, htype, by rw [hc, hc', hcontent], fun hs hexact hexact' ↦ ?_⟩
  have ho : other.msg.dataType ≠ dataTypeString := fun ho ↦ hs (dataType_of_name htype ho)
  obtain ⟨text, ht, hnumber⟩ := number_shown hs hexact behind
  obtain ⟨text', ht', hnumber'⟩ := number_shown ho hexact' behind'
  rw [← hnumber, ← hnumber', Option.some.inj (ht.symm.trans hc),
    Option.some.inj (ht'.symm.trans hc'), hcontent]

/-- An INT packet with this payload. -/
def intPacket (payload : Bytes) : MessageWithHeader :=
  { stringPacket payload with msg := paddedMessage dataTypeInt payload }

/-- Zero has one line with and without the sign, and it is one number. -/
theorem line_tells_zero :
    displayMessage (intPacket [1, 0, 0, 0, 0]) [] = displayMessage (intPacket []) [] ∧
      numberSent (intPacket [1, 0, 0, 0, 0]).msg = numberSent (intPacket []).msg := by
  have hzero : (displayMessage (intPacket []) []).isSome = true := by decide +kernel
  obtain ⟨line, hline⟩ := Option.isSome_iff_exists.mp hzero
  have hsame : displayMessage (intPacket [1, 0, 0, 0, 0]) [] =
      displayMessage (intPacket []) [] := by decide +kernel
  have hstring : dataTypeInt ≠ dataTypeString := by decide
  have hfloat : dataTypeInt ≠ dataTypeFloat := by decide
  have hexact (payload : Bytes) : Exact (intPacket payload).msg := fun hf ↦ absurd hf hfloat
  exact ⟨hsame, (line_tells (.inl ⟨hstring, hstring⟩) (hsame.trans hline) hline).2.2.2.2 hstring
    (hexact _) (hexact _)⟩

/-! ### What is printed for a frame -/

/-- For the frame one text is printed, whatever lies behind it in memory. -/
def Settled (frame : Frame) : Prop := ∃ text, ∀ behind, displayFrame frame behind = some text

/-- A message that divides by zero has no text. -/
theorem getDisplayedContent_of_dividesByZero {m : Message} (h : dividesByZero m = true)
    (behind : Bytes) : getDisplayedContent m behind = none := by
  obtain ⟨ht, he⟩ := (dividesByZero_iff m).mp h
  have hi : m.dataType ≠ dataTypeInt := by rw [ht]; decide
  have hr : m.dataType ≠ dataTypeShortReal := by rw [ht]; decide
  rw [getDisplayedContent, displayContent, if_neg hi, if_neg hr, if_pos ht, displayFloat_eq,
    if_pos ((powerOf10_eq_zero_iff _).mpr he)]

/-- A message that does not divide by zero has a text, if a string in it ends. -/
theorem exists_getDisplayedContent {m : Message} (hd : dividesByZero m = false)
    (hs : m.dataType = dataTypeString → (0 : UInt8) ∈ m.content) (behind : Bytes) :
    ∃ text, getDisplayedContent m behind = some text := by
  unfold getDisplayedContent displayContent
  split
  · exact ⟨_, displayInt_eq m behind⟩
  split
  · exact ⟨_, displayShortReal_eq m behind⟩
  split
  · next hf =>
    have hp : powerOf10 (exponent m) ≠ 0 := by
      intro hp
      have hz := (dividesByZero_iff m).mpr ⟨hf, (powerOf10_eq_zero_iff _).mp hp⟩
      rw [hd] at hz
      cases hz
    exact ⟨_, (displayFloat_eq m behind).trans (if_neg hp)⟩
  split
  · next ht => exact ⟨_, if_pos (List.mem_append_left behind (hs ht))⟩
  · exact ⟨_, rfl⟩

/-- A frame that has a text can be displayed. -/
theorem Settled.displayable {frame : Frame} (h : Settled frame) : displayable frame = true := by
  cases frame with
  | subscribeAck request => rfl
  | message packet =>
    obtain ⟨text, h⟩ := h
    by_contra hd
    have hz : dividesByZero packet.msg = true := by simpa [Subscriber.displayable] using hd
    have hn := h []
    rw [displayFrame, displayMessage, getDisplayedContent_of_dividesByZero hz] at hn
    cases hn

/-- The texts that are printed for settled frames are theirs. -/
theorem map_displayFrame {frames : List Frame} {texts : List Bytes}
    (h : List.Forall₂ (fun frame text ↦ ∃ behind, displayFrame frame behind = some text) frames
      texts) (hs : ∀ frame ∈ frames, Settled frame) :
    texts.map some = frames.map fun frame ↦ displayFrame frame [] := by
  induction h with
  | nil => rfl
  | @cons frame text frames texts hp _ ih =>
    obtain ⟨behind, hp⟩ := hp
    obtain ⟨settled, hsettled⟩ := hs frame List.mem_cons_self
    have ht : some text = displayFrame frame [] := by
      rw [← hp, hsettled behind, hsettled []]
    rw [List.map_cons, List.map_cons, ht, ih fun other hm ↦ hs other (List.mem_cons_of_mem _ hm)]

end Broker.Subscriber
