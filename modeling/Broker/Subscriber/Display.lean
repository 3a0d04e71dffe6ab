import Broker.Net.Packet

/-!
# Displaying what is received

`message::get_data_type` and `message::get_displayed_content` (`utils.cpp:76–147`) and what
`receive_message` and `receive_subscribe_ack` print (`subscriber.cpp:72–84, 101–107`). The
content is read from memory: the content field and whatever the subscriber's memory holds behind
the packet. A read beyond the modelled memory and a division by zero leave no text.
-/

namespace Broker.Subscriber
open Broker.Base Broker.Net

/-- `DATA_TYPE_INT`. -/
def dataTypeInt : UInt8 := 0

/-- `DATA_TYPE_SHORT_REAL`. -/
def dataTypeShortReal : UInt8 := 1

/-- `DATA_TYPE_FLOAT`. -/
def dataTypeFloat : UInt8 := 2

/-- `DATA_TYPE_STRING`. -/
def dataTypeString : UInt8 := 3

/-- `message::get_data_type`, `utils.cpp:76–90`. -/
def getDataType (m : Message) : Bytes :=
  if m.dataType = dataTypeInt then ascii ['I', 'N', 'T']
  else if m.dataType = dataTypeShortReal then
    ascii ['S', 'H', 'O', 'R', 'T', '_', 'R', 'E', 'A', 'L']
  else if m.dataType = dataTypeFloat then ascii ['F', 'L', 'O', 'A', 'T']
  else if m.dataType = dataTypeString then ascii ['S', 'T', 'R', 'I', 'N', 'G']
  else ascii ['I', 'N', 'V', 'A', 'L', 'I', 'D']

/-- The INT branch, `utils.cpp:97–109`. -/
def displayInt (content : Bytes) : Option Bytes := do
  let sign ← content[0]?
  let number ← (readBytes content 1 4).map ntoh
  some ((if sign = 1 ∧ number ≠ 0 then ascii ['-'] else []) ++ decimal number)

/-- The SHORT_REAL branch, `utils.cpp:111–119`. -/
def displayShortReal (content : Bytes) : Option Bytes := do
  let numberTimes100 ← (readBytes content 0 2).map ntoh
  some (decimal (numberTimes100 / 100) ++ ascii ['.'] ++ setw 2 (decimal (numberTimes100 % 100)))

/-- The loop that raises ten to the exponent in a `uint32_t`, `utils.cpp:129–131`. -/
def powerOf10 : Nat → Nat
  | 0 => 1
  | n + 1 => powerOf10 n * 10 % 2 ^ 32

/-- The FLOAT branch, `utils.cpp:120–138`; it divides by the power of ten. -/
def displayFloat (content : Bytes) : Option Bytes := do
  let sign ← content[0]?
  let mantissa ← (readBytes content 1 4).map ntoh
  let exponent ← content[5]?
  let power := powerOf10 exponent.toNat
  if power = 0 then none else
    some ((if sign = 1 then ascii ['-'] else []) ++ decimal (mantissa / power) ++ ascii ['.'] ++
      setw exponent.toNat (decimal (mantissa % power)))

/-- The FLOAT branch divides by zero, `utils.cpp:136–137`: `SIGFPE` ends the process. -/
def dividesByZero (m : Message) : Bool :=
  m.dataType = dataTypeFloat ∧ (m.content[5]?).any (fun exponent ↦ powerOf10 exponent.toNat = 0)

/-- The STRING branch, `utils.cpp:139–141`: the content as a C string. -/
def displayString (content : Bytes) : Option Bytes := readCString content

/-- The text for a data type and the memory its content starts. -/
def displayContent (dataType : UInt8) (content : Bytes) : Option Bytes :=
  if dataType = dataTypeInt then displayInt content
  else if dataType = dataTypeShortReal then displayShortReal content
  else if dataType = dataTypeFloat then displayFloat content
  else if dataType = dataTypeString then displayString content
  else some (ascii ['I', 'N', 'V', 'A', 'L', 'I', 'D'])

/-- `message::get_displayed_content`, `utils.cpp:92–147`, with the memory behind the packet. -/
def getDisplayedContent (m : Message) (behind : Bytes) : Option Bytes :=
  displayContent m.dataType (m.content ++ behind)

/-- The separator of the fields of a printed line. -/
def fieldSeparator : Bytes := ascii [' ', '-', ' ']

/-- The topic of a message, which may fill its field without a terminator. -/
def topicString (m : Message) : Bytes := strnString m.topic maxTopicLength

/-- What `receive_message` prints in front of the content, `subscriber.cpp:72–84`. -/
def messageFront (packet : MessageWithHeader) : Bytes :=
  inetNtoa packet.source.sAddr ++ ascii [':'] ++ decimal (ntoh packet.source.sinPort) ++
    fieldSeparator ++ topicString packet.msg ++ fieldSeparator ++ getDataType packet.msg ++
    fieldSeparator

/-- The line around a content, `subscriber.cpp:72–84`. -/
def messageLine (packet : MessageWithHeader) (content : Bytes) : Bytes :=
  messageFront packet ++ content ++ ascii ['\n']

/-- The line `receive_message` prints for a packet, `subscriber.cpp:72–84`. -/
def displayMessage (packet : MessageWithHeader) (behind : Bytes) : Option Bytes :=
  (getDisplayedContent packet.msg behind).map (messageLine packet)

/-- What `receive_subscribe_ack` prints, `subscriber.cpp:101–107`. The topic is read as a C string
from the acknowledgement and the memory behind it. -/
def displayAck (request : SubcribeRequest) (behind : Bytes) : Option Bytes :=
  if request.operation = operationAckSub then
    (readCString (request.topic ++ behind)).map fun topic ↦
      ascii "Subscribed to topic ".toList ++ topic ++ ascii ['\n']
  else if request.operation = operationAckUnsub then
    (readCString (request.topic ++ behind)).map fun topic ↦
      ascii "Unsubscribed from topic ".toList ++ topic ++ ascii ['\n']
  else some []

/-- What is printed for a frame that can be displayed. -/
def displayFrame (frame : Frame) (behind : Bytes) : Option Bytes :=
  match frame with
  | .message packet => displayMessage packet behind
  | .subscribeAck request => displayAck request behind

/-- The frame is displayed without a division by zero. -/
def displayable : Frame → Bool
  | .message packet => !dividesByZero packet.msg
  | .subscribeAck _ => true

/-! ### How many content bytes a text is read from -/

/-- The content bytes that are known suffice to determine the text. -/
def ContentComplete (dataType : UInt8) (known : Bytes) : Prop :=
  if dataType = dataTypeInt then 5 ≤ known.length
  else if dataType = dataTypeShortReal then 2 ≤ known.length
  else if dataType = dataTypeFloat then 6 ≤ known.length
  else if dataType = dataTypeString then (0 : UInt8) ∈ known
  else True

instance (dataType : UInt8) (known : Bytes) : Decidable (ContentComplete dataType known) := by
  unfold ContentComplete
  infer_instance

private theorem displayInt_append {known : Bytes} (h : 5 ≤ known.length) (rest : Bytes) :
    displayInt (known ++ rest) = displayInt known := by
  have h4 : readBytes known 1 4 = some ((known.drop 1).take 4) := by
    simpa using readBytes_append [] (by omega : 1 + 4 ≤ known.length)
  rw [displayInt, displayInt, List.getElem?_append_left (by omega), readBytes_append _ (by omega),
    h4]

private theorem displayShortReal_append {known : Bytes} (h : 2 ≤ known.length) (rest : Bytes) :
    displayShortReal (known ++ rest) = displayShortReal known := by
  have h2 : readBytes known 0 2 = some ((known.drop 0).take 2) := by
    simpa using readBytes_append [] (by omega : 0 + 2 ≤ known.length)
  rw [displayShortReal, displayShortReal, readBytes_append _ (by omega), h2]

private theorem displayFloat_append {known : Bytes} (h : 6 ≤ known.length) (rest : Bytes) :
    displayFloat (known ++ rest) = displayFloat known := by
  have h4 : readBytes known 1 4 = some ((known.drop 1).take 4) := by
    simpa using readBytes_append [] (by omega : 1 + 4 ≤ known.length)
  rw [displayFloat, displayFloat, List.getElem?_append_left (by omega),
    List.getElem?_append_left (by omega), readBytes_append _ (by omega), h4]

private theorem displayString_append {known : Bytes} (h : (0 : UInt8) ∈ known) (rest : Bytes) :
    displayString (known ++ rest) = displayString known := by
  rw [displayString, displayString, readCString, readCString, if_pos h,
    if_pos (List.mem_append_left _ h), cString_append_of_mem _ h]

/-- Complete content determines the text whatever follows it in memory. -/
theorem displayContent_append {dataType : UInt8} {known : Bytes}
    (h : ContentComplete dataType known) (rest : Bytes) :
    displayContent dataType (known ++ rest) = displayContent dataType known := by
  unfold ContentComplete at h
  unfold displayContent
  split_ifs at h ⊢
  · exact displayInt_append h rest
  · exact displayShortReal_append h rest
  · exact displayFloat_append h rest
  · exact displayString_append h rest
  · rfl

private theorem displayInt_of_front {front : Bytes} (h : front.length = 4) (b : UInt8)
    (rest : Bytes) : ∃ sign, displayInt (front ++ b :: rest) =
      some (sign ++ decimal (ntoh (front.drop 1) * 256 + b.toNat)) := by
  have h0 : 0 < front.length := by omega
  let n := ntoh (front.drop 1) * 256 + b.toNat
  refine ⟨if front[0] = 1 ∧ n ≠ 0 then ascii ['-'] else [], ?_⟩
  rw [displayInt, List.getElem?_append_left h0, List.getElem?_eq_getElem h0,
    readBytes_append_cons front b rest (by omega) (by omega), Option.map_some,
    ntoh_append_singleton]
  rfl

private theorem displayShortReal_of_front {front : Bytes} (h : front.length = 1) (b : UInt8)
    (rest : Bytes) :
    displayShortReal (front ++ b :: rest) =
      let n := ntoh front * 256 + b.toNat
      some (decimal (n / 100) ++ ascii ['.'] ++ setw 2 (decimal (n % 100))) := by
  rw [displayShortReal, readBytes_append_cons front b rest (by omega) (by omega),
    Option.map_some, List.drop_zero, ntoh_append_singleton]
  rfl

private theorem displayFloat_of_front {front : Bytes} (h : front.length = 5) (rest : Bytes) :
    displayFloat (front ++ 0 :: rest) ≠ displayFloat (front ++ 32 :: rest) := by
  have hr (b : UInt8) : readBytes (front ++ b :: rest) 1 4 = some (front.drop 1) := by
    rw [readBytes_append _ (by omega), List.take_of_length_le (by rw [List.length_drop]; omega)]
  have h5 (b : UInt8) : (front ++ b :: rest)[5]? = some b := by
    rw [← h, List.getElem?_append_right (Nat.le_refl _), Nat.sub_self, List.getElem?_cons_zero]
  have h0 (b : UInt8) : (front ++ b :: rest)[0]? = some front[0] := by
    rw [List.getElem?_append_left (by omega), List.getElem?_eq_getElem (by omega)]
  have hp : powerOf10 (32 : UInt8).toNat = 0 := by decide
  have hzero : displayFloat (front ++ 32 :: rest) = none := by
    rw [displayFloat, h0, hr, h5]
    simp only [Option.map_some, Option.bind_eq_bind, Option.bind_some, hp, ↓reduceIte]
  have hone : displayFloat (front ++ 0 :: rest) ≠ none := by
    rw [displayFloat, h0, hr, h5]
    exact Option.some_ne_none _
  rw [hzero]
  exact hone

/-- A known part that is too short to hold byte `i` ends in front of it once it is filled up. -/
private theorem fill_length {known : Bytes} {i : Nat} (h : known.length ≤ i) :
    (known ++ List.replicate (i - known.length) 0).length = i := by
  rw [List.length_append, List.length_replicate]
  omega

/-- A fixed-width text differs when the last byte it is read from, at index `i`, differs. -/
private theorem exists_ne_of_index {dataType : UInt8} {known : Bytes} (i : Nat) (b : UInt8)
    (hi : known.length ≤ i) (hm : i < maxContentLength)
    (hne : ∀ front rest : Bytes, front.length = i →
      displayContent dataType (front ++ 0 :: rest) ≠
        displayContent dataType (front ++ b :: rest)) :
    ∃ x y behind₁ behind₂ : Bytes, (known ++ x).length = maxContentLength ∧
      (known ++ y).length = maxContentLength ∧
      displayContent dataType (known ++ x ++ behind₁) ≠
        displayContent dataType (known ++ y ++ behind₂) := by
  have hf := fill_length hi
  refine ⟨List.replicate (i - known.length) 0 ++ 0 :: List.replicate (maxContentLength - i - 1) 0,
    List.replicate (i - known.length) 0 ++ b :: List.replicate (maxContentLength - i - 1) 0,
    [], [], ?_, ?_, ?_⟩
  · simp only [List.length_append, List.length_replicate, List.length_cons]
    omega
  · simp only [List.length_append, List.length_replicate, List.length_cons]
    omega
  · rw [← List.append_assoc, ← List.append_assoc, List.append_nil, List.append_nil]
    exact hne _ _ hf

/-- Incomplete content leaves the text to the memory behind it: two continuations of the
content field, with two memories behind the packet, give different texts. -/
theorem exists_displayContent_ne {dataType : UInt8} {known : Bytes}
    (hl : known.length ≤ maxContentLength) (h : ¬ ContentComplete dataType known) :
    ∃ x y behind₁ behind₂ : Bytes, (known ++ x).length = maxContentLength ∧
      (known ++ y).length = maxContentLength ∧
      displayContent dataType (known ++ x ++ behind₁) ≠
        displayContent dataType (known ++ y ++ behind₂) := by
  unfold ContentComplete at h
  split_ifs at h with hint hshort hfloat hstring
  · refine exists_ne_of_index 4 1 (by omega) (by decide) fun front rest hf ↦ ?_
    obtain ⟨sign₁, h₁⟩ := displayInt_of_front hf 0 rest
    obtain ⟨sign₂, h₂⟩ := displayInt_of_front hf 1 rest
    rw [displayContent, displayContent, if_pos hint, if_pos hint, h₁, h₂]
    simp only [ne_eq, Option.some.injEq]
    exact append_decimal_ne _ _ (by simp; omega)
  · refine exists_ne_of_index 1 1 (by omega) (by decide) fun front rest hf ↦ ?_
    rw [displayContent, displayContent, if_neg hint, if_neg hint, if_pos hshort, if_pos hshort,
      displayShortReal_of_front hf, displayShortReal_of_front hf]
    simp only [ne_eq, Option.some.injEq, setw, ← List.append_assoc]
    exact append_decimal_ne _ _ (by simp; omega)
  · refine exists_ne_of_index 5 32 (by omega) (by decide) fun front rest hf ↦ ?_
    rw [displayContent, displayContent, if_neg hint, if_neg hint, if_neg hshort, if_neg hshort,
      if_pos hfloat, if_pos hfloat]
    exact displayFloat_of_front hf rest
  · -- An unterminated string goes on in the rest of the field, or behind the packet.
    have htext (rest : Bytes) : displayContent dataType (known ++ rest) =
        if (0 : UInt8) ∈ rest then some (known ++ cString rest) else none := by
      rw [displayContent, if_neg hint, if_neg hshort, if_neg hfloat, if_pos hstring, displayString,
        readCString, cString_append_of_notMem _ h]
      simp [h]
    rcases Nat.lt_or_eq_of_le hl with hlt | heq
    · obtain ⟨n, hn⟩ : ∃ n, maxContentLength - known.length = n + 1 :=
        ⟨maxContentLength - known.length - 1, by omega⟩
      refine ⟨List.replicate (n + 1) 0, 97 :: List.replicate n 0, [0], [0], ?_, ?_, ?_⟩
      · rw [List.length_append, List.length_replicate]
        omega
      · rw [List.length_append, List.length_cons, List.length_replicate]
        omega
      · rw [List.append_assoc, List.append_assoc, htext, htext]
        simp [List.replicate_succ, cString]
    · refine ⟨[], [], [0], [97, 0], by simpa using heq, by simpa using heq, ?_⟩
      rw [List.append_nil, htext, htext]
      simp [cString]
  · exact absurd trivial h

/-- For packets that agree on source, topic and type the lines are the same exactly when the
contents are. -/
theorem displayMessage_eq_iff {packet other : MessageWithHeader}
    (hs : packet.source = other.source) (ht : packet.msg.topic = other.msg.topic)
    (hd : packet.msg.dataType = other.msg.dataType) (behind behind' : Bytes) :
    displayMessage packet behind = displayMessage other behind' ↔
      getDisplayedContent packet.msg behind = getDisplayedContent other.msg behind' := by
  have htopic : topicString packet.msg = topicString other.msg := by
    rw [topicString, ht, topicString]
  have htype : getDataType packet.msg = getDataType other.msg := by
    rw [getDataType, hd, getDataType]
  have hfront : messageFront packet = messageFront other := by
    rw [messageFront, hs, htopic, htype, messageFront]
  have hline : messageLine packet = messageLine other := by
    funext content
    rw [messageLine, hfront, messageLine]
  rw [displayMessage, displayMessage, hline]
  refine (Option.map_injective fun content content' h ↦ ?_).eq_iff
  exact List.append_cancel_left (List.append_cancel_right h)

/-- Packets that agree on source and topic have different lines where one is of an invalid
type and the other one an integer. -/
theorem displayMessage_ne_of_invalid {packet other : MessageWithHeader}
    (hs : packet.source = other.source) (ht : packet.msg.topic = other.msg.topic)
    (hd : packet.msg.dataType = 4) (ho : other.msg.dataType = dataTypeInt)
    (behind behind' : Bytes) : displayMessage packet behind ≠ displayMessage other behind' := by
  have htopic : topicString packet.msg = topicString other.msg := by
    rw [topicString, ht, topicString]
  have hinvalid : getDataType packet.msg = ascii ['I', 'N', 'V', 'A', 'L', 'I', 'D'] := by
    rw [getDataType, hd]
    rfl
  have hint : getDataType other.msg = ascii ['I', 'N', 'T'] := by rw [getDataType, if_pos ho]
  have hcontent : getDisplayedContent packet.msg behind =
      some (ascii ['I', 'N', 'V', 'A', 'L', 'I', 'D']) := by
    rw [getDisplayedContent, hd]
    rfl
  rw [displayMessage, displayMessage, hcontent]
  intro h
  obtain ⟨content, -, h⟩ := Option.map_eq_some_iff.mp h.symm
  simp only [messageLine, messageFront, hs, htopic, hinvalid, hint, List.append_assoc,
    List.append_cancel_left_eq] at h
  -- The third characters of the types differ.
  have hthird := congrArg (·[2]?) h
  exact absurd (Option.some.inj hthird) (by decide)

end Broker.Subscriber
