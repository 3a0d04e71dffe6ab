import Broker.Base.Bytes

/-!
# Packed records and frames

The structures of `utils.hpp:18–54`, each field at its fixed width, and their packed
memory images. A frame is what the server writes for one message or acknowledgement: a
header byte and the record behind it.
-/

namespace Broker.Net
open Broker.Base

/-- `ID_LENGTH`. -/
def idLength : Nat := 10

/-- `MAX_TOPIC_LENGTH`. -/
def maxTopicLength : Nat := 50

/-- `MAX_CONTENT_LENGTH`. -/
def maxContentLength : Nat := 1500

/-- `HEADER_MESSAGE`. -/
def headerMessage : UInt8 := 0

/-- `HEADER_SUBSCRIBE_ACK`. -/
def headerSubscribeAck : UInt8 := 1

/-- `OPERATION_SUBSCRIBE`. -/
def operationSubscribe : UInt8 := 0

/-- `OPERATION_UNSUBSCRIBE`. -/
def operationUnsubscribe : UInt8 := 1

/-- `OPERATION_ACK_SUB`. -/
def operationAckSub : UInt8 := 2

/-- `OPERATION_ACK_UNSUB`. -/
def operationAckUnsub : UInt8 := 3

/-- The address and port of a `sockaddr_in`, both in network byte order as in memory. -/
structure SockaddrIn where
  sAddr : Bytes
  sinPort : Bytes
  length_sAddr : sAddr.length = 4
  length_sinPort : sinPort.length = 2

/-- `inet_ntoa` on an address in memory order. -/
def inetNtoa (sAddr : Bytes) : Bytes :=
  List.intercalate (ascii ['.']) (sAddr.map fun b ↦ decimal b.toNat)

/-- `struct message`, `utils.hpp:31–38`. -/
structure Message where
  topic : Bytes
  dataType : UInt8
  content : Bytes
  length_topic : topic.length = maxTopicLength
  length_content : content.length = maxContentLength

/-- `struct message_with_header`, `utils.hpp:40–44`. -/
structure MessageWithHeader where
  source : SockaddrIn
  msg : Message

/-- `struct subcribe_request`, `utils.hpp:51–54`. -/
structure SubcribeRequest where
  operation : UInt8
  topic : Bytes
  length_topic : topic.length = maxTopicLength + 1

/-- `sizeof(message)`. -/
def sizeofMessage : Nat := maxTopicLength + 1 + maxContentLength

/-- `sizeof(message_with_header)`. -/
def sizeofMessageWithHeader : Nat := 4 + 2 + sizeofMessage

/-- `sizeof(subcribe_request)`. -/
def sizeofSubcribeRequest : Nat := 1 + (maxTopicLength + 1)

namespace Message

/-- The memory image of a message. -/
def encode (m : Message) : Bytes := m.topic ++ m.dataType :: m.content

/-- A message read from memory of its size. -/
def decode (bytes : Bytes) (h : bytes.length = sizeofMessage) : Message where
  topic := bytes.take maxTopicLength
  dataType := getElem bytes maxTopicLength (by rw [h]; decide)
  content := bytes.drop (maxTopicLength + 1)
  length_topic := by rw [List.length_take, h]; rfl
  length_content := by rw [List.length_drop, h]; rfl

/-- The image has the size of the structure. -/
@[simp] theorem length_encode (m : Message) : m.encode.length = sizeofMessage := by
  rw [encode, List.length_append, List.length_cons, m.length_topic, m.length_content]
  rfl

/-- Every memory of the right size is the image of the message read from it. -/
theorem encode_decode (bytes : Bytes) (h : bytes.length = sizeofMessage) :
    (decode bytes h).encode = bytes := by
  have hl : maxTopicLength < bytes.length := by rw [h]; decide
  rw [encode, decode, ← List.drop_eq_getElem_cons hl, List.take_append_drop]

/-- A message read back from its image is that message. -/
theorem decode_encode (m : Message) : decode m.encode m.length_encode = m := by
  rcases m with ⟨topic, dataType, content, ht, hc⟩
  have hx : topic.length ≤ maxTopicLength := ht.le
  simp only [decode, encode, mk.injEq]
  refine ⟨?_, ?_, ?_⟩
  · rw [List.take_append_of_le_length ht.ge, ← ht, List.take_length]
  · rw [List.getElem_append_right hx]
    simp [ht]
  · rw [List.drop_append, ht, List.drop_of_length_le (by omega)]
    simp

end Message

namespace MessageWithHeader

/-- The memory image of a message with its header. -/
def encode (m : MessageWithHeader) : Bytes := m.source.sAddr ++ m.source.sinPort ++ m.msg.encode

/-- A message with its header read from memory of its size. -/
def decode (bytes : Bytes) (h : bytes.length = sizeofMessageWithHeader) : MessageWithHeader where
  source :=
    { sAddr := bytes.take 4
      sinPort := (bytes.drop 4).take 2
      length_sAddr := by rw [List.length_take, h]; rfl
      length_sinPort := by rw [List.length_take, List.length_drop, h]; rfl }
  msg := .decode (bytes.drop 6) (by rw [List.length_drop, h]; rfl)

/-- The image has the size of the structure. -/
@[simp] theorem length_encode (m : MessageWithHeader) :
    m.encode.length = sizeofMessageWithHeader := by
  rw [encode, List.length_append, List.length_append, m.source.length_sAddr,
    m.source.length_sinPort, Message.length_encode]
  rfl

/-- A record read back from its image is that record. -/
theorem decode_encode (m : MessageWithHeader) : decode m.encode m.length_encode = m := by
  rcases m with ⟨⟨addr, port, ha, hp⟩, msg⟩
  have h4 : (addr ++ port ++ msg.encode).take 4 = addr := by
    rw [List.append_assoc, ← ha, List.take_left]
  have hd : (addr ++ port ++ msg.encode).drop 4 = port ++ msg.encode := by
    rw [List.append_assoc, ← ha, List.drop_left]
  have h2 : (port ++ msg.encode).take 2 = port := by rw [← hp, List.take_left]
  have h6 : (addr ++ port ++ msg.encode).drop 6 = msg.encode := by
    rw [show 6 = (addr ++ port).length by rw [List.length_append, ha, hp], List.drop_left]
  simp only [decode, encode, h4, hd, h2, h6, Message.decode_encode]

/-- Every memory of the right size is the image of the record read from it. -/
theorem encode_decode (bytes : Bytes) (h : bytes.length = sizeofMessageWithHeader) :
    (decode bytes h).encode = bytes := by
  have he : (decode bytes h).encode = bytes.take 4 ++ (bytes.drop 4).take 2 ++ bytes.drop 6 := by
    rw [encode, decode, Message.encode_decode]
  have hd : bytes.drop 6 = (bytes.drop 4).drop 2 := by rw [List.drop_drop]
  rw [he, hd, List.append_assoc, List.take_append_drop, List.take_append_drop]

/-- Different records have different images. -/
theorem encode_injective : Function.Injective encode := by
  intro a b h
  have hd : decode a.encode a.length_encode = decode b.encode b.length_encode := by simp only [h]
  rwa [decode_encode, decode_encode] at hd

end MessageWithHeader

namespace SubcribeRequest

/-- The memory image of a request. -/
def encode (r : SubcribeRequest) : Bytes := r.operation :: r.topic

/-- A request read from memory of its size. -/
def decode (bytes : Bytes) (h : bytes.length = sizeofSubcribeRequest) : SubcribeRequest where
  operation := getElem bytes 0 (by rw [h]; decide)
  topic := bytes.drop 1
  length_topic := by rw [List.length_drop, h]; rfl

/-- The image has the size of the structure. -/
@[simp] theorem length_encode (r : SubcribeRequest) :
    r.encode.length = sizeofSubcribeRequest := by
  rw [encode, List.length_cons, r.length_topic]
  rfl

/-- Every memory of the right size is the image of the request read from it. -/
theorem encode_decode (bytes : Bytes) (h : bytes.length = sizeofSubcribeRequest) :
    (decode bytes h).encode = bytes := by
  have hl : 0 < bytes.length := by rw [h]; decide
  rw [encode, decode, ← List.drop_eq_getElem_cons hl, List.drop_zero]

/-- A request read back from its image is that request. -/
theorem decode_encode (r : SubcribeRequest) : decode r.encode r.length_encode = r := rfl

/-- Different requests have different images. -/
theorem encode_injective : Function.Injective encode := by
  rintro ⟨operation, topic, hl⟩ ⟨operation', topic', hl'⟩ h
  obtain ⟨rfl, rfl⟩ := List.cons.inj h
  rfl

end SubcribeRequest

/-- What the server writes to a subscriber. -/
inductive Frame
  | message (response : MessageWithHeader)
  | subscribeAck (request : SubcribeRequest)

namespace Frame

/-- The header byte in front of the record. -/
def header : Frame → UInt8
  | message _ => headerMessage
  | subscribeAck _ => headerSubscribeAck

/-- The record behind the header byte. -/
def body : Frame → Bytes
  | message response => response.encode
  | subscribeAck request => request.encode

/-- The bytes of a frame on the wire. -/
def encode (frame : Frame) : Bytes := frame.header :: frame.body

/-- A frame has at least its header. -/
theorem encode_ne_nil (frame : Frame) : frame.encode ≠ [] := List.cons_ne_nil _ _

end Frame
end Broker.Net
