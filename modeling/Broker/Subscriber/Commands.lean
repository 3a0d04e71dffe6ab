import Broker.Base.Tokens
import Broker.Net.Packet
import Broker.Net.Transfer

/-!
# Commands of the subscriber

`process_input_comand` (`subscriber.cpp:24–59`) on the memory `fgets` has filled. An absent
token has no characters to compare, and memory without a NUL ends no string; a call that
meets either has no result. The call is defined by its first two words exactly when the text
has a word at all.
-/

namespace Broker.Subscriber
open Broker.Base Broker.Net

/-- The delimiters `" \n"`. -/
def isDelimiter (b : UInt8) : Bool := b = 32 || b = 10

/-- The word `exit`. -/
def exitWord : Bytes := ascii ['e', 'x', 'i', 't']

/-- The word `subscribe`. -/
def subscribeWord : Bytes := ascii ['s', 'u', 'b', 's', 'c', 'r', 'i', 'b', 'e']

/-- The word `unsubscribe`. -/
def unsubscribeWord : Bytes := ascii ['u', 'n', 's', 'u', 'b', 's', 'c', 'r', 'i', 'b', 'e']

/-- The values `process_input_comand` returns, `subscriber.cpp:20–22`. -/
inductive CommandCode
  | subscribeCommandEntered
  | exitCommandEntered
  | invalidCommandEntered
  deriving DecidableEq

/-- What leaves a call without a result. -/
inductive CommandFault
  /-- The string runs beyond the memory it was written to. -/
  | outsideMemory
  /-- `strcmp` is called with an absent token. -/
  | absentToken
  deriving DecidableEq

/-- What a call comes to: its value, unless the process is killed while sending; the request
it passes to `sendall`; what `sendall` wrote and the answers it left unused. -/
structure CommandOutcome where
  returned : Option CommandCode
  request : Option SubcribeRequest
  written : Bytes
  answers : List SendAnswer

/-- A return without sending anything. -/
def CommandOutcome.silent (code : CommandCode) (answers : List SendAnswer) : CommandOutcome :=
  ⟨some code, none, [], answers⟩

/-- The operation of a first word, `subscriber.cpp:34–40`. -/
def operationOf (word : Bytes) : Option UInt8 :=
  if word = subscribeWord then some operationSubscribe
  else if word = unsubscribeWord then some operationUnsubscribe
  else none

/-- The request for a topic, `subscriber.cpp:48–51`: as much of it as fits, and NULs. -/
def prepareRequest (operation : UInt8) (topic : Bytes) : SubcribeRequest where
  operation := operation
  topic := strncpy topic maxTopicLength ++ [0]
  length_topic := by rw [List.length_append, length_strncpy]; rfl

/-- Send a request, `subscriber.cpp:54–58`. A failure is reported and otherwise ignored. -/
def sendRequest (request : SubcribeRequest) (answers : List SendAnswer) : CommandOutcome :=
  let outcome := sendall request.encode answers
  ⟨if outcome.status = .killed then none else some .subscribeCommandEntered, some request,
    outcome.written, outcome.answers⟩

/-- `process_input_comand`, `subscriber.cpp:24–59`. -/
def processInputComand (inputCommand : Bytes) (answers : List SendAnswer) :
    Except CommandFault CommandOutcome :=
  match readCString inputCommand with
  | none => .error .outsideMemory
  | some text =>
    match strtok isDelimiter text with
    | (none, _) => .error .absentToken
    | (some word, behind) =>
      if word = exitWord then .ok (.silent .exitCommandEntered answers)
      else
        match operationOf word with
        | none => .ok (.silent .invalidCommandEntered answers)
        | some operation =>
          match (strtok isDelimiter behind).1 with
          | none => .ok (.silent .invalidCommandEntered answers)
          | some topic => .ok (sendRequest (prepareRequest operation topic) answers)

/-- The words of a command: the maximal runs without a blank or a newline. -/
def commandWords (text : Bytes) : List Bytes := tokens isDelimiter text

/-- What a call does by the words of its text. -/
def commandOutcome (words : List Bytes) (answers : List SendAnswer) : CommandOutcome :=
  match words with
  | [] => .silent .invalidCommandEntered answers
  | word :: more =>
    if word = exitWord then .silent .exitCommandEntered answers
    else
      match operationOf word, more with
      | some operation, topic :: _ => sendRequest (prepareRequest operation topic) answers
      | _, _ => .silent .invalidCommandEntered answers

/-- The word `exit` asks for the end whatever stands behind it. -/
theorem commandOutcome_exit (more : List Bytes) (answers : List SendAnswer) :
    commandOutcome (exitWord :: more) answers = .silent .exitCommandEntered answers := by
  simp only [commandOutcome, ↓reduceIte]

/-- A text with a word is handled by its words. -/
theorem processInputComand_of_words {inputCommand : Bytes} (h : (0 : UInt8) ∈ inputCommand)
    (hw : commandWords (cString inputCommand) ≠ []) (answers : List SendAnswer) :
    processInputComand inputCommand answers =
      .ok (commandOutcome (commandWords (cString inputCommand)) answers) := by
  obtain ⟨word, more, he⟩ := List.exists_cons_of_ne_nil hw
  obtain ⟨hfirst, hrest⟩ := strtok_spec isDelimiter (cString inputCommand)
  rcases hs : strtok isDelimiter (cString inputCommand) with ⟨token, behind⟩
  have hsecond := (strtok_spec isDelimiter behind).1
  rw [commandWords] at he
  rw [hs, he] at hfirst hrest
  obtain rfl : token = some word := hfirst
  rw [show tokens isDelimiter behind = more from hrest] at hsecond
  rw [processInputComand, readCString, if_pos h, commandWords, he]
  simp only [hs, commandOutcome, hsecond]
  split
  · rfl
  · cases operationOf word with
    | none => rfl
    | some operation =>
      cases more with
      | nil => rfl
      | cons topic more => rfl

/-- A text without a word makes the call compare an absent token. -/
theorem processInputComand_of_blank {inputCommand : Bytes} (h : (0 : UInt8) ∈ inputCommand)
    (hw : commandWords (cString inputCommand) = []) (answers : List SendAnswer) :
    processInputComand inputCommand answers = .error .absentToken := by
  have hfirst := (strtok_spec isDelimiter (cString inputCommand)).1
  rcases hs : strtok isDelimiter (cString inputCommand) with ⟨token, behind⟩
  rw [commandWords] at hw
  rw [hs, hw] at hfirst
  obtain rfl : token = none := hfirst
  rw [processInputComand, readCString, if_pos h]
  simp only [hs]

/-- A call that makes a request has made it of the second word, for the operation of the
first. -/
theorem eq_sendRequest_of_request {inputCommand : Bytes} {answers : List SendAnswer}
    {out : CommandOutcome} {request : SubcribeRequest}
    (h : processInputComand inputCommand answers = .ok out) (hr : out.request = some request) :
    ∃ word topic more operation, commandWords (cString inputCommand) = word :: topic :: more ∧
      operationOf word = some operation ∧ request = prepareRequest operation topic ∧
      out = sendRequest request answers := by
  have hz : (0 : UInt8) ∈ inputCommand := by
    by_contra hn
    rw [processInputComand, readCString, if_neg hn] at h
    cases h
  have hw : commandWords (cString inputCommand) ≠ [] := by
    intro hn
    rw [processInputComand_of_blank hz hn] at h
    cases h
  rw [processInputComand_of_words hz hw] at h
  cases h
  unfold commandOutcome at hr ⊢
  split at hr
  · cases hr
  · next word more he =>
    split at hr
    · cases hr
    · next hexit =>
      split at hr
      · next operation topic rest ho =>
        cases hr
        refine ⟨word, topic, rest, operation, he, ho, rfl, ?_⟩
        simp only [hexit, ↓reduceIte]
      · cases hr

/-- A call that makes no request writes nothing. -/
theorem written_of_silent {inputCommand : Bytes} {answers : List SendAnswer}
    {out : CommandOutcome} (h : processInputComand inputCommand answers = .ok out)
    (hr : out.request = none) : out.written = [] := by
  unfold processInputComand at h
  split at h
  · cases h
  · split at h
    · cases h
    · split at h
      · cases h
        rfl
      · split at h
        · cases h
          rfl
        · split at h
          · cases h
            rfl
          · cases h
            cases hr

/-! ### The grammar of commands -/

/-- What the grammar asks of a call on a text with these words. -/
structure ByGrammar (words : List Bytes) (answers : List SendAnswer) (out : CommandOutcome) :
    Prop where
  /-- The call asks for the end exactly when the first word is `exit`. -/
  exits : out.returned = some .exitCommandEntered ↔ words.head? = some exitWord
  /-- There is a request exactly when a topic follows one of the two operations, and it holds
  that operation and the topic at the width of its field. -/
  requests : ∀ request, out.request = some request ↔
    ∃ word topic more, words = word :: topic :: more ∧
      (word = subscribeWord ∧ request.operation = operationSubscribe ∨
        word = unsubscribeWord ∧ request.operation = operationUnsubscribe) ∧
      request.topic = topic.take 50 ++ List.replicate (51 - min 50 topic.length) 0
  /-- A request is sent once, as its 52 bytes where sending succeeds. -/
  sends : ∀ request, out.request = some request → request.encode.length = 52 ∧
    out.written <+: request.encode ∧ (Reliable answers →
      out.written = request.encode ∧ out.returned = some .subscribeCommandEntered)
  /-- Every other call is invalid or asks for the end, and sends nothing. -/
  silent : out.request = none → out.written = [] ∧ out.answers = answers ∧
    (words.head? ≠ some exitWord → out.returned = some .invalidCommandEntered)

private theorem replicate_field (topic : Bytes) :
    strncpy topic maxTopicLength ++ [0] =
      topic.take 50 ++ List.replicate (51 - min 50 topic.length) 0 := by
  have hs : 51 - min 50 topic.length = 50 - topic.length + 1 := by omega
  rw [strncpy, List.append_assoc, hs, List.replicate_succ']
  rfl

private theorem operationOf_eq_some {word : Bytes} {operation : UInt8} :
    operationOf word = some operation ↔
      word = subscribeWord ∧ operation = operationSubscribe ∨
        word = unsubscribeWord ∧ operation = operationUnsubscribe := by
  have hne : subscribeWord ≠ unsubscribeWord := by decide
  unfold operationOf
  split
  · next h => simp [h, hne, eq_comm]
  · next h =>
    split
    · next h' => simp [h', Ne.symm hne, eq_comm]
    · next h' => simp [h, h']

private theorem operationOf_exitWord : operationOf exitWord = none := by decide

private theorem byGrammar_silent {words : List Bytes} {code : CommandCode}
    (answers : List SendAnswer)
    (he : code = .exitCommandEntered ↔ words.head? = some exitWord)
    (hi : words.head? ≠ some exitWord → code = .invalidCommandEntered)
    (hr : ∀ word topic more, words = word :: topic :: more → operationOf word = none) :
    ByGrammar words answers (.silent code answers) where
  exits := by rw [← he, CommandOutcome.silent, Option.some.injEq]
  requests := by
    intro request
    apply iff_of_false
    · rintro ⟨⟩
    · rintro ⟨word, topic, more, hw, ho, -⟩
      have hs := operationOf_eq_some.mpr ho
      rw [hr word topic more hw] at hs
      cases hs
  sends := by rintro request ⟨⟩
  silent := fun _ ↦ ⟨rfl, rfl, fun h ↦ congrArg some (hi h)⟩

private theorem byGrammar_sendRequest {word topic : Bytes} {operation : UInt8}
    (more : List Bytes) (answers : List SendAnswer) (ho : operationOf word = some operation) :
    ByGrammar (word :: topic :: more) answers
      (sendRequest (prepareRequest operation topic) answers) where
  exits := by
    apply iff_of_false
    · unfold sendRequest
      dsimp only
      split
      · rintro ⟨⟩
      · rintro ⟨⟩
    · intro he
      rw [Option.some.inj he, operationOf_exitWord] at ho
      cases ho
  requests := by
    intro request
    constructor
    · intro hr
      obtain rfl := Option.some.inj hr
      exact ⟨word, topic, more, rfl, operationOf_eq_some.mp ho, replicate_field topic⟩
    · rintro ⟨word', topic', more', hw, ho', ht⟩
      obtain ⟨rfl, htail⟩ := List.cons.inj hw
      obtain ⟨rfl, -⟩ := List.cons.inj htail
      have hop := Option.some.inj (ho.symm.trans (operationOf_eq_some.mpr ho'))
      rcases request with ⟨operation', field, hl⟩
      obtain rfl : operation = operation' := hop
      obtain rfl : field = _ := ht.trans (replicate_field topic).symm
      rfl
  sends := by
    intro request hr
    obtain rfl := Option.some.inj hr
    refine ⟨SubcribeRequest.length_encode _, prefix_of_sendall _ _, ?_⟩
    intro ha
    have hd := (sendall_of_reliable (prepareRequest operation topic).encode ha).1
    apply And.intro
    · exact sendall_written_of_done hd
    · rw [sendRequest]
      simp [hd]
  silent := by rintro ⟨⟩

/-- What a call does by the words of its text is what the grammar asks for. -/
theorem byGrammar_commandOutcome {words : List Bytes} (h : words ≠ [])
    (answers : List SendAnswer) : ByGrammar words answers (commandOutcome words answers) := by
  obtain ⟨word, more, rfl⟩ := List.exists_cons_of_ne_nil h
  unfold commandOutcome
  dsimp only
  split
  · next he =>
    apply byGrammar_silent
    · simp [he]
    · intro hn
      exact absurd (congrArg some he) hn
    · intro first topic rest hw
      rw [← (List.cons.inj hw).1, he, operationOf_exitWord]
  · next he =>
    split
    · next operation topic rest ho => exact byGrammar_sendRequest rest answers ho
    · next hn =>
      apply byGrammar_silent
      · simp [he]
      · exact fun _ ↦ rfl
      · intro first topic rest hw
        obtain ⟨rfl, rfl⟩ := List.cons.inj hw
        cases ho : operationOf word with
        | none => rfl
        | some operation => exact absurd rfl (hn operation topic rest ho)

/-- A call on NUL-terminated memory compares no absent token and follows the grammar exactly
when its text holds a byte other than blank and newline. -/
theorem processInputComand_byGrammar_iff {inputCommand : Bytes} (h : (0 : UInt8) ∈ inputCommand)
    (answers : List SendAnswer) :
    (∃ out, processInputComand inputCommand answers = .ok out ∧
      ByGrammar (commandWords (cString inputCommand)) answers out) ↔
    ∃ b ∈ cString inputCommand, b ≠ 32 ∧ b ≠ 10 := by
  have hd (b : UInt8) : ¬ isDelimiter b = true ↔ b ≠ 32 ∧ b ≠ 10 := by
    simp [isDelimiter]
  have hw : (∃ b ∈ cString inputCommand, b ≠ 32 ∧ b ≠ 10) ↔
      commandWords (cString inputCommand) ≠ [] := by
    rw [commandWords, Ne, tokens_eq_nil_iff]
    simp [← hd]
  rw [hw]
  constructor
  · rintro ⟨out, ho, -⟩ hn
    rw [processInputComand_of_blank h hn] at ho
    cases ho
  · intro hn
    exact ⟨_, processInputComand_of_words h hn answers, byGrammar_commandOutcome hn answers⟩

/-- The line `subscribe a` follows the grammar. -/
theorem processInputComand_byGrammar_subscribe :
    ∃ out, processInputComand (subscribeWord ++ [32, 97, 10, 0]) [] = .ok out ∧
      ByGrammar (commandWords (cString (subscribeWord ++ [32, 97, 10, 0]))) [] out :=
  (processInputComand_byGrammar_iff (by decide) []).mpr ⟨97, by decide, by decide, by decide⟩

/-- An empty line makes the call compare an absent token. -/
theorem not_byGrammar_of_emptyLine :
    ¬ ∀ (inputCommand : Bytes) (answers : List SendAnswer), (0 : UInt8) ∈ inputCommand →
      ∃ out, processInputComand inputCommand answers = .ok out ∧
        ByGrammar (commandWords (cString inputCommand)) answers out := by
  intro h
  obtain ⟨out, ho, -⟩ := h [10, 0] [] (by decide)
  rw [processInputComand_of_blank (by decide) (by decide)] at ho
  cases ho

end Broker.Subscriber
