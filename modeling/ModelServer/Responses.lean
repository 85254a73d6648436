import ModelServer.Delta

namespace ModelServer.OpenAIResponsesHandler

def OUTPUT_ITEM_ID : Str := bytes "msg-0"
def REASONING_ITEM_ID : Str := bytes "rs-0"

/-- The output items of a response; a function call is told apart by its position. -/
inductive Item
  | reasoning
  | functionCall (index : Nat)
  | message
deriving DecidableEq

/-- The `type` of an event. -/
inductive EventType
  | created
  | inProgress
  | completed
  | incomplete
  | outputItemAdded
  | outputItemDone
  | contentPartAdded
  | contentPartDone
  | outputTextDelta
  | outputTextDone
  | reasoningSummaryPartAdded
  | reasoningSummaryPartDone
  | reasoningSummaryTextDelta
  | reasoningSummaryTextDone
  | functionCallArgumentsDelta
  | functionCallArgumentsDone
  | audioDelta
deriving DecidableEq

inductive Status
  | inProgress
  | completed
  | incomplete
deriving DecidableEq

/-- An output item as it is written out: its text, its summary or its arguments. -/
structure OutputItem where
  item : Item
  id : Str
  status : Option Status
  name : Str
  text : Str
deriving DecidableEq

inductive Payload
  /-- The response object with its output array. -/
  | response (status : Status) (output : List OutputItem)
  | outputItem (outputIndex : Nat) (item : OutputItem)
  /-- A text, a part or arguments of the item with this id. -/
  | text (outputIndex : Nat) (itemId : Str) (text : Str)
  | audio (delta : Str)
deriving DecidableEq

structure Event where
  type : EventType
  sequenceNumber : Nat
  /-- The item the event is about. -/
  item : Option Item
  payload : Payload
deriving DecidableEq

structure ResponsesStreamingState where
  sequenceNumber : Nat := 1
  createdSent : Bool := false
  inProgressSent : Bool := false
  reasoningInitialized : Bool := false
  reasoningCompleted : Bool := false
  messageInitialized : Bool := false
  outputText : Str := []
  reasoningText : Str := []
  toolCalls : List ToolCall := []

/-- The state and the events that have been written. -/
structure Stream where
  responsesState : ResponsesStreamingState := {}
  events : List Event := []

namespace Stream

/-- Appends an event; `writeEventHeader` numbers it. -/
def emplace (x : Stream) (type : EventType) (item : Option Item) (payload : Payload) : Stream where
  responsesState := { x.responsesState with sequenceNumber := x.responsesState.sequenceNumber + 1 }
  events := x.events ++ [⟨type, x.responsesState.sequenceNumber, item, payload⟩]

/-- The `output` array of `serializeResponseObject`. -/
def output (s : ResponsesStreamingState) (status : Status) (fullOutputText : Str) : List OutputItem :=
  (if s.reasoningText.isEmpty then []
    else [⟨.reasoning, REASONING_ITEM_ID, none, [], cStr s.reasoningText⟩]) ++
  (s.toolCalls.zipIdx.map fun (toolCall, i) =>
    ⟨.functionCall i, cStr toolCall.id, some status, cStr toolCall.name, cStr toolCall.arguments⟩) ++
  (if fullOutputText.isEmpty then [] else [⟨.message, OUTPUT_ITEM_ID, some status, [], cStr fullOutputText⟩])

def serializeStreamingCreatedEvent (x : Stream) : Stream :=
  if x.responsesState.createdSent then x
  else
    emplace { x with responsesState := { x.responsesState with createdSent := true } } .created none
      (.response .inProgress (output x.responsesState .inProgress []))

def serializeStreamingInProgressEvent (x : Stream) : Stream :=
  if x.responsesState.inProgressSent then x
  else
    emplace { x with responsesState := { x.responsesState with inProgressSent := true } } .inProgress none
      (.response .inProgress (output x.responsesState .inProgress []))

def appendAudioDeltaEvents (x : Stream) (base64 : Str) : Stream :=
  x.emplace .audioDelta none (.audio (cStr base64))

def reasoningText (x : Stream) (type : EventType) (text : Str) : Stream :=
  x.emplace type (some .reasoning) (.text 0 REASONING_ITEM_ID (cStr text))

def messageText (x : Stream) (type : EventType) (outputIndex : Nat) (text : Str) : Stream :=
  x.emplace type (some .message) (.text outputIndex OUTPUT_ITEM_ID (cStr text))

def appendReasoningDeltaEvents (x : Stream) (text : Str) : Stream :=
  let x :=
    if x.responsesState.reasoningInitialized then x
    else
      let x := x.emplace .outputItemAdded (some .reasoning)
        (.outputItem 0 ⟨.reasoning, REASONING_ITEM_ID, none, [], []⟩)
      let x := x.reasoningText .reasoningSummaryPartAdded []
      { x with responsesState := { x.responsesState with reasoningInitialized := true } }
  let x : Stream := { x with responsesState :=
    { x.responsesState with reasoningText := x.responsesState.reasoningText ++ text } }
  x.reasoningText .reasoningSummaryTextDelta text

/-- The reasoning item is closed if it is open. -/
def closeReasoning (x : Stream) : Stream :=
  if x.responsesState.reasoningInitialized && !x.responsesState.reasoningCompleted then
    let text := x.responsesState.reasoningText
    let x := x.reasoningText .reasoningSummaryTextDone text
    let x := x.reasoningText .reasoningSummaryPartDone text
    let x := x.emplace .outputItemDone (some .reasoning)
      (.outputItem 0 ⟨.reasoning, REASONING_ITEM_ID, none, [], cStr text⟩)
    { x with responsesState := { x.responsesState with reasoningCompleted := true } }
  else x

def baseIdx (x : Stream) : Nat := if x.responsesState.reasoningInitialized then 1 else 0

/-- The message item is opened if it is not. -/
def openMessage (x : Stream) (msgIdx : Nat) : Stream :=
  if x.responsesState.messageInitialized then x
  else
    let x := x.emplace .outputItemAdded (some .message)
      (.outputItem msgIdx ⟨.message, OUTPUT_ITEM_ID, some .inProgress, [], []⟩)
    let x := x.messageText .contentPartAdded msgIdx []
    { x with responsesState := { x.responsesState with messageInitialized := true } }

def appendContentDeltaEvents (x : Stream) (text : Str) : Stream :=
  if text.isEmpty then x
  else
    let x := x.closeReasoning
    let msgIdx := x.baseIdx
    let x := x.openMessage msgIdx
    let x : Stream := { x with responsesState :=
      { x.responsesState with outputText := x.responsesState.outputText ++ text } }
    x.messageText .outputTextDelta msgIdx text

/-- `toolCalls[index] = toolCall`, with empty calls up to there. -/
def setToolCall (toolCalls : List ToolCall) (index : Nat) (toolCall : ToolCall) : List ToolCall :=
  (toolCalls ++ List.replicate (index + 1 - toolCalls.length) ToolCall.empty).set index toolCall

/-- The index of a tool call is not negative. -/
def appendToolCallDeltaEvents (x : Stream) (d : ToolCallDelta) : Stream :=
  let x := x.closeReasoning
  let index := d.index.toNat
  let tcOutputIdx := x.baseIdx + index
  let x :=
    match d.name with
    | none => x
    | some name =>
      let toolCall : ToolCall := ⟨d.id.getD [], name, []⟩
      let x : Stream := { x with responsesState :=
        { x.responsesState with toolCalls := setToolCall x.responsesState.toolCalls index toolCall } }
      x.emplace .outputItemAdded (some (.functionCall index))
        (.outputItem tcOutputIdx ⟨.functionCall index, cStr toolCall.id, some .inProgress, cStr name, []⟩)
  match x.responsesState.toolCalls[index]? with
  | none => x
  | some toolCall =>
    if d.arguments.isEmpty then x
    else
      let x : Stream := { x with responsesState := { x.responsesState with
        toolCalls := x.responsesState.toolCalls.set index
          { toolCall with arguments := toolCall.arguments ++ d.arguments } } }
      x.emplace .functionCallArgumentsDelta (some (.functionCall index))
        (.text tcOutputIdx (cStr toolCall.id) (cStr d.arguments))

def appendDeltaEvents (x : Stream) : Delta → Stream
  | .audio base64 => x.appendAudioDeltaEvents base64
  | .reasoning text => x.appendReasoningDeltaEvents text
  | .content text => x.appendContentDeltaEvents text
  | .toolCall d => x.appendToolCallDeltaEvents d
  | .finish => x

def itemStatus (finishReason : FinishReason) : Status :=
  if finishReason = .length then .incomplete else .completed

/-- The done events of the tool call at `index`. -/
def closeToolCall (x : Stream) (finishReason : FinishReason) (baseIdx : Nat) (toolCall : ToolCall) (index : Nat) :
    Stream :=
  let x := x.emplace .functionCallArgumentsDone (some (.functionCall index))
    (.text (baseIdx + index) (cStr toolCall.id) (cStr toolCall.arguments))
  x.emplace .outputItemDone (some (.functionCall index))
    (.outputItem (baseIdx + index) ⟨.functionCall index, cStr toolCall.id, some (itemStatus finishReason),
      cStr toolCall.name, cStr toolCall.arguments⟩)

def closeToolCalls (x : Stream) (finishReason : FinishReason) : Stream :=
  x.responsesState.toolCalls.zipIdx.foldl
    (fun y (toolCall, index) => y.closeToolCall finishReason x.baseIdx toolCall index) x

/-- A message is closed if there was content, or nothing else than reasoning. -/
def closeMessage (x : Stream) (finishReason : FinishReason) : Stream :=
  if !x.responsesState.outputText.isEmpty || x.responsesState.toolCalls.isEmpty then
    let msgIdx := x.baseIdx + x.responsesState.toolCalls.length
    let x := x.openMessage msgIdx
    let text := x.responsesState.outputText
    let x := x.messageText .outputTextDone msgIdx text
    let x := x.messageText .contentPartDone msgIdx text
    x.emplace .outputItemDone (some .message)
      (.outputItem msgIdx ⟨.message, OUTPUT_ITEM_ID, some (itemStatus finishReason), [], cStr text⟩)
  else x

def serializeCompletedEvent (x : Stream) (finishReason : FinishReason) : Stream :=
  x.emplace (if finishReason = .length then .incomplete else .completed) none
    (.response (itemStatus finishReason)
      (output x.responsesState (itemStatus finishReason) x.responsesState.outputText))

def finish (x : Stream) (finishReason : FinishReason) : Stream :=
  (((x.closeReasoning).closeToolCalls finishReason).closeMessage finishReason).serializeCompletedEvent finishReason

/-- The events of a chunk are appended to those of the chunks before it. -/
def serializeStreamingChunk (x : Stream) (delta : Delta) (finishReason : FinishReason) : Stream :=
  let x := x.serializeStreamingCreatedEvent.serializeStreamingInProgressEvent.appendDeltaEvents delta
  if finishReason = .none then x else x.finish finishReason

end Stream

/-- A generation: the deltas in order, the last with the finish reason. -/
def streamed (deltas : List Delta) (last : Delta) (finishReason : FinishReason) : Stream :=
  (deltas.foldl (fun (x : Stream) delta => x.serializeStreamingChunk delta .none) {}).serializeStreamingChunk last finishReason

end ModelServer.OpenAIResponsesHandler
