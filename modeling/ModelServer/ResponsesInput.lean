import ModelServer.ByteStrings
import ModelServer.Json

namespace ModelServer.ResponsesInput

section Items

-- how a string of the document is read: `GetString` reads it as `cStr` does, and all of it is `id`
variable (read : Str → Str)

/-- The text of a member that is a string. -/
def stringMember (name : String) (object : Json) : Option Str :=
  match object.member? (bytes name) with
  | some (.str s) => some (read s)
  | _ => none

/-- The first text in a member that is an array. -/
def firstText (name : String) (itemObj : Json) : Option Str :=
  match itemObj.member? (bytes name) with
  | some (.arr items) => items.findSome? (stringMember read "text")
  | _ => none

def extractReasoningText (itemObj : Json) : Str :=
  ((firstText read "content" itemObj).or (firstText read "summary" itemObj)).getD []

structure FunctionCallFields where
  id : Str
  name : Str
  arguments : Str
deriving DecidableEq

def readFunctionCallFields (item : Json) : FunctionCallFields where
  id := ((stringMember read "call_id" item).or (stringMember read "id" item)).getD []
  name := (stringMember read "name" item).getD []
  arguments := (stringMember read "arguments" item).getD []

def validateFunctionCallItem (item : Json) : Except Str Unit :=
  let fields := readFunctionCallFields read item
  if fields.id = [] then .error (bytes "function_call item is missing required call_id (or id) field")
  else if fields.name = [] then .error (bytes "function_call item is missing required name field")
  else if (stringMember read "arguments" item).isNone then .error (bytes "function_call item is missing required arguments field")
  else .ok ()

inductive ResponsesInputItemKind
  | REASONING
  | FUNCTION_CALL
  | FUNCTION_CALL_OUTPUT
  | ROLE_ITEM
  | MISSING_ROLE
deriving DecidableEq

def classifyInputItem (item : Json) : Except Str ResponsesInputItemKind :=
  if item.isObject = false then .error (bytes "input array items must be objects")
  else
    let itemType := (stringMember cStr "type" item).getD []
    if itemType = bytes "reasoning" then .ok .REASONING
    else if itemType = bytes "function_call" then .ok .FUNCTION_CALL
    else if itemType = bytes "function_call_output" then .ok .FUNCTION_CALL_OUTPUT
    else if (stringMember cStr "role" item).isNone then .ok .MISSING_ROLE
    else .ok .ROLE_ITEM

/-- An entry of a content array. -/
inductive ContentEntry
  | text (text : Str)
  | image_url (url : Str)
  | input_audio (data format : Str)
deriving DecidableEq

inductive Content
  | string (contentText : Str)
  | array (entries : List ContentEntry)
deriving DecidableEq

def buildImageEntry (contentObj : Json) : Except Str ContentEntry :=
  match contentObj.member? (bytes "image_url") with
  | none => .error (bytes "input_image requires image_url field")
  | some (.str imageUrl) => .ok (.image_url (read imageUrl))
  | some (.obj members) =>
    match stringMember read "url" (.obj members) with
    | some url => .ok (.image_url url)
    | none => .error (bytes "input_image.image_url.url is missing or invalid")
  | some _ => .error (bytes "input_image.image_url must be a string or object")

def buildAudioEntry (contentObj : Json) : Except Str ContentEntry :=
  match contentObj.member? (bytes "input_audio") with
  | some (.obj members) =>
    match stringMember read "data" (.obj members) with
    | some data => .ok (.input_audio data ((stringMember read "format" (.obj members)).getD (bytes "wav")))
    | none => .error (bytes "input_audio.data is missing or invalid")
  | _ => .error (bytes "input_audio requires input_audio object field")

def contentEntry (contentItem : Json) : Except Str ContentEntry :=
  if contentItem.isObject = false then .error (bytes "input content items must be objects")
  else
    match stringMember cStr "type" contentItem with
    | none => .error (bytes "input content item type is missing or invalid")
    | some type =>
      if type = bytes "input_text" ∨ type = bytes "output_text" then
        match stringMember read "text" contentItem with
        | some text => .ok (.text text)
        | none => .error (type ++ bytes " requires a valid text field")
      else if type = bytes "input_image" then buildImageEntry read contentItem
      else if type = bytes "input_audio" then buildAudioEntry read contentItem
      else .error (bytes "unsupported input content item type: " ++ type)

/-- The content of an item. -/
def contentOf (itemObj : Json) : Except Str Content :=
  match itemObj.member? (bytes "content") with
  | none => .error (bytes "input item is missing required content field")
  | some (.str contentText) => .ok (.string (read contentText))
  | some (.arr contentItems) =>
    if contentItems.isEmpty then .error (bytes "input item content array must not be empty")
    else do
      return .array (← contentItems.mapM (contentEntry read))
  | some _ => .error (bytes "input item content must be a string or array")

end Items

section Builder

/-- A message of the chat history, with the members that it has; a tool call is a function call with its fields. -/
structure Message where
  role : Str
  content : Content
  tool_call_id : Option Str := none
  reasoning_content : Option Str := none
  tool_calls : Option (List FunctionCallFields) := none
deriving DecidableEq

/-- The builder and the `ChatHistorySink` that it calls. -/
structure State where
  chatHistory : List Message
  pendingContentArray : List ContentEntry := []
  hasPendingContent : Bool := false
  pendingFunctionCalls : List Json := []
  pendingReasoningContent : Str := []

def emitToolMessage (callId output : Str) (s : State) : State :=
  { s with chatHistory := s.chatHistory ++ [{
      role := bytes "tool"
      content := .string output
      tool_call_id := if callId = [] then none else some callId }] }

/-- What both of the next ones put into a message for its content. -/
def pendingContent (contentText : Str) (s : State) : Content :=
  if s.hasPendingContent then .array s.pendingContentArray else .string contentText

def emitMessage (role contentText reasoning : Str) (s : State) : State :=
  { s with
    chatHistory := s.chatHistory ++ [{
      role := role
      content := pendingContent contentText s
      reasoning_content := if reasoning = [] then none else some reasoning }]
    hasPendingContent := false }

def emitAssistantWithToolCalls (contentText reasoning : Str) (toolCalls : List FunctionCallFields) (s : State) : State :=
  { s with
    chatHistory := s.chatHistory ++ [{
      role := bytes "assistant"
      content := pendingContent contentText s
      reasoning_content := if reasoning = [] then none else some reasoning
      tool_calls := some toolCalls }]
    hasPendingContent := false }

def emitStandaloneReasoning (reasoning : Str) (s : State) : State :=
  { s with chatHistory := s.chatHistory ++ [{
      role := bytes "assistant"
      content := .string []
      reasoning_content := some reasoning }] }

variable (read : Str → Str)

/-- The text of the content, or an array that is kept for the next message. -/
def extractContent (itemObj : Json) (s : State) : Except Str (Str × State) := do
  match ← contentOf read itemObj with
  | .string outText => return (outText, { s with hasPendingContent := false, pendingContentArray := [] })
  | .array entries => return ([], { s with hasPendingContent := true, pendingContentArray := entries })

def flushPendingFunctionCalls (assistantText : Str) (s : State) : State :=
  if s.pendingFunctionCalls.isEmpty then
    if s.pendingReasoningContent = [] then s
    else emitStandaloneReasoning s.pendingReasoningContent { s with pendingReasoningContent := [] }
  else
    { emitAssistantWithToolCalls assistantText s.pendingReasoningContent (s.pendingFunctionCalls.map (readFunctionCallFields read)) s with
      pendingReasoningContent := []
      pendingFunctionCalls := [] }

def onReasoningItem (itemObj : Json) (s : State) : State :=
  let text := extractReasoningText read itemObj
  if text = [] then s
  else
    { s with pendingReasoningContent :=
        (if s.pendingReasoningContent = [] then [] else s.pendingReasoningContent ++ [char '\n']) ++ text }

def onFunctionCallOutputItem (itemObj : Json) (s : State) : State :=
  emitToolMessage ((stringMember read "call_id" itemObj).getD []) ((stringMember read "output" itemObj).getD [])
    (flushPendingFunctionCalls read [] s)

def onRoleItem (itemObj : Json) (s : State) : Except Str State := do
  let role := (stringMember read "role" itemObj).getD []
  let s := if role ≠ bytes "assistant" then flushPendingFunctionCalls read [] s else s
  let (contentText, s) ← extractContent read itemObj s
  if role = bytes "assistant" ∧ s.pendingFunctionCalls.isEmpty = false then
    return flushPendingFunctionCalls read contentText s
  else if role = bytes "assistant" ∧ s.pendingReasoningContent ≠ [] then
    return emitMessage role contentText s.pendingReasoningContent { s with pendingReasoningContent := [] }
  else return emitMessage role contentText [] s

/-- A turn of the loop. -/
def onItem (s : State) (item : Json) : Except Str State := do
  match ← classifyInputItem item with
  | .REASONING => return onReasoningItem read item s
  | .FUNCTION_CALL =>
    validateFunctionCallItem read item
    return { s with pendingFunctionCalls := s.pendingFunctionCalls ++ [item] }
  | .FUNCTION_CALL_OUTPUT => return onFunctionCallOutputItem read item s
  | .ROLE_ITEM => onRoleItem read item s
  | .MISSING_ROLE => throw (bytes "input item role is missing or invalid")

/-- `ResponsesInputBuilder::build`, with the chat history before and after it. -/
def build (inputArray : Json) (chatHistory : List Message) : Except Str (List Message) :=
  match inputArray with
  | .arr items => do
    let s ← items.foldlM (onItem read) { chatHistory := chatHistory }
    return (flushPendingFunctionCalls read [] s).chatHistory
  | _ => .error (bytes "input is not an array")

end Builder

end ModelServer.ResponsesInput
