import ModelServer.Lfm2Arguments
import ModelServer.ResponsesUnary

namespace ModelServer

/-- `Lfm2ParseState`. -/
inductive Lfm2ParseState
  | content
  | toolCallStarted
  | toolCallParameters
  | toolCallEnded
  | afterToolCall
deriving DecidableEq

structure Lfm2ToolParser where
  streamingContent : Str := []
  streamingPosition : Nat := 0
  currentState : Lfm2ParseState := .content
  toolCall : ToolCall := ToolCall.empty
  toolCallIndex : Int := -1
  /-- How often `generateRandomId` has been called. -/
  drawnIds : Nat := 0

namespace Lfm2ToolParser

def startTag : Str := bytes "<|tool_call_start|>"
def endTag : Str := bytes "<|tool_call_end|>"

section States

/-- Each step says whether it has moved on, and what the state is then. -/
def parseInContentState (p : Lfm2ToolParser) : Bool × Lfm2ToolParser :=
  match find p.streamingContent startTag p.streamingPosition, find p.streamingContent endTag p.streamingPosition with
  | none, some endTagPos => (false, { p with streamingPosition := endTagPos + endTag.length })
  | some startTagPos, _ =>
    if startTagPos > p.streamingPosition then (true, p)
    else (false, { p with currentState := .toolCallStarted, streamingPosition := startTagPos + startTag.length })
  | none, none => (true, p)

/-- The name of a call stands between the position and the parenthesis; a position after the parenthesis has the length
wrap around, and the name takes all that follows. -/
def toolName (p : Lfm2ToolParser) (argsPos : Nat) : Str :=
  trim (if argsPos < p.streamingPosition then p.streamingContent.drop p.streamingPosition
    else substr p.streamingContent p.streamingPosition (argsPos - p.streamingPosition))

def startCall (ids : RandomIds) (p : Lfm2ToolParser) (argsPos : Nat) : Lfm2ToolParser :=
  { p with
    toolCall := ⟨ids.draw p.drawnIds, p.toolName argsPos, []⟩
    drawnIds := p.drawnIds + 1
    streamingPosition := argsPos + TOOL_ARGS_START_INDICATOR.length
    currentState := .toolCallParameters }

def parseInToolCallState (ids : RandomIds) (p : Lfm2ToolParser) : Bool × Lfm2ToolParser :=
  match find p.streamingContent TOOL_LIST_START_INDICATOR p.streamingPosition,
      find p.streamingContent TOOL_ARGS_START_INDICATOR p.streamingPosition with
  | some toolListStartPos, argsPos =>
    let p := { p with streamingPosition := toolListStartPos + TOOL_LIST_START_INDICATOR.length }
    match argsPos with
    | none => (false, p)
    | some argsPos => (true, startCall ids p argsPos)
  | none, some argsPos =>
    if (find p.streamingContent TOOL_LIST_START_INDICATOR 0).any (· < argsPos) then (true, startCall ids p argsPos) else (false, p)
  | none, none => (false, p)

def parseInToolCallParametersState (rj : RapidJson) (p : Lfm2ToolParser) : Bool × Lfm2ToolParser :=
  match findInStringRespectingSpecialChars p.streamingContent TOOL_ARGS_END_INDICATOR p.streamingPosition with
  | none => (false, p)
  | some pos =>
    let argumentsStr := substr p.streamingContent p.streamingPosition (pos - p.streamingPosition)
    (true, { p with
      toolCall := { p.toolCall with arguments := writeArguments rj (parseArguments argumentsStr) }
      currentState := .toolCallEnded
      streamingPosition := pos + TOOL_ARGS_END_INDICATOR.length })

def parseInToolCallEndedState (p : Lfm2ToolParser) : Bool × Lfm2ToolParser :=
  let listEndPos := find p.streamingContent TOOL_LIST_END_INDICATOR p.streamingPosition
  let separatorPos := find p.streamingContent TOOL_SEPARATOR_STR p.streamingPosition
  let endTagPos := find p.streamingContent endTag p.streamingPosition
  match listEndPos, separatorPos, endTagPos with
  | none, none, none => (false, p)
  | _, _, _ =>
    if posLt separatorPos listEndPos then
      (true, { p with
        streamingPosition := separatorPos.getD 0 + TOOL_SEPARATOR_STR.length
        currentState := .toolCallStarted })
    else match endTagPos with
      | some endTagPos => (true, { p with streamingPosition := endTagPos + endTag.length, currentState := .afterToolCall })
      | none => (true, { p with
          streamingPosition := listEndPos.getD 0 + TOOL_LIST_END_INDICATOR.length
          currentState := .afterToolCall })

end States

section Chunks

variable (rj : RapidJson) (ids : RandomIds)

def parseNewContent (p : Lfm2ToolParser) : Bool × Lfm2ToolParser :=
  match p.currentState with
  | .content => p.parseInContentState
  | .toolCallStarted =>
    let (ok, p) := parseInToolCallState ids p
    (ok, if ok then { p with toolCallIndex := p.toolCallIndex + 1 } else p)
  | .toolCallParameters => parseInToolCallParametersState rj p
  | .toolCallEnded => p.parseInToolCallEndedState
  | .afterToolCall => (false, p)

def cutEOSFromContent (content : Str) : Str :=
  match find content EOS_TOKEN_STR 0 with
  | some pos => content.take pos
  | none => content

def wrapDeltaArgs (p : Lfm2ToolParser) : Delta := .toolCall ⟨p.toolCallIndex, none, none, p.toolCall.arguments⟩

/-- The content up to the next start tag. -/
def pendingContent (p : Lfm2ToolParser) : Str :=
  match find p.streamingContent startTag p.streamingPosition with
  | some contentEnd => substr p.streamingContent p.streamingPosition (contentEnd - p.streamingPosition)
  | none => p.streamingContent.drop p.streamingPosition

/-- What is left when the generation has finished. -/
def flush (p : Lfm2ToolParser) : Option Delta × Lfm2ToolParser :=
  if (p.currentState = .toolCallParameters ∨ p.currentState = .toolCallEnded) ∧ p.toolCall.arguments ≠ [] then
    (some p.wrapDeltaArgs, p)
  else if p.currentState = .content ∧ p.streamingPosition < p.streamingContent.length then
    let content := p.streamingContent.drop p.streamingPosition
    let p := { p with streamingPosition := p.streamingPosition + content.length }
    if cutEOSFromContent content ≠ [] then (some (.content (cutEOSFromContent content)), p) else (none, p)
  else (none, p)

/-- The delta of a step that has moved on, if there is one, and the state after it. -/
def published (p : Lfm2ToolParser) : Option Delta × Lfm2ToolParser :=
  match p.currentState with
  | .toolCallParameters =>
    (some (.toolCall ⟨p.toolCallIndex, some (ids.draw p.drawnIds), some p.toolCall.name, []⟩), { p with drawnIds := p.drawnIds + 1 })
  | .toolCallEnded => (some p.wrapDeltaArgs, { p with toolCall := ToolCall.empty })
  | .content =>
    let content := p.pendingContent
    let p := { p with streamingPosition := p.streamingPosition + content.length }
    if cutEOSFromContent content ≠ [] then (some (.content (cutEOSFromContent content)), p) else (none, p)
  | .afterToolCall => (none, { p with currentState := .content })
  | .toolCallStarted => (none, p)

/-- The state machine moves on by at most one step. -/
def step (p : Lfm2ToolParser) : Option Delta × Lfm2ToolParser :=
  let moved := parseNewContent rj ids p
  if moved.1 then moved.2.published ids else (none, moved.2)

def parseChunk (p : Lfm2ToolParser) (chunk : Str) (finishReason : FinishReason) : Option Delta × Lfm2ToolParser :=
  let hasPendingState := p.currentState = .toolCallParameters ∨ p.currentState = .toolCallEnded
  if chunk = [] ∧ ¬ hasPendingState then (none, p)
  else match step rj ids { p with streamingContent := p.streamingContent ++ chunk } with
    | (some delta, p) => (some delta, p)
    | (none, p) => if finishReason ≠ .none then p.flush else (none, p)

/-- The chunks of a generation, one after the other. -/
def parseChunks (p : Lfm2ToolParser) : List Str → List Delta × Lfm2ToolParser
  | [] => ([], p)
  | chunk :: chunks =>
    let parsed := parseChunk rj ids p chunk .none
    let rest := parseChunks parsed.2 chunks
    (parsed.1.toList ++ rest.1, rest.2)

/-- The deltas of a generation from the reset state on, with the empty chunk that ends it. -/
def generation (chunks : List Str) : List Delta :=
  let parsed := parseChunks rj ids {} chunks
  parsed.1 ++ (parseChunk rj ids parsed.2 [] .stop).1.toList

end Chunks

end Lfm2ToolParser

end ModelServer
