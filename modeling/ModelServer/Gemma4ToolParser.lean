import ModelServer.Gemma4UncheckedArguments
import ModelServer.Delta
import ModelServer.Loop

namespace ModelServer.Gemma4ToolParser

/-- What the parser is built over. -/
structure Environment where
  rapidJson : RapidJson
  randomIds : RandomIds
  allowedToolNames : List Str

/-- A registry is enforced unless it is empty. -/
def Environment.enforceToolRegistry (env : Environment) : Bool := !env.allowedToolNames.isEmpty

inductive State
  | content
  | toolCallStarted
  | toolCallParameters
  | toolCallEnded
  | afterToolCall
deriving DecidableEq

structure Parser where
  streamingContent : Str := []
  streamingPosition : Nat := 0
  currentState : State := .content
  toolCall : ToolCall := .empty
  toolCallIndex : Int := -1
  rejectedCandidate : Bool := false
  argsOpen : Byte := openBrace
  /-- How often `generateRandomId` has been called. -/
  drawnIds : Nat := 0

/-- `parsingConfig.preambleStartTags`. -/
def Environment.preambleStartTags (env : Environment) : List Str :=
  env.allowedToolNames.flatMap fun name =>
    [TOOL_CALL_NAME_PREFIX ++ name ++ [openBrace], TOOL_CALL_NAME_PREFIX ++ name ++ [openParen]]

/-- Only blanks stand before `pos` on its line, and the line does not begin the text. -/
def isLogicalBoundary (text : Str) (pos : Nat) : Bool :=
  if pos = 0 then true
  else
    let before := text.take pos
    if !before.contains (char '\n') then false
    else (before.reverse.takeWhile (· ≠ char '\n')).all fun c =>
      c == char ' ' || c == char '\t' || c == char '\r'

namespace Parser

variable (env : Environment)

def resetState (p : Parser) : Parser := { drawnIds := p.drawnIds }

/-- `streamingContent.find(tag, streamingPosition)`. -/
def find (p : Parser) (tag : Str) : Option Nat :=
  ModelServer.find p.streamingContent tag p.streamingPosition

/-- The first of `pos` and the preambles at a logical boundary. -/
def firstPreamble (p : Parser) (pos : Option Nat) : Option Nat :=
  env.preambleStartTags.foldl (fun best tag =>
    match p.find tag with
    | some pos =>
      if isLogicalBoundary p.streamingContent pos && posLt (some pos) best then some pos else best
    | none => best) pos

def parseInContentState (p : Parser) : Bool × Parser :=
  match p.find TOOL_CALL_START_TAG with
  | none =>
    if p.firstPreamble env none = some p.streamingPosition then
      (false, { p with currentState := .toolCallStarted })
    else (true, p)
  | some toolCallStartTagPos =>
    if toolCallStartTagPos > p.streamingPosition then (true, p)
    else
      (false, { p with
        streamingPosition := toolCallStartTagPos + TOOL_CALL_START_TAG.length
        currentState := .toolCallStarted })

/-- Only the suffix needed to recognize a split end marker is retained. -/
def retainSuffix (p : Parser) : Parser :=
  let keep := TOOL_CALL_END_TAG.length - 1
  if p.streamingContent.length > keep then
    { p with
      streamingContent := p.streamingContent.drop (p.streamingContent.length - keep)
      streamingPosition := 0 }
  else p

/-- A rejected candidate is given up at the next envelope. -/
def resumeAt (p : Parser) (start : Nat) : Parser :=
  { p with
    streamingPosition := start
    toolCall := .empty
    rejectedCandidate := false
    currentState := .content }

/-- No call is left behind an end tag. -/
def endCandidate (p : Parser) (envelopeEnd : Nat) : Parser :=
  { p with
    streamingPosition := envelopeEnd + TOOL_CALL_END_TAG.length
    toolCall := .empty
    currentState := .toolCallEnded }

/-- `parseToolCallParametersState` of a rejected candidate: its end tag or the next envelope is waited for. -/
def skipRejected (p : Parser) : Bool × Parser :=
  match p.find TOOL_CALL_START_TAG, p.find TOOL_CALL_END_TAG with
  | some nextStart, none => (true, p.resumeAt nextStart)
  | none, none => (false, p.retainSuffix)
  | nextStart, some envelopeEnd =>
    if posLt nextStart (some envelopeEnd) then (true, p.resumeAt (nextStart.getD 0))
    else (true, p.endCandidate envelopeEnd)

/-- A candidate that is given up. -/
def reject (p : Parser) : Parser := { p with rejectedCandidate := true, currentState := .toolCallParameters }

/-- The container that opens just before the position. -/
def argumentsEnd (p : Parser) : ContainerEnd :=
  findMatchingContainerEnd p.streamingContent p.streamingPosition p.argsOpen
    (if p.argsOpen = openParen then closeParen else closeBrace)

/-- The arguments end at `close`; a body that cannot be read leaves no call. -/
def closeArguments (p : Parser) (close : Nat) : Parser :=
  let body := substr p.streamingContent p.streamingPosition (close - p.streamingPosition)
  { p with
    toolCall :=
      match parseNativeArgumentsBody env.rapidJson body with
      | some arguments => { p.toolCall with arguments := arguments }
      | none => .empty
    streamingPosition := close + 1
    currentState := .toolCallEnded }

/-- Without a registry the arguments end at the first brace that stands outside. -/
def closeUnchecked (p : Parser) : Bool × Parser :=
  let masked := maskDelimitedStringValues p.streamingContent TOOL_ARGS_STRING_INDICATOR
  match findInStringRespectingSpecialChars masked TOOL_ARGS_END_INDICATOR p.streamingPosition with
  | none => (false, p)
  | some pos =>
    let argumentsStr := substr p.streamingContent p.streamingPosition (pos - p.streamingPosition)
    (true, { p with
      toolCall := { p.toolCall with arguments := Unchecked.argumentsText env.rapidJson argumentsStr }
      currentState := .toolCallEnded
      streamingPosition := pos + TOOL_ARGS_END_INDICATOR.length })

def parseToolCallParametersState (p : Parser) : Bool × Parser :=
  if !env.enforceToolRegistry then p.closeUnchecked env
  else if p.rejectedCandidate then p.skipRejected
  else
    match p.argumentsEnd.close with
    | some close => (true, p.closeArguments env close)
    | none =>
      match p.argumentsEnd.malformedEndTag with
      | some malformedEnd => (true, p.endCandidate malformedEnd)
      | none =>
        if p.argumentsEnd.candidateLimitExceeded then skipRejected { p with rejectedCandidate := true }
        else (false, p)

/-- The name between the position and the opening bracket, `call:` or a colon taken off. -/
def toolName (text : Str) : Str :=
  let name := trim text
  if TOOL_CALL_NAME_PREFIX.isPrefixOf name then trim (name.drop TOOL_CALL_NAME_PREFIX.length)
  else if name.head? = some (char ':') then trim name.tail
  else trim name

/-- The name ends at the opening bracket. -/
def openArguments (p : Parser) (argsPos : Nat) : Parser :=
  let name := toolName (substr p.streamingContent p.streamingPosition (argsPos - p.streamingPosition))
  { p with
    rejectedCandidate := !saneToolName name || !env.allowedToolNames.contains name
    toolCall := ⟨env.randomIds.draw p.drawnIds, name, []⟩
    drawnIds := p.drawnIds + 1
    streamingPosition := argsPos + TOOL_ARGS_START_INDICATOR.length
    argsOpen := p.streamingContent.getD argsPos 0
    currentState := .toolCallParameters }

/-- Without a registry the name follows `call:`, where that comes before the brace, and every name is taken. -/
def openUnchecked (p : Parser) (argsPos : Nat) : Parser :=
  let toolNameStart :=
    match p.find TOOL_CALL_NAME_PREFIX with
    | some start => if start < argsPos then start + TOOL_CALL_NAME_PREFIX.length else p.streamingPosition
    | none => p.streamingPosition
  { p with
    rejectedCandidate := false
    toolCall := ⟨env.randomIds.draw p.drawnIds,
      trim (substr p.streamingContent toolNameStart (argsPos - toolNameStart)), []⟩
    drawnIds := p.drawnIds + 1
    streamingPosition := argsPos + TOOL_ARGS_START_INDICATOR.length
    argsOpen := p.streamingContent.getD argsPos 0
    currentState := .toolCallParameters }

def parseInToolCallState (p : Parser) : Bool × Parser :=
  if !env.enforceToolRegistry then
    match p.find TOOL_ARGS_START_INDICATOR with
    | none => (false, p)
    | some argsPos => (true, p.openUnchecked env argsPos)
  else
    match posMin (p.find TOOL_ARGS_START_INDICATOR) (p.find [openParen]) with
    | none =>
      if p.streamingContent.length - p.streamingPosition > MAX_NATIVE_TOOL_CANDIDATE_BYTES then
        p.reject.skipRejected
      else (false, p)
    | some argsPos => (true, p.openArguments env argsPos)

def parseInToolCallEndedState (p : Parser) : Bool × Parser :=
  let nextToolCallPos := p.find TOOL_CALL_NAME_PREFIX
  let toolCallEndTagPos := p.find TOOL_CALL_END_TAG
  if posLt nextToolCallPos toolCallEndTagPos then
    let nextToolCallPos := nextToolCallPos.getD 0
    let gap := trim (substr p.streamingContent p.streamingPosition (nextToolCallPos - p.streamingPosition))
    if env.enforceToolRegistry && !gap.isEmpty then
      p.reject.skipRejected
    else (true, { p with streamingPosition := nextToolCallPos, currentState := .toolCallStarted })
  else
    match toolCallEndTagPos with
    | some toolCallEndTagPos =>
      (true, { p with
        streamingPosition := toolCallEndTagPos + TOOL_CALL_END_TAG.length
        currentState := .afterToolCall })
    | none => (false, p)

def parseNewContent (p : Parser) : Bool × Parser :=
  match p.currentState with
  | .content => p.parseInContentState env
  | .toolCallStarted => p.parseInToolCallState env
  | .toolCallParameters => p.parseToolCallParametersState env
  | .toolCallEnded => p.parseInToolCallEndedState env
  | .afterToolCall => (false, p)

def wrapDeltaContent (content : Str) : Option Delta :=
  if content.isEmpty then none else some (.content content)

/-- The delta of the completed call, which is cleared. -/
def wrapCompletedToolCall (p : Parser) : Delta × Parser :=
  let fresh := p.toolCall.id.isEmpty
  let id := if fresh then env.randomIds.draw p.drawnIds else p.toolCall.id
  (.toolCall ⟨p.toolCallIndex + 1, some id, some p.toolCall.name, p.toolCall.arguments⟩,
    { p with
      toolCallIndex := p.toolCallIndex + 1
      drawnIds := if fresh then p.drawnIds + 1 else p.drawnIds
      toolCall := .empty })

/-- Structural markers never reach the client. -/
def eraseStructuralMarkers (content : Str) : Str :=
  eraseAll TOOL_RESPONSE_START_TAG (eraseAll TURN_END_TAG content)

/-- The unread text up to `contentEnd` is content. -/
def giveContent (p : Parser) (contentEnd : Option Nat) : Option Delta × Parser :=
  let content :=
    match contentEnd with
    | some contentEnd => substr p.streamingContent p.streamingPosition (contentEnd - p.streamingPosition)
    | none => p.streamingContent.drop p.streamingPosition
  (wrapDeltaContent (eraseStructuralMarkers content),
    { p with streamingPosition := p.streamingPosition + content.length })

/-- The body of the `for` loop; the outer `none` is `break`, a delta is returned. -/
def parseBody (p : Parser) : Parser ⊕ (Option (Option Delta) × Parser) :=
  let (progressed, q) := p.parseNewContent env
  match q.currentState with
  | .toolCallStarted =>
    if p.currentState = .toolCallStarted && !progressed then .inr (none, q) else .inl q
  | .toolCallParameters => if progressed then .inl q else .inr (none, q)
  | .toolCallEnded =>
    if !progressed then .inr (none, q)
    else if q.toolCall.arguments.isEmpty then .inl q
    else
      let (delta, q) := q.wrapCompletedToolCall env
      .inr (some (some delta), q)
  | .content =>
    if !progressed then .inr (none, q)
    else
      let (delta, q) := q.giveContent (q.firstPreamble env (q.find TOOL_CALL_START_TAG))
      .inr (some delta, q)
  | .afterToolCall => if progressed then .inl { q with currentState := .content } else .inr (none, q)

def rank : State → Nat
  | .toolCallStarted => 0
  | _ => 1

/-- Every pass that goes on reads something or enters a call. -/
def remaining (p : Parser) : Nat :=
  2 * (p.streamingContent.length - p.streamingPosition) + rank p.currentState

def parseAll (p : Parser) : Option (Option Delta) × Parser :=
  Loop.run (parseBody env) (p.remaining + 1) (none, p) p

def append (p : Parser) (chunk : Str) : Parser :=
  { p with streamingContent := p.streamingContent ++ chunk }

/-- What is done at the end of a generation after the loop has been left. -/
def finish (p : Parser) : Option Delta × Parser :=
  let p := if p.currentState = .toolCallParameters then (p.parseToolCallParametersState env).2 else p
  if (p.currentState = .toolCallParameters ∨ p.currentState = .toolCallEnded) ∧
      p.toolCall.arguments ≠ [] then
    let (delta, p) := p.wrapCompletedToolCall env
    (some delta, p)
  else if p.currentState = .content ∧ p.streamingPosition < p.streamingContent.length then
    p.giveContent none
  else (none, p)

def parseChunk (p : Parser) (chunk : Str) (finishReason : FinishReason) : Option Delta × Parser :=
  match (p.append chunk).parseAll env with
  | (some delta, p) => (delta, p)
  | (none, p) => if finishReason ≠ .none then p.finish env else (none, p)

def drainPendingDelta (p : Parser) : Option Delta × Parser := p.parseChunk env [] .none

end Parser

end ModelServer.Gemma4ToolParser
