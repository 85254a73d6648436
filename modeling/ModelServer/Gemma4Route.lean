import ModelServer.Gemma4ToolParser
import ModelServer.OutputParser

namespace ModelServer

namespace Gemma4ReasoningParser

def startTag : Str := bytes "<|channel>"
def preambleTag : Str := bytes "thought\n"
def endTag : Str := bytes "<channel|>"

inductive Phase
  | awaitingOpener
  | awaitingChannelHeader
  | body
deriving DecidableEq

structure State where
  phase : Phase := .awaitingOpener
  pendingChannelHeaderText : Str := []
  implicitStart : Bool := false

def resetState (s : State) : State :=
  { s with phase := .awaitingOpener, pendingChannelHeaderText := [] }

/-- The text behind the opener, which only the first text may have. -/
def skipOpener (s : State) (text : Str) : Str :=
  if s.phase = .awaitingOpener ∧ s.implicitStart = false then
    match find text startTag 0 with
    | some openerPos => text.drop (openerPos + startTag.length)
    | none => text
  else text

/-- Two words, the blanks before the first one aside. -/
def isMultiWord (line : Str) : Bool := (line.dropWhile isspace).any isspace

/-- The text behind the channel header; `none` while it may still be one. -/
def skipChannelHeader (pending : Str) (finishReason : FinishReason) : Option Str :=
  let newlinePos := find pending (bytes "\n") 0
  let endTagPos := find pending endTag 0
  let header := newlinePos.filter fun pos => !isMultiWord (pending.take pos) && posLt newlinePos endTagPos
  match header with
  | some pos => some (pending.drop (pos + 1))
  | none => if endTagPos.isSome ∨ finishReason ≠ .none then some pending else none

/-- The reasoning up to the end tag. -/
def bodyDelta (text : Str) : Option Delta :=
  let text :=
    match find text endTag 0 with
    | some endTagPos => text.take endTagPos
    | none => text
  if text.isEmpty then none else some (.reasoning text)

def parseChunk (s : State) (chunk : Str) (finishReason : FinishReason) : Option Delta × State :=
  if chunk.isEmpty ∧ finishReason = .none then (none, s)
  else
    let text := skipOpener s chunk
    if s.phase = .body then (bodyDelta text, s)
    else
      let pending := s.pendingChannelHeaderText ++ text
      match skipChannelHeader pending finishReason with
      | none => (none, { s with phase := .awaitingChannelHeader, pendingChannelHeaderText := pending })
      | some text => (bodyDelta text, { s with phase := .body, pendingChannelHeaderText := [] })

end Gemma4ReasoningParser

def Gemma4ReasoningParser : BaseOutputParser Gemma4ReasoningParser.State where
  parsingConfig :=
    { startTags := [Gemma4ReasoningParser.startTag]
      preambleStartTags := [Gemma4ReasoningParser.preambleTag]
      endTags := [Gemma4ReasoningParser.endTag] }
  parseChunk := Gemma4ReasoningParser.parseChunk
  resetState := Gemma4ReasoningParser.resetState
  setImplicitStart s value := { s with implicitStart := value }

open Gemma4ToolParser

def Gemma4ToolParser (env : Environment) : BaseOutputParser Parser where
  parsingConfig :=
    { startTags := [TOOL_CALL_START_TAG]
      preambleStartTags := env.preambleStartTags
      endTags := [TOOL_CALL_END_TAG] }
  parseChunk p chunk finishReason := p.parseChunk env chunk finishReason
  drainPendingDelta := Parser.drainPendingDelta env
  resetState := Parser.resetState

/-- `OutputParser("gemma4", "gemma4")`. -/
def gemma4Route (env : Environment) : OutputParser Parser Gemma4ReasoningParser.State Unit where
  toolParser := Gemma4ToolParser env
  reasoningParser := Gemma4ReasoningParser
  contentParser := DefaultContentParser
    [TURN_END_TAG, TOOL_RESPONSE_START_TAG, bytes "<|channel>thought\n", bytes "<channel|>"]
  gemma4ToolHandoff := true
  contentTokensToHide := [TOOL_CALL_START_TAG, TOOL_CALL_END_TAG, TOOL_ARGS_STRING_INDICATOR]

namespace Gemma4Route

abbrev RouteState := OutputParser.State Parser Gemma4ReasoningParser.State Unit

/-- A new route, `n` random ids having been drawn before. -/
def initial (n : Nat) : RouteState where
  toolState := { drawnIds := n }
  reasoningState := {}
  contentState := ()

end Gemma4Route

end ModelServer
