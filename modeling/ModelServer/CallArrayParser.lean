import ModelServer.Delta
import ModelServer.PartialJsonBuilder

/-! The tool parsers of Mistral and Phi4, whose calls are the objects of a JSON array. -/

namespace ModelServer

def escapeSpecialCharacter (c : Byte) : Str :=
  if c = char '"' then bytes "\\\""
  else if c = char '\\' then bytes "\\\\"
  else if c = 8 then bytes "\\b"
  else if c = 12 then bytes "\\f"
  else if c = char '\n' then bytes "\\n"
  else if c = char '\r' then bytes "\\r"
  else if c = char '\t' then bytes "\\t"
  else [c]

/-- Double quotes, backslashes and control characters are escaped. -/
def escapeSpecialCharacters (text : Str) : Str := text.flatMap escapeSpecialCharacter

/-- `InternalState`. -/
inductive CallArrayState
  | awaitingStartTag
  | awaitingToolCallsOpeningBracket
  | awaitingToolCallOpeningBrace
  | processingToolCall
deriving DecidableEq

structure CallArrayParser where
  internalState : CallArrayState := .awaitingStartTag
  lastJson : Json := .null
  jsonBuilder : PartialJsonBuilder := {}
  /-- -1 means that no tool call has been started yet. -/
  toolCallIndex : Int := -1
  /-- Whether a double quote has been added at the beginning of the arguments. -/
  argumentsQuotesOpened : Bool := false
  unprocessedBuffer : Str := []
  openBracesCount : Nat := 1
  /-- How often `generateRandomId` has been called. -/
  drawnIds : Nat := 0

namespace CallArrayParser

section Chunks

/-- Everything after the first colon is left for the next call. -/
def movePostColonContentToUnprocessedBuffer (p : CallArrayParser) (chunk : Str) : Str × CallArrayParser :=
  match find chunk (bytes ":") 0 with
  | some colonPos => (chunk.take (colonPos + 1), { p with unprocessedBuffer := chunk.drop (colonPos + 1) ++ p.unprocessedBuffer })
  | none => (chunk, p)

/-- What appeared after the end of the call, without the escape characters added to it. -/
def movePostToolCallEndContentToUnprocessedBuffer (p : CallArrayParser) : CallArrayParser :=
  { p with unprocessedBuffer := (p.jsonBuilder.getUnprocessedBuffer ++ p.unprocessedBuffer).filter (· != char '\\') }

/-- A `size_t` that is zero wraps around. -/
def decremented (n : Nat) : Nat := if n = 0 then UInt64.size - 1 else n - 1

/-- Braces in strings are counted like all others; once they are balanced, no more are counted. -/
def updateOpenBracesCount (count : Nat) : Str → Nat
  | [] => count
  | c :: chunk =>
    if c = char '\x7b' then updateOpenBracesCount (count + 1) chunk
    else if c = char '\x7d' then if decremented count = 0 then 0 else updateOpenBracesCount (decremented count) chunk
    else updateOpenBracesCount count chunk

/-- The closing quote stands before the last closing brace; what comes behind the brace is no part of the call. -/
def handleEndOfToolCall (p : CallArrayParser) (chunk : Str) : Str × CallArrayParser :=
  match rfind chunk (bytes "\x7d") with
  | some lastClosingBrace =>
    (chunk.take lastClosingBrace ++ bytes "\"\x7d",
      if lastClosingBrace + 1 < chunk.length then
        { p with unprocessedBuffer := chunk.drop (lastClosingBrace + 1) ++ p.unprocessedBuffer }
      else p)
  | none => (chunk ++ bytes "\"", p)

def handleGenerationFinish (chunk : Str) : Str :=
  match rfind chunk (bytes "\x7d") with
  | some lastClosingBrace => chunk.take lastClosingBrace ++ bytes "\"" ++ chunk.drop lastClosingBrace
  | none => chunk ++ bytes "\""

/-- The opening quote stands before the first character that is no whitespace. -/
def openArgumentsString (chunk : Str) : Str := chunk.takeWhile isspace ++ bytes "\"" ++ chunk.dropWhile isspace

def clearState (p : CallArrayParser) : CallArrayParser :=
  { p with
    -- `Clear` leaves a null null and an object without members
    lastJson := match p.lastJson with
      | .null => .null
      | _ => .obj []
    jsonBuilder := {}
    toolCallIndex := p.toolCallIndex + 1
    argumentsQuotesOpened := false
    openBracesCount := 1 }

def hasArguments (value : Json) : Bool := (value.member? (bytes "arguments")).isSome

def stringMember (value : Json) (name : Str) : Option Str :=
  match value.member? name with
  | some (.str s) => some (cStr s)
  | _ => none

def isBlankMember : Str × Json → Bool
  | (_, .null) => true
  | (_, .str s) => (cStr s).isEmpty
  | _ => false

end Chunks

/-- Where the two parsers differ. -/
structure Dialect where
  /-- The chunks that are ignored whatever the state is. -/
  ignores : CallArrayParser → Str → Bool
  /-- What follows the start tag, where there is one. -/
  afterStartTag : Str → Option Str
  /-- Whether the braces are balanced, by their number before and after the chunk. -/
  endsToolCall : Nat → Nat → Bool

section Calls

variable (rj : RapidJson) (ids : RandomIds) (dialect : Dialect)

/-- The chunk behind what is unprocessed; before the arguments, no more than up to a colon. -/
def takeChunk (p : CallArrayParser) (chunk : Str) : Str × CallArrayParser :=
  let modifiedChunk := p.unprocessedBuffer ++ chunk
  let p := { p with unprocessedBuffer := [] }
  if hasArguments p.lastJson then (modifiedChunk, p) else p.movePostColonContentToUnprocessedBuffer modifiedChunk

/-- The chunk as it goes to the builder. -/
def prepare (p : CallArrayParser) (modifiedChunk : Str) (finishReason : FinishReason) : Str × CallArrayParser :=
  if hasArguments p.lastJson then
    let modifiedChunk := escapeSpecialCharacters modifiedChunk
    let openBracesCountBeforeUpdate := p.openBracesCount
    let p := { p with openBracesCount := updateOpenBracesCount p.openBracesCount modifiedChunk }
    let modifiedChunk := if p.argumentsQuotesOpened then modifiedChunk else openArgumentsString modifiedChunk
    let p := { p with argumentsQuotesOpened := true }
    if finishReason ≠ .none then (handleGenerationFinish modifiedChunk, p)
    else if dialect.endsToolCall openBracesCountBeforeUpdate p.openBracesCount then p.handleEndOfToolCall modifiedChunk
    else (modifiedChunk, p)
  else (modifiedChunk.filter (· != char '\n'), p)

/-- A document with arguments is kept, unless it ends the call. -/
def keepDocument (p : CallArrayParser) (newJson : Json) : CallArrayParser :=
  if p.jsonBuilder.isComplete then
    { p.movePostToolCallEndContentToUnprocessedBuffer with internalState := .awaitingToolCallOpeningBrace }
  else { p with lastJson := newJson }

/-- Nothing is streamed for a delta that is empty or has a null or an empty string. -/
def argumentsDelta (toolCallIndex : Int) (delta : List (Str × Json)) : Option Delta :=
  if delta.isEmpty || delta.any isBlankMember then none
  else some (.toolCall ⟨toolCallIndex, none, none, (stringMember (.obj delta) (bytes "arguments")).getD []⟩)

/-- The delta for a new document; none where the code throws. -/
def publish (p : CallArrayParser) (newJson : Json) : Option (Option Delta × CallArrayParser) :=
  if hasArguments newJson && !hasArguments p.lastJson then
    (stringMember p.lastJson (bytes "name") <|> stringMember newJson (bytes "name")).map fun functionName =>
      (some (.toolCall ⟨p.toolCallIndex, some (ids.draw p.drawnIds), some functionName, []⟩),
        { p with lastJson := newJson, drawnIds := p.drawnIds + 1 })
  else if hasArguments p.lastJson then
    some (argumentsDelta p.toolCallIndex (computeDelta p.lastJson newJson), p.keepDocument newJson)
  else some (none, { p with lastJson := newJson })

def processToolCall (p : CallArrayParser) (modifiedChunk : Str) (finishReason : FinishReason) : Option (Option Delta × CallArrayParser) :=
  let (modifiedChunk, p) := prepare dialect p modifiedChunk finishReason
  (p.jsonBuilder.add rj modifiedChunk).bind fun (newJson, jsonBuilder) => publish ids { p with jsonBuilder := jsonBuilder } newJson

/-- The call of `parseChunk` by itself is one state further, so a depth of four is enough. -/
def parseChunkIn (p : CallArrayParser) (chunk : Str) (finishReason : FinishReason) : Nat → Option (Option Delta × CallArrayParser)
  | 0 => some (none, p)
  | depth + 1 =>
    if dialect.ignores p chunk then some (none, p)
    else
      let (modifiedChunk, p) := p.takeChunk chunk
      match p.internalState with
      | .awaitingStartTag =>
        match dialect.afterStartTag modifiedChunk with
        | none => some (none, p)
        | some rest => parseChunkIn { p with internalState := .awaitingToolCallsOpeningBracket } rest finishReason depth
      | .awaitingToolCallsOpeningBracket =>
        if modifiedChunk.head? = some (char '[') then
          let p := { p with internalState := .awaitingToolCallOpeningBrace }
          if modifiedChunk.tail.isEmpty then some (none, p) else parseChunkIn p modifiedChunk.tail finishReason depth
        else some (none, p)
      | .awaitingToolCallOpeningBrace =>
        match find modifiedChunk (bytes "\x7b") 0 with
        | none => some (none, p)
        | some firstOpeningBrace =>
          parseChunkIn { p with internalState := .processingToolCall }.clearState (modifiedChunk.drop firstOpeningBrace) finishReason depth
      | .processingToolCall => processToolCall rj ids dialect p modifiedChunk finishReason

/-- The chunks of a generation, one after the other. -/
def parseChunks (p : CallArrayParser) : List Str → Option (List Delta × CallArrayParser)
  | [] => some ([], p)
  | chunk :: chunks =>
    (parseChunkIn rj ids dialect p chunk .none 4).bind fun (delta, p) =>
      (parseChunks p chunks).map fun (deltas, p) => (delta.toList ++ deltas, p)

end Calls

end CallArrayParser

namespace MistralToolParser

/-- What is unprocessed stays, and so does the count of braces, which each call sets anyway. -/
def resetState (p : CallArrayParser) : CallArrayParser :=
  { p with
    internalState := .awaitingStartTag
    lastJson := .null
    jsonBuilder := {}
    toolCallIndex := -1
    argumentsQuotesOpened := false }

def visibleStartTag : Str := bytes "[TOOL_CALLS]"

def streamingParsingStartTag : Str := bytes "[\x7b\""

def dialect : CallArrayParser.Dialect where
  ignores p chunk :=
    chunk.isEmpty && !(!p.unprocessedBuffer.isEmpty ||
      (decide (p.internalState = .processingToolCall) && CallArrayParser.hasArguments p.lastJson))
  afterStartTag chunk :=
    match find chunk visibleStartTag 0 with
    | some visibleStartPos => some (chunk.take visibleStartPos ++ chunk.drop (visibleStartPos + visibleStartTag.length))
    | none => if (find chunk streamingParsingStartTag 0).isSome then some chunk else none
  endsToolCall openBracesCountBeforeUpdate openBracesCount := openBracesCount == 0 && decide (openBracesCountBeforeUpdate > 0)

def parseChunk (rj : RapidJson) (ids : RandomIds) (p : CallArrayParser) (chunk : Str) (finishReason : FinishReason) :
    Option (Option Delta × CallArrayParser) := p.parseChunkIn rj ids dialect chunk finishReason 4

end MistralToolParser

namespace Phi4ToolParser

def resetState (p : CallArrayParser) : CallArrayParser :=
  { p with
    internalState := .awaitingStartTag
    lastJson := .null
    jsonBuilder := {}
    toolCallIndex := -1
    argumentsQuotesOpened := false
    unprocessedBuffer := [] }

def parsingStartTag : Str := bytes "functools"

def dialect : CallArrayParser.Dialect where
  ignores _ chunk := chunk.isEmpty
  afterStartTag chunk := (find chunk parsingStartTag 0).map fun pos => chunk.drop (pos + parsingStartTag.length)
  endsToolCall _ openBracesCount := openBracesCount == 0

def parseChunk (rj : RapidJson) (ids : RandomIds) (p : CallArrayParser) (chunk : Str) (finishReason : FinishReason) :
    Option (Option Delta × CallArrayParser) := p.parseChunkIn rj ids dialect chunk finishReason 4

end Phi4ToolParser

end ModelServer
