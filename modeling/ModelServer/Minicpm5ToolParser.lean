import ModelServer.MarkupCalls

namespace ModelServer.Minicpm5ToolParser

open Occurrence
open Qwen3CoderToolParser.Impl (orNullopt)

def FUNCTION_START_TAG : Str := bytes "<function name=\""
def XML_TAG_END : Str := bytes "\">"
def PARAM_START_TAG : Str := bytes "<param name=\""
def PARAM_END_TAG : Str := bytes "</param>"
def FUNCTION_END_TAG : Str := bytes "</function>"

/-- `Minicpm5ToolParserImpl::State`. -/
inductive State
  | content
  | insideFunctionName
  | insideFunction
  | insideParamName
  | insideParam
  | afterFunction
deriving DecidableEq

/-- What the states act on. -/
structure Core where
  currentState : State := .content
  currentFunction : MarkupFunctool := {}
  currentParameterName : Str := []

/-- `Minicpm5ToolParserImpl`. -/
structure Impl extends Core where
  streamContent : Str := []
  lastProcessedPosition : Nat := 0
  /-- How often `generateRandomId` has been called. -/
  drawnIds : Nat := 0

section Actions

variable (rj : RapidJson) (types : ToolsParameterTypeMap)

/-- A value that is no JSON is tried again with other quotes, if it looks like an object or an array, and is a string else. -/
def parseParameter (expectedType : ParameterType) (value : Str) : Json :=
  match typedValue rj expectedType value with
  | some parsed => parsed
  | none =>
    if value.head? = some (char '\x7b') ∨ value.head? = some (char '[') then
      (rj.document (cStr (replaceSingleWithDoubleQuotes false false value))).getD (.str value)
    else .str value

def addParameterToCurrentFunctionDoc (f : MarkupFunctool) (key parameterValueAsString : Str) : MarkupFunctool :=
  let value := trimNewline parameterValueAsString
  let expectedType := expectedParameterType types f.name key
  let value := if expectedType = .boolean then normalizeBooleanString value else value
  f.addMemberOnce (cStr key) (parseParameter rj expectedType value)

namespace Core

def openFunction (c : Core) : Core := { c with currentState := .insideFunctionName }

def nameFunction (c : Core) (name : Str) : Core :=
  { c with currentFunction := { c.currentFunction with name := name }, currentState := .insideFunction }

def openParam (c : Core) : Core := { c with currentState := .insideParamName }

def endFunction (c : Core) : Core := { c with currentState := .afterFunction }

def nameParam (c : Core) (name : Str) : Core := { c with currentParameterName := name, currentState := .insideParam }

def closeParam (c : Core) (paramValue : Str) : Core :=
  { c with
    currentFunction := addParameterToCurrentFunctionDoc rj types c.currentFunction c.currentParameterName paramValue
    currentState := .insideFunction }

def closeFunction (c : Core) : Core := { c with currentFunction := {}, currentState := .content }

/-- The name and the arguments of the current function. -/
def invocation (c : Core) : Str × Str := (c.currentFunction.name, c.currentFunction.argumentsAsString rj)

end Core

end Actions

namespace Impl

variable (rj : RapidJson) (ids : RandomIds) (types : ToolsParameterTypeMap)

/-- `streamContent.find(tag, lastProcessedPosition)`. -/
def find (p : Impl) (tag : Str) : Option Nat := ModelServer.find p.streamContent tag p.lastProcessedPosition

/-- The text from the last processed position up to `pos`. -/
def upTo (p : Impl) (pos : Nat) : Str := substr p.streamContent p.lastProcessedPosition (pos - p.lastProcessedPosition)

/-- The next state, after the text up to a position. -/
def passTo (p : Impl) (core : Core) (position : Nat) : Impl := { p with toCore := core, lastProcessedPosition := position }

def handleInsideContentState (p : Impl) : Impl :=
  match p.find FUNCTION_START_TAG with
  | none => p
  | some posFunc => p.passTo p.toCore.openFunction (posFunc + FUNCTION_START_TAG.length)

def handleInsideFunctionNameState (p : Impl) : Impl :=
  match p.find XML_TAG_END with
  | none => p
  | some pos => p.passTo (p.toCore.nameFunction (p.upTo pos)) (pos + XML_TAG_END.length)

/-- The end of the function is only noticed here, and passed in the next state. -/
def handleInsideFunctionState (p : Impl) : Impl :=
  match p.find FUNCTION_END_TAG, p.find PARAM_START_TAG with
  | none, none => p
  | none, some paramStart => p.passTo p.toCore.openParam (paramStart + PARAM_START_TAG.length)
  | some funcEnd, some paramStart =>
    if paramStart < funcEnd then p.passTo p.toCore.openParam (paramStart + PARAM_START_TAG.length)
    else p.passTo p.toCore.endFunction p.lastProcessedPosition
  | some _, none => p.passTo p.toCore.endFunction p.lastProcessedPosition

/-- `npos` and the length of the tag would wrap around. -/
def handleInsideAfterFunctionState (p : Impl) (toolCalls : List ToolCall) : Impl × List ToolCall :=
  let position := match p.find FUNCTION_END_TAG with
    | some funcEnd => funcEnd + FUNCTION_END_TAG.length
    | none => FUNCTION_END_TAG.length - 1
  ({ p.passTo p.toCore.closeFunction position with drawnIds := p.drawnIds + 1 },
    toolCalls ++ [⟨ids.draw p.drawnIds, (p.toCore.invocation rj).1, (p.toCore.invocation rj).2⟩])

def handleInsideParamNameState (p : Impl) : Impl :=
  match p.find XML_TAG_END with
  | none => p
  | some pos => p.passTo (p.toCore.nameParam (p.upTo pos)) (pos + XML_TAG_END.length)

def handleInsideParamState (p : Impl) : Impl :=
  match p.find PARAM_END_TAG with
  | none => p
  | some endPos => p.passTo (p.toCore.closeParam rj types (p.upTo endPos)) (endPos + PARAM_END_TAG.length)

/-- The `switch` over the current state. -/
def advance (p : Impl) (toolCalls : List ToolCall) : Impl × List ToolCall :=
  match p.currentState with
  | .content => (p.handleInsideContentState, toolCalls)
  | .insideFunctionName => (p.handleInsideFunctionNameState, toolCalls)
  | .insideFunction => (p.handleInsideFunctionState, toolCalls)
  | .insideParamName => (p.handleInsideParamNameState, toolCalls)
  | .insideParam => (p.handleInsideParamState rj types, toolCalls)
  | .afterFunction => p.handleInsideAfterFunctionState rj ids toolCalls

/-- `while (parseUntilStateChange(toolCalls)) {}`: the loop goes on as long as the state changes. -/
def parseBody (s : Impl × List ToolCall) : (Impl × List ToolCall) ⊕ (Impl × List ToolCall) :=
  if (advance rj ids types s.1 s.2).1.currentState = s.1.currentState then .inr (advance rj ids types s.1 s.2)
  else .inl (advance rj ids types s.1 s.2)

/-- Unread text, and a function that may end without a step in the text, bound the state changes. -/
def remaining (p : Impl) : Nat :=
  2 * (p.streamContent.length - p.lastProcessedPosition) + (if p.currentState = .insideFunction then 1 else 0)

def append (p : Impl) (chunk : Str) : Impl := { p with streamContent := p.streamContent ++ chunk }

def parseAll (p : Impl) : Impl × List ToolCall := Loop.run (parseBody rj ids types) (p.remaining + 1) (p, []) (p, [])

def parseChunk (p : Impl) (chunk : Str) : Option (List ToolCall) × Impl :=
  if chunk.isEmpty then (none, p)
  else
    let parsed := (p.append chunk).parseAll rj ids types
    (orNullopt parsed.2, parsed.1)

def getCurrentFunctionName (p : Impl) : Option Str :=
  if p.currentFunction.name.isEmpty then none else some p.currentFunction.name

def generateRandomId (p : Impl) : Str × Impl := (ids.draw p.drawnIds, { p with drawnIds := p.drawnIds + 1 })

end Impl

/-- `Minicpm5ToolParserImpl` inside of the parser. -/
def streamParser (rj : RapidJson) (ids : RandomIds) (types : ToolsParameterTypeMap) : InnerParser Impl where
  parseChunk := Impl.parseChunk rj ids types
  getCurrentFunctionName := Impl.getCurrentFunctionName
  generateRandomId := Impl.generateRandomId ids

section Parser

variable (rj : RapidJson) (ids : RandomIds) (toolSchemas : ToolsSchemas)

/-- The name and the arguments of a call in one delta, if no first delta was returned under the current index. -/
def sendFullDelta (p : StreamedToolParser Impl) (toolCalls : List ToolCall) : Except String (Option Delta × StreamedToolParser Impl) :=
  StreamedToolParser.sendFullDelta (streamParser rj ids (createToolsParametersTypesMap toolSchemas)) true
    "Minicpm5ToolParser: for streaming expected one tool call" p toolCalls

def parseChunk (p : StreamedToolParser Impl) (newChunk : Str) : Except String (Option Delta × StreamedToolParser Impl) :=
  StreamedToolParser.parseChunk (streamParser rj ids (createToolsParametersTypesMap toolSchemas)) true
    "Minicpm5ToolParser: for streaming expected one tool call" p newChunk

/-- The deltas of a generation from the reset state on. -/
def generation (chunks : List Str) : Except String (List Delta) :=
  StreamedToolParser.parseChunks (streamParser rj ids (createToolsParametersTypesMap toolSchemas)) true
    "Minicpm5ToolParser: for streaming expected one tool call" ⟨{}, {}⟩ chunks

end Parser

end ModelServer.Minicpm5ToolParser
