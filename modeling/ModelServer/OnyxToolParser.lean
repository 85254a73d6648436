import ModelServer.MarkupCalls

namespace ModelServer.OnyxToolParser

open Occurrence
open Qwen3CoderToolParser.Impl (orNullopt)

def TOOL_START_TAG : Str := bytes "<atem:function_calls>"
def TOOL_END_TAG : Str := bytes "</atem:function_calls>"
def FUNCTION_NAME_TAG : Str := bytes "<atem:invoke name=\""
def FUNCTION_END_TAG : Str := bytes "</atem:invoke>"
def PARAMETER_NAME_TAG : Str := bytes "<atem:parameter name=\""
def PARAMETER_END_TAG : Str := bytes "</atem:parameter>"
def NAME_ATTR_END_TAG : Str := bytes "\">"

/-- `OnyxToolParserImpl::State`. -/
inductive State
  | content
  | insideToolCall
  | insideFunctionName
  | insideFunction
  | insideParameterName
  | insideParameter
  | afterFunction
deriving DecidableEq

/-- What the states act on. -/
structure Core where
  currentState : State := .content
  currentFunction : MarkupFunctool := {}
  currentParameterName : Str := []

/-- `OnyxToolParserImpl`. -/
structure Impl extends Core where
  streamContent : Str := []
  lastProcessedPosition : Nat := 0
  /-- How often `generateRandomId` has been called. -/
  drawnIds : Nat := 0

section Actions

variable (rj : RapidJson) (types : ToolsParameterTypeMap)

/-- A value that is no JSON is a string; newlines around it stay. -/
def addParameterToCurrentFunctionDoc (f : MarkupFunctool) (key parameterValueAsString : Str) : MarkupFunctool :=
  let expectedType := expectedParameterType types f.name key
  let value := if expectedType = .boolean then normalizeBooleanString parameterValueAsString else parameterValueAsString
  f.addMemberOnce (cStr key) ((typedValue rj expectedType value).getD (.str value))

namespace Core

def openTool (c : Core) : Core := { c with currentState := .insideToolCall }

def openFunction (c : Core) : Core := { c with currentState := .insideFunctionName }

def nameFunction (c : Core) (name : Str) : Core :=
  { c with currentFunction := { c.currentFunction with name := name }, currentState := .insideFunction }

def openParameter (c : Core) : Core := { c with currentState := .insideParameterName }

def endFunction (c : Core) : Core := { c with currentState := .afterFunction }

def nameParameter (c : Core) (name : Str) : Core := { c with currentParameterName := name, currentState := .insideParameter }

def closeParameter (c : Core) (parameterValueAsString : Str) : Core :=
  { c with
    currentFunction := addParameterToCurrentFunctionDoc rj types c.currentFunction c.currentParameterName parameterValueAsString
    currentState := .insideFunction }

def closeTool (c : Core) : Core := { c with currentFunction := {}, currentState := .content }

/-- The name and the arguments of the current function. -/
def invocation (c : Core) : Str × Str := (c.currentFunction.name, c.currentFunction.argumentsAsString rj)

end Core

end Actions

namespace Impl

variable (rj : RapidJson) (ids : RandomIds) (types : ToolsParameterTypeMap)

/-- `streamContent.find(tag, lastProcessedPosition)`. -/
def find (p : Impl) (tag : Str) : Option Nat := ModelServer.find p.streamContent tag p.lastProcessedPosition

/-- The text from the last processed position up to `pos`. -/
def upTo (p : Impl) (pos : Nat) : Str := substr p.streamContent p.lastProcessedPosition (pos - p.lastProcessedPosition)

/-- The next state, after the text up to a position. -/
def passTo (p : Impl) (core : Core) (position : Nat) : Impl := { p with toCore := core, lastProcessedPosition := position }

/-- The first of two tags, where a tag that is not found comes last. -/
def passFirst (p : Impl) (tag tag' : Str) (core core' : Core) : Impl :=
  match p.find tag, p.find tag' with
  | none, none => p
  | some pos, none => p.passTo core (pos + tag.length)
  | none, some pos' => p.passTo core' (pos' + tag'.length)
  | some pos, some pos' => if pos < pos' then p.passTo core (pos + tag.length) else p.passTo core' (pos' + tag'.length)

/-- `DEFINE_TAG_POSITION_AND_BREAK_IF_NOT_FOUND`, and what follows it. -/
def passTag (p : Impl) (tag : Str) (core : Str → Core) : Impl :=
  match p.find tag with
  | none => p
  | some pos => p.passTo (core (p.upTo pos)) (pos + tag.length)

/-- The call is complete when the block that it is in ends. -/
def completeCall (p : Impl) (toolCalls : List ToolCall) : Impl × List ToolCall :=
  match p.find TOOL_END_TAG with
  | none => (p, toolCalls)
  | some pos =>
    ({ p.passTo p.toCore.closeTool (pos + TOOL_END_TAG.length) with drawnIds := p.drawnIds + 1 },
      toolCalls ++ [⟨ids.draw p.drawnIds, (p.toCore.invocation rj).1, (p.toCore.invocation rj).2⟩])

/-- The `switch` over the current state: a function without a block around it is tolerated. -/
def advance (p : Impl) (toolCalls : List ToolCall) : Impl × List ToolCall :=
  match p.currentState with
  | .content => (p.passFirst TOOL_START_TAG FUNCTION_NAME_TAG p.toCore.openTool p.toCore.openFunction, toolCalls)
  | .insideToolCall => (p.passTag FUNCTION_NAME_TAG fun _ => p.toCore.openFunction, toolCalls)
  | .insideFunctionName => (p.passTag NAME_ATTR_END_TAG p.toCore.nameFunction, toolCalls)
  | .insideFunction => (p.passFirst PARAMETER_NAME_TAG FUNCTION_END_TAG p.toCore.openParameter p.toCore.endFunction, toolCalls)
  | .insideParameterName => (p.passTag NAME_ATTR_END_TAG p.toCore.nameParameter, toolCalls)
  | .insideParameter => (p.passTag PARAMETER_END_TAG (p.toCore.closeParameter rj types), toolCalls)
  | .afterFunction => p.completeCall rj ids toolCalls

/-- `while (parseUntilStateChange(toolCalls)) {}`: the loop goes on as long as the state changes. -/
def parseBody (s : Impl × List ToolCall) : (Impl × List ToolCall) ⊕ (Impl × List ToolCall) :=
  if (advance rj ids types s.1 s.2).1.currentState = s.1.currentState then .inr (advance rj ids types s.1 s.2)
  else .inl (advance rj ids types s.1 s.2)

/-- Each state change reads a tag. -/
def remaining (p : Impl) : Nat := p.streamContent.length - p.lastProcessedPosition

def append (p : Impl) (chunk : Str) : Impl := { p with streamContent := p.streamContent ++ chunk }

def parseAll (p : Impl) : Impl × List ToolCall := Loop.run (parseBody rj ids types) (p.remaining + 1) (p, []) (p, [])

def parseChunk (p : Impl) (chunk : Str) : Option (List ToolCall) × Impl :=
  if chunk.isEmpty then (none, p)
  else
    let parsed := (p.append chunk).parseAll rj ids types
    (orNullopt parsed.2, parsed.1)

def getCurrentFunctionName (p : Impl) : Option Str :=
  if p.currentFunction.name.isEmpty then none else some p.currentFunction.name

def generateRandomId (p : Impl) : Str × Impl := (ids.draw p.drawnIds, { p with drawnIds := p.drawnIds + 1 })

end Impl

/-- `OnyxToolParserImpl` inside of the parser. -/
def streamParser (rj : RapidJson) (ids : RandomIds) (types : ToolsParameterTypeMap) : InnerParser Impl where
  parseChunk := Impl.parseChunk rj ids types
  getCurrentFunctionName := Impl.getCurrentFunctionName
  generateRandomId := Impl.generateRandomId ids

section Parser

variable (rj : RapidJson) (ids : RandomIds) (toolSchemas : ToolsSchemas)

/-- Always the arguments alone, under the current index. -/
def sendFullDelta (p : StreamedToolParser Impl) (toolCalls : List ToolCall) : Except String (Option Delta × StreamedToolParser Impl) :=
  StreamedToolParser.sendFullDelta (streamParser rj ids (createToolsParametersTypesMap toolSchemas)) false
    "For streaming we expected one tool call" p toolCalls

def parseChunk (p : StreamedToolParser Impl) (newChunk : Str) : Except String (Option Delta × StreamedToolParser Impl) :=
  StreamedToolParser.parseChunk (streamParser rj ids (createToolsParametersTypesMap toolSchemas)) false
    "For streaming we expected one tool call" p newChunk

/-- The deltas of a generation from the reset state on. -/
def generation (chunks : List Str) : Except String (List Delta) :=
  StreamedToolParser.parseChunks (streamParser rj ids (createToolsParametersTypesMap toolSchemas)) false
    "For streaming we expected one tool call" ⟨{}, {}⟩ chunks

end Parser

end ModelServer.OnyxToolParser
