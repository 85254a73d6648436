import ModelServer.Delta
import ModelServer.Loop
import ModelServer.RapidJson
import Mathlib.Data.Nat.Find

namespace ModelServer

inductive ParameterType
  | string
  | number
  | boolean
  | array
  | object
  | unknown
deriving DecidableEq

/-- Parameter name to parameter type; the first entry of a name counts, as with `emplace`. -/
abbrev ParametersTypeMap := List (Str × ParameterType)

/-- Tool name to the types of its parameters. -/
abbrev ToolsParameterTypeMap := List (Str × ParametersTypeMap)

structure ToolSchemaWrapper where
  rapidjsonRepr : Json
  stringRepr : Str

abbrev ToolsSchemas := List (Str × ToolSchemaWrapper)

/-- Maps each declared parameter name to its type from the tool's JSON schema. -/
def parseToolSchema (schema : Json) : ParametersTypeMap :=
  match schema.member? (bytes "properties") with
  | some (.obj properties) =>
    properties.filterMap fun (paramName, value) =>
      match value.member? (bytes "type") with
      | some (.str typeStr) =>
        some (cStr paramName,
          if cStr typeStr = bytes "string" then .string
          else if cStr typeStr = bytes "number" ∨ cStr typeStr = bytes "integer" then .number
          else if cStr typeStr = bytes "boolean" then .boolean
          else if cStr typeStr = bytes "array" then .array
          else if cStr typeStr = bytes "object" then .object
          else .unknown)
      | _ => none
  | _ => []

def createToolsParametersTypesMap (toolsSchemas : ToolsSchemas) : ToolsParameterTypeMap :=
  toolsSchemas.map fun (toolName, wrapper) => (toolName, parseToolSchema wrapper.rapidjsonRepr)

def normalizeBooleanString (value : Str) : Str :=
  if value = bytes "True" ∨ value = bytes "TRUE" then bytes "true"
  else if value = bytes "False" ∨ value = bytes "FALSE" then bytes "false"
  else value

/-- A function call under construction. -/
structure Functool where
  name : Str := []
  invalidTypedArgument : Bool := false
  argumentsAsDocument : List (Str × Json) := []
  /-- Original JSON text for numbers, arrays and objects. -/
  exactJsonMembers : List (Str × Str) := []

namespace Functool

/-- `HasMember` on the arguments. -/
def hasMember (f : Functool) (key : Str) : Bool := f.argumentsAsDocument.any (·.1 == key)

def addMember (f : Functool) (key : Str) (value : Json) : Functool :=
  { f with argumentsAsDocument := f.argumentsAsDocument ++ [(key, value)] }

def invalidate (f : Functool) : Functool := { f with invalidTypedArgument := true }

/-- The SAX calls by which one argument is written. -/
def memberEvents (f : Functool) (member : Str × Json) : List Json.Event :=
  .key member.1 ::
    match f.exactJsonMembers.lookup (cStr member.1) with
    | some raw => [.raw raw]
    | none => member.2.events

/-- The text of the arguments object. -/
def argumentsAsString (rj : RapidJson) (f : Functool) : Str :=
  cStr (rj.write
    (.startObject :: (f.argumentsAsDocument.flatMap f.memberEvents ++ [.endObject])))

end Functool

def expectedParameterType (types : ToolsParameterTypeMap) (function parameter : Str) :
    ParameterType :=
  ((types.lookup function).bind fun parameters => parameters.lookup parameter).getD .unknown

/-- Whether an exact spelling may stand for a value of this type. -/
def spellingOk (expectedType : ParameterType) (exact : Str) : Bool :=
  match exact with
  | [] => false
  | first :: _ =>
    match expectedType with
    | .number => first == char '-' || isdigit first
    | .array => first == char '['
    | .object => first == char '\x7b'
    | .unknown => first == char '-' || isdigit first || first == char '[' || first == char '\x7b'
    | _ => false

def valueMatches (expectedType : ParameterType) (value : Json) : Bool :=
  match expectedType with
  | .number => value.isNumber
  | .boolean => value.isBool
  | .array => value.isArray
  | .object => value.isObject
  | _ => true

/-- The DOM branch: the value is parsed, and an untyped one that does not parse is a string. -/
def addParsedParameter (rj : RapidJson) (f : Functool) (expectedType : ParameterType)
    (key value : Str) : Functool :=
  let value := if expectedType = .boolean then normalizeBooleanString value else value
  match rj.document value with
  | some parsed => if valueMatches expectedType parsed then f.addMember key parsed else f.invalidate
  | none => if expectedType = .unknown then f.addMember key (.str value) else f.invalidate

def addParameterToCurrentFunctionDoc (rj : RapidJson) (types : ToolsParameterTypeMap)
    (f : Functool) (key parameterValueAsString : Str) : Functool :=
  let value := trimNewline parameterValueAsString
  let expectedType := expectedParameterType types f.name key
  if key.contains 0 || value.contains 0 then f.invalidate
  else if f.hasMember key then f.invalidate
  else if expectedType = .string then f.addMember key (.str (trimSurroundingQuotes value))
  else if expectedType = .boolean then addParsedParameter rj f expectedType key value
  else
    match (rj.normalizeJsonLosslessly value).filter (spellingOk expectedType) with
    | some exact =>
      -- only a placeholder goes into the DOM: the text is written from the exact spelling
      { f.addMember key .null with exactJsonMembers := f.exactJsonMembers ++ [(key, exact)] }
    | none =>
      if expectedType = .unknown then addParsedParameter rj f expectedType key value
      else f.invalidate

namespace Qwen3CoderToolParser

def TOOL_START_TAG : Str := bytes "<tool_call>"
def FUNCTION_NAME_TAG : Str := bytes "<function="
def XML_TAG_END : Str := bytes ">"
def PARAMETER_NAME_TAG : Str := bytes "<parameter="
def PARAMETER_END_TAG : Str := bytes "</parameter>"
def FUNCTION_END_TAG : Str := bytes "</function>"
def TOOL_END_TAG : Str := bytes "</tool_call>"

/-- `Qwen3CoderToolParserImpl::State`. -/
inductive State
  | content
  | insideToolCall
  | insideFunctionName
  | insideFunction
  | insideParameterName
  | insideParameter
  | afterFunction
deriving DecidableEq

/-- Stacks of positions, the top first. -/
structure ToolCallPositions where
  begins : List Nat := []
  ends : List Nat := []

/-- `Qwen3CoderToolParserImpl`. -/
structure Impl where
  currentState : State := .content
  currentFunction : Functool := {}
  currentParameterName : Str := []
  streamContent : Str := []
  lastProcessedPosition : Nat := 0
  toolCallPositions : ToolCallPositions := {}
  /-- How often `generateRandomId` has been called. -/
  drawnIds : Nat := 0

namespace Impl

variable (rj : RapidJson) (ids : RandomIds) (types : ToolsParameterTypeMap)

def pushBegin (p : Impl) (position : Nat) : Impl :=
  { p with toolCallPositions :=
      { p.toolCallPositions with begins := position :: p.toolCallPositions.begins } }

def pushEnd (p : Impl) (position : Nat) : Impl :=
  { p with toolCallPositions :=
      { p.toolCallPositions with ends := position :: p.toolCallPositions.ends } }

/-- A transport marker ended the call early. -/
def abort (p : Impl) (position : Nat) : Impl :=
  { p.pushEnd position with
    lastProcessedPosition := position
    currentFunction := {}
    currentParameterName := []
    currentState := .content }

def openToolCall (p : Impl) (posTool : Nat) : Impl :=
  { p.pushBegin posTool with
    lastProcessedPosition := posTool + TOOL_START_TAG.length
    currentState := .insideToolCall }

/-- `<function=` without `<tool_call>` before it. -/
def openBareFunction (p : Impl) (posFunc : Nat) : Impl :=
  { p.pushBegin posFunc with
    lastProcessedPosition := posFunc + FUNCTION_NAME_TAG.length
    currentState := .insideFunctionName }

def openFunction (p : Impl) (pos : Nat) : Impl :=
  { p with
    lastProcessedPosition := pos + FUNCTION_NAME_TAG.length
    currentState := .insideFunctionName }

/-- The text from the last processed position up to `pos`. -/
def upTo (p : Impl) (pos : Nat) : Str :=
  substr p.streamContent p.lastProcessedPosition (pos - p.lastProcessedPosition)

def nameFunction (p : Impl) (pos : Nat) : Impl :=
  { p with
    currentFunction := { p.currentFunction with name := trimSurroundingQuotes (p.upTo pos) }
    lastProcessedPosition := pos + XML_TAG_END.length
    currentState := .insideFunction }

def openParameter (p : Impl) (paramStart : Nat) : Impl :=
  { p with
    lastProcessedPosition := paramStart + PARAMETER_NAME_TAG.length
    currentState := .insideParameterName }

def closeFunction (p : Impl) (funcEnd : Nat) : Impl :=
  { p with
    lastProcessedPosition := funcEnd + FUNCTION_END_TAG.length
    currentState := .afterFunction }

def nameParameter (p : Impl) (pos : Nat) : Impl :=
  { p with
    currentParameterName := trimSurroundingQuotes (p.upTo pos)
    lastProcessedPosition := pos + XML_TAG_END.length
    currentState := .insideParameter }

def closeParameter (p : Impl) (pos : Nat) : Impl :=
  { p with
    currentFunction := addParameterToCurrentFunctionDoc rj types p.currentFunction
      p.currentParameterName (p.upTo pos)
    lastProcessedPosition := pos + PARAMETER_END_TAG.length
    currentState := .insideFunction }

/-- The call of the current function, unless one of its arguments was invalid. -/
def completedCall (p : Impl) : List ToolCall :=
  if p.currentFunction.invalidTypedArgument then []
  else [⟨ids.draw p.drawnIds, p.currentFunction.name, p.currentFunction.argumentsAsString rj⟩]

def closeToolCall (p : Impl) (pos : Nat) : Impl :=
  { p.pushEnd (pos + TOOL_END_TAG.length) with
    lastProcessedPosition := pos + TOOL_END_TAG.length
    currentState := .content
    drawnIds := if p.currentFunction.invalidTypedArgument then p.drawnIds else p.drawnIds + 1
    currentFunction := {} }

section Actions

variable (p : Impl) (k : Nat)

@[simp] theorem abort_state : (p.abort k).currentState = .content := rfl
@[simp] theorem openToolCall_state : (p.openToolCall k).currentState = .insideToolCall := rfl
@[simp] theorem openBareFunction_state :
    (p.openBareFunction k).currentState = .insideFunctionName := rfl
@[simp] theorem openFunction_state : (p.openFunction k).currentState = .insideFunctionName := rfl
@[simp] theorem nameFunction_state : (p.nameFunction k).currentState = .insideFunction := rfl
@[simp] theorem openParameter_state : (p.openParameter k).currentState = .insideParameterName := rfl
@[simp] theorem closeFunction_state : (p.closeFunction k).currentState = .afterFunction := rfl
@[simp] theorem nameParameter_state : (p.nameParameter k).currentState = .insideParameter := rfl
@[simp] theorem closeParameter_state :
    (p.closeParameter rj types k).currentState = .insideFunction := rfl
@[simp] theorem closeToolCall_state : (p.closeToolCall k).currentState = .content := rfl

end Actions

/-- `streamContent.find(tag, lastProcessedPosition)`. -/
def find (p : Impl) (tag : Str) : Option Nat :=
  ModelServer.find p.streamContent tag p.lastProcessedPosition

/-- The delimiter that ends the current state. -/
def expected (p : Impl) : Option Nat :=
  match p.currentState with
  | .insideToolCall => p.find FUNCTION_NAME_TAG
  | .insideFunctionName => p.find XML_TAG_END
  | .insideParameterName => p.find XML_TAG_END
  | .insideFunction => posMin (p.find PARAMETER_NAME_TAG) (p.find FUNCTION_END_TAG)
  | .insideParameter => p.find PARAMETER_END_TAG
  | .afterFunction => p.find TOOL_END_TAG
  | .content => none

/-- Transport markers are reserved boundaries: where one comes before the
expected delimiter, the call ends there. -/
def abortPosition (p : Impl) : Option Nat :=
  let close := p.find TOOL_END_TAG
  let start := p.find TOOL_START_TAG
  if p.currentState = .content then none
  else if posLt close p.expected || posLt start p.expected then
    if posLt close start then close.map (· + TOOL_END_TAG.length) else start
  else none

/-- The `switch` over the current state. -/
def advance (p : Impl) (toolCalls : List ToolCall) : Impl × List ToolCall :=
  match p.currentState with
  | .content =>
    let posTool := p.find TOOL_START_TAG
    let posFunc := p.find FUNCTION_NAME_TAG
    if posFunc.isNone && posTool.isNone then (p, toolCalls)
    else if posLt posTool posFunc then (p.openToolCall (posTool.getD 0), toolCalls)
    else (p.openBareFunction (posFunc.getD 0), toolCalls)
  | .insideToolCall =>
    match p.find FUNCTION_NAME_TAG with
    | none => (p, toolCalls)
    | some pos => (p.openFunction pos, toolCalls)
  | .insideFunctionName =>
    match p.find XML_TAG_END with
    | none => (p, toolCalls)
    | some pos => (p.nameFunction pos, toolCalls)
  | .insideFunction =>
    let funcEnd := p.find FUNCTION_END_TAG
    let paramStart := p.find PARAMETER_NAME_TAG
    if funcEnd.isNone && paramStart.isNone then (p, toolCalls)
    else if posLt paramStart funcEnd then (p.openParameter (paramStart.getD 0), toolCalls)
    else (p.closeFunction (funcEnd.getD 0), toolCalls)
  | .insideParameterName =>
    match p.find XML_TAG_END with
    | none => (p, toolCalls)
    | some pos => (p.nameParameter pos, toolCalls)
  | .insideParameter =>
    match p.find PARAMETER_END_TAG with
    | none => (p, toolCalls)
    | some pos => (p.closeParameter rj types pos, toolCalls)
  | .afterFunction =>
    match p.find TOOL_END_TAG with
    | none => (p, toolCalls)
    | some pos => (p.closeToolCall pos, toolCalls ++ p.completedCall rj ids)

/-- Processes the content until the state changes; `false` means no more changes are possible. -/
def parseUntilStateChange (p : Impl) (toolCalls : List ToolCall) : Bool × Impl × List ToolCall :=
  match p.abortPosition with
  | some position => (true, p.abort position, toolCalls)
  | none =>
    let (q, toolCalls) := p.advance rj ids types toolCalls
    (p.currentState != q.currentState, q, toolCalls)

/-- `while (parseUntilStateChange(toolCalls)) {}`. -/
def parseBody (s : Impl × List ToolCall) : (Impl × List ToolCall) ⊕ (Impl × List ToolCall) :=
  match parseUntilStateChange rj ids types s.1 s.2 with
  | (true, t) => .inl t
  | (false, t) => .inr t

/-- Unread text, and a state still to be left, bound the state changes. -/
def remaining (p : Impl) : Nat :=
  2 * (p.streamContent.length - p.lastProcessedPosition) + (if p.currentState = .content then 0 else 1)

def parseAll (p : Impl) : Impl × List ToolCall :=
  Loop.run (parseBody rj ids types) (p.remaining + 1) (p, []) (p, [])

def append (p : Impl) (chunk : Str) : Impl := { p with streamContent := p.streamContent ++ chunk }

/-- `std::nullopt` for no calls. -/
def orNullopt {α : Type} (calls : List α) : Option (List α) :=
  if calls.isEmpty then none else some calls

@[simp] theorem orNullopt_getD {α : Type} (calls : List α) : (orNullopt calls).getD [] = calls := by
  cases calls <;> rfl

theorem orNullopt_map {α β : Type} (f : α → β) (calls : List α) :
    (orNullopt calls).map (List.map f) = orNullopt (calls.map f) := by
  cases calls <;> rfl

def parseChunk (p : Impl) (chunk : Str) : Option (List ToolCall) × Impl :=
  if chunk.isEmpty then (none, p)
  else
    let (p, toolCalls) := (p.append chunk).parseAll rj ids types
    (orNullopt toolCalls, p)

/-- Resets everything except the positions and the random ids. -/
def resetParsingState (p : Impl) : Impl :=
  { p with
    currentState := .content
    currentFunction := {}
    currentParameterName := []
    streamContent := []
    lastProcessedPosition := 0 }

def reset (p : Impl) : Impl := { p.resetParsingState with toolCallPositions := {} }

/-- At a natural stop, a complete function that misses only `</tool_call>` is recovered. -/
def finalizeOnGenerationEnd (p : Impl) : Option (List ToolCall) × Impl :=
  if p.currentState ≠ .afterFunction then (none, p.resetParsingState)
  else
    let (q, recovered) := (p.append TOOL_END_TAG).parseAll rj ids types
    (orNullopt recovered, q.resetParsingState)

end Impl

/-- What the parser is built over; `validateQwenXmlToolArguments` takes a schema and an arguments text. -/
structure Environment where
  rapidJson : RapidJson
  randomIds : RandomIds
  toolSchemas : ToolsSchemas
  validateQwenXmlToolArguments : Str → Str → Bool

structure Parser where
  streamParser : Impl := {}
  toolCallIndex : Int := -1
  pendingDeltas : List Delta := []
  publishedCallIds : List Str := []

namespace Parser

variable (env : Environment)

def isRegisteredToolName (name : Str) : Bool := (env.toolSchemas.lookup name).isSome

def hasValidArguments (toolCall : ToolCall) : Bool :=
  match env.toolSchemas.lookup toolCall.name with
  | some wrapper => env.validateQwenXmlToolArguments wrapper.stringRepr toolCall.arguments
  | none => false

/-- `while (!publishedCallIds.insert(id).second) id = generateRandomId();` with the number of ids drawn. -/
def freshId (published : List Str) (id : Str) (drawn : Nat) : Str × Nat :=
  if id ∉ published then (id, drawn)
  else
    let n := Nat.find (env.randomIds.fresh published drawn)
    (env.randomIds.draw n, n + 1)

/-- The two deltas of one call: its header and its full arguments. -/
def fullDeltas (index : Int) (toolCall : ToolCall) : List Delta :=
  [.toolCall ⟨index, some toolCall.id, some toolCall.name, []⟩,
    .toolCall ⟨index, none, none, toolCall.arguments⟩]

def queueFullDelta (p : Parser) (toolCall : ToolCall) : Parser :=
  if !isRegisteredToolName env toolCall.name then p
  else if !hasValidArguments env toolCall then p
  else
    let (id, drawn) := freshId env p.publishedCallIds toolCall.id p.streamParser.drawnIds
    { streamParser := { p.streamParser with drawnIds := drawn }
      toolCallIndex := p.toolCallIndex + 1
      pendingDeltas := p.pendingDeltas ++ fullDeltas (p.toolCallIndex + 1) { toolCall with id := id }
      publishedCallIds := p.publishedCallIds ++ [id] }

def queueFullDeltas (p : Parser) (toolCalls : List ToolCall) : Parser :=
  toolCalls.foldl (queueFullDelta env) p

def takeQueuedDelta (p : Parser) : Option Delta × Parser :=
  (p.pendingDeltas.head?, { p with pendingDeltas := p.pendingDeltas.tail })

def drainPendingDelta (p : Parser) : Option Delta × Parser := p.takeQueuedDelta

/-- The calls a chunk completes are queued. -/
def receive (p : Parser) (newChunk : Str) : Parser :=
  let (completed, streamParser) := p.streamParser.parseChunk env.rapidJson env.randomIds
    (createToolsParametersTypesMap env.toolSchemas) newChunk
  ({ p with streamParser := streamParser } : Parser).queueFullDeltas env (completed.getD [])

/-- The call a natural stop recovers is queued. -/
def recover (p : Parser) : Parser :=
  let (recovered, streamParser) := p.streamParser.finalizeOnGenerationEnd env.rapidJson env.randomIds
    (createToolsParametersTypesMap env.toolSchemas)
  ({ p with streamParser := streamParser } : Parser).queueFullDeltas env (recovered.getD [])

/-- Only a natural stop recovers a call. -/
def consume (p : Parser) (newChunk : Str) (finishReason : FinishReason) : Parser :=
  let p := if newChunk.isEmpty then p else p.receive env newChunk
  if finishReason = .stop then p.recover env else p

def parseChunk (p : Parser) (newChunk : Str) (finishReason : FinishReason) : Option Delta × Parser :=
  (p.consume env newChunk finishReason).takeQueuedDelta

def resetState (p : Parser) : Parser := { streamParser := p.streamParser.reset }

end Parser

end Qwen3CoderToolParser

end ModelServer
