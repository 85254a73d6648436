import ModelServer.ByteStrings

namespace ModelServer

/-- `ov::genai::GenerationFinishReason`. -/
inductive FinishReason
  | none
  | stop
  | length
  | toolCall
deriving DecidableEq

structure ToolCall where
  id : Str
  name : Str
  arguments : Str
deriving DecidableEq

/-- `ToolCall{}`. -/
def ToolCall.empty : ToolCall := ⟨[], [], []⟩

/-- A tool call without its random id. -/
def ToolCall.invocation (call : ToolCall) : Str × Str := (call.name, call.arguments)

structure ToolCallDelta where
  index : Int
  id : Option Str
  name : Option Str
  arguments : Str
deriving DecidableEq

inductive Delta
  | content (text : Str)
  | reasoning (text : Str)
  | toolCall (call : ToolCallDelta)
  | finish
  | audio (base64 : Str)
deriving DecidableEq

/-- The texts of the content deltas, joined. -/
def contentText : List Delta → Str
  | [] => []
  | .content text :: ds => text ++ contentText ds
  | _ :: ds => contentText ds

/-- The texts of the reasoning deltas, joined. -/
def reasoningText : List Delta → Str
  | [] => []
  | .reasoning text :: ds => text ++ reasoningText ds
  | _ :: ds => reasoningText ds

def toolCallDeltas (ds : List Delta) : List ToolCallDelta :=
  ds.filterMap fun
    | .toolCall call => some call
    | _ => none

@[simp] theorem contentText_append (ds es : List Delta) :
    contentText (ds ++ es) = contentText ds ++ contentText es := by
  induction ds with
  | nil => rfl
  | cons d ds ih => cases d <;> simp [contentText, ih]

@[simp] theorem reasoningText_append (ds es : List Delta) :
    reasoningText (ds ++ es) = reasoningText ds ++ reasoningText es := by
  induction ds with
  | nil => rfl
  | cons d ds ih => cases d <;> simp [reasoningText, ih]

@[simp] theorem toolCallDeltas_append (ds es : List Delta) :
    toolCallDeltas (ds ++ es) = toolCallDeltas ds ++ toolCallDeltas es :=
  List.filterMap_append ..

end ModelServer
