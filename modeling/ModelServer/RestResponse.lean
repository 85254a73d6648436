import ModelServer.KServe
import ModelServer.RawContents

namespace ModelServer.RestResponse

open KServe
open RawContents (toInt32 parseOutputDataString Outcome)

/-- `inference::ModelInferResponse`: a repeated field counts with an `int`, and a string with a `size_t`. -/
structure ModelInferResponse where
  model_name : Str := []
  model_version : Str := []
  id : Str := []
  parameters : List (Str × InferParameter) := []
  outputs : List InferTensor := []
  raw_output_contents : List Str := []
  counted : ∀ tensor ∈ outputs, ∀ datatype : Datatype, (datatype.field tensor.contents).length < 2 ^ 31
  sized : ∀ content ∈ raw_output_contents, content.length < 2 ^ 64

/-- The calls of a `PrettyWriter`. -/
inductive Call
  | startObject
  | endObject
  | startArray
  | endArray
  | key (name : Str)
  | string (s : Str)
  | bool (b : Bool)
  | number (n : Int)
  /-- `Double`, for a number that is finite. -/
  | real (x : Value)
  /-- `Double`, for a number that is not: it is refused after what separates it from the one before. -/
  | refused
deriving DecidableEq

/-- What the conversion fails with. -/
inductive RestError
  | valFieldInvalidSize (expected actual : Nat)
  | tensorContentInvalidSize (expected actual : Nat)
  | unsupportedPrecision (datatype : Str)
  | internalError
  | protoToStringError
  /-- The source reads outside of a buffer. -/
  | outOfBounds
deriving DecidableEq

namespace RestError

def details : RestError → String
  | valFieldInvalidSize expected actual => s!"Expected val field elements number: {expected}; actual: {actual}"
  | tensorContentInvalidSize expected actual => s!"Expected raw output content size: {expected}; actual: {actual}"
  | unsupportedPrecision datatype => "Unsupported precision" ++ String.ofList (datatype.map fun c => Char.ofNat c.toNat)
  | internalError => ""
  | protoToStringError => ""
  | outOfBounds => ""

end RestError

section Elements

/-- Neither NaN nor an infinity: some bit of the exponent is zero. -/
def isFinite : Value → Bool
  | .single pattern => pattern / 2 ^ 23 % 2 ^ 8 ≠ 2 ^ 8 - 1
  | .double pattern => pattern / 2 ^ 52 % 2 ^ 11 ≠ 2 ^ 11 - 1
  | _ => true

/-- `writer.WRITER_TYPE(number)`. -/
def write : Value → Call
  | .boolean b => .bool b
  | .integer n => .number n
  | .text s => .string s
  | x => if isFinite x then .real x else .refused

/-- The element that a JSON value is, if it is one. -/
def Call.value? : Call → Option Value
  | .bool b => some (.boolean b)
  | .number n => some (.integer n)
  | .string s => some (.text s)
  | .real x => some x
  | _ => none

def checkValField (valFieldSize expectedElementsNumber : Nat) : Except RestError Unit :=
  if valFieldSize ≠ expectedElementsNumber then .error (.valFieldInvalidSize expectedElementsNumber valFieldSize) else .ok ()

/-- `PARSE_OUTPUT_DATA`: what is written as data, and what is appended to the binary buffer. The elements of a raw content are
read at the multiples of their size. -/
def parseOutputData (datatype : Datatype) (contents : InferTensorContents) (content : Option Str) (binaryOutput : Bool)
    (expectedElementsNumber expectedContentSize : Nat) : Except RestError (List Call × Str) :=
  match content with
  | none => do
    checkValField (datatype.field contents).length expectedElementsNumber
    if binaryOutput then
      return ([], (WordArrays.memory datatype.fieldSize (datatype.field contents)).take expectedContentSize)
    else return ((datatype.field contents).map fun word => write (datatype.valueOf datatype.fieldSize word), [])
  | some content =>
    if binaryOutput then return ([], content.take expectedContentSize)
    else
      return ((WordArrays.read datatype.size ((content.length + datatype.size - 1) / datatype.size) content).map
        fun word => write (datatype.valueOf datatype.size word), [])

/-- A string after its length; a length that no `uint32_t` holds wraps around. -/
def appendSentence (sentence : Str) : Str :=
  LengthPrefixed.header 4 (sentence.length % 2 ^ 32) ++ sentence.take (sentence.length % 2 ^ 32)

/-- `PARSE_OUTPUT_DATA_STRING`, with `expectedContentSize` at its end. -/
def parseOutputDataOfStrings (contents : InferTensorContents) (content : Option Str) (binaryOutput : Bool) :
    Except RestError (List Call × Str × Nat) :=
  match content with
  | none =>
    if binaryOutput then
      return ([], contents.bytes_contents.flatMap appendSentence,
        (contents.bytes_contents.map fun sentence => (sentence.length + 4) % 2 ^ 32).sum % 2 ^ 64)
    else return (contents.bytes_contents.map fun sentence => write (.text sentence), [], 0)
  | some content =>
    if binaryOutput then return ([], content, content.length)
    else
      match parseOutputDataString content with
      | .accepts sentences => return (sentences.map fun sentence => write (.text sentence), [], 0)
      | .rejects => .error .internalError
      | .outOfBounds => .error .outOfBounds

end Elements

section Outputs

/-- The JSON object of an output: what is written of it. -/
structure OutputObject where
  name : Str
  shape : List Int
  datatype : Str
  /-- Nothing for an output that was requested as binary. -/
  data : Option (List Call)
  parameters : List (Str × Option Call)
deriving DecidableEq

/-- A parameter that is not set is written as a key alone. -/
def parameterCall : InferParameter → Option Call
  | .boolParam b => some (.bool b)
  | .int64Param n => some (.number (Int.bmod n.toInt (2 ^ 32)))
  | .stringParam s => some (.string (cStr s))
  | .notSet => none

def parametersCalls (parameters : List (Str × Option Call)) : List Call :=
  if parameters.isEmpty then []
  else Call.key (bytes "parameters") :: .startObject :: (parameters.flatMap fun p => Call.key p.1 :: p.2.toList) ++ [Call.endObject]

namespace OutputObject

/-- The calls that write the object, in their order. -/
def calls (object : OutputObject) : List Call :=
  Call.startObject :: .key (bytes "name") :: .string object.name :: .key (bytes "shape") :: .startArray ::
    object.shape.map .number ++ [Call.endArray, .key (bytes "datatype"), .string object.datatype] ++
    (match object.data with
      | some data => Call.key (bytes "data") :: .startArray :: data ++ [Call.endArray]
      | none => []) ++ parametersCalls object.parameters ++ [Call.endObject]

/-- The members called `binary_data_size` of the parameters. -/
def binaryDataSizes (object : OutputObject) : List (Option Call) :=
  (object.parameters.filter fun p => p.1 = bytes "binary_data_size").map Prod.snd

end OutputObject

def ownParameters (parameters : List (Str × InferParameter)) : List (Str × Option Call) :=
  parameters.map fun p => (cStr p.1, parameterCall p.2)

def parseOutputParameters (parameters : List (Str × InferParameter)) (binaryOutputSize : Int) : List (Str × Option Call) :=
  ownParameters parameters ++
    if binaryOutputSize > 0 then [(bytes "binary_data_size", some (.number binaryOutputSize))] else []

/-- A product of `size_t`, into which a dimension is converted. -/
def expectedContentSize (tensor : InferTensor) : Nat :=
  tensor.shape.foldl (fun size dim => size * dim.toNat % 2 ^ 64) (KFSDataTypeSize tensor.datatype)

def expectedElementsNumber (tensor : InferTensor) : Nat :=
  if KFSDataTypeSize tensor.datatype > 0 then expectedContentSize tensor / KFSDataTypeSize tensor.datatype else 0

/-- The data of an output by its datatype: what is written, what is appended, and the expected size of the content. -/
def parseDataByDatatype (tensor : InferTensor) (content : Option Str) (binaryOutput : Bool) :
    Except RestError (List Call × Str × Nat) :=
  match Datatype.ofText tensor.datatype with
  | none | some .FP16 => .error (.unsupportedPrecision tensor.datatype)
  | some .BYTES => parseOutputDataOfStrings tensor.contents content binaryOutput
  | some datatype => do
    let (data, appended) ← parseOutputData datatype tensor.contents content binaryOutput (expectedElementsNumber tensor)
      (expectedContentSize tensor)
    return (data, appended, expectedContentSize tensor)

/-- A raw content has the size of its elements, but for strings. -/
def checkContentSize (tensor : InferTensor) : Option Str → Except RestError Unit
  | none => .ok ()
  | some content =>
    if tensor.datatype ≠ bytes "BYTES" ∧ content.length ≠ expectedContentSize tensor then
      .error (.tensorContentInvalidSize (expectedContentSize tensor) content.length)
    else .ok ()

/-- One turn of the loop over the outputs. -/
def parseOutput (tensor : InferTensor) (content : Option Str) (binaryOutput : Bool) : Except RestError (OutputObject × Str) := do
  checkContentSize tensor content
  let (data, appended, contentSize) ← parseDataByDatatype tensor content binaryOutput
  return (⟨cStr tensor.name, tensor.shape.map fun dim => Int.bmod dim.toInt (2 ^ 32), cStr tensor.datatype,
    if binaryOutput then none else some data,
    parseOutputParameters tensor.parameters (if binaryOutput then toInt32 contentSize else 0)⟩, appended)

/-- The raw content of the next output, where the data is not sought in the contents fields. -/
def nextContent : Option (List Str) → Except RestError (Option Str)
  | none => .ok none
  | some [] => .error .outOfBounds
  | some (content :: _) => .ok (some content)

/-- The objects of the outputs, and the binary buffer. -/
def parseOutputs (binaryOutputsNames : List Str) (contents : Option (List Str)) :
    List InferTensor → Except RestError (List OutputObject × Str)
  | [] => .ok ([], [])
  | tensor :: tensors => do
    let content ← nextContent contents
    let (object, appended) ← parseOutput tensor content (binaryOutputsNames.contains (cStr tensor.name))
    let (objects, buffer) ← parseOutputs binaryOutputsNames (contents.map List.tail) tensors
    return (object :: objects, appended ++ buffer)

end Outputs

section Documents

variable (response : ModelInferResponse)

/-- The raw contents, unless there are none at all. -/
def rawContents : Option (List Str) :=
  if response.raw_output_contents.isEmpty then none else some response.raw_output_contents

/-- The calls that write the whole document. -/
def documentCalls (objects : List OutputObject) : List Call :=
  Call.startObject :: .key (bytes "model_name") :: .string (cStr response.model_name) ::
    (if response.id.length > 0 then [Call.key (bytes "id"), .string (cStr response.id)] else []) ++
    (if response.model_version.length > 0 then [Call.key (bytes "model_version"), .string (cStr response.model_version)] else []) ++
    parametersCalls (ownParameters response.parameters) ++
    Call.key (bytes "outputs") :: .startArray :: objects.flatMap OutputObject.calls ++ [Call.endArray, .endObject]

/-- The text of the document; the buffer is read as a C string. -/
def jsonText (text : List Call → Str) (objects : List OutputObject) : Str := cStr (text (documentCalls response objects))

/-- The response text and the length of the JSON part of it, which is reported where something follows it. -/
def makeJsonFromPredictResponse (text : List Call → Str) (requestedBinaryOutputsNames : List Str) :
    Except RestError (Str × Option Int) := do
  if response.outputs.isEmpty then throw .protoToStringError
  let (objects, binaryOutputsBuffer) ← parseOutputs requestedBinaryOutputsNames (rawContents response) response.outputs
  let json := jsonText response text objects
  return (json ++ binaryOutputsBuffer,
    if binaryOutputsBuffer.length > 0 then some (toInt32 json.length) else none)

end Documents

end ModelServer.RestResponse
