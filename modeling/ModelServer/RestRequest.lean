import ModelServer.KServe
import ModelServer.BinaryFormats

namespace ModelServer.RestRequest

open KServe

section Documents

/-- `float`, in units of the smallest `double`. -/
def binary32 : BinaryFormat := ⟨24, 8, 925, by decide, by decide⟩

def binary64 : BinaryFormat := ⟨53, 11, 0, by decide, by decide⟩

theorem binary32_within : binary32.Within binary64 := ⟨by decide, by decide, by decide⟩

/-- A number as RapidJSON keeps it. -/
inductive Number
  | integer (n : Int) (h : -2 ^ 63 ≤ n ∧ n < 2 ^ 64)
  | double (bits : BitVec 64) (h : binary64.finite bits.toNat)
deriving DecidableEq

/-- `rapidjson::Value`. -/
inductive Node
  | null
  | bool (b : Bool)
  | number (n : Number)
  | string (s : Str)
  | array (elements : List Node)
  | object (members : List (Str × Node))

namespace Number

/-- The number one is `2 ^ 1074` units. -/
def scale : Nat := 1074

/-- The exact value. -/
def units : Number → Int
  | integer n _ => n * 2 ^ scale
  | double bits _ => binary64.value bits.toNat

/-- `GetDouble`. -/
def getDouble : Number → Nat
  | integer n _ => binary64.ofInt scale n
  | double bits _ => bits.toNat

/-- `GetFloat`. -/
def getFloat (n : Number) : Nat := binary64.convert binary32 n.getDouble

end Number

namespace Node

def isArray : Node → Bool
  | array _ => true
  | _ => false

/-- `GetInt` of what `IsInt`. -/
def int? : Node → Option Int
  | number (.integer n _) => if -2 ^ 31 ≤ n ∧ n < 2 ^ 31 then some n else none
  | _ => none

/-- `GetUint` of what `IsUint`. -/
def uint? : Node → Option Int
  | number (.integer n _) => if 0 ≤ n ∧ n < 2 ^ 32 then some n else none
  | _ => none

/-- `GetFloat` of what `IsNumber`. -/
def float? : Node → Option Nat
  | number n => some n.getFloat
  | _ => none

def bool? : Node → Option Bool
  | bool b => some b
  | _ => none

/-- `GetString`, from which a string is constructed, of what `IsString`. -/
def string? : Node → Option Str
  | string s => some (cStr s)
  | _ => none

end Node

/-- What a handler of a `Reader` is called with. -/
inductive Sax
  | start
  | finish
  | scalar
deriving DecidableEq

namespace Node

mutual

/-- The calls for a value; a key is a scalar. -/
def sax : Node → List Sax
  | array elements => .start :: (elementsSax elements ++ [.finish])
  | object members => .start :: (membersSax members ++ [.finish])
  | _ => [.scalar]

def elementsSax : List Node → List Sax
  | [] => []
  | value :: values => sax value ++ elementsSax values

def membersSax : List (Str × Node) → List Sax
  | [] => []
  | (_, value) :: members => .scalar :: (sax value ++ membersSax members)

end

mutual

/-- How deep arrays and objects are nested. -/
def depth : Node → Nat
  | array elements => elementsDepth elements + 1
  | object members => membersDepth members + 1
  | _ => 0

def elementsDepth : List Node → Nat
  | [] => 0
  | value :: values => max (depth value) (elementsDepth values)

def membersDepth : List (Str × Node) → Nat
  | [] => 0
  | (_, value) :: members => max (depth value) (membersDepth members)

end

end Node

/-- RapidJSON, which is not part of the repository. -/
structure Reader where
  /-- The calls up to the end of a text or to an error, and whether there is none. -/
  sax : Str → List Sax × Bool
  /-- `Document::Parse`. -/
  document : Str → Option Node
  /-- A document is what a handler makes of the calls. -/
  reads : ∀ text node, document text = some node → sax text = (node.sax, true)

end Documents

section Parser

/-- The status codes of the parser, but for `OK`. -/
inductive Status
  | jsonNestingDepthExceeded
  | jsonInvalid
  | restBodyIsNotAnObject
  | restCouldNotParseInput
  | restCouldNotParseOutput
  | restCouldNotParseParameters
  | restUnsupportedPrecision
  | restNoInputsFound
deriving DecidableEq

/-- `ModelInferRequest::InferRequestedOutputTensor`. -/
structure RequestedOutput where
  name : Str
  parameters : List (Str × InferParameter) := []
deriving DecidableEq

/-- `inference::ModelInferRequest`, as far as a body sets it. -/
structure ModelInferRequest where
  id : Str := []
  parameters : List (Str × InferParameter) := []
  inputs : List InferTensor := []
  outputs : List RequestedOutput := []
deriving DecidableEq

def MAX_NESTING_DEPTH : Nat := 100

/-- `DepthOnlyHandler`: whether it accepts the calls. -/
def depthOnly (maxDepth : Nat) : Nat → List Sax → Bool
  | _, [] => true
  | depth, .start :: calls => if depth + 1 > maxDepth then false else depthOnly maxDepth (depth + 1) calls
  | depth, .finish :: calls => depthOnly maxDepth (depth - 1) calls
  | depth, .scalar :: calls => depthOnly maxDepth depth calls

def parseJsonWithDepthLimit (reader : Reader) (json : Str) (maxDepth : Nat) : Except Status Node :=
  if ¬depthOnly maxDepth 0 (reader.sax json).1 then .error .jsonNestingDepthExceeded
  else if ¬(reader.sax json).2 then .error .jsonInvalid
  else
    match reader.document json with
    | some doc => .ok doc
    | none => .error .jsonInvalid

def parseId (node : Node) (request : ModelInferRequest) : Except Status ModelInferRequest :=
  match node.string? with
  | some id => .ok { request with id := id }
  | none => .error .restCouldNotParseInput

/-- `operator[]` of a map, and an assignment. -/
def setParameter (name : Str) (parameter : InferParameter) : List (Str × InferParameter) → List (Str × InferParameter)
  | [] => [(name, parameter)]
  | entry :: entries => if entry.1 = name then (name, parameter) :: entries else entry :: setParameter name parameter entries

/-- The value of a parameter. -/
def parameter? : Node → Option InferParameter
  | .string s => some (.stringParam (cStr s))
  | .bool b => some (.boolParam b)
  | node => node.int?.map fun n => .int64Param (BitVec.ofInt 64 n)

/-- The loop of `PARSE_PARAMETER`. -/
def parseParameters : List (Str × Node) → List (Str × InferParameter) → Except Status (List (Str × InferParameter))
  | [], parameters => .ok parameters
  | (name, value) :: members, parameters =>
    match parameter? value with
    | some parameter => parseParameters members (setParameter (cStr name) parameter parameters)
    | none => .error .restCouldNotParseParameters

/-- `PARSE_PARAMETER`. -/
def parseParameterObject (node : Node) (parameters : List (Str × InferParameter)) : Except Status (List (Str × InferParameter)) :=
  match node with
  | .object members => parseParameters members parameters
  | _ => .error .restCouldNotParseParameters

def parseRequestParameters (node : Node) (request : ModelInferRequest) : Except Status ModelInferRequest := do
  return { request with parameters := ← parseParameterObject node request.parameters }

/-- A member that has to be a string. -/
def stringMember (members : List (Str × Node)) (name : String) : Option Str :=
  (members.lookup (bytes name)).bind Node.string?

/-- The parameters of an input or of an output, of which there may be none. -/
def parseOwnParameters (members : List (Str × Node)) : Except Status (List (Str × InferParameter)) :=
  match members.lookup (bytes "parameters") with
  | some node => parseParameterObject node []
  | none => .ok []

/-- An output is requested; those that were requested before are cleared. -/
def parseOutput (node : Node) (request : ModelInferRequest) : Except Status ModelInferRequest :=
  match node with
  | .object members =>
    match stringMember members "name" with
    | some name => do
      let parameters ← parseOwnParameters members
      return { request with outputs := [⟨name, parameters⟩] }
    | none => .error .restCouldNotParseOutput
  | _ => .error .restCouldNotParseOutput

def parseOutputs (node : Node) (request : ModelInferRequest) : Except Status ModelInferRequest :=
  match node with
  | .array outputs => outputs.foldlM (fun request output => parseOutput output request) request
  | _ => .error .restCouldNotParseInput

/-- What `HANDLE_VALUE` adds for a datatype, from what passes its check. -/
def addElement (datatype : Datatype) (contents : InferTensorContents) (value : Node) : Option InferTensorContents :=
  match datatype with
  | .FP32 => value.float?.map fun x => { contents with fp32_contents := contents.fp32_contents ++ [BitVec.ofNat 32 x] }
  | .INT64 => value.int?.map fun n => { contents with int64_contents := contents.int64_contents ++ [BitVec.ofInt 64 n] }
  | .INT32 | .INT16 | .INT8 =>
    value.int?.map fun n => { contents with int_contents := contents.int_contents ++ [BitVec.ofInt 32 n] }
  | .UINT64 => value.uint?.map fun n => { contents with uint64_contents := contents.uint64_contents ++ [BitVec.ofInt 64 n] }
  | .UINT32 | .UINT16 | .UINT8 =>
    value.uint?.map fun n => { contents with uint_contents := contents.uint_contents ++ [BitVec.ofInt 32 n] }
  -- a float is added to the doubles
  | .FP64 => value.float?.map fun x =>
    { contents with fp64_contents := contents.fp64_contents ++ [BitVec.ofNat 64 (binary32.convert binary64 x)] }
  | .BOOL => value.bool?.map fun b => { contents with bool_contents := contents.bool_contents ++ [b] }
  | .BYTES => value.string?.map fun s => { contents with bytes_contents := contents.bytes_contents ++ [s] }
  | .FP16 => none

/-- The datatypes of which data is handled. -/
def dataDatatype (datatype : Str) : Option Datatype := (Datatype.ofText datatype).filter (· ≠ .FP16)

mutual

def parseData (datatype : Str) : Node → InferTensorContents → Except Status InferTensorContents
  | .array values, contents =>
    match dataDatatype datatype with
    | some handled => handleValues datatype handled values contents
    | none => .error .restUnsupportedPrecision
  | _, _ => .error .restCouldNotParseInput

/-- `HANDLE_VALUE`. -/
def handleValues (datatype : Str) (handled : Datatype) : List Node → InferTensorContents → Except Status InferTensorContents
  | [], contents => .ok contents
  | value :: values, contents => do
    let added ←
      if value.isArray then parseData datatype value contents
      else
        match addElement handled contents value with
        | some added => .ok added
        | none => .error .restCouldNotParseInput
    handleValues datatype handled values added

end

def binaryDataSizeCanBeCalculated (input : InferTensor) (onlyOneInput : Bool) : Except Status Unit :=
  if input.datatype = bytes "BYTES" ∧ (onlyOneInput = false ∨ input.shape ≠ [1]) then .error .restCouldNotParseInput
  else .ok ()

/-- A dimension. -/
def parseDimension (node : Node) : Except Status (BitVec 64) :=
  match node.int? with
  | some dim => if dim < 0 then .error .restCouldNotParseInput else .ok (BitVec.ofInt 64 dim)
  | none => .error .restCouldNotParseInput

/-- The data of an input, if the body has it. -/
def parseInputData (members : List (Str × Node)) (input : InferTensor) (onlyOneInput : Bool) : Except Status InferTensor :=
  match members.lookup (bytes "data") with
  | some data =>
    if data.isArray = false then .error .restCouldNotParseInput
    else if input.datatype = bytes "FP16" ∨ input.datatype = bytes "BF16" then .error .restCouldNotParseInput
    else do
      return { input with contents := ← parseData input.datatype data input.contents }
  | none =>
    if (input.parameters.lookup (bytes "binary_data_size")).isSome then .ok input
    else do
      binaryDataSizeCanBeCalculated input onlyOneInput
      return input

def parseInput (node : Node) (onlyOneInput : Bool) : Except Status InferTensor :=
  match node with
  | .object members =>
    match stringMember members "name", members.lookup (bytes "shape") with
    | some name, some (.array dims) => do
      let shape ← dims.mapM parseDimension
      match stringMember members "datatype" with
      | some datatype =>
        let parameters ← parseOwnParameters members
        parseInputData members ⟨name, datatype, shape, parameters, {}⟩ onlyOneInput
      | none => throw .restCouldNotParseInput
    | _, _ => .error .restCouldNotParseInput
  | _ => .error .restCouldNotParseInput

def parseInputs (node : Node) (request : ModelInferRequest) : Except Status ModelInferRequest :=
  match node with
  | .array [] => .error .restNoInputsFound
  | .array inputs => do
    return { request with inputs := ← inputs.mapM fun input => parseInput input (inputs.length == 1) }
  | _ => .error .restCouldNotParseInput

/-- A section of the body that may be missing. -/
def parseSection (members : List (Str × Node)) (name : String) (parseNode : Node → ModelInferRequest → Except Status ModelInferRequest)
    (request : ModelInferRequest) : Except Status ModelInferRequest :=
  match members.lookup (bytes name) with
  | some node => parseNode node request
  | none => .ok request

/-- `KFSRestParser::parse`, of a parser that was just constructed. -/
def parse (reader : Reader) (json : Str) : Except Status ModelInferRequest := do
  let doc ← parseJsonWithDepthLimit reader json MAX_NESTING_DEPTH
  match doc with
  | .object members =>
    let request ← parseSection members "id" parseId {}
    let request ← parseSection members "parameters" parseRequestParameters request
    let request ← parseSection members "outputs" parseOutputs request
    match members.lookup (bytes "inputs") with
    | some inputs => parseInputs inputs request
    | none => throw .restNoInputsFound
  | _ => throw .restBodyIsNotAnObject

end Parser

end ModelServer.RestRequest
