import Mathlib.Algebra.BigOperators.Group.List.Defs
import ModelServer.KServe
import ModelServer.RawContents
import ModelServer.TensorInfo

namespace ModelServer.RequestValidation

open KServe
open RawContents (Outcome toInt32 getRawInputContentsBatchSizeAndWidth)

section Requests

/-- `ModelInferRequest::InferInputTensor`. -/
structure InferInputTensor where
  name : Str
  datatype : Str
  shape : List (BitVec 64)
  /-- Nothing where the message has no contents. -/
  contents : Option InferTensorContents := none

/-- The contents, or the default ones. -/
def InferInputTensor.contentsOrDefault (input : InferInputTensor) : InferTensorContents := input.contents.getD {}

/-- The dimensions, of which a request may have negative ones. -/
def InferInputTensor.dims (input : InferInputTensor) : List Int := input.shape.map BitVec.toInt

/-- `inference::ModelInferRequest`: a repeated field counts with an `int`, and a string with a `size_t`. -/
structure ModelInferRequest where
  inputs : List InferInputTensor
  raw_input_contents : List Str := []
  counted : ∀ input ∈ inputs, ∀ datatype : Datatype, (datatype.field input.contentsOrDefault).length < 2 ^ 31
  sized : ∀ content ∈ raw_input_contents, content.length < 2 ^ 64

inductive Mode
  | FIXED
  | AUTO
deriving DecidableEq

/-- The codes of a request that is not validated. -/
inductive Status
  | invalidNoOfInputs
  | invalidMessageStructure
  | invalidMissingInput
  | invalidShape
  | internalError
  | invalidInputFormat
  | invalidBatchSize
  | invalidStringMaxSizeExceeded
  | invalidNoOfShapeDimensions
  | notImplemented
  | invalidPrecision
  | invalidContentSize
  | invalidValueCount
  /-- The source reads outside of a buffer. -/
  | outOfBounds
deriving DecidableEq

/-- `finalStatus`. -/
inductive FinalStatus
  | OK
  | BATCHSIZE_CHANGE_REQUIRED
  | RESHAPE_REQUIRED
deriving DecidableEq

end Requests

section Precisions

/-- `ovmsPrecisionToKFSPrecision`. -/
def ovmsPrecisionToKFSPrecision : Precision → Str
  | .FP64 => bytes "FP64"
  | .FP32 => bytes "FP32"
  | .FP16 => bytes "FP16"
  | .I64 => bytes "INT64"
  | .I32 => bytes "INT32"
  | .I16 => bytes "INT16"
  | .I8 => bytes "INT8"
  | .U64 => bytes "UINT64"
  | .U32 => bytes "UINT32"
  | .U16 => bytes "UINT16"
  | .U8 => bytes "UINT8"
  | .STRING => bytes "BYTES"
  | .BOOL => bytes "BOOL"
  | _ => bytes "INVALID"

/-- The size of an element of `ovmsPrecisionToIE2Precision`. -/
def elementByteSize : Precision → Nat
  | .FP64 | .I64 | .U64 => 8
  | .FP32 | .I32 | .U32 => 4
  | .FP16 | .BF16 | .I16 | .U16 => 2
  | .I8 | .U8 | .BOOL | .I4 | .U4 | .U1 => 1
  | .STRING => 32
  | .CUSTOM | .UNDEFINED | .DYNAMIC | .MIXED | .Q78 | .BIN => 0

/-- `getElementsCount`. -/
def getElementsCount (contents : InferTensorContents) : Precision → Nat
  | .BOOL => contents.bool_contents.length
  | .I8 | .I16 | .I32 => contents.int_contents.length
  | .I64 => contents.int64_contents.length
  | .U8 | .U16 | .U32 => contents.uint_contents.length
  | .U64 => contents.uint64_contents.length
  | .FP32 => contents.fp32_contents.length
  | .FP64 => contents.fp64_contents.length
  | .STRING => contents.bytes_contents.length
  | _ => 0

inductive ProcessingHint
  | STRING_NATIVE
  | STRING_2D_U8
  | IMAGE
  | NO_PROCESSING
deriving DecidableEq

/-- `createProcessingHints`. -/
def getPreProcessingHint (tensor : TensorInfo) : ProcessingHint :=
  if tensor.precision = .STRING then .STRING_NATIVE
  else if tensor.shape.length = 2 ∧ tensor.precision = .U8 ∧ tensor.influencedByDemultiplexer = false then .STRING_2D_U8
  else if tensor.shape.length = (if tensor.influencedByDemultiplexer then 5 else 4) then .IMAGE
  else .NO_PROCESSING

def getBatchSize (tensor : TensorInfo) : Option Dimension :=
  match tensor.layout.batchIndex with
  | none => tensor.shape.head?
  | some batchIndex => tensor.shape[batchIndex]?

end Precisions

section Sizes

/-- The elements of a shape without negative dimensions, as long as they are a `size_t`. -/
def computeExpectedElementCount (elementCount : Nat) : List Int → Option Nat
  | [] => some elementCount
  | dim :: dims =>
    if dim = 0 then some 0
    else if elementCount > (2 ^ 64 - 1) / (dim % 2 ^ 64).toNat then none
    else computeExpectedElementCount (elementCount * (dim % 2 ^ 64).toNat) dims

def computeExpectedBufferSize (elementCount itemsize : Nat) : Option Nat :=
  if itemsize = 0 ∨ elementCount = 0 then some 0
  else if elementCount > (2 ^ 64 - 1) / itemsize then none
  else some (elementCount * itemsize)

end Sizes

section Strings

def MAX_2D_STRING_ARRAY_SIZE : Nat := 1024 * 1024 * 1024

def MAX_NATIVE_STRING_ELEMENTS : Nat := 2 ^ 30 / 32

/-- The longest string and a zero. -/
def getStringInputWidth (contents : InferTensorContents) : Nat :=
  contents.bytes_contents.foldl (fun maxStringLength str => max maxStringLength str.length) 0 + 1

def validateAgainstMaxNativeStringElementCount (elementCount : Int) : Except Status Unit :=
  if elementCount < 0 then .error .invalidBatchSize
  else if elementCount.toNat > MAX_NATIVE_STRING_ELEMENTS then .error .invalidStringMaxSizeExceeded
  else .ok ()

def validateAgainstMax2DStringArraySize (inputBatchSize : Int) (inputWidth : Nat) : Except Status Unit :=
  if inputBatchSize ≤ 0 then .error .invalidBatchSize
  else if inputWidth > (2 ^ 64 - 1) / inputBatchSize.toNat then .error .invalidStringMaxSizeExceeded
  else if inputBatchSize.toNat * inputWidth > MAX_2D_STRING_ARRAY_SIZE then .error .invalidStringMaxSizeExceeded
  else .ok ()

def validateNumberOfBinaryInputShapeDimensions (dims : List Int) : Except Status Unit :=
  if dims.length ≠ 1 then .error .invalidNoOfShapeDimensions else .ok ()

/-- `checkBinaryBatchSizeMismatch`, of the one dimension that a binary input has. -/
def checkBinaryBatchSizeMismatch (dims : List Int) (servableBatchSize : Option Dimension) (finalStatus : FinalStatus)
    (batchingMode shapeMode : Mode) (inputBatchSize : Int) : Except Status FinalStatus :=
  match servableBatchSize, dims with
  | some batchSize, dim :: _ =>
    if inputBatchSize < 0 then .error .invalidBatchSize
    else if dim ≠ inputBatchSize then .error .invalidBatchSize
    else if batchSize.match dim then .ok finalStatus
    else if batchingMode = .AUTO then .ok .BATCHSIZE_CHANGE_REQUIRED
    else if shapeMode ≠ .AUTO then .error .invalidBatchSize
    else .ok finalStatus
  | none, _ => .error .invalidBatchSize
  | _, [] => .error .outOfBounds

def checkStringShapeMismatch (shape : Shape) (finalStatus : FinalStatus) (batchingMode shapeMode : Mode) (inputBatchSize : Int)
    (inputWidth : Nat) : Except Status FinalStatus :=
  let allowed := if batchingMode = .AUTO then (shape[1]?).any fun width => width.match inputWidth else shape.match [inputBatchSize, inputWidth]
  if allowed then .ok finalStatus
  else if shapeMode = .AUTO then .ok .RESHAPE_REQUIRED
  else .error .invalidShape

end Strings

section Tensors

def checkIfShapeValuesNegative (dims : List Int) : Except Status Unit :=
  if dims.any (· < 0) then .error .invalidShape else .ok ()

def validatePrecision (tensorInfo : TensorInfo) (proto : InferInputTensor) : Except Status Unit :=
  if proto.datatype ≠ ovmsPrecisionToKFSPrecision tensorInfo.precision then .error .invalidPrecision else .ok ()

def validateNumberOfShapeDimensions (tensorInfo : TensorInfo) (proto : InferInputTensor) : Except Status Unit :=
  if tensorInfo.shape.length ≠ proto.shape.length then .error .invalidNoOfShapeDimensions else .ok ()

def checkBatchSizeMismatch (proto : InferInputTensor) (servableBatchSize : Option Dimension) (batchSizeIndex : Option Nat)
    (finalStatus : FinalStatus) (batchingMode shapeMode : Mode) : Except Status FinalStatus :=
  match servableBatchSize, batchSizeIndex with
  | some batchSize, some index =>
    match proto.dims[index]? with
    | none => .error .outOfBounds
    | some dim =>
      if batchSize.match dim then .ok finalStatus
      else if batchingMode = .AUTO then .ok .BATCHSIZE_CHANGE_REQUIRED
      else if shapeMode ≠ .AUTO then .error .invalidBatchSize
      else .ok finalStatus
  | _, _ => .ok finalStatus

/-- Some dimension is not allowed. -/
def mismatch (shape : Shape) (dims : List Int) : Bool := (shape.zip dims).any fun p => !p.1.match p.2

def checkShapeMismatch (proto : InferInputTensor) (tensorInfo : TensorInfo) (batchSizeIndex : Option Nat) (finalStatus : FinalStatus)
    (batchingMode shapeMode : Mode) : Except Status FinalStatus :=
  let finish (mismatched : Bool) : Except Status FinalStatus :=
    if !mismatched then .ok finalStatus
    else if shapeMode = .AUTO then .ok .RESHAPE_REQUIRED
    else .error .invalidShape
  if batchingMode = .AUTO then
    -- the batch dimension is skipped
    match batchSizeIndex with
    | none => .error .internalError
    | some index => finish (mismatch (tensorInfo.shape.eraseIdx index) (proto.dims.eraseIdx index))
  else finish (mismatch tensorInfo.shape proto.dims)

/-- The data of an input in the raw contents. -/
def validateRawContent (proto : InferInputTensor) (expectedPrecision : Precision) (expectedValueCount : Nat) (buffer : Str) : Except Status Unit :=
  if proto.datatype = bytes "BYTES" then
    match RawContents.validateTensorContent buffer with
    | .accepts batchSize => if batchSize ≠ expectedValueCount then .error .invalidValueCount else .ok ()
    | .rejects => .error .invalidContentSize
    | .outOfBounds => .error .outOfBounds
  else
    match computeExpectedBufferSize expectedValueCount (elementByteSize expectedPrecision) with
    | none => .error .invalidContentSize
    | some expectedContentSize => if expectedContentSize ≠ buffer.length then .error .invalidContentSize else .ok ()

def validateTensorContent (request : ModelInferRequest) (proto : InferInputTensor) (expectedPrecision : Precision) (bufferId : Nat) :
    Except Status Unit :=
  match computeExpectedElementCount 1 proto.dims with
  | none => .error .invalidContentSize
  | some expectedValueCount =>
    if request.raw_input_contents ≠ [] then
      match request.raw_input_contents[bufferId]? with
      | none => .error .outOfBounds
      | some buffer => validateRawContent proto expectedPrecision expectedValueCount buffer
    else if expectedValueCount ≠ getElementsCount proto.contentsOrDefault expectedPrecision then .error .invalidValueCount
    else .ok ()

end Tensors

section Validator

/-- `tensor_map_t`, with its entries in the order of the iteration. -/
structure TensorMap where
  entries : List (Str × TensorInfo)
  distinct : (entries.map Prod.fst).Nodup

/-- What a request is validated against. -/
structure RequestValidator where
  inputsInfo : TensorMap
  optionalAllowedInputNames : List Str := []
  batchingMode : Mode := .FIXED
  shapeInfo : List (Str × Mode) := []

def ANONYMOUS_INPUT_NAME : Str := bytes "ANONYMOUS_INPUT_NAME"

variable (validator : RequestValidator) (request : ModelInferRequest)

def getShapeMode (name : Str) : Mode :=
  ((validator.shapeInfo.lookup name).or (validator.shapeInfo.lookup ANONYMOUS_INPUT_NAME)).getD .FIXED

def validateNumberOfTensors : Except Status Unit :=
  let expectedNumberOfInputs := validator.inputsInfo.entries.length +
    request.inputs.countP fun input => input.name ∈ validator.optionalAllowedInputNames
  if request.inputs.length > 0 ∧ expectedNumberOfInputs = request.inputs.length then .ok () else .error .invalidNoOfInputs

def validateRequestCoherencyKFS : Except Status Unit :=
  if request.raw_input_contents = [] then .ok ()
  else if request.raw_input_contents.length ≠ request.inputs.length then .error .invalidMessageStructure
  else if request.inputs.any fun input => input.contents.isSome then .error .invalidMessageStructure
  else .ok ()

/-- `RequestTensorExtractor::extract`: the first input of a name, and `bufferId`. -/
def extract (name : Str) : Nat → List InferInputTensor → Option (Nat × InferInputTensor)
  | _, [] => none
  | id, input :: inputs => if input.name = name then some (id, input) else extract name (id + 1) inputs

/-- `getStringBatchSize` and `getStringInputWidth`, or those of the raw contents. -/
def getBatchSizeAndWidth (proto : InferInputTensor) (bufferId : Nat) : Except Status (Int × Nat) :=
  if request.raw_input_contents ≠ [] then
    match request.raw_input_contents[bufferId]? with
    | none => .error .outOfBounds
    | some buffer =>
      match getRawInputContentsBatchSizeAndWidth buffer with
      | .accepts sizes => .ok sizes
      | .rejects => .error .invalidInputFormat
      | .outOfBounds => .error .outOfBounds
  else .ok (toInt32 proto.contentsOrDefault.bytes_contents.length, getStringInputWidth proto.contentsOrDefault)

/-- `Data Array Proto`. -/
def validateDataArray (tensorInfo : TensorInfo) (proto : InferInputTensor) (bufferId : Nat) (shapeMode : Mode) (finalStatus : FinalStatus) :
    Except Status FinalStatus := do
  validatePrecision tensorInfo proto
  validateNumberOfShapeDimensions tensorInfo proto
  let finalStatus ← checkBatchSizeMismatch proto (getBatchSize tensorInfo) tensorInfo.layout.batchIndex finalStatus validator.batchingMode shapeMode
  let finalStatus ← checkShapeMismatch proto tensorInfo tensorInfo.layout.batchIndex finalStatus validator.batchingMode shapeMode
  validateTensorContent request proto tensorInfo.precision bufferId
  return finalStatus

/-- An input of strings, by the hint of the endpoint. -/
def validateStrings (tensorInfo : TensorInfo) (proto : InferInputTensor) (bufferId : Nat) (shapeMode : Mode) (finalStatus : FinalStatus) :
    Except Status FinalStatus := do
  let (inputBatchSize, inputWidth) ← getBatchSizeAndWidth request proto bufferId
  match getPreProcessingHint tensorInfo with
  | .STRING_NATIVE =>
    validateAgainstMaxNativeStringElementCount inputBatchSize
    validateDataArray validator request tensorInfo proto bufferId shapeMode finalStatus
  | .STRING_2D_U8 =>
    validateNumberOfBinaryInputShapeDimensions proto.dims
    validateAgainstMax2DStringArraySize inputBatchSize inputWidth
    let finalStatus ← checkBinaryBatchSizeMismatch proto.dims (getBatchSize tensorInfo) finalStatus validator.batchingMode shapeMode inputBatchSize
    checkStringShapeMismatch tensorInfo.shape finalStatus validator.batchingMode shapeMode inputBatchSize inputWidth
  | .IMAGE =>
    validateNumberOfBinaryInputShapeDimensions proto.dims
    checkBinaryBatchSizeMismatch proto.dims (getBatchSize tensorInfo) finalStatus validator.batchingMode shapeMode inputBatchSize
  | .NO_PROCESSING => throw .notImplemented

def requiresPreProcessing (proto : InferInputTensor) : Bool := proto.datatype = bytes "BYTES"

/-- The batch index is one of the dimensions. -/
def checkBatchIndex (tensorInfo : TensorInfo) : Except Status Unit :=
  match tensorInfo.layout.batchIndex with
  | some batchIndex => if batchIndex ≥ tensorInfo.shape.length then .error .internalError else .ok ()
  | none => .ok ()

/-- One turn of the loop over the inputs of the endpoint. -/
def validateInput (finalStatus : FinalStatus) (entry : Str × TensorInfo) : Except Status FinalStatus :=
  match extract entry.1 0 request.inputs with
  | none => .error .invalidMissingInput
  | some (bufferId, proto) => do
    checkIfShapeValuesNegative proto.dims
    checkBatchIndex entry.2
    let shapeMode := getShapeMode validator entry.1
    if requiresPreProcessing proto then validateStrings validator request entry.2 proto bufferId shapeMode finalStatus
    else validateDataArray validator request entry.2 proto bufferId shapeMode finalStatus

def validate : Except Status FinalStatus := do
  validateNumberOfTensors validator request
  validateRequestCoherencyKFS request
  validator.inputsInfo.entries.foldlM (validateInput validator request) .OK

end Validator

section Deserialization

/-- `ov::Tensor`. -/
structure Tensor where
  shape : List Nat
  elementSize : Nat
  data : Str
deriving DecidableEq

inductive Deserialized
  | tensor (tensor : Tensor)
  /-- `ov::Tensor()`, which is answered with `OV_UNSUPPORTED_DESERIALIZATION_PRECISION`. -/
  | empty
  /-- A copy goes past the end of a buffer. -/
  | outOfBounds
deriving DecidableEq

/-- The elements of a shape. -/
def elementCount (shape : List Nat) : Nat := shape.prod

/-- The memory of a tensor is as large as a `size_t` says. -/
def allocate (shape : List Nat) (elementSize : Nat) : Tensor :=
  ⟨shape, elementSize, List.replicate (elementCount shape * elementSize % 2 ^ 64) 0⟩

/-- The dimensions, as those of an `ov::Shape`. -/
def ovShape (requestInput : InferInputTensor) : List Nat := requestInput.shape.map BitVec.toNat

/-- `makeTensor` over a buffer, of which it has the bytes. -/
def makeTensor (requestInput : InferInputTensor) (tensorInfo : TensorInfo) (buffer : Str) : Deserialized :=
  let tensor := allocate (ovShape requestInput) (elementByteSize tensorInfo.precision)
  if buffer.length = 0 then .tensor tensor
  else if tensor.data.length ≤ buffer.length then .tensor { tensor with data := buffer.take tensor.data.length }
  else .outOfBounds

/-- The loop of `COPY_EACH_VALUE`: the first bytes of each number. -/
def copyEachValue (size : Nat) : Nat → List Nat → Str → Option Str
  | _, [], memory => some memory
  | i, number :: numbers, memory =>
    if (i + 1) * size ≤ memory.length then
      copyEachValue size (i + 1) numbers
        (memory.take (i * size) ++ LengthPrefixed.header size (number % 256 ^ size) ++ memory.drop ((i + 1) * size))
    else none

/-- The cases of `COPY_EACH_VALUE`: the size of the type and the field. -/
def copiedField (contents : InferTensorContents) : Precision → Option (Nat × List Nat)
  | .BOOL => some (1, contents.bool_contents.map Bool.toNat)
  | .I8 => some (1, contents.int_contents.map BitVec.toNat)
  | .I16 => some (2, contents.int_contents.map BitVec.toNat)
  | .I32 => some (4, contents.int_contents.map BitVec.toNat)
  | .I64 => some (8, contents.int64_contents.map BitVec.toNat)
  | .U8 => some (1, contents.uint_contents.map BitVec.toNat)
  | .U16 => some (2, contents.uint_contents.map BitVec.toNat)
  | .U32 => some (4, contents.uint_contents.map BitVec.toNat)
  | .U64 => some (8, contents.uint64_contents.map BitVec.toNat)
  | .FP32 => some (4, contents.fp32_contents.map BitVec.toNat)
  | .FP64 => some (8, contents.fp64_contents.map BitVec.toNat)
  | _ => none

/-- The precisions of which a tensor is made over a buffer. -/
def bufferPrecisions : List Precision := [.FP64, .FP32, .FP16, .I64, .I32, .I16, .I8, .U64, .U32, .U16, .BOOL, .U8]

def deserializeTensor (requestInput : InferInputTensor) (tensorInfo : TensorInfo) (buffer : Option Str) : Deserialized :=
  match buffer with
  | some buffer => if tensorInfo.precision ∈ bufferPrecisions then makeTensor requestInput tensorInfo buffer else .empty
  | none =>
    match copiedField requestInput.contentsOrDefault tensorInfo.precision with
    | none => .empty
    | some (size, numbers) =>
      let tensor := allocate (ovShape requestInput) (elementByteSize tensorInfo.precision)
      match copyEachValue size 0 numbers tensor.data with
      | some data => .tensor { tensor with data := data }
      | none => .outOfBounds

/-- `getRequestTensorPtr`: an input and the buffer at its index. -/
def getRequestTensorPtr (request : ModelInferRequest) (name : Str) : Option (InferInputTensor × Option Str) :=
  match request.inputs.findIdx? fun input => input.name = name with
  | none => none
  | some inputIndex =>
    match request.inputs[inputIndex]? with
    | none => none
    | some input =>
      some (input, if request.raw_input_contents.length > 0 then request.raw_input_contents[inputIndex]? else none)

end Deserialization

end ModelServer.RequestValidation
