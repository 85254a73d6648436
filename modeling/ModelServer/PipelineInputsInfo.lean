import Mathlib.Logic.Function.Basic
import ModelServer.PipelineDefinition
import ModelServer.TensorInfo

namespace ModelServer

/-- The statuses of the input metadata of a pipeline. `library` stands for those that the libraries of the nodes decide,
`out_of_range` for the exception that is thrown for a name that a node does not have, and `undefined` for a node that
is not there and yet is looked at. -/
inductive InputsStatus
  | MODEL_MISSING
  | NODE_LIBRARY_MISSING
  | library (code : String)
  | PIPELINE_INPUTS_AMBIGUOUS_METADATA
  | UNKNOWN_ERROR
  | out_of_range
  | undefined
deriving DecidableEq

/-- The tensors of the inputs of a pipeline. -/
abbrev InputsInfo := String → Option TensorInfo

/-- What the models and the libraries of the nodes say of their inputs. -/
abbrev InputsMetadata := NodeInfo → Except InputsStatus (String → Option TensorInfo)

/-- The tensor of an input of a node, under the name that the pipeline gives it. -/
def TensorInfo.aliased (tensorInfo : TensorInfo) (aliasName : String) : TensorInfo where
  name := aliasName
  mapping := ""
  precision := tensorInfo.precision
  shape := tensorInfo.shape
  layout := tensorInfo.layout

def updateInputsInfoWithNodeConnection (inputsInfo : InputsInfo) (tensorInfo : TensorInfo) (aliasName : String) :
    Except InputsStatus InputsInfo :=
  let newTensorInfo := tensorInfo.aliased aliasName
  match inputsInfo aliasName with
  | some found =>
    if found.isTensorSpecEqual newTensorInfo then .ok (Function.update inputsInfo aliasName (some newTensorInfo))
    else match found.createIntersection newTensorInfo with
      | none => .error .PIPELINE_INPUTS_AMBIGUOUS_METADATA
      | some intersectionTensorInfo => .ok (Function.update inputsInfo aliasName (some intersectionTensorInfo))
  | none => .ok (Function.update inputsInfo aliasName (some newTensorInfo))

def updateInputsInfoWithNodeConnections (inputsInfo : InputsInfo) (specificDependencyMapping : Aliases)
    (extractor : String → Option TensorInfo) : Except InputsStatus InputsInfo :=
  specificDependencyMapping.foldlM (fun inputsInfo mapped =>
    match extractor mapped.2 with
    | none => .error .out_of_range
    | some tensorInfo => updateInputsInfoWithNodeConnection inputsInfo tensorInfo mapped.1) inputsInfo

/-- An input that an output takes is only put in where there is none. -/
def insertUnspecified (inputsInfo : InputsInfo) (mapped : String × String) : InputsInfo :=
  match inputsInfo mapped.1 with
  | some _ => inputsInfo
  | none => Function.update inputsInfo mapped.1 (some TensorInfo.getUnspecifiedTensorInfo)

/-- A count of zero or of -1 stands for any, and a definition has no smaller ones. -/
def demultiplyDimension (demultiplyCount : Int) : Dimension :=
  if 0 < demultiplyCount then .static demultiplyCount.toNat else .any

def applyDemultiplexerShapeForTensor (tensorInfo : TensorInfo) (demultiplyCount : Int) : TensorInfo :=
  tensorInfo.createCopyWithDemultiplexerDimensionPrefix (demultiplyDimension demultiplyCount)

namespace PipelineDefinition

variable (definition : PipelineDefinition) (metadata : InputsMetadata)

/-- The inputs that a node takes from the entry. -/
def updateInputsInfoWithDependant (inputsInfo : InputsInfo) (dependantNodeInfo : NodeInfo)
    (specificDependencyMapping : Aliases) : Except InputsStatus InputsInfo :=
  match dependantNodeInfo.kind with
  | .EXIT => .ok (specificDependencyMapping.foldl insertUnspecified inputsInfo)
  | .DL | .CUSTOM =>
    match metadata dependantNodeInfo with
    | .error status => .error status
    | .ok info => updateInputsInfoWithNodeConnections inputsInfo specificDependencyMapping info
  | .ENTRY => .error .UNKNOWN_ERROR

/-- The inputs that a node takes from one of its dependencies. -/
def updateInputsInfoWithDependency (dependantNodeName : String) (inputsInfo : InputsInfo) (dependency : String × Aliases) :
    Except InputsStatus InputsInfo :=
  match definition.findNodeByName dependency.1 with
  | none => .error .undefined
  | some dependencyNodeInfo =>
    if dependencyNodeInfo.kind ≠ .ENTRY then .ok inputsInfo
    else match definition.findNodeByName dependantNodeName with
      | none => .error .undefined
      | some dependantNodeInfo => updateInputsInfoWithDependant metadata inputsInfo dependantNodeInfo dependency.2

/-- The entry, when it demultiplexes the request. -/
def entryDemultiplyCount : Option Int :=
  (definition.nodeInfos.find? fun info => info.kind = .ENTRY && info.demultiplyCount.isSome).bind (·.demultiplyCount)

def updateInputsInfo : Except InputsStatus InputsInfo :=
  match definition.connections.foldlM (fun inputsInfo connection =>
      connection.2.foldlM (definition.updateInputsInfoWithDependency metadata connection.1) inputsInfo) fun _ => none with
  | .error status => .error status
  | .ok inputsInfo =>
    match definition.entryDemultiplyCount with
    | none => .ok inputsInfo
    | some demultiplyCount =>
      .ok fun name => (inputsInfo name).map (applyDemultiplexerShapeForTensor · demultiplyCount)

end PipelineDefinition

end ModelServer
