import ModelServer.NodeSessionMetadata

namespace ModelServer

/-- The statuses the handlers answer with; `outOfRange` stands for the exception of `at`, `outOfBounds` for a copy
behind the end of a buffer. -/
inductive StatusCode
  | INTERNAL_ERROR
  | INVALID_MISSING_INPUT
  | PIPELINE_INCONSISTENT_SHARD_DIMENSIONS
  | PIPELINE_TOO_LARGE_DIMENSION_SIZE_TO_DEMULTIPLY
  | PIPELINE_STRING_DEMUILTIPLICATION_UNSUPPORTED
  | PIPELINE_WRONG_NUMBER_OF_DIMENSIONS_TO_DEMULTIPLY
  | PIPELINE_WRONG_DIMENSION_SIZE_TO_DEMULTIPLY
  | PIPELINE_DEMULTIPLEXER_NO_RESULTS
  | outOfRange
  | outOfBounds
deriving DecidableEq

/-- The bytes of an array of elements with this many bits each. -/
def byteSize (bits : Nat) (shape : List Nat) : Nat := (shape.prod * bits + 7) / 8

theorem byteSize_append {bits : Nat} (hbits : 8 ∣ bits) (sizes shape : List Nat) :
    byteSize bits (sizes ++ shape) = sizes.prod * byteSize bits shape := by
  obtain ⟨width, rfl⟩ := hbits
  have hsize : ∀ n : Nat, (n * (8 * width) + 7) / 8 = n * width := by
    intro n
    have heq : n * (8 * width) = 8 * (n * width) := by ring
    rw [heq]
    omega
  unfold byteSize
  rw [List.prod_append, hsize, hsize, Nat.mul_assoc]

/-- `ov::Tensor`, for element types with these widths. -/
structure Tensor {ElementType : Type} (bitwidth : ElementType → Nat) where
  elementType : ElementType
  shape : List Nat
  data : List UInt8
  size_eq : data.length = byteSize (bitwidth elementType) shape

/-- The order in which an `unordered_map` is walked through. -/
structure Iteration (α : Type) where
  order : List α → List α
  perm : ∀ entries, (order entries).Perm entries

variable {ElementType : Type} {bitwidth : ElementType → Nat}

namespace Tensor

def get_byte_size (tensor : Tensor bitwidth) : Nat := byteSize (bitwidth tensor.elementType) tensor.shape

/-- `createSharedTensor`. -/
def createShared (bitwidth : ElementType → Nat) (precision : ElementType) (shape : List Nat) : Tensor bitwidth where
  elementType := precision
  shape := shape
  data := List.replicate (byteSize (bitwidth precision) shape) 0
  size_eq := List.length_replicate

/-- `memcpy` into the data. -/
def memcpy (tensor : Tensor bitwidth) (offset : Nat) (data : List UInt8) : Except StatusCode (Tensor bitwidth) :=
  if h : offset + data.length ≤ tensor.data.length then
    .ok { tensor with
      data := RowMajor.overwrite tensor.data offset data
      size_eq := (RowMajor.length_overwrite h).trans tensor.size_eq }
  else .error .outOfBounds

end Tensor

structure GatherNodeInputHandler {ElementType : Type} (bitwidth : ElementType → Nat) where
  shardsStorage : List (String × List (Nat × Tensor bitwidth)) := []
  collapsedSessionSizes : List Nat
  inputTensors : List (String × Tensor bitwidth) := []
  remainingDependencies : Nat
  isUsed : Bool := false

namespace GatherNodeInputHandler

/-- `GatherNodeInputHandler::GatherNodeInputHandler`; the counter has 32 bits. -/
def create (bitwidth : ElementType → Nat) (inputsMissingCount : Nat) (collapsingDetails : CollapseDetails) :
    GatherNodeInputHandler bitwidth where
  collapsedSessionSizes := collapsingDetails.collapsedSessionSizes
  remainingDependencies := collapsingDetails.collapsedSessionSizes.foldl
    (fun count size => count * size % NodeSessionMetadata.sessionIdWord) inputsMissingCount

def setInput (handler : GatherNodeInputHandler bitwidth) (inputName : String) (tensor : Tensor bitwidth)
    (shardId : Nat) : Except StatusCode (GatherNodeInputHandler bitwidth) :=
  match handler.shardsStorage.lookup inputName with
  | none => .ok { handler with shardsStorage := handler.shardsStorage ++ [(inputName, [(shardId, tensor)])] }
  | some shardMap =>
    if (shardMap.lookup shardId).isSome then .error .INTERNAL_ERROR
    else .ok { handler with shardsStorage := handler.shardsStorage.map fun (name, shards) =>
      (name, if name = inputName then shards ++ [(shardId, tensor)] else shards) }

def isReady (handler : GatherNodeInputHandler bitwidth) : Bool :=
  !handler.isUsed && handler.remainingDependencies == 0

variable [DecidableEq ElementType]

/-- A shard is copied to its place. -/
def copyShard (firstShard : Tensor bitwidth) (consolidatedTensor : Tensor bitwidth) (shardId : Nat)
    (tensor : Tensor bitwidth) : Except StatusCode (Tensor bitwidth) :=
  if tensor.elementType ≠ firstShard.elementType ∨ tensor.shape ≠ firstShard.shape then
    .error .PIPELINE_INCONSISTENT_SHARD_DIMENSIONS
  else consolidatedTensor.memcpy (shardId * tensor.get_byte_size) tensor.data

/-- The tensor that is put together from the shards of one input. -/
def consolidate (visit : Iteration (Nat × Tensor bitwidth)) (collapsedSessionSizes : List Nat)
    (shardMap : List (Nat × Tensor bitwidth)) : Except StatusCode (Tensor bitwidth) :=
  match shardMap.lookup 0 with
  | none => .error .outOfRange
  | some firstShard =>
    (visit.order shardMap).foldlM
      (fun consolidatedTensor (shardId, tensor) => copyShard firstShard consolidatedTensor shardId tensor)
      (Tensor.createShared bitwidth firstShard.elementType (collapsedSessionSizes ++ firstShard.shape))

def notifyFinishedDependency (visit : Iteration (Nat × Tensor bitwidth)) (handler : GatherNodeInputHandler bitwidth) :
    Except StatusCode (GatherNodeInputHandler bitwidth) :=
  let remainingDependencies :=
    (handler.remainingDependencies + (NodeSessionMetadata.sessionIdWord - 1)) % NodeSessionMetadata.sessionIdWord
  if remainingDependencies > 0 then .ok { handler with remainingDependencies := remainingDependencies }
  else do
    let inputTensors ← handler.shardsStorage.foldlM
      (fun (inputTensors : List (String × Tensor bitwidth)) (inputName, shardMap) => do
        let consolidatedTensor ← consolidate visit handler.collapsedSessionSizes shardMap
        return if (inputTensors.lookup inputName).isSome then inputTensors
          else inputTensors ++ [(inputName, consolidatedTensor)])
      handler.inputTensors
    return { handler with
      remainingDependencies := remainingDependencies
      inputTensors := inputTensors }

/-- `Node::setInputs` for one session of a dependency: its outputs are set as inputs, then it is counted. -/
def setInputs (visit : Iteration (Nat × Tensor bitwidth)) (gatherFrom : Finset String)
    (handler : GatherNodeInputHandler bitwidth) (mapping_for_dependency : List (String × String))
    (inputs : List (String × Tensor bitwidth)) (metadata : NodeSessionMetadata) :
    Except StatusCode (GatherNodeInputHandler bitwidth) :=
  match metadata.getShardId gatherFrom with
  | .error _ => .error .INTERNAL_ERROR
  | .ok shardId => do
    let handler ← mapping_for_dependency.foldlM
      (fun (handler : GatherNodeInputHandler bitwidth) (dependency_output_name, current_node_input_name) =>
        match inputs.lookup dependency_output_name with
        | none => .error .INVALID_MISSING_INPUT
        | some tensor => handler.setInput current_node_input_name tensor shardId)
      handler
    handler.notifyFinishedDependency visit

end GatherNodeInputHandler

end ModelServer
