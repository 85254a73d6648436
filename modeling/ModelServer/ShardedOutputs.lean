import Mathlib.Data.List.TakeWhile
import ModelServer.CheckedSteps
import ModelServer.Demultiplexing
import ModelServer.SessionKeys
import ModelServer.TensorByteCounts
import ModelServer.Tilings

namespace ModelServer.ShardedOutputs

open NodeSessionMetadata
open TensorByteCounts (Type_t ovmsPrecisionToIE2Precision)

/-- `ov::element::Type_t`; of a type without a `Precision` only the width is kept. -/
inductive ElementType
  | known (type : Type_t)
  | other (bits : Nat)
deriving DecidableEq

/-- `ov::element::Type::bitwidth`. -/
def bitwidth : ElementType → Nat
  | .known type => match type with
    | .dynamic => 0
    | .u1 => 1
    | .i4 | .u4 => 4
    | .boolean | .i8 | .u8 => 8
    | .bf16 | .f16 | .i16 | .u16 => 16
    | .f32 | .i32 | .u32 => 32
    | .f64 | .i64 | .u64 => 64
    | .string => 256
  | .other bits => bits

def ovElementTypeToOvmsPrecision : ElementType → Precision
  | .known type => match type with
    | .f64 => .FP64
    | .f32 => .FP32
    | .f16 => .FP16
    | .bf16 => .BF16
    | .i64 => .I64
    | .i32 => .I32
    | .i16 => .I16
    | .i8 => .I8
    | .i4 => .I4
    | .u64 => .U64
    | .u32 => .U32
    | .u16 => .U16
    | .u8 => .U8
    | .u4 => .U4
    | .u1 => .U1
    | .string => .STRING
    | .dynamic => .UNDEFINED
    | .boolean => .BOOL
  | .other _ => .UNDEFINED

/-- A tensor over the bytes of another one, from `offset` on. That these bytes are there is not checked. -/
structure Shard where
  elementType : ElementType
  shape : List Nat
  offset : Nat

def Shard.get_byte_size (shard : Shard) : Nat := byteSize (bitwidth shard.elementType) shard.shape

/-- A tensor with bytes of its own, or a shard with the tensor it was taken from; the shard is missing where none was
assigned. -/
inductive TensorWithSource
  | actual (tensor : Tensor bitwidth)
  | shard (dividedTensor : Option Shard) (source : Tensor bitwidth)

/-- The tensors of a session in the order they are walked through. There is a first one. -/
structure TensorWithSourceMap where
  begin : String × Tensor bitwidth
  rest : List (String × Tensor bitwidth)
  distinct : ((begin :: rest).map Prod.fst).Nodup

def TensorWithSourceMap.entries (tensorMap : TensorWithSourceMap) : List (String × Tensor bitwidth) :=
  tensorMap.begin :: tensorMap.rest

theorem TensorWithSourceMap.nodup (tensorMap : TensorWithSourceMap) : (tensorMap.entries.map Prod.fst).Nodup :=
  tensorMap.distinct

abbrev SessionResult := NodeSessionMetadata × List (String × TensorWithSource)

abbrev SessionResults := List (String × SessionResult)

/-- A request with the names and datatypes of its inputs. -/
inductive RequestType
  | KFSRequest (inputs : List (String × String))
  | InferenceRequest

def isNativeFileFormatUsed : RequestType → String → Except StatusCode Bool
  | .KFSRequest inputs, name =>
    match inputs.find? (decide <| ·.1 = name) with
    | none => .error .INTERNAL_ERROR
    | some input => .ok (decide (input.2 = "BYTES"))
  | .InferenceRequest, _ => .ok false

inductive NodeKind
  | Node
  | EntryNode (request : RequestType)

/-- `Node::createShardedTensor`, and the one of `EntryNode`. -/
def createShardedTensor (node : NodeKind) (precision : Precision) (shape : List Nat) (tensor : Tensor bitwidth)
    (i step : Nat) (tensorName : String) : Except StatusCode Shard :=
  match node with
  | .Node => .ok ⟨tensor.elementType, shape, i * step⟩
  | .EntryNode request => do
    let nativeFileFormatUsed ← isNativeFileFormatUsed request tensorName
    if nativeFileFormatUsed then return ⟨tensor.elementType, shape, i * step⟩
    else if precision ∈ [.FP32, .I32, .FP64, .I64, .I8, .U8, .I16] then
      return ⟨.known (ovmsPrecisionToIE2Precision precision), shape, i * step⟩
    else return ⟨tensor.elementType, shape, i * step⟩

/-- The shard becomes a tensor of the session, which is made where it is not there yet. -/
def emplace (sessionKey : String) (metadata : NodeSessionMetadata) (tensorName : String) (tensor : TensorWithSource) :
    SessionResults → SessionResults
  | [] => [(sessionKey, metadata, [(tensorName, tensor)])]
  | (key, result) :: results =>
    if key = sessionKey then
      (key, result.1, if tensorName ∈ result.2.map Prod.fst then result.2 else result.2 ++ [(tensorName, tensor)]) :: results
    else (key, result) :: emplace sessionKey metadata tensorName tensor results

def erase (sessionKey : String) (nodeSessionOutputs : SessionResults) : SessionResults :=
  nodeSessionOutputs.filter (decide <| ·.1 ≠ sessionKey)

/-- What is checked of a tensor before it is cut. -/
def refusal (demultiplexCount : Int) (resultsDemultiplyCount : Nat) (tensor : Tensor bitwidth) : Option StatusCode :=
  if tensor.elementType = .known .string then some .PIPELINE_STRING_DEMUILTIPLICATION_UNSUPPORTED
  else if tensor.shape.length < 3 then some .PIPELINE_WRONG_NUMBER_OF_DIMENSIONS_TO_DEMULTIPLY
  else if demultiplexCount ≠ -1 ∧ (tensor.shape.headD 0 : Int) ≠ demultiplexCount % 2 ^ 64 then
    some .PIPELINE_WRONG_DIMENSION_SIZE_TO_DEMULTIPLY
  else if resultsDemultiplyCount = 0 then some .PIPELINE_DEMULTIPLEXER_NO_RESULTS
  else none

/-- The shard of a tensor for a session. The status of `createShardedTensor` is not looked at. -/
def divide (node : NodeKind) (resultsDemultiplyCount : Nat) (tensorName : String) (tensor : Tensor bitwidth) (i : Nat) :
    TensorWithSource :=
  let step := tensor.get_byte_size / resultsDemultiplyCount
  .shard (createShardedTensor node (ovElementTypeToOvmsPrecision tensor.elementType) (tensor.shape.drop 1) tensor i step
    tensorName).toOption tensor

/-- The loop over the tensors, with the status it returns and what it leaves behind. A key that cannot be made is an
exception. -/
def demultiplyTensors (node : NodeKind) (demultiplexCount : Int) (resultsDemultiplyCount : Nat)
    (metadata : NodeSessionMetadata) (newSessionMetadatas : List NodeSessionMetadata) :
    List (String × Tensor bitwidth) → SessionResults → Except String (Except StatusCode Unit × SessionResults)
  | [], nodeSessionOutputs => do
    let sessionKey ← metadata.createSessionKey ∅
    return (.ok (), erase sessionKey nodeSessionOutputs)
  | (tensorName, tensor) :: tensorMap, nodeSessionOutputs =>
    match refusal demultiplexCount resultsDemultiplyCount tensor with
    | some .PIPELINE_DEMULTIPLEXER_NO_RESULTS => do
      let sessionKey ← metadata.createSessionKey ∅
      return (.error .PIPELINE_DEMULTIPLEXER_NO_RESULTS, erase sessionKey nodeSessionOutputs)
    | some status => return (.error status, nodeSessionOutputs)
    | none => do
      let nodeSessionOutputs ← newSessionMetadatas.zipIdx.foldlM
        (fun nodeSessionOutputs (newSessionMetadata, i) => do
          let sessionKey ← newSessionMetadata.createSessionKey ∅
          return emplace sessionKey newSessionMetadata tensorName
            (divide node resultsDemultiplyCount tensorName tensor i) nodeSessionOutputs) nodeSessionOutputs
      demultiplyTensors node demultiplexCount resultsDemultiplyCount metadata newSessionMetadatas tensorMap
        nodeSessionOutputs

/-- The first dimension of the first tensor; what is read where it has none is not known. -/
def demultiplyCount (unread : Nat) (tensorMap : TensorWithSourceMap) : Nat := tensorMap.begin.2.shape.headD unread

/-- `Node::demultiplyOutputs` of the outputs of one session. -/
def demultiplyOutputs (node : NodeKind) (nodeName : String) (demultiplexCount : Option Int) (unread : Nat)
    (metadata : NodeSessionMetadata) (tensorMap : TensorWithSourceMap) :
    Except String (Except StatusCode Unit × SessionResults) := do
  let sessionKey ← metadata.createSessionKey ∅
  let nodeSessionOutputs : SessionResults :=
    [(sessionKey, metadata, tensorMap.entries.map fun output => (output.1, .actual output.2))]
  match demultiplexCount with
  | none => return (.error .INTERNAL_ERROR, nodeSessionOutputs)
  | some count =>
    let resultsDemultiplyCount := demultiplyCount unread tensorMap
    if DEMULTIPLY_LIMIT < resultsDemultiplyCount then
      return (.error .PIPELINE_TOO_LARGE_DIMENSION_SIZE_TO_DEMULTIPLY, nodeSessionOutputs)
    else match metadata.generateSubsessions nodeName resultsDemultiplyCount with
      | .error _ => return (.error .INTERNAL_ERROR, nodeSessionOutputs)
      | .ok newSessionMetadatas =>
        demultiplyTensors node count resultsDemultiplyCount metadata newSessionMetadatas tensorMap.entries
          nodeSessionOutputs

/-- The bytes a shard stands for: the tensor they are of, where they start and how many they are. -/
def TensorWithSource.piece : TensorWithSource → Option (Tensor bitwidth × Nat × Nat)
  | .actual _ => none
  | .shard none _ => none
  | .shard (some dividedTensor) source => some (source, dividedTensor.offset, dividedTensor.get_byte_size)

/-- Every tensor is cut into pieces, one for each session that is below the parent now. -/
structure Partitioned (nodeName : String) (count : Nat) (metadata : NodeSessionMetadata)
    (tensorMap : TensorWithSourceMap) (results : SessionResults) : Prop where
  length : results.length = count
  sessions : metadata.generateSubsessions nodeName count = .ok (results.map (·.2.1))
  keys : ∀ result ∈ results, result.2.1.createSessionKey ∅ = .ok result.1
  distinct : (results.map Prod.fst).Nodup
  names : ∀ result ∈ results, result.2.2.map Prod.fst = tensorMap.entries.map Prod.fst
  shards : ∀ output ∈ tensorMap.entries, ∃ pieces : List (Nat × Nat),
    results.map (fun result => (result.2.2.lookup output.1).bind (·.piece)) = pieces.map (fun piece => some (output.2, piece)) ∧
    Tiles 0 pieces output.2.get_byte_size ∧
    (pieces.flatMap fun piece => (output.2.data.drop piece.1).take piece.2) = output.2.data

/-- No shard goes beyond the tensor it was taken from. -/
def Within (results : SessionResults) : Prop :=
  ∀ result ∈ results, ∀ output ∈ result.2.2, ∀ piece ∈ output.2.piece, piece.2.1 + piece.2.2 ≤ piece.1.get_byte_size

/-- What the outputs have to be after the call. -/
structure Sound (nodeName : String) (count : Nat) (metadata : NodeSessionMetadata) (tensorMap : TensorWithSourceMap)
    (status : Except StatusCode Unit) (results : SessionResults) : Prop where
  partitioned : status = .ok () → Partitioned nodeName count metadata tensorMap results
  within : status ≠ .ok () → Within results

/-- The entry node is asked for tensors of inputs of its request. -/
def Named : NodeKind → String → Prop
  | .EntryNode (.KFSRequest inputs), name => name ∈ inputs.map Prod.fst
  | _, _ => True

/-- The bytes of the tensor below its first dimension. -/
def innerSize (tensor : Tensor bitwidth) : Nat := byteSize (bitwidth tensor.elementType) (tensor.shape.drop 1)

/-- When every tensor passes the checks, the shards make up each of them; when one does not, the shards of those before
it are inside. -/
def Divides (node : NodeKind) (nodeName : String) (demultiplexCount : Option Int) (unread : Nat)
    (metadata : NodeSessionMetadata) (tensorMap : TensorWithSourceMap) : Prop :=
  let resultsDemultiplyCount := demultiplyCount unread tensorMap
  ∀ count ∈ demultiplexCount, resultsDemultiplyCount ≤ DEMULTIPLY_LIMIT → nodeName ≠ "" →
    nodeName ∉ metadata.details.map Prod.fst →
    if ∀ output ∈ tensorMap.entries, refusal count resultsDemultiplyCount output.2 = none then
      ∀ output ∈ tensorMap.entries, Named node output.1 ∧
        resultsDemultiplyCount * innerSize output.2 = output.2.get_byte_size
    else
      ∀ output ∈ tensorMap.entries.takeWhile (decide <| refusal count resultsDemultiplyCount ·.2 = none),
        Named node output.1 → (resultsDemultiplyCount - 1) * (output.2.get_byte_size / resultsDemultiplyCount) +
          innerSize output.2 ≤ output.2.get_byte_size

section Divide

variable {node : NodeKind} {tensorName : String} {tensor : Tensor bitwidth}

/-- The types whose shards an entry node makes itself have a precision that is theirs alone. -/
theorem ovmsPrecisionToIE2Precision_inverse {elementType : ElementType}
    (h : ovElementTypeToOvmsPrecision elementType ∈
      ([.FP32, .I32, .FP64, .I64, .I8, .U8, .I16] : List Precision)) :
    .known (ovmsPrecisionToIE2Precision (ovElementTypeToOvmsPrecision elementType)) = elementType := by
  cases elementType with
  | other bits => simp [ovElementTypeToOvmsPrecision] at h
  | known type =>
    cases type
    case dynamic | boolean | bf16 | f16 | i4 | u1 | u4 | u16 | u32 | u64 | string =>
      simp [ovElementTypeToOvmsPrecision] at h
    all_goals rfl

theorem createShardedTensor_eq (h : Named node tensorName) (shape : List Nat) (i step : Nat) :
    createShardedTensor node (ovElementTypeToOvmsPrecision tensor.elementType) shape tensor i step tensorName =
      .ok ⟨tensor.elementType, shape, i * step⟩ := by
  cases node with
  | Node => rfl
  | EntryNode request =>
    obtain ⟨native, hnative⟩ : ∃ native, isNativeFileFormatUsed request tensorName = .ok native := by
      cases request with
      | InferenceRequest => exact ⟨_, rfl⟩
      | KFSRequest inputs =>
        obtain ⟨input, hm, hname⟩ := List.mem_map.mp h
        cases hfind : inputs.find? (decide <| ·.1 = tensorName) with
        | none =>
          have hnone := List.find?_eq_none.mp hfind input hm
          exact absurd hname (by simpa using hnone)
        | some found => exact ⟨decide (found.2 = "BYTES"), by simp only [isNativeFileFormatUsed, hfind]⟩
    simp only [createShardedTensor, hnative, ok_bind]
    split
    next => rfl
    next =>
      split
      next hmember => rw [ovmsPrecisionToIE2Precision_inverse hmember]; rfl
      next => rfl

theorem piece_divide (h : Named node tensorName) (count i : Nat) :
    (divide node count tensorName tensor i).piece =
      some (tensor, i * (tensor.get_byte_size / count), innerSize tensor) := by
  simp only [divide, createShardedTensor_eq h]
  rfl

theorem piece_divide_none (h : ¬ Named node tensorName) (count i : Nat) :
    (divide node count tensorName tensor i).piece = none := by
  cases node with
  | Node => exact absurd trivial h
  | EntryNode request =>
    cases request with
    | InferenceRequest => exact absurd trivial h
    | KFSRequest inputs =>
      have hfind : inputs.find? (decide <| ·.1 = tensorName) = none := by
        rw [List.find?_eq_none]
        intro input hm hname
        exact h (List.mem_map.mpr ⟨input, hm, by simpa using hname⟩)
      simp only [divide, createShardedTensor, isNativeFileFormatUsed, hfind]
      rfl

end Divide

section Emplace

variable {metas : Nat → NodeSessionMetadata} {keys : Nat → String} {tensorName : String}

/-- The sessions below a parent, with their tensors. -/
def stored (metas : Nat → NodeSessionMetadata) (keys : Nat → String) (count : Nat)
    (tensors : Nat → List (String × TensorWithSource)) : SessionResults :=
  (List.range count).map fun i => (keys i, metas i, tensors i)

theorem emplace_append (tensorName : String) {sessionKey : String} {front : SessionResults} (h : sessionKey ∉ front.map Prod.fst)
    (metadata : NodeSessionMetadata) (tensor : TensorWithSource) (results : SessionResults) :
    emplace sessionKey metadata tensorName tensor (front ++ results) =
      front ++ emplace sessionKey metadata tensorName tensor results := by
  induction front with
  | nil => rfl
  | cons entry front ih =>
    obtain ⟨key, result⟩ := entry
    rw [List.map_cons, List.mem_cons, not_or] at h
    rw [List.cons_append, emplace, if_neg (Ne.symm h.1), ih h.2]
    rfl

theorem stored_succ (count : Nat) (tensors : Nat → List (String × TensorWithSource)) :
    stored metas keys (count + 1) tensors =
      stored metas keys count tensors ++ [(keys count, metas count, tensors count)] := by
  unfold stored
  rw [List.range_succ, List.map_append]
  rfl

theorem stored_split (n more : Nat) (tensors : Nat → List (String × TensorWithSource)) :
    stored metas keys (n + 1 + more) tensors = stored metas keys n tensors ++ (keys n, metas n, tensors n) ::
      stored (fun i => metas (n + 1 + i)) (fun i => keys (n + 1 + i)) more fun i => tensors (n + 1 + i) := by
  unfold stored
  rw [List.range_add, List.range_succ, List.map_append, List.map_append, List.map_map, List.append_assoc]
  rfl

theorem stored_keys (count : Nat) (tensors : Nat → List (String × TensorWithSource)) :
    (stored metas keys count tensors).map Prod.fst = (List.range count).map keys := by
  unfold stored
  rw [List.map_map]
  rfl

theorem stored_congr {count : Nat} {tensors tensors' : Nat → List (String × TensorWithSource)}
    (h : ∀ i < count, tensors i = tensors' i) : stored metas keys count tensors = stored metas keys count tensors' := by
  apply List.map_congr_left
  intro i hi
  rw [h i (List.mem_range.mp hi)]

/-- The sessions of the first tensor are made one after the other. -/
theorem emplace_stored_new {parent : String × SessionResult} {count : Nat}
    (hparent : ∀ i, keys i ≠ parent.1) (hkeys : ∀ i j, keys i = keys j → i = j)
    (tensors : Nat → List (String × TensorWithSource)) (tensor : TensorWithSource) :
    emplace (keys count) (metas count) tensorName tensor (parent :: stored metas keys count tensors) =
      parent :: stored metas keys (count + 1) fun i => if i = count then [(tensorName, tensor)] else tensors i := by
  have hnew : keys count ∉ (parent :: stored metas keys count tensors).map Prod.fst := by
    rw [List.map_cons, List.mem_cons, stored_keys, not_or]
    refine ⟨hparent count, ?_⟩
    intro hm
    obtain ⟨i, hi, heq⟩ := List.mem_map.mp hm
    rw [hkeys i count heq] at hi
    exact absurd (List.mem_range.mp hi) (Nat.lt_irrefl _)
  have hend := emplace_append tensorName hnew (metas count) tensor []
  rw [List.append_nil] at hend
  rw [hend, stored_succ, if_pos rfl]
  have hold : stored metas keys count (fun i => if i = count then [(tensorName, tensor)] else tensors i) =
      stored metas keys count tensors := by
    apply stored_congr
    intro i hi
    rw [if_neg hi.ne]
  rw [hold]
  rfl

/-- A tensor more of a session that is there. -/
theorem emplace_stored {parent : String × SessionResult} {count n : Nat} (hn : n < count)
    (hparent : ∀ i, keys i ≠ parent.1) (hkeys : ∀ i j, keys i = keys j → i = j)
    {tensors : Nat → List (String × TensorWithSource)} (hname : tensorName ∉ (tensors n).map Prod.fst)
    (tensor : TensorWithSource) :
    emplace (keys n) (metas n) tensorName tensor (parent :: stored metas keys count tensors) =
      parent :: stored metas keys count fun i => if i = n then tensors i ++ [(tensorName, tensor)] else tensors i := by
  obtain ⟨more, hmore⟩ : ∃ more, count = n + 1 + more := ⟨count - (n + 1), by omega⟩
  have hnew : keys n ∉ (parent :: stored metas keys n tensors).map Prod.fst := by
    rw [List.map_cons, List.mem_cons, stored_keys, not_or]
    refine ⟨hparent n, ?_⟩
    intro hm
    obtain ⟨i, hi, heq⟩ := List.mem_map.mp hm
    rw [hkeys i n heq] at hi
    exact absurd (List.mem_range.mp hi) (Nat.lt_irrefl _)
  have hfront : stored metas keys n (fun i => if i = n then tensors i ++ [(tensorName, tensor)] else tensors i) =
      stored metas keys n tensors := by
    apply stored_congr
    intro i hi
    rw [if_neg hi.ne]
  rw [hmore, stored_split, stored_split, hfront, ← List.cons_append, emplace_append _ hnew, emplace, if_pos rfl,
    if_neg hname, if_pos rfl, List.cons_append]
  congr 3
  apply stored_congr
  intro i _
  rw [if_neg (by omega)]

theorem foldl_emplace_new {parent : String × SessionResult} (hparent : ∀ i, keys i ≠ parent.1)
    (hkeys : ∀ i j, keys i = keys j → i = j) (tensor : Nat → TensorWithSource) (count : Nat) :
    (List.range count).foldl (fun results i => emplace (keys i) (metas i) tensorName (tensor i) results) [parent] =
      parent :: stored metas keys count fun i => [(tensorName, tensor i)] := by
  induction count with
  | zero => rfl
  | succ count ih =>
    rw [List.range_succ, List.foldl_append, ih, List.foldl_cons, List.foldl_nil,
      emplace_stored_new hparent hkeys]
    congr 1
    apply stored_congr
    intro i _
    split
    next heq => rw [heq]
    next => rfl

theorem foldl_emplace {parent : String × SessionResult} (hparent : ∀ i, keys i ≠ parent.1)
    (hkeys : ∀ i j, keys i = keys j → i = j) {tensors : Nat → List (String × TensorWithSource)}
    (hname : ∀ i, tensorName ∉ (tensors i).map Prod.fst) (tensor : Nat → TensorWithSource) {n count : Nat}
    (hn : n ≤ count) :
    (List.range n).foldl (fun results i => emplace (keys i) (metas i) tensorName (tensor i) results)
        (parent :: stored metas keys count tensors) =
      parent :: stored metas keys count fun i =>
        if i < n then tensors i ++ [(tensorName, tensor i)] else tensors i := by
  induction n with
  | zero => simp
  | succ n ih =>
    rw [List.range_succ, List.foldl_append, ih (by omega), List.foldl_cons, List.foldl_nil,
      emplace_stored (by omega) hparent hkeys (by rw [if_neg (Nat.lt_irrefl n)]; exact hname n)]
    congr 1
    apply stored_congr
    intro i _
    by_cases heq : i = n
    · rw [heq, if_pos rfl, if_neg (Nat.lt_irrefl n), if_pos (Nat.lt_succ_self n)]
    · rw [if_neg heq]
      by_cases hlt : i < n
      · rw [if_pos hlt, if_pos (by omega)]
      · rw [if_neg hlt, if_neg (by omega)]

end Emplace

/-- A session and the sessions that may be below it, with their keys. -/
structure Keyed (metadata : NodeSessionMetadata) (sessionKey : String) (metas : Nat → NodeSessionMetadata)
    (keys : Nat → String) : Prop where
  parent : metadata.createSessionKey ∅ = .ok sessionKey
  made : ∀ i, (metas i).createSessionKey ∅ = .ok (keys i)
  other : ∀ i, keys i ≠ sessionKey
  distinct : ∀ i j, keys i = keys j → i = j

/-- The shards of some tensors for a session. -/
def held (node : NodeKind) (count : Nat) (done : List (String × Tensor bitwidth)) (i : Nat) :
    List (String × TensorWithSource) :=
  done.map fun output => (output.1, divide node count output.1 output.2 i)

/-- The outputs after some tensors have been cut. -/
def after (node : NodeKind) (count : Nat) (parent : String × SessionResult) (metas : Nat → NodeSessionMetadata)
    (keys : Nat → String) (done : List (String × Tensor bitwidth)) : SessionResults :=
  parent :: if done = [] then [] else stored metas keys count (held node count done)

section Loop

variable {node : NodeKind} {demultiplexCount : Int} {count : Nat} {metadata : NodeSessionMetadata}
  {parent : String × SessionResult} {metas : Nat → NodeSessionMetadata} {keys : Nat → String}
  {done : List (String × Tensor bitwidth)}

theorem held_keys (i : Nat) : (held node count done i).map Prod.fst = done.map Prod.fst := by
  unfold held
  rw [List.map_map]
  rfl

theorem emplace_all (h : Keyed metadata parent.1 metas keys) {output : String × Tensor bitwidth}
    (hname : output.1 ∉ done.map Prod.fst) :
    ((List.range count).map metas).zipIdx.foldlM
        (fun nodeSessionOutputs (newSessionMetadata, i) => do
          let sessionKey ← newSessionMetadata.createSessionKey ∅
          return emplace sessionKey newSessionMetadata output.1 (divide node count output.1 output.2 i)
            nodeSessionOutputs) (after node count parent metas keys done) =
      .ok (after node count parent metas keys (done ++ [output])) := by
  rw [Node.zipIdx_range_map, List.foldlM_map]
  refine (CheckedSteps.foldlM_ok (g := fun results i =>
    emplace (keys i) (metas i) output.1 (divide node count output.1 output.2 i) results) ?_ _).trans ?_
  · intro i _ results
    simp only [h.made, ok_bind]
    rfl
  · congr 1
    have hmore : done ++ [output] ≠ [] := by simp
    unfold after
    rw [if_neg hmore]
    by_cases hnil : done = []
    · rw [if_pos hnil, foldl_emplace_new h.other h.distinct, hnil]
      rfl
    · rw [if_neg hnil, foldl_emplace h.other h.distinct (fun i => by rw [held_keys]; exact hname) _ le_rfl]
      congr 1
      apply stored_congr
      intro i hi
      rw [if_pos hi, held, held, List.map_append]
      rfl

theorem erase_after (h : Keyed metadata parent.1 metas keys) :
    erase parent.1 (after node count parent metas keys done) =
      if done = [] then [] else stored metas keys count (held node count done) := by
  unfold erase after
  rw [List.filter_cons_of_neg (by simp)]
  split
  next => rfl
  next =>
    apply List.filter_eq_self.mpr
    intro result hm
    obtain ⟨i, _, rfl⟩ := List.mem_map.mp hm
    exact decide_eq_true (h.other i)

theorem count_ne_zero_of_refusal {tensor : Tensor bitwidth} (h : refusal demultiplexCount count tensor = none) :
    count ≠ 0 := by
  unfold refusal at h
  obtain ⟨_, h⟩ := CheckedSteps.none_of_ite_some h
  obtain ⟨_, h⟩ := CheckedSteps.none_of_ite_some h
  obtain ⟨_, h⟩ := CheckedSteps.none_of_ite_some h
  exact (CheckedSteps.none_of_ite_some h).1

theorem count_eq_zero_of_refusal {tensor : Tensor bitwidth}
    (h : refusal demultiplexCount count tensor = some .PIPELINE_DEMULTIPLEXER_NO_RESULTS) : count = 0 := by
  unfold refusal at h
  split at h
  next => cases h
  next =>
    split at h
    next => cases h
    next =>
      split at h
      next => cases h
      next =>
        split at h
        next hcount => exact hcount
        next => cases h

/-- The tensors before the first that does not pass the checks. -/
def accepted (demultiplexCount : Int) (count : Nat) (tensorMap : List (String × Tensor bitwidth)) :
    List (String × Tensor bitwidth) :=
  tensorMap.takeWhile (decide <| refusal demultiplexCount count ·.2 = none)

/-- How the loop over the tensors ends. -/
theorem demultiplyTensors_ends (node : NodeKind) (demultiplexCount : Int) (count : Nat)
    (h : Keyed metadata parent.1 metas keys) (done tensorMap : List (String × Tensor bitwidth))
    (hdistinct : ((done ++ tensorMap).map Prod.fst).Nodup) :
    ∃ status results, demultiplyTensors node demultiplexCount count metadata ((List.range count).map metas) tensorMap
        (after node count parent metas keys done) = .ok (status, results) ∧
      ((∀ output ∈ tensorMap, refusal demultiplexCount count output.2 = none) ∧ status = .ok () ∧
          results = erase parent.1 (after node count parent metas keys (done ++ tensorMap)) ∨
        (¬ ∀ output ∈ tensorMap, refusal demultiplexCount count output.2 = none) ∧ status ≠ .ok () ∧
          (results = after node count parent metas keys (done ++ accepted demultiplexCount count tensorMap) ∨
            count = 0 ∧ results = erase parent.1 (after node count parent metas keys done))) := by
  induction tensorMap generalizing done with
  | nil =>
    refine ⟨.ok (), erase parent.1 (after node count parent metas keys done), ?_, .inl ⟨by simp, rfl, by simp⟩⟩
    rw [demultiplyTensors, h.parent]
    rfl
  | cons output tensorMap ih =>
    have hstops : refusal demultiplexCount count output.2 ≠ none →
        accepted demultiplexCount count (output :: tensorMap) = [] := fun hrefused =>
      List.takeWhile_cons_of_neg (by simpa using hrefused)
    have hnot : refusal demultiplexCount count output.2 ≠ none →
        ¬ ∀ output' ∈ output :: tensorMap, refusal demultiplexCount count output'.2 = none := fun hrefused hall =>
      hrefused (hall output List.mem_cons_self)
    rw [demultiplyTensors]
    split
    next hrefusal =>
      have hrefused : refusal demultiplexCount count output.2 ≠ none := by simp [hrefusal]
      refine ⟨.error .PIPELINE_DEMULTIPLEXER_NO_RESULTS, erase parent.1 (after node count parent metas keys done),
        by rw [h.parent]; rfl, .inr ⟨hnot hrefused, nofun, .inr ⟨?_, rfl⟩⟩⟩
      exact count_eq_zero_of_refusal hrefusal
    next status _ hrefusal =>
      have hrefused : refusal demultiplexCount count output.2 ≠ none := by simp [hrefusal]
      exact ⟨.error status, after node count parent metas keys done, rfl,
        .inr ⟨hnot hrefused, nofun, .inl (by rw [hstops hrefused, List.append_nil])⟩⟩
    next hrefusal =>
      have hname : output.1 ∉ done.map Prod.fst := by
        rw [List.map_append, List.nodup_append] at hdistinct
        intro hm
        exact hdistinct.2.2 _ hm _ List.mem_cons_self rfl
      have happend : ∀ rest, done ++ [output] ++ rest = done ++ output :: rest := fun rest => by simp
      obtain ⟨status, results, hends, houtcome⟩ := ih (done ++ [output]) (by rw [happend]; exact hdistinct)
      refine ⟨status, results, by rw [emplace_all h hname, ok_bind]; exact hends, ?_⟩
      have hall : (∀ output' ∈ output :: tensorMap, refusal demultiplexCount count output'.2 = none) ↔
          ∀ output' ∈ tensorMap, refusal demultiplexCount count output'.2 = none := by
        simp [hrefusal]
      have haccepted : accepted demultiplexCount count (output :: tensorMap) =
          output :: accepted demultiplexCount count tensorMap :=
        List.takeWhile_cons_of_pos (by simpa using hrefusal)
      rw [happend, happend] at houtcome
      rw [hall, haccepted]
      rcases houtcome with houtcome | ⟨hrefused, hstatus, hresults | ⟨hzero, _⟩⟩
      · exact .inl houtcome
      · exact .inr ⟨hrefused, hstatus, .inl hresults⟩
      · exact absurd hzero (count_ne_zero_of_refusal hrefusal)

theorem held_lookup (hdistinct : (done.map Prod.fst).Nodup) {output : String × Tensor bitwidth} (hm : output ∈ done)
    (i : Nat) : (held node count done i).lookup output.1 = some (divide node count output.1 output.2 i) := by
  apply lookup_of_mem
  · rw [held_keys]
    exact hdistinct
  · exact List.mem_map.mpr ⟨output, hm, rfl⟩

theorem stored_pieces (hdistinct : (done.map Prod.fst).Nodup) {output : String × Tensor bitwidth}
    (hm : output ∈ done) :
    (stored metas keys count (held node count done)).map
        (fun result => (result.2.2.lookup output.1).bind (·.piece)) =
      (List.range count).map fun i => (divide node count output.1 output.2 i).piece := by
  unfold stored
  rw [List.map_map]
  apply List.map_congr_left
  intro i _
  show ((held node count done i).lookup output.1).bind _ = _
  rw [held_lookup hdistinct hm]
  rfl

theorem partitioned_iff {nodeName : String} (h : Keyed metadata parent.1 metas keys) (hcount : count ≠ 0)
    (hmetas : metadata.generateSubsessions nodeName count = .ok ((List.range count).map metas))
    (tensorMap : TensorWithSourceMap) :
    Partitioned nodeName count metadata tensorMap (stored metas keys count (held node count tensorMap.entries)) ↔
      ∀ output ∈ tensorMap.entries, Named node output.1 ∧ count * innerSize output.2 = output.2.get_byte_size := by
  have hpos : 0 < count := Nat.pos_of_ne_zero hcount
  constructor
  · intro hpartitioned output hm
    obtain ⟨pieces, hpieces, htiles, _⟩ := hpartitioned.shards output hm
    rw [stored_pieces tensorMap.nodup hm] at hpieces
    have hnamed : Named node output.1 := by
      by_contra hnot
      have hfirst := congrArg List.head? hpieces
      obtain ⟨fewer, rfl⟩ : ∃ fewer, count = fewer + 1 := ⟨count - 1, by omega⟩
      rw [List.range_succ_eq_map, List.map_cons, piece_divide_none hnot] at hfirst
      cases pieces with
      | nil => cases hfirst
      | cons => cases hfirst
    refine ⟨hnamed, (tiles_parts_iff hpos).mp ?_⟩
    have heq : (List.range count).map (fun i => (i * (output.2.get_byte_size / count), innerSize output.2)) = pieces := by
      have hsome : Function.Injective fun piece : Nat × Nat => some (output.2, piece) := by
        intro piece piece' hsame
        cases hsame
        rfl
      apply List.map_injective_iff.mpr hsome
      rw [← hpieces, List.map_map]
      apply List.map_congr_left
      intro i _
      exact (piece_divide hnamed count i).symm
    rw [heq]
    exact htiles
  · intro hall
    exact {
      length := by simp [stored]
      sessions := by
        rw [hmetas, stored, List.map_map]
        rfl
      keys := by
        intro result hm
        obtain ⟨i, _, rfl⟩ := List.mem_map.mp hm
        exact h.made i
      distinct := by
        rw [stored_keys]
        exact List.nodup_range.map (fun i j => h.distinct i j)
      names := by
        intro result hm
        obtain ⟨i, _, rfl⟩ := List.mem_map.mp hm
        exact held_keys i
      shards := by
        intro output hm
        obtain ⟨hnamed, htotal⟩ := hall output hm
        have htiles := (tiles_parts_iff hpos).mpr htotal
        refine ⟨_, ?_, htiles, ?_⟩
        · rw [stored_pieces tensorMap.nodup hm, List.map_map]
          apply List.map_congr_left
          intro i _
          exact piece_divide hnamed count i
        · apply Tiles.whole
          rw [output.2.size_eq]
          exact htiles }

theorem within_after (hparent : ∀ output ∈ parent.2.2, output.2.piece = none) (hcount : count ≠ 0 ∨ done = []) :
    Within (after node count parent metas keys done) ↔ ∀ output ∈ done, Named node output.1 →
      (count - 1) * (output.2.get_byte_size / count) + innerSize output.2 ≤ output.2.get_byte_size := by
  constructor
  · intro hwithin output hm hnamed
    have hne : done ≠ [] := List.ne_nil_of_mem hm
    have hpos := Nat.pos_of_ne_zero (hcount.resolve_right hne)
    have hresult : (keys (count - 1), metas (count - 1), held node count done (count - 1)) ∈
        after node count parent metas keys done := by
      unfold after
      rw [if_neg hne]
      apply List.mem_cons_of_mem
      exact List.mem_map.mpr ⟨count - 1, List.mem_range.mpr (by omega), rfl⟩
    exact hwithin _ hresult (output.1, divide node count output.1 output.2 (count - 1))
      (List.mem_map.mpr ⟨output, hm, rfl⟩) _ (piece_divide hnamed count (count - 1))
  · intro hall result hresult output' houtput' piece hpiece
    unfold after at hresult
    rcases List.mem_cons.mp hresult with rfl | hresult
    · rw [hparent output' houtput'] at hpiece
      cases hpiece
    · split at hresult
      next => cases hresult
      next =>
        obtain ⟨i, hi, rfl⟩ := List.mem_map.mp hresult
        obtain ⟨output, hm, rfl⟩ := List.mem_map.mp houtput'
        have hi := List.mem_range.mp hi
        by_cases hnamed : Named node output.1
        · rw [show (output.1, divide node count output.1 output.2 i).2 = divide node count output.1 output.2 i from rfl,
            piece_divide hnamed] at hpiece
          cases hpiece
          have hlast := hall output hm hnamed
          have hle : i * (output.2.get_byte_size / count) ≤ (count - 1) * (output.2.get_byte_size / count) :=
            Nat.mul_le_mul_right _ (by omega)
          exact (Nat.add_le_add_right hle _).trans hlast
        · rw [show (output.1, divide node count output.1 output.2 i).2 = divide node count output.1 output.2 i from rfl,
            piece_divide_none hnamed] at hpiece
          cases hpiece

theorem demultiplyTensors_sound_iff (node : NodeKind) (demultiplexCount : Int) {nodeName : String} (h : Keyed metadata parent.1 metas keys)
    (hmetas : metadata.generateSubsessions nodeName count = .ok ((List.range count).map metas))
    (hparent : ∀ output ∈ parent.2.2, output.2.piece = none) (tensorMap : TensorWithSourceMap) :
    ∃ status results, demultiplyTensors node demultiplexCount count metadata ((List.range count).map metas)
        tensorMap.entries [parent] = .ok (status, results) ∧
      (Sound nodeName count metadata tensorMap status results ↔
        if ∀ output ∈ tensorMap.entries, refusal demultiplexCount count output.2 = none then
          ∀ output ∈ tensorMap.entries, Named node output.1 ∧ count * innerSize output.2 = output.2.get_byte_size
        else
          ∀ output ∈ accepted demultiplexCount count tensorMap.entries, Named node output.1 →
            (count - 1) * (output.2.get_byte_size / count) + innerSize output.2 ≤ output.2.get_byte_size) := by
  have hstart : after node count parent metas keys [] = [parent] := by
    rw [after, if_pos rfl]
  obtain ⟨status, results, hends, houtcome⟩ :=
    demultiplyTensors_ends node demultiplexCount count h [] tensorMap.entries tensorMap.nodup
  rw [hstart] at hends
  refine ⟨status, results, hends, ?_⟩
  have hne : tensorMap.entries ≠ [] := List.cons_ne_nil _ _
  rcases houtcome with ⟨hall, hstatus, hresults⟩ | ⟨hrefused, hstatus, hresults⟩
  · have hcount := count_ne_zero_of_refusal (hall tensorMap.begin List.mem_cons_self)
    rw [if_pos hall, ← partitioned_iff h hcount hmetas tensorMap]
    rw [erase_after h, List.nil_append, if_neg hne] at hresults
    rw [hresults, hstatus]
    exact ⟨fun hsound => hsound.partitioned rfl, fun hpartitioned => ⟨fun _ => hpartitioned, fun hnot => absurd rfl hnot⟩⟩
  · rw [if_neg hrefused]
    have hcount : count ≠ 0 ∨ accepted demultiplexCount count tensorMap.entries = [] := by
      by_cases hzero : count = 0
      · right
        apply List.takeWhile_cons_of_neg
        intro haccepted
        exact count_ne_zero_of_refusal (of_decide_eq_true haccepted) hzero
      · exact .inl hzero
    have hafter : Within (after node count parent metas keys (accepted demultiplexCount count tensorMap.entries)) ↔ _ :=
      within_after hparent hcount
    rw [← hafter]
    constructor
    · intro hsound
      have hwithin := hsound.within hstatus
      rcases hresults with hresults | ⟨hzero, _⟩
      · rw [hresults] at hwithin
        exact hwithin
      · rw [hcount.resolve_left (not_not.mpr hzero), within_after hparent (.inr rfl)]
        nofun
    · intro hwithin
      refine ⟨fun hok => absurd hok hstatus, fun _ => ?_⟩
      rcases hresults with hresults | ⟨_, hresults⟩
      · rw [hresults]
        exact hwithin
      · rw [hresults, erase_after h, if_pos rfl]
        nofun

end Loop

section Keys

variable {levels : List (String × Nat)} {index : List Nat} {nodeName : String} {count : Nat}

/-- The text of a level more is longer. -/
theorem length_levelsText (level : String × Nat) (levels : List (String × Nat)) :
    (levelsText levels).length < (levelsText (level :: levels)).length := by
  have hfollowing : (levelsText levels).length ≤ (followingText levels).length := by
    cases levels with
    | nil => exact Nat.le_refl _
    | cons level levels =>
      simp only [levelsText, followingText, String.length_append]
      omega
  obtain ⟨name, id⟩ := level
  have hseparator : "_".length = 1 := rfl
  show (levelsText levels).length < (name ++ "_" ++ toString id ++ followingText levels).length
  rw [String.length_append, String.length_append, String.length_append, hseparator]
  omega

theorem keyed_below (h : Fresh {} (levels ++ [(nodeName, count)])) (hlength : index.length = levels.length) :
    ∃ sessionKey keys, Keyed (below {} levels index) sessionKey
      (fun i => below {} (levels ++ [(nodeName, count)]) (index ++ [i])) keys := by
  have hlevels : Fresh {} levels := h.mono (List.prefix_append _ _)
  have hlengths : ∀ i, (index ++ [i]).length = (levels ++ [(nodeName, count)]).length := by
    intro i
    rw [List.length_append, List.length_append, hlength]
    rfl
  obtain ⟨metas, hmetas⟩ : ∃ metas : Nat → NodeSessionMetadata,
      ∀ i, metas i = below {} (levels ++ [(nodeName, count)]) (index ++ [i]) := ⟨_, fun _ => rfl⟩
  have hids : ∀ i, ((levels.map Prod.fst).reverse.map fun level => (level, (metas i).subsessionId level)) =
      (levels.map Prod.fst).reverse.map fun level => (level, (below {} levels index).subsessionId level) := by
    intro i
    apply List.map_congr_left
    intro level hm
    have hnew : level ∉ [(nodeName, count)].map Prod.fst := by
      have hnodup := h.nodup
      rw [List.map_append, List.nodup_append] at hnodup
      exact fun hin => hnodup.2.2 _ (List.mem_reverse.mp hm) _ hin rfl
    rw [hmetas, below_append hlength, subsessionId, subsessionId, lookup_above (by rfl) hnew]
  have hmade : ∀ i, (metas i).createSessionKey ∅ = .ok (levelsText ((nodeName, (metas i).subsessionId nodeName) ::
      (levels.map Prod.fst).reverse.map fun level => (level, (below {} levels index).subsessionId level))) := by
    intro i
    have hkey := createSessionKey_levels h (hlengths i)
    rw [← hmetas, List.map_append, List.reverse_append, List.map_append, hids] at hkey
    exact hkey
  refine ⟨_, fun i => levelsText ((nodeName, (metas i).subsessionId nodeName) ::
    (levels.map Prod.fst).reverse.map fun level => (level, (below {} levels index).subsessionId level)),
    createSessionKey_levels hlevels hlength, ?_, ?_, ?_⟩
  · intro i
    rw [← hmetas]
    exact hmade i
  · intro i heq
    have hlonger := length_levelsText (nodeName, (metas i).subsessionId nodeName)
      ((levels.map Prod.fst).reverse.map fun level => (level, (below {} levels index).subsessionId level))
    rw [heq] at hlonger
    exact Nat.lt_irrefl _ hlonger
  · intro i j heq
    have hkeys : (metas i).createSessionKey ∅ = (metas j).createSessionKey ∅ := by
      rw [hmade, hmade, heq]
    rw [hmetas, hmetas] at hkeys
    have hsame := index_eq_of_createSessionKey h (hlengths i) (hlengths j) hkeys
    simpa using hsame

end Keys

section Outputs

variable {levels : List (String × Nat)} {index : List Nat} (h : Fresh {} levels) (hlength : index.length = levels.length)
  {nodeName : String} {unread : Nat} {tensorMap : TensorWithSourceMap}
include h hlength

/-- The loop over the tensors is reached. -/
theorem demultiplyOutputs_starts (node : NodeKind) (demultiplexCount : Int)
    (hlimit : demultiplyCount unread tensorMap ≤ DEMULTIPLY_LIMIT)
    (hname : nodeName ≠ "" ∧ nodeName ∉ (below {} levels index).details.map Prod.fst) :
    ∃ (parent : String × SessionResult) (metas : Nat → NodeSessionMetadata) (keys : Nat → String),
      Keyed (below {} levels index) parent.1 metas keys ∧
      (below {} levels index).generateSubsessions nodeName (demultiplyCount unread tensorMap) =
        .ok ((List.range (demultiplyCount unread tensorMap)).map metas) ∧
      (∀ output ∈ parent.2.2, output.2.piece = none) ∧
      demultiplyOutputs node nodeName (some demultiplexCount) unread (below {} levels index) tensorMap =
        demultiplyTensors node demultiplexCount (demultiplyCount unread tensorMap) (below {} levels index)
          ((List.range (demultiplyCount unread tensorMap)).map metas) tensorMap.entries [parent] := by
  have hnew : nodeName ∉ levels.map Prod.fst := by
    rw [← entries_fst hlength]
    exact hname.2
  have hfresh := h.snoc hname.1 hnew List.not_mem_nil List.not_mem_nil (demultiplyCount unread tensorMap)
  obtain ⟨sessionKey, keys, hkeyed⟩ := keyed_below hfresh hlength
  have hmetas : (below {} levels index).generateSubsessions nodeName (demultiplyCount unread tensorMap) =
      .ok ((List.range (demultiplyCount unread tensorMap)).map fun i =>
        below {} (levels ++ [(nodeName, demultiplyCount unread tensorMap)]) (index ++ [i])) := by
    rw [generateSubsessions_eq (hfresh.below hlength)]
    congr 1
    apply List.map_congr_left
    intro i _
    rw [below_append hlength]
    rfl
  refine ⟨(sessionKey, below {} levels index, tensorMap.entries.map fun output => (output.1, .actual output.2)), _, keys,
    hkeyed, hmetas, ?_, ?_⟩
  · intro output hm
    obtain ⟨output, _, rfl⟩ := List.mem_map.mp hm
    rfl
  · unfold demultiplyOutputs
    simp only [hkeyed.parent, ok_bind, hmetas, if_neg hlimit.not_gt]

/-- The loop over the tensors is not reached. -/
theorem demultiplyOutputs_refused (node : NodeKind) {demultiplexCount : Option Int}
    (hrefused : ¬ (demultiplexCount.isSome ∧ demultiplyCount unread tensorMap ≤ DEMULTIPLY_LIMIT ∧ nodeName ≠ "" ∧
      nodeName ∉ (below {} levels index).details.map Prod.fst)) :
    ∃ status results, demultiplyOutputs node nodeName demultiplexCount unread (below {} levels index) tensorMap =
      .ok (.error status, results) ∧ Within results := by
  have hwithin : ∀ sessionKey, Within [(sessionKey, below {} levels index,
      tensorMap.entries.map fun output => (output.1, .actual output.2))] := by
    intro sessionKey result hresult output hm piece hpiece
    rw [List.mem_singleton.mp hresult] at hm
    obtain ⟨output, _, rfl⟩ := List.mem_map.mp hm
    cases hpiece
  have hkey := createSessionKey_levels h hlength
  unfold demultiplyOutputs
  cases demultiplexCount with
  | none =>
    rw [hkey]
    exact ⟨_, _, rfl, hwithin _⟩
  | some demultiplexCount =>
    rw [hkey]
    simp only [ok_bind]
    by_cases hlimit : DEMULTIPLY_LIMIT < demultiplyCount unread tensorMap
    · rw [if_pos hlimit]
      exact ⟨_, _, rfl, hwithin _⟩
    · rw [if_neg hlimit]
      have hname : ¬ (nodeName ≠ "" ∧ nodeName ∉ (below {} levels index).details.map Prod.fst) := fun hname =>
        hrefused ⟨rfl, Nat.le_of_not_lt hlimit, hname⟩
      obtain ⟨message, hmessage⟩ := generateSubsessions_refused hname (demultiplyCount unread tensorMap)
      rw [hmessage]
      exact ⟨_, _, rfl, hwithin _⟩

theorem demultiplyOutputs_sound_iff (node : NodeKind) (nodeName : String) (demultiplexCount : Option Int) (unread : Nat)
    (tensorMap : TensorWithSourceMap) :
    ∃ status results, demultiplyOutputs node nodeName demultiplexCount unread (below {} levels index) tensorMap =
        .ok (status, results) ∧
      (Sound nodeName (demultiplyCount unread tensorMap) (below {} levels index) tensorMap status results ↔
        Divides node nodeName demultiplexCount unread (below {} levels index) tensorMap) := by
  by_cases hstarts : demultiplexCount.isSome ∧ demultiplyCount unread tensorMap ≤ DEMULTIPLY_LIMIT ∧ nodeName ≠ "" ∧
      nodeName ∉ (below {} levels index).details.map Prod.fst
  · obtain ⟨hsome, hlimit, hname⟩ := hstarts
    obtain ⟨count, rfl⟩ := Option.isSome_iff_exists.mp hsome
    obtain ⟨parent, metas, keys, hkeyed, hmetas, hparent, hrun⟩ :=
      demultiplyOutputs_starts h hlength node count hlimit hname
    obtain ⟨status, results, hends, hiff⟩ := demultiplyTensors_sound_iff node count hkeyed hmetas hparent tensorMap
    refine ⟨status, results, hrun.trans hends, hiff.trans ?_⟩
    constructor
    · intro hcuts count' hcount _ _ _
      cases hcount
      exact hcuts
    · exact fun hdivides => hdivides count rfl hlimit hname.1 hname.2
  · obtain ⟨status, results, hrun, hwithin⟩ := demultiplyOutputs_refused h hlength node hstarts
    refine ⟨_, _, hrun, iff_of_true ⟨nofun, fun _ => hwithin⟩ ?_⟩
    intro count hcount hlimit hnonempty hunused
    exact absurd ⟨Option.isSome_iff_exists.mpr ⟨count, hcount⟩, hlimit, hnonempty, hunused⟩ hstarts

/-- A call that returns `OK` leaves a session for each part of the first tensor, and has checked every tensor. -/
theorem demultiplyOutputs_ok {node : NodeKind} {demultiplexCount : Option Int} {results : SessionResults}
    (hok : demultiplyOutputs node nodeName demultiplexCount unread (below {} levels index) tensorMap =
      .ok (.ok (), results)) :
    ∃ count, demultiplexCount = some count ∧ nodeName ≠ "" ∧ results.length = demultiplyCount unread tensorMap ∧
      ∀ output ∈ tensorMap.entries, refusal count (demultiplyCount unread tensorMap) output.2 = none := by
  by_cases hstarts : demultiplexCount.isSome ∧ demultiplyCount unread tensorMap ≤ DEMULTIPLY_LIMIT ∧ nodeName ≠ "" ∧
      nodeName ∉ (below {} levels index).details.map Prod.fst
  · obtain ⟨hsome, hlimit, hname⟩ := hstarts
    obtain ⟨count, rfl⟩ := Option.isSome_iff_exists.mp hsome
    obtain ⟨parent, metas, keys, hkeyed, _, _, hrun⟩ := demultiplyOutputs_starts h hlength node count hlimit hname
    obtain ⟨status, results', hends, houtcome⟩ := demultiplyTensors_ends node count (demultiplyCount unread tensorMap)
      hkeyed [] tensorMap.entries tensorMap.nodup
    have hstart : after node (demultiplyCount unread tensorMap) parent metas keys [] = [parent] := by
      rw [after, if_pos rfl]
    rw [hstart, ← hrun, hok] at hends
    cases hends
    rcases houtcome with ⟨hall, _, hresults⟩ | ⟨_, hstatus, _⟩
    · refine ⟨count, rfl, hname.1, ?_, hall⟩
      have hne : tensorMap.entries ≠ [] := List.cons_ne_nil _ _
      rw [hresults, erase_after hkeyed, List.nil_append, if_neg hne, stored, List.length_map, List.length_range]
    · exact absurd rfl hstatus
  · obtain ⟨status, results', hrun, _⟩ := demultiplyOutputs_refused h hlength node hstarts
    rw [hok] at hrun
    cases hrun

end Outputs

section Balance

variable {tensor : Tensor bitwidth} {dim : Nat} {rest : List Nat}

/-- As many shards as the tensor has parts make it up, and others only where it has no bytes. -/
theorem mul_innerSize_iff (hbits : 8 ∣ bitwidth tensor.elementType) (hshape : tensor.shape = dim :: rest)
    (count : Nat) : count * innerSize tensor = tensor.get_byte_size ↔ count = dim ∨ innerSize tensor = 0 := by
  have htotal : tensor.get_byte_size = dim * innerSize tensor := by
    have happend := byteSize_append hbits [dim] rest
    rw [List.prod_singleton] at happend
    rw [Tensor.get_byte_size, innerSize, hshape]
    exact happend
  rw [htotal]
  exact mul_eq_mul_right_iff

/-- A tensor that passes the checks has a first dimension, which is a fixed count. -/
theorem exists_dim_of_refusal {demultiplexCount : Int} {count : Nat} (h : refusal demultiplexCount count tensor = none) :
    ∃ dim rest, tensor.shape = dim :: rest ∧ (demultiplexCount ≠ -1 → (dim : Int) = demultiplexCount % 2 ^ 64) := by
  unfold refusal at h
  obtain ⟨_, h⟩ := CheckedSteps.none_of_ite_some h
  obtain ⟨hlength, h⟩ := CheckedSteps.none_of_ite_some h
  obtain ⟨hdim, _⟩ := CheckedSteps.none_of_ite_some h
  cases hshape : tensor.shape with
  | nil =>
    rw [hshape] at hlength
    exact absurd (by decide) hlength
  | cons dim rest =>
    rw [hshape] at hdim
    refine ⟨dim, rest, rfl, fun hfixed => ?_⟩
    by_contra hne
    exact hdim ⟨hfixed, hne⟩

/-- A node with a fixed count cuts tensors of whole bytes without a gap, and inside. -/
theorem divides_of_fixed {node : NodeKind} {nodeName : String} {demultiplexCount : Int}
    (hfixed : demultiplexCount ≠ -1) (unread : Nat) (metadata : NodeSessionMetadata) {tensorMap : TensorWithSourceMap}
    (hbits : ∀ output ∈ tensorMap.entries, 8 ∣ bitwidth output.2.elementType)
    (hnamed : ∀ output ∈ tensorMap.entries, Named node output.1) :
    Divides node nodeName (some demultiplexCount) unread metadata tensorMap := by
  intro count hcount _ _ _
  cases hcount
  have hbegin : tensorMap.begin ∈ tensorMap.entries := List.mem_cons_self
  have hcut : ∀ output ∈ tensorMap.entries,
      refusal demultiplexCount (demultiplyCount unread tensorMap) tensorMap.begin.2 = none →
      refusal demultiplexCount (demultiplyCount unread tensorMap) output.2 = none →
      demultiplyCount unread tensorMap * innerSize output.2 = output.2.get_byte_size := by
    intro output hm hfirst haccepted
    obtain ⟨dim, rest, hshape, hdim⟩ := exists_dim_of_refusal haccepted
    obtain ⟨dim', rest', hshape', hdim'⟩ := exists_dim_of_refusal hfirst
    have hdim := hdim hfixed
    have hdim' := hdim' hfixed
    rw [mul_innerSize_iff (hbits output hm) hshape]
    left
    rw [demultiplyCount, hshape']
    show dim' = dim
    omega
  split
  next hall => exact fun output hm => ⟨hnamed output hm, hcut output hm (hall _ hbegin) (hall output hm)⟩
  next =>
    intro output hm _
    have htrue := List.mem_takeWhile_imp hm
    have haccepted : refusal demultiplexCount (demultiplyCount unread tensorMap) output.2 = none :=
      of_decide_eq_true htrue
    have hfirst : refusal demultiplexCount (demultiplyCount unread tensorMap) tensorMap.begin.2 = none := by
      by_contra hrefused
      rw [TensorWithSourceMap.entries, List.takeWhile_cons_of_neg (by simpa using hrefused)] at hm
      cases hm
    have hin := (List.takeWhile_prefix _).subset hm
    have htotal := hcut output hin hfirst haccepted
    have hpos := Nat.pos_of_ne_zero (count_ne_zero_of_refusal haccepted)
    generalize demultiplyCount unread tensorMap = count at htotal hpos ⊢
    obtain ⟨fewer, rfl⟩ : ∃ fewer, count = fewer + 1 := ⟨count - 1, by omega⟩
    rw [← htotal, Nat.mul_div_cancel_left _ hpos, Nat.add_sub_cancel, Nat.succ_mul]

end Balance

/-- A tensor of floats, all of them zero. -/
def zeros (shape : List Nat) : Tensor bitwidth where
  elementType := .known .f32
  shape := shape
  data := List.replicate (byteSize (bitwidth (.known .f32)) shape) 0
  size_eq := List.length_replicate

/-- Two inputs of a request. -/
def inputs (shape shape' : List Nat) : TensorWithSourceMap where
  begin := ("images", zeros shape)
  rest := [("masks", zeros shape')]
  distinct := by simp

theorem demultiplyOutputs_sound_iff_inputs :
    ∃ status results, demultiplyOutputs .Node "request" (some (-1)) 0 (below {} [] [])
        (inputs [2, 1, 1] [2, 3, 1]) = .ok (status, results) ∧
      (Sound "request" 2 (below {} [] []) (inputs [2, 1, 1] [2, 3, 1]) status results ↔
        Divides .Node "request" (some (-1)) 0 (below {} [] []) (inputs [2, 1, 1] [2, 3, 1])) :=
  demultiplyOutputs_sound_iff ⟨by simp, by simp, by simp, by simp⟩ rfl .Node "request" (some (-1)) 0 _

/-- A session has a shard of a tensor that goes beyond the bytes of the tensor. -/
def overruns (tensorName : String) (results : SessionResults) : Bool :=
  results.any fun result => ((result.2.2.lookup tensorName).bind (·.piece)).any fun piece =>
    decide (piece.1.get_byte_size < piece.2.1 + piece.2.2)

theorem Partitioned.not_overruns {nodeName : String} {count : Nat} {metadata : NodeSessionMetadata}
    {tensorMap : TensorWithSourceMap} {results : SessionResults}
    (h : Partitioned nodeName count metadata tensorMap results) {output : String × Tensor bitwidth}
    (hm : output ∈ tensorMap.entries) : overruns output.1 results = false := by
  obtain ⟨pieces, hpieces, htiles, _⟩ := h.shards output hm
  apply List.any_eq_false.mpr
  intro result hresult
  have hin : (result.2.2.lookup output.1).bind (·.piece) ∈ pieces.map fun piece => some (output.2, piece) := by
    rw [← hpieces]
    exact List.mem_map.mpr ⟨result, hresult, rfl⟩
  obtain ⟨piece, hpiece, heq⟩ := List.mem_map.mp hin
  rw [← heq]
  have hwithin := (htiles.within hpiece).2
  simpa using hwithin

/-- The second shard of an input of one part, next to an input of two parts. -/
theorem masks_overrun : ¬ ∀ (node : NodeKind) (nodeName : String) (demultiplexCount : Option Int) (unread : Nat)
    (levels : List (String × Nat)) (index : List Nat) (tensorMap : TensorWithSourceMap),
    Fresh {} levels → index.length = levels.length →
    (∀ output ∈ tensorMap.entries, output.2.elementType ≠ .known .string) →
    ∃ status results, demultiplyOutputs node nodeName demultiplexCount unread (below {} levels index) tensorMap =
        .ok (status, results) ∧
      Sound nodeName (demultiplyCount unread tensorMap) (below {} levels index) tensorMap status results := by
  intro hall
  obtain ⟨status, results, hends, hsound⟩ := hall .Node "request" (some (-1)) 0 [] [] (inputs [2, 1, 1] [1, 1, 1])
    ⟨by simp, by simp, by simp, by simp⟩ rfl (by simp [inputs, TensorWithSourceMap.entries, zeros])
  have hrun : (demultiplyOutputs .Node "request" (some (-1)) 0 (below {} [] []) (inputs [2, 1, 1] [1, 1, 1])).toOption.map
      (fun outcome => (outcome.1.toOption, overruns "masks" outcome.2)) = some (some (), true) := by
    decide
  rw [hends] at hrun
  have hrun : (status.toOption, overruns "masks" results) = (some (), true) := Option.some.inj hrun
  have hstatus : status = .ok () := by
    cases status with
    | error => cases (Prod.mk.inj hrun).1
    | ok => rfl
  have hmasks : ("masks", zeros [1, 1, 1]) ∈ (inputs [2, 1, 1] [1, 1, 1]).entries :=
    List.mem_cons_of_mem _ List.mem_cons_self
  have hnot := (hsound.partitioned hstatus).not_overruns hmasks
  rw [(Prod.mk.inj hrun).2] at hnot
  cases hnot

end ModelServer.ShardedOutputs
