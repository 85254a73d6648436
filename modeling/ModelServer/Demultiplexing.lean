import ModelServer.Gathering
import ModelServer.Subsessions

namespace ModelServer

variable {ElementType : Type} {bitwidth : ElementType → Nat}

def DEMULTIPLY_LIMIT : Nat := 10000

namespace Tensor

theorem ext' {tensor tensor' : Tensor bitwidth} (htype : tensor.elementType = tensor'.elementType)
    (hshape : tensor.shape = tensor'.shape) (hdata : tensor.data = tensor'.data) : tensor = tensor' := by
  cases tensor
  cases tensor'
  cases htype
  cases hshape
  cases hdata
  rfl

/-- The shard at place `i` below the first `levels` dimensions. -/
def shard (levels i : Nat) (tensor : Tensor bitwidth) : Tensor bitwidth where
  elementType := tensor.elementType
  shape := tensor.shape.drop levels
  data :=
    let size := byteSize (bitwidth tensor.elementType) (tensor.shape.drop levels)
    (RowMajor.block size i tensor.data ++ List.replicate size 0).take size
  size_eq := by
    simp

/-- `createTensorWithNoDataOwnership`: a tensor over bytes of another one, from `offset` on. -/
def createTensorWithNoDataOwnership (tensor : Tensor bitwidth) (shape : List Nat) (offset : Nat) :
    Except StatusCode (Tensor bitwidth) :=
  if h : offset + byteSize (bitwidth tensor.elementType) shape ≤ tensor.data.length then
    .ok {
      elementType := tensor.elementType
      shape := shape
      data := (tensor.data.drop offset).take (byteSize (bitwidth tensor.elementType) shape)
      size_eq := by
        rw [List.length_take, List.length_drop]
        omega }
  else .error .outOfBounds

end Tensor

namespace Node

/-- The shards of one output. -/
def demultiplyTensor [DecidableEq ElementType] (stringType : ElementType) (demultiplexCount : Int) (resultsDemultiplyCount : Nat)
    (tensor : Tensor bitwidth) : Except StatusCode (List (Tensor bitwidth)) :=
  if tensor.elementType = stringType then .error .PIPELINE_STRING_DEMUILTIPLICATION_UNSUPPORTED
  else match tensor.shape with
    | dim :: newDims =>
      if newDims.length < 2 then .error .PIPELINE_WRONG_NUMBER_OF_DIMENSIONS_TO_DEMULTIPLY
      else if demultiplexCount ≠ -1 ∧ (dim : Int) ≠ demultiplexCount % 2 ^ 64 then
        .error .PIPELINE_WRONG_DIMENSION_SIZE_TO_DEMULTIPLY
      else if resultsDemultiplyCount = 0 then .error .PIPELINE_DEMULTIPLEXER_NO_RESULTS
      else
        let step := tensor.get_byte_size / resultsDemultiplyCount
        (List.range resultsDemultiplyCount).mapM fun i => tensor.createTensorWithNoDataOwnership newDims (i * step)
    | [] => .error .PIPELINE_WRONG_NUMBER_OF_DIMENSIONS_TO_DEMULTIPLY

/-- The outputs of a session, from the first of the map on, become the outputs of its subsessions. -/
def demultiplyOutputs [DecidableEq ElementType] (stringType : ElementType) (nodeName : String) (demultiplexCount : Int)
    (metadata : NodeSessionMetadata) (tensorMap : List (String × Tensor bitwidth)) :
    Except StatusCode (List (NodeSessionMetadata × List (String × Tensor bitwidth))) :=
  match tensorMap.head?.bind (·.2.shape.head?) with
  | none => .error .outOfRange
  | some resultsDemultiplyCount =>
    if DEMULTIPLY_LIMIT < resultsDemultiplyCount then .error .PIPELINE_TOO_LARGE_DIMENSION_SIZE_TO_DEMULTIPLY
    else match metadata.generateSubsessions nodeName resultsDemultiplyCount with
      | .error _ => .error .INTERNAL_ERROR
      | .ok newSessionMetadatas => do
        let shards ← tensorMap.mapM fun (tensorName, tensor) => do
          let dividedTensors ← demultiplyTensor stringType demultiplexCount resultsDemultiplyCount tensor
          return (tensorName, dividedTensors)
        return newSessionMetadatas.zipIdx.map fun (newSessionMetadata, i) =>
          (newSessionMetadata, shards.filterMap fun (tensorName, dividedTensors) =>
            dividedTensors[i]?.map (tensorName, ·))

/-- Demultiplexers one below the other, with the names and counts of their nodes, that pass on what they get. -/
def demultiplyLevels [DecidableEq ElementType] (stringType : ElementType) (metadata : NodeSessionMetadata)
    (tensorMap : List (String × Tensor bitwidth)) :
    List (String × Int) → Except StatusCode (List (NodeSessionMetadata × List (String × Tensor bitwidth)))
  | [] => .ok [(metadata, tensorMap)]
  | (nodeName, demultiplexCount) :: levels => do
    let outputs ← demultiplyOutputs stringType nodeName demultiplexCount metadata tensorMap
    let nested ← outputs.mapM fun (metadata, tensorMap) => demultiplyLevels stringType metadata tensorMap levels
    return nested.flatten

/-- A tensor that can be split at levels of these sizes. -/
structure Splits (stringType : ElementType) (sizes : List Nat) (tensor : Tensor bitwidth) : Prop where
  notString : tensor.elementType ≠ stringType
  bits : 8 ∣ bitwidth tensor.elementType
  shape : ∃ rest, tensor.shape = sizes ++ rest ∧ 2 ≤ rest.length

variable {stringType : ElementType} {sizes : List Nat} {tensor : Tensor bitwidth}

theorem shard_size (h : Splits stringType sizes tensor) :
    tensor.data.length = sizes.prod * byteSize (bitwidth tensor.elementType) (tensor.shape.drop sizes.length) := by
  obtain ⟨rest, hshape, _⟩ := h.shape
  rw [tensor.size_eq, hshape, List.drop_left, byteSize_append h.bits]

theorem shard_data (h : Splits stringType sizes tensor) {i : Nat} (hi : i < sizes.prod) :
    (tensor.shard sizes.length i).data =
      RowMajor.block (byteSize (bitwidth tensor.elementType) (tensor.shape.drop sizes.length)) i tensor.data := by
  have hlength := RowMajor.length_block (shard_size h) hi
  show (RowMajor.block _ i tensor.data ++ _).take _ = _
  rw [List.take_append_of_le_length hlength.ge, List.take_of_length_le hlength.le]

/-- A shard of a shard. -/
theorem shard_shard {size : Nat} (h : Splits stringType (size :: sizes) tensor) {i j : Nat} (hi : i < size)
    (hj : j < sizes.prod) :
    (tensor.shard 1 i).shard sizes.length j = tensor.shard (sizes.length + 1) (i * sizes.prod + j) := by
  obtain ⟨rest, hshape, hrest⟩ := h.shape
  have hfirst : Splits stringType [size] tensor :=
    ⟨h.notString, h.bits, sizes ++ rest, by simp [hshape], by simp only [List.length_append]; omega⟩
  have hsecond : Splits stringType sizes (tensor.shard 1 i) :=
    ⟨h.notString, h.bits, rest, by simp [Tensor.shard, hshape], hrest⟩
  have hle : (i + 1) * sizes.prod ≤ size * sizes.prod := Nat.mul_le_mul_right _ hi
  rw [Nat.succ_mul] at hle
  have hplace : i * sizes.prod + j < (size :: sizes).prod := by
    rw [List.prod_cons]
    omega
  have hinner : byteSize (bitwidth tensor.elementType) (tensor.shape.drop 1) =
      sizes.prod * byteSize (bitwidth tensor.elementType) rest := by
    rw [hshape, List.cons_append, List.drop_one, List.tail_cons, byteSize_append h.bits]
  have hdrop : tensor.shape.drop (sizes.length + 1) = rest := by
    rw [hshape]
    simp
  have hdrop' : (tensor.shard 1 i).shape.drop sizes.length = rest := by
    simp [Tensor.shard, hshape]
  apply Tensor.ext'
  · rfl
  · rw [show ((tensor.shard 1 i).shard sizes.length j).shape = (tensor.shard 1 i).shape.drop sizes.length from rfl,
      hdrop']
    exact hdrop.symm
  · have houter := shard_data hfirst (i := i) (by simpa using hi)
    rw [shard_data hsecond hj, hdrop']
    rw [show (tensor.shard 1 i).data = (tensor.shard [size].length i).data from rfl, houter]
    have hdata := shard_data h hplace
    rw [show (size :: sizes).length = sizes.length + 1 from rfl] at hdata
    rw [hdata, hdrop]
    show RowMajor.block _ j (RowMajor.block (byteSize (bitwidth tensor.elementType) (tensor.shape.drop 1)) i
      tensor.data) = _
    rw [hinner]
    exact RowMajor.block_block hj tensor.data

theorem Splits.first {size : Nat} (h : Splits stringType (size :: sizes) tensor) : Splits stringType [size] tensor := by
  obtain ⟨rest, hshape, hrest⟩ := h.shape
  refine ⟨h.notString, h.bits, sizes ++ rest, by simp [hshape], ?_⟩
  rw [List.length_append]
  omega

theorem Splits.rest {size : Nat} (h : Splits stringType (size :: sizes) tensor) (i : Nat) :
    Splits stringType sizes (tensor.shard 1 i) := by
  obtain ⟨rest, hshape, hrest⟩ := h.shape
  exact ⟨h.notString, h.bits, rest, by simp [Tensor.shard, hshape], hrest⟩

theorem shard_zero (tensor : Tensor bitwidth) : tensor.shard 0 0 = tensor := by
  apply Tensor.ext'
  · rfl
  · rfl
  · show (RowMajor.block (byteSize (bitwidth tensor.elementType) tensor.shape) 0 tensor.data ++ _).take _ = _
    rw [RowMajor.block, Nat.zero_mul, List.drop_zero, List.drop_zero, List.take_of_length_le tensor.size_eq.le,
      List.take_append_of_le_length tensor.size_eq.ge, List.take_of_length_le tensor.size_eq.le]

variable [DecidableEq ElementType]

theorem demultiplyTensor_eq {size : Nat} (h : Splits stringType [size] tensor) (hsize : 0 < size) {count : Int}
    (hcount : count = -1 ∨ count = size) (hlimit : size ≤ DEMULTIPLY_LIMIT) :
    demultiplyTensor stringType count size tensor = .ok ((List.range size).map fun i => tensor.shard 1 i) := by
  obtain ⟨rest, hshape, hrest⟩ := h.shape
  have hshape : tensor.shape = size :: rest := hshape
  have hinner : tensor.get_byte_size / size = byteSize (bitwidth tensor.elementType) rest := by
    rw [Tensor.get_byte_size, hshape, show size :: rest = [size] ++ rest from rfl, byteSize_append h.bits,
      List.prod_singleton, Nat.mul_div_cancel_left _ hsize]
  have hdim : ¬ (count ≠ -1 ∧ (size : Int) ≠ count % 2 ^ 64) := by
    rintro ⟨hset, hdim⟩
    rw [hcount.resolve_left hset] at hdim
    apply hdim
    unfold DEMULTIPLY_LIMIT at hlimit
    omega
  unfold demultiplyTensor
  rw [if_neg h.notString, hshape]
  simp only [if_neg (Nat.not_lt.mpr hrest), if_neg hdim, if_neg hsize.ne', hinner]
  apply NodeSessionMetadata.mapM_ok
  intro i hi
  have hi : i < [size].prod := by simpa using hi
  have hdata := shard_data h hi
  have hsize := shard_size h
  have hle : (i + 1) * byteSize (bitwidth tensor.elementType) rest ≤
      [size].prod * byteSize (bitwidth tensor.elementType) rest := Nat.mul_le_mul_right _ hi
  rw [Nat.succ_mul] at hle
  simp only [hshape, List.length_singleton, List.drop_one, List.tail_cons] at hsize hdata
  unfold Tensor.createTensorWithNoDataOwnership
  rw [dif_pos (by rw [hsize]; exact hle)]
  congr 1
  apply Tensor.ext'
  · rfl
  · show rest = tensor.shape.drop 1
    rw [hshape]
    rfl
  · exact hdata.symm

theorem zipIdx_range_map {α : Type} (f : Nat → α) (n : Nat) :
    ((List.range n).map f).zipIdx = (List.range n).map fun i => (f i, i) := by
  apply List.ext_getElem?
  intro k
  by_cases hk : k < n <;> simp [hk]

theorem demultiplyOutputs_eq {metadata : NodeSessionMetadata} {name : String} {size : Nat}
    (hfresh : NodeSessionMetadata.Fresh metadata [(name, size)]) (hsize : 0 < size) (hlimit : size ≤ DEMULTIPLY_LIMIT)
    {count : Int} (hcount : count = -1 ∨ count = size) {tensorMap : List (String × Tensor bitwidth)}
    (hne : tensorMap ≠ []) (hsplits : ∀ output ∈ tensorMap, Splits stringType [size] output.2) :
    demultiplyOutputs stringType name count metadata tensorMap =
      .ok ((List.range size).map fun i =>
        (⟨metadata.details ++ [(name, i, size)], metadata.sessionsLevels ++ [name]⟩,
          tensorMap.map fun output => (output.1, output.2.shard 1 i))) := by
  have hhead : tensorMap.head?.bind (·.2.shape.head?) = some size := by
    obtain ⟨first, rest, rfl⟩ := List.exists_cons_of_ne_nil hne
    obtain ⟨dims, hshape, _⟩ := (hsplits first List.mem_cons_self).shape
    simp [hshape]
  have hgenerate := NodeSessionMetadata.generateSubsessions_eq hfresh
  have hshards : ∀ output ∈ tensorMap, (do
      let dividedTensors ← demultiplyTensor stringType count size output.2
      return (output.1, dividedTensors) : Except StatusCode (String × List (Tensor bitwidth))) =
        .ok (output.1, (List.range size).map fun i => output.2.shard 1 i) := by
    intro output hm
    rw [demultiplyTensor_eq (hsplits output hm) hsize hcount hlimit]
    rfl
  unfold demultiplyOutputs
  simp only [hhead, if_neg (Nat.not_lt.mpr hlimit), hgenerate, NodeSessionMetadata.mapM_ok hshards, ok_bind]
  show Except.ok _ = _
  rw [zipIdx_range_map, List.map_map]
  congr 1
  apply List.map_congr_left
  intro i hi
  have hi := List.mem_range.mp hi
  show (_, (tensorMap.map _).filterMap _) = _
  rw [List.filterMap_map]
  congr 1
  rw [← List.filterMap_eq_map]
  apply List.filterMap_congr
  intro output _
  simp [hi]

theorem demultiplyLevels_eq {metadata : NodeSessionMetadata} {levels : List (String × Nat)}
    (hfresh : NodeSessionMetadata.Fresh metadata levels)
    (hsizes : ∀ level ∈ levels, 0 < level.2 ∧ level.2 ≤ DEMULTIPLY_LIMIT)
    {count : String → Int} (hcount : ∀ level ∈ levels, count level.1 = -1 ∨ count level.1 = level.2)
    {tensorMap : List (String × Tensor bitwidth)} (hne : tensorMap ≠ [])
    (hsplits : ∀ output ∈ tensorMap, Splits stringType (levels.map Prod.snd) output.2) :
    demultiplyLevels stringType metadata tensorMap (levels.map fun level => (level.1, count level.1)) =
      .ok ((RowMajor.indexes (levels.map Prod.snd)).map fun index =>
        (NodeSessionMetadata.below metadata levels index, tensorMap.map fun output =>
          (output.1, output.2.shard levels.length (RowMajor.offset (levels.map Prod.snd) index)))) := by
  induction levels generalizing metadata tensorMap with
  | nil =>
    show Except.ok [(metadata, tensorMap)] = _
    simp [RowMajor.indexes, RowMajor.offset, NodeSessionMetadata.below, shard_zero]
  | cons level levels ih =>
    obtain ⟨name, size⟩ := level
    have hfirst := demultiplyOutputs_eq (hfresh.mono (List.prefix_append [(name, size)] levels))
      (hsizes (name, size) List.mem_cons_self).1 (hsizes (name, size) List.mem_cons_self).2
      (hcount (name, size) List.mem_cons_self) hne fun output hm => (hsplits output hm).first
    have hnested : ∀ outputs ∈ (List.range size).map (fun i =>
          ((⟨metadata.details ++ [(name, i, size)], metadata.sessionsLevels ++ [name]⟩ : NodeSessionMetadata),
            tensorMap.map fun output => (output.1, output.2.shard 1 i))),
        demultiplyLevels stringType outputs.1 outputs.2 (levels.map fun level => (level.1, count level.1)) =
          .ok ((RowMajor.indexes (levels.map Prod.snd)).map fun index =>
            (NodeSessionMetadata.below outputs.1 levels index, outputs.2.map fun output =>
              (output.1, output.2.shard levels.length (RowMajor.offset (levels.map Prod.snd) index)))) := by
      intro outputs hm
      obtain ⟨i, _, rfl⟩ := List.mem_map.mp hm
      apply ih (hfresh.rest i)
      · exact fun level hm => hsizes level (List.mem_cons_of_mem _ hm)
      · exact fun level hm => hcount level (List.mem_cons_of_mem _ hm)
      · simpa using hne
      · intro output hm
        obtain ⟨whole, hwhole, rfl⟩ := List.mem_map.mp hm
        exact (hsplits whole hwhole).rest i
    rw [List.map_cons, demultiplyLevels, hfirst, ok_bind, NodeSessionMetadata.mapM_ok hnested, ok_bind]
    show Except.ok _ = _
    rw [List.map_map, ← List.flatMap_def, List.map_cons, RowMajor.indexes, List.map_flatMap]
    congr 1
    apply List.flatMap_congr
    intro i hi
    have hi := List.mem_range.mp hi
    rw [List.map_map]
    apply List.map_congr_left
    intro index hindex
    have hlt := RowMajor.offset_lt (RowMajor.mem_indexes hindex)
    apply Prod.ext
    · simp [NodeSessionMetadata.below]
    · show (tensorMap.map _).map _ = tensorMap.map _
      rw [List.map_map]
      apply List.map_congr_left
      intro output hm
      have hshard := shard_shard (hsplits output hm) hi hlt
      rw [List.length_map] at hshard
      exact congrArg (Prod.mk output.1) hshard

end Node

end ModelServer
