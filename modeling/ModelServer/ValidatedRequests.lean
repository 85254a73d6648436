import Mathlib.Algebra.Order.BigOperators.Group.List
import Mathlib.Data.List.Perm.Subperm
import ModelServer.CheckedSteps
import ModelServer.RequestValidation
import ModelServer.WordArrays

namespace ModelServer.RequestValidation

open KServe CheckedSteps

section Sizes

/-- Below the bound there is no overflow. -/
theorem mul_lt_of_le_div {a b : Nat} (hb : 0 < b) (h : ¬a > (2 ^ 64 - 1) / b) : a * b < 2 ^ 64 := by
  have hle := (Nat.le_div_iff_mul_le hb).mp (Nat.le_of_not_lt h)
  omega

theorem toInt_eq_toNat {dim : BitVec 64} (h : 0 ≤ dim.toInt) : dim.toInt = dim.toNat := by
  have hcond := BitVec.toInt_eq_toNat_cond dim
  have hlt := dim.isLt
  split at hcond <;> omega

/-- The count is the product of the dimensions, over unbounded integers. -/
theorem computeExpectedElementCount_some {shape : List (BitVec 64)} {count n : Nat} (hnonneg : ∀ dim ∈ shape, 0 ≤ dim.toInt)
    (h : computeExpectedElementCount count (shape.map BitVec.toInt) = some n) (hcount : count < 2 ^ 64) :
    n = count * elementCount (shape.map BitVec.toNat) ∧ n < 2 ^ 64 := by
  induction shape generalizing count with
  | nil =>
    obtain rfl := Option.some.inj h
    exact ⟨(Nat.mul_one count).symm, hcount⟩
  | cons dim shape ih =>
    obtain ⟨hdim, hshape⟩ := List.forall_mem_cons.mp hnonneg
    have hsame : dim.toInt = dim.toNat := toInt_eq_toNat hdim
    have hmod : (dim.toInt % 2 ^ 64).toNat = dim.toNat := by
      have := dim.isLt
      omega
    rw [List.map_cons, computeExpectedElementCount, hmod] at h
    rw [List.map_cons, elementCount, List.prod_cons]
    split at h
    next hzero =>
      obtain rfl := Option.some.inj h
      have hnat : dim.toNat = 0 := by omega
      rw [hnat, Nat.zero_mul, Nat.mul_zero]
      exact ⟨rfl, by decide⟩
    next hne =>
      split at h
      next => cases h
      next hfits =>
        obtain ⟨hn, hlt⟩ := ih hshape h (mul_lt_of_le_div (by omega) hfits)
        exact ⟨hn.trans (Nat.mul_assoc ..), hlt⟩

theorem computeExpectedBufferSize_some {count itemsize size : Nat} (h : computeExpectedBufferSize count itemsize = some size) :
    size = count * itemsize ∧ size < 2 ^ 64 := by
  rw [computeExpectedBufferSize] at h
  split at h
  next hzero =>
    obtain rfl := Option.some.inj h
    refine ⟨?_, by decide⟩
    obtain rfl | rfl := hzero
    · exact (Nat.mul_zero _).symm
    · exact (Nat.zero_mul _).symm
  next hne =>
    split at h
    next => cases h
    next hfits =>
      obtain rfl := Option.some.inj h
      exact ⟨rfl, mul_lt_of_le_div (by omega) hfits⟩

theorem match_of_not_mismatch {shape : Shape} {dims : List Int} (hlength : shape.length = dims.length) (h : mismatch shape dims = false) :
    shape.match dims = true := by
  induction shape generalizing dims with
  | nil =>
    cases dims with
    | nil => rfl
    | cons dim dims => cases hlength
  | cons dimension shape ih =>
    cases dims with
    | nil => cases hlength
    | cons dim dims =>
      rw [mismatch, List.zip_cons_cons, List.any_cons, Bool.or_eq_false_iff] at h
      rw [Shape.match, Bool.and_eq_true]
      exact ⟨by simpa using h.1, ih (Nat.succ.inj hlength) h.2⟩

end Sizes

section Search

/-- Both searches find the same input. -/
theorem extract_eq (name : Str) (id : Nat) (inputs : List InferInputTensor) :
    extract name id inputs = (inputs.findIdx? fun input => input.name = name).bind fun i => inputs[i]?.map fun input => (id + i, input) := by
  induction inputs generalizing id with
  | nil => rfl
  | cons input inputs ih =>
    rw [extract, List.findIdx?_cons]
    split
    next hname => rw [if_pos (decide_eq_true hname)]; rfl
    next hname =>
      rw [if_neg (by simpa using hname), ih, Option.bind_map]
      refine congrArg _ (funext fun i => ?_)
      rw [Function.comp, List.getElem?_cons_succ, Nat.add_assoc, Nat.add_comm 1]

theorem extract_some {request : ModelInferRequest} {name : Str} {i : Nat} {input : InferInputTensor} (h : extract name 0 request.inputs = some (i, input)) :
    request.inputs[i]? = some input ∧ input.name = name ∧
      getRequestTensorPtr request name = some (input, if request.raw_input_contents.length > 0 then request.raw_input_contents[i]? else none) := by
  rw [extract_eq] at h
  obtain ⟨j, hj, h⟩ := Option.bind_eq_some_iff.mp h
  obtain ⟨found, hfound, heq⟩ := Option.map_eq_some_iff.mp h
  obtain ⟨rfl, rfl⟩ := Prod.mk.inj heq
  rw [Nat.zero_add]
  refine ⟨hfound, ?_, by rw [getRequestTensorPtr, hj]; simp only [hfound]⟩
  obtain ⟨hlt, hname, -⟩ := List.findIdx?_eq_some_iff_getElem.mp hj
  rw [List.getElem?_eq_getElem hlt] at hfound
  rw [← Option.some.inj hfound]
  exact of_decide_eq_true hname

end Search

section Copies

/-- As many numbers as there is room for are copied one after the other. -/
theorem copyEachValue_eq {size i : Nat} {numbers : List Nat} {copied rest : Str} (hcopied : copied.length = i * size)
    (hrest : rest.length = numbers.length * size) :
    copyEachValue size i numbers (copied ++ rest) = some (copied ++ WordArrays.memory size (numbers.map (· % 256 ^ size))) := by
  induction numbers generalizing i copied rest with
  | nil =>
    obtain rfl := List.length_eq_zero_iff.mp (hrest.trans (Nat.zero_mul size))
    rfl
  | cons number numbers ih =>
    rw [List.length_cons, Nat.succ_mul] at hrest
    have hnext : (i + 1) * size = i * size + size := Nat.succ_mul i size
    have hfits : (i + 1) * size ≤ (copied ++ rest).length := by
      rw [List.length_append]
      omega
    have htake : (copied ++ rest).take (i * size) = copied := by
      rw [← hcopied, List.take_left]
    have hdrop : (copied ++ rest).drop ((i + 1) * size) = rest.drop size := by
      rw [hnext, ← hcopied, List.drop_append, List.drop_of_length_le (Nat.le_add_right _ _), Nat.add_sub_cancel_left, List.nil_append]
    rw [copyEachValue, if_pos hfits, htake, hdrop, ih ?_ ?_]
    · rw [List.map_cons, WordArrays.memory, WordArrays.memory, List.flatMap_cons, List.append_assoc]
    · rw [List.length_append, hcopied, LengthPrefixed.length_header, hnext]
    · rw [List.length_drop]
      omega

theorem copiedField_length {contents : InferTensorContents} {precision : Precision} {size : Nat} {numbers : List Nat}
    (h : copiedField contents precision = some (size, numbers)) :
    size = elementByteSize precision ∧ numbers.length = getElementsCount contents precision := by
  cases precision <;> first | (cases h; done) | (obtain ⟨rfl, rfl⟩ := Prod.mk.inj (Option.some.inj h); exact ⟨rfl, List.length_map ..⟩)

theorem copiedField_eq_none_iff (contents : InferTensorContents) (precision : Precision) :
    copiedField contents precision = none ↔ ¬(precision ∈ bufferPrecisions ∧ precision ≠ .FP16) := by
  cases precision <;> first | exact iff_of_true rfl (by decide) | exact iff_of_false nofun (by decide)

theorem getElementsCount_lt {request : ModelInferRequest} {proto : InferInputTensor} (hproto : proto ∈ request.inputs) {precision : Precision}
    (hne : precision ≠ .STRING) : getElementsCount proto.contentsOrDefault precision < 2 ^ 31 := by
  have hcounted := request.counted proto hproto
  have hlength : ∀ {α : Type} {xs : List α} {f : α → Nat}, (xs.map f).length < 2 ^ 31 → xs.length < 2 ^ 31 := by
    intro α xs f h
    rwa [List.length_map] at h
  cases precision with
  | STRING => exact absurd rfl hne
  | BOOL => exact hlength (hcounted .BOOL)
  | I8 => exact hlength (hcounted .INT8)
  | I16 => exact hlength (hcounted .INT16)
  | I32 => exact hlength (hcounted .INT32)
  | I64 => exact hlength (hcounted .INT64)
  | U8 => exact hlength (hcounted .UINT8)
  | U16 => exact hlength (hcounted .UINT16)
  | U32 => exact hlength (hcounted .UINT32)
  | U64 => exact hlength (hcounted .UINT64)
  | FP32 => exact hlength (hcounted .FP32)
  | FP64 => exact hlength (hcounted .FP64)
  | _ => exact Nat.pow_pos (by decide)

end Copies

section Content

variable {request : ModelInferRequest} {proto : InferInputTensor} {precision : Precision} {bufferId : Nat}

/-- The buffer that an input is deserialized from. -/
def bufferOf (request : ModelInferRequest) (bufferId : Nat) : Option Str :=
  if request.raw_input_contents.length > 0 then request.raw_input_contents[bufferId]? else none

/-- A content has the size of its tensor, and as many values. -/
structure ContentFits (request : ModelInferRequest) (proto : InferInputTensor) (precision : Precision) (bufferId : Nat) : Prop where
  fits : elementCount (ovShape proto) * elementByteSize precision < 2 ^ 64
  raw : ∀ content, bufferOf request bufferId = some content → content.length = elementCount (ovShape proto) * elementByteSize precision
  found : request.raw_input_contents ≠ [] → bufferOf request bufferId = request.raw_input_contents[bufferId]? ∧ (bufferOf request bufferId).isSome
  values : request.raw_input_contents = [] →
    bufferOf request bufferId = none ∧ getElementsCount proto.contentsOrDefault precision = elementCount (ovShape proto)

theorem elementByteSize_le (precision : Precision) : elementByteSize precision ≤ 32 := by
  cases precision <;> decide

theorem validateTensorContent_ok (hproto : proto ∈ request.inputs) (hnonneg : ∀ dim ∈ proto.shape, 0 ≤ dim.toInt)
    (hbytes : proto.datatype ≠ bytes "BYTES") (hstring : precision ≠ .STRING)
    (h : validateTensorContent request proto precision bufferId = .ok ()) : ContentFits request proto precision bufferId := by
  rw [validateTensorContent] at h
  split at h
  next => cases h
  next count hcount =>
    obtain ⟨hn, -⟩ := computeExpectedElementCount_some hnonneg hcount (by decide)
    rw [Nat.one_mul] at hn
    split at h
    next hraw =>
      have hbuffer : bufferOf request bufferId = request.raw_input_contents[bufferId]? := if_pos (List.length_pos_iff.mpr hraw)
      split at h
      next => cases h
      next buffer hfound =>
        rw [validateRawContent, if_neg hbytes] at h
        split at h
        next => cases h
        next size hsize =>
          obtain ⟨rfl, hlt⟩ := computeExpectedBufferSize_some hsize
          have hlength : count * elementByteSize precision = buffer.length := by
            by_contra hne
            rw [if_pos hne] at h
            cases h
          rw [hn] at hlength hlt
          refine ⟨hlt, fun content hcontent => ?_, fun _ => ⟨hbuffer, by rw [hbuffer, hfound]; rfl⟩, fun hnil => absurd hnil hraw⟩
          rw [hbuffer, hfound] at hcontent
          rw [← Option.some.inj hcontent]
          exact hlength.symm
    next hraw =>
      have hraw : request.raw_input_contents = [] := not_not.mp hraw
      have hbuffer : bufferOf request bufferId = none := if_neg (by rw [hraw]; exact Nat.lt_irrefl 0)
      have hvalues : count = getElementsCount proto.contentsOrDefault precision := by
        by_contra hne
        rw [if_pos hne] at h
        cases h
      refine ⟨?_, fun content hcontent => ?_, fun hne => absurd hraw hne, fun _ => ⟨hbuffer, by rw [← hvalues, hn]; rfl⟩⟩
      · have hlt := getElementsCount_lt hproto hstring
        have hmul := Nat.mul_le_mul_left (elementCount (ovShape proto)) (elementByteSize_le precision)
        rw [← hvalues, hn] at hlt
        have hlt : elementCount (ovShape proto) < 2 ^ 31 := hlt
        omega
      · rw [hbuffer] at hcontent
        cases hcontent

/-- The precisions of which a tensor is made. -/
def Supported (precision : Precision) (buffer : Option Str) : Prop :=
  precision ∈ bufferPrecisions ∧ (buffer = none → precision ≠ .FP16)

/-- A tensor that is made without reading or writing past the end of a buffer. -/
structure InBounds (requestInput : InferInputTensor) (precision : Precision) (buffer : Option Str) (tensor : Tensor) : Prop where
  shape : tensor.shape = ovShape requestInput
  fits : elementCount tensor.shape * elementByteSize precision < 2 ^ 64
  allocated : tensor.data.length = elementCount tensor.shape * elementByteSize precision
  raw : ∀ content, buffer = some content → content.length = elementCount tensor.shape * elementByteSize precision
  copied : buffer = none → ∃ size numbers, copiedField requestInput.contentsOrDefault precision = some (size, numbers) ∧
    size = elementByteSize precision ∧ numbers.length = elementCount tensor.shape

theorem deserializeTensor_ok {tensorInfo : TensorInfo} (h : ContentFits request proto tensorInfo.precision bufferId)
    (hsupported : Supported tensorInfo.precision (bufferOf request bufferId)) :
    ∃ tensor, deserializeTensor proto tensorInfo (bufferOf request bufferId) = .tensor tensor ∧
      InBounds proto tensorInfo.precision (bufferOf request bufferId) tensor := by
  have hallocated : (allocate (ovShape proto) (elementByteSize tensorInfo.precision)).data.length =
      elementCount (ovShape proto) * elementByteSize tensorInfo.precision := by
    rw [allocate, List.length_replicate, Nat.mod_eq_of_lt h.fits]
  cases hbuffer : bufferOf request bufferId with
  | some buffer =>
    have hlength := h.raw buffer hbuffer
    rw [deserializeTensor, if_pos hsupported.1, makeTensor]
    have hraw : ∀ content, some buffer = some content → content.length = elementCount (ovShape proto) * elementByteSize tensorInfo.precision :=
      fun content heq => Option.some.inj heq ▸ hlength
    by_cases hempty : buffer.length = 0
    · exact ⟨_, if_pos hempty, rfl, h.fits, hallocated, hraw, nofun⟩
    · rw [if_neg hempty, if_pos (Nat.le_of_eq (hallocated.trans hlength.symm))]
      refine ⟨_, rfl, rfl, h.fits, ?_, hraw, nofun⟩
      rw [List.length_take, hallocated, hlength, Nat.min_self]
      rfl
  | none =>
    have hraw : request.raw_input_contents = [] := by
      by_contra hne
      have hsome := (h.found hne).2
      rw [hbuffer] at hsome
      cases hsome
    have hvalues := (h.values hraw).2
    have hfield : copiedField proto.contentsOrDefault tensorInfo.precision ≠ none :=
      fun hnone => (copiedField_eq_none_iff _ _).mp hnone ⟨hsupported.1, hsupported.2 hbuffer⟩
    obtain ⟨⟨size, numbers⟩, hcopied⟩ := Option.ne_none_iff_exists'.mp hfield
    obtain ⟨rfl, hnumbers⟩ := copiedField_length hcopied
    have hstart : ([] : Str).length = 0 * elementByteSize tensorInfo.precision := (Nat.zero_mul _).symm
    have hcopy := copyEachValue_eq hstart (hallocated.trans (by rw [hnumbers, hvalues]))
    rw [List.nil_append, List.nil_append] at hcopy
    simp only [deserializeTensor, hcopied, hcopy]
    refine ⟨_, rfl, rfl, h.fits, ?_, nofun, fun _ => ⟨_, numbers, hcopied, rfl, hnumbers.trans hvalues⟩⟩
    rw [WordArrays.length_memory, List.length_map, hnumbers, hvalues]
    rfl

theorem deserializeTensor_empty {tensorInfo : TensorInfo} {buffer : Option Str} (hsupported : ¬Supported tensorInfo.precision buffer) :
    deserializeTensor proto tensorInfo buffer = .empty := by
  cases buffer with
  | some buffer =>
    refine if_neg fun hmem => hsupported ⟨hmem, nofun⟩
  | none =>
    have hnone := (copiedField_eq_none_iff proto.contentsOrDefault tensorInfo.precision).mpr fun h => hsupported ⟨h.1, fun _ => h.2⟩
    simp only [deserializeTensor, hnone]

end Content

section Requests

variable {validator : RequestValidator} {request : ModelInferRequest}

/-- Batch and shapes are fixed, and no input is optional. -/
structure FixedModes (validator : RequestValidator) : Prop where
  batching : validator.batchingMode = .FIXED
  shapes : ∀ p ∈ validator.shapeInfo, p.2 = .FIXED
  optional : validator.optionalAllowedInputNames = []

theorem FixedModes.getShapeMode (h : FixedModes validator) (name : Str) : getShapeMode validator name = .FIXED := by
  have hlookup : ∀ key mode, validator.shapeInfo.lookup key = some mode → mode = .FIXED := by
    intro key mode hfound
    obtain ⟨before, after, heq, -⟩ := List.lookup_eq_some_iff.mp hfound
    refine h.shapes (key, mode) ?_
    rw [heq]
    exact List.mem_append_right _ List.mem_cons_self
  rw [RequestValidation.getShapeMode]
  cases hname : validator.shapeInfo.lookup name with
  | some mode => exact hlookup name mode hname
  | none =>
    cases hanonymous : validator.shapeInfo.lookup ANONYMOUS_INPUT_NAME with
    | some mode => exact hlookup _ mode hanonymous
    | none => rfl

/-- What a turn of the loop has checked of an input that does not hold strings. -/
structure ValidatedInput (request : ModelInferRequest) (entry : Str × TensorInfo) (bufferId : Nat) (proto : InferInputTensor) : Prop where
  nonneg : ∀ dim ∈ proto.shape, 0 ≤ dim.toInt
  precision : proto.datatype = ovmsPrecisionToKFSPrecision entry.2.precision
  allowed : entry.2.shape.match proto.dims = true
  content : validateTensorContent request proto entry.2.precision bufferId = .ok ()

theorem validateInput_ok (h : FixedModes validator) {status status' : FinalStatus} {entry : Str × TensorInfo}
    (hok : validateInput validator request status entry = .ok status') : ∃ bufferId proto, extract entry.1 0 request.inputs = some (bufferId, proto) ∧
      (proto.datatype ≠ bytes "BYTES" → ValidatedInput request entry bufferId proto) := by
  rw [validateInput] at hok
  split at hok
  next => cases hok
  next bufferId proto hextract =>
    refine ⟨bufferId, proto, hextract, fun hbytes => ?_⟩
    obtain ⟨_, hnegative, hok⟩ := bind_eq_ok.mp hok
    obtain ⟨_, -, hok⟩ := bind_eq_ok.mp hok
    rw [requiresPreProcessing, decide_eq_false hbytes, if_neg Bool.false_ne_true] at hok
    obtain ⟨_, hprecision, hok⟩ := bind_eq_ok.mp hok
    obtain ⟨_, hdimensions, hok⟩ := bind_eq_ok.mp hok
    obtain ⟨batchStatus, -, hok⟩ := bind_eq_ok.mp hok
    obtain ⟨shapeStatus, hshape, hok⟩ := bind_eq_ok.mp hok
    obtain ⟨⟨⟩, hcontent, -⟩ := bind_eq_ok.mp hok
    have hnonneg : ∀ dim ∈ proto.dims, 0 ≤ dim := by
      have hnone := (not_of_ite_error hnegative).1
      intro dim hdim
      by_contra hlt
      exact hnone (List.any_eq_true.mpr ⟨dim, hdim, decide_eq_true (Int.not_le.mp hlt)⟩)
    have hlength : entry.2.shape.length = proto.dims.length := by
      rw [InferInputTensor.dims, List.length_map]
      exact not_not.mp (not_of_ite_error hdimensions).1
    have hmatch : mismatch entry.2.shape proto.dims = false := by
      simp only [checkShapeMismatch, h.batching, h.getShapeMode, reduceCtorEq, if_false] at hshape
      by_contra hmismatch
      rw [Bool.not_eq_false] at hmismatch
      rw [hmismatch] at hshape
      cases hshape
    exact ⟨fun dim hdim => hnonneg _ (List.mem_map_of_mem hdim), not_not.mp (not_of_ite_error hprecision).1,
      match_of_not_mismatch hlength hmatch, hcontent⟩

/-- A validated request deserializes in bounds: its input names are the keys of the endpoint, each once, and of each input
that does not hold strings a tensor is made of all its content and nothing else, if its precision is one of which tensors are
made at all. -/
theorem validate_in_bounds (h : FixedModes validator) (hok : validate validator request = .ok .OK) :
    (request.inputs.map (·.name)).Perm (validator.inputsInfo.entries.map Prod.fst) ∧
      ∀ entry ∈ validator.inputsInfo.entries, ∃ (i : Nat) (input : InferInputTensor),
        request.inputs[i]? = some input ∧ input.name = entry.1 ∧
        getRequestTensorPtr request entry.1 = some (input, bufferOf request i) ∧
        (input.datatype ≠ bytes "BYTES" → entry.2.shape.match input.dims = true ∧
          (Supported entry.2.precision (bufferOf request i) →
            ∃ tensor, deserializeTensor input entry.2 (bufferOf request i) = .tensor tensor ∧
              InBounds input entry.2.precision (bufferOf request i) tensor) ∧
          (¬Supported entry.2.precision (bufferOf request i) → deserializeTensor input entry.2 (bufferOf request i) = .empty)) := by
  rw [validate] at hok
  obtain ⟨_, hnumber, hok⟩ := bind_eq_ok.mp hok
  obtain ⟨_, -, hok⟩ := bind_eq_ok.mp hok
  have hinputs := foldlM_turn hok
  have hcount : validator.inputsInfo.entries.length = request.inputs.length := by
    by_contra hne
    rw [validateNumberOfTensors, h.optional, if_neg fun hsame => hne (by simpa using hsame.2)] at hnumber
    cases hnumber
  constructor
  · have hsub : validator.inputsInfo.entries.map Prod.fst ⊆ request.inputs.map (·.name) := by
      intro name hname
      obtain ⟨entry, hentry, rfl⟩ := List.mem_map.mp hname
      obtain ⟨status, status', hturn⟩ := hinputs entry hentry
      obtain ⟨bufferId, proto, hextract, -⟩ := validateInput_ok h hturn
      obtain ⟨hproto, hname, -⟩ := extract_some hextract
      exact List.mem_map.mpr ⟨proto, List.mem_of_getElem? hproto, hname⟩
    refine ((List.subperm_of_subset validator.inputsInfo.distinct hsub).perm_of_length_le ?_).symm
    rw [List.length_map, List.length_map, hcount]
  · intro entry hentry
    obtain ⟨status, status', hturn⟩ := hinputs entry hentry
    obtain ⟨bufferId, proto, hextract, hvalidated⟩ := validateInput_ok h hturn
    obtain ⟨hproto, hname, hfound⟩ := extract_some hextract
    refine ⟨bufferId, proto, hproto, hname, hfound, fun hbytes => ?_⟩
    obtain ⟨hnonneg, hprecision, hallowed, hcontent⟩ := hvalidated hbytes
    have hstring : entry.2.precision ≠ .STRING := by
      intro heq
      rw [heq] at hprecision
      exact hbytes hprecision
    have hfits := validateTensorContent_ok (List.mem_of_getElem? hproto) hnonneg hbytes hstring hcontent
    exact ⟨hallowed, deserializeTensor_ok hfits, deserializeTensor_empty⟩

/-- An endpoint with one input of some precision, of a shape with one dimension of any size. -/
def oneInput (precision : Precision) : RequestValidator where
  inputsInfo := ⟨[(bytes "a", ⟨"a", "", precision, [.any], Layout.getUnspecifiedLayout, false⟩)], List.pairwise_singleton ..⟩

/-- A request of one input with some bytes as its raw content. -/
def rawRequest (datatype : Str) (dim : BitVec 64) (content : Str) (h : content.length < 2 ^ 64) : ModelInferRequest where
  inputs := [⟨bytes "a", datatype, [dim], none⟩]
  raw_input_contents := [content]
  counted := by
    intro input hinput datatype
    obtain rfl := List.mem_singleton.mp hinput
    cases datatype <;> exact Nat.pow_pos (by decide)
  sized := List.forall_mem_singleton.mpr h

theorem validate_in_bounds_two_floats : ∃ input buffer tensor,
    getRequestTensorPtr (rawRequest (bytes "FP32") 2 [0, 0, 0, 0, 0, 0, 0, 0] (by decide)) (bytes "a") = some (input, buffer) ∧
      InBounds input .FP32 buffer tensor := by
  have hok : validate (oneInput .FP32) (rawRequest (bytes "FP32") 2 [0, 0, 0, 0, 0, 0, 0, 0] (by decide)) = .ok .OK := by rfl
  have hfixed : FixedModes (oneInput .FP32) := ⟨rfl, nofun, rfl⟩
  obtain ⟨i, input, hinput, -, hptr, hdata⟩ := (validate_in_bounds hfixed hok).2 _ (List.mem_singleton_self _)
  obtain rfl : i = 0 := by
    have hlt : i < 1 := (List.getElem?_eq_some_iff.mp hinput).1
    omega
  obtain rfl := Option.some.inj hinput
  obtain ⟨-, hsupported, -⟩ := hdata (by decide)
  obtain ⟨tensor, -, hbounds⟩ := hsupported ⟨by decide, nofun⟩
  exact ⟨_, _, tensor, hptr, hbounds⟩

theorem sized_nil : ∀ content ∈ ([] : List Str), content.length < 2 ^ 64 := nofun

/-- A request of one input without raw contents and without any element. -/
def emptyRequest (datatype : Str) : ModelInferRequest where
  inputs := [⟨bytes "a", datatype, [0], none⟩]
  counted := by
    intro input hinput datatype
    obtain rfl := List.mem_singleton.mp hinput
    cases datatype <;> exact Nat.pow_pos (by decide)
  sized := sized_nil

/-- No tensor is made of an input of half precision without raw contents, though it is validated. -/
theorem validate_half_precision_empty :
    ¬ ∀ (validator : RequestValidator) (request : ModelInferRequest), FixedModes validator → validate validator request = .ok .OK →
      ∀ entry ∈ validator.inputsInfo.entries, ∀ input buffer, getRequestTensorPtr request entry.1 = some (input, buffer) →
        input.datatype ≠ bytes "BYTES" →
        ∃ tensor, deserializeTensor input entry.2 buffer = .tensor tensor ∧ tensor.shape = ovShape input := by
  intro hall
  have hok : validate (oneInput .FP16) (emptyRequest (bytes "FP16")) = .ok .OK := by rfl
  obtain ⟨tensor, htensor, -⟩ := hall (oneInput .FP16) (emptyRequest (bytes "FP16")) ⟨rfl, nofun, rfl⟩ hok _ (List.mem_singleton_self _)
    ⟨bytes "a", bytes "FP16", [0], none⟩ none rfl (by decide)
  cases htensor

end Requests

end ModelServer.RequestValidation
