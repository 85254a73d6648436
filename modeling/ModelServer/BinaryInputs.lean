import ModelServer.ValidatedRequests
import ModelServer.RestBodies
import ModelServer.TensorByteCounts
import ModelServer.Tilings

namespace ModelServer.BinaryInputs

open KServe CheckedSteps
open RawContents (readBytes toInt32)
open TensorByteCounts (toSizeT)
open RequestValidation (mul_lt_of_le_div)

section Request

/-- Why no request is made of a body. -/
inductive Failure
  | parse (status : RestRequest.Status)
  | restInferenceHeaderContentLengthExceeded
  | restContentsFieldNotEmpty
  | restBinaryDataSizeParameterInvalid
  | restBinaryBufferExceeded
  | invalidContentSize (details : String)
  /-- A byte outside of the body is read; there is no such code. -/
  | outOfBounds
  /-- The result of an operation is no `size_t`; there is no such code. -/
  | wraps
deriving DecidableEq

/-- How the result of an operation is put into a `size_t`. -/
structure Arithmetic where
  sizeT : Int → Except Failure Nat
  exact : ∀ n : Nat, n < 2 ^ 64 → sizeT n = .ok n

namespace Arithmetic

theorem toSizeT_exact (n : Nat) (hn : n < 2 ^ 64) : (.ok (toSizeT n) : Except Failure Nat) = .ok n := by
  have hmod : toSizeT n = n := by
    rw [toSizeT]
    omega
  rw [hmod]

/-- What the machine does. -/
def modular : Arithmetic where
  sizeT n := .ok (toSizeT n)
  exact := toSizeT_exact

/-- What wraps is refused. -/
def checked : Arithmetic where
  sizeT n := if 0 ≤ n ∧ n < 2 ^ 64 then .ok n.toNat else .error .wraps
  exact n hn := by
    rw [if_pos (by omega), Int.toNat_natCast]

theorem sub (arithmetic : Arithmetic) {a b : Nat} (hb : b ≤ a) (ha : a < 2 ^ 64) :
    arithmetic.sizeT (a - b) = .ok (a - b) := by
  rw [← Int.ofNat_sub hb]
  exact arithmetic.exact (a - b) (by omega)

end Arithmetic

variable (arithmetic : Arithmetic)

def isInputEmpty (input : InferTensor) : Bool :=
  match Datatype.ofText input.datatype with
  | some .FP32 => input.contents.fp32_contents.isEmpty
  | some .INT64 => input.contents.int64_contents.isEmpty
  | some .INT32 | some .INT16 | some .INT8 => input.contents.int_contents.isEmpty
  | some .UINT64 => input.contents.uint64_contents.isEmpty
  | some .UINT32 | some .UINT16 | some .UINT8 => input.contents.uint_contents.isEmpty
  | some .FP64 => input.contents.fp64_contents.isEmpty
  | some .BYTES => input.contents.bytes_contents.isEmpty
  | some .BOOL => input.contents.bool_contents.isEmpty
  | some .FP16 | none => true

/-- The bytes that are assigned, and the offset behind them. -/
def handleBinaryInput (request_body : Str) (endOfJson binary_input_size binary_input_offset binary_buffer_size : Nat) :
    Except Failure (Str × Nat) := do
  let rest ← arithmetic.sizeT (binary_buffer_size - binary_input_offset)
  if binary_input_size > rest then throw .restBinaryBufferExceeded
  else
    match readBytes request_body (endOfJson + binary_input_offset) binary_input_size with
    | none => throw .outOfBounds
    | some content => return (content, ← arithmetic.sizeT (binary_input_offset + binary_input_size))

/-- `computeExpectedElementCountReturnFalseIfOverflow`, with its product; nothing where it returns false. -/
def computeExpectedElementCount (elementCount : Nat) : List (BitVec 64) → Except Failure (Option Nat)
  | [] => .ok (some elementCount)
  | dim :: dims =>
    if dim = 0 then .ok (some 0)
    else if elementCount > (2 ^ 64 - 1) / dim.toNat then .ok none
    else do
      computeExpectedElementCount (← arithmetic.sizeT (elementCount * dim.toNat : Nat)) dims

/-- `computeExpectedBufferSizeReturnFalseIfOverflow`, with its product; nothing where it returns false. -/
def computeExpectedBufferSize (elementCount itemsize : Nat) : Except Failure (Option Nat) :=
  if itemsize = 0 ∨ elementCount = 0 then .ok (some 0)
  else if elementCount > (2 ^ 64 - 1) / itemsize then .ok none
  else do
    return some (← arithmetic.sizeT (elementCount * itemsize : Nat))

def calculateBinaryDataSize (input : InferTensor) : Except Failure Nat := do
  match ← computeExpectedElementCount arithmetic 1 input.shape with
  | none => throw (.invalidContentSize "Binary input shape dimensions overflow size_t")
  | some elements_number =>
    match ← computeExpectedBufferSize arithmetic elements_number (KFSDataTypeSize input.datatype) with
    | none => throw (.invalidContentSize "Binary input shape dimensions overflow size_t")
    | some binary_data_size => return binary_data_size

/-- `binary_input_size` of an input, of as many as there are; nothing if the input has its data in the JSON. -/
def binaryInputSize (inputs binary_buffer_size : Nat) (input : InferTensor) : Except Failure (Option Nat) :=
  match input.parameters.lookup (bytes "binary_data_size") with
  | some binary_data_size_parameter =>
    if isInputEmpty input = false then .error .restContentsFieldNotEmpty
    else
      match binary_data_size_parameter with
      | .int64Param paramValue =>
        if paramValue.toInt < 0 then .error .restBinaryDataSizeParameterInvalid else .ok (some paramValue.toNat)
      | _ => .error .restBinaryDataSizeParameterInvalid
  | none =>
    if isInputEmpty input = false then .ok none
    else if inputs = 1 ∧ input.datatype = bytes "BYTES" then .ok (some binary_buffer_size)
    else do
      return some (← calculateBinaryDataSize arithmetic input)

/-- A turn of the loop; the state is `binary_input_offset` and `raw_input_contents`. -/
def handleBinaryInputsTurn (request_body : Str) (endOfJson inputs binary_buffer_size : Nat) (state : Nat × List Str)
    (input : InferTensor) : Except Failure (Nat × List Str) := do
  match ← binaryInputSize arithmetic inputs binary_buffer_size input with
  | none => return state
  | some binary_input_size =>
    let (content, binary_input_offset) ←
      handleBinaryInput arithmetic request_body endOfJson binary_input_size state.1 binary_buffer_size
    return (binary_input_offset, state.2 ++ [content])

/-- The `raw_input_contents` of a request with these inputs. -/
def handleBinaryInputs (inputs : List InferTensor) (request_body : Str) (endOfJson : Nat) : Except Failure (List Str) := do
  let binary_buffer_size ← arithmetic.sizeT (request_body.length - endOfJson)
  let state ← inputs.foldlM (handleBinaryInputsTurn arithmetic request_body endOfJson inputs.length binary_buffer_size) (0, [])
  return state.2

/-- `inference::ModelInferRequest`. -/
structure KFSRequest where
  model_name : Str
  model_version : Str
  proto : RestRequest.ModelInferRequest
  raw_input_contents : List Str
deriving DecidableEq

/-- A body; a string has a `size_t` for its length. -/
structure RequestBody where
  text : Str
  sized : text.length < 2 ^ 64

/-- `endOfJson`; `value_or` makes an `int` of the length of the body. -/
def endOfJson (request_body : RequestBody) (inferenceHeaderContentLength : Option (BitVec 32)) : Nat :=
  toSizeT ((inferenceHeaderContentLength.map BitVec.toInt).getD (toInt32 request_body.text.length))

def prepareGrpcRequest (reader : RestRequest.Reader) (modelName : Str) (modelVersion : Option (BitVec 64))
    (request_body : RequestBody) (inferenceHeaderContentLength : Option (BitVec 32)) : Except Failure KFSRequest :=
  let endOfJson := endOfJson request_body inferenceHeaderContentLength
  if endOfJson > request_body.text.length then .error .restInferenceHeaderContentLengthExceeded
  else
    match RestRequest.parse reader (cStr (request_body.text.take endOfJson)) with
    | .error status => .error (.parse status)
    | .ok proto => do
      let raw_input_contents ← handleBinaryInputs arithmetic proto.inputs request_body.text endOfJson
      return {
        model_name := modelName
        model_version := (modelVersion.map fun version => bytes (toString version.toInt)).getD []
        proto := proto
        raw_input_contents := raw_input_contents }

/-- An input as the request has it; the parser makes contents only to add an element to them. -/
def toInferInputTensor (input : InferTensor) : RequestValidation.InferInputTensor where
  name := input.name
  datatype := input.datatype
  shape := input.shape
  contents := if input.contents = {} then none else some input.contents

end Request

section Lengths

/-- The number of bytes for an input: it says so, or all of them are for it, or its datatype and its shape say so. -/
def sliceLength (inputs binary_buffer_size : Nat) (input : InferTensor) : Nat :=
  match input.parameters.lookup (bytes "binary_data_size") with
  | some (.int64Param paramValue) => paramValue.toNat
  | _ =>
    if inputs = 1 ∧ input.datatype = bytes "BYTES" then binary_buffer_size
    else (input.shape.map BitVec.toNat).prod * KFSDataTypeSize input.datatype

theorem computeExpectedElementCount_exact (elementCount : Nat) (shape : List (BitVec 64)) (hcount : elementCount < 2 ^ 64) :
    ∃ result, (∀ arithmetic, computeExpectedElementCount arithmetic elementCount shape = .ok result) ∧
      ∀ n, result = some n → n = elementCount * (shape.map BitVec.toNat).prod := by
  induction shape generalizing elementCount with
  | nil =>
    refine ⟨some elementCount, fun _ => rfl, ?_⟩
    intro n h
    rw [List.map_nil, List.prod_nil, Nat.mul_one]
    exact (Option.some.inj h).symm
  | cons dim shape ih =>
    rw [List.map_cons, List.prod_cons]
    by_cases hdim : dim = 0
    · refine ⟨some 0, fun _ => if_pos hdim, ?_⟩
      intro n h
      have hzero : dim.toNat = 0 := congrArg BitVec.toNat hdim
      rw [hzero, Nat.zero_mul, Nat.mul_zero]
      exact (Option.some.inj h).symm
    have hpos : 0 < dim.toNat := Nat.pos_of_ne_zero fun h => hdim (BitVec.eq_of_toNat_eq h)
    by_cases hfits : elementCount > (2 ^ 64 - 1) / dim.toNat
    · exact ⟨none, fun _ => (if_neg hdim).trans (if_pos hfits), nofun⟩
    have hlt := mul_lt_of_le_div hpos hfits
    obtain ⟨result, hresult, hn⟩ := ih _ hlt
    refine ⟨result, ?_, ?_⟩
    · intro arithmetic
      rw [computeExpectedElementCount, if_neg hdim, if_neg hfits, arithmetic.exact _ hlt]
      exact hresult arithmetic
    · intro n h
      rw [← Nat.mul_assoc]
      exact hn n h

theorem computeExpectedBufferSize_exact (elementCount itemsize : Nat) :
    ∃ result, (∀ arithmetic, computeExpectedBufferSize arithmetic elementCount itemsize = .ok result) ∧
      ∀ n, result = some n → n = elementCount * itemsize := by
  by_cases hzero : itemsize = 0 ∨ elementCount = 0
  · refine ⟨some 0, fun _ => if_pos hzero, ?_⟩
    intro n h
    rw [← Option.some.inj h]
    exact (Nat.mul_eq_zero.mpr hzero.symm).symm
  by_cases hfits : elementCount > (2 ^ 64 - 1) / itemsize
  · exact ⟨none, fun _ => (if_neg hzero).trans (if_pos hfits), nofun⟩
  have hlt : elementCount * itemsize < 2 ^ 64 := mul_lt_of_le_div (by omega) hfits
  refine ⟨some (elementCount * itemsize), ?_, fun n h => (Option.some.inj h).symm⟩
  intro arithmetic
  rw [computeExpectedBufferSize, if_neg hzero, if_neg hfits, arithmetic.exact _ hlt]
  rfl

/-- No product wraps, and the size is the product of the dimensions and of the size of an element. -/
theorem calculateBinaryDataSize_exact (input : InferTensor) :
    ∃ result, (∀ arithmetic, calculateBinaryDataSize arithmetic input = result) ∧
      ∀ n, result = .ok n → n = (input.shape.map BitVec.toNat).prod * KFSDataTypeSize input.datatype := by
  obtain ⟨elements, helements, hcount⟩ := computeExpectedElementCount_exact 1 input.shape (by decide)
  cases elements with
  | none =>
    refine ⟨.error (.invalidContentSize "Binary input shape dimensions overflow size_t"), ?_, nofun⟩
    intro arithmetic
    rw [calculateBinaryDataSize, helements arithmetic]
    rfl
  | some elements_number =>
    obtain rfl := (hcount elements_number rfl).trans (Nat.one_mul _)
    obtain ⟨size, hsize, hbytes⟩ := computeExpectedBufferSize_exact (input.shape.map BitVec.toNat).prod (KFSDataTypeSize input.datatype)
    cases size with
    | none =>
      refine ⟨.error (.invalidContentSize "Binary input shape dimensions overflow size_t"), ?_, nofun⟩
      intro arithmetic
      rw [calculateBinaryDataSize, helements arithmetic]
      show (computeExpectedBufferSize arithmetic _ _ >>= _) = _
      rw [hsize arithmetic]
      rfl
    | some binary_data_size =>
      refine ⟨.ok binary_data_size, ?_, ?_⟩
      · intro arithmetic
        rw [calculateBinaryDataSize, helements arithmetic]
        show (computeExpectedBufferSize arithmetic _ _ >>= _) = _
        rw [hsize arithmetic]
        rfl
      · intro n h
        rw [← Except.ok.inj h]
        exact hbytes binary_data_size rfl

theorem binaryInputSize_exact (inputs binary_buffer_size : Nat) (input : InferTensor) :
    ∃ result, (∀ arithmetic, binaryInputSize arithmetic inputs binary_buffer_size input = result) ∧
      ∀ n, result = .ok (some n) → n = sliceLength inputs binary_buffer_size input := by
  simp only [binaryInputSize, sliceLength]
  cases input.parameters.lookup (bytes "binary_data_size") with
  | some parameter =>
    refine ⟨_, fun _ => rfl, ?_⟩
    intro n h
    obtain ⟨-, h⟩ := not_of_ite_error h
    cases parameter with
    | int64Param paramValue =>
      obtain ⟨-, h⟩ := not_of_ite_error h
      exact (Option.some.inj (Except.ok.inj h)).symm
    | _ => cases h
  | none =>
    by_cases hempty : isInputEmpty input = false
    · exact ⟨.ok none, fun _ => if_pos hempty, nofun⟩
    by_cases hsingle : inputs = 1 ∧ input.datatype = bytes "BYTES"
    · refine ⟨.ok (some binary_buffer_size), fun _ => (if_neg hempty).trans (if_pos hsingle), ?_⟩
      intro n h
      rw [if_pos hsingle]
      exact (Option.some.inj (Except.ok.inj h)).symm
    obtain ⟨result, hresult, hbytes⟩ := calculateBinaryDataSize_exact input
    refine ⟨result >>= fun size => .ok (some size), ?_, ?_⟩
    · intro arithmetic
      rw [if_neg hempty, if_neg hsingle, hresult arithmetic]
      rfl
    · intro n h
      obtain ⟨size, hsize, h⟩ := bind_eq_ok.mp h
      rw [if_neg hsingle, ← Option.some.inj (Except.ok.inj h)]
      exact hbytes size hsize

end Lengths

section Slices

/-- Slices of a text of these lengths, which follow one another from `start` to `stop`. -/
def Sliced (text : Str) (start : Nat) (lengths : List Nat) (contents : List Str) (stop : Nat) : Prop :=
  ∃ pieces, Tiles start pieces stop ∧ pieces.map Prod.snd = lengths ∧
    contents = pieces.map fun piece => (text.drop piece.1).take piece.2

theorem Sliced.nil (text : Str) (start : Nat) : Sliced text start [] [] start := ⟨[], .nil start, rfl, rfl⟩

theorem Sliced.cons {text : Str} {start length stop : Nat} {lengths : List Nat} {contents : List Str}
    (h : Sliced text (start + length) lengths contents stop) :
    Sliced text start (length :: lengths) ((text.drop start).take length :: contents) stop := by
  obtain ⟨pieces, htiles, rfl, rfl⟩ := h
  exact ⟨(start, length) :: pieces, .cons htiles, rfl, rfl⟩

theorem Sliced.length_eq {text : Str} {start stop : Nat} {lengths : List Nat} {contents : List Str}
    (h : Sliced text start lengths contents stop) : lengths.length = contents.length := by
  obtain ⟨pieces, -, rfl, rfl⟩ := h
  rw [List.length_map, List.length_map]

variable {request_body : Str} {endOfJson : Nat}

theorem handleBinaryInput_exact (binary_input_size : Nat) {binary_input_offset binary_buffer_size : Nat}
    (hsized : request_body.length < 2 ^ 64) (hbuffer : endOfJson + binary_buffer_size = request_body.length)
    (hoffset : binary_input_offset ≤ binary_buffer_size) :
    ∃ result, (∀ arithmetic, handleBinaryInput arithmetic request_body endOfJson binary_input_size binary_input_offset
        binary_buffer_size = result) ∧
      ∀ content offset, result = .ok (content, offset) → offset = binary_input_offset + binary_input_size ∧
        offset ≤ binary_buffer_size ∧ content = (request_body.drop (endOfJson + binary_input_offset)).take binary_input_size := by
  have hrest : ∀ arithmetic : Arithmetic, arithmetic.sizeT (binary_buffer_size - binary_input_offset) =
      .ok (binary_buffer_size - binary_input_offset) := fun arithmetic => arithmetic.sub hoffset (by omega)
  by_cases hexceeded : binary_input_size > binary_buffer_size - binary_input_offset
  · refine ⟨.error .restBinaryBufferExceeded, ?_, nofun⟩
    intro arithmetic
    rw [handleBinaryInput, hrest arithmetic]
    exact if_pos hexceeded
  have hread : readBytes request_body (endOfJson + binary_input_offset) binary_input_size =
      some ((request_body.drop (endOfJson + binary_input_offset)).take binary_input_size) := if_pos (by omega)
  have hsum : ∀ arithmetic : Arithmetic, arithmetic.sizeT (binary_input_offset + binary_input_size) =
      .ok (binary_input_offset + binary_input_size) := fun arithmetic => arithmetic.exact _ (by omega)
  refine ⟨.ok ((request_body.drop (endOfJson + binary_input_offset)).take binary_input_size,
    binary_input_offset + binary_input_size), ?_, ?_⟩
  · intro arithmetic
    rw [handleBinaryInput, hrest arithmetic]
    refine (if_neg hexceeded).trans ?_
    rw [hread]
    show (arithmetic.sizeT _ >>= _) = _
    rw [hsum arithmetic]
    rfl
  · intro content offset h
    obtain ⟨rfl, rfl⟩ := Prod.mk.inj (Except.ok.inj h)
    exact ⟨rfl, by omega, rfl⟩

variable (inputs : Nat) {binary_buffer_size : Nat}

/-- A turn leaves the state, or takes the next bytes for its input. -/
theorem handleBinaryInputsTurn_exact (state : Nat × List Str) (input : InferTensor)
    (hsized : request_body.length < 2 ^ 64) (hbuffer : endOfJson + binary_buffer_size = request_body.length)
    (hoffset : state.1 ≤ binary_buffer_size) :
    ∃ result, (∀ arithmetic, handleBinaryInputsTurn arithmetic request_body endOfJson inputs binary_buffer_size state input =
        result) ∧
      ∀ next, result = .ok next → next = state ∨
        next.1 ≤ binary_buffer_size ∧ next = (state.1 + sliceLength inputs binary_buffer_size input, state.2 ++
            [(request_body.drop (endOfJson + state.1)).take (sliceLength inputs binary_buffer_size input)]) := by
  obtain ⟨size, hsize, hlength⟩ := binaryInputSize_exact inputs binary_buffer_size input
  match size with
  | .error e =>
    refine ⟨.error e, ?_, nofun⟩
    intro arithmetic
    rw [handleBinaryInputsTurn, hsize arithmetic]
    rfl
  | .ok none =>
    refine ⟨.ok state, ?_, fun next h => .inl (Except.ok.inj h).symm⟩
    intro arithmetic
    rw [handleBinaryInputsTurn, hsize arithmetic]
    rfl
  | .ok (some binary_input_size) =>
    obtain rfl := hlength binary_input_size rfl
    obtain ⟨handled, hhandled, hcontent⟩ := handleBinaryInput_exact
      (sliceLength inputs binary_buffer_size input) hsized hbuffer hoffset
    refine ⟨handled >>= fun slice => .ok (slice.2, state.2 ++ [slice.1]), ?_, ?_⟩
    · intro arithmetic
      rw [handleBinaryInputsTurn, hsize arithmetic]
      show (handleBinaryInput arithmetic _ _ _ _ _ >>= _) = _
      rw [hhandled arithmetic]
      rfl
    · intro next h
      obtain ⟨⟨content, offset⟩, hslice, h⟩ := bind_eq_ok.mp h
      obtain ⟨rfl, hle, rfl⟩ := hcontent content offset hslice
      obtain rfl := Except.ok.inj h
      exact .inr ⟨hle, rfl⟩

/-- The loop slices the bytes behind the JSON for those inputs that it does not leave out. -/
theorem handleBinaryInputs_run (remaining : List InferTensor) (state : Nat × List Str)
    (hsized : request_body.length < 2 ^ 64) (hbuffer : endOfJson + binary_buffer_size = request_body.length)
    (hoffset : state.1 ≤ binary_buffer_size) :
    ∃ result, (∀ arithmetic, remaining.foldlM (handleBinaryInputsTurn arithmetic request_body endOfJson inputs binary_buffer_size)
        state = result) ∧
      ∀ final, result = .ok final → final.1 ≤ binary_buffer_size ∧ ∃ (handled : List InferTensor) (contents : List Str), handled.Sublist remaining ∧
        Sliced request_body (endOfJson + state.1) (handled.map (sliceLength inputs binary_buffer_size)) contents
          (endOfJson + final.1) ∧ final.2 = state.2 ++ contents := by
  induction remaining generalizing state with
  | nil =>
    refine ⟨.ok state, fun _ => rfl, ?_⟩
    intro final h
    obtain rfl := Except.ok.inj h
    exact ⟨hoffset, [], [], .slnil, .nil _ _, (List.append_nil _).symm⟩
  | cons input remaining ih =>
    obtain ⟨turn, hturn, hnext⟩ := handleBinaryInputsTurn_exact inputs state input hsized hbuffer hoffset
    match turn with
    | .error e =>
      refine ⟨.error e, ?_, nofun⟩
      intro arithmetic
      rw [List.foldlM_cons, hturn arithmetic]
      rfl
    | .ok next =>
      have hle : next.1 ≤ binary_buffer_size := by
        rcases hnext next rfl with rfl | ⟨hle, -⟩
        · exact hoffset
        · exact hle
      obtain ⟨result, hresult, hfinal⟩ := ih next hle
      refine ⟨result, ?_, ?_⟩
      · intro arithmetic
        rw [List.foldlM_cons, hturn arithmetic]
        exact hresult arithmetic
      · intro final h
        obtain ⟨hstop, handled, contents, hsublist, hsliced, hcontents⟩ := hfinal final h
        rcases hnext next rfl with rfl | ⟨-, hnext⟩
        · exact ⟨hstop, handled, contents, hsublist.cons input, hsliced, hcontents⟩
        · rw [hnext] at hsliced hcontents
          refine ⟨hstop, input :: handled, _, hsublist.cons_cons input, ?_, hcontents.trans (List.append_assoc ..)⟩
          rw [← Nat.add_assoc] at hsliced
          exact hsliced.cons

/-- For any list of inputs: no operation wraps, and what comes of the body are slices of it, one after the other. -/
theorem handleBinaryInputs_exact (parsed : List InferTensor) (hsized : request_body.length < 2 ^ 64)
    (hjson : endOfJson ≤ request_body.length) :
    ∃ result, (∀ arithmetic, handleBinaryInputs arithmetic parsed request_body endOfJson = result) ∧
      ∀ contents, result = .ok contents → ∃ (handled : List InferTensor) (stop : Nat), handled.Sublist parsed ∧
        stop ≤ request_body.length ∧ Sliced request_body endOfJson (handled.map (sliceLength parsed.length (request_body.length - endOfJson))) contents stop := by
  have hbuffer : endOfJson + (request_body.length - endOfJson) = request_body.length := by omega
  obtain ⟨run, hrun, hfinal⟩ := handleBinaryInputs_run parsed.length parsed (0, []) hsized hbuffer (Nat.zero_le _)
  refine ⟨run >>= fun state => .ok state.2, ?_, ?_⟩
  · intro arithmetic
    rw [handleBinaryInputs, arithmetic.sub hjson hsized]
    exact congrArg (· >>= fun state => Except.ok state.2) (hrun arithmetic)
  · intro contents h
    obtain ⟨final, hrun, h⟩ := bind_eq_ok.mp h
    obtain ⟨hstop, handled, contents', hsublist, hsliced, hcontents⟩ := hfinal final hrun
    obtain rfl := Except.ok.inj h
    rw [List.nil_append] at hcontents
    rw [hcontents]
    exact ⟨handled, endOfJson + final.1, hsublist, by omega, hsliced⟩

end Slices

section Alignment

variable {reader : RestRequest.Reader} {modelName : Str} {modelVersion : Option (BitVec 64)} {request_body : RequestBody}
  {inferenceHeaderContentLength : Option (BitVec 32)}

/-- No operation wraps, whatever comes in. -/
theorem prepareGrpcRequest_checked (reader : RestRequest.Reader) (modelName : Str) (modelVersion : Option (BitVec 64))
    (request_body : RequestBody) (inferenceHeaderContentLength : Option (BitVec 32)) :
    prepareGrpcRequest .checked reader modelName modelVersion request_body inferenceHeaderContentLength =
      prepareGrpcRequest .modular reader modelName modelVersion request_body inferenceHeaderContentLength := by
  simp only [prepareGrpcRequest]
  by_cases hexceeded : endOfJson request_body inferenceHeaderContentLength > request_body.text.length
  · rw [if_pos hexceeded, if_pos hexceeded]
  rw [if_neg hexceeded, if_neg hexceeded]
  cases RestRequest.parse reader (cStr (request_body.text.take (endOfJson request_body inferenceHeaderContentLength))) with
  | error status => rfl
  | ok proto =>
    obtain ⟨result, hresult, -⟩ := handleBinaryInputs_exact proto.inputs request_body.sized (Nat.le_of_not_lt hexceeded)
    simp only [hresult]

/-- What a request is made of. -/
theorem prepareGrpcRequest_ok {arithmetic : Arithmetic} {prepared : KFSRequest}
    (h : prepareGrpcRequest arithmetic reader modelName modelVersion request_body inferenceHeaderContentLength = .ok prepared) :
    endOfJson request_body inferenceHeaderContentLength ≤ request_body.text.length ∧
      handleBinaryInputs arithmetic prepared.proto.inputs request_body.text (endOfJson request_body inferenceHeaderContentLength) =
        .ok prepared.raw_input_contents := by
  obtain ⟨hjson, h⟩ := not_of_ite_error h
  refine ⟨Nat.le_of_not_lt hjson, ?_⟩
  split at h
  next => cases h
  next proto hparse =>
    obtain ⟨contents, hcontents, h⟩ := bind_eq_ok.mp h
    obtain rfl := Except.ok.inj h
    exact hcontents

/-- As many raw contents as inputs, or none. -/
theorem length_of_coherent {request : RequestValidation.ModelInferRequest}
    (h : RequestValidation.validateRequestCoherencyKFS request = .ok ()) (hraw : request.raw_input_contents ≠ []) :
    request.raw_input_contents.length = request.inputs.length := by
  rw [RequestValidation.validateRequestCoherencyKFS, if_neg hraw] at h
  exact Decidable.not_not.mp (not_of_ite_error h).1

/-- The raw contents of a request that is prepared and then found coherent: there are none, or they are the slices of the
bytes behind the JSON, one for each input, and nothing has wrapped. -/
theorem prepareGrpcRequest_sliced {prepared : KFSRequest} {request : RequestValidation.ModelInferRequest}
    (hprepared : prepareGrpcRequest .modular reader modelName modelVersion request_body inferenceHeaderContentLength = .ok prepared)
    (hinputs : request.inputs = prepared.proto.inputs.map toInferInputTensor)
    (hcontents : request.raw_input_contents = prepared.raw_input_contents)
    (hcoherent : RequestValidation.validateRequestCoherencyKFS request = .ok ()) :
    prepareGrpcRequest .checked reader modelName modelVersion request_body inferenceHeaderContentLength = .ok prepared ∧
      (prepared.raw_input_contents = [] ∨ ∃ stop ≤ request_body.text.length,
        Sliced request_body.text (endOfJson request_body inferenceHeaderContentLength)
          (prepared.proto.inputs.map (sliceLength prepared.proto.inputs.length
            (request_body.text.length - endOfJson request_body inferenceHeaderContentLength)))
          prepared.raw_input_contents stop) := by
  refine ⟨(prepareGrpcRequest_checked ..).trans hprepared, ?_⟩
  by_cases hempty : prepared.raw_input_contents = []
  · exact .inl hempty
  obtain ⟨hjson, hhandled⟩ := prepareGrpcRequest_ok hprepared
  obtain ⟨result, hresult, hsliced⟩ := handleBinaryInputs_exact prepared.proto.inputs request_body.sized hjson
  obtain ⟨handled, stop, hsublist, hstop, hsliced⟩ := hsliced _ ((hresult .modular).symm.trans hhandled)
  have hlength := length_of_coherent hcoherent (hcontents ▸ hempty)
  rw [hinputs, hcontents, List.length_map, ← hsliced.length_eq, List.length_map] at hlength
  obtain rfl := hsublist.eq_of_length hlength
  exact .inr ⟨stop, hstop, hsliced⟩

theorem byte_integer (n : Byte) : -2 ^ 63 ≤ (n.toNat : Int) ∧ (n.toNat : Int) < 2 ^ 64 := by
  have hn := n.toNat_lt
  omega

def small (n : Byte) : RestRequest.Node := .number (.integer n.toNat (byte_integer n))

/-- Two inputs, of which the second one says how many bytes it has. -/
def twoInputs : RestRequest.Node :=
  .object [(bytes "inputs", .array [
    .object [(bytes "name", .string (bytes "a")), (bytes "shape", .array [small 2]), (bytes "datatype", .string (bytes "INT8"))],
    .object [(bytes "name", .string (bytes "b")), (bytes "shape", .array [small 1]), (bytes "datatype", .string (bytes "FP16")),
      (bytes "parameters", .object [(bytes "binary_data_size", small 3)])]])]

def twoInputsText : Str :=
  bytes "\x7b\"inputs\":[\x7b\"name\":\"a\",\"shape\":[2],\"datatype\":\"INT8\"\x7d,\x7b\"name\":\"b\",\"shape\":[1],\"datatype\":\"FP16\",\"parameters\":\x7b\"binary_data_size\":3\x7d\x7d]\x7d"

set_option maxRecDepth 2000 in
def twoInputsBody : RequestBody :=
  ⟨twoInputsText ++ [1, 2, 3, 4, 5], by rw [twoInputsText, bytes_eq_map rfl]; decide +kernel⟩

def twoInputsRequest : RequestValidation.ModelInferRequest where
  inputs := [⟨bytes "a", bytes "INT8", [2], none⟩, ⟨bytes "b", bytes "FP16", [1], none⟩]
  raw_input_contents := [[1, 2], [3, 4, 5]]
  counted := by
    intro input hm datatype
    have hnone : input.contents = none := by
      simp only [List.mem_cons, List.not_mem_nil, or_false] at hm
      rcases hm with rfl | rfl <;> rfl
    rw [RequestValidation.InferInputTensor.contentsOrDefault, hnone]
    cases datatype <;> decide
  sized := by decide

def twoInputsPrepared : KFSRequest where
  model_name := bytes "m"
  model_version := []
  proto := { inputs := [⟨bytes "a", bytes "INT8", [2], [], {}⟩,
    ⟨bytes "b", bytes "FP16", [1], [(bytes "binary_data_size", .int64Param 3)], {}⟩] }
  raw_input_contents := [[1, 2], [3, 4, 5]]

set_option maxRecDepth 2000 in
theorem prepareGrpcRequest_sliced_twoInputs :
    prepareGrpcRequest .checked (RestRequest.readerOf twoInputsText twoInputs) (bytes "m") none twoInputsBody (some 134) =
        .ok twoInputsPrepared ∧
      (twoInputsPrepared.raw_input_contents = [] ∨ ∃ stop ≤ twoInputsBody.text.length,
        Sliced twoInputsBody.text (endOfJson twoInputsBody (some 134))
          (twoInputsPrepared.proto.inputs.map (sliceLength twoInputsPrepared.proto.inputs.length
            (twoInputsBody.text.length - endOfJson twoInputsBody (some 134))))
          twoInputsPrepared.raw_input_contents stop) := by
  have hread (text : Str) (htext : text = twoInputsText) (hsized : (text ++ [1, 2, 3, 4, 5]).length < 2 ^ 64) :
      prepareGrpcRequest .modular (RestRequest.readerOf text twoInputs) (bytes "m") none ⟨text ++ [1, 2, 3, 4, 5], hsized⟩ (some 134) =
        .ok twoInputsPrepared := by
    rw [twoInputsText, bytes_eq_map rfl] at htext
    subst htext
    revert hsized
    decide +kernel
  have hinputs : twoInputsRequest.inputs = twoInputsPrepared.proto.inputs.map toInferInputTensor := rfl
  exact prepareGrpcRequest_sliced (hread _ rfl _) hinputs rfl (by decide +kernel)

end Alignment

end ModelServer.BinaryInputs
