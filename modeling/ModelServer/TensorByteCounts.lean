import ModelServer.TensorInfo
import Mathlib.Algebra.BigOperators.Group.List.Basic
import Mathlib.Data.Int.ModEq
import Mathlib.Tactic.Linarith
import Mathlib.Tactic.NormNum

namespace ModelServer.TensorByteCounts

/-- The `ov::element::Type_t` that have a `Precision`. -/
inductive Type_t
  | dynamic | boolean | bf16 | f16 | f32 | f64 | i4 | i8 | i16 | i32 | i64 | u1 | u4 | u8 | u16 | u32 | u64 | string
deriving DecidableEq

/-- `ov::element::Type::size`, in bytes; part of a byte counts as one. -/
def Type_t.size : Type_t → Nat
  | .dynamic => 0
  | .boolean | .i4 | .i8 | .u1 | .u4 | .u8 => 1
  | .bf16 | .f16 | .i16 | .u16 => 2
  | .f32 | .i32 | .u32 => 4
  | .f64 | .i64 | .u64 => 8
  | .string => 32

def ovmsPrecisionToIE2Precision : Precision → Type_t
  | .FP64 => .f64
  | .FP32 => .f32
  | .FP16 => .f16
  | .I64 => .i64
  | .I32 => .i32
  | .I16 => .i16
  | .I8 => .i8
  | .I4 => .i4
  | .U64 => .u64
  | .U32 => .u32
  | .U16 => .u16
  | .U8 => .u8
  | .U4 => .u4
  | .U1 => .u1
  | .BOOL => .boolean
  | .BF16 => .bf16
  | .UNDEFINED => .dynamic
  | .DYNAMIC => .dynamic
  | .STRING => .string
  | .MIXED | .Q78 | .BIN | .CUSTOM => .dynamic

inductive CustomNodeTensorPrecision
  | UNSPECIFIED | FP32 | FP16 | U8 | I8 | I16 | U16 | I32 | FP64 | I64
deriving DecidableEq

def toInferenceEnginePrecision : CustomNodeTensorPrecision → Precision
  | .FP32 => .FP32
  | .FP64 => .FP64
  | .I32 => .I32
  | .I64 => .I64
  | .I8 => .I8
  | .U8 => .U8
  | .FP16 => .FP16
  | .I16 => .I16
  | .U16 => .U16
  | .UNSPECIFIED => .UNDEFINED

/-- An `int` converted to `size_t`. -/
def toSizeT (value : Int) : Nat := (value % 2 ^ 64).toNat

/-- `std::accumulate(begin, end, 1, std::multiplies<size_t>())`: the products are of type `size_t`, the `1` makes the
accumulator an `int`. -/
def accumulate (shape : List Nat) : Int :=
  shape.foldl (fun product dimension => ((toSizeT product * dimension % 2 ^ 64 : Nat) : Int).bmod (2 ^ 32)) 1

/-- The number of elements times their size, in a `size_t`. -/
def byteCount (shape : List Nat) (elementType : Type_t) : Nat := toSizeT (accumulate shape) * elementType.size % 2 ^ 64

inductive StatusCode
  | NODE_LIBRARY_INVALID_PRECISION
  | NODE_LIBRARY_INVALID_CONTENT_SIZE
  | OV_INTERNAL_DESERIALIZATION_ERROR
  | INTERNAL_ERROR
  | NOT_IMPLEMENTED
deriving DecidableEq

/-- An output of a custom node; `data` is the address of its bytes, if there is one. -/
structure CustomNodeTensor where
  name : String
  data : Option Nat
  dataBytes : Nat
  dims : List Nat
  precision : CustomNodeTensorPrecision
deriving DecidableEq

/-- A tensor over memory that something else owns. -/
structure PlacedTensor where
  precision : Type_t
  shape : List Nat
  data : Nat
deriving DecidableEq

/-- `CustomNodeSession::createTensor`; `constructed` says whether `ov::Tensor` can be made of a type and a shape. -/
def createTensor (constructed : Type_t → List Nat → Bool) (tensor : CustomNodeTensor) : Except StatusCode PlacedTensor :=
  let precision := ovmsPrecisionToIE2Precision (toInferenceEnginePrecision tensor.precision)
  if precision = .dynamic then .error .NODE_LIBRARY_INVALID_PRECISION
  else
    let expectedDataLength := byteCount tensor.dims precision
    match tensor.data with
    | none => .error .NODE_LIBRARY_INVALID_CONTENT_SIZE
    | some data =>
      if tensor.dataBytes ≠ expectedDataLength then .error .NODE_LIBRARY_INVALID_CONTENT_SIZE
      else if tensor.precision = .UNSPECIFIED then .error .INTERNAL_ERROR
      -- the allocator gives out the node's own memory, whatever the number of bytes asked for
      else if constructed precision tensor.dims then .ok ⟨precision, tensor.dims, data⟩
      else .error .OV_INTERNAL_DESERIALIZATION_ERROR

/-- The front end a response belongs to. -/
inductive ResponseType
  | KFS
  | CAPI
deriving DecidableEq

/-- `prepareConsolidatedTensorImpl`: the number of bytes of the buffer that is added to a response with these outputs. -/
def prepareConsolidatedTensorImpl (responseType : ResponseType) (outputs : List String) (name : String)
    (precision : Type_t) (size : Nat) : Except StatusCode Nat :=
  if name ∈ outputs then .error .INTERNAL_ERROR
  else
    match responseType with
    | .KFS => .ok size
    | .CAPI => if precision = .string then .error .NOT_IMPLEMENTED else .ok size

/-- `GatherExitNodeInputHandler::prepareConsolidatedTensor`: the bytes of the buffer the tensor is placed over. -/
def prepareConsolidatedTensor (responseType : ResponseType) (outputs : List String) (name : String) (precision : Type_t)
    (shape : List Nat) : Except StatusCode Nat :=
  let numOfBytes := byteCount shape precision
  prepareConsolidatedTensorImpl responseType outputs name precision numOfBytes

/-- For this shape and element type an accepted output of a custom node has as many bytes as its elements take, and so has
the buffer of a consolidated tensor. -/
structure ByteCountsExact (shape : List Nat) (elementType : Type_t) : Prop where
  createTensor : ∀ constructed tensor placed, tensor.dims = shape →
    ovmsPrecisionToIE2Precision (toInferenceEnginePrecision tensor.precision) = elementType →
    createTensor constructed tensor = .ok placed → tensor.dataBytes = shape.prod * elementType.size
  prepareConsolidatedTensor : ∀ responseType outputs name bytes,
    prepareConsolidatedTensor responseType outputs name elementType shape = .ok bytes → bytes = shape.prod * elementType.size

theorem toSizeT_emod (value : Int) : (toSizeT value : Int) = value % 2 ^ 64 :=
  Int.toNat_of_nonneg (Int.emod_nonneg _ (by norm_num))

theorem foldl_product (shape : List Nat) (product : Int) :
    shape.foldl (fun product dimension => ((toSizeT product * dimension % 2 ^ 64 : Nat) : Int).bmod (2 ^ 32))
      (product.bmod (2 ^ 32)) = (product * shape.prod).bmod (2 ^ 32) := by
  induction shape generalizing product with
  | nil => simp
  | cons dimension shape ih =>
    have hstep : ((toSizeT (product.bmod (2 ^ 32)) * dimension % 2 ^ 64 : Nat) : Int).bmod (2 ^ 32) =
        (product * dimension).bmod (2 ^ 32) := by
      have hmod : ((toSizeT (product.bmod (2 ^ 32)) * dimension % 2 ^ 64 : Nat) : Int) ≡ product * dimension [ZMOD (2 ^ 32 : Nat)] := by
        have hdvd : ((2 ^ 32 : Nat) : Int) ∣ 2 ^ 64 := by norm_num
        push_cast
        rw [toSizeT_emod]
        calc product.bmod (2 ^ 32) % 2 ^ 64 * dimension % 2 ^ 64
            ≡ product.bmod (2 ^ 32) % 2 ^ 64 * dimension [ZMOD (2 ^ 32 : Nat)] := (Int.mod_modEq _ _).of_dvd hdvd
          _ ≡ product.bmod (2 ^ 32) * dimension [ZMOD (2 ^ 32 : Nat)] := ((Int.mod_modEq _ _).of_dvd hdvd).mul_right _
          _ ≡ product * dimension [ZMOD (2 ^ 32 : Nat)] := Int.ModEq.mul_right _ Int.bmod_emod
      rw [← Int.emod_bmod, hmod.eq]
      exact Int.emod_bmod _ _
    rw [List.foldl_cons, hstep, ih, List.prod_cons, Nat.cast_mul, Int.mul_assoc]

/-- The accumulator keeps the low 32 bits of the product, with their sign. -/
theorem accumulate_eq (shape : List Nat) : accumulate shape = (shape.prod : Int).bmod (2 ^ 32) := by
  have h := foldl_product shape 1
  rw [one_mul] at h
  exact h

/-- A product converted to `int` and back: what is above 32 bits is lost, and the bits above are those of the sign. -/
theorem toSizeT_bmod (product : Nat) : toSizeT ((product : Int).bmod (2 ^ 32)) =
    if product % 2 ^ 32 < 2 ^ 31 then product % 2 ^ 32 else 2 ^ 64 - 2 ^ 32 + product % 2 ^ 32 := by
  have hbmod : (product : Int).bmod (2 ^ 32) =
      if product % 2 ^ 32 < 2 ^ 31 then ((product % 2 ^ 32 : Nat) : Int) else ((product % 2 ^ 32 : Nat) : Int) - 2 ^ 32 := by
    rw [Int.bmod_def]
    split <;> split <;> omega
  rw [toSizeT, hbmod]
  split <;> omega

/-- With a size that divides 2^32 the count is exact below 2^31 elements, and again where less than 2^31 elements are
missing to 2^64 bytes. -/
theorem wrapped_exact_iff {product size : Nat} (hsize : size ∣ 2 ^ 32) :
    toSizeT ((product : Int).bmod (2 ^ 32)) * size % 2 ^ 64 = product * size ↔
      product < 2 ^ 31 ∨ product * size < 2 ^ 64 ∧ 2 ^ 64 ≤ (product + 2 ^ 31) * size := by
  obtain ⟨limit, hlimit⟩ := hsize
  have hpos : 0 < size := Nat.pos_of_ne_zero fun hzero => by simp [hzero] at hlimit
  have hle : size ≤ 2 ^ 32 := Nat.le_of_dvd (by norm_num) ⟨limit, hlimit⟩
  have hbytes : 2 ^ 64 = 2 ^ 32 * limit * size := by
    rw [Nat.mul_assoc, Nat.mul_comm limit, ← hlimit]
    norm_num
  have hbelow : product * size < 2 ^ 64 ↔ product < 2 ^ 32 * limit := by
    rw [hbytes, Nat.mul_lt_mul_right hpos]
  have habove : 2 ^ 64 ≤ (product + 2 ^ 31) * size ↔ 2 ^ 32 * limit ≤ product + 2 ^ 31 := by
    rw [hbytes, Nat.mul_le_mul_right_iff hpos]
  rw [hbelow, habove, toSizeT_bmod]
  have hproduct := Nat.div_add_mod product (2 ^ 32)
  generalize product / 2 ^ 32 = quotient at hproduct
  generalize hrest : product % 2 ^ 32 = rest at hproduct ⊢
  have hrest : rest < 2 ^ 32 := hrest ▸ Nat.mod_lt _ (by norm_num)
  split
  next hsmall =>
    -- the sign bit is not set: the count is that of the low bits
    have hfits : rest * size < 2 ^ 64 := lt_of_lt_of_le (Nat.mul_lt_mul_of_lt_of_le hsmall hle (by norm_num)) (by norm_num)
    rw [Nat.mod_eq_of_lt hfits, Nat.mul_left_inj hpos.ne']
    omega
  next hlarge =>
    -- the sign bit is set: the count is below 2^64 by what the low bits lack to 2^32
    obtain ⟨lack, hlack⟩ := Nat.exists_eq_add_of_le hrest.le
    have hlackle : lack * size ≤ 2 ^ 63 := by
      calc lack * size ≤ 2 ^ 31 * 2 ^ 32 := Nat.mul_le_mul (by omega) hle
        _ = 2 ^ 63 := by norm_num
    have hlackpos : 0 < lack * size := Nat.mul_pos (by omega) hpos
    have hsum : (2 ^ 64 - 2 ^ 32 + rest) * size + lack * size = 2 ^ 64 * size := by
      rw [← Nat.add_mul]
      congr 1
      omega
    obtain ⟨more, hmore⟩ := Nat.exists_eq_add_of_le' hpos
    have hcount : (2 ^ 64 - 2 ^ 32 + rest) * size = 2 ^ 64 * more + (2 ^ 64 - lack * size) := by
      have hlast : 2 ^ 64 * size = 2 ^ 64 * more + 2 ^ 64 := by rw [hmore, Nat.mul_succ]
      omega
    have hwhole : product * size + lack * size = 2 ^ 32 * (quotient + 1) * size := by
      rw [← Nat.add_mul]
      congr 1
      omega
    have hexact : 2 ^ 64 - lack * size = product * size ↔ limit = quotient + 1 := by
      have hcancel : 2 ^ 32 * limit * size = 2 ^ 32 * (quotient + 1) * size ↔ limit = quotient + 1 := by
        rw [Nat.mul_left_inj hpos.ne', Nat.mul_right_inj (by norm_num)]
      rw [← hcancel, ← hwhole, ← hbytes]
      omega
    rw [hcount, Nat.mul_add_mod, Nat.mod_eq_of_lt (by omega), hexact]
    omega

/-- Below 2^31 elements the count is right, and again where less than 2^31 elements are missing to 2^64 bytes. -/
def Counted (shape : List Nat) (elementType : Type_t) : Prop :=
  elementType = .dynamic ∨ shape.prod < 2 ^ 31 ∨
    shape.prod * elementType.size < 2 ^ 64 ∧ 2 ^ 64 ≤ (shape.prod + 2 ^ 31) * elementType.size

theorem byteCount_exact_iff (shape : List Nat) (elementType : Type_t) :
    byteCount shape elementType = shape.prod * elementType.size ↔ Counted shape elementType := by
  rw [byteCount, accumulate_eq, Counted]
  by_cases hdynamic : elementType = .dynamic
  · simp [hdynamic, Type_t.size]
  · have hsize : elementType.size ∣ 2 ^ 32 := by
      revert hdynamic
      cases elementType <;> decide
    rw [wrapped_exact_iff hsize]
    simp [hdynamic]

theorem createTensor_ok {constructed : Type_t → List Nat → Bool} {tensor : CustomNodeTensor} {placed : PlacedTensor}
    (h : createTensor constructed tensor = .ok placed) : tensor.dataBytes =
      byteCount tensor.dims (ovmsPrecisionToIE2Precision (toInferenceEnginePrecision tensor.precision)) := by
  simp only [createTensor] at h
  split at h
  next => cases h
  next =>
    cases hdata : tensor.data with
    | none => simp [hdata] at h
    | some data =>
      by_contra hlength
      simp [hdata, hlength] at h

theorem prepareConsolidatedTensor_ok {responseType : ResponseType} {outputs : List String} {name : String}
    {elementType : Type_t} {shape : List Nat} {bytes : Nat}
    (h : prepareConsolidatedTensor responseType outputs name elementType shape = .ok bytes) :
    bytes = byteCount shape elementType := by
  simp only [prepareConsolidatedTensor, prepareConsolidatedTensorImpl] at h
  split at h
  next => cases h
  next =>
    cases responseType with
    | KFS => exact (Except.ok.inj h).symm
    | CAPI =>
      simp only at h
      split at h
      next => cases h
      next => exact (Except.ok.inj h).symm

theorem byte_counts_exact_iff (shape : List Nat) (elementType : Type_t) :
    ByteCountsExact shape elementType ↔ Counted shape elementType := by
  rw [← byteCount_exact_iff]
  constructor
  · exact fun h => h.prepareConsolidatedTensor .KFS [] "" (byteCount shape elementType) rfl
  · intro hexact
    constructor
    · intro constructed tensor placed hdims htype hplaced
      rw [createTensor_ok hplaced, hdims, htype, hexact]
    · intro responseType outputs name bytes hbytes
      rw [prepareConsolidatedTensor_ok hbytes, hexact]

/-- The product of a shape with 2^32 elements is counted as zero: an output without a byte is accepted for it. -/
theorem byte_counts_wrap : ¬ ByteCountsExact [65536, 65536] .u8 := by
  intro h
  have haccepted := h.createTensor (fun _ _ => true) ⟨"mask", some 4096, 0, [65536, 65536], .U8⟩ ⟨.u8, [65536, 65536], 4096⟩
    rfl rfl (by decide)
  norm_num [Type_t.size] at haccepted

end ModelServer.TensorByteCounts
