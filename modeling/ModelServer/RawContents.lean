import ModelServer.LengthPrefixed
import ModelServer.Loop
import Mathlib.Data.Int.DivMod

namespace ModelServer.RawContents

open LengthPrefixed Loop

inductive Outcome (α : Type)
  | accepts (result : α)
  | rejects
  /-- A byte outside of the buffer is read. -/
  | outOfBounds
deriving DecidableEq

/-- `*reinterpret_cast<const uint32_t*>(buffer.data() + offset)`, within the buffer. -/
def readUint32 (buffer : Bytes) (offset : Nat) : Option Nat :=
  if offset + 4 ≤ buffer.length then some (value ((buffer.drop offset).take 4)) else none

/-- The bytes from `buffer.data() + offset` on, within the buffer. -/
def readBytes (buffer : Bytes) (offset length : Nat) : Option Bytes :=
  if offset + length ≤ buffer.length then some ((buffer.drop offset).take length) else none

/-- A `size_t` assigned to an `int32_t`. -/
def toInt32 (n : Nat) : Int := Int.bmod n (2 ^ 32)

section Validation

/-- A turn of the loop over a `BYTES` buffer in `validateTensorContent`; the state is `processedBytes` and `batchSize`. -/
def validateTensorContentTurn (buffer : Bytes) : Nat × Nat → (Nat × Nat) ⊕ Outcome Nat
  | (processedBytes, batchSize) =>
    if buffer.length ≥ processedBytes + 4 then
      match readUint32 buffer processedBytes with
      | none => .inr .outOfBounds
      | some size =>
        if processedBytes + size + 4 > buffer.length then .inr .rejects
        else .inl (processedBytes + (size + 4), batchSize + 1)
    else .inr (if buffer.length ≠ processedBytes then .rejects else .accepts batchSize)

def validateTensorContent (buffer : Bytes) : Outcome Nat :=
  run (validateTensorContentTurn buffer) (buffer.length + 1) .rejects (0, 0)

/-- The state is `offset`, `tmpBatchSize` and `tmpMaxStringLength`. -/
def getRawInputContentsBatchSizeAndWidthTurn (buffer : Bytes) : Nat × Nat × Nat → (Nat × Nat × Nat) ⊕ Outcome (Int × Nat)
  | (offset, tmpBatchSize, tmpMaxStringLength) =>
    if offset + 4 ≤ buffer.length then
      match readUint32 buffer offset with
      | none => .inr .outOfBounds
      | some inputSize => .inl (offset + (4 + inputSize), tmpBatchSize + 1, max tmpMaxStringLength inputSize)
    else .inr (if offset > buffer.length then .rejects
      else if offset < buffer.length then .rejects
      else .accepts (toInt32 tmpBatchSize, tmpMaxStringLength + 1))

def getRawInputContentsBatchSizeAndWidth (buffer : Bytes) : Outcome (Int × Nat) :=
  run (getRawInputContentsBatchSizeAndWidthTurn buffer) (buffer.length + 1) .rejects (0, 0, 0)

end Validation

section Images

/-- The state is `offset` and `inputs`. -/
def getInputsTurn (buffer : Bytes) : Nat × List Bytes → (Nat × List Bytes) ⊕ Outcome (List Bytes)
  | (offset, inputs) =>
    let finish (offset : Nat) : Outcome (List Bytes) := if offset ≠ buffer.length then .rejects else .accepts inputs
    if offset + 4 ≤ buffer.length then
      match readUint32 buffer offset with
      | none => .inr .outOfBounds
      | some inputSize =>
        let offset := offset + 4
        if offset + inputSize > buffer.length then .inr (finish offset)
        else .inl (offset + inputSize, inputs ++ [(buffer.drop offset).take inputSize])
    else .inr (finish offset)

def getInputs (buffer : Bytes) : Outcome (List Bytes) :=
  run (getInputsTurn buffer) (buffer.length + 1) .rejects (0, [])

end Images

section Strings2D

/-- A tensor of `batchSize` rows of `width` bytes. -/
structure Tensor2D where
  batchSize : Nat
  width : Nat
  rows : List Bytes
deriving DecidableEq

/-- A turn of the first loop; the state is `batchSize`, `offset` and `maxStringLength`. -/
def measureTurn (buffer : Bytes) : Nat × Nat × Nat → (Nat × Nat × Nat) ⊕ Outcome (Nat × Nat)
  | (batchSize, offset, maxStringLength) =>
    if offset + 4 ≤ buffer.length then
      match readUint32 buffer offset with
      | none => .inr .outOfBounds
      | some inputSize => .inl (batchSize + 1, offset + (4 + inputSize), max maxStringLength inputSize)
    else .inr (if offset ≠ buffer.length then .rejects else .accepts (batchSize, maxStringLength))

/-- The second loop: one row for each string, filled up with zeros. -/
def copyRows (buffer : Bytes) (width : Nat) : Nat → Nat → Option (List Bytes)
  | 0, _ => some []
  | count + 1, offset =>
    (readUint32 buffer offset).bind fun inputSize =>
      (readBytes buffer (offset + 4) inputSize).bind fun data =>
        (copyRows buffer width count (offset + 4 + inputSize)).map
          ((data ++ List.replicate (width - inputSize) 0) :: ·)

def convertStringRequestFromBufferToOVTensor2D (buffer : Bytes) : Outcome Tensor2D :=
  match run (measureTurn buffer) (buffer.length + 1) .rejects (0, 0, 0) with
  | .outOfBounds => .outOfBounds
  | .rejects => .rejects
  | .accepts (batchSize, maxStringLength) =>
    let width := maxStringLength + 1
    match copyRows buffer width batchSize 0 with
    | none => .outOfBounds
    | some rows => .accepts ⟨batchSize, width, rows⟩

end Strings2D

section NativeStrings

/-- A turn of the first loop; the state is `stringSizes` and `totalStringsLength`. -/
def stringSizesTurn (buffer : Bytes) : List Nat × Nat → (List Nat × Nat) ⊕ Outcome (List Nat)
  | (stringSizes, totalStringsLength) =>
    let finish : Outcome (List Nat) :=
      if totalStringsLength + stringSizes.length * 4 ≠ buffer.length then .rejects else .accepts stringSizes
    let headersLength := stringSizes.length * 4
    if headersLength > buffer.length then .inr finish
    else if totalStringsLength > buffer.length - headersLength then .inr finish
    else
      let currentOffset := totalStringsLength + headersLength
      if buffer.length - currentOffset < 4 then .inr finish
      else
        match readUint32 buffer currentOffset with
        | none => .inr .outOfBounds
        | some inputSize =>
          let remainingStringBytes := buffer.length - currentOffset - 4
          if inputSize > remainingStringBytes then .inr .rejects
          else .inl (stringSizes ++ [inputSize], totalStringsLength + inputSize)

/-- The second loop, from index `i` on. -/
def assignStrings (buffer : Bytes) : List Nat → Nat → Nat → Outcome (List Bytes)
  | [], _, _ => .accepts []
  | size :: sizes, i, tensorStringsOffset =>
    let sourceOffset := (i + 1) * 4 + tensorStringsOffset
    if sourceOffset > buffer.length ∨ size > buffer.length - sourceOffset then .rejects
    else
      match readBytes buffer sourceOffset size, assignStrings buffer sizes (i + 1) (tensorStringsOffset + size) with
      | some data, .accepts rest => .accepts (data :: rest)
      | none, _ => .outOfBounds
      | _, failed => failed

/-- The shape that the request gives is left aside. -/
def convertBinaryExtensionStringFromBufferToNativeOVTensor (buffer : Bytes) : Outcome (List Bytes) :=
  match run (stringSizesTurn buffer) (buffer.length + 1) .rejects ([], 0) with
  | .outOfBounds => .outOfBounds
  | .rejects => .rejects
  | .accepts stringSizes => assignStrings buffer stringSizes 0 0

end NativeStrings

section Rest

/-- A turn of the loop in `PARSE_OUTPUT_DATA_STRING`; the state is `i` and the strings written. -/
def parseOutputDataStringTurn (buffer : Bytes) : Nat × List Bytes → (Nat × List Bytes) ⊕ Outcome (List Bytes)
  | (i, written) =>
    if i < buffer.length then
      match readUint32 buffer i with
      | none => .inr .outOfBounds
      | some length =>
        let i := i + 4
        if i + length > buffer.length then .inr .rejects
        else
          match readBytes buffer i length with
          | none => .inr .outOfBounds
          | some data => .inl (i + length, written ++ [data])
    else .inr (.accepts written)

def parseOutputDataString (buffer : Bytes) : Outcome (List Bytes) :=
  run (parseOutputDataStringTurn buffer) (buffer.length + 1) .rejects (0, [])

end Rest

end ModelServer.RawContents
