import ModelServer.ByteStrings
import ModelServer.WordArrays

namespace ModelServer.KServe

/-- `inference::InferParameter`. -/
inductive InferParameter
  | notSet
  | boolParam (b : Bool)
  | int64Param (n : BitVec 64)
  | stringParam (s : Str)
deriving DecidableEq

/-- `inference::InferTensorContents`. -/
structure InferTensorContents where
  bool_contents : List Bool := []
  int_contents : List (BitVec 32) := []
  int64_contents : List (BitVec 64) := []
  uint_contents : List (BitVec 32) := []
  uint64_contents : List (BitVec 64) := []
  fp32_contents : List (BitVec 32) := []
  fp64_contents : List (BitVec 64) := []
  bytes_contents : List Str := []
deriving DecidableEq

/-- A tensor of a request or of a response. -/
structure InferTensor where
  name : Str
  datatype : Str
  shape : List (BitVec 64)
  parameters : List (Str × InferParameter) := []
  contents : InferTensorContents := {}
deriving DecidableEq

/-- The names of the datatypes. -/
inductive Datatype
  | BOOL
  | UINT8
  | UINT16
  | UINT32
  | UINT64
  | INT8
  | INT16
  | INT32
  | INT64
  | FP16
  | FP32
  | FP64
  | BYTES
deriving DecidableEq

namespace Datatype

def all : List Datatype := [BOOL, UINT8, UINT16, UINT32, UINT64, INT8, INT16, INT32, INT64, FP16, FP32, FP64, BYTES]

def text : Datatype → Str
  | BOOL => bytes "BOOL"
  | UINT8 => bytes "UINT8"
  | UINT16 => bytes "UINT16"
  | UINT32 => bytes "UINT32"
  | UINT64 => bytes "UINT64"
  | INT8 => bytes "INT8"
  | INT16 => bytes "INT16"
  | INT32 => bytes "INT32"
  | INT64 => bytes "INT64"
  | FP16 => bytes "FP16"
  | FP32 => bytes "FP32"
  | FP64 => bytes "FP64"
  | BYTES => bytes "BYTES"

/-- The datatype that a text names. -/
def ofText (text : Str) : Option Datatype := all.find? fun datatype => datatype.text = text

theorem ofText_text (datatype : Datatype) : ofText datatype.text = some datatype := by
  cases datatype <;> decide +kernel

def size : Datatype → Nat
  | BOOL => 1
  | UINT8 => 1
  | UINT16 => 2
  | UINT32 => 4
  | UINT64 => 8
  | INT8 => 1
  | INT16 => 2
  | INT32 => 4
  | INT64 => 8
  | FP16 => 2
  | FP32 => 4
  | FP64 => 8
  | BYTES => 1

end Datatype

def KFSDataTypeSize (datatype : Str) : Nat := ((Datatype.ofText datatype).map Datatype.size).getD 0

/-- An element of a tensor; a floating point number is the pattern of its bits. -/
inductive Value
  | boolean (b : Bool)
  | integer (n : Int)
  | single (pattern : Nat)
  | double (pattern : Nat)
  | text (s : Str)
deriving DecidableEq

namespace Datatype

/-- The element that a word of some bytes holds. -/
def valueOf (datatype : Datatype) (width word : Nat) : Value :=
  match datatype with
  | BOOL => .boolean (word ≠ 0)
  | INT8 | INT16 | INT32 | INT64 => .integer (Int.bmod word (256 ^ width))
  | FP32 => .single word
  | FP64 => .double word
  | UINT8 | UINT16 | UINT32 | UINT64 | FP16 | BYTES => .integer word

/-- How many bytes an element has in the repeated field for its datatype: there are none for less than four bytes, but for
`BOOL`. -/
def fieldSize : Datatype → Nat
  | BOOL => 1
  | UINT8 | UINT16 | UINT32 => 4
  | INT8 | INT16 | INT32 => 4
  | FP32 => 4
  | INT64 | UINT64 | FP64 => 8
  | FP16 | BYTES => 0

/-- The words of the repeated field. -/
def field (datatype : Datatype) (contents : InferTensorContents) : List Nat :=
  match datatype with
  | BOOL => contents.bool_contents.map Bool.toNat
  | INT8 | INT16 | INT32 => contents.int_contents.map BitVec.toNat
  | INT64 => contents.int64_contents.map BitVec.toNat
  | UINT8 | UINT16 | UINT32 => contents.uint_contents.map BitVec.toNat
  | UINT64 => contents.uint64_contents.map BitVec.toNat
  | FP32 => contents.fp32_contents.map BitVec.toNat
  | FP64 => contents.fp64_contents.map BitVec.toNat
  | FP16 | BYTES => []

end Datatype

end ModelServer.KServe
