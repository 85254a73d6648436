import Mathlib.Data.Int.ModEq
import Mathlib.Algebra.Order.BigOperators.Group.List
import ModelServer.RestResponse
import ModelServer.RawContentsDecoders
import ModelServer.StringTensors

namespace ModelServer.RestResponse

open KServe LengthPrefixed
open RawContents (toInt32 cut cut_eq_iff length_cut parseOutputDataString parseOutputDataString_eq)

section Tensors

/-- The number of elements that the dimensions give. -/
def elementCount (tensor : InferTensor) : Int := (tensor.shape.map BitVec.toInt).prod

/-- The datatype is one that the conversion knows, and the elements are as many as the shape says. -/
structure Consistent (tensor : InferTensor) (content : Option Str) (datatype : Datatype) : Prop where
  named : Datatype.ofText tensor.datatype = some datatype
  supported : datatype ≠ .FP16
  field : content = none → datatype ≠ .BYTES → (datatype.field tensor.contents).length = elementCount tensor
  strings : content = none → datatype = .BYTES → tensor.contents.bytes_contents.length = elementCount tensor
  raw : ∀ bytes, content = some bytes → datatype ≠ .BYTES → bytes.length = elementCount tensor * datatype.size
  rawStrings : ∀ bytes, content = some bytes → datatype = .BYTES →
    ∃ records, Concatenation 4 records bytes ∧ records.length = elementCount tensor

theorem ofText_eq_some {text : Str} {datatype : Datatype} (h : Datatype.ofText text = some datatype) : text = datatype.text := by
  have hfound := List.find?_some h
  exact (of_decide_eq_true hfound).symm

theorem toNat_modEq_toInt (dim : BitVec 64) : (dim.toNat : Int) ≡ dim.toInt [ZMOD 2 ^ 64] := by
  rw [BitVec.toInt_eq_toNat_bmod, Int.ModEq]
  exact (Int.bmod_emod ..).symm

theorem foldl_dims (dims : List (BitVec 64)) {size : Nat} (hsize : size < 2 ^ 64) :
    dims.foldl (fun size dim => size * dim.toNat % 2 ^ 64) size < 2 ^ 64 ∧
      ((dims.foldl (fun size dim => size * dim.toNat % 2 ^ 64) size : Nat) : Int) ≡ (dims.map BitVec.toInt).prod * size [ZMOD 2 ^ 64] := by
  induction dims generalizing size with
  | nil => exact ⟨hsize, by rw [List.foldl_nil, List.map_nil, List.prod_nil, one_mul]⟩
  | cons dim dims ih =>
    obtain ⟨hlt, hmod⟩ := ih (Nat.mod_lt (size * dim.toNat) (by decide : 0 < 2 ^ 64))
    refine ⟨hlt, hmod.trans ?_⟩
    have hfirst : ((size * dim.toNat % 2 ^ 64 : Nat) : Int) ≡ dim.toInt * size [ZMOD 2 ^ 64] := by
      rw [Int.natCast_mod, Nat.cast_mul, mul_comm]
      exact (Int.mod_modEq _ _).trans ((toNat_modEq_toInt dim).mul_right _)
    rw [List.map_cons, List.prod_cons, mul_comm dim.toInt, mul_assoc]
    exact hfirst.mul_left _

variable {tensor : InferTensor} {content : Option Str} {datatype : Datatype}

theorem KFSDataTypeSize_eq (h : Datatype.ofText tensor.datatype = some datatype) : KFSDataTypeSize tensor.datatype = datatype.size := by
  rw [KFSDataTypeSize, h]
  rfl

theorem size_pos (datatype : Datatype) : 0 < datatype.size := by
  cases datatype <;> decide

/-- A number of elements that fits is what the dimensions are multiplied to, whatever wraps around on the way. -/
theorem expectedContentSize_eq (h : Datatype.ofText tensor.datatype = some datatype) {n : Nat} (hn : (n : Int) = elementCount tensor)
    (hfits : n * datatype.size < 2 ^ 64) : expectedContentSize tensor = n * datatype.size := by
  have hsize : datatype.size < 2 ^ 64 := by cases datatype <;> decide
  obtain ⟨hlt, hmod⟩ := foldl_dims tensor.shape hsize
  rw [expectedContentSize, KFSDataTypeSize_eq h]
  have hn' : (tensor.shape.map BitVec.toInt).prod = n := hn.symm
  rw [hn', Int.ModEq, ← Nat.cast_mul, Int.emod_eq_of_lt (Int.natCast_nonneg _) (by exact_mod_cast hlt),
    Int.emod_eq_of_lt (Int.natCast_nonneg _) (by exact_mod_cast hfits)] at hmod
  exact_mod_cast hmod

theorem expectedElementsNumber_eq (h : Datatype.ofText tensor.datatype = some datatype) {n : Nat} (hn : (n : Int) = elementCount tensor)
    (hfits : n * datatype.size < 2 ^ 64) : expectedElementsNumber tensor = n := by
  rw [expectedElementsNumber, KFSDataTypeSize_eq h, if_pos (size_pos datatype), expectedContentSize_eq h hn hfits,
    Nat.mul_div_cancel _ (size_pos datatype)]

/-- The elements of an output. -/
def values (datatype : Datatype) (contents : InferTensorContents) : Option Str → List Value
  | none =>
    if datatype = .BYTES then contents.bytes_contents.map .text
    else (datatype.field contents).map (datatype.valueOf datatype.fieldSize)
  | some content =>
    if datatype = .BYTES then (complete 4 content).map .text
    else (WordArrays.read datatype.size (content.length / datatype.size) content).map (datatype.valueOf datatype.size)

/-- What is appended for an output that is requested as binary. -/
def appendedBlock (datatype : Datatype) (contents : InferTensorContents) : Option Str → Str
  | none =>
    if datatype = .BYTES then contents.bytes_contents.flatMap appendSentence
    else (WordArrays.memory datatype.fieldSize (datatype.field contents)).take ((datatype.field contents).length * datatype.size)
  | some content => content

/-- The size of an output on the wire. -/
def wireSize (datatype : Datatype) (contents : InferTensorContents) : Option Str → Nat
  | none =>
    if datatype = .BYTES then (contents.bytes_contents.map fun sentence => sentence.length + 4).sum
    else (datatype.field contents).length * datatype.size
  | some content => content.length

/-- The size that the conversion computes. -/
def computedSize (datatype : Datatype) (contents : InferTensorContents) (content : Option Str) : Nat :=
  if content = none ∧ datatype = .BYTES then
    (contents.bytes_contents.map fun sentence => (sentence.length + 4) % 2 ^ 32).sum % 2 ^ 64
  else wireSize datatype contents content

def outputObject (tensor : InferTensor) (data : Option (List Call)) (binaryOutputSize : Int) : OutputObject where
  name := cStr tensor.name
  shape := tensor.shape.map fun dim => Int.bmod dim.toInt (2 ^ 32)
  datatype := cStr tensor.datatype
  data := data
  parameters := parseOutputParameters tensor.parameters binaryOutputSize

/-- What the containers of the response bound. -/
structure Bounded (tensor : InferTensor) (content : Option Str) : Prop where
  counted : ∀ datatype : Datatype, (datatype.field tensor.contents).length < 2 ^ 31
  sized : ∀ bytes, content = some bytes → bytes.length < 2 ^ 64

theorem field_fits (hb : Bounded tensor content) (datatype : Datatype) :
    (datatype.field tensor.contents).length * datatype.size < 2 ^ 64 := by
  have hcount := hb.counted datatype
  have hsize : datatype.size ≤ 8 := by cases datatype <;> decide
  have hmul := Nat.mul_le_mul_left (datatype.field tensor.contents).length hsize
  omega

theorem size_le_fieldSize (hfp16 : datatype ≠ .FP16) (hbytes : datatype ≠ .BYTES) : datatype.size ≤ datatype.fieldSize := by
  cases datatype <;> first | decide | contradiction

theorem raw_multiple {raw : Str} (hc : Consistent tensor (some raw) datatype) (hne : datatype ≠ .BYTES) :
    ∃ n : Nat, (n : Int) = elementCount tensor ∧ raw.length = n * datatype.size := by
  have hlength := hc.raw raw rfl hne
  have hpos : (0 : Int) < datatype.size := by exact_mod_cast size_pos datatype
  have hnonneg : 0 ≤ elementCount tensor := by
    by_contra hneg
    have hmul := Int.mul_neg_of_neg_of_pos (Int.lt_of_not_ge hneg) hpos
    omega
  obtain ⟨n, hn⟩ := Int.eq_ofNat_of_zero_le hnonneg
  refine ⟨n, hn.symm, ?_⟩
  rw [hn] at hlength
  exact_mod_cast hlength

theorem parseDataByDatatype_words (hc : Consistent tensor content datatype) (hne : datatype ≠ .BYTES) (binaryOutput : Bool) :
    parseDataByDatatype tensor content binaryOutput = do
      let (data, appended) ← parseOutputData datatype tensor.contents content binaryOutput (expectedElementsNumber tensor)
        (expectedContentSize tensor)
      return (data, appended, expectedContentSize tensor) := by
  have hfp16 := hc.supported
  rw [parseDataByDatatype, hc.named]
  cases datatype <;> first | rfl | contradiction

theorem parseDataByDatatype_strings (hc : Consistent tensor content .BYTES) (binaryOutput : Bool) :
    parseDataByDatatype tensor content binaryOutput = parseOutputDataOfStrings tensor.contents content binaryOutput := by
  rw [parseDataByDatatype, hc.named]

/-- Of consistent sizes none is refused. -/
theorem parseDataByDatatype_eq (hc : Consistent tensor content datatype) (hb : Bounded tensor content) (binaryOutput : Bool) :
    ∃ size, parseDataByDatatype tensor content binaryOutput =
      .ok (if binaryOutput then ([], appendedBlock datatype tensor.contents content, size)
        else ((values datatype tensor.contents content).map write, [], size)) ∧
      (binaryOutput = true → size = computedSize datatype tensor.contents content) := by
  by_cases hbytes : datatype = .BYTES
  · subst hbytes
    rw [parseDataByDatatype_strings hc]
    cases content with
    | none =>
      cases binaryOutput with
      | true =>
        refine ⟨_, rfl, fun _ => ?_⟩
        rw [computedSize, if_pos ⟨rfl, rfl⟩]
      | false =>
        refine ⟨0, ?_, nofun⟩
        rw [values, if_pos rfl, List.map_map]
        rfl
    | some raw =>
      cases binaryOutput with
      | true =>
        refine ⟨_, rfl, fun _ => ?_⟩
        rw [computedSize, if_neg (fun h => by cases h.1)]
        rfl
      | false =>
        obtain ⟨records, hrecords, -⟩ := hc.rawStrings raw rfl rfl
        have hsplits := (concatenation_iff (by decide)).mp hrecords
        obtain ⟨hcomplete, -⟩ := (splits_complete (by decide : 0 < 4) raw).unique hsplits
        have haccepts := (parseOutputDataString_eq hsplits).trans (if_pos rfl)
        refine ⟨0, ?_, nofun⟩
        rw [parseOutputDataOfStrings, if_neg Bool.false_ne_true, haccepts, values, if_pos rfl, hcomplete, List.map_map]
        rfl
  · rw [parseDataByDatatype_words hc hbytes]
    cases content with
    | none =>
      have hn := hc.field rfl hbytes
      have hfits := field_fits hb datatype
      have hsize := expectedContentSize_eq hc.named hn hfits
      have hcheck : checkValField (datatype.field tensor.contents).length (expectedElementsNumber tensor) = .ok () := by
        rw [checkValField, expectedElementsNumber_eq hc.named hn hfits, if_neg (fun h => h rfl)]
      refine ⟨expectedContentSize tensor, ?_, fun _ => ?_⟩
      · rw [parseOutputData, hcheck]
        cases binaryOutput with
        | true =>
          rw [appendedBlock, if_neg hbytes, hsize]
          rfl
        | false =>
          rw [values, if_neg hbytes, List.map_map]
          rfl
      · rw [hsize, computedSize, if_neg (fun h => hbytes h.2), wireSize, if_neg hbytes]
    | some raw =>
      obtain ⟨n, hn, hlength⟩ := raw_multiple hc hbytes
      have hsized := hb.sized raw rfl
      have hsize := expectedContentSize_eq hc.named hn (hlength ▸ hsized)
      refine ⟨expectedContentSize tensor, ?_, fun _ => ?_⟩
      · rw [parseOutputData]
        cases binaryOutput with
        | true =>
          rw [hsize, ← hlength, List.take_length]
          rfl
        | false =>
          have hcount : (raw.length + datatype.size - 1) / datatype.size = raw.length / datatype.size := by
            have hpos := size_pos datatype
            rw [hlength, Nat.mul_div_cancel _ hpos, Nat.add_sub_assoc hpos, Nat.add_comm, Nat.add_mul_div_right _ _ hpos,
              Nat.div_eq_of_lt (by omega), Nat.zero_add]
          rw [hcount, values, if_neg hbytes, List.map_map]
          rfl
      · rw [hsize, computedSize, if_neg (fun h => by cases h.1), wireSize, hlength]

theorem parseOutput_eq (hc : Consistent tensor content datatype) (hb : Bounded tensor content) (binaryOutput : Bool) :
    parseOutput tensor content binaryOutput = .ok (
      if binaryOutput then
        (outputObject tensor none (toInt32 (computedSize datatype tensor.contents content)), appendedBlock datatype tensor.contents content)
      else (outputObject tensor (some ((values datatype tensor.contents content).map write)) 0, [])) := by
  obtain ⟨size, hdata, hsize⟩ := parseDataByDatatype_eq hc hb binaryOutput
  have hchecked : checkContentSize tensor content = .ok () := by
    cases content with
    | none => rfl
    | some raw =>
      rw [checkContentSize, if_neg]
      intro ⟨hne, hlength⟩
      have hbytes : datatype ≠ .BYTES := by
        rintro rfl
        exact hne (ofText_eq_some hc.named)
      obtain ⟨n, hn, hmultiple⟩ := raw_multiple hc hbytes
      exact hlength (hmultiple.trans (expectedContentSize_eq hc.named hn (hmultiple ▸ hb.sized raw rfl)).symm)
  rw [parseOutput, hchecked, hdata]
  cases binaryOutput with
  | true =>
    simp only [bind, Except.bind, pure, Except.pure, if_true, hsize]
    rfl
  | false =>
    simp only [bind, Except.bind, pure, Except.pure, Bool.false_eq_true, if_false]
    rfl

end Tensors

section Blocks

variable {tensor : InferTensor} {content : Option Str} {datatype : Datatype}

/-- What a client reads of a binary block. -/
def decodeBlock (datatype : Datatype) (block : Str) : Option (List Value) :=
  if datatype = .BYTES then if left 4 block = [] then some ((complete 4 block).map .text) else none
  else if block.length % datatype.size = 0 then
    some ((WordArrays.read datatype.size (block.length / datatype.size) block).map (datatype.valueOf datatype.size))
  else none

theorem value?_write (x : Value) : (write x).value? = if isFinite x then some x else none := by
  cases x with
  | boolean b => rfl
  | integer n => rfl
  | text s => rfl
  | single pattern =>
    show Call.value? (if isFinite (.single pattern) then _ else _) = _
    split
    · rfl
    · rfl
  | double pattern =>
    show Call.value? (if isFinite (.double pattern) then _ else _) = _
    split
    · rfl
    · rfl

/-- The data array holds the elements if each of them is a number that JSON has. -/
theorem written_values_iff {xs ys : List Value} :
    (xs.map write).map Call.value? = ys.map some ↔ ys = xs ∧ ∀ x ∈ xs, isFinite x = true := by
  induction xs generalizing ys with
  | nil =>
    rw [List.map_nil, List.map_nil, eq_comm, List.map_eq_nil_iff]
    exact ⟨fun h => ⟨h, nofun⟩, And.left⟩
  | cons x xs ih =>
    cases ys with
    | nil => exact iff_of_false nofun fun h => by cases h.1
    | cons y ys =>
      rw [List.map_cons, List.map_cons, List.map_cons, List.cons.injEq, ih, List.forall_mem_cons, List.cons.injEq]
      rw [value?_write, Option.ite_none_right_eq_some, Option.some.injEq, eq_comm (a := x)]
      exact ⟨fun ⟨⟨hx, hfirst⟩, hrest, hfinite⟩ => ⟨⟨hfirst, hrest⟩, hx, hfinite⟩,
        fun ⟨⟨hfirst, hrest⟩, hx, hfinite⟩ => ⟨⟨hx, hfirst⟩, hrest, hfinite⟩⟩

theorem flatMap_encode_length (records : List Str) :
    (records.flatMap (encode 4)).length = (records.map fun sentence => sentence.length + 4).sum := by
  induction records with
  | nil => rfl
  | cons record records ih =>
    rw [List.flatMap_cons, List.length_append, ih, List.map_cons, List.sum_cons, encode, List.length_append, length_header, Nat.add_comm 4]

theorem map_text_inj {a b : List Str} : a.map Value.text = b.map .text ↔ a = b :=
  (List.map_injective_iff.mpr fun _ _ h => Value.text.inj h).eq_iff

/-- A block of which the elements are read has the size of an output. -/
theorem length_of_decode (hc : Consistent tensor content datatype) {block : Str}
    (h : decodeBlock datatype block = some (values datatype tensor.contents content)) :
    block.length = wireSize datatype tensor.contents content := by
  by_cases hbytes : datatype = .BYTES
  · subst hbytes
    rw [decodeBlock, if_pos rfl] at h
    obtain ⟨hleft, h⟩ := Option.ite_none_right_eq_some.mp h
    have hblock := (splits_complete (by decide : 0 < 4) block).buffer_eq.1
    rw [hleft, List.append_nil] at hblock
    cases content with
    | none =>
      rw [values, if_pos rfl, Option.some.injEq, map_text_inj] at h
      rw [h] at hblock
      rw [hblock, flatMap_encode_length, wireSize, if_pos rfl]
    | some raw =>
      obtain ⟨records, hrecords, -⟩ := hc.rawStrings raw rfl rfl
      obtain ⟨hcomplete, -⟩ := (splits_complete (by decide : 0 < 4) raw).unique ((concatenation_iff (by decide)).mp hrecords)
      rw [values, if_pos rfl, Option.some.injEq, map_text_inj, hcomplete] at h
      rw [hblock, h, wireSize, hrecords.1]
  · rw [decodeBlock, if_neg hbytes] at h
    obtain ⟨hmod, h⟩ := Option.ite_none_right_eq_some.mp h
    have hlength := congrArg List.length (Option.some.inj h)
    rw [List.length_map, WordArrays.length_read] at hlength
    have hdiv := Nat.div_add_mod block.length datatype.size
    rw [hmod, Nat.add_zero, Nat.mul_comm] at hdiv
    cases content with
    | none =>
      rw [values, if_neg hbytes, List.length_map] at hlength
      rw [wireSize, if_neg hbytes, ← hlength, hdiv]
    | some raw =>
      obtain ⟨n, -, hmultiple⟩ := raw_multiple hc hbytes
      rw [values, if_neg hbytes, List.length_map, WordArrays.length_read, hmultiple, Nat.mul_div_cancel _ (size_pos datatype)] at hlength
      rw [wireSize, hmultiple, ← hlength, hdiv]

theorem field_lt (datatype : Datatype) (contents : InferTensorContents) :
    ∀ word ∈ datatype.field contents, word < 256 ^ datatype.fieldSize := by
  have h32 : ∀ xs : List (BitVec 32), ∀ word ∈ xs.map BitVec.toNat, word < 256 ^ 4 := by
    intro xs word hword
    obtain ⟨x, -, rfl⟩ := List.mem_map.mp hword
    exact x.isLt
  have h64 : ∀ xs : List (BitVec 64), ∀ word ∈ xs.map BitVec.toNat, word < 256 ^ 8 := by
    intro xs word hword
    obtain ⟨x, -, rfl⟩ := List.mem_map.mp hword
    exact x.isLt
  cases datatype with
  | BOOL =>
    intro word hword
    obtain ⟨b, -, rfl⟩ := List.mem_map.mp hword
    cases b <;> decide
  | UINT8 => exact h32 _
  | UINT16 => exact h32 _
  | UINT32 => exact h32 _
  | UINT64 => exact h64 _
  | INT8 => exact h32 _
  | INT16 => exact h32 _
  | INT32 => exact h32 _
  | INT64 => exact h64 _
  | FP16 => exact nofun
  | FP32 => exact h32 _
  | FP64 => exact h64 _
  | BYTES => exact nofun

/-- The value of the bits that fill a word above another value. -/
def fillOf : Value → Value
  | .integer n => .integer (if n < 0 then -1 else 0)
  | x => x

/-- The elements of a field that is wider than the datatype: the first one is in the range of the datatype, and the others
are what its sign fills. -/
def OwnSized (datatype : Datatype) : List Nat → Prop
  | [] => True
  | first :: rest =>
    datatype.valueOf datatype.size (first % 256 ^ datatype.size) = datatype.valueOf datatype.fieldSize first ∧
      ∀ word ∈ rest, datatype.valueOf datatype.fieldSize word = fillOf (datatype.valueOf datatype.fieldSize first)

open WordArrays (digit)

/-- The parts of a word that is no more than its first part. -/
theorem unsigned_parts {bytes n i : Nat} (hfits : n % 256 ^ bytes = n) (hi : 0 < i) : digit bytes n i = 0 := by
  have hlt : n < 256 ^ bytes := by
    rw [← hfits]
    exact Nat.mod_lt n (Nat.pow_pos (by decide))
  have hle : 256 ^ bytes ≤ 256 ^ (bytes * i) := Nat.pow_le_pow_right (by decide) (Nat.le_mul_of_pos_right _ hi)
  rw [digit, Nat.div_eq_of_lt (Nat.lt_of_lt_of_le hlt hle), Nat.zero_mod]

/-- A word that is read as a signed number is that number, or that number above the whole range. -/
theorem word_cases {n : Nat} (hn : n < 256 ^ 4) :
    0 ≤ Int.bmod n (256 ^ 4) ∧ n = Int.bmod n (256 ^ 4) ∨ Int.bmod n (256 ^ 4) < 0 ∧ n = Int.bmod n (256 ^ 4) + 256 ^ 4 := by
  have hmod : (n : Int) % (256 ^ 4 : Nat) = n := Int.emod_eq_of_lt (by omega) (by omega)
  rw [Int.bmod_def, hmod]
  omega

theorem signed_parts_of_four {n i : Nat} (hn : n < 256 ^ 4) (hfits : Int.bmod (n % 256 ^ 1 : Nat) (256 ^ 1) = Int.bmod n (256 ^ 4))
    (hi : 0 < i) (hi4 : i < 4) : Int.bmod (digit 1 n i) (256 ^ 1) = if Int.bmod n (256 ^ 4) < 0 then -1 else 0 := by
  have hle : -128 ≤ Int.bmod n (256 ^ 4) := hfits ▸ Int.le_bmod (by decide)
  have hlt : Int.bmod n (256 ^ 4) < 128 := hfits ▸ Int.bmod_lt (by decide)
  obtain ⟨hsign, hword⟩ | ⟨hsign, hword⟩ := word_cases hn
  · have hzero : digit 1 n i = 0 := unsigned_parts (Nat.mod_eq_of_lt (by omega)) hi
    rw [if_neg (Int.not_lt.mpr hsign), hzero]
    rfl
  · have hfull : digit 1 n i = 255 := by
      have hn : 256 ^ 4 - 128 ≤ n := by omega
      rw [digit]
      obtain rfl | rfl | rfl : i = 1 ∨ i = 2 ∨ i = 3 := by omega
      · omega
      · omega
      · omega
    rw [if_pos hsign, hfull]
    rfl

theorem signed_parts_of_two {n i : Nat} (hn : n < 256 ^ 4) (hfits : Int.bmod (n % 256 ^ 2 : Nat) (256 ^ 2) = Int.bmod n (256 ^ 4))
    (hi : 0 < i) (hi2 : i < 2) : Int.bmod (digit 2 n i) (256 ^ 2) = if Int.bmod n (256 ^ 4) < 0 then -1 else 0 := by
  have hle : -32768 ≤ Int.bmod n (256 ^ 4) := hfits ▸ Int.le_bmod (by decide)
  have hlt : Int.bmod n (256 ^ 4) < 32768 := hfits ▸ Int.bmod_lt (by decide)
  obtain ⟨hsign, hword⟩ | ⟨hsign, hword⟩ := word_cases hn
  · have hzero : digit 2 n i = 0 := unsigned_parts (Nat.mod_eq_of_lt (by omega)) hi
    rw [if_neg (Int.not_lt.mpr hsign), hzero]
    rfl
  · have hfull : digit 2 n i = 65535 := by
      obtain rfl : i = 1 := by omega
      rw [digit]
      omega
    rw [if_pos hsign, hfull]
    rfl

/-- The words whose number is one that fills. -/
theorem word_of_fill {n : Nat} {fill : Int} (hn : n < 256 ^ 4) (hfill : fill = -1 ∨ fill = 0) (h : Int.bmod n (256 ^ 4) = fill) :
    fill = -1 ∧ n = 256 ^ 4 - 1 ∨ fill = 0 ∧ n = 0 := by
  subst h
  have hword := word_cases hn
  omega

theorem fill_parts_of_four {n i : Nat} {fill : Int} (hn : n < 256 ^ 4) (hfill : fill = -1 ∨ fill = 0) (h : Int.bmod n (256 ^ 4) = fill)
    (hi4 : i < 4) : Int.bmod (digit 1 n i) (256 ^ 1) = fill := by
  obtain ⟨rfl, rfl⟩ | ⟨rfl, rfl⟩ := word_of_fill hn hfill h
  · revert i
    decide
  · rw [digit, Nat.zero_div]
    rfl

theorem fill_parts_of_two {n i : Nat} {fill : Int} (hn : n < 256 ^ 4) (hfill : fill = -1 ∨ fill = 0) (h : Int.bmod n (256 ^ 4) = fill)
    (hi2 : i < 2) : Int.bmod (digit 2 n i) (256 ^ 2) = fill := by
  obtain ⟨rfl, rfl⟩ | ⟨rfl, rfl⟩ := word_of_fill hn hfill h
  · revert i
    decide
  · rw [digit, Nat.zero_div]
    rfl

/-- The datatypes that are narrower than their field. -/
theorem narrow_cases (h : datatype.size < datatype.fieldSize) :
    datatype = .UINT8 ∨ datatype = .UINT16 ∨ datatype = .INT8 ∨ datatype = .INT16 := by
  revert h
  cases datatype <;> decide

theorem first_parts (hnarrow : datatype.size < datatype.fieldSize) {n i : Nat} (hn : n < 256 ^ datatype.fieldSize)
    (hfits : datatype.valueOf datatype.size (n % 256 ^ datatype.size) = datatype.valueOf datatype.fieldSize n) (hi : 0 < i)
    (hparts : i < datatype.fieldSize / datatype.size) :
    datatype.valueOf datatype.size (digit datatype.size n i) = fillOf (datatype.valueOf datatype.fieldSize n) := by
  obtain rfl | rfl | rfl | rfl := narrow_cases hnarrow
  · have hsame : n % 256 ^ 1 = n := Int.ofNat.inj (Value.integer.inj hfits)
    exact congrArg (fun m : Nat => Value.integer m) (unsigned_parts hsame hi)
  · have hsame : n % 256 ^ 2 = n := Int.ofNat.inj (Value.integer.inj hfits)
    exact congrArg (fun m : Nat => Value.integer m) (unsigned_parts hsame hi)
  · exact congrArg Value.integer (signed_parts_of_four hn (Value.integer.inj hfits) hi hparts)
  · exact congrArg Value.integer (signed_parts_of_two hn (Value.integer.inj hfits) hi hparts)

theorem fill_sign (n : Int) : (if n < 0 then -1 else 0 : Int) = -1 ∨ (if n < 0 then -1 else 0 : Int) = 0 := by
  split
  · exact .inl rfl
  · exact .inr rfl

theorem later_parts (hnarrow : datatype.size < datatype.fieldSize) {first n i : Nat} (hn : n < 256 ^ datatype.fieldSize)
    (hfill : datatype.valueOf datatype.fieldSize n = fillOf (datatype.valueOf datatype.fieldSize first))
    (hparts : i < datatype.fieldSize / datatype.size) :
    datatype.valueOf datatype.size (digit datatype.size n i) = fillOf (datatype.valueOf datatype.fieldSize first) := by
  have hunsigned : ∀ bytes : Nat, ((n : Nat) : Int) = (if (first : Int) < 0 then -1 else 0) →
      Value.integer (digit bytes n i) = .integer (if (first : Int) < 0 then -1 else 0) := by
    intro bytes hzero
    rw [if_neg (by omega)] at hzero ⊢
    rw [Int.natCast_eq_zero.mp hzero, digit, Nat.zero_div, Nat.zero_mod]
    rfl
  obtain rfl | rfl | rfl | rfl := narrow_cases hnarrow
  · exact hunsigned 1 (Value.integer.inj hfill)
  · exact hunsigned 2 (Value.integer.inj hfill)
  · exact congrArg Value.integer (fill_parts_of_four hn (fill_sign _) (Value.integer.inj hfill) hparts)
  · exact congrArg Value.integer (fill_parts_of_two hn (fill_sign _) (Value.integer.inj hfill) hparts)

/-- The first bytes of the words of a wider field are the elements just where these are the sign of the first one. -/
theorem narrow_iff (hnarrow : datatype.size < datatype.fieldSize) {words : List Nat} (hwords : ∀ word ∈ words, word < 256 ^ datatype.fieldSize) :
    (WordArrays.read datatype.size words.length (WordArrays.memory datatype.fieldSize words)).map (datatype.valueOf datatype.size) =
      words.map (datatype.valueOf datatype.fieldSize) ↔ OwnSized datatype words := by
  cases words with
  | nil => exact iff_of_true rfl trivial
  | cons first rest =>
    obtain ⟨hfirst, hrest⟩ := List.forall_mem_cons.mp hwords
    have hparts : 1 < datatype.fieldSize / datatype.size ∧ datatype.size * (datatype.fieldSize / datatype.size) = datatype.fieldSize := by
      obtain rfl | rfl | rfl | rfl := narrow_cases hnarrow
      · decide
      · decide
      · decide
      · decide
    have hdigit : digit datatype.size first 0 = first % 256 ^ datatype.size := by
      rw [digit, Nat.mul_zero, pow_zero, Nat.div_one]
    have hiff : (WordArrays.read datatype.size (first :: rest).length (WordArrays.memory (datatype.size * (datatype.fieldSize / datatype.size))
        (first :: rest))).map (datatype.valueOf datatype.size) = (first :: rest).map (datatype.valueOf datatype.fieldSize) ↔
        datatype.valueOf datatype.size (digit datatype.size first 0) = datatype.valueOf datatype.fieldSize first ∧
          ∀ n ∈ rest, datatype.valueOf datatype.fieldSize n = fillOf (datatype.valueOf datatype.fieldSize first) :=
      WordArrays.parts_agree_iff hparts.1 (fun hfits i hi hlt => first_parts hnarrow hfirst (by rwa [hdigit] at hfits) hi hlt)
        fun n hn hfill i hlt => later_parts hnarrow (hrest n hn) hfill hlt
    rw [hparts.2, hdigit] at hiff
    exact hiff

theorem appendedStrings_eq (strings : List Str) : strings.flatMap appendSentence = (strings.map cut).flatMap (encode 4) := by
  rw [List.flatMap_map]
  refine congrArg₂ List.flatMap ?_ rfl
  funext sentence
  rw [appendSentence, encode, length_cut, cut]

/-- What a block that is appended decodes to. -/
theorem decode_appended_iff (hc : Consistent tensor content datatype) :
    decodeBlock datatype (appendedBlock datatype tensor.contents content) = some (values datatype tensor.contents content) ↔
      content = none →
        (datatype = .BYTES → ∀ sentence ∈ tensor.contents.bytes_contents, sentence.length < 2 ^ 32) ∧
        (datatype.size < datatype.fieldSize → OwnSized datatype (datatype.field tensor.contents)) := by
  by_cases hbytes : datatype = .BYTES
  · subst hbytes
    cases content with
    | none =>
      have hcuts : Concatenation 4 (tensor.contents.bytes_contents.map cut) ((tensor.contents.bytes_contents.map cut).flatMap (encode 4)) := by
        refine ⟨rfl, fun record hrecord => ?_⟩
        obtain ⟨sentence, -, rfl⟩ := List.mem_map.mp hrecord
        rw [length_cut]
        exact Nat.mod_lt _ (by decide)
      have hleft := (left_eq_nil_iff (by decide : 0 < 4)).mpr ⟨_, hcuts⟩
      obtain ⟨hcomplete, -⟩ := (splits_complete (by decide : 0 < 4) _).unique ((concatenation_iff (by decide)).mp hcuts)
      rw [appendedBlock, if_pos rfl, appendedStrings_eq, decodeBlock, if_pos rfl, if_pos hleft, hcomplete, values, if_pos rfl,
        Option.some.injEq, map_text_inj]
      have hsame : tensor.contents.bytes_contents.map cut = tensor.contents.bytes_contents ↔
          ∀ sentence ∈ tensor.contents.bytes_contents, sentence.length < 2 ^ 32 := by
        have hmap : tensor.contents.bytes_contents.map cut = tensor.contents.bytes_contents.map id ↔
            ∀ sentence ∈ tensor.contents.bytes_contents, cut sentence = id sentence := List.map_inj_left
        rw [List.map_id] at hmap
        rw [hmap]
        exact forall₂_congr fun sentence _ => cut_eq_iff sentence
      rw [hsame]
      exact ⟨fun h _ => ⟨fun _ => h, fun hlt => absurd hlt (by decide)⟩, fun h => (h rfl).1 rfl⟩
    | some raw =>
      obtain ⟨records, hrecords, -⟩ := hc.rawStrings raw rfl rfl
      have hleft := (left_eq_nil_iff (by decide : 0 < 4)).mpr ⟨records, hrecords⟩
      refine iff_of_true ?_ nofun
      rw [appendedBlock, decodeBlock, if_pos rfl, if_pos hleft, values, if_pos rfl]
  · cases content with
    | none =>
      have hle : datatype.size ≤ datatype.fieldSize := size_le_fieldSize hc.supported hbytes
      have hlength : ((WordArrays.memory datatype.fieldSize (datatype.field tensor.contents)).take
          ((datatype.field tensor.contents).length * datatype.size)).length = (datatype.field tensor.contents).length * datatype.size := by
        refine List.length_take_of_le ?_
        rw [WordArrays.length_memory]
        exact Nat.mul_le_mul_left _ hle
      rw [appendedBlock, if_neg hbytes, decodeBlock, if_neg hbytes, hlength, if_pos (Nat.mul_mod_left _ _),
        Nat.mul_div_cancel _ (size_pos datatype), WordArrays.read_take, values, if_neg hbytes, Option.some.injEq]
      rcases Nat.lt_or_eq_of_le hle with hlt | heq
      · rw [narrow_iff hlt (field_lt datatype _)]
        exact ⟨fun h _ => ⟨fun hne => absurd hne hbytes, fun _ => h⟩, fun h => (h rfl).2 hlt⟩
      · refine iff_of_true ?_ fun _ => ⟨fun hne => absurd hne hbytes, fun hlt => absurd hlt (by omega)⟩
        rw [heq, WordArrays.read_memory (field_lt datatype _)]
    | some raw =>
      obtain ⟨n, -, hmultiple⟩ := raw_multiple hc hbytes
      refine iff_of_true ?_ nofun
      rw [appendedBlock, decodeBlock, if_neg hbytes, if_pos (by rw [hmultiple, Nat.mul_mod_left]), values, if_neg hbytes]

end Blocks

section Sizes

variable {tensor : InferTensor} {content : Option Str} {datatype : Datatype}

/-- The parameters of the output itself that are called `binary_data_size`. -/
def ownSizes (tensor : InferTensor) : List (Option Call) :=
  ((ownParameters tensor.parameters).filter fun p => p.1 = bytes "binary_data_size").map Prod.snd

/-- The size of a block can be written, and nothing else is called like it. -/
def Announced (tensor : InferTensor) (size : Nat) : Prop :=
  (0 < size ∧ size < 2 ^ 31 ∧ ownSizes tensor = []) ∨ (size = 0 ∧ ownSizes tensor = [some (.number 0)])

theorem Announced.lt {size : Nat} (h : Announced tensor size) : size < 2 ^ 31 := by
  rcases h with ⟨-, hlt, -⟩ | ⟨hzero, -⟩
  · exact hlt
  · rw [hzero]
    decide

theorem binaryDataSizes_eq (tensor : InferTensor) (data : Option (List Call)) (size : Int) :
    (outputObject tensor data size).binaryDataSizes = ownSizes tensor ++ if size > 0 then [some (.number size)] else [] := by
  rw [OutputObject.binaryDataSizes, outputObject, parseOutputParameters, List.filter_append, List.map_append, ← ownSizes]
  split
  · have hnamed : decide (((bytes "binary_data_size", some (Call.number size)) : Str × Option Call).1 = bytes "binary_data_size") = true :=
      decide_eq_true rfl
    rw [List.filter_cons, if_pos hnamed, List.filter_nil, List.map_cons, List.map_nil]
  · rw [List.filter_nil, List.map_nil]

theorem toInt32_lt (n : Nat) : toInt32 n < 2 ^ 31 := by
  have hlt : Int.bmod n (2 ^ 32) < _ := Int.bmod_lt (by decide)
  exact Int.lt_of_lt_of_le hlt (by decide)

theorem ownSizes_lt {n : Int} (h : some (.number n) ∈ ownSizes tensor) : n < 2 ^ 31 := by
  obtain ⟨member, hmember, heq⟩ := List.mem_map.mp h
  obtain ⟨⟨key, parameter⟩, -, rfl⟩ := List.mem_map.mp (List.mem_filter.mp hmember).1
  cases parameter with
  | notSet => cases heq
  | boolParam b => cases heq
  | stringParam s => cases heq
  | int64Param k =>
    have hn : Int.bmod k.toInt (2 ^ 32) = n := Call.number.inj (Option.some.inj heq)
    have hlt : Int.bmod k.toInt (2 ^ 32) < _ := Int.bmod_lt (by decide)
    rw [← hn]
    exact Int.lt_of_lt_of_le hlt (by decide)

theorem sum_mod_eq {sizes : List Nat} (h : sizes.sum < 2 ^ 31) : (sizes.map (· % 2 ^ 32)).sum % 2 ^ 64 = sizes.sum := by
  have hsame : sizes.map (· % 2 ^ 32) = sizes := by
    have hmap : sizes.map (· % 2 ^ 32) = sizes.map id := by
      refine List.map_inj_left.mpr fun size hsize => Nat.mod_eq_of_lt ?_
      have hle := List.le_sum_of_mem hsize
      omega
    rwa [List.map_id] at hmap
  rw [hsame]
  omega

theorem computedSize_eq (contents : InferTensorContents) (h : wireSize datatype contents content < 2 ^ 31) :
    computedSize datatype contents content = wireSize datatype contents content := by
  rw [computedSize]
  split
  next hstrings =>
    obtain ⟨rfl, rfl⟩ := hstrings
    rw [wireSize, if_pos rfl] at h ⊢
    have hsum := sum_mod_eq h
    rwa [List.map_map] at hsum
  next => rfl

/-- What the client finds as the size of a block. -/
theorem announced_iff :
    (outputObject tensor none (toInt32 (computedSize datatype tensor.contents content))).binaryDataSizes =
      [some (.number (wireSize datatype tensor.contents content))] ↔ Announced tensor (wireSize datatype tensor.contents content) := by
  rw [binaryDataSizes_eq]
  generalize hsize : wireSize datatype tensor.contents content = size
  have hcomputed : size < 2 ^ 31 → toInt32 (computedSize datatype tensor.contents content) = size := by
    intro hlt
    rw [computedSize_eq _ (hsize ▸ hlt), hsize]
    exact (RawContents.toInt32_eq_iff size).mpr hlt
  constructor
  · intro h
    split at h
    next hpos =>
      obtain ⟨hown, hnumber⟩ := (List.append_eq_singleton_iff.mp h).resolve_right fun h => by cases h.2
      have hequal : toInt32 (computedSize datatype tensor.contents content) = size :=
        Call.number.inj (Option.some.inj (List.cons.inj hnumber).1)
      have hlt := toInt32_lt (computedSize datatype tensor.contents content)
      exact .inl ⟨by omega, by omega, hown⟩
    next hnot =>
      rw [List.append_nil] at h
      have hlt : (size : Int) < 2 ^ 31 := ownSizes_lt (h ▸ List.mem_cons_self)
      have hequal := hcomputed (by omega)
      obtain rfl : size = 0 := by omega
      exact .inr ⟨rfl, h⟩
  · rintro (⟨hpos, hlt, hown⟩ | ⟨rfl, hown⟩)
    · rw [hcomputed hlt, if_pos (by omega), hown]
      rfl
    · rw [hcomputed (by decide), if_neg (by decide), List.append_nil, hown]
      rfl

theorem length_appended (hc : Consistent tensor content datatype) (h : wireSize datatype tensor.contents content < 2 ^ 31) :
    (appendedBlock datatype tensor.contents content).length = wireSize datatype tensor.contents content := by
  cases content with
  | some raw => rfl
  | none =>
    by_cases hbytes : datatype = .BYTES
    · subst hbytes
      have hshort : ∀ sentence ∈ tensor.contents.bytes_contents, sentence.length < 2 ^ 32 := by
        intro sentence hsentence
        have hle := List.le_sum_of_mem (List.mem_map_of_mem (f := fun sentence : Str => sentence.length + 4) hsentence)
        rw [wireSize, if_pos rfl] at h
        omega
      have hsame : tensor.contents.bytes_contents.map cut = tensor.contents.bytes_contents.map id :=
        List.map_inj_left.mpr fun sentence hsentence => (cut_eq_iff sentence).mpr (hshort sentence hsentence)
      rw [List.map_id] at hsame
      rw [appendedBlock, if_pos rfl, appendedStrings_eq, hsame, flatMap_encode_length, wireSize, if_pos rfl]
    · have hle : datatype.size ≤ datatype.fieldSize := size_le_fieldSize hc.supported hbytes
      rw [appendedBlock, if_neg hbytes, wireSize, if_neg hbytes]
      refine List.length_take_of_le ?_
      rw [WordArrays.length_memory]
      exact Nat.mul_le_mul_left _ hle

end Sizes

section Responses

/-- The outputs with their raw contents. -/
def paired : Option (List Str) → List InferTensor → List (InferTensor × Option Str)
  | none, tensors => tensors.map (·, none)
  | some contents, tensors => tensors.zip (contents.map some)

/-- The datatypes are supported and the sizes are consistent with the shapes. -/
structure ConsistentResponse (response : ModelInferResponse) : Prop where
  contents : ∀ contents, rawContents response = some contents → contents.length = response.outputs.length
  outputs : ∀ p ∈ paired (rawContents response) response.outputs, ∃ datatype, Consistent p.1 p.2 datatype

def datatypeOf (tensor : InferTensor) : Datatype := (Datatype.ofText tensor.datatype).getD .FP16

variable (names : List Str) (p : InferTensor × Option Str)

/-- The elements of an output. -/
def outputValues : List Value := values (datatypeOf p.1) p.1.contents p.2

def outputSize : Nat := wireSize (datatypeOf p.1) p.1.contents p.2

/-- What is made of an output. -/
def written : OutputObject × Str :=
  if names.contains (cStr p.1.name) then
    (outputObject p.1 none (toInt32 (computedSize (datatypeOf p.1) p.1.contents p.2)), appendedBlock (datatypeOf p.1) p.1.contents p.2)
  else (outputObject p.1 (some ((outputValues p).map write)) 0, [])

variable {names p}

theorem consistent_datatypeOf (h : ∃ datatype, Consistent p.1 p.2 datatype) : Consistent p.1 p.2 (datatypeOf p.1) := by
  obtain ⟨datatype, hc⟩ := h
  have heq : datatypeOf p.1 = datatype := by
    rw [datatypeOf, hc.named]
    rfl
  rwa [heq]

theorem parseOutput_written (hc : ∃ datatype, Consistent p.1 p.2 datatype) (hb : Bounded p.1 p.2) :
    parseOutput p.1 p.2 (names.contains (cStr p.1.name)) = .ok (written names p) := by
  rw [parseOutput_eq (consistent_datatypeOf hc) hb, written]
  rfl

theorem parseOutputs_written {contents : Option (List Str)} {tensors : List InferTensor}
    (hlength : ∀ raws, contents = some raws → raws.length = tensors.length)
    (hall : ∀ p ∈ paired contents tensors, (∃ datatype, Consistent p.1 p.2 datatype) ∧ Bounded p.1 p.2) :
    parseOutputs names contents tensors =
      .ok ((paired contents tensors).map fun p => (written names p).1, ((paired contents tensors).map fun p => (written names p).2).flatten) := by
  induction tensors generalizing contents with
  | nil =>
    cases contents with
    | none => rfl
    | some raws => rfl
  | cons tensor tensors ih =>
    have hstep : ∀ (content : Option Str) (rest : Option (List Str)), nextContent contents = .ok content → contents.map List.tail = rest →
        paired contents (tensor :: tensors) = (tensor, content) :: paired rest tensors →
        (∀ raws, rest = some raws → raws.length = tensors.length) →
        parseOutputs names contents (tensor :: tensors) =
          .ok ((paired contents (tensor :: tensors)).map fun p => (written names p).1,
            ((paired contents (tensor :: tensors)).map fun p => (written names p).2).flatten) := by
      intro content rest hnext hrest hpaired hlengths
      rw [hpaired] at hall ⊢
      obtain ⟨hfirst, hlater⟩ := List.forall_mem_cons.mp hall
      have hone : parseOutput tensor content (names.contains (cStr tensor.name)) = .ok (written names (tensor, content)) :=
        parseOutput_written hfirst.1 hfirst.2
      rw [parseOutputs, hnext, hrest]
      simp only [bind, Except.bind, hone, ih hlengths hlater]
      rfl
    cases contents with
    | none => exact hstep none none rfl rfl rfl nofun
    | some raws =>
      cases raws with
      | nil => exact absurd (hlength [] rfl) (Nat.succ_ne_zero _).symm
      | cons raw raws =>
        refine hstep (some raw) (some raws) rfl rfl rfl fun raws' heq => ?_
        obtain rfl := Option.some.inj heq
        exact Nat.succ.inj (hlength _ rfl)

variable {response : ModelInferResponse}

theorem rawContents_mem {raws : List Str} (h : rawContents response = some raws) : raws = response.raw_output_contents := by
  rw [rawContents] at h
  split at h
  next => cases h
  next => exact (Option.some.inj h).symm

theorem bounded_of_mem {p : InferTensor × Option Str} (hp : p ∈ paired (rawContents response) response.outputs) : Bounded p.1 p.2 := by
  cases hraw : rawContents response with
  | none =>
    rw [hraw] at hp
    obtain ⟨tensor, htensor, rfl⟩ := List.mem_map.mp hp
    exact ⟨response.counted tensor htensor, nofun⟩
  | some raws =>
    rw [hraw] at hp
    have hmem : (p.1, p.2) ∈ response.outputs.zip (raws.map some) := hp
    obtain ⟨htensor, hcontent⟩ := List.of_mem_zip hmem
    obtain ⟨raw, hrawmem, heq⟩ := List.mem_map.mp hcontent
    refine ⟨response.counted p.1 htensor, fun bytes hbytes => ?_⟩
    rw [← heq] at hbytes
    obtain rfl := Option.some.inj hbytes
    exact response.sized raw (rawContents_mem hraw ▸ hrawmem)

theorem paired_fst (h : ConsistentResponse response) : (paired (rawContents response) response.outputs).map Prod.fst = response.outputs := by
  cases hraw : rawContents response with
  | none =>
    show (response.outputs.map fun tensor => (tensor, (none : Option Str))).map Prod.fst = _
    rw [List.map_map]
    exact List.map_id _
  | some raws =>
    refine List.map_fst_zip ?_
    rw [List.length_map, h.contents raws hraw]

theorem parseOutputs_response (h : ConsistentResponse response) (names : List Str) :
    parseOutputs names (rawContents response) response.outputs =
      .ok ((paired (rawContents response) response.outputs).map fun p => (written names p).1,
        ((paired (rawContents response) response.outputs).map fun p => (written names p).2).flatten) :=
  parseOutputs_written h.contents fun p hp => ⟨h.outputs p hp, bounded_of_mem hp⟩

/-- A binary block holds the elements of the output: its length is the one that the object of the output announces, and it
decodes to the elements that the data array has whenever the output is not requested as binary. -/
structure BlockAgrees (response : ModelInferResponse) (i : Nat) (tensor : InferTensor) (object : OutputObject) (block : Str) : Prop where
  binary : object.data = none
  announced : object.binaryDataSizes = [some (.number block.length)]
  decodes : ∀ names, tensor.name ∉ names → ∃ objects buffer object data elements,
    parseOutputs names (rawContents response) response.outputs = .ok (objects, buffer) ∧ objects[i]? = some object ∧
      object.data = some data ∧ decodeBlock (datatypeOf tensor) block = some elements ∧ data.map Call.value? = elements.map some

/-- The response is converted, the reported header length is the length of the JSON part, and what follows it is one block
for each output that is requested as binary. -/
def SameData (text : List Call → Str) (response : ModelInferResponse) (names : List Str) : Prop :=
  ∃ (objects : List OutputObject) (blocks : List Str) (header : Option Int),
    parseOutputs names (rawContents response) response.outputs = .ok (objects, blocks.flatten) ∧
    makeJsonFromPredictResponse response text names = .ok (jsonText response text objects ++ blocks.flatten, header) ∧
    (header = none ∧ blocks.flatten = [] ∨ header = some ((jsonText response text objects).length : Int)) ∧
    blocks.length = response.outputs.length ∧
    ∀ i tensor, response.outputs[i]? = some tensor → ∃ object block, objects[i]? = some object ∧ blocks[i]? = some block ∧
      if tensor.name ∈ names then BlockAgrees response i tensor object block else object.data.isSome ∧ block = []

/-- When an output is converted alike in both encodings. -/
def ConvertsAlike (names : List Str) (p : InferTensor × Option Str) : Prop :=
  if p.1.name ∈ names then
    cStr p.1.name = p.1.name ∧ Announced p.1 (outputSize p) ∧ (∀ x ∈ outputValues p, isFinite x = true) ∧
      (p.2 = none → (datatypeOf p.1).size < (datatypeOf p.1).fieldSize →
        OwnSized (datatypeOf p.1) ((datatypeOf p.1).field p.1.contents))
  else cStr p.1.name ∉ names

/-- The objects of the outputs. -/
def writtenObjects (response : ModelInferResponse) (names : List Str) : List OutputObject :=
  (paired (rawContents response) response.outputs).map fun p => (written names p).1

theorem written_binary (h : cStr p.1.name ∈ names) : written names p =
    (outputObject p.1 none (toInt32 (computedSize (datatypeOf p.1) p.1.contents p.2)), appendedBlock (datatypeOf p.1) p.1.contents p.2) :=
  if_pos (List.contains_iff_mem.mpr h)

theorem written_data (h : cStr p.1.name ∉ names) : written names p = (outputObject p.1 (some ((outputValues p).map write)) 0, []) :=
  if_neg fun hmem => h (List.contains_iff_mem.mp hmem)

/-- An output that is requested as binary, with the block that a client cuts out. -/
theorem BlockAgrees.converts (h : ConsistentResponse response) {i : Nat}
    (hp : (paired (rawContents response) response.outputs)[i]? = some p) {block : Str}
    (hagrees : BlockAgrees response i p.1 (written names p).1 block) :
    cStr p.1.name ∈ names ∧ cStr p.1.name = p.1.name ∧ (∀ x ∈ outputValues p, isFinite x = true) ∧
      decodeBlock (datatypeOf p.1) block = some (outputValues p) ∧ block.length = outputSize p ∧ Announced p.1 (outputSize p) := by
  have hc := consistent_datatypeOf (h.outputs p (List.mem_of_getElem? hp))
  have hbinary : cStr p.1.name ∈ names := by
    by_contra hnot
    have hdata := hagrees.binary
    rw [written_data hnot] at hdata
    cases hdata
  have hobject : ∀ names' : List Str, p.1.name ∉ names' → cStr p.1.name ∉ names' ∧
      decodeBlock (datatypeOf p.1) block = some (outputValues p) ∧ ∀ x ∈ outputValues p, isFinite x = true := by
    intro names' hnot
    obtain ⟨objects, buffer, object, data, elements, hparse, hobject, hdata, hdecode, helements⟩ := hagrees.decodes names' hnot
    rw [parseOutputs_response h names', Except.ok.injEq, Prod.mk.injEq] at hparse
    rw [← hparse.1, List.getElem?_map, hp, Option.map_some, Option.some.injEq] at hobject
    have hnotBinary : cStr p.1.name ∉ names' := by
      intro hmem
      rw [← hobject, written_binary hmem] at hdata
      cases hdata
    rw [← hobject, written_data hnotBinary] at hdata
    rw [← Option.some.inj hdata] at helements
    obtain ⟨hvalues, hfinite⟩ := written_values_iff.mp helements
    exact ⟨hnotBinary, hvalues ▸ hdecode, hfinite⟩
  obtain ⟨-, hdecode, hfinite⟩ := hobject [] List.not_mem_nil
  have hname : cStr p.1.name = p.1.name := by
    by_contra hne
    exact (hobject [cStr p.1.name] fun hmem => hne (List.mem_singleton.mp hmem).symm).1 (List.mem_singleton_self _)
  have hlength := length_of_decode hc hdecode
  refine ⟨hbinary, hname, hfinite, hdecode, hlength, ?_⟩
  have hannounced := hagrees.announced
  rw [written_binary hbinary, hlength] at hannounced
  exact announced_iff.mp hannounced

theorem ConvertsAlike.blockAgrees (h : ConsistentResponse response) {i : Nat}
    (hp : (paired (rawContents response) response.outputs)[i]? = some p) (hname : p.1.name ∈ names) (halike : ConvertsAlike names p) :
    BlockAgrees response i p.1 (written names p).1 (written names p).2 := by
  rw [ConvertsAlike, if_pos hname] at halike
  obtain ⟨hcstr, hannounced, hfinite, hown⟩ := halike
  have hc := consistent_datatypeOf (h.outputs p (List.mem_of_getElem? hp))
  have hbinary : cStr p.1.name ∈ names := hcstr.symm ▸ hname
  have hshort := hannounced.lt
  rw [written_binary hbinary]
  refine ⟨rfl, ?_, fun names' hnot => ?_⟩
  · rw [length_appended hc hshort]
    exact announced_iff.mpr hannounced
  · have hdata : cStr p.1.name ∉ names' := hcstr.symm ▸ hnot
    refine ⟨_, _, _, _, outputValues p, parseOutputs_response h names', ?_, congrArg OutputObject.data (congrArg Prod.fst (written_data hdata)),
      ?_, written_values_iff.mpr ⟨rfl, hfinite⟩⟩
    · rw [List.getElem?_map, hp]
      rfl
    · refine (decode_appended_iff hc).mpr fun hnone => ⟨fun hbytes sentence hsentence => ?_, hown hnone⟩
      have hle := List.le_sum_of_mem (List.mem_map_of_mem (f := fun sentence : Str => sentence.length + 4) hsentence)
      rw [outputSize, wireSize.eq_def, hnone] at hshort
      dsimp only at hshort
      rw [if_pos hbytes] at hshort
      omega

/-- The blocks that a client cuts out are the ones that were appended. -/
theorem blocks_eq_written (h : ConsistentResponse response) {blocks : List Str}
    (hflatten : blocks.flatten = ((paired (rawContents response) response.outputs).map fun p => (written names p).2).flatten)
    (hlength : blocks.length = response.outputs.length)
    (hall : ∀ (i : Nat) p, (paired (rawContents response) response.outputs)[i]? = some p → ∀ block : Str, blocks[i]? = some block →
      block.length = (written names p).2.length) :
    blocks = (paired (rawContents response) response.outputs).map fun p => (written names p).2 := by
  have hpairs := congrArg List.length (paired_fst h)
  rw [List.length_map] at hpairs
  refine List.eq_iff_flatten_eq.mpr ⟨hflatten, ?_⟩
  refine List.ext_getElem (by rw [List.length_map, List.length_map, List.length_map, hlength, hpairs]) fun i hi hi' => ?_
  rw [List.length_map] at hi
  rw [List.length_map, List.length_map] at hi'
  rw [List.getElem_map, List.getElem_map, List.getElem_map]
  exact hall i _ (List.getElem?_eq_getElem hi') _ (List.getElem?_eq_getElem hi)

theorem makeJson_eq (h : ConsistentResponse response) (text : List Call → Str) (hne : response.outputs ≠ []) (names : List Str) :
    makeJsonFromPredictResponse response text names =
      .ok (jsonText response text (writtenObjects response names) ++
          ((paired (rawContents response) response.outputs).map fun p => (written names p).2).flatten,
        if ((paired (rawContents response) response.outputs).map fun p => (written names p).2).flatten.length > 0 then
          some (toInt32 (jsonText response text (writtenObjects response names)).length)
        else none) := by
  have hsome : response.outputs.isEmpty = false := List.isEmpty_eq_false_iff.mpr hne
  rw [makeJsonFromPredictResponse, hsome, parseOutputs_response h names]
  rfl

/-- What the client has of each output. -/
theorem SameData.outputs (h : ConsistentResponse response) {objects : List OutputObject} {blocks : List Str}
    (hparse : parseOutputs names (rawContents response) response.outputs = .ok (objects, blocks.flatten))
    (hlength : blocks.length = response.outputs.length)
    (hall : ∀ i tensor, response.outputs[i]? = some tensor → ∃ object block, objects[i]? = some object ∧ blocks[i]? = some block ∧
      if tensor.name ∈ names then BlockAgrees response i tensor object block else object.data.isSome ∧ block = []) :
    blocks = ((paired (rawContents response) response.outputs).map fun p => (written names p).2) ∧
      ∀ p ∈ paired (rawContents response) response.outputs, ConvertsAlike names p := by
  rw [parseOutputs_response h names, Except.ok.injEq, Prod.mk.injEq] at hparse
  obtain ⟨rfl, hflatten⟩ := hparse
  have hof : ∀ i p, (paired (rawContents response) response.outputs)[i]? = some p → ∃ block, blocks[i]? = some block ∧
      if p.1.name ∈ names then BlockAgrees response i p.1 (written names p).1 block else cStr p.1.name ∉ names ∧ block = [] := by
    intro i p hp
    have htensor : response.outputs[i]? = some p.1 := by
      rw [← paired_fst h, List.getElem?_map, hp]
      rfl
    obtain ⟨object, block, hobject, hblock, hone⟩ := hall i p.1 htensor
    rw [List.getElem?_map, hp, Option.map_some, Option.some.injEq] at hobject
    refine ⟨block, hblock, ?_⟩
    rw [← hobject] at hone
    split at hone
    next hname => rwa [if_pos hname]
    next hname =>
      rw [if_neg hname]
      refine ⟨fun hbinary => ?_, hone.2⟩
      rw [written_binary hbinary] at hone
      exact Bool.false_ne_true hone.1
  have hblocks := blocks_eq_written h hflatten.symm hlength fun i p hp block hblock => by
    obtain ⟨block', hblock', hone⟩ := hof i p hp
    obtain rfl := Option.some.inj (hblock.symm.trans hblock')
    split at hone
    next hname =>
      obtain ⟨hbinary, -, -, -, hsize, hannounced⟩ := hone.converts h hp
      have hc := consistent_datatypeOf (h.outputs p (List.mem_of_getElem? hp))
      have hshort := hannounced.lt
      rw [hsize, written_binary hbinary, length_appended hc hshort]
      rfl
    next hname => rw [hone.2, written_data hone.1]
  refine ⟨hblocks, fun p hp => ?_⟩
  obtain ⟨i, hi⟩ := List.mem_iff_getElem?.mp hp
  obtain ⟨block, hblock, hone⟩ := hof i p hi
  rw [hblocks, List.getElem?_map, hi, Option.map_some, Option.some.injEq] at hblock
  rw [ConvertsAlike]
  split at hone
  next hname =>
    rw [if_pos hname]
    obtain ⟨hbinary, hcstr, hfinite, hdecode, -, hannounced⟩ := hone.converts h hi
    have hc := consistent_datatypeOf (h.outputs p hp)
    rw [← hblock, written_binary hbinary] at hdecode
    exact ⟨hcstr, hannounced, hfinite, fun hnone => ((decode_appended_iff hc).mp hdecode hnone).2⟩
  next hname =>
    rw [if_neg hname]
    exact hone.1

/-- Nothing is appended where the outputs that are requested as binary are empty. -/
theorem buffer_nil_iff (h : ConsistentResponse response)
    (halike : ∀ p ∈ paired (rawContents response) response.outputs, ConvertsAlike names p) :
    ((paired (rawContents response) response.outputs).map fun p => (written names p).2).flatten = [] ↔
      ∀ p ∈ paired (rawContents response) response.outputs, p.1.name ∈ names → outputSize p = 0 := by
  rw [List.flatten_eq_nil_iff, List.forall_mem_map]
  refine forall₂_congr fun p hp => ?_
  have hone := halike p hp
  rw [ConvertsAlike] at hone
  split at hone
  next hname =>
    obtain ⟨hcstr, hannounced, -⟩ := hone
    have hshort := hannounced.lt
    rw [written_binary (hcstr.symm ▸ hname), ← List.length_eq_zero_iff,
      length_appended (consistent_datatypeOf (h.outputs p hp)) hshort]
    exact ⟨fun hzero _ => hzero, fun hzero => hzero hname⟩
  next hname =>
    rw [written_data hone]
    exact iff_of_true rfl fun hmem => absurd hmem hname

/-- Both encodings carry the same data if and only if there is an output, each output converts alike, and the JSON part is
short enough for its length to be reported. -/
theorem sameData_iff (h : ConsistentResponse response) (text : List Call → Str) (names : List Str) :
    SameData text response names ↔ response.outputs ≠ [] ∧
      (∀ p ∈ paired (rawContents response) response.outputs, ConvertsAlike names p) ∧
      ((∀ p ∈ paired (rawContents response) response.outputs, p.1.name ∈ names → outputSize p = 0) ∨
        (jsonText response text (writtenObjects response names)).length < 2 ^ 31) := by
  constructor
  · intro ⟨objects, blocks, header, hparse, hmake, hheader, hlength, hall⟩
    have hne : response.outputs ≠ [] := by
      intro hnil
      rw [makeJsonFromPredictResponse, hnil] at hmake
      cases hmake
    obtain ⟨hblocks, halike⟩ := SameData.outputs h hparse hlength hall
    refine ⟨hne, halike, ?_⟩
    rw [parseOutputs_response h names, Except.ok.injEq, Prod.mk.injEq] at hparse
    have hobjects : objects = writtenObjects response names := hparse.1.symm
    rw [makeJson_eq h text hne names, Except.ok.injEq, Prod.mk.injEq, hobjects] at hmake
    rw [← buffer_nil_iff h halike]
    by_cases hempty : ((paired (rawContents response) response.outputs).map fun p => (written names p).2).flatten = []
    · exact .inl hempty
    · refine .inr ?_
      rw [if_pos (List.length_pos_iff.mpr hempty)] at hmake
      rw [← hmake.2, hobjects] at hheader
      obtain ⟨hnone, -⟩ | hsome := hheader
      · cases hnone
      · exact (RawContents.toInt32_eq_iff _).mp (Option.some.inj hsome)
  · intro ⟨hne, halike, hjson⟩
    refine ⟨_, _, _, parseOutputs_response h names, makeJson_eq h text hne names, ?_, ?_, ?_⟩
    · rw [← buffer_nil_iff h halike] at hjson
      by_cases hempty : ((paired (rawContents response) response.outputs).map fun p => (written names p).2).flatten = []
      · exact .inl ⟨if_neg (by rw [hempty]; decide), hempty⟩
      · refine .inr ?_
        rw [if_pos (List.length_pos_iff.mpr hempty), (RawContents.toInt32_eq_iff _).mpr (hjson.resolve_left hempty)]
        rfl
    · rw [List.length_map]
      have hpairs := congrArg List.length (paired_fst h)
      rwa [List.length_map] at hpairs
    · intro i tensor htensor
      rw [← paired_fst h, List.getElem?_map] at htensor
      obtain ⟨p, hp, rfl⟩ := Option.map_eq_some_iff.mp htensor
      refine ⟨(written names p).1, (written names p).2, by rw [List.getElem?_map, hp]; rfl, by rw [List.getElem?_map, hp]; rfl, ?_⟩
      have hone := halike p (List.mem_of_getElem? hp)
      split
      next hname => exact hone.blockAgrees h hp hname
      next hname =>
        rw [ConvertsAlike, if_neg hname] at hone
        rw [written_data hone]
        exact ⟨rfl, rfl⟩

/-- One output of some `INT8`, in the contents fields. -/
def smallIntegers (elements : List (BitVec 32)) (h : elements.length < 2 ^ 31) : ModelInferResponse where
  model_name := bytes "m"
  outputs := [⟨bytes "a", bytes "INT8", [BitVec.ofNat 64 elements.length], [], { int_contents := elements }⟩]
  counted := by
    intro tensor htensor datatype
    obtain rfl := List.mem_singleton.mp htensor
    have hlength : (datatype.field { int_contents := elements }).length ≤ elements.length := by
      cases datatype <;> simp [Datatype.field]
    exact Nat.lt_of_le_of_lt hlength h
  sized := by
    intro content hcontent
    cases hcontent

theorem smallIntegers_consistent {elements : List (BitVec 32)} (h : elements.length < 2 ^ 31) :
    ConsistentResponse (smallIntegers elements h) := by
  refine ⟨nofun, fun p hp => ⟨.INT8, ?_⟩⟩
  obtain rfl := List.mem_singleton.mp hp
  refine ⟨rfl, nofun, fun _ _ => ?_, nofun, nofun, nofun⟩
  have hone : ((BitVec.ofNat 64 elements.length).toInt : Int) = elements.length :=
    (BitVec.toInt_ofNat ..).trans (Int.bmod_eq_of_le (by omega) (by omega))
  rw [Datatype.field, List.length_map, elementCount, List.map_singleton, List.prod_singleton, hone]

/-- What a `PrettyWriter` makes of the calls for one element that is requested as binary. -/
def smallIntegersText (_ : List Call) : Str :=
  bytes "\x7b\n    \"model_name\": \"m\",\n    \"outputs\": [\x7b\n            \"name\": \"a\",\n            \"shape\": [1],\n" ++
    bytes "            \"datatype\": \"INT8\",\n            \"parameters\": \x7b\n                \"binary_data_size\": 1\n" ++
    bytes "            \x7d\n        \x7d]\n\x7d"

theorem sameData_iff_five : SameData smallIntegersText (smallIntegers [5] (by decide)) [bytes "a"] := by
  have hshort : (jsonText (smallIntegers [5] (by decide)) smallIntegersText (writtenObjects (smallIntegers [5] (by decide)) [bytes "a"])).length <
      2 ^ 31 := by
    have htext : (smallIntegersText []).length < 2 ^ 31 := by
      rw [smallIntegersText, bytes_eq_map rfl, bytes_eq_map rfl, bytes_eq_map rfl]
      decide +kernel
    exact Nat.lt_of_le_of_lt (List.takeWhile_sublist _).length_le htext
  refine (sameData_iff (smallIntegers_consistent (by decide)) smallIntegersText [bytes "a"]).mpr ⟨nofun, fun p hp => ?_, .inr hshort⟩
  obtain rfl := List.mem_singleton.mp hp
  have hown : OwnSized .INT8 [5] := ⟨by decide, nofun⟩
  exact ⟨by decide, .inl ⟨by decide, by decide, by decide⟩, by decide, fun _ _ => hown⟩

/-- The bytes that follow the JSON part are those of the words of the field: the second element is a byte of the first word. -/
theorem sameData_two_elements_differ :
    ¬ ∀ (text : List Call → Str) (response : ModelInferResponse) (names : List Str), ConsistentResponse response →
      SameData text response names := by
  intro hall
  have hconsistent : ConsistentResponse (smallIntegers [1, 2] (by decide)) := smallIntegers_consistent _
  obtain ⟨objects, blocks, header, hparse, -, -, hlength, hblocks⟩ :=
    hall (fun _ => []) (smallIntegers [1, 2] (by decide)) [bytes "a"] hconsistent
  obtain ⟨-, halike⟩ := SameData.outputs hconsistent hparse hlength hblocks
  obtain ⟨-, -, -, hown⟩ := halike _ (List.mem_singleton_self _)
  exact absurd ((hown rfl (by decide)).2 2 (List.mem_singleton_self 2)) (by decide)

end Responses

end ModelServer.RestResponse
