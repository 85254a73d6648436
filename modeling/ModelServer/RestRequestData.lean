import Mathlib.Data.List.Forall2
import ModelServer.RapidJson
import ModelServer.RestRequest

namespace ModelServer.RestRequest

open KServe

section Depth

variable (maxDepth : Nat)

theorem depthOnly_scalar {depth : Nat} (h : depth ≤ maxDepth) (calls : List Sax) :
    depthOnly maxDepth depth (.scalar :: calls) = (decide (depth + 0 ≤ maxDepth) && depthOnly maxDepth depth calls) := by
  rw [depthOnly, Nat.add_zero, decide_eq_true h, Bool.true_and]

mutual

/-- The calls for a value are accepted if it is not too deep, and leave the depth as it was. -/
theorem depthOnly_sax {depth : Nat} (h : depth ≤ maxDepth) (calls : List Sax) : ∀ node : Node,
    depthOnly maxDepth depth (node.sax ++ calls) = (decide (depth + node.depth ≤ maxDepth) && depthOnly maxDepth depth calls)
  | .null => depthOnly_scalar maxDepth h calls
  | .bool _ => depthOnly_scalar maxDepth h calls
  | .number _ => depthOnly_scalar maxDepth h calls
  | .string _ => depthOnly_scalar maxDepth h calls
  | .array elements => by
    rw [Node.sax, Node.depth, List.cons_append, depthOnly, List.append_assoc]
    split
    next hdeep => rw [decide_eq_false (by omega), Bool.false_and]
    next hdeep =>
      rw [depthOnly_elements (by omega), Nat.add_right_comm, Nat.add_assoc]
      rfl
  | .object members => by
    rw [Node.sax, Node.depth, List.cons_append, depthOnly, List.append_assoc]
    split
    next hdeep => rw [decide_eq_false (by omega), Bool.false_and]
    next hdeep =>
      rw [depthOnly_members (by omega), Nat.add_right_comm, Nat.add_assoc]
      rfl

theorem depthOnly_elements {depth : Nat} (h : depth ≤ maxDepth) (calls : List Sax) : ∀ values : List Node,
    depthOnly maxDepth depth (Node.elementsSax values ++ calls) =
      (decide (depth + Node.elementsDepth values ≤ maxDepth) && depthOnly maxDepth depth calls)
  | [] => by rw [Node.elementsDepth, Nat.add_zero, decide_eq_true h]; rfl
  | value :: values => by
    rw [Node.elementsSax, List.append_assoc, depthOnly_sax h _ value, depthOnly_elements h calls values, ← Bool.and_assoc,
      ← Bool.decide_and, Node.elementsDepth]
    congr 2
    exact propext (by omega)

theorem depthOnly_members {depth : Nat} (h : depth ≤ maxDepth) (calls : List Sax) : ∀ members : List (Str × Node),
    depthOnly maxDepth depth (Node.membersSax members ++ calls) =
      (decide (depth + Node.membersDepth members ≤ maxDepth) && depthOnly maxDepth depth calls)
  | [] => by rw [Node.membersDepth, Nat.add_zero, decide_eq_true h]; rfl
  | (_, value) :: members => by
    rw [Node.membersSax, List.cons_append, depthOnly, List.append_assoc, depthOnly_sax h _ value, depthOnly_members h calls members,
      ← Bool.and_assoc, ← Bool.decide_and, Node.membersDepth]
    congr 2
    exact propext (by omega)

end

/-- A document within the depth limit is what the parser goes on with. -/
theorem parseJsonWithDepthLimit_eq {reader : Reader} {json : Str} {node : Node} (h : reader.document json = some node)
    (hdepth : node.depth ≤ maxDepth) : parseJsonWithDepthLimit reader json maxDepth = .ok node := by
  have haccepted : depthOnly maxDepth 0 node.sax = true := by
    rw [← List.append_nil node.sax, depthOnly_sax maxDepth (Nat.zero_le _), Nat.zero_add, decide_eq_true hdepth]
    rfl
  rw [parseJsonWithDepthLimit, reader.reads json node h, haccepted, h]
  rfl

end Depth

section Data

mutual

/-- The values of nested arrays, in reading order. -/
def leaves : Node → List Node
  | .array values => leavesOf values
  | value => [value]

def leavesOf : List Node → List Node
  | [] => []
  | value :: values => leaves value ++ leavesOf values

end

/-- The contents that all values are added to. -/
def addElements (datatype : Datatype) (contents : InferTensorContents) (values : List Node) : Except Status InferTensorContents :=
  match values.foldlM (addElement datatype) contents with
  | some added => .ok added
  | none => .error .restCouldNotParseInput

theorem addElements_append (datatype : Datatype) (contents : InferTensorContents) (values values' : List Node) :
    addElements datatype contents (values ++ values') =
      (addElements datatype contents values).bind fun added => addElements datatype added values' := by
  rw [addElements, addElements, List.foldlM_append]
  cases values.foldlM (addElement datatype) contents with
  | none => rfl
  | some added => rfl

variable {datatype : Str} {handled : Datatype}

mutual

theorem parseData_eq (h : dataDatatype datatype = some handled) (contents : InferTensorContents) : ∀ node : Node,
    parseData datatype node contents =
      if node.isArray then addElements handled contents (leaves node) else .error .restCouldNotParseInput
  | .array values => by
    rw [parseData, h]
    exact handleValues_eq h contents values
  | .null => rfl
  | .bool _ => rfl
  | .number _ => rfl
  | .string _ => rfl
  | .object _ => rfl

/-- However the values are nested, they are added in reading order. -/
theorem handleValues_eq (h : dataDatatype datatype = some handled) (contents : InferTensorContents) : ∀ values : List Node,
    handleValues datatype handled values contents = addElements handled contents (leavesOf values)
  | [] => rfl
  | value :: values => by
    rw [handleValues, leavesOf, addElements_append]
    split
    next harray =>
      rw [parseData_eq h contents value, if_pos harray]
      cases addElements handled contents (leaves value) with
      | error status => rfl
      | ok added => exact handleValues_eq h added values
    next hscalar =>
      have hleaf : leaves value = [value] := by
        cases value with
        | array values => exact absurd rfl hscalar
        | null => rfl
        | bool b => rfl
        | number n => rfl
        | string s => rfl
        | object members => rfl
      rw [hleaf, addElements, List.foldlM_cons]
      cases addElement handled contents value with
      | none => rfl
      | some added => exact handleValues_eq h added values

end

end Data

section Elements

theorem cStr_eq_iff {s : Str} : cStr s = s ↔ 0 ∉ s := by
  refine ⟨fun h hmem => ?_, RapidJson.cStr_of_noNul⟩
  exact of_decide_eq_true (List.takeWhile_eq_self_iff.mp h 0 hmem) rfl

/-- The elements in the field for a datatype. -/
def contentValues (datatype : Datatype) (contents : InferTensorContents) : List Value :=
  if datatype = .BYTES then contents.bytes_contents.map .text
  else (datatype.field contents).map (datatype.valueOf datatype.fieldSize)

/-- The contents without the fields for other datatypes. -/
def onlyField (datatype : Datatype) (contents : InferTensorContents) : InferTensorContents :=
  match datatype with
  | .BOOL => { bool_contents := contents.bool_contents }
  | .INT8 | .INT16 | .INT32 => { int_contents := contents.int_contents }
  | .INT64 => { int64_contents := contents.int64_contents }
  | .UINT8 | .UINT16 | .UINT32 => { uint_contents := contents.uint_contents }
  | .UINT64 => { uint64_contents := contents.uint64_contents }
  | .FP32 => { fp32_contents := contents.fp32_contents }
  | .FP64 => { fp64_contents := contents.fp64_contents }
  | .BYTES => { bytes_contents := contents.bytes_contents }
  | .FP16 => {}

/-- The element that is added for a value. -/
def storedValue (datatype : Datatype) (value : Node) : Option Value :=
  match datatype with
  | .FP32 => value.float?.map .single
  | .FP64 => value.float?.map fun x => .double (binary32.convert binary64 x)
  | .INT8 | .INT16 | .INT32 | .INT64 => value.int?.map .integer
  | .UINT8 | .UINT16 | .UINT32 | .UINT64 => value.uint?.map .integer
  | .BOOL => value.bool?.map .boolean
  | .BYTES => value.string?.map .text
  | .FP16 => none

/-- An element is the exact value of a JSON value. -/
def Denotes : Node → Value → Prop
  | .bool b, .boolean b' => b' = b
  | .number n, .integer k => k * 2 ^ Number.scale = n.units
  | .number n, .single pattern => binary32.finite pattern ∧ binary32.value pattern = n.units
  | .number n, .double pattern => binary64.finite pattern ∧ binary64.value pattern = n.units
  | .string s, .text s' => s' = s
  | _, _ => False

/-- A JSON value is in the range of a datatype. -/
def InRange (datatype : Datatype) (value : Node) : Prop :=
  match datatype, value with
  | .BOOL, .bool _ => True
  | .INT8, .number (.integer n _) => -2 ^ 7 ≤ n ∧ n < 2 ^ 7
  | .INT16, .number (.integer n _) => -2 ^ 15 ≤ n ∧ n < 2 ^ 15
  | .INT32, .number (.integer n _) => -2 ^ 31 ≤ n ∧ n < 2 ^ 31
  | .INT64, .number (.integer n _) => -2 ^ 63 ≤ n ∧ n < 2 ^ 63
  | .UINT8, .number (.integer n _) => 0 ≤ n ∧ n < 2 ^ 8
  | .UINT16, .number (.integer n _) => 0 ≤ n ∧ n < 2 ^ 16
  | .UINT32, .number (.integer n _) => 0 ≤ n ∧ n < 2 ^ 32
  | .UINT64, .number (.integer n _) => 0 ≤ n ∧ n < 2 ^ 64
  | .FP32, .number n => ∃ pattern, binary32.finite pattern ∧ binary32.value pattern = n.units
  | .FP64, .number n => ∃ pattern, binary64.finite pattern ∧ binary64.value pattern = n.units
  | .BYTES, .string _ => True
  | _, _ => False

/-- A JSON value in the range of a datatype that passes the check for it and that its getter gives as it is. -/
def KeptValue (datatype : Datatype) (value : Node) : Prop :=
  match datatype, value with
  | .INT64, .number (.integer n _) => -2 ^ 31 ≤ n ∧ n < 2 ^ 31
  | .UINT64, .number (.integer n _) => n < 2 ^ 32
  | .FP64, .number n => ∃ pattern, binary32.finite pattern ∧ binary32.value pattern = n.units
  | .BYTES, .string s => 0 ∉ s
  | _, _ => True

theorem getFloat_lt (n : Number) : n.getFloat < 2 ^ 32 := BinaryFormat.convert_lt _

theorem int?_eq_some {value : Node} {n : Int} (h : value.int? = some n) :
    (-2 ^ 31 ≤ n ∧ n < 2 ^ 31) ∧ ∃ hn, value = .number (.integer n hn) := by
  rw [Node.int?.eq_def] at h
  split at h
  next m hm =>
    obtain ⟨hrange, heq⟩ := Option.ite_none_right_eq_some.mp h
    obtain rfl := Option.some.inj heq
    exact ⟨hrange, hm, rfl⟩
  next => cases h

theorem uint?_eq_some {value : Node} {n : Int} (h : value.uint? = some n) :
    (0 ≤ n ∧ n < 2 ^ 32) ∧ ∃ hn, value = .number (.integer n hn) := by
  rw [Node.uint?.eq_def] at h
  split at h
  next m hm =>
    obtain ⟨hrange, heq⟩ := Option.ite_none_right_eq_some.mp h
    obtain rfl := Option.some.inj heq
    exact ⟨hrange, hm, rfl⟩
  next => cases h

theorem float?_eq_some {value : Node} {x : Nat} (h : value.float? = some x) : ∃ n, value = .number n ∧ x = n.getFloat := by
  cases value with
  | number n => exact ⟨n, rfl, (Option.some.inj h).symm⟩
  | null => cases h
  | bool b => cases h
  | string s => cases h
  | array values => cases h
  | object members => cases h

/-- The word of an integer in the range of `int`, in a field of some bits. -/
theorem bmod_ofInt {bits : Nat} (hbits : 32 ≤ bits) {n : Int} (h : -2 ^ 31 ≤ n ∧ n < 2 ^ 31) :
    Int.bmod (BitVec.ofInt bits n).toNat (2 ^ bits) = n := by
  have hpow : 2 ^ 32 ≤ 2 ^ bits := Nat.pow_le_pow_right (by decide) hbits
  rw [← BitVec.toInt_eq_toNat_bmod, BitVec.toInt_ofInt]
  exact Int.bmod_eq_of_le (by omega) (by omega)

theorem toNat_ofInt {bits : Nat} (hbits : 32 ≤ bits) {n : Int} (h : 0 ≤ n ∧ n < 2 ^ 32) : ((BitVec.ofInt bits n).toNat : Int) = n := by
  have hpow : 2 ^ 32 ≤ 2 ^ bits := Nat.pow_le_pow_right (by decide) hbits
  rw [BitVec.toNat_ofInt, Int.toNat_of_nonneg (Int.emod_nonneg _ (by omega))]
  exact Int.emod_eq_of_lt h.1 (by omega)

theorem contentValues_push {datatype : Datatype} {contents added : InferTensorContents} {word : Nat} {element : Value} (hne : datatype ≠ .BYTES)
    (hfield : datatype.field added = datatype.field contents ++ [word]) (helement : datatype.valueOf datatype.fieldSize word = element) :
    contentValues datatype added = contentValues datatype contents ++ [element] := by
  rw [contentValues, contentValues, if_neg hne, if_neg hne, hfield, List.map_append, List.map_singleton, helement]

theorem addElement_eq {datatype : Datatype} {contents added : InferTensorContents} {value : Node} (honly : onlyField datatype contents = contents)
    (h : addElement datatype contents value = some added) : onlyField datatype added = added ∧
      ∃ element, storedValue datatype value = some element ∧ contentValues datatype added = contentValues datatype contents ++ [element] := by
  cases datatype with
  | BOOL =>
    obtain ⟨x, hx, rfl⟩ := Option.map_eq_some_iff.mp h
    refine ⟨by rw [← honly]; rfl, .boolean x, by rw [storedValue, hx]; rfl, ?_⟩
    exact contentValues_push nofun List.map_append (by cases x <;> rfl)
  | INT8 =>
    obtain ⟨n, hn, rfl⟩ := Option.map_eq_some_iff.mp h
    refine ⟨by rw [← honly]; rfl, .integer n, by rw [storedValue, hn]; rfl, ?_⟩
    exact contentValues_push nofun List.map_append (congrArg Value.integer (bmod_ofInt (Nat.le_refl 32) (int?_eq_some hn).1))
  | INT16 =>
    obtain ⟨n, hn, rfl⟩ := Option.map_eq_some_iff.mp h
    refine ⟨by rw [← honly]; rfl, .integer n, by rw [storedValue, hn]; rfl, ?_⟩
    exact contentValues_push nofun List.map_append (congrArg Value.integer (bmod_ofInt (Nat.le_refl 32) (int?_eq_some hn).1))
  | INT32 =>
    obtain ⟨n, hn, rfl⟩ := Option.map_eq_some_iff.mp h
    refine ⟨by rw [← honly]; rfl, .integer n, by rw [storedValue, hn]; rfl, ?_⟩
    exact contentValues_push nofun List.map_append (congrArg Value.integer (bmod_ofInt (Nat.le_refl 32) (int?_eq_some hn).1))
  | INT64 =>
    obtain ⟨n, hn, rfl⟩ := Option.map_eq_some_iff.mp h
    refine ⟨by rw [← honly]; rfl, .integer n, by rw [storedValue, hn]; rfl, ?_⟩
    exact contentValues_push nofun List.map_append (congrArg Value.integer (bmod_ofInt (by decide : 32 ≤ 64) (int?_eq_some hn).1))
  | UINT8 =>
    obtain ⟨n, hn, rfl⟩ := Option.map_eq_some_iff.mp h
    refine ⟨by rw [← honly]; rfl, .integer n, by rw [storedValue, hn]; rfl, ?_⟩
    exact contentValues_push nofun List.map_append (congrArg Value.integer (toNat_ofInt (Nat.le_refl 32) (uint?_eq_some hn).1))
  | UINT16 =>
    obtain ⟨n, hn, rfl⟩ := Option.map_eq_some_iff.mp h
    refine ⟨by rw [← honly]; rfl, .integer n, by rw [storedValue, hn]; rfl, ?_⟩
    exact contentValues_push nofun List.map_append (congrArg Value.integer (toNat_ofInt (Nat.le_refl 32) (uint?_eq_some hn).1))
  | UINT32 =>
    obtain ⟨n, hn, rfl⟩ := Option.map_eq_some_iff.mp h
    refine ⟨by rw [← honly]; rfl, .integer n, by rw [storedValue, hn]; rfl, ?_⟩
    exact contentValues_push nofun List.map_append (congrArg Value.integer (toNat_ofInt (Nat.le_refl 32) (uint?_eq_some hn).1))
  | UINT64 =>
    obtain ⟨n, hn, rfl⟩ := Option.map_eq_some_iff.mp h
    refine ⟨by rw [← honly]; rfl, .integer n, by rw [storedValue, hn]; rfl, ?_⟩
    exact contentValues_push nofun List.map_append (congrArg Value.integer (toNat_ofInt (by decide : 32 ≤ 64) (uint?_eq_some hn).1))
  | FP16 => cases h
  | FP32 =>
    obtain ⟨x, hx, rfl⟩ := Option.map_eq_some_iff.mp h
    obtain ⟨n, -, rfl⟩ := float?_eq_some hx
    refine ⟨by rw [← honly]; rfl, .single n.getFloat, by rw [storedValue, hx]; rfl, ?_⟩
    exact contentValues_push nofun List.map_append (congrArg Value.single (Nat.mod_eq_of_lt (getFloat_lt n)))
  | FP64 =>
    obtain ⟨x, hx, rfl⟩ := Option.map_eq_some_iff.mp h
    refine ⟨by rw [← honly]; rfl, .double (binary32.convert binary64 x), by rw [storedValue, hx]; rfl, ?_⟩
    exact contentValues_push nofun List.map_append (congrArg Value.double (Nat.mod_eq_of_lt (BinaryFormat.convert_lt x)))
  | BYTES =>
    obtain ⟨x, hx, rfl⟩ := Option.map_eq_some_iff.mp h
    refine ⟨by rw [← honly]; rfl, .text x, by rw [storedValue, hx]; rfl, ?_⟩
    rw [contentValues, contentValues, if_pos rfl, if_pos rfl, List.map_append, List.map_singleton]

theorem getDouble_exact {n : Number} (h : ∃ pattern, binary64.finite pattern ∧ binary64.value pattern = n.units) :
    binary64.finite n.getDouble ∧ binary64.value n.getDouble = n.units := by
  obtain ⟨pattern, hfinite, hvalue⟩ := h
  cases n with
  | integer n hn => exact BinaryFormat.ofInt_exact hfinite hvalue
  | double bits hbits => exact ⟨hbits, rfl⟩

theorem getFloat_exact {n : Number} (h : ∃ pattern, binary32.finite pattern ∧ binary32.value pattern = n.units) :
    binary32.finite n.getFloat ∧ binary32.value n.getFloat = n.units := by
  obtain ⟨pattern, hfinite, hvalue⟩ := h
  obtain ⟨wider, hwider, heq⟩ := binary32_within.exists_value hfinite
  obtain ⟨hdouble, hunits⟩ := getDouble_exact ⟨wider, hwider, heq.trans hvalue⟩
  obtain ⟨hkept, hsame⟩ := BinaryFormat.convert_exact hdouble hfinite (hvalue.trans hunits.symm)
  exact ⟨hkept, hsame.trans hunits⟩

theorem storedInt_iff (n : Int) (hn : -2 ^ 63 ≤ n ∧ n < 2 ^ 64) :
    (∃ element, (Node.number (.integer n hn)).int?.map Value.integer = some element ∧ Denotes (.number (.integer n hn)) element) ↔
      -2 ^ 31 ≤ n ∧ n < 2 ^ 31 := by
  constructor
  · intro ⟨element, hstored, _⟩
    obtain ⟨m, hm, -⟩ := Option.map_eq_some_iff.mp hstored
    exact (Option.ite_none_right_eq_some.mp hm).1
  · intro hrange
    exact ⟨.integer n, congrArg (Option.map Value.integer) (if_pos hrange), rfl⟩

theorem storedUint_iff (n : Int) (hn : -2 ^ 63 ≤ n ∧ n < 2 ^ 64) :
    (∃ element, (Node.number (.integer n hn)).uint?.map Value.integer = some element ∧ Denotes (.number (.integer n hn)) element) ↔
      0 ≤ n ∧ n < 2 ^ 32 := by
  constructor
  · intro ⟨element, hstored, _⟩
    obtain ⟨m, hm, -⟩ := Option.map_eq_some_iff.mp hstored
    exact (Option.ite_none_right_eq_some.mp hm).1
  · intro hrange
    exact ⟨.integer n, congrArg (Option.map Value.integer) (if_pos hrange), rfl⟩

/-- A number that is added as a double is the one of the body just where a float is. -/
theorem storedDouble_iff (n : Number) :
    (∃ element, (Node.number n).float?.map (fun x => Value.double (binary32.convert binary64 x)) = some element ∧ Denotes (.number n) element) ↔
      ∃ pattern, binary32.finite pattern ∧ binary32.value pattern = n.units := by
  constructor
  · intro ⟨element, hstored, hdenotes⟩
    obtain rfl := Option.some.inj hstored
    obtain ⟨hfinite, hvalue⟩ := hdenotes
    have hfloat := BinaryFormat.finite_of_convert hfinite
    exact ⟨n.getFloat, hfloat, (binary32_within.convert_exact hfloat).2.symm.trans hvalue⟩
  · intro hfloat
    obtain ⟨hfinite, hvalue⟩ := getFloat_exact hfloat
    obtain ⟨hwide, hsame⟩ := binary32_within.convert_exact hfinite
    exact ⟨_, rfl, hwide, hsame.trans hvalue⟩

/-- Of the values in range just the kept ones are added with their exact value. -/
theorem storedValue_denotes_iff {datatype : Datatype} {value : Node} (h : InRange datatype value) :
    (∃ element, storedValue datatype value = some element ∧ Denotes value element) ↔ KeptValue datatype value := by
  cases datatype with
  | BOOL =>
    cases value with
    | bool b => exact iff_of_true ⟨.boolean b, rfl, rfl⟩ trivial
    | _ => cases h
  | INT8 =>
    cases value with
    | number n =>
      cases n with
      | integer n hn =>
        have hrange : -2 ^ 7 ≤ n ∧ n < 2 ^ 7 := h
        exact (storedInt_iff n hn).trans (iff_of_true (by omega) trivial)
      | double bits hbits => cases h
    | _ => cases h
  | INT16 =>
    cases value with
    | number n =>
      cases n with
      | integer n hn =>
        have hrange : -2 ^ 15 ≤ n ∧ n < 2 ^ 15 := h
        exact (storedInt_iff n hn).trans (iff_of_true (by omega) trivial)
      | double bits hbits => cases h
    | _ => cases h
  | INT32 =>
    cases value with
    | number n =>
      cases n with
      | integer n hn =>
        have hrange : -2 ^ 31 ≤ n ∧ n < 2 ^ 31 := h
        exact (storedInt_iff n hn).trans (iff_of_true (by omega) trivial)
      | double bits hbits => cases h
    | _ => cases h
  | INT64 =>
    cases value with
    | number n =>
      cases n with
      | integer n hn =>
        exact storedInt_iff n hn
      | double bits hbits => cases h
    | _ => cases h
  | UINT8 =>
    cases value with
    | number n =>
      cases n with
      | integer n hn =>
        have hrange : 0 ≤ n ∧ n < 2 ^ 8 := h
        exact (storedUint_iff n hn).trans (iff_of_true (by omega) trivial)
      | double bits hbits => cases h
    | _ => cases h
  | UINT16 =>
    cases value with
    | number n =>
      cases n with
      | integer n hn =>
        have hrange : 0 ≤ n ∧ n < 2 ^ 16 := h
        exact (storedUint_iff n hn).trans (iff_of_true (by omega) trivial)
      | double bits hbits => cases h
    | _ => cases h
  | UINT32 =>
    cases value with
    | number n =>
      cases n with
      | integer n hn =>
        have hrange : 0 ≤ n ∧ n < 2 ^ 32 := h
        exact (storedUint_iff n hn).trans (iff_of_true (by omega) trivial)
      | double bits hbits => cases h
    | _ => cases h
  | UINT64 =>
    cases value with
    | number n =>
      cases n with
      | integer n hn =>
        have hrange : 0 ≤ n ∧ n < 2 ^ 64 := h
        exact (storedUint_iff n hn).trans (and_iff_right hrange.1)
      | double bits hbits => cases h
    | _ => cases h
  | FP16 => cases h
  | FP32 =>
    cases value with
    | number n => exact iff_of_true ⟨.single n.getFloat, rfl, getFloat_exact h⟩ trivial
    | _ => cases h
  | FP64 =>
    cases value with
    | number n => exact storedDouble_iff n
    | _ => cases h
  | BYTES =>
    cases value with
    | string s =>
      refine Iff.trans ⟨?_, fun hs => ⟨.text (cStr s), rfl, hs⟩⟩ cStr_eq_iff
      intro ⟨element, hstored, hdenotes⟩
      obtain rfl := Option.some.inj hstored
      exact hdenotes
    | _ => cases h

/-- Contents hold exactly some values: in the field for the datatype, in their order, and each with its exact value. -/
def SameContents (datatype : Datatype) (values : List Node) (contents : InferTensorContents) : Prop :=
  onlyField datatype contents = contents ∧ List.Forall₂ Denotes values (contentValues datatype contents)

variable {datatype : Datatype} {values : List Node}

theorem addElement_isSome (contents : InferTensorContents) (value : Node) :
    (addElement datatype contents value).isSome = (storedValue datatype value).isSome := by
  cases datatype with
  | FP16 => rfl
  | _ => exact Option.isSome_map.trans Option.isSome_map.symm

theorem foldlM_isSome (h : ∀ value ∈ values, (storedValue datatype value).isSome) (contents : InferTensorContents) :
    ∃ added, values.foldlM (addElement datatype) contents = some added := by
  induction values generalizing contents with
  | nil => exact ⟨contents, rfl⟩
  | cons value values ih =>
    obtain ⟨hvalue, hvalues⟩ := List.forall_mem_cons.mp h
    obtain ⟨next, hnext⟩ := Option.isSome_iff_exists.mp ((addElement_isSome contents value).trans hvalue)
    rw [List.foldlM_cons, hnext]
    exact ih hvalues next

/-- What is in the contents after all values were added. -/
theorem foldlM_stored {contents added : InferTensorContents} (honly : onlyField datatype contents = contents)
    (h : values.foldlM (addElement datatype) contents = some added) : onlyField datatype added = added ∧
      ∃ elements, List.Forall₂ (fun value element => storedValue datatype value = some element) values elements ∧
        contentValues datatype added = contentValues datatype contents ++ elements := by
  induction values generalizing contents with
  | nil =>
    obtain rfl := Option.some.inj h
    exact ⟨honly, [], .nil, (List.append_nil _).symm⟩
  | cons value values ih =>
    rw [List.foldlM_cons] at h
    obtain ⟨next, hnext, h⟩ := Option.bind_eq_some_iff.mp h
    obtain ⟨hkept, element, hstored, hpush⟩ := addElement_eq honly hnext
    obtain ⟨hadded, elements, hall, hcontents⟩ := ih hkept h
    exact ⟨hadded, element :: elements, .cons hstored hall, by rw [hcontents, hpush, List.append_assoc, List.singleton_append]⟩

theorem forall₂_exists {α β : Type} {R S : α → β → Prop} {xs : List α} {ys : List β} (hr : List.Forall₂ R xs ys) (hs : List.Forall₂ S xs ys) :
    ∀ x ∈ xs, ∃ y, R x y ∧ S x y := by
  induction hr with
  | nil => exact nofun
  | cons hfirst _ ih =>
    obtain ⟨hfirst', hrest⟩ := List.forall₂_cons.mp hs
    exact List.forall_mem_cons.mpr ⟨⟨_, hfirst, hfirst'⟩, ih hrest⟩

/-- The contents are those of the body if and only if each value is kept. -/
theorem addElements_iff (h : ∀ value ∈ values, InRange datatype value) :
    (∃ contents, addElements datatype {} values = .ok contents ∧ SameContents datatype values contents) ↔
      ∀ value ∈ values, KeptValue datatype value := by
  have hempty : onlyField datatype {} = {} ∧ contentValues datatype {} = [] := by
    cases datatype <;> exact ⟨rfl, rfl⟩
  constructor
  · rintro ⟨contents, hadded, _, hdenotes⟩ value hvalue
    rw [addElements] at hadded
    split at hadded
    next added hfold =>
      obtain rfl := Except.ok.inj hadded
      obtain ⟨-, elements, hstored, hcontents⟩ := foldlM_stored hempty.1 hfold
      rw [hempty.2, List.nil_append] at hcontents
      rw [hcontents] at hdenotes
      exact (storedValue_denotes_iff (h value hvalue)).mp (forall₂_exists hstored hdenotes value hvalue)
    next => cases hadded
  · intro hkept
    have hexact := fun value hvalue => (storedValue_denotes_iff (h value hvalue)).mpr (hkept value hvalue)
    obtain ⟨added, hfold⟩ := foldlM_isSome (fun value hvalue => by
      obtain ⟨element, hstored, -⟩ := hexact value hvalue
      exact Option.isSome_iff_exists.mpr ⟨element, hstored⟩) {}
    obtain ⟨honly, elements, hstored, hcontents⟩ := foldlM_stored hempty.1 hfold
    rw [hempty.2, List.nil_append] at hcontents
    refine ⟨added, by rw [addElements, hfold], honly, ?_⟩
    rw [hcontents]
    refine ((List.forall₂_and_left values elements).mpr ⟨hexact, hstored⟩).imp ?_
    rintro value element ⟨⟨element', hstored', hdenotes⟩, heq⟩
    rwa [← Option.some.inj (hstored'.symm.trans heq)]

end Elements

end ModelServer.RestRequest
