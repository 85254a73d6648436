import Mathlib.Algebra.BigOperators.Group.List.Lemmas
import ModelServer.RawContentsDecoders

namespace ModelServer.RawContents

open LengthPrefixed Loop

/-- A tensor of strings, one for each element of its shape. -/
structure StringTensor where
  shape : List Nat
  strings : List Bytes
  filled : strings.length = shape.prod
deriving DecidableEq

section Serialization

/-- A string after its length, of which the four lowest bytes are kept. -/
def appendString (content data : Bytes) : Bytes :=
  content ++ header 4 (data.length % 2 ^ 32) ++ data.take (data.length % 2 ^ 32)

/-- One string after the other, up to a count. -/
def appendStrings (content : Bytes) : List Bytes → Nat → Outcome Bytes
  | _, 0 => .accepts content
  | [], _ + 1 => .outOfBounds
  | data :: strings, count + 1 => appendStrings (appendString content data) strings count

def serializeStringContent (content : Bytes) (tensor : StringTensor) : Outcome Bytes :=
  if content.length ≠ 0 then .accepts content
  else match tensor.shape with
    | [] => .outOfBounds
    | dim :: _ => appendStrings content tensor.strings dim

/-- The bytes of a row up to the first zero. -/
def strnlen (row : Bytes) (maxlen : Nat) : Nat := ((row.take maxlen).takeWhile (· ≠ 0)).length

def appendRow (maxStringLen : Nat) (content row : Bytes) : Bytes :=
  content ++ header 4 (strnlen row maxStringLen % 2 ^ 32) ++ row.take (strnlen row maxStringLen % 2 ^ 32)

def serializeStringContentFrom2DU8 (content : Bytes) (tensor : Tensor2D) : Bytes :=
  if !content.isEmpty then content else tensor.rows.foldl (appendRow tensor.width) content

end Serialization

section Shape

/-- The dimensions of the request, multiplied one after the other as long as the product is a `size_t`. -/
def multiplyShape (shapeElements : Nat) : List Int → Option (Nat × List Nat)
  | [] => some (shapeElements, [])
  | dim :: dims =>
    if dim < 0 then none
    else if dim.toNat ≠ 0 ∧ shapeElements > (2 ^ 64 - 1) / dim.toNat then none
    else (multiplyShape (shapeElements * dim.toNat) dims).map fun (product, shape) => (product, dim.toNat :: shape)

def buildShapeFromStringTensorRequest (dims : List Int) (numElements : Nat) : Option (List Nat) :=
  if dims.isEmpty then some [numElements]
  else match multiplyShape 1 dims with
    | none => none
    | some (shapeElements, shape) => if shapeElements ≠ numElements then none else some shape

theorem multiplyShape_some {elements product : Nat} {dims : List Int} {shape : List Nat}
    (h : multiplyShape elements dims = some (product, shape)) : product = elements * shape.prod ∧ shape = dims.map Int.toNat := by
  induction dims generalizing elements product shape with
  | nil =>
    cases h
    simp
  | cons dim dims ih =>
    rw [multiplyShape] at h
    split at h
    next => cases h
    next =>
      split at h
      next => cases h
      next =>
        obtain ⟨⟨product', shape'⟩, hrest, hresult⟩ := Option.map_eq_some_iff.mp h
        cases hresult
        obtain ⟨hproduct, hshape⟩ := ih hrest
        rw [List.prod_cons, List.map_cons, ← hshape, hproduct, Nat.mul_assoc]
        exact ⟨rfl, rfl⟩

theorem buildShape_prod {dims : List Int} {numElements : Nat} {shape : List Nat}
    (h : buildShapeFromStringTensorRequest dims numElements = some shape) : numElements = shape.prod := by
  unfold buildShapeFromStringTensorRequest at h
  split at h
  next =>
    cases h
    simp
  next =>
    split at h
    next => cases h
    next hproduct =>
      split at h
      next => cases h
      next hsame =>
        cases h
        rw [← not_not.mp hsame, (multiplyShape_some hproduct).1, Nat.one_mul]

/-- The strings of a buffer, in the shape of the request: the shape is made between the two loops, from the number of
the strings that the first has found. -/
def convertStringTensor (dims : List Int) (buffer : Bytes) : Outcome StringTensor :=
  match convertBinaryExtensionStringFromBufferToNativeOVTensor buffer with
  | .outOfBounds => .outOfBounds
  | .rejects => .rejects
  | .accepts strings =>
    match h : buildShapeFromStringTensorRequest dims strings.length with
    | none => .rejects
    | some shape => .accepts ⟨shape, strings, buildShape_prod h⟩

theorem multiplyShape_zero (shape : List Nat) : multiplyShape 0 (shape.map Int.ofNat) = some (0, shape) := by
  induction shape with
  | nil => rfl
  | cons dim shape ih =>
    rw [List.map_cons, multiplyShape, if_neg (by simp), if_neg (by simp), Nat.zero_mul, ih]
    rfl

theorem multiplyShape_ones {elements : Nat} {shape : List Nat} (hfits : elements < 2 ^ 64) (hones : ∀ dim ∈ shape, dim = 1) :
    multiplyShape elements (shape.map Int.ofNat) = some (elements, shape) := by
  induction shape with
  | nil => rfl
  | cons dim shape ih =>
    obtain ⟨rfl, hrest⟩ := List.forall_mem_cons.mp hones
    have hproduct : ¬ ((Int.ofNat 1).toNat ≠ 0 ∧ elements > (2 ^ 64 - 1) / (Int.ofNat 1).toNat) := by
      simp only [Int.ofNat_eq_natCast, Int.toNat_natCast, Nat.div_one]
      omega
    rw [List.map_cons, multiplyShape, if_neg (by simp), if_neg hproduct]
    simp [ih hrest]

theorem eq_one_of_prod {shape : List Nat} (h : shape.prod = 1) : ∀ dim ∈ shape, dim = 1 := by
  intro dim hm
  exact Nat.dvd_one.mp (h ▸ List.dvd_prod hm)

/-- A tensor whose first dimension counts all of its strings is built in its shape. -/
theorem buildShape_eq {dim : Nat} {dims : List Nat} (hprod : (dim :: dims).prod = dim) (hfits : dim < 2 ^ 64) :
    buildShapeFromStringTensorRequest ((dim :: dims).map Int.ofNat) dim = some (dim :: dims) := by
  have hmultiply : multiplyShape 1 ((dim :: dims).map Int.ofNat) = some (dim, dim :: dims) := by
    have hfirst : ¬ ((Int.ofNat dim).toNat ≠ 0 ∧ 1 > (2 ^ 64 - 1) / (Int.ofNat dim).toNat) := by
      rw [Int.ofNat_eq_natCast, Int.toNat_natCast]
      intro h
      have hle := (Nat.le_div_iff_mul_le (Nat.pos_of_ne_zero h.1)).mpr (show 1 * dim ≤ 2 ^ 64 - 1 by omega)
      omega
    have hrest : multiplyShape dim (dims.map Int.ofNat) = some (dim, dims) := by
      rcases Nat.eq_zero_or_pos dim with rfl | hpos
      · exact multiplyShape_zero dims
      · rw [List.prod_cons] at hprod
        exact multiplyShape_ones hfits (eq_one_of_prod (Nat.eq_of_mul_eq_mul_left hpos (hprod.trans (Nat.mul_one dim).symm)))
    rw [List.map_cons, multiplyShape, if_neg (by simp), if_neg hfirst, Nat.one_mul, Int.ofNat_eq_natCast,
      Int.toNat_natCast, hrest]
    rfl
  unfold buildShapeFromStringTensorRequest
  rw [hmultiply]
  simp

end Shape

section RoundTrip

variable {tensor : StringTensor} {strings : List Bytes}

/-- What is kept of a string in the response. -/
def cut (data : Bytes) : Bytes := data.take (data.length % 2 ^ 32)

theorem length_cut (data : Bytes) : (cut data).length = data.length % 2 ^ 32 :=
  List.length_take_of_le (Nat.mod_le _ _)

theorem cut_eq_iff (data : Bytes) : cut data = data ↔ data.length < 2 ^ 32 := by
  constructor
  · intro h
    have hlength := length_cut data
    rw [h] at hlength
    omega
  · intro h
    rw [cut, Nat.mod_eq_of_lt h, List.take_length]

theorem appendString_eq (content data : Bytes) : appendString content data = content ++ encode 4 (cut data) := by
  rw [appendString, encode, length_cut, cut, List.append_assoc]

theorem appendStrings_eq {content : Bytes} {count : Nat} (hcount : count ≤ strings.length) :
    appendStrings content strings count = .accepts (content ++ ((strings.take count).map cut).flatMap (encode 4)) := by
  induction strings generalizing content count with
  | nil =>
    obtain rfl := Nat.le_zero.mp hcount
    simp [appendStrings]
  | cons data strings ih =>
    cases count with
    | zero => simp [appendStrings]
    | succ count =>
      rw [appendStrings, ih (Nat.le_of_succ_le_succ hcount), appendString_eq]
      simp

theorem appendStrings_outOfBounds {content : Bytes} {count : Nat} (hcount : strings.length < count) :
    appendStrings content strings count = .outOfBounds := by
  induction strings generalizing content count with
  | nil =>
    cases count with
    | zero => exact absurd hcount (Nat.not_lt_zero _)
    | succ => rfl
  | cons data strings ih =>
    cases count with
    | zero => exact absurd hcount (Nat.not_lt_zero _)
    | succ count => exact ih (Nat.lt_of_succ_lt_succ hcount)

theorem convertBinaryExtension_records (hlengths : ∀ record ∈ strings, record.length < 2 ^ 32) :
    convertBinaryExtensionStringFromBufferToNativeOVTensor (strings.flatMap (encode 4)) = .accepts strings := by
  have hsplits := (concatenation_iff (by decide : 0 < 4)).mp (⟨rfl, hlengths⟩ : Concatenation 4 strings _)
  rw [convertBinaryExtensionStringFromBufferToNativeOVTensor_eq hsplits]
  rfl

/-- What the client decodes are the strings that the first dimension counts, as far as they are kept. -/
theorem convertStringTensor_accepts (hlengths : ∀ record ∈ strings, record.length < 2 ^ 32) (dims : List Int) :
    convertStringTensor dims (strings.flatMap (encode 4)) = .accepts tensor ↔
      buildShapeFromStringTensorRequest dims strings.length = some tensor.shape ∧ tensor.strings = strings := by
  unfold convertStringTensor
  rw [convertBinaryExtension_records hlengths]
  simp only
  split
  next hnone => simp [hnone]
  next shape hshape =>
    obtain ⟨shape', strings', hfilled⟩ := tensor
    simp [hshape, eq_comm]

/-- A tensor comes back from the client as it was. -/
def Survives (tensor : StringTensor) : Prop :=
  ∃ content, serializeStringContent [] tensor = .accepts content ∧
    convertStringTensor (tensor.shape.map Int.ofNat) content = .accepts tensor

theorem survives_iff (hrank : tensor.shape ≠ []) (hcounted : tensor.strings.length < 2 ^ 64) :
    Survives tensor ↔ tensor.shape.head? = some tensor.shape.prod ∧ ∀ data ∈ tensor.strings, data.length < 2 ^ 32 := by
  obtain ⟨shape, strings, hfilled⟩ := tensor
  obtain ⟨dim, dims, rfl⟩ := List.exists_cons_of_ne_nil hrank
  have hlengths : ∀ record ∈ (strings.take dim).map cut, record.length < 2 ^ 32 := by
    intro record hm
    obtain ⟨data, _, rfl⟩ := List.mem_map.mp hm
    rw [length_cut]
    exact Nat.mod_lt _ (by decide)
  rw [List.head?_cons, Option.some.injEq]
  simp only at hfilled hcounted ⊢
  rw [← hfilled]
  constructor
  · intro hsurvives
    obtain ⟨content, hcontent, hconvert⟩ := hsurvives
    change appendStrings [] strings dim = .accepts content at hcontent
    rcases Nat.lt_or_ge strings.length dim with hout | hcount
    · rw [appendStrings_outOfBounds hout] at hcontent
      cases hcontent
    · rw [appendStrings_eq hcount, List.nil_append] at hcontent
      cases hcontent
      obtain ⟨_, hstrings⟩ := (convertStringTensor_accepts hlengths _).mp hconvert
      change strings = (strings.take dim).map cut at hstrings
      have hlength := congrArg List.length hstrings
      rw [List.length_map, List.length_take] at hlength
      have hdim : dim = strings.length := by omega
      refine ⟨hdim, fun data hm => ?_⟩
      rw [hstrings] at hm
      exact hlengths data hm
  · intro hboth
    obtain ⟨rfl, hshort⟩ := hboth
    have hkept : (strings.take strings.length).map cut = strings := by
      rw [List.take_length]
      exact List.map_congr_left (fun data hm => (cut_eq_iff data).mpr (hshort data hm)) |>.trans (List.map_id _)
    refine ⟨_, appendStrings_eq (le_refl _), ?_⟩
    rw [List.nil_append, hkept, convertStringTensor_accepts hshort]
    exact ⟨buildShape_eq hfilled.symm hcounted, rfl⟩

theorem strnlen_padded {record : Bytes} {width : Nat} (hnul : 0 ∉ record) (hwidth : record.length < width) :
    strnlen (padded width record) width = record.length := by
  have hlength : (padded width record).length = width := by
    rw [padded, List.length_append, List.length_replicate]
    omega
  have hall : ∀ byte ∈ record, decide (byte ≠ 0) = true := by
    intro byte hm
    exact decide_eq_true fun hzero => hnul (hzero ▸ hm)
  obtain ⟨rest, hrest⟩ := Nat.exists_eq_add_of_lt hwidth
  have hzeros : width - record.length = rest + 1 := by omega
  rw [strnlen, List.take_of_length_le hlength.le, padded, hzeros, List.replicate_succ,
    List.takeWhile_append_of_pos hall]
  simp

theorem length_le_maxLength {record : Bytes} (hm : record ∈ strings) : record.length ≤ maxLength strings := by
  induction strings using List.reverseRecOn with
  | nil => exact absurd hm List.not_mem_nil
  | append_singleton strings last ih =>
    rw [maxLength_concat]
    rcases List.mem_append.mp hm with hm | hm
    · exact (ih hm).trans (Nat.le_max_left _ _)
    · rw [List.mem_singleton.mp hm]
      exact Nat.le_max_right _ _

/-- Strings without zeros that have gone through a tensor of bytes are written as they were. -/
theorem serialize_padded {content : Bytes} {width : Nat} (hshort : ∀ record ∈ strings, record.length < 2 ^ 32)
    (hnul : ∀ record ∈ strings, 0 ∉ record) (hwidth : ∀ record ∈ strings, record.length < width) :
    (strings.map (padded width)).foldl (appendRow width) content = content ++ strings.flatMap (encode 4) := by
  induction strings generalizing content with
  | nil => simp
  | cons record strings ih =>
    obtain ⟨hrecordShort, hshort⟩ := List.forall_mem_cons.mp hshort
    obtain ⟨hrecordNul, hnul⟩ := List.forall_mem_cons.mp hnul
    obtain ⟨hrecordWidth, hwidth⟩ := List.forall_mem_cons.mp hwidth
    have hrow : appendRow width content (padded width record) = content ++ encode 4 record := by
      rw [appendRow, strnlen_padded hrecordNul hrecordWidth, Nat.mod_eq_of_lt hrecordShort, encode, padded,
        List.take_left, List.append_assoc]
    rw [List.map_cons, List.foldl_cons, hrow, ih hshort hnul hwidth, List.flatMap_cons, List.append_assoc]

theorem survives2D (hshort : ∀ record ∈ strings, record.length < 2 ^ 32) (hnul : ∀ record ∈ strings, 0 ∉ record) :
    ∃ tensor, convertStringRequestFromBufferToOVTensor2D (strings.flatMap (encode 4)) = .accepts tensor ∧
      serializeStringContentFrom2DU8 [] tensor = strings.flatMap (encode 4) := by
  have hsplits := (concatenation_iff (by decide : 0 < 4)).mp (⟨rfl, hshort⟩ : Concatenation 4 strings _)
  refine ⟨_, (convertStringRequestFromBufferToOVTensor2D_eq hsplits).trans (if_pos rfl), ?_⟩
  have hwidth : ∀ record ∈ strings, record.length < maxLength strings + 1 :=
    fun record hm => Nat.lt_succ_of_le (length_le_maxLength hm)
  exact (serialize_padded hshort hnul hwidth).trans (List.nil_append _)

/-- A tensor of strings survives where its first dimension counts all of them and a header holds the length of each; strings
in a tensor of bytes always do. -/
theorem strings_survive (tensor : StringTensor) (hrank : tensor.shape ≠ []) (hcounted : tensor.strings.length < 2 ^ 64)
    (strings : List Bytes) (hshort : ∀ record ∈ strings, record.length < 2 ^ 32) (hnul : ∀ record ∈ strings, 0 ∉ record) :
    (Survives tensor ↔ tensor.shape.head? = some tensor.shape.prod ∧ ∀ data ∈ tensor.strings, data.length < 2 ^ 32) ∧
      ∃ tensor, convertStringRequestFromBufferToOVTensor2D (strings.flatMap (encode 4)) = .accepts tensor ∧
        serializeStringContentFrom2DU8 [] tensor = strings.flatMap (encode 4) :=
  ⟨survives_iff hrank hcounted, survives2D hshort hnul⟩

/-- Four strings in two rows: the last two are not written, and the client cannot fill the shape. -/
def twoRows : StringTensor where
  shape := [2, 2]
  strings := [[97], [98], [99], [100]]
  filled := rfl

theorem strings_lost : ¬ Survives twoRows ∧
    serializeStringContent [] twoRows = .accepts [1, 0, 0, 0, 97, 1, 0, 0, 0, 98] ∧
    convertStringTensor [2, 2] [1, 0, 0, 0, 97, 1, 0, 0, 0, 98] = .rejects := by
  refine ⟨fun hsurvives => ?_, by decide, by decide⟩
  obtain ⟨content, hcontent, hconvert⟩ := hsurvives
  have hwritten : serializeStringContent [] twoRows = .accepts [1, 0, 0, 0, 97, 1, 0, 0, 0, 98] := by decide
  rw [hwritten] at hcontent
  cases hcontent
  exact absurd hconvert (by decide)

/-- Two strings in one column, one of them empty. -/
theorem strings_survive_column : Survives ⟨[2, 1], [[97, 98], []], rfl⟩ ∧
    ∃ tensor, convertStringRequestFromBufferToOVTensor2D ([[97, 98], []].flatMap (encode 4)) = .accepts tensor ∧
      serializeStringContentFrom2DU8 [] tensor = [[97, 98], []].flatMap (encode 4) :=
  have survive := strings_survive ⟨[2, 1], [[97, 98], []], rfl⟩ (by decide) (by decide) [[97, 98], []] (by decide) (by decide)
  ⟨survive.1.mpr (by decide), survive.2⟩

end RoundTrip

end ModelServer.RawContents
