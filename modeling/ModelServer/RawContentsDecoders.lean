import ModelServer.RawContents

namespace ModelServer.RawContents

open LengthPrefixed Loop

variable {buffer record rest remainder : Bytes} {records : List Bytes} {offset : Nat}

/-- What the decoders read where a complete record begins. -/
theorem read_record (h : next 4 (buffer.drop offset) = some (record, rest)) :
    offset + 4 + record.length ≤ buffer.length ∧ readUint32 buffer offset = some record.length ∧
      (buffer.drop (offset + 4)).take record.length = record ∧ rest = buffer.drop (offset + 4 + record.length) := by
  obtain ⟨⟨hwidth, hfits⟩, h⟩ := Option.ite_none_right_eq_some.mp h
  rw [List.splitAt_eq, Option.some.injEq, Prod.mk.injEq, List.drop_drop, List.drop_drop] at h
  obtain ⟨hrecord, hrest⟩ := h
  have hlength : record.length = value ((buffer.drop offset).take 4) := by
    rw [← hrecord, ← List.drop_drop, List.length_take_of_le hfits]
  rw [List.length_drop] at hwidth
  rw [List.drop_drop, List.length_drop] at hfits
  rw [← hlength] at hrecord hrest hfits
  have hin : offset + 4 ≤ buffer.length := by omega
  refine ⟨by omega, ?_, hrecord, hrest.symm⟩
  rw [readUint32, if_pos hin, hlength]

theorem readBytes_record (h : next 4 (buffer.drop offset) = some (record, rest)) :
    readBytes buffer (offset + 4) record.length = some record := by
  obtain ⟨hin, -, hrecord, -⟩ := read_record h
  rw [readBytes, if_pos hin, hrecord]

/-- Where no complete record begins, there is no whole header, or its length runs past the end. -/
theorem read_remainder (h : next 4 (buffer.drop offset) = none) :
    buffer.length < offset + 4 ∨
      ∃ size, offset + 4 ≤ buffer.length ∧ readUint32 buffer offset = some size ∧ buffer.length < offset + 4 + size := by
  have hnot : ¬ (4 ≤ (buffer.drop offset).length ∧
      value ((buffer.drop offset).take 4) ≤ ((buffer.drop offset).drop 4).length) := by
    intro hcomplete
    rw [next, if_pos hcomplete] at h
    cases h
  rw [List.drop_drop, List.length_drop, List.length_drop] at hnot
  by_cases hin : offset + 4 ≤ buffer.length
  · refine .inr ⟨_, hin, if_pos hin, ?_⟩
    omega
  · exact .inl (by omega)

/-- How many bytes these records take in a buffer. -/
def size (records : List Bytes) : Nat := (records.map fun record => 4 + record.length).sum

@[simp] theorem size_concat (records : List Bytes) (record : Bytes) :
    size (records ++ [record]) = size records + (4 + record.length) := by
  simp [size]

/-- The greatest length of these records. -/
def maxLength (records : List Bytes) : Nat := records.foldl (fun longest record => max longest record.length) 0

@[simp] theorem maxLength_concat (records : List Bytes) (record : Bytes) :
    maxLength (records ++ [record]) = max (maxLength records) record.length := by
  simp [maxLength]

theorem size_eq (records : List Bytes) : size records = (records.map List.length).sum + records.length * 4 := by
  induction records with
  | nil => rfl
  | cons record records ih =>
    rw [size, List.map_cons, List.sum_cons, List.map_cons, List.sum_cons, List.length_cons]
    rw [size] at ih
    omega

/-- A row of a tensor: the string, filled up with zeros. -/
def padded (width : Nat) (record : Bytes) : Bytes := record ++ List.replicate (width - record.length) 0

section Loops

variable {σ ρ : Type} {body : σ → σ ⊕ ρ} {state : List Bytes → σ}

/-- A loop over the buffer takes one turn for each complete record; `state` is where it stands after these records. -/
def Consumes (buffer : Bytes) (body : σ → σ ⊕ ρ) (state : List Bytes → σ) : Prop :=
  ∀ consumed record rest, next 4 (buffer.drop (size consumed)) = some (record, rest) →
    body (state consumed) = .inl (state (consumed ++ [record]))

theorem Consumes.iterate_eq (hconsumes : Consumes buffer body state) {result : ρ} {consumed : List Bytes} {turns : Nat}
    (h : Splits 4 (buffer.drop (size consumed)) records remainder) (hin : size consumed ≤ buffer.length)
    (hlast : size (consumed ++ records) ≤ buffer.length → buffer.drop (size (consumed ++ records)) = remainder →
      iterate body turns (state (consumed ++ records)) = some result) :
    iterate body (records.length + turns) (state consumed) = some result := by
  induction records generalizing consumed with
  | nil =>
    rw [List.append_nil] at hlast
    rw [List.length_nil, Nat.zero_add]
    cases h with
    | done => exact hlast hin rfl
  | cons record records ih =>
    cases h with
    | record hsome hrest =>
      obtain ⟨hmore, -, -, rfl⟩ := read_record hsome
      rw [Nat.add_assoc, ← size_concat] at hrest hmore
      rw [List.append_cons consumed record records] at hlast
      rw [List.length_cons, Nat.add_right_comm, iterate, hconsumes consumed record _ hsome]
      exact ih hrest hmore hlast

/-- Such a loop ends as its last turns do, which start at the remainder. -/
theorem Consumes.run_eq (hconsumes : Consumes buffer body state) (h : Splits 4 buffer records remainder)
    {stuck result : ρ} {turns : Nat} (hturns : turns ≤ remainder.length + 1)
    (hlast : size records ≤ buffer.length → buffer.drop (size records) = remainder →
      iterate body turns (state records) = some result) : run body (buffer.length + 1) stuck (state []) = result := by
  have hstart : Splits 4 (buffer.drop (size [])) records remainder := h
  have hle := h.length_le
  have hiterate := iterate_mono (hconsumes.iterate_eq hstart (Nat.zero_le _) hlast)
    (by omega : records.length + turns ≤ buffer.length + 1)
  rw [run, hiterate]
  rfl

/-- A loop that ends with its next turn. -/
theorem iterate_once {s : σ} {result : ρ} (h : body s = .inr result) : iterate body 1 s = some result := by
  rw [iterate, h]

theorem iterate_twice {s t : σ} {result : ρ} (h : body s = .inl t) (h' : body t = .inr result) :
    iterate body 2 s = some result := by
  rw [iterate, h]
  exact iterate_once h'

end Loops

section Decoders

variable (h : Splits 4 buffer records remainder)
include h

/-- What the loops find where they stand at the remainder. -/
theorem at_remainder (hremainder : buffer.drop (size records) = remainder) :
    remainder.length = buffer.length - size records ∧ (buffer.length < size records + 4 ∨
      ∃ length, size records + 4 ≤ buffer.length ∧ readUint32 buffer (size records) = some length ∧
        buffer.length < size records + 4 + length) :=
  ⟨by rw [← hremainder, List.length_drop], read_remainder (hremainder ▸ h.next_remainder)⟩

theorem validateTensorContent_eq :
    validateTensorContent buffer = if remainder.length = 0 then .accepts records.length else .rejects := by
  have hconsumes : Consumes buffer (validateTensorContentTurn buffer) fun done => (size done, done.length) := by
    intro consumed record rest hnext
    obtain ⟨hin, hread, -⟩ := read_record hnext
    rw [validateTensorContentTurn, if_pos (by omega), hread]
    dsimp only
    rw [if_neg (by omega), size_concat, Nat.add_comm 4, List.length_append]
    rfl
  refine hconsumes.run_eq h (Nat.le_add_left 1 _) fun hin hremainder => iterate_once ?_
  obtain ⟨hlength, hshort | ⟨length, hheader, hread, hpast⟩⟩ := at_remainder h hremainder
  · rw [validateTensorContentTurn, hlength, if_neg (by omega)]
    by_cases hend : size records = buffer.length
    · rw [if_neg (by omega), if_pos (by omega)]
    · rw [if_pos (by omega), if_neg (by omega)]
  · rw [validateTensorContentTurn, hlength, if_pos hheader, hread]
    dsimp only
    rw [if_pos (by omega), if_neg (by omega)]

/-- The length of a string is not tested; one that runs past the end shows after the loop. -/
theorem getRawInputContentsBatchSizeAndWidth_eq :
    getRawInputContentsBatchSizeAndWidth buffer =
      if remainder.length = 0 then .accepts (toInt32 records.length, maxLength records + 1) else .rejects := by
  have hconsumes : Consumes buffer (getRawInputContentsBatchSizeAndWidthTurn buffer)
      fun done => (size done, done.length, maxLength done) := by
    intro consumed record rest hnext
    obtain ⟨hin, hread, -⟩ := read_record hnext
    rw [getRawInputContentsBatchSizeAndWidthTurn, if_pos (by omega), hread]
    dsimp only
    rw [size_concat, maxLength_concat, List.length_append]
    rfl
  by_cases hend : remainder.length = 0
  · refine hconsumes.run_eq h (Nat.le_add_left 1 _) fun hin hremainder => iterate_once ?_
    obtain ⟨hlength, -⟩ := at_remainder h hremainder
    rw [getRawInputContentsBatchSizeAndWidthTurn, if_neg (by omega), if_neg (by omega), if_neg (by omega), if_pos hend]
  · refine hconsumes.run_eq h (by omega : 2 ≤ remainder.length + 1) fun hin hremainder => ?_
    rw [if_neg hend]
    obtain ⟨hlength, hshort | ⟨length, hheader, hread, hpast⟩⟩ := at_remainder h hremainder
    · apply iterate_mono (iterate_once ?_) (Nat.le_succ 1)
      rw [getRawInputContentsBatchSizeAndWidthTurn, if_neg (by omega), if_neg (by omega), if_pos (by omega)]
    · apply iterate_twice
      · rw [getRawInputContentsBatchSizeAndWidthTurn, if_pos hheader, hread]
      · rw [getRawInputContentsBatchSizeAndWidthTurn, if_neg (by omega), if_pos (by omega)]

/-- A header alone, with nothing behind it, is let pass. -/
theorem getInputs_eq : getInputs buffer =
    if remainder.length = 0 ∨ remainder.length = 4 then .accepts records else .rejects := by
  have hconsumes : Consumes buffer (getInputsTurn buffer) fun done => (size done, done) := by
    intro consumed record rest hnext
    obtain ⟨hin, hread, hrecord, -⟩ := read_record hnext
    rw [getInputsTurn]
    dsimp only
    rw [if_pos (by omega), hread]
    dsimp only
    rw [if_neg (by omega), hrecord, size_concat, Nat.add_assoc]
  refine hconsumes.run_eq h (Nat.le_add_left 1 _) fun hin hremainder => iterate_once ?_
  obtain ⟨hlength, hshort | ⟨length, hheader, hread, hpast⟩⟩ := at_remainder h hremainder
  · rw [getInputsTurn, hlength]
    dsimp only
    rw [if_neg (by omega)]
    by_cases hend : size records = buffer.length
    · rw [if_neg (by omega), if_pos (by omega)]
    · rw [if_pos (by omega), if_neg (by omega)]
  · rw [getInputsTurn, hlength]
    dsimp only
    rw [if_pos hheader, hread]
    dsimp only
    rw [if_pos (by omega)]
    by_cases hend : size records + 4 = buffer.length
    · rw [if_neg (by omega), if_pos (by omega)]
    · rw [if_pos (by omega), if_neg (by omega)]

theorem measure_eq : run (measureTurn buffer) (buffer.length + 1) .rejects (0, 0, 0) =
    if remainder.length = 0 then .accepts (records.length, maxLength records) else .rejects := by
  have hconsumes : Consumes buffer (measureTurn buffer) fun done => (done.length, size done, maxLength done) := by
    intro consumed record rest hnext
    obtain ⟨hin, hread, -⟩ := read_record hnext
    rw [measureTurn, if_pos (by omega), hread]
    dsimp only
    rw [size_concat, maxLength_concat, List.length_append]
    rfl
  by_cases hend : remainder.length = 0
  · refine hconsumes.run_eq h (Nat.le_add_left 1 _) fun hin hremainder => iterate_once ?_
    obtain ⟨hlength, -⟩ := at_remainder h hremainder
    rw [measureTurn, if_neg (by omega), if_neg (by omega), if_pos hend]
  · refine hconsumes.run_eq h (by omega : 2 ≤ remainder.length + 1) fun hin hremainder => ?_
    rw [if_neg hend]
    obtain ⟨hlength, hshort | ⟨length, hheader, hread, hpast⟩⟩ := at_remainder h hremainder
    · apply iterate_mono (iterate_once ?_) (Nat.le_succ 1)
      rw [measureTurn, if_neg (by omega), if_pos (by omega)]
    · apply iterate_twice
      · rw [measureTurn, if_pos hheader, hread]
      · rw [measureTurn, if_neg (by omega), if_pos (by omega)]

omit h in
theorem copyRows_eq {width offset : Nat} (h : Splits 4 (buffer.drop offset) records []) :
    copyRows buffer width records.length offset = some (records.map (padded width)) := by
  induction records generalizing offset with
  | nil => rfl
  | cons record records ih =>
    cases h with
    | record hsome hrest =>
      obtain ⟨-, hread, -, rfl⟩ := read_record hsome
      rw [List.length_cons, copyRows, hread, Option.bind_some, readBytes_record hsome, Option.bind_some, ih hrest]
      rfl

theorem convertStringRequestFromBufferToOVTensor2D_eq : convertStringRequestFromBufferToOVTensor2D buffer =
    if remainder.length = 0 then
      .accepts ⟨records.length, maxLength records + 1, records.map (padded (maxLength records + 1))⟩
    else .rejects := by
  rw [convertStringRequestFromBufferToOVTensor2D, measure_eq h]
  by_cases hend : remainder.length = 0
  · have hsplits : Splits 4 (buffer.drop 0) records [] := List.length_eq_zero_iff.mp hend ▸ h
    rw [if_pos hend, if_pos hend]
    dsimp only
    rw [copyRows_eq hsplits]
  · rw [if_neg hend, if_neg hend]

theorem stringSizes_eq : run (stringSizesTurn buffer) (buffer.length + 1) .rejects ([], 0) =
    if remainder.length = 0 then .accepts (records.map List.length) else .rejects := by
  have hconsumes : Consumes buffer (stringSizesTurn buffer)
      fun done => (done.map List.length, (done.map List.length).sum) := by
    intro consumed record rest hnext
    obtain ⟨hin, hread, -⟩ := read_record hnext
    have hsize := size_eq consumed
    rw [stringSizesTurn]
    dsimp only
    rw [List.length_map, if_neg (by omega), if_neg (by omega), if_neg (by omega), ← hsize, hread]
    dsimp only
    rw [if_neg (by omega), List.map_append, List.sum_append]
    rfl
  refine hconsumes.run_eq h (Nat.le_add_left 1 _) fun hin hremainder => iterate_once ?_
  have hsize := size_eq records
  obtain ⟨hlength, hshort | ⟨length, hheader, hread, hpast⟩⟩ := at_remainder h hremainder
  · rw [stringSizesTurn, hlength]
    dsimp only
    rw [List.length_map, if_neg (by omega), if_neg (by omega), if_pos (by omega), ← hsize]
    by_cases hend : size records = buffer.length
    · rw [if_neg (by omega), if_pos (by omega)]
    · rw [if_pos (by omega), if_neg (by omega)]
  · rw [stringSizesTurn, hlength]
    dsimp only
    rw [List.length_map, if_neg (by omega), if_neg (by omega), if_neg (by omega), ← hsize, hread]
    dsimp only
    rw [if_pos (by omega), if_neg (by omega)]

omit h in
theorem assignStrings_eq {i tensorStringsOffset : Nat}
    (h : Splits 4 (buffer.drop (i * 4 + tensorStringsOffset)) records []) :
    assignStrings buffer (records.map List.length) i tensorStringsOffset = .accepts records := by
  induction records generalizing i tensorStringsOffset with
  | nil => rfl
  | cons record records ih =>
    cases h with
    | record hsome hrest =>
      obtain ⟨hin, -, -, rfl⟩ := read_record hsome
      have hsource : i * 4 + tensorStringsOffset + 4 = (i + 1) * 4 + tensorStringsOffset := by omega
      have hbytes := readBytes_record hsome
      rw [hsource] at hbytes hin hrest
      rw [Nat.add_assoc] at hrest
      rw [List.map_cons, assignStrings, if_neg (by omega), hbytes, ih hrest]

theorem convertBinaryExtensionStringFromBufferToNativeOVTensor_eq :
    convertBinaryExtensionStringFromBufferToNativeOVTensor buffer =
      if remainder.length = 0 then .accepts records else .rejects := by
  rw [convertBinaryExtensionStringFromBufferToNativeOVTensor, stringSizes_eq h]
  by_cases hend : remainder.length = 0
  · have hsplits : Splits 4 (buffer.drop (0 * 4 + 0)) records [] := List.length_eq_zero_iff.mp hend ▸ h
    rw [if_pos hend, if_pos hend]
    exact assignStrings_eq hsplits
  · rw [if_neg hend, if_neg hend]

/-- A rest that is too short for a header is read past its end. -/
theorem parseOutputDataString_eq : parseOutputDataString buffer =
    if remainder.length = 0 then .accepts records else if remainder.length < 4 then .outOfBounds else .rejects := by
  have hconsumes : Consumes buffer (parseOutputDataStringTurn buffer) fun done => (size done, done) := by
    intro consumed record rest hnext
    obtain ⟨hin, hread, -⟩ := read_record hnext
    rw [parseOutputDataStringTurn, if_pos (by omega), hread]
    dsimp only
    rw [if_neg (by omega), readBytes_record hnext, size_concat, Nat.add_assoc]
  refine hconsumes.run_eq h (Nat.le_add_left 1 _) fun hin hremainder => iterate_once ?_
  obtain ⟨hlength, hshort | ⟨length, hheader, hread, hpast⟩⟩ := at_remainder h hremainder
  · rw [parseOutputDataStringTurn, hlength]
    by_cases hend : size records = buffer.length
    · rw [if_neg (by omega), if_pos (by omega)]
    · rw [if_pos (by omega), readUint32, if_neg (by omega), if_neg (by omega), if_pos (by omega)]
  · rw [parseOutputDataStringTurn, hlength, if_pos (by omega), hread]
    dsimp only
    rw [if_pos (by omega), if_neg (by omega), if_neg (by omega)]

end Decoders

theorem toInt32_eq_iff (n : Nat) : toInt32 n = n ↔ n < 2 ^ 31 := by
  have hmod : toInt32 n = if (n : Int) % 4294967296 < 2147483648 then (n : Int) % 4294967296
      else (n : Int) % 4294967296 - 4294967296 := rfl
  rw [hmod]
  split
  next => omega
  next => omega

/-- The decoders agree on a buffer: they all accept it just if it is a concatenation of records, and report its
records then. -/
def DecodersAgree (buffer : Bytes) : Prop :=
  (∀ records, Concatenation 4 records buffer →
    validateTensorContent buffer = .accepts records.length ∧
    getRawInputContentsBatchSizeAndWidth buffer = .accepts ((records.length : Int), maxLength records + 1) ∧
    getInputs buffer = .accepts records ∧
    convertStringRequestFromBufferToOVTensor2D buffer =
      .accepts ⟨records.length, maxLength records + 1, records.map (padded (maxLength records + 1))⟩ ∧
    convertBinaryExtensionStringFromBufferToNativeOVTensor buffer = .accepts records ∧
    parseOutputDataString buffer = .accepts records) ∧
  ((¬ ∃ records, Concatenation 4 records buffer) →
    validateTensorContent buffer = .rejects ∧
    getRawInputContentsBatchSizeAndWidth buffer = .rejects ∧
    getInputs buffer = .rejects ∧
    convertStringRequestFromBufferToOVTensor2D buffer = .rejects ∧
    convertBinaryExtensionStringFromBufferToNativeOVTensor buffer = .rejects ∧
    parseOutputDataString buffer = .rejects)

theorem decodersAgree_records (h : Splits 4 buffer records []) : DecodersAgree buffer ↔ records.length < 2 ^ 31 := by
  have hconcatenation : Concatenation 4 records buffer := (concatenation_iff (by decide)).mpr h
  have hwidth := (getRawInputContentsBatchSizeAndWidth_eq h).trans (if_pos rfl)
  rw [← toInt32_eq_iff]
  constructor
  · intro hagree
    have hreported := hwidth.symm.trans (hagree.1 records hconcatenation).2.1
    rw [Outcome.accepts.injEq, Prod.mk.injEq] at hreported
    exact hreported.1
  · intro hcount
    refine ⟨fun records' hrecords' => ?_, fun hnone => absurd ⟨records, hconcatenation⟩ hnone⟩
    obtain ⟨rfl, -⟩ := h.unique ((concatenation_iff (by decide)).mp hrecords')
    rw [hcount] at hwidth
    exact ⟨(validateTensorContent_eq h).trans (if_pos rfl), hwidth, (getInputs_eq h).trans (if_pos (.inl rfl)),
      (convertStringRequestFromBufferToOVTensor2D_eq h).trans (if_pos rfl),
      (convertBinaryExtensionStringFromBufferToNativeOVTensor_eq h).trans (if_pos rfl),
      (parseOutputDataString_eq h).trans (if_pos rfl)⟩

theorem decodersAgree_remainder (h : Splits 4 buffer records remainder) (hne : remainder ≠ []) :
    DecodersAgree buffer ↔ 4 < remainder.length := by
  have hlength : remainder.length ≠ 0 := fun hzero => hne (List.length_eq_zero_iff.mp hzero)
  have hnone : ¬ ∃ records, Concatenation 4 records buffer := by
    intro hrecords
    obtain ⟨records', hrecords'⟩ := hrecords
    exact hne (h.unique ((concatenation_iff (by decide)).mp hrecords')).2
  have hrest := (parseOutputDataString_eq h).trans (if_neg hlength)
  constructor
  · intro hagree
    obtain ⟨-, -, hinputs, -, -, hstrings⟩ := hagree.2 hnone
    rw [getInputs_eq h] at hinputs
    rw [hrest] at hstrings
    by_contra hshort
    by_cases hheader : remainder.length = 4
    · rw [if_pos (.inr hheader)] at hinputs
      cases hinputs
    · rw [if_pos (by omega)] at hstrings
      cases hstrings
  · intro hlong
    refine ⟨fun records' hrecords' => absurd ⟨records', hrecords'⟩ hnone, fun _ => ?_⟩
    exact ⟨(validateTensorContent_eq h).trans (if_neg hlength),
      (getRawInputContentsBatchSizeAndWidth_eq h).trans (if_neg hlength), (getInputs_eq h).trans (if_neg (by omega)),
      (convertStringRequestFromBufferToOVTensor2D_eq h).trans (if_neg hlength),
      (convertBinaryExtensionStringFromBufferToNativeOVTensor_eq h).trans (if_neg hlength),
      hrest.trans (if_neg (by omega))⟩

/-- They agree where nothing is left after the complete records, of which an `int32_t` holds the number, and where more
than a header is left. -/
theorem decodersAgree_iff (buffer : Bytes) :
    DecodersAgree buffer ↔
      left 4 buffer = [] ∧ (complete 4 buffer).length < 2 ^ 31 ∨ 4 < (left 4 buffer).length := by
  have hsplits := splits_complete (by decide : 0 < 4) buffer
  by_cases hleft : left 4 buffer = []
  · rw [decodersAgree_records (hleft ▸ hsplits), and_iff_right hleft, hleft]
    exact (or_iff_left (Nat.not_lt_zero 4)).symm
  · rw [decodersAgree_remainder hsplits hleft, or_iff_right fun h => hleft h.1]

/-- A buffer that holds the header of one more byte, and one that holds a single byte: the first is let pass by
`getInputs`, and the response writer reads past the end of the second. -/
theorem decoders_disagree :
    ¬ DecodersAgree [1, 0, 0, 0] ∧ getInputs [1, 0, 0, 0] = .accepts [] ∧
      validateTensorContent [1, 0, 0, 0] = .rejects ∧
      ¬ DecodersAgree [1] ∧ parseOutputDataString [1] = .outOfBounds := by
  have hheader : ¬ ∃ records, Concatenation 4 records [1, 0, 0, 0] := by
    rw [← left_eq_nil_iff (by decide)]
    decide
  have hbyte : ¬ ∃ records, Concatenation 4 records [1] := by
    rw [← left_eq_nil_iff (by decide)]
    decide
  refine ⟨fun h => ?_, by decide, by decide, fun h => ?_, by decide⟩
  · exact absurd (h.2 hheader).2.2.1 (by decide)
  · exact absurd (h.2 hbyte).2.2.2.2.2 (by decide)

end ModelServer.RawContents
