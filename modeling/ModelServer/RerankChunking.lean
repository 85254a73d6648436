import ModelServer.Chunking

namespace ModelServer.Rerank

open Chunking

/-- A tensor of `int64_t` with two dimensions, row by row. -/
structure TokenTensor where
  width : Nat
  rows : List (List Int)
  rectangular : ∀ row ∈ rows, row.length = width
deriving DecidableEq

/-- What a tokenizer returns. -/
structure Tokens where
  input_ids : TokenTensor
  attention_mask : TokenTensor
deriving DecidableEq

section ChunkDocuments

/-- The distance to the first zero of a row of the attention mask. -/
def tokenCount (attention_mask : List Int) : Nat := attention_mask.idxOf 0

/-- The chunks of a document with their starts and sizes. -/
def newChunks (max_tokens_per_chunk token_count : Nat) : List (Nat × Nat) :=
  if token_count > max_tokens_per_chunk then
    (List.range ((token_count + max_tokens_per_chunk - 1) / max_tokens_per_chunk)).map fun j =>
      (j * max_tokens_per_chunk, min (j * max_tokens_per_chunk + max_tokens_per_chunk) token_count - j * max_tokens_per_chunk)
  else [(0, token_count)]

/-- A turn of the first loop; the state is `chunk_mapping` and `new_tokens_count_of_longest_document`. -/
def countChunks (max_tokens_per_chunk : Nat) (counted : List Nat × Nat) (document : List Int × Nat) : List Nat × Nat :=
  let token_count := tokenCount document.1
  if token_count > max_tokens_per_chunk then
    (counted.1 ++ List.replicate ((token_count + max_tokens_per_chunk - 1) / max_tokens_per_chunk) document.2,
      max max_tokens_per_chunk counted.2)
  else (counted.1 ++ [document.2], max token_count counted.2)

/-- A chunk of a row, copied into a row of its own. -/
def copyChunk (width : Nat) (fill : Int) (row : List Int) (chunk : Nat × Nat) : List Int :=
  padTo width fill ((row.drop chunk.1).take chunk.2)

/-- The second loop: the rows of one of the two tensors, whose chunks the attention mask gives. -/
def copyChunks (max_tokens_per_chunk width : Nat) (fill : Int) (documents : List (List Int × List Int)) : List (List Int) :=
  documents.flatMap fun (row, mask) => (newChunks max_tokens_per_chunk (tokenCount mask)).map (copyChunk width fill row)

theorem newChunks_size {max_tokens_per_chunk token_count : Nat} {chunk : Nat × Nat}
    (h : chunk ∈ newChunks max_tokens_per_chunk token_count) : chunk.2 ≤ min token_count max_tokens_per_chunk := by
  unfold newChunks at h
  split at h
  next hmany =>
    obtain ⟨j, -, rfl⟩ := List.mem_map.mp h
    show min (j * max_tokens_per_chunk + max_tokens_per_chunk) token_count - j * max_tokens_per_chunk ≤ _
    omega
  next hone =>
    obtain rfl := List.mem_singleton.mp h
    show token_count ≤ _
    omega

theorem countChunks_width (max_tokens_per_chunk : Nat) (counted : List Nat × Nat) (document : List Int × Nat) :
    (countChunks max_tokens_per_chunk counted document).2 = max (min (tokenCount document.1) max_tokens_per_chunk) counted.2 := by
  by_cases hmany : tokenCount document.1 > max_tokens_per_chunk
  · rw [countChunks, if_pos hmany, Nat.min_eq_right (Nat.le_of_lt hmany)]
  · rw [countChunks, if_neg hmany, Nat.min_eq_left (Nat.le_of_not_lt hmany)]

theorem countChunks_mapping (max_tokens_per_chunk : Nat) (counted : List Nat × Nat) (document : List Int × Nat) :
    (countChunks max_tokens_per_chunk counted document).1 =
      counted.1 ++ List.replicate (newChunks max_tokens_per_chunk (tokenCount document.1)).length document.2 := by
  by_cases hmany : tokenCount document.1 > max_tokens_per_chunk
  · rw [countChunks, newChunks, if_pos hmany, if_pos hmany, List.length_map, List.length_range]
  · rw [countChunks, newChunks, if_neg hmany, if_neg hmany]
    rfl

/-- The second loop writes inside of the tensors that the first has measured. -/
theorem countChunks_fits {max_tokens_per_chunk : Nat} {masks : List (List Int)} (first : Nat) (counted : List Nat × Nat) :
    counted.2 ≤ ((masks.zipIdx first).foldl (countChunks max_tokens_per_chunk) counted).2 ∧
      ∀ mask ∈ masks, min (tokenCount mask) max_tokens_per_chunk ≤
        ((masks.zipIdx first).foldl (countChunks max_tokens_per_chunk) counted).2 := by
  induction masks generalizing first counted with
  | nil => exact ⟨Nat.le_refl _, fun _ h => by cases h⟩
  | cons mask masks ih =>
    rw [List.zipIdx_cons, List.foldl_cons]
    have hrest := ih (first + 1) (countChunks max_tokens_per_chunk counted (mask, first))
    rw [countChunks_width] at hrest
    obtain ⟨hcounted, hmasks⟩ := hrest
    exact ⟨Nat.le_trans (Nat.le_max_right _ _) hcounted,
      List.forall_mem_cons.mpr ⟨Nat.le_trans (Nat.le_max_left _ _) hcounted, hmasks⟩⟩

theorem copyChunks_rectangular {max_tokens_per_chunk width : Nat} {fill : Int} {documents : List (List Int × List Int)}
    (hfits : ∀ document ∈ documents, min (tokenCount document.2) max_tokens_per_chunk ≤ width) :
    ∀ row ∈ copyChunks max_tokens_per_chunk width fill documents, row.length = width := by
  intro row hrow
  obtain ⟨document, hdocument, hcopied⟩ := List.mem_flatMap.mp hrow
  obtain ⟨chunk, hchunk, rfl⟩ := List.mem_map.mp hcopied
  have hsize := newChunks_size hchunk
  have hwidth := hfits document hdocument
  refine padTo_length ?_
  rw [List.length_take]
  omega

/-- `chunk_mapping` and `new_tokens_count_of_longest_document` after the first loop. -/
def counted (max_tokens_per_chunk : Nat) (chunk_mapping : List Nat) (masks : List (List Int)) : List Nat × Nat :=
  masks.zipIdx.foldl (countChunks max_tokens_per_chunk) (chunk_mapping, 0)

/-- A tensor of the chunks, as wide as the first loop has found. -/
def chunkTensor (max_tokens_per_chunk : Nat) (fill : Int) (chunk_mapping : List Nat) (rows masks : List (List Int)) : TokenTensor where
  width := (counted max_tokens_per_chunk chunk_mapping masks).2
  rows := copyChunks max_tokens_per_chunk (counted max_tokens_per_chunk chunk_mapping masks).2 fill (rows.zip masks)
  rectangular := copyChunks_rectangular fun document h => (countChunks_fits 0 _).2 document.2 (List.of_mem_zip h).2

def chunkDocuments (tokens : Tokens) (max_tokens_per_chunk max_allowed_chunks : Nat) (pad_token : Int)
    (chunk_mapping : List Nat) : Except String (Tokens × List Nat) :=
  if max_tokens_per_chunk = 0 then .error "no space left for chunks"
  else if tokens.input_ids.rows.length ≠ tokens.attention_mask.rows.length ∨ tokens.input_ids.width ≠ tokens.attention_mask.width then
    .error "input_ids and attention_mask shapes do not match"
  else if tokens.input_ids.rows.length > max_allowed_chunks then
    .error ("exceeding max_allowed_chunks before chunking limit: " ++ toString max_allowed_chunks ++ "; actual: " ++
      toString tokens.input_ids.rows.length)
  else if tokens.input_ids.width ≤ max_tokens_per_chunk then .ok (tokens, List.range tokens.input_ids.rows.length)
  else if (counted max_tokens_per_chunk chunk_mapping tokens.attention_mask.rows).1.length > max_allowed_chunks then
    .error ("exceeding max_allowed_chunks after chunking limit: " ++ toString max_allowed_chunks ++ "; actual: " ++
      toString (counted max_tokens_per_chunk chunk_mapping tokens.attention_mask.rows).1.length)
  else
    .ok (⟨chunkTensor max_tokens_per_chunk pad_token chunk_mapping tokens.input_ids.rows tokens.attention_mask.rows,
      chunkTensor max_tokens_per_chunk 0 chunk_mapping tokens.attention_mask.rows tokens.attention_mask.rows⟩,
      (counted max_tokens_per_chunk chunk_mapping tokens.attention_mask.rows).1)

end ChunkDocuments

section RightPadding

/-- Documents in rows of one width. -/
structure RightPadded where
  width : Nat
  documents : List (List Int)
  fits : ∀ document ∈ documents, document.length ≤ width

def inputRow (width : Nat) (pad_token : Int) (document : List Int) : List Int := padTo width pad_token document

def maskRow (width : Nat) (document : List Int) : List Int := padTo width 0 (List.replicate document.length 1)

/-- The tokens of documents padded on the right: the pad token in the one tensor, zeros in the other. -/
def RightPadded.tokens (padded : RightPadded) (pad_token : Int) : Tokens where
  input_ids :=
    { width := padded.width
      rows := padded.documents.map (inputRow padded.width pad_token)
      rectangular := by
        intro row hrow
        obtain ⟨document, hdocument, rfl⟩ := List.mem_map.mp hrow
        exact padTo_length (padded.fits document hdocument) }
  attention_mask :=
    { width := padded.width
      rows := padded.documents.map (maskRow padded.width)
      rectangular := by
        intro row hrow
        obtain ⟨document, hdocument, rfl⟩ := List.mem_map.mp hrow
        exact padTo_length (by simpa using padded.fits document hdocument) }

/-- The chunks that a document is cut into. -/
def chunksOf (max_tokens_per_chunk : Nat) (document : List Int) : List (List Int) :=
  slices max_tokens_per_chunk (newChunks max_tokens_per_chunk document.length).length document

theorem tokenCount_maskRow (width : Nat) (document : List Int) : tokenCount (maskRow width document) = document.length := by
  rw [tokenCount, maskRow, idxOf_padTo (by simp [List.mem_replicate]), List.length_replicate]

theorem chunksOf_flatten {max_tokens_per_chunk : Nat} {document : List Int} (hroom : 0 < max_tokens_per_chunk) :
    (chunksOf max_tokens_per_chunk document).flatten = document := by
  rw [chunksOf, slices_flatten, List.take_of_length_le]
  by_cases hmany : document.length > max_tokens_per_chunk
  · rw [newChunks, if_pos hmany, List.length_map, List.length_range]
    exact le_roundUp_mul hroom
  · rw [newChunks, if_neg hmany, List.length_singleton]
    omega

theorem chunksOf_length (max_tokens_per_chunk : Nat) (document : List Int) :
    (chunksOf max_tokens_per_chunk document).length = (newChunks max_tokens_per_chunk document.length).length := by
  rw [chunksOf, slices, List.length_map, List.length_range]

theorem chunksOf_ne_nil {max_tokens_per_chunk : Nat} {document : List Int} (hroom : 0 < max_tokens_per_chunk) :
    chunksOf max_tokens_per_chunk document ≠ [] := by
  rw [← List.length_pos_iff_ne_nil, chunksOf_length]
  by_cases hmany : document.length > max_tokens_per_chunk
  · rw [newChunks, if_pos hmany, List.length_map, List.length_range]
    exact Nat.div_pos (by omega) hroom
  · rw [newChunks, if_neg hmany]
    exact Nat.one_pos

theorem chunk_length {max_tokens_per_chunk : Nat} {document chunk : List Int}
    (h : chunk ∈ chunksOf max_tokens_per_chunk document) : chunk.length ≤ min document.length max_tokens_per_chunk := by
  obtain ⟨j, -, rfl⟩ := List.mem_map.mp h
  rw [List.length_take, List.length_drop]
  omega

theorem subset_of_mem_chunksOf {max_tokens_per_chunk : Nat} {document chunk : List Int}
    (h : chunk ∈ chunksOf max_tokens_per_chunk document) : ∀ token ∈ chunk, token ∈ document := by
  obtain ⟨j, -, rfl⟩ := List.mem_map.mp h
  intro token htoken
  exact List.mem_of_mem_drop (List.mem_of_mem_take htoken)

/-- Within the document the padding is not copied. -/
theorem take_drop_padTo {width start size : Nat} {fill : Int} {document : List Int} (h : start + size ≤ document.length) :
    ((padTo width fill document).drop start).take size = (document.drop start).take size := by
  rw [padTo, List.drop_append_of_le_length (by omega), List.take_append_of_le_length]
  rw [List.length_drop]
  omega

theorem copied_chunks {max_tokens_per_chunk : Nat} (hroom : 0 < max_tokens_per_chunk) (width new_width : Nat) (pad_token : Int)
    (document : List Int) :
    (newChunks max_tokens_per_chunk document.length).map (copyChunk new_width pad_token (inputRow width pad_token document)) =
      (chunksOf max_tokens_per_chunk document).map (inputRow new_width pad_token) := by
  by_cases hmany : document.length > max_tokens_per_chunk
  · rw [chunksOf, newChunks, if_pos hmany, List.map_map, List.length_map, List.length_range, slices, List.map_map]
    refine List.map_congr_left fun j hj => ?_
    have hstart := mul_lt_of_lt_roundUp hroom (List.mem_range.mp hj)
    refine congrArg (padTo new_width pad_token) ?_
    show ((padTo width pad_token document).drop (j * max_tokens_per_chunk)).take
      (min (j * max_tokens_per_chunk + max_tokens_per_chunk) document.length - j * max_tokens_per_chunk) = _
    rw [take_drop_padTo (by omega), List.take_eq_take_iff, List.length_drop]
    omega
  · rw [chunksOf, newChunks, if_neg hmany]
    refine congrArg (fun chunk => [padTo new_width pad_token chunk]) ?_
    show ((padTo width pad_token document).drop 0).take document.length = (document.drop (0 * max_tokens_per_chunk)).take _
    rw [take_drop_padTo (by omega), Nat.zero_mul, List.drop_zero, List.take_length, List.take_of_length_le (by omega)]

/-- The first loop gives each chunk the number of its document. -/
theorem countChunks_labels (max_tokens_per_chunk width : Nat) (documents : List (List Int)) (first : Nat) (counted : List Nat × Nat) :
    (((documents.map (maskRow width)).zipIdx first).foldl (countChunks max_tokens_per_chunk) counted).1 =
      counted.1 ++ labels first (documents.map (chunksOf max_tokens_per_chunk)) := by
  induction documents generalizing first counted with
  | nil => simp [labels]
  | cons document documents ih =>
    rw [List.map_cons, List.zipIdx_cons, List.foldl_cons, ih, countChunks_mapping, List.map_cons, labels, List.append_assoc,
      tokenCount_maskRow, chunksOf_length]

theorem labels_singletons (documents : List (List Int)) (first : Nat) :
    labels first (documents.map fun document => [document]) = List.range' first documents.length := by
  induction documents generalizing first with
  | nil => rfl
  | cons document documents ih => rw [List.map_cons, labels, ih]; rfl

/-- What `chunkDocuments` returns for documents padded on the right: rows of some width, each with one chunk. -/
structure Chunked (max_tokens_per_chunk : Nat) (pad_token : Int) (documents : List (List Int)) (chunked : Tokens × List Nat) : Prop where
  room : 0 < max_tokens_per_chunk
  rows : chunked.1.input_ids.rows =
    (documents.map (chunksOf max_tokens_per_chunk)).flatten.map (inputRow chunked.1.input_ids.width pad_token)
  chunk_mapping : chunked.2 = labels 0 (documents.map (chunksOf max_tokens_per_chunk))

theorem copyChunks_rows {max_tokens_per_chunk : Nat} (hroom : 0 < max_tokens_per_chunk) (width new_width : Nat) (pad_token : Int)
    (documents : List (List Int)) :
    copyChunks max_tokens_per_chunk new_width pad_token
        ((documents.map (inputRow width pad_token)).zip (documents.map (maskRow width))) =
      (documents.map (chunksOf max_tokens_per_chunk)).flatten.map (inputRow new_width pad_token) := by
  induction documents with
  | nil => rfl
  | cons document documents ih =>
    simp only [List.map_cons, List.zip_cons_cons, List.flatten_cons, List.map_append]
    rw [← ih, ← copied_chunks hroom width, ← tokenCount_maskRow width document]
    rfl

theorem chunksOf_short {max_tokens_per_chunk : Nat} {document : List Int} (h : document.length ≤ max_tokens_per_chunk) :
    chunksOf max_tokens_per_chunk document = [document] := by
  rw [chunksOf, newChunks, if_neg (by omega)]
  show [(document.drop (0 * max_tokens_per_chunk)).take max_tokens_per_chunk] = [document]
  rw [Nat.zero_mul, List.drop_zero, List.take_of_length_le h]

theorem chunkDocuments_chunked {padded : RightPadded} {max_tokens_per_chunk max_allowed_chunks : Nat} {pad_token : Int}
    {chunked : Tokens × List Nat}
    (h : chunkDocuments (padded.tokens pad_token) max_tokens_per_chunk max_allowed_chunks pad_token [] = .ok chunked) :
    Chunked max_tokens_per_chunk pad_token padded.documents chunked := by
  by_cases hzero : max_tokens_per_chunk = 0
  · rw [chunkDocuments, if_pos hzero] at h
    cases h
  have hroom := Nat.pos_of_ne_zero hzero
  rw [chunkDocuments, if_neg hzero, if_neg (by simp [RightPadded.tokens])] at h
  split at h
  next => cases h
  next =>
    split at h
    next hnarrow =>
      -- the tensors of the tokenizer are returned: a chunk for each document
      cases h
      have hshort : padded.documents.map (chunksOf max_tokens_per_chunk) = padded.documents.map fun document => [document] :=
        List.map_congr_left fun document hdocument =>
          chunksOf_short (Nat.le_trans (padded.fits document hdocument) hnarrow)
      refine ⟨hroom, ?_, ?_⟩
      · rw [hshort, ← List.flatMap_def, List.flatMap_singleton']
        rfl
      · rw [hshort, labels_singletons, ← List.range_eq_range']
        exact congrArg List.range (List.length_map _)
    next hwide =>
      split at h
      next => cases h
      next =>
        cases h
        exact ⟨hroom, copyChunks_rows hroom _ _ _ _, countChunks_labels _ _ _ 0 ([], 0)⟩

end RightPadding

end ModelServer.Rerank
