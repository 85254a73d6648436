import ModelServer.RerankChunking

namespace ModelServer.Rerank

open Chunking

/-- The tokenizer of a session, for one text and for several. -/
structure Tokenizer where
  encode : String → Tokens
  encodeBatch : List String → Tokens

structure RerankHandler where
  query : String
  documentsList : List String

structure RerankCalculatorOV where
  bos_token : Int
  eos_token : Int
  sep_token : Int
  pad_token : Int
  max_position_embeddings : UInt64
  max_allowed_chunks : Nat
  addBosToken : Bool

def numberOfSpecialTokens : UInt64 := 4

def computeTokensForString (tokenizer : Tokenizer) (str : String) : Except String (List Int) :=
  match (tokenizer.encode str).input_ids.rows with
  | [row] => .ok row
  | _ => .error "input_ids should have 1 batch size"

namespace RerankCalculatorOV

variable (calculator : RerankCalculatorOV)

/-- `query_tokens` after the truncation to half of the context. -/
def truncateQuery (query_tokens : List Int) : List Int :=
  let max_query_tokens := (calculator.max_position_embeddings / 2).toNat
  if query_tokens.length > max_query_tokens then query_tokens.take max_query_tokens else query_tokens

/-- What the context leaves for a chunk, without a sign. -/
def maxTokensPerChunk (query_tokens : List Int) : Nat :=
  (calculator.max_position_embeddings - UInt64.ofNat query_tokens.length - numberOfSpecialTokens).toNat

/-- `BOS_TOKEN <QUERY TOKENS> EOS_TOKEN SEP_TOKEN <DOCUMENT TOKENS> EOS_TOKEN`: the row is filled up to its last cell,
and the last `EOS_TOKEN` is written where the first pad token of the document stands. -/
def combineIds (query_tokens row : List Int) : List Int :=
  ([calculator.bos_token] ++ query_tokens ++ [calculator.eos_token, calculator.sep_token] ++ row ++ [calculator.pad_token]).set
    (1 + query_tokens.length + 2 + row.idxOf calculator.pad_token) calculator.eos_token

def combineMask (query_tokens row : List Int) : List Int :=
  padTo (row.length + numberOfSpecialTokens.toNat + query_tokens.length) 0
    (List.replicate (1 + query_tokens.length + 2 + row.idxOf calculator.pad_token + 1) 1)

theorem combineIds_length (query_tokens row : List Int) :
    (calculator.combineIds query_tokens row).length = row.length + numberOfSpecialTokens.toNat + query_tokens.length := by
  show _ = row.length + 4 + query_tokens.length
  simp only [combineIds, List.length_set, List.length_append, List.length_cons, List.length_nil]
  omega

theorem combineMask_length (query_tokens row : List Int) :
    (calculator.combineMask query_tokens row).length = row.length + numberOfSpecialTokens.toNat + query_tokens.length := by
  refine padTo_length ?_
  show _ ≤ row.length + 4 + query_tokens.length
  have hle := List.idxOf_le_length (l := row) (a := calculator.pad_token)
  rw [List.length_replicate]
  omega

/-- The tensors of the model, row by row from those of the chunks. -/
def combine (query_tokens : List Int) (out_input_ids : TokenTensor) : Tokens where
  input_ids :=
    { width := out_input_ids.width + numberOfSpecialTokens.toNat + query_tokens.length
      rows := out_input_ids.rows.map (calculator.combineIds query_tokens)
      rectangular := by
        intro row hrow
        obtain ⟨chunk, hchunk, rfl⟩ := List.mem_map.mp hrow
        rw [combineIds_length, out_input_ids.rectangular chunk hchunk] }
  attention_mask :=
    { width := out_input_ids.width + numberOfSpecialTokens.toNat + query_tokens.length
      rows := out_input_ids.rows.map (calculator.combineMask query_tokens)
      rectangular := by
        intro row hrow
        obtain ⟨chunk, hchunk, rfl⟩ := List.mem_map.mp hrow
        rw [combineMask_length, out_input_ids.rectangular chunk hchunk] }

/-- The branch without a `BOS_TOKEN` of its own: the tokenizer joins the query and the document. -/
def prepareJoined (tokenizer : Tokenizer) (handler : RerankHandler) : Except String (Tokens × List Nat) :=
  let tokens := tokenizer.encodeBatch (handler.documentsList.map (handler.query ++ ·))
  if calculator.max_position_embeddings.toNat < tokens.input_ids.width then
    .error ("The requests length of " ++ toString tokens.input_ids.width ++ " tokens exceeds the model context of " ++
      toString calculator.max_position_embeddings)
  else .ok (tokens, List.range handler.documentsList.length)

/-- The query and the chunks of the documents, in one tensor. -/
def prepareCombined (query_tokens : List Int) (chunked : Tokens × List Nat) : Except String (Tokens × List Nat) :=
  let out_input_ids := chunked.1.input_ids
  if out_input_ids.width > calculator.maxTokensPerChunk query_tokens then
    .error "tokens_count_of_longest_document exceeds max_tokens_per_chunk"
  else if out_input_ids.rows.length ≠ chunked.2.length then .error "error"
  else if out_input_ids.width + numberOfSpecialTokens.toNat + query_tokens.length > calculator.max_position_embeddings.toNat then
    .error "Query tokens count + special tokens + tokens count of longest document exceeds max_position_embeddings"
  else .ok (calculator.combine query_tokens out_input_ids, chunked.2)

def prepareInputsForRerankModel (tokenizer : Tokenizer) (handler : RerankHandler) : Except String (Tokens × List Nat) :=
  if handler.documentsList.length > calculator.max_allowed_chunks then .error "Number of documents exceeds max_allowed_chunks"
  else if !calculator.addBosToken then calculator.prepareJoined tokenizer handler
  else match computeTokensForString tokenizer handler.query with
    | .error message => .error message
    | .ok tokens =>
      let query_tokens := calculator.truncateQuery tokens
      match chunkDocuments (tokenizer.encodeBatch handler.documentsList) (calculator.maxTokensPerChunk query_tokens)
          calculator.max_allowed_chunks calculator.pad_token [] with
      | .error message => .error ("Chunking failed: " ++ message)
      | .ok chunked => calculator.prepareCombined query_tokens chunked

section Rows

/-- The tokens of a row that are attended. -/
def attended (query_tokens chunk : List Int) : List Int :=
  [calculator.bos_token] ++ query_tokens ++ [calculator.eos_token, calculator.sep_token] ++ chunk ++ [calculator.eos_token]

theorem attended_length (query_tokens chunk : List Int) :
    (calculator.attended query_tokens chunk).length = 1 + query_tokens.length + 2 + chunk.length + 1 := by
  simp only [attended, List.length_append, List.length_cons, List.length_nil]

variable {calculator}

theorem combineIds_chunk {width : Nat} {query_tokens chunk : List Int} (hfits : chunk.length ≤ width)
    (hpad : calculator.pad_token ∉ chunk) :
    calculator.combineIds query_tokens (padTo width calculator.pad_token chunk) =
      padTo (width + numberOfSpecialTokens.toNat + query_tokens.length) calculator.pad_token
        (calculator.attended query_tokens chunk) := by
  have hfront : ([calculator.bos_token] ++ query_tokens ++ [calculator.eos_token, calculator.sep_token] ++ chunk).length =
      1 + query_tokens.length + 2 + chunk.length := by
    simp only [List.length_append, List.length_cons, List.length_nil]
  have hfilled : List.replicate (width - chunk.length) calculator.pad_token ++ [calculator.pad_token] =
      calculator.pad_token :: List.replicate (width - chunk.length) calculator.pad_token := by
    rw [← List.replicate_succ', List.replicate_succ]
  have hrest : width + numberOfSpecialTokens.toNat + query_tokens.length - (calculator.attended query_tokens chunk).length =
      width - chunk.length := by
    rw [attended_length]
    show width + 4 + query_tokens.length - _ = _
    omega
  rw [combineIds, idxOf_padTo hpad, ← hfront, padTo, padTo, hrest, ← List.append_assoc, List.append_assoc _ _ [calculator.pad_token],
    hfilled, List.set_append_right _ _ (Nat.le_refl _), Nat.sub_self, List.set_cons_zero, attended, List.append_assoc _ [_]]
  rfl

theorem combineMask_chunk {width : Nat} {query_tokens chunk : List Int} (hfits : chunk.length ≤ width)
    (hpad : calculator.pad_token ∉ chunk) :
    calculator.combineMask query_tokens (padTo width calculator.pad_token chunk) =
      padTo (width + numberOfSpecialTokens.toNat + query_tokens.length) 0
        (List.replicate (calculator.attended query_tokens chunk).length 1) := by
  rw [combineMask, idxOf_padTo hpad, padTo_length hfits, attended_length]

/-- Whatever a row attends to ends before the first pad token of its document. -/
theorem chunk_of_combined {width : Nat} {query_tokens row chunk : List Int}
    (hids : calculator.combineIds query_tokens row = padTo width calculator.pad_token (calculator.attended query_tokens chunk))
    (hmask : calculator.combineMask query_tokens row = padTo width 0 (List.replicate (calculator.attended query_tokens chunk).length 1))
    (hwidth : width = row.length + numberOfSpecialTokens.toNat + query_tokens.length) :
    chunk = row.take (row.idxOf calculator.pad_token) := by
  have hlength := padTo_replicate_inj (by decide) (hwidth ▸ hmask)
  rw [attended_length] at hlength
  have hindex : row.idxOf calculator.pad_token = chunk.length := by omega
  have hfits : chunk.length ≤ row.length := hindex ▸ List.idxOf_le_length
  have hfront : ([calculator.bos_token] ++ query_tokens ++ [calculator.eos_token, calculator.sep_token]).length =
      1 + query_tokens.length + 2 := by
    simp only [List.length_append, List.length_cons, List.length_nil]
  have hleft : (calculator.combineIds query_tokens row).take (1 + query_tokens.length + 2 + chunk.length) =
      [calculator.bos_token] ++ query_tokens ++ [calculator.eos_token, calculator.sep_token] ++ row.take chunk.length := by
    rw [combineIds, hindex, List.take_set_of_le (Nat.le_refl _), ← hfront, List.append_assoc _ row, List.take_length_add_append,
      List.take_append_of_le_length hfits]
  have hright : (padTo width calculator.pad_token (calculator.attended query_tokens chunk)).take
      (1 + query_tokens.length + 2 + chunk.length) =
        [calculator.bos_token] ++ query_tokens ++ [calculator.eos_token, calculator.sep_token] ++ chunk := by
    rw [padTo, attended, List.append_assoc, List.append_assoc, ← hfront, List.take_length_add_append, List.take_left]
  rw [hindex]
  exact List.append_cancel_left (hright.symm.trans ((congrArg _ hids.symm).trans hleft))

end Rows

section Documents

/-- The rows attend to the documents: each to the query and to one chunk, and the chunks of a document are the document. -/
structure AttendsDocuments (query_tokens : List Int) (documents : List (List Int)) (prepared : Tokens × List Nat)
    (chunks : List (List Int)) : Prop where
  in_context : prepared.1.input_ids.width ≤ calculator.max_position_embeddings.toNat
  input_ids : prepared.1.input_ids.rows = chunks.map fun chunk =>
    padTo prepared.1.input_ids.width calculator.pad_token (calculator.attended query_tokens chunk)
  attention_mask : prepared.1.attention_mask.rows = chunks.map fun chunk =>
    padTo prepared.1.input_ids.width 0 (List.replicate (calculator.attended query_tokens chunk).length 1)
  mapped : prepared.2.length = chunks.length
  nondecreasing : prepared.2.Pairwise (· ≤ ·)
  of_document : ∀ i ∈ prepared.2, i < documents.length
  documents : ∀ i (hi : i < documents.length), i ∈ prepared.2 ∧ (labelled i prepared.2 chunks).flatten = documents[i]

variable {calculator}

theorem truncateQuery_eq (query_tokens : List Int) :
    calculator.truncateQuery query_tokens = query_tokens.take (calculator.max_position_embeddings.toNat / 2) := by
  have hhalf : (calculator.max_position_embeddings / 2).toNat = calculator.max_position_embeddings.toNat / 2 := by
    rw [UInt64.toNat_div]
    rfl
  rw [truncateQuery, hhalf]
  split
  next => rfl
  next hshort => rw [List.take_of_length_le (Nat.le_of_not_lt hshort)]

theorem prepared_inv {tokenizer : Tokenizer} {handler : RerankHandler} {query_tokens : List Int} {padded : RightPadded}
    {prepared : Tokens × List Nat} (hbos : calculator.addBosToken = true)
    (hquery : computeTokensForString tokenizer handler.query = .ok query_tokens)
    (hdocuments : tokenizer.encodeBatch handler.documentsList = padded.tokens calculator.pad_token)
    (h : calculator.prepareInputsForRerankModel tokenizer handler = .ok prepared) :
    ∃ max_tokens_per_chunk chunked, Chunked max_tokens_per_chunk calculator.pad_token padded.documents chunked ∧
      prepared = (calculator.combine (calculator.truncateQuery query_tokens) chunked.1.input_ids, chunked.2) ∧
      prepared.1.input_ids.width ≤ calculator.max_position_embeddings.toNat := by
  unfold prepareInputsForRerankModel at h
  split at h
  next => cases h
  next =>
    rw [hbos, hquery, hdocuments] at h
    simp only [Bool.not_true, Bool.false_eq_true, if_false] at h
    split at h
    next => cases h
    next chunked hchunked =>
      refine ⟨_, chunked, chunkDocuments_chunked hchunked, ?_⟩
      unfold prepareCombined at h
      dsimp only at h
      split at h
      next => cases h
      next =>
        split at h
        next => cases h
        next =>
          split at h
          next => cases h
          next hcontext =>
            cases h
            exact ⟨rfl, Nat.le_of_not_lt hcontext⟩

/-- When no document has the pad token, its chunks are attended. -/
theorem attends_chunks {query_tokens : List Int} {documents : List (List Int)} {max_tokens_per_chunk : Nat} {chunked : Tokens × List Nat}
    (hchunked : Chunked max_tokens_per_chunk calculator.pad_token documents chunked)
    (hcontext : (calculator.combine query_tokens chunked.1.input_ids).input_ids.width ≤ calculator.max_position_embeddings.toNat)
    (hpad : ∀ document ∈ documents, calculator.pad_token ∉ document) :
    calculator.AttendsDocuments query_tokens documents (calculator.combine query_tokens chunked.1.input_ids, chunked.2)
      (documents.map (chunksOf max_tokens_per_chunk)).flatten := by
  have hchunk : ∀ chunk ∈ (documents.map (chunksOf max_tokens_per_chunk)).flatten,
      chunk.length ≤ chunked.1.input_ids.width ∧ calculator.pad_token ∉ chunk := by
    intro chunk hmem
    obtain ⟨document, hdocument, hof⟩ := List.mem_flatMap.mp (List.flatMap_def ▸ hmem)
    refine ⟨?_, fun h => hpad document hdocument (subset_of_mem_chunksOf hof _ h)⟩
    have hrow := chunked.1.input_ids.rectangular _ (hchunked.rows ▸ List.mem_map_of_mem hmem)
    rw [inputRow, padTo, List.length_append] at hrow
    omega
  refine ⟨hcontext, ?_, ?_, ?_, ?_, ?_, ?_⟩
  · show chunked.1.input_ids.rows.map (calculator.combineIds query_tokens) = _
    rw [hchunked.rows, List.map_map]
    exact List.map_congr_left fun chunk hmem => combineIds_chunk (hchunk chunk hmem).1 (hchunk chunk hmem).2
  · show chunked.1.input_ids.rows.map (calculator.combineMask query_tokens) = _
    rw [hchunked.rows, List.map_map]
    exact List.map_congr_left fun chunk hmem => combineMask_chunk (hchunk chunk hmem).1 (hchunk chunk hmem).2
  · show chunked.2.length = _
    rw [hchunked.chunk_mapping, labels_length]
  · show chunked.2.Pairwise (· ≤ ·)
    rw [hchunked.chunk_mapping]
    exact labels_pairwise 0 _
  · show ∀ i ∈ chunked.2, i < documents.length
    rw [hchunked.chunk_mapping]
    intro i hi
    have hbound := (le_of_mem_labels hi).2
    rwa [List.length_map, Nat.zero_add] at hbound
  · show ∀ i (hi : i < documents.length), i ∈ chunked.2 ∧ (labelled i chunked.2 _).flatten = documents[i]
    intro i hi
    rw [hchunked.chunk_mapping]
    have hgroup : i < (documents.map (chunksOf max_tokens_per_chunk)).length := by rwa [List.length_map]
    have hmem := mem_labels 0 hgroup (by rw [List.getElem_map]; exact chunksOf_ne_nil hchunked.room)
    have hlabelled := labelled_labels 0 hgroup
    rw [Nat.zero_add] at hmem hlabelled
    rw [hlabelled, List.getElem_map, chunksOf_flatten hchunked.room]
    exact ⟨hmem, rfl⟩

/-- Each attended chunk ends before the first pad token of its row. -/
theorem pad_notMem_chunks {query_tokens : List Int} {documents chunks : List (List Int)} {out_input_ids : TokenTensor}
    {chunk_mapping : List Nat}
    (h : calculator.AttendsDocuments query_tokens documents (calculator.combine query_tokens out_input_ids, chunk_mapping) chunks) :
    ∀ chunk ∈ chunks, calculator.pad_token ∉ chunk := by
  intro chunk hmem
  obtain ⟨k, hk, rfl⟩ := List.mem_iff_getElem.mp hmem
  have hrows : (out_input_ids.rows.map (calculator.combineIds query_tokens)).length = _ := congrArg List.length h.input_ids
  rw [List.length_map, List.length_map] at hrows
  have hrow : k < out_input_ids.rows.length := hrows ▸ hk
  have hids := List.getElem_of_eq h.input_ids (i := k) (by rwa [combine, List.length_map])
  have hmask := List.getElem_of_eq h.attention_mask (i := k) (by rwa [combine, List.length_map])
  simp only [combine, List.getElem_map] at hids hmask
  have hwidth := out_input_ids.rectangular _ (List.getElem_mem hrow)
  rw [chunk_of_combined hids hmask (by rw [hwidth])]
  exact notMem_take_idxOf _ _

theorem pad_notMem_documents {query_tokens : List Int} {documents chunks : List (List Int)} {out_input_ids : TokenTensor}
    {chunk_mapping : List Nat}
    (h : calculator.AttendsDocuments query_tokens documents (calculator.combine query_tokens out_input_ids, chunk_mapping) chunks) :
    ∀ document ∈ documents, calculator.pad_token ∉ document := by
  intro document hdocument hpad
  obtain ⟨i, hi, rfl⟩ := List.mem_iff_getElem.mp hdocument
  rw [← (h.documents i hi).2] at hpad
  obtain ⟨chunk, hchunk, hmem⟩ := List.mem_flatten.mp hpad
  refine pad_notMem_chunks h chunk ?_ hmem
  obtain ⟨p, hp, rfl⟩ := List.mem_map.mp hchunk
  exact (List.of_mem_zip (List.mem_of_mem_filter hp)).2

theorem prepareInputsForRerankModel_attends {tokenizer : Tokenizer} {handler : RerankHandler} {query_tokens : List Int}
    {padded : RightPadded} {prepared : Tokens × List Nat} (hbos : calculator.addBosToken = true)
    (hquery : computeTokensForString tokenizer handler.query = .ok query_tokens)
    (hdocuments : tokenizer.encodeBatch handler.documentsList = padded.tokens calculator.pad_token)
    (h : calculator.prepareInputsForRerankModel tokenizer handler = .ok prepared) :
    (∃ chunks, calculator.AttendsDocuments (query_tokens.take (calculator.max_position_embeddings.toNat / 2)) padded.documents
      prepared chunks) ↔ ∀ document ∈ padded.documents, calculator.pad_token ∉ document := by
  obtain ⟨max_tokens_per_chunk, chunked, hchunked, rfl, hcontext⟩ := prepared_inv hbos hquery hdocuments h
  rw [← truncateQuery_eq]
  constructor
  · intro ⟨chunks, hattends⟩
    exact pad_notMem_documents hattends
  · intro hpad
    exact ⟨_, attends_chunks hchunked hcontext hpad⟩

/-- A tokenizer with one answer for a text and one for several. -/
def answering (query_tokens : List Int) (padded : RightPadded) (pad_token : Int) : Tokenizer where
  encode := fun _ => RightPadded.tokens ⟨query_tokens.length, [query_tokens], by simp⟩ pad_token
  encodeBatch := fun _ => padded.tokens pad_token

def smallCalculator : RerankCalculatorOV := ⟨0, 2, 2, 1, 9, 8, true⟩

def longAndShort : RightPadded := ⟨5, [[7, 8, 9, 10, 11], [12]], by decide⟩

def padWithin : RightPadded := ⟨3, [[7, 1, 8]], by decide⟩

theorem prepareInputsForRerankModel_attends_small : ∃ prepared,
    smallCalculator.prepareInputsForRerankModel (answering [5] longAndShort 1) ⟨"q", ["a", "b"]⟩ = .ok prepared ∧
      prepared.2 = [0, 0, 1] ∧ ∃ chunks, smallCalculator.AttendsDocuments ([5].take 4) longAndShort.documents prepared chunks := by
  have hquery : computeTokensForString (answering [5] longAndShort 1) "q" = .ok [5] := rfl
  have hdocuments : (answering [5] longAndShort 1).encodeBatch ["a", "b"] = longAndShort.tokens smallCalculator.pad_token := rfl
  obtain ⟨prepared, hprepared, hmapping⟩ : ∃ prepared,
      smallCalculator.prepareInputsForRerankModel (answering [5] longAndShort 1) ⟨"q", ["a", "b"]⟩ = .ok prepared ∧
        prepared.2 = [0, 0, 1] := ⟨_, rfl, rfl⟩
  exact ⟨prepared, hprepared, hmapping, (prepareInputsForRerankModel_attends rfl hquery hdocuments hprepared).mpr (by decide)⟩

/-- The text of the pad token in a document cuts it. -/
theorem pad_token_cuts : ¬ ∀ (calculator : RerankCalculatorOV) (tokenizer : Tokenizer) (handler : RerankHandler)
    (query_tokens : List Int) (padded : RightPadded) (prepared : Tokens × List Nat), calculator.addBosToken = true →
    8 < calculator.max_position_embeddings.toNat → computeTokensForString tokenizer handler.query = .ok query_tokens →
    tokenizer.encodeBatch handler.documentsList = padded.tokens calculator.pad_token →
    calculator.prepareInputsForRerankModel tokenizer handler = .ok prepared →
    ∃ chunks, calculator.AttendsDocuments (query_tokens.take (calculator.max_position_embeddings.toNat / 2)) padded.documents
      prepared chunks := by
  intro h
  obtain ⟨chunks, hattends⟩ := h smallCalculator (answering [5] padWithin 1) ⟨"q", ["a"]⟩ [5] padWithin _ rfl (by decide) rfl rfl rfl
  exact pad_notMem_documents hattends [7, 1, 8] (by decide) (by decide)

end Documents

end RerankCalculatorOV

end ModelServer.Rerank
