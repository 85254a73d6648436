import ModelServer.CallArrayRuns

/-! Where the parsers of Mistral and Phi4 cut the array of calls. -/

namespace ModelServer.CallArrayParser

section Characters

/-- A chunk of one character: a byte, or bytes beyond ASCII. -/
def IsCharacter (chunk : Str) : Prop := (∃ c, chunk = [c]) ∨ (chunk ≠ [] ∧ ∀ c ∈ chunk, 128 ≤ c)

/-- A text in chunks of one character each. -/
structure OneByOne (text : Str) (chunks : List Str) : Prop where
  whole : chunks.flatten = text
  characters : ∀ chunk ∈ chunks, IsCharacter chunk

def singles (text : Str) : List Str := text.map fun c => [c]

theorem IsCharacter.nonempty {chunk : Str} (h : IsCharacter chunk) : chunk ≠ [] := by
  rcases h with ⟨c, rfl⟩ | h
  · exact List.cons_ne_nil _ _
  · exact h.1

/-- A byte of ASCII that comes first is a chunk. -/
theorem OneByOne.first {c : Byte} {text : Str} {chunks : List Str} (h : OneByOne (c :: text) chunks) (hc : c < 128) :
    ∃ later, chunks = [c] :: later ∧ OneByOne text later := by
  obtain ⟨hwhole, hcharacters⟩ := h
  cases chunks with
  | nil => cases hwhole
  | cons chunk later =>
    have hlater : ∀ chunk ∈ later, IsCharacter chunk := fun x hx => hcharacters x (List.mem_cons_of_mem chunk hx)
    rcases hcharacters chunk List.mem_cons_self with ⟨d, rfl⟩ | ⟨hne, hhigh⟩
    · obtain ⟨rfl, hrest⟩ := List.cons.inj hwhole
      exact ⟨later, rfl, hrest, hlater⟩
    · cases chunk with
      | nil => exact absurd rfl hne
      | cons d chunk =>
        obtain ⟨rfl, -⟩ := List.cons.inj hwhole
        exact absurd hc (UInt8.not_lt.mpr (hhigh d List.mem_cons_self))

theorem OneByOne.ascii {text rest : Str} {chunks : List Str} (h : OneByOne (text ++ rest) chunks) (htext : ∀ c ∈ text, c < 128) :
    ∃ later, chunks = singles text ++ later ∧ OneByOne rest later := by
  induction text generalizing chunks with
  | nil => exact ⟨chunks, rfl, h⟩
  | cons c text ih =>
    obtain ⟨later, rfl, hlater⟩ := h.first (htext c List.mem_cons_self)
    obtain ⟨rest, rfl, hrest⟩ := ih hlater fun d hd => htext d (List.mem_cons_of_mem c hd)
    exact ⟨rest, rfl, hrest⟩

/-- The chunks in front of a byte of ASCII. -/
theorem OneByOne.before {c : Byte} {text rest : Str} {chunks : List Str} (h : OneByOne (text ++ c :: rest) chunks) (hc : c < 128) :
    ∃ before later, chunks = before ++ [c] :: later ∧ OneByOne text before ∧ OneByOne rest later := by
  induction chunks generalizing text with
  | nil =>
    have hnil : [] = text ++ c :: rest := h.whole
    cases text with
    | nil => cases hnil
    | cons d text => cases hnil
  | cons chunk chunks ih =>
    cases text with
    | nil =>
      obtain ⟨later, hchunks, hlater⟩ := h.first hc
      exact ⟨[], later, hchunks, ⟨rfl, fun _ hx => absurd hx List.not_mem_nil⟩, hlater⟩
    | cons d text =>
      obtain ⟨hwhole, hcharacters⟩ := h
      have hchunk := hcharacters chunk List.mem_cons_self
      have hchunks : ∀ chunk ∈ chunks, IsCharacter chunk := fun x hx => hcharacters x (List.mem_cons_of_mem chunk hx)
      -- the chunk is a beginning of the text, since the byte behind the text is not in it
      have hpart : ∃ left, d :: text = chunk ++ left ∧ chunks.flatten = left ++ c :: rest := by
        rcases List.append_eq_append_iff.mp hwhole with ⟨left, htext, hflatten⟩ | ⟨excess, hover, hflatten⟩
        · exact ⟨left, htext, hflatten⟩
        · cases excess with
          | nil =>
            rw [List.append_nil] at hover
            rw [List.nil_append] at hflatten
            exact ⟨[], by rw [List.append_nil, hover], hflatten.symm⟩
          | cons e excess =>
            obtain ⟨rfl, -⟩ := List.cons.inj hflatten
            rcases hchunk with ⟨x, hx⟩ | ⟨-, hhigh⟩
            · rw [hover] at hx
              cases text with
              | nil => cases hx
              | cons y text => cases hx
            · have hmem : c ∈ chunk := by
                rw [hover]
                exact List.mem_append_right _ List.mem_cons_self
              exact absurd hc (UInt8.not_lt.mpr (hhigh c hmem))
      obtain ⟨left, htext, hflatten⟩ := hpart
      obtain ⟨before, later, rfl, hbefore, hlater⟩ := ih ⟨hflatten, hchunks⟩
      refine ⟨chunk :: before, later, rfl, ⟨?_, ?_⟩, hlater⟩
      · rw [htext, List.flatten_cons, hbefore.whole]
      · intro x hx
        rcases List.mem_cons.mp hx with rfl | hx
        · exact hchunk
        · exact hbefore.characters x hx

end Characters

section Runs

variable {rj : RapidJson} {ids : RandomIds} {dialect : Dialect} {startTag : Str} {p : CallArrayParser} {index : Int} {drawn : Nat}

variable (rj ids dialect) in
/-- A silent run through states that each character only extends. -/
theorem parseChunks_growing (state : Str → CallArrayParser) (allowed : Str → Prop)
    (hstep : ∀ text c, allowed (text ++ [c]) → parseChunkIn rj ids dialect (state text) [c] .none 4 = some (none, state (text ++ [c])))
    (text rest : Str) (hrest : ∀ used, used <+: rest → allowed (text ++ used)) (later : List Str) :
    parseChunks rj ids dialect (state text) (singles rest ++ later) = parseChunks rj ids dialect (state (text ++ rest)) later := by
  induction rest generalizing text with
  | nil => rw [List.append_nil]; rfl
  | cons c rest ih =>
    have hfirst := hstep text c (hrest [c] (List.prefix_append [c] rest))
    have hlater := ih (text ++ [c]) fun used hused => by
      rw [List.append_assoc]
      exact hrest (c :: used) (List.cons_prefix_cons.mpr ⟨rfl, hused⟩)
    show parseChunks rj ids dialect (state text) ([c] :: (singles rest ++ later)) = _
    rw [parseChunks_silent hfirst, hlater, List.append_assoc]
    rfl

/-- Between two calls, or before the first one. -/
structure Between (p : CallArrayParser) : Prop where
  state : p.internalState = .awaitingToolCallOpeningBrace
  buffer : p.unprocessedBuffer = []

variable (hfollows : dialect.Follows startTag)
include hfollows

variable (rj ids) in
/-- Nothing but a brace is noticed between calls. -/
theorem parse_separator (h : Between p) {c : Byte} (hc : c ≠ 123) : parseChunkIn rj ids dialect p [c] .none 4 = some (none, p) := by
  refine parse_between (Comes.single hfollows h.buffer c) 3 h.state ?_
  have hprefix : (bytes "\x7b").isPrefixOf [c] = false := by
    show ((123 : Byte) == c && _) = false
    rw [beq_false_of_ne (Ne.symm hc), Bool.false_and]
  rw [find, List.drop_zero, Occurrence.indexOf?, hprefix]
  rfl

theorem parse_callOpen (h : Between p) : parseChunkIn rj ids dialect p [123] .none 4 =
    some (none, header (p.toolCallIndex + 1) (.obj []) (.opening [123]) p.drawnIds) := by
  obtain ⟨lastJson, hcleared, hlast⟩ : ∃ lastJson, ({ p with internalState := .processingToolCall } : CallArrayParser).clearState =
      header (p.toolCallIndex + 1) lastJson {} p.drawnIds ∧ hasArguments lastJson = false := by
    obtain ⟨state, lastJson, builder, index, opened, buffer, count, drawn⟩ := p
    obtain ⟨hstate, hbuffer⟩ := h
    cases hbuffer
    refine ⟨_, rfl, ?_⟩
    cases lastJson with
    | null => rfl
    | bool b => rfl
    | num token => rfl
    | str s => rfl
    | arr items => rfl
    | obj members => rfl
  have hat : find [123] (bytes "\x7b") 0 = some 0 := rfl
  rw [parse_brace (Comes.single hfollows h.buffer 123) 3 h.state hat, hcleared, List.drop_zero,
    parse_call (Comes.single hfollows rfl 123) 2 rfl,
    process_eq (prepare_header hlast (by decide)) (PartialJsonBuilder.add_opening rj (k := 0) (by decide)), publish_header hlast rfl]
  rfl

/-- The text of a call up to its arguments. -/
def callStart (name : Str) : Str := PartialJsonBuilder.argumentsOpen name ++ [32]

theorem parse_nameKey {text : Str} {c : Byte} (h : text ++ [c] <+: PartialJsonBuilder.nameKey) :
    parseChunkIn rj ids dialect (header index (.obj []) (.opening text) drawn) [c] .none 4 =
      some (none, header index (.obj []) (.opening (text ++ [c])) drawn) := by
  obtain ⟨rest, hrest⟩ := h
  rw [List.append_assoc] at hrest
  have hlength : text.length + (1 + rest.length) = 7 := by
    have hlength := congrArg List.length hrest
    rw [List.length_append, List.length_append] at hlength
    exact hlength
  have htext : PartialJsonBuilder.nameKey.take text.length = text := by rw [← hrest, List.take_left]
  have hbyte : PartialJsonBuilder.nameKey.getD text.length 0 = c := by
    rw [← hrest, List.getD_eq_getElem?_getD, List.getElem?_append_right (Nat.le_refl _), Nat.sub_self]
    rfl
  have hnext : PartialJsonBuilder.nameKey.take (text.length + 1) = text ++ [c] := by
    rw [← hrest, List.take_length_add_append]
    rfl
  have hadd := PartialJsonBuilder.add_opening rj (k := text.length) (by omega)
  rw [htext, hbyte, hnext] at hadd
  have hline : c ≠ 10 := by
    have hall : PartialJsonBuilder.nameKey.all (fun c => c != 10) = true := by decide
    have hmem : c ∈ PartialJsonBuilder.nameKey := by
      rw [← hrest]
      exact List.mem_append_right _ List.mem_cons_self
    exact bne_iff_ne.mp (List.all_eq_true.mp hall c hmem)
  exact parse_header hfollows hline rfl rfl hadd

variable {number : Str → Option Str} (hrj : rj.Conforms number) {name : Str} (hname : ∀ c ∈ name, isWordChar c = true)
include hrj hname

/-- The text of a call up to its arguments tells the name. -/
theorem parse_callStart (h : Between p) (later : List Str) :
    parseChunks rj ids dialect p (singles (callStart name) ++ later) =
      (parseChunks rj ids dialect (collectingCall (p.toolCallIndex + 1) name [] 1 (p.drawnIds + 1)) later).map fun read =>
        (.toolCall ⟨p.toolCallIndex + 1, some (ids.draw p.drawnIds), some name, []⟩ :: read.1, read.2) := by
  have hparts : singles (callStart name) ++ later = [123] :: (singles PartialJsonBuilder.nameKey.tail ++ [58] :: [32] :: [34] ::
      (singles name ++ [34] :: [44] :: (singles (bytes " \"arguments\"") ++ [58] :: [32] :: later))) := by
    have hstart : callStart name = 123 :: (PartialJsonBuilder.nameKey.tail ++ 58 :: 32 :: 34 ::
        (name ++ 34 :: 44 :: (bytes " \"arguments\"" ++ [58, 32]))) := by
      have hopen : bytes "\x7b\"name\": \"" = 123 :: (PartialJsonBuilder.nameKey.tail ++ [58, 32, 34]) := rfl
      have harguments : bytes ", \"arguments\":" = 44 :: (bytes " \"arguments\"" ++ [58]) := rfl
      rw [callStart, PartialJsonBuilder.argumentsOpen, PartialJsonBuilder.nameText, hopen, harguments]
      simp only [List.append_assoc, List.cons_append, List.nil_append]
    rw [hstart]
    simp only [singles, List.map_cons, List.map_append, List.map_nil, List.append_assoc, List.cons_append, List.nil_append]
  have hkey := parseChunks_growing rj ids dialect
    (fun text => header (p.toolCallIndex + 1) (.obj []) (.opening text) p.drawnIds) (· <+: PartialJsonBuilder.nameKey)
    (fun text c h => parse_nameKey hfollows h) [123] PartialJsonBuilder.nameKey.tail
    (fun used hused => List.cons_prefix_cons.mpr ⟨rfl, hused⟩)
  have hnamed := parseChunks_growing rj ids dialect
    (fun text => header (p.toolCallIndex + 1) (.obj [(bytes "name", .str text)]) (.naming text) p.drawnIds)
    (fun text => ∀ c ∈ text, isWordChar c = true) (fun text c h => by
      have hc := h c (List.mem_append_right _ List.mem_cons_self)
      exact parse_header hfollows (ne_of_isWordChar hc (by decide)) rfl rfl
        (PartialJsonBuilder.add_naming hrj (fun d hd => h d (List.mem_append_left _ hd)) hc))
    [] name (fun used hused c hc => hname c (hused.subset hc))
  have hkeyed := parseChunks_growing rj ids dialect
    (fun text => header (p.toolCallIndex + 1) (.obj [(bytes "name", .str name)]) (.keyed name text) p.drawnIds)
    (· <+: bytes " \"arguments\"") (fun text c h => by
      have hall : (bytes " \"arguments\"").all (fun c => c != 10) = true := by decide
      have hline := bne_iff_ne.mp (List.all_eq_true.mp hall c (h.subset (List.mem_append_right _ List.mem_cons_self)))
      exact parse_header hfollows hline rfl rfl (PartialJsonBuilder.add_keyed hrj hname h))
    [] (bytes " \"arguments\"") (fun used hused => hused)
  have htail : [123] ++ PartialJsonBuilder.nameKey.tail = PartialJsonBuilder.nameKey := rfl
  rw [htail] at hkey
  rw [List.nil_append] at hnamed hkeyed
  rw [hparts, parseChunks_silent (parse_callOpen hfollows h), hkey,
    parseChunks_silent (parse_header hfollows (by decide) rfl rfl (PartialJsonBuilder.add_nameColon hrj)),
    parseChunks_silent (parse_header hfollows (by decide) rfl rfl (PartialJsonBuilder.add_nameBlank hrj)),
    parseChunks_silent (parse_header hfollows (by decide) rfl rfl (PartialJsonBuilder.add_nameQuote hrj)), hnamed,
    parseChunks_silent (parse_header hfollows (by decide) rfl rfl (PartialJsonBuilder.add_named hrj hname)),
    parseChunks_silent (parse_header hfollows (by decide) rfl rfl (PartialJsonBuilder.add_comma hrj hname)), hkeyed,
    parseChunks_told (parse_told hfollows hrj hname), parseChunks_silent (parse_argumentsOpen hfollows hrj hname)]

end Runs

section Braces

/-- Every brace counts, in strings too: none is closed that is not open, and all are closed in the end. -/
structure Balanced (text : Str) : Prop where
  opened : ∀ beginning, beginning <+: text → beginning.count 125 ≤ beginning.count 123
  closed : text.count 125 = text.count 123

/-- With this many braces open before it, a text never closes the last one. -/
def StaysOpen (count : Nat) (text : Str) : Prop := ∀ beginning, beginning <+: text → beginning.count 125 < count + beginning.count 123

theorem StaysOpen.append {count : Nat} {text later : Str} (h : StaysOpen count (text ++ later)) :
    StaysOpen (count + text.count 123 - text.count 125) later := by
  intro beginning hbeginning
  have htext := h text (List.prefix_append text later)
  have hboth := h (text ++ beginning) ((List.prefix_append_right_inj text).mpr hbeginning)
  rw [List.count_append, List.count_append] at hboth
  omega

theorem escape_brace {c : Byte} (hc : c = 123 ∨ c = 125) : escapeSpecialCharacters [c] = [c] := by
  rcases hc with rfl | rfl
  · rfl
  · rfl

/-- What is no brace does not count. -/
theorem updateOpenBracesCount_none {count : Nat} {text : Str} (h : ∀ c ∈ text, c ≠ 123 ∧ c ≠ 125) :
    updateOpenBracesCount count text = count := by
  induction text with
  | nil => rfl
  | cons c text ih =>
    obtain ⟨hopening, hclosing⟩ := h c List.mem_cons_self
    rw [updateOpenBracesCount, if_neg (show ¬c = char '\x7b' from hopening), if_neg (show ¬c = char '\x7d' from hclosing),
      ih fun d hd => h d (List.mem_cons_of_mem c hd)]

theorem escapeSpecialCharacter_braceless {c : Byte} (hopening : c ≠ 123) (hclosing : c ≠ 125) :
    ∀ d ∈ escapeSpecialCharacter c, d ≠ 123 ∧ d ≠ 125 := by
  have hbytes {text : Str} (h : text.all (fun d => d != 123 && d != 125) = true) : ∀ d ∈ text, d ≠ 123 ∧ d ≠ 125 := by
    intro d hd
    have hboth := List.all_eq_true.mp h d hd
    rw [Bool.and_eq_true, bne_iff_ne, bne_iff_ne] at hboth
    exact hboth
  unfold escapeSpecialCharacter
  repeat' split
  case isFalse =>
    intro d hd
    rw [List.mem_singleton.mp hd]
    exact ⟨hopening, hclosing⟩
  all_goals exact hbytes (by decide)

theorem escapeSpecialCharacters_braceless {text : Str} (h : ∀ c ∈ text, c ≠ 123 ∧ c ≠ 125) :
    ∀ d ∈ escapeSpecialCharacters text, d ≠ 123 ∧ d ≠ 125 := by
  intro d hd
  obtain ⟨c, hc, hd⟩ := List.mem_flatMap.mp hd
  exact escapeSpecialCharacter_braceless (h c hc).1 (h c hc).2 d hd

theorem count_braceless {text : Str} (h : ∀ c ∈ text, c ≠ 123 ∧ c ≠ 125) : text.count 123 = 0 ∧ text.count 125 = 0 :=
  ⟨List.count_eq_zero.mpr fun hmem => (h 123 hmem).1 rfl, List.count_eq_zero.mpr fun hmem => (h 125 hmem).2 rfl⟩

/-- A character of the arguments moves the count by its braces. -/
theorem updateOpenBracesCount_character {count : Nat} (hcount : 0 < count) {more : Str} (hmore : IsCharacter more) :
    updateOpenBracesCount count (escapeSpecialCharacters more) = count + more.count 123 - more.count 125 := by
  have hbraceless (h : ∀ c ∈ more, c ≠ 123 ∧ c ≠ 125) :
      updateOpenBracesCount count (escapeSpecialCharacters more) = count + more.count 123 - more.count 125 := by
    obtain ⟨hopening, hclosing⟩ := count_braceless h
    rw [updateOpenBracesCount_none (escapeSpecialCharacters_braceless h), hopening, hclosing]
    rfl
  rcases hmore with ⟨c, rfl⟩ | ⟨-, hhigh⟩
  · by_cases hopening : c = 123
    · subst hopening
      rfl
    by_cases hclosing : c = 125
    · subst hclosing
      have hstep : updateOpenBracesCount count (escapeSpecialCharacters [125]) = if decremented count = 0 then 0 else decremented count := rfl
      have hcounts : ([125] : Str).count 123 = 0 ∧ ([125] : Str).count 125 = 1 := ⟨rfl, rfl⟩
      have hless : decremented count = count - 1 := if_neg (by omega)
      rw [hstep, hless, hcounts.1, hcounts.2]
      split
      next => omega
      next => rfl
    · refine hbraceless fun d hd => ?_
      rw [List.mem_singleton.mp hd]
      exact ⟨hopening, hclosing⟩
  · refine hbraceless fun c hc => ⟨?_, ?_⟩
    · rintro rfl
      exact absurd (hhigh 123 hc) (by decide)
    · rintro rfl
      exact absurd (hhigh 125 hc) (by decide)

end Braces

section Arguments

variable {rj : RapidJson} {ids : RandomIds} {dialect : Dialect} {startTag : Str} {index : Int} {drawn : Nat}
  (hfollows : dialect.Follows startTag) {number : Str → Option Str} (hrj : rj.Conforms number)
  {name : Str} (hname : ∀ c ∈ name, isWordChar c = true)
include hfollows hrj hname

def told (index : Int) (chunk : Str) : Delta := .toolCall ⟨index, none, none, chunk⟩

variable (ids index drawn) in
/-- As long as a brace stays open, the arguments are told as they come. -/
theorem parseChunks_arguments {chunks : List Str} (hchunks : ∀ chunk ∈ chunks, IsCharacter chunk)
    (hbytes : ∀ c ∈ chunks.flatten, Json.isTextByte c = true) (text : Str) (htext : ∀ c ∈ text, Json.isTextByte c = true) {count : Nat}
    (hopen : StaysOpen count chunks.flatten) (later : List Str) :
    parseChunks rj ids dialect (collectingCall index name text count drawn) (chunks ++ later) =
      (parseChunks rj ids dialect (collectingCall index name (text ++ chunks.flatten)
        (count + chunks.flatten.count 123 - chunks.flatten.count 125) drawn) later).map
          fun read => (chunks.map (told index) ++ read.1, read.2) := by
  induction chunks generalizing text count with
  | nil =>
    have hnone : count + ([] : List Str).flatten.count 123 - ([] : List Str).flatten.count 125 = count := rfl
    rw [hnone, List.flatten_nil, List.append_nil, List.nil_append]
    cases parseChunks rj ids dialect (collectingCall index name text count drawn) later with
    | none => rfl
    | some read => rfl
  | cons chunk chunks ih =>
    rw [List.flatten_cons] at hbytes hopen
    have hchunk := hchunks chunk List.mem_cons_self
    have hpositive : 0 < count := hopen [] (List.nil_prefix)
    have hstill := hopen chunk (List.prefix_append _ _)
    have hchunkBytes : ∀ c ∈ chunk, Json.isTextByte c = true := fun c hc => hbytes c (List.mem_append_left _ hc)
    have hcount := updateOpenBracesCount_character hpositive hchunk
    have hfirst := parse_arguments ids index drawn hfollows hrj hname htext hchunkBytes hchunk.nonempty
      hpositive hcount (by omega)
    have hlater := ih (fun x hx => hchunks x (List.mem_cons_of_mem chunk hx)) (fun c hc => hbytes c (List.mem_append_right _ hc))
      (text ++ chunk) (fun c hc => (List.mem_append.mp hc).elim (htext c) (hchunkBytes c)) hopen.append
    have hcounts : count + chunk.count 123 - chunk.count 125 + chunks.flatten.count 123 - chunks.flatten.count 125 =
        count + (chunk ++ chunks.flatten).count 123 - (chunk ++ chunks.flatten).count 125 := by
      rw [List.count_append, List.count_append]
      omega
    rw [List.cons_append, parseChunks_told hfirst, hlater, hcounts, List.append_assoc, List.flatten_cons, Option.map_map]
    rfl

end Arguments

section Indexes

variable {rj : RapidJson} {ids : RandomIds} {dialect : Dialect} {p p' : CallArrayParser} {index : Int}

/-- Two parsers in the same state, at the same call. -/
structure SameCall (p p' : CallArrayParser) : Prop where
  state : p'.internalState = p.internalState
  index : p'.toolCallIndex = p.toolCallIndex

theorem sameCall_movePostColon (p : CallArrayParser) (chunk : Str) : SameCall p (p.movePostColonContentToUnprocessedBuffer chunk).2 := by
  rw [movePostColonContentToUnprocessedBuffer]
  split
  next => exact ⟨rfl, rfl⟩
  next => exact ⟨rfl, rfl⟩

theorem sameCall_takeChunk (p : CallArrayParser) (chunk : Str) : SameCall p (p.takeChunk chunk).2 := by
  have hmoved := sameCall_movePostColon { p with unprocessedBuffer := [] } (p.unprocessedBuffer ++ chunk)
  rw [takeChunk]
  dsimp only
  split
  next => exact ⟨rfl, rfl⟩
  next => exact ⟨hmoved.state, hmoved.index⟩

theorem sameCall_handleEnd (p : CallArrayParser) (chunk : Str) : SameCall p (p.handleEndOfToolCall chunk).2 := by
  rw [handleEndOfToolCall]
  split
  next =>
    dsimp only
    split
    next => exact ⟨rfl, rfl⟩
    next => exact ⟨rfl, rfl⟩
  next => exact ⟨rfl, rfl⟩

theorem sameCall_prepare (dialect : Dialect) (p : CallArrayParser) (chunk : Str) (finishReason : FinishReason) :
    SameCall p (prepare dialect p chunk finishReason).2 := by
  rw [prepare]
  split
  next =>
    dsimp only
    split
    next => exact ⟨rfl, rfl⟩
    split
    next => exact ⟨(sameCall_handleEnd _ _).state, (sameCall_handleEnd _ _).index⟩
    next => exact ⟨rfl, rfl⟩
  next => exact ⟨rfl, rfl⟩

/-- The delta belongs to this call. -/
def Delta.OfCall (index : Int) (delta : Delta) : Prop := ∃ call, delta = .toolCall call ∧ call.index = index

theorem publish_ofCall {json : Json} {delta : Option Delta} (h : publish ids p json = some (delta, p')) :
    (∀ d ∈ delta, Delta.OfCall p.toolCallIndex d) ∧ p'.toolCallIndex = p.toolCallIndex ∧
      (p'.internalState = p.internalState ∨ p'.internalState = .awaitingToolCallOpeningBrace) := by
  unfold publish at h
  split at h
  next =>
    obtain ⟨name, -, heq⟩ := Option.map_eq_some_iff.mp h
    cases heq
    refine ⟨fun d hd => ?_, rfl, Or.inl rfl⟩
    cases hd
    exact ⟨_, rfl, rfl⟩
  split at h
  next =>
    cases h
    refine ⟨fun d hd => ?_, ?_, ?_⟩
    · unfold argumentsDelta at hd
      split at hd
      next => cases hd
      next =>
        cases hd
        exact ⟨_, rfl, rfl⟩
    · unfold keepDocument
      split
      next => rfl
      next => rfl
    · unfold keepDocument
      split
      next => exact Or.inr rfl
      next => exact Or.inl rfl
  next =>
    cases h
    exact ⟨fun d hd => absurd hd (Option.not_mem_none d), rfl, Or.inl rfl⟩

theorem processToolCall_ofCall {chunk : Str} {finishReason : FinishReason} {delta : Option Delta}
    (h : processToolCall rj ids dialect p chunk finishReason = some (delta, p')) :
    (∀ d ∈ delta, Delta.OfCall p.toolCallIndex d) ∧ p'.toolCallIndex = p.toolCallIndex ∧
      (p'.internalState = p.internalState ∨ p'.internalState = .awaitingToolCallOpeningBrace) := by
  have hsame := sameCall_prepare dialect p chunk finishReason
  unfold processToolCall at h
  generalize prepare dialect p chunk finishReason = prepared at h hsame
  obtain ⟨modified, q⟩ := prepared
  obtain ⟨hstate, hindex⟩ := hsame
  dsimp only at h hstate hindex
  obtain ⟨read, -, hpublish⟩ := Option.bind_eq_some_iff.mp h
  have hcall := publish_ofCall hpublish
  dsimp only at hcall
  rw [hindex, hstate] at hcall
  exact hcall

/-- No delta of this call or an earlier one comes any more. -/
def Beyond (index : Int) (p : CallArrayParser) : Prop :=
  (p.internalState = .awaitingToolCallOpeningBrace ∧ index ≤ p.toolCallIndex) ∨
    (p.internalState = .processingToolCall ∧ index < p.toolCallIndex)

def Delta.After (index : Int) (delta : Delta) : Prop := ∃ call, delta = .toolCall call ∧ index < call.index

theorem parseChunkIn_beyond {chunk : Str} {finishReason : FinishReason} {depth : Nat} {delta : Option Delta}
    (h : parseChunkIn rj ids dialect p chunk finishReason depth = some (delta, p')) (hbeyond : Beyond index p) :
    Beyond index p' ∧ ∀ d ∈ delta, Delta.After index d := by
  induction depth generalizing p chunk with
  | zero =>
    cases h
    exact ⟨hbeyond, fun d hd => absurd hd (Option.not_mem_none d)⟩
  | succ depth ih =>
    have hsilent (p : CallArrayParser) (hp : Beyond index p) : Beyond index p ∧ ∀ d ∈ (none : Option Delta), Delta.After index d :=
      ⟨hp, fun d hd => absurd hd (Option.not_mem_none d)⟩
    rw [parseChunkIn] at h
    split at h
    next =>
      cases h
      exact hsilent _ hbeyond
    next =>
      have hsame := sameCall_takeChunk p chunk
      generalize p.takeChunk chunk = taken at h hsame
      obtain ⟨modified, q⟩ := taken
      obtain ⟨hstate, hindex⟩ := hsame
      dsimp only at h hstate hindex
      have hq : Beyond index q := by
        rw [Beyond, hstate, hindex]
        exact hbeyond
      rcases hq with ⟨hawaiting, hle⟩ | ⟨hprocessing, hlt⟩
      · rw [hawaiting] at h
        dsimp only at h
        split at h
        next =>
          cases h
          exact hsilent _ (Or.inl ⟨hawaiting, hle⟩)
        next =>
          refine ih h (Or.inr ⟨rfl, ?_⟩)
          show index < q.toolCallIndex + 1
          omega
      · rw [hprocessing] at h
        obtain ⟨hdelta, hsameIndex, hnext⟩ := processToolCall_ofCall h
        rw [hprocessing] at hnext
        refine ⟨?_, fun d hd => ?_⟩
        · rcases hnext with hnext | hnext
          · exact Or.inr ⟨hnext, by omega⟩
          · exact Or.inl ⟨hnext, by omega⟩
        · obtain ⟨call, hcall, hof⟩ := hdelta d hd
          exact ⟨call, hcall, by omega⟩

variable (index) in
theorem parseChunks_beyond {chunks : List Str} {deltas : List Delta} (h : parseChunks rj ids dialect p chunks = some (deltas, p'))
    (hbeyond : Beyond index p) : ∀ d ∈ deltas, Delta.After index d := by
  induction chunks generalizing p deltas with
  | nil =>
    cases h
    exact fun d hd => absurd hd List.not_mem_nil
  | cons chunk chunks ih =>
    obtain ⟨⟨delta, q⟩, hfirst, hrest⟩ := Option.bind_eq_some_iff.mp h
    obtain ⟨⟨later, q'⟩, hlater, heq⟩ := Option.map_eq_some_iff.mp hrest
    obtain ⟨hdeltas, hq'⟩ := Prod.mk.inj heq
    subst hdeltas
    subst hq'
    obtain ⟨hq, hdelta⟩ := parseChunkIn_beyond hfirst hbeyond
    intro d hd
    rcases List.mem_append.mp hd with hd | hd
    · exact hdelta d (Option.mem_toList.mp hd)
    · exact ih hlater hq d hd

end Indexes

end ModelServer.CallArrayParser
