import ModelServer.PartialJsonCalls

/-! The runs of the parsers of Mistral and Phi4 over the text of a call. -/

namespace ModelServer.CallArrayParser

/-- What both dialects have in common. -/
structure Dialect.Follows (dialect : Dialect) (startTag : Str) : Prop where
  nonempty : startTag ≠ []
  colonless : find startTag (bytes ":") 0 = none
  reads : ∀ p chunk, chunk ≠ [] → dialect.ignores p chunk = false
  ignoresNothing : ∀ p, p.unprocessedBuffer = [] → p.internalState ≠ .processingToolCall → dialect.ignores p [] = true
  start : dialect.afterStartTag startTag = some []
  ends : ∀ before count, 0 < before → dialect.endsToolCall before count = (count == 0)

inductive Kind
  | mistral
  | phi4
deriving DecidableEq

def Kind.dialect : Kind → Dialect
  | .mistral => MistralToolParser.dialect
  | .phi4 => Phi4ToolParser.dialect

def Kind.startTag : Kind → Str
  | .mistral => MistralToolParser.visibleStartTag
  | .phi4 => Phi4ToolParser.parsingStartTag

def Kind.resetState : Kind → CallArrayParser → CallArrayParser
  | .mistral => MistralToolParser.resetState
  | .phi4 => Phi4ToolParser.resetState

theorem Kind.follows (kind : Kind) : kind.dialect.Follows kind.startTag := by
  have hisEmpty {chunk : Str} (hchunk : chunk ≠ []) : chunk.isEmpty = false := by
    cases chunk with
    | nil => exact absurd rfl hchunk
    | cons c chunk => rfl
  cases kind with
  | mistral =>
    refine ⟨by decide, by decide, fun p chunk hchunk => ?_, fun p hbuffer hstate => ?_, by decide, fun before count hbefore => ?_⟩
    · show (chunk.isEmpty && _) = false
      rw [hisEmpty hchunk, Bool.false_and]
    · show (true && !(!p.unprocessedBuffer.isEmpty || (decide (p.internalState = .processingToolCall) && _))) = true
      rw [hbuffer, decide_eq_false hstate]
      rfl
    · show (count == 0 && decide (before > 0)) = _
      rw [decide_eq_true hbefore, Bool.and_true]
  | phi4 =>
    exact ⟨by decide, by decide, fun p chunk hchunk => hisEmpty hchunk, fun _ _ _ => rfl, by decide, fun _ _ _ => rfl⟩

section Runs

variable {rj : RapidJson} {ids : RandomIds} {dialect : Dialect} {p p' : CallArrayParser}

theorem parseChunks_append (p : CallArrayParser) (chunks later : List Str) :
    parseChunks rj ids dialect p (chunks ++ later) = (parseChunks rj ids dialect p chunks).bind fun read =>
      (parseChunks rj ids dialect read.2 later).map fun read' => (read.1 ++ read'.1, read'.2) := by
  induction chunks generalizing p with
  | nil =>
    rw [List.nil_append, parseChunks, Option.bind_some]
    cases parseChunks rj ids dialect p later with
    | none => rfl
    | some read => rfl
  | cons chunk chunks ih =>
    rw [List.cons_append, parseChunks, parseChunks]
    cases parseChunkIn rj ids dialect p chunk .none 4 with
    | none => rfl
    | some read =>
      simp only [Option.bind_some]
      rw [ih]
      cases parseChunks rj ids dialect read.2 chunks with
      | none => rfl
      | some read' =>
        simp only [Option.bind_some, Option.map_some]
        cases parseChunks rj ids dialect read'.2 later with
        | none => rfl
        | some read'' =>
          simp only [Option.map_some, List.append_assoc]

theorem parseChunks_append_of_some {chunks later : List Str} {deltas : List Delta}
    (h : parseChunks rj ids dialect p chunks = some (deltas, p')) : parseChunks rj ids dialect p (chunks ++ later) =
      (parseChunks rj ids dialect p' later).map fun read => (deltas ++ read.1, read.2) := by
  rw [parseChunks_append, h, Option.bind_some]

theorem parseChunks_silent {chunk : Str} (h : parseChunkIn rj ids dialect p chunk .none 4 = some (none, p')) (later : List Str) :
    parseChunks rj ids dialect p (chunk :: later) = parseChunks rj ids dialect p' later := by
  rw [parseChunks, h, Option.bind_some]
  dsimp only
  cases parseChunks rj ids dialect p' later with
  | none => rfl
  | some read => rfl

theorem parseChunks_told {chunk : Str} {delta : Delta} (h : parseChunkIn rj ids dialect p chunk .none 4 = some (some delta, p'))
    (later : List Str) : parseChunks rj ids dialect p (chunk :: later) =
      (parseChunks rj ids dialect p' later).map fun read => (delta :: read.1, read.2) := by
  rw [parseChunks, h, Option.bind_some]
  rfl

end Runs

section Steps

variable {rj : RapidJson} {ids : RandomIds} {dialect : Dialect} {startTag : Str} {p : CallArrayParser} {index : Int} {drawn : Nat}

theorem clearUnprocessed (h : p.unprocessedBuffer = []) : { p with unprocessedBuffer := [] } = p := by
  obtain ⟨state, lastJson, builder, index, opened, buffer, count, drawn⟩ := p
  cases h
  rfl

theorem find_colon_single (c : Byte) : find [c] (bytes ":") 0 = if c = 58 then some 0 else none := by
  by_cases hc : c = 58
  · subst hc
    rfl
  · rw [if_neg hc]
    have hprefix : (bytes ":").isPrefixOf [c] = false := by
      show ((58 : Byte) == c && _) = false
      rw [beq_false_of_ne (Ne.symm hc), Bool.false_and]
    rw [find, List.drop_zero, Occurrence.indexOf?, hprefix]
    rfl

/-- A chunk of one character has nothing behind its colon. -/
theorem movePostColon_single (p : CallArrayParser) (c : Byte) : p.movePostColonContentToUnprocessedBuffer [c] = ([c], p) := by
  rw [movePostColonContentToUnprocessedBuffer, find_colon_single]
  split
  next position hfound =>
    split at hfound
    next =>
      cases hfound
      have hempty : ({ p with unprocessedBuffer := [] ++ p.unprocessedBuffer } : CallArrayParser) = p := by
        rw [List.nil_append]
      exact congrArg (Prod.mk [c]) hempty
    next => cases hfound
  next => rfl

/-- A chunk that comes to its state as it is. -/
structure Comes (dialect : Dialect) (p : CallArrayParser) (chunk : Str) : Prop where
  reads : ¬dialect.ignores p chunk = true
  whole : p.takeChunk chunk = (chunk, p)

theorem Comes.of_unmoved (hfollows : dialect.Follows startTag) (hbuffer : p.unprocessedBuffer = []) {chunk : Str} (hchunk : chunk ≠ [])
    (hmoved : hasArguments p.lastJson = false → p.movePostColonContentToUnprocessedBuffer chunk = (chunk, p)) : Comes dialect p chunk := by
  refine ⟨?_, ?_⟩
  · rw [hfollows.reads p chunk hchunk]
    exact Bool.false_ne_true
  · rw [takeChunk]
    simp only [hbuffer, List.nil_append, clearUnprocessed hbuffer]
    split
    next => rfl
    next harguments => exact hmoved (Bool.eq_false_iff.mpr harguments)

theorem Comes.single (hfollows : dialect.Follows startTag) (hbuffer : p.unprocessedBuffer = []) (c : Byte) : Comes dialect p [c] :=
  .of_unmoved hfollows hbuffer (List.cons_ne_nil _ _) fun _ => movePostColon_single p c

section Comes

variable {chunk : Str} (h : Comes dialect p chunk) (depth : Nat)
include h

theorem parse_tag (hstate : p.internalState = .awaitingStartTag) {rest : Str} (hrest : dialect.afterStartTag chunk = some rest) :
    parseChunkIn rj ids dialect p chunk .none (depth + 1) =
      parseChunkIn rj ids dialect { p with internalState := .awaitingToolCallsOpeningBracket } rest .none depth := by
  rw [parseChunkIn, if_neg h.reads, h.whole]
  simp only [hstate, hrest]

variable (rj ids) in
theorem parse_bracket (hstate : p.internalState = .awaitingToolCallsOpeningBracket) (hchunk : chunk = [91]) :
    parseChunkIn rj ids dialect p chunk .none (depth + 1) = some (none, { p with internalState := .awaitingToolCallOpeningBrace }) := by
  rw [parseChunkIn, if_neg h.reads, h.whole]
  simp only [hstate]
  rw [hchunk]
  rfl

theorem parse_between (hstate : p.internalState = .awaitingToolCallOpeningBrace) (hnone : find chunk (bytes "\x7b") 0 = none) :
    parseChunkIn rj ids dialect p chunk .none (depth + 1) = some (none, p) := by
  rw [parseChunkIn, if_neg h.reads, h.whole]
  simp only [hstate, hnone]

theorem parse_brace (hstate : p.internalState = .awaitingToolCallOpeningBrace) {position : Nat}
    (hat : find chunk (bytes "\x7b") 0 = some position) :
    parseChunkIn rj ids dialect p chunk .none (depth + 1) =
      parseChunkIn rj ids dialect { p with internalState := .processingToolCall }.clearState (chunk.drop position) .none depth := by
  rw [parseChunkIn, if_neg h.reads, h.whole]
  simp only [hstate, hat]

theorem parse_call (hstate : p.internalState = .processingToolCall) :
    parseChunkIn rj ids dialect p chunk .none (depth + 1) = processToolCall rj ids dialect p chunk .none := by
  rw [parseChunkIn, if_neg h.reads, h.whole]
  simp only [hstate]

end Comes

/-- In a call, before its arguments. -/
def header (index : Int) (lastJson : Json) (jsonBuilder : PartialJsonBuilder) (drawnIds : Nat) : CallArrayParser where
  internalState := .processingToolCall
  lastJson := lastJson
  jsonBuilder := jsonBuilder
  toolCallIndex := index
  drawnIds := drawnIds

/-- In the arguments of a call. -/
def collectingCall (index : Int) (name text : Str) (openBracesCount drawnIds : Nat) : CallArrayParser where
  internalState := .processingToolCall
  lastJson := .obj [(bytes "name", .str name), (bytes "arguments", .str text)]
  jsonBuilder := .collecting name text
  toolCallIndex := index
  argumentsQuotesOpened := true
  openBracesCount := openBracesCount
  drawnIds := drawnIds

theorem hasArguments_name (value : Json) : hasArguments (.obj [(bytes "name", value)]) = false := rfl

theorem hasArguments_both (value arguments : Json) : hasArguments (.obj [(bytes "name", value), (bytes "arguments", arguments)]) = true := rfl

theorem stringMember_name (name : Str) (rest : List (Str × Json)) :
    stringMember (.obj ((bytes "name", .str name) :: rest)) (bytes "name") = some (cStr name) := rfl

theorem process_eq {p' : CallArrayParser} {chunk chunk' : Str} {json : Json} {b : PartialJsonBuilder}
    (hprepare : prepare dialect p chunk .none = (chunk', p')) (hadd : p'.jsonBuilder.add rj chunk' = some (json, b)) :
    processToolCall rj ids dialect p chunk .none = publish ids { p' with jsonBuilder := b } json := by
  rw [processToolCall, hprepare]
  dsimp only
  rw [hadd, Option.bind_some]

theorem prepare_header (h : hasArguments p.lastJson = false) {c : Byte} (hline : c ≠ 10) : prepare dialect p [c] .none = ([c], p) := by
  have hkept : [c].filter (· != char '\n') = [c] := by
    rw [List.filter_cons_of_pos]
    · rfl
    · exact bne_iff_ne.mpr hline
  rw [prepare, if_neg (by rw [h]; exact Bool.false_ne_true), hkept]

theorem publish_header (hlast : hasArguments p.lastJson = false) {json : Json} (hjson : hasArguments json = false) :
    publish ids p json = some (none, { p with lastJson := json }) := by
  rw [publish, hlast, hjson]
  rfl

theorem publish_name (hlast : hasArguments p.lastJson = false) {json : Json} (hjson : hasArguments json = true) {name : Str}
    (hname : stringMember p.lastJson (bytes "name") = some name) :
    publish ids p json = some (some (.toolCall ⟨p.toolCallIndex, some (ids.draw p.drawnIds), some name, []⟩),
      { p with lastJson := json, drawnIds := p.drawnIds + 1 }) := by
  rw [publish, hlast, hjson, hname]
  rfl

theorem publish_arguments (harguments : hasArguments p.lastJson = true) (json : Json) : publish ids p json =
    some (argumentsDelta p.toolCallIndex (computeDelta p.lastJson json), p.keepDocument json) := by
  rw [publish, harguments, Bool.not_true, Bool.and_false, if_neg Bool.false_ne_true, if_pos rfl]

theorem valueDelta_str {previous current : Str} (hprevious : 0 ∉ previous) (hcurrent : 0 ∉ current) :
    valueDelta (.str previous) (.str current) =
      if previous ≠ current ∧ current.length > previous.length then some (.str (current.drop previous.length)) else none := by
  rw [valueDelta]
  simp only [RapidJson.cStr_of_noNul hprevious, RapidJson.cStr_of_noNul hcurrent]

/-- The delta of two documents of a call with the same name. -/
theorem computeDelta_call {name : Str} (hname : 0 ∉ name) (previous current : Str) :
    computeDelta (.obj [(bytes "name", .str name), (bytes "arguments", .str previous)])
        (.obj [(bytes "name", .str name), (bytes "arguments", .str current)]) =
      (valueDelta (.str previous) (.str current)).toList.map (bytes "arguments", ·) := by
  have hsame : valueDelta (.str name) (.str name) = none := by
    rw [valueDelta_str hname hname, if_neg]
    exact fun h => h.1 rfl
  have hnames : (Json.obj [(bytes "name", .str name), (bytes "arguments", .str previous)]).member? (bytes "name") = some (.str name) := rfl
  have harguments : (Json.obj [(bytes "name", .str name), (bytes "arguments", .str previous)]).member? (bytes "arguments") =
      some (.str previous) := rfl
  simp only [computeDelta, computeDeltaImpl, hnames, harguments, hsame, Option.toList_none, List.map_nil, List.nil_append, List.append_nil]

variable {name text : Str} (hname : 0 ∉ name)
include hname

/-- Longer arguments are told by what is new of them. -/
theorem argumentsDelta_more {more : Str} (hmore : more ≠ []) (hnul : 0 ∉ text ++ more) :
    argumentsDelta index (computeDelta (.obj [(bytes "name", .str name), (bytes "arguments", .str text)])
      (.obj [(bytes "name", .str name), (bytes "arguments", .str (text ++ more))])) = some (.toolCall ⟨index, none, none, more⟩) := by
  have hlength := List.length_pos_iff.mpr hmore
  have hparts : 0 ∉ text ∧ 0 ∉ more := by
    rw [List.mem_append, not_or] at hnul
    exact hnul
  have hlonger : text ≠ text ++ more ∧ (text ++ more).length > text.length := by
    rw [List.length_append]
    refine ⟨fun h => ?_, by omega⟩
    exact hmore (List.self_eq_append_right.mp h)
  have hvisible : (cStr more).isEmpty = false := by
    rw [RapidJson.cStr_of_noNul hparts.2, List.isEmpty_eq_false_iff]
    exact hmore
  rw [computeDelta_call hname, valueDelta_str hparts.1 hnul, if_pos hlonger, List.drop_left]
  have hblank : isBlankMember (bytes "arguments", .str more) = false := hvisible
  have hmember : stringMember (.obj [(bytes "arguments", .str more)]) (bytes "arguments") = some (cStr more) := rfl
  rw [argumentsDelta, Option.toList_some, List.map_cons, List.map_nil]
  simp only [List.isEmpty_cons, List.any_cons, List.any_nil, hblank, hmember, Bool.or_false, Bool.false_eq_true, if_false,
    Option.getD_some, RapidJson.cStr_of_noNul hparts.2]

theorem argumentsDelta_same (htext : 0 ∉ text) :
    argumentsDelta index (computeDelta (.obj [(bytes "name", .str name), (bytes "arguments", .str text)])
      (.obj [(bytes "name", .str name), (bytes "arguments", .str text)])) = none := by
  rw [computeDelta_call hname, valueDelta_str htext htext, if_neg (fun h => h.1 rfl)]
  rfl

/-- Arguments that are still empty are not told. -/
theorem argumentsDelta_first :
    argumentsDelta index (computeDelta (.obj [(bytes "name", .str name), (bytes "arguments", .null)])
      (.obj [(bytes "name", .str name), (bytes "arguments", .str [])])) = none := by
  have hsame : valueDelta (.str name) (.str name) = none := by
    rw [valueDelta_str hname hname, if_neg]
    exact fun h => h.1 rfl
  have hnames : (Json.obj [(bytes "name", .str name), (bytes "arguments", .null)]).member? (bytes "name") = some (.str name) := rfl
  have harguments : (Json.obj [(bytes "name", .str name), (bytes "arguments", .null)]).member? (bytes "arguments") = some .null := rfl
  have htold : computeDelta (.obj [(bytes "name", .str name), (bytes "arguments", .null)])
      (.obj [(bytes "name", .str name), (bytes "arguments", .str [])]) = [(bytes "arguments", .str [])] := by
    simp only [computeDelta, computeDeltaImpl, hnames, harguments, hsame, Option.toList_none, Option.toList_some, List.map_nil,
      List.map_cons, List.nil_append, List.append_nil]
  rw [htold]
  rfl

end Steps

section Calls

variable {rj : RapidJson} {ids : RandomIds} {dialect : Dialect} {startTag : Str} {p : CallArrayParser} {index : Int} {drawn : Nat}
theorem zero_notMem_word {name : Str} (hname : ∀ c ∈ name, isWordChar c = true) : 0 ∉ name := fun hmem =>
  ne_of_isWordChar (hname 0 hmem) (by decide) rfl

theorem keepDocument_complete (hcomplete : p.jsonBuilder.isComplete = true) (hleft : p.jsonBuilder.getUnprocessedBuffer = [])
    (hbuffer : p.unprocessedBuffer = []) (json : Json) : p.keepDocument json = { p with internalState := .awaitingToolCallOpeningBrace } := by
  obtain ⟨state, lastJson, builder, index, opened, buffer, count, drawn⟩ := p
  cases hbuffer
  dsimp only at hleft
  rw [keepDocument, if_pos hcomplete, movePostToolCallEndContentToUnprocessedBuffer]
  dsimp only
  rw [hleft]
  rfl

theorem prepare_arguments {chunk quoted : Str} {count' : Nat} {ended : Bool} (h : hasArguments p.lastJson = true)
    (hcount : updateOpenBracesCount p.openBracesCount (escapeSpecialCharacters chunk) = count')
    (hends : dialect.endsToolCall p.openBracesCount count' = ended)
    (hquoted : (if p.argumentsQuotesOpened then escapeSpecialCharacters chunk else openArgumentsString (escapeSpecialCharacters chunk)) = quoted) :
    prepare dialect p chunk .none =
      if ended then handleEndOfToolCall { p with openBracesCount := count', argumentsQuotesOpened := true } quoted
      else (quoted, { p with openBracesCount := count', argumentsQuotesOpened := true }) := by
  subst hcount hends hquoted
  rw [prepare, if_pos h]
  rfl

variable (hfollows : dialect.Follows startTag)
include hfollows

/-- Before the arguments a character only goes to the builder. -/
theorem parse_header {lastJson json : Json} {b b' : PartialJsonBuilder} {c : Byte} (hline : c ≠ 10)
    (hlast : hasArguments lastJson = false) (hjson : hasArguments json = false) (hadd : b.add rj [c] = some (json, b')) :
    parseChunkIn rj ids dialect (header index lastJson b drawn) [c] .none 4 = some (none, header index json b' drawn) := by
  rw [parse_call (Comes.single hfollows rfl c) 3 rfl, process_eq (prepare_header hlast hline) hadd, publish_header hlast hjson]
  rfl

section Arguments

variable {number : Str → Option Str} (hrj : rj.Conforms number) {name : Str} (hname : ∀ c ∈ name, isWordChar c = true)
include hrj hname

/-- The colon before the arguments tells the name. -/
theorem parse_told :
    parseChunkIn rj ids dialect (header index (.obj [(bytes "name", .str name)]) (.keyed name (bytes " \"arguments\"")) drawn) [58] .none 4 =
      some (some (.toolCall ⟨index, some (ids.draw drawn), some name, []⟩),
        header index (.obj [(bytes "name", .str name), (bytes "arguments", .null)]) (.awaiting name) (drawn + 1)) := by
  have hmember : stringMember (.obj [(bytes "name", .str name)]) (bytes "name") = some name := by
    rw [stringMember_name, RapidJson.cStr_of_noNul (zero_notMem_word hname)]
  rw [parse_call (Comes.single hfollows rfl 58) 3 rfl,
    process_eq (prepare_header (hasArguments_name _) (by decide)) (PartialJsonBuilder.add_colon hrj hname),
    publish_name (hasArguments_name _) (hasArguments_both _ _) hmember]
  rfl

/-- The blank behind it opens the string of the arguments. -/
theorem parse_argumentsOpen :
    parseChunkIn rj ids dialect (header index (.obj [(bytes "name", .str name), (bytes "arguments", .null)]) (.awaiting name) drawn) [32] .none 4 =
      some (none, collectingCall index name [] 1 drawn) := by
  have hends : dialect.endsToolCall 1 1 = false := hfollows.ends 1 1 Nat.one_pos
  have hprepare : prepare dialect (header index (.obj [(bytes "name", .str name), (bytes "arguments", .null)]) (.awaiting name) drawn) [32] .none =
      ([32, 34], { header index (.obj [(bytes "name", .str name), (bytes "arguments", .null)]) (.awaiting name) drawn with
        argumentsQuotesOpened := true }) := by
    rw [prepare_arguments (hasArguments_both _ _) rfl hends rfl]
    rfl
  rw [parse_call (Comes.single hfollows rfl 32) 3 rfl, process_eq hprepare (PartialJsonBuilder.add_awaiting hrj hname),
    publish_arguments (hasArguments_both _ _)]
  show some (argumentsDelta index (computeDelta (.obj [(bytes "name", .str name), (bytes "arguments", .null)]) _), _) = _
  rw [argumentsDelta_first (zero_notMem_word hname)]
  rfl

variable {text : Str} (htext : ∀ c ∈ text, Json.isTextByte c = true) {count : Nat}
include htext

variable (ids index drawn) in
/-- A chunk of the arguments that leaves braces open is told as it is. -/
theorem parse_arguments {more : Str} (hmore : ∀ c ∈ more, Json.isTextByte c = true) (hnonempty : more ≠ []) {count' : Nat}
    (hopen : 0 < count) (hcount : updateOpenBracesCount count (escapeSpecialCharacters more) = count') (hstill : count' ≠ 0) :
    parseChunkIn rj ids dialect (collectingCall index name text count drawn) more .none 4 =
      some (some (.toolCall ⟨index, none, none, more⟩), collectingCall index name (text ++ more) count' drawn) := by
  have hends : dialect.endsToolCall count count' = false := by
    rw [hfollows.ends count count' hopen, beq_false_of_ne hstill]
  have hprepare : prepare dialect (collectingCall index name text count drawn) more .none =
      (escapeSpecialCharacters more, { collectingCall index name text count drawn with openBracesCount := count' }) := by
    rw [prepare_arguments (hasArguments_both _ _) hcount hends rfl]
    rfl
  have hcomes : Comes dialect (collectingCall index name text count drawn) more :=
    .of_unmoved hfollows rfl hnonempty fun harguments => absurd harguments (by rw [collectingCall, hasArguments_both]; decide)
  have hnul : 0 ∉ text ++ more := by
    intro hmem
    rcases List.mem_append.mp hmem with hmem | hmem
    · exact absurd (htext 0 hmem) (by decide)
    · exact absurd (hmore 0 hmem) (by decide)
  rw [parse_call hcomes 3 rfl, process_eq hprepare (PartialJsonBuilder.add_collecting hrj hname htext hmore),
    publish_arguments (hasArguments_both _ _)]
  show some (argumentsDelta index (computeDelta (.obj [(bytes "name", .str name), (bytes "arguments", .str text)]) _), _) = _
  rw [argumentsDelta_more (zero_notMem_word hname) hnonempty hnul]
  rfl

variable (ids index drawn) in
/-- The brace that closes the call. -/
theorem parse_argumentsEnd :
    parseChunkIn rj ids dialect (collectingCall index name text 1 drawn) [125] .none 4 =
      some (none, { collectingCall index name text 0 drawn with
        internalState := .awaitingToolCallOpeningBrace, jsonBuilder := .collected name text }) := by
  have hends : dialect.endsToolCall 1 0 = true := hfollows.ends 1 0 Nat.one_pos
  have hprepare : prepare dialect (collectingCall index name text 1 drawn) [125] .none =
      ([34, 125], { collectingCall index name text 1 drawn with openBracesCount := 0 }) := by
    rw [prepare_arguments (hasArguments_both _ _) rfl hends rfl]
    rfl
  have hnul : 0 ∉ text := fun hmem => absurd (htext 0 hmem) (by decide)
  rw [parse_call (Comes.single hfollows rfl 125) 3 rfl, process_eq hprepare (PartialJsonBuilder.add_collected hrj hname htext),
    publish_arguments (hasArguments_both _ _)]
  show some (argumentsDelta index (computeDelta (.obj [(bytes "name", .str name), (bytes "arguments", .str text)]) _), _) = _
  have hleft : (PartialJsonBuilder.collected name text).getUnprocessedBuffer = [] := List.drop_length ..
  have hkept := keepDocument_complete (p := { collectingCall index name text 0 drawn with jsonBuilder := .collected name text }) rfl hleft rfl
  rw [argumentsDelta_same (zero_notMem_word hname) hnul]
  exact congrArg (fun p => some (none, p)) (hkept _)

end Arguments

end Calls

end ModelServer.CallArrayParser
