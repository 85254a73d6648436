import ModelServer.Delta
import ModelServer.Streaming

namespace ModelServer

structure OutputParsingConfig where
  startTags : List Str := []
  preambleStartTags : List Str := []
  endTags : List Str := []

/-- The virtual functions of a parser with states `σ`. -/
structure BaseOutputParser (σ : Type) where
  parsingConfig : OutputParsingConfig
  parseChunk : σ → Str → FinishReason → Option Delta × σ
  drainPendingDelta : σ → Option Delta × σ := fun s => (none, s)
  resetState : σ → σ := id
  setImplicitStart : σ → Bool → σ := fun s _ => s

inductive TagLookupStatus
  | notFound
  | foundComplete
  | foundIncomplete
deriving DecidableEq

inductive ProcessingPhase
  | unknown
  | content
  | reasoning
  | toolCallsProcessingTool
  | toolCallsWaitingForTool
deriving DecidableEq

def lookupTag (buffer tag : Str) : TagLookupStatus :=
  if tag.isEmpty then .notFound
  else if tag.length > buffer.length then
    if stringsOverlap buffer tag then .foundIncomplete else .notFound
  else if tag.length < buffer.length then
    if (find buffer tag 0).isSome then .foundComplete
    else if stringsOverlap buffer tag then .foundIncomplete
    else .notFound
  else if buffer = tag then .foundComplete
  else if stringsOverlap buffer tag then .foundIncomplete
  else .notFound

/-- Complete before incomplete before not found. -/
def lookupTags (buffer : Str) (tags : List Str) : TagLookupStatus :=
  if tags.any (lookupTag buffer · = .foundComplete) then .foundComplete
  else if tags.any (lookupTag buffer · = .foundIncomplete) then .foundIncomplete
  else .notFound

/-- The parsers of a route and what the constructor derives from their names. -/
structure OutputParser (τ ρ κ : Type) where
  toolParser : BaseOutputParser τ
  reasoningParser : BaseOutputParser ρ
  contentParser : BaseOutputParser κ
  gemma4ToolHandoff : Bool := false
  contentTokensToHide : List Str := []

section Lookup

variable {buffer tag : Str} {tags : List Str}

theorem lookupTag_eq (ht : tag ≠ []) :
    lookupTag buffer tag =
      if tag <:+: buffer then .foundComplete
      else if stringsOverlap buffer tag then .foundIncomplete
      else .notFound := by
  have hfind : (find buffer tag 0).isSome ↔ tag <:+: buffer := by
    rw [Occurrence.infix_iff_at, ← not_iff_not, Bool.not_eq_true, Option.isSome_eq_false_iff,
      Option.isNone_iff_eq_none, find_eq_none_iff ht]
    simp
  have hlen : tag <:+: buffer → tag.length ≤ buffer.length := fun h => h.length_le
  unfold lookupTag
  rw [if_neg (by simpa using ht)]
  by_cases hlong : tag.length > buffer.length
  · have hno : ¬ tag <:+: buffer := by
      intro h
      have := hlen h
      omega
    rw [if_pos hlong, if_neg hno]
  rw [if_neg hlong]
  by_cases hshort : tag.length < buffer.length
  · rw [if_pos hshort]
    simp only [hfind]
  rw [if_neg hshort]
  have hsame : tag <:+: buffer ↔ buffer = tag := by
    constructor
    · intro h
      exact (h.eq_of_length (by omega)).symm
    · intro h
      rw [h]
  simp only [hsame]

theorem lookupTags_complete (ht : ∀ tag ∈ tags, tag ≠ []) :
    lookupTags buffer tags = .foundComplete ↔ ∃ tag ∈ tags, tag <:+: buffer := by
  have hone : ∀ tag ∈ tags, lookupTag buffer tag = .foundComplete ↔ tag <:+: buffer := by
    intro tag hm
    rw [lookupTag_eq (ht tag hm)]
    split
    · simp [*]
    · split <;> simp [*]
  unfold lookupTags
  split
  next h =>
    obtain ⟨tag, hm, hc⟩ := List.any_eq_true.mp h
    have hin := (hone tag hm).mp (by simpa using hc)
    simp only [true_iff]
    exact ⟨tag, hm, hin⟩
  next h =>
    have hno : ¬ ∃ tag ∈ tags, tag <:+: buffer := by
      intro ⟨tag, hm, hin⟩
      exact h (List.any_eq_true.mpr ⟨tag, hm, by simpa using (hone tag hm).mpr hin⟩)
    simp only [hno, iff_false]
    split <;> simp

theorem lookupTags_eq (ht : ∀ tag ∈ tags, tag ≠ []) (hn : ∀ tag ∈ tags, ¬ tag <:+: buffer) :
    lookupTags buffer tags =
      if tags.any (stringsOverlap buffer ·) then .foundIncomplete else .notFound := by
  have hone : ∀ tag ∈ tags, lookupTag buffer tag =
      if stringsOverlap buffer tag then .foundIncomplete else .notFound := by
    intro tag hm
    rw [lookupTag_eq (ht tag hm), if_neg (hn tag hm)]
  have hc : tags.any (lookupTag buffer · = .foundComplete) = false := by
    rw [List.any_eq_false]
    intro tag hm
    rw [hone tag hm]
    split <;> simp
  have hi : tags.any (lookupTag buffer · = .foundIncomplete) = tags.any (stringsOverlap buffer ·) := by
    rw [Bool.eq_iff_iff, List.any_eq_true, List.any_eq_true]
    refine exists_congr fun tag => and_congr_right fun hm => ?_
    rw [hone tag hm]
    split <;> simp [*]
  rw [lookupTags, hc, hi]
  rfl

end Lookup

namespace OutputParser

variable {τ ρ κ : Type}

structure State (τ ρ κ : Type) where
  toolState : τ
  reasoningState : ρ
  contentState : κ
  processingPhase : ProcessingPhase := .unknown
  buffer : Str := []
  implicitReasoningStart : Bool := false
  pendingGemma4ToolHandoff : Bool := false
  toolsEnabledForChunk : Bool := false
  gemma4LogicalBoundary : Bool := true
  gemma4ReasoningClosed : Bool := false
  contentSpecialTokensVisible : Bool := true
  terminalContentFinish : FinishReason := .none

variable (o : OutputParser τ ρ κ)

/-- The text after the last newline. -/
def lastLine (text : Str) : Str := (text.reverse.takeWhile (· ≠ char '\n')).reverse

/-- A bare Gemma call may begin at `pos`: only blanks stand before it on its line,
and the line began at a newline or at a logical boundary. -/
def atLineStart (boundary : Bool) (buffer : Str) (pos : Nat) : Bool :=
  ((buffer.take pos).contains (char '\n') || boundary) &&
    (lastLine (buffer.take pos)).all isspace

/-- The preamble lookup of the Gemma route, for one tag at one position. -/
def preambleAt (boundary : Bool) (buffer tag : Str) (pos : Nat) : TagLookupStatus :=
  let length := min tag.length (buffer.length - pos)
  if atLineStart boundary buffer pos && (buffer.drop pos).take length == tag.take length then
    if length = tag.length then .foundComplete else .foundIncomplete
  else .notFound

def lookupToolPreamble (s : State τ ρ κ) : TagLookupStatus :=
  let tags := o.toolParser.parsingConfig.preambleStartTags
  if !o.gemma4ToolHandoff then lookupTags s.buffer tags
  else
    let found (status : TagLookupStatus) : Bool := tags.any fun tag =>
      (List.range s.buffer.length).any fun pos =>
        preambleAt s.gemma4LogicalBoundary s.buffer tag pos = status
    if found .foundComplete then .foundComplete
    else if found .foundIncomplete then .foundIncomplete
    else .notFound

/-- A bare Gemma channel header is valid only at the start of the buffer. -/
def lookupReasoningPreamble (s : State τ ρ κ) : TagLookupStatus :=
  let tags := o.reasoningParser.parsingConfig.preambleStartTags
  if !o.gemma4ToolHandoff then lookupTags s.buffer tags
  else if s.gemma4ReasoningClosed || s.buffer.isEmpty then .notFound
  else if tags.any fun tag => tag ≠ [] && tag.isPrefixOf s.buffer then .foundComplete
  else if tags.any fun tag => tag ≠ [] && s.buffer.isPrefixOf tag then .foundIncomplete
  else .notFound

/-- Content without the hidden tokens, or `none` while the end may still become one. -/
def filterContent (s : State τ ρ κ) (finishReason : FinishReason) : Option Str :=
  if !s.contentSpecialTokensVisible && !s.toolsEnabledForChunk && !o.contentTokensToHide.isEmpty then
    let content := o.contentTokensToHide.foldl (fun content tag => eraseAll tag content) s.buffer
    if finishReason = .none && o.contentTokensToHide.any (stringsOverlap content) then none
    else some content
  else some s.buffer

def parseContentChunk (s : State τ ρ κ) (finishReason : FinishReason) :
    Option Delta × State τ ρ κ :=
  let finishReason :=
    if s.terminalContentFinish ≠ .none then s.terminalContentFinish else finishReason
  match o.filterContent s finishReason with
  | none => (none, s)
  | some content =>
    let (result, contentState) := o.contentParser.parseChunk s.contentState content finishReason
    match result with
    | none => (none, { s with contentState := contentState })
    | some delta =>
      let s := { s with contentState := contentState, buffer := [], processingPhase := .content }
      match delta with
      | .content text =>
        let boundary := (text.contains (char '\n') || s.gemma4LogicalBoundary) &&
          (lastLine text).all isspace
        let s :=
          if o.gemma4ToolHandoff then { s with gemma4LogicalBoundary := boundary } else s
        (if text.isEmpty then none else some delta, s)
      | _ => (some delta, s)

/-- What the content parser gives is released: the buffer is empty then, and content goes on. -/
def State.release (s : State τ ρ κ) (gemma4ToolHandoff : Bool) (result : Option Delta × κ) :
    Option Delta × State τ ρ κ :=
  match result.1 with
  | none => (none, { s with contentState := result.2 })
  | some (.content text) =>
    (if text.isEmpty then none else some (.content text),
      { s with
        contentState := result.2
        buffer := []
        processingPhase := .content
        gemma4LogicalBoundary :=
          if gemma4ToolHandoff then
            (text.contains (char '\n') || s.gemma4LogicalBoundary) && (lastLine text).all isspace
          else s.gemma4LogicalBoundary })
  | some delta =>
    (some delta, { s with contentState := result.2, buffer := [], processingPhase := .content })

theorem parseContentChunk_eq (s : State τ ρ κ) (finishReason : FinishReason) :
    o.parseContentChunk s finishReason =
      let reason := if s.terminalContentFinish ≠ .none then s.terminalContentFinish else finishReason
      match o.filterContent s reason with
      | none => (none, s)
      | some content =>
        s.release o.gemma4ToolHandoff (o.contentParser.parseChunk s.contentState content reason) := by
  unfold parseContentChunk
  dsimp -iota only
  generalize (if s.terminalContentFinish ≠ .none then s.terminalContentFinish else finishReason) = reason
  cases o.filterContent s reason with
  | none => rfl
  | some content =>
    cases hresult : o.contentParser.parseChunk s.contentState content reason with
    | mk result contentState =>
      simp only [hresult, State.release]
      cases result with
      | none => rfl
      | some delta =>
        cases delta with
        | content text => cases o.gemma4ToolHandoff <;> rfl
        | _ => rfl

/-- The part of the buffer up to the end of the first of these tags, and the part after it. -/
def splitAtEnd (buffer : Str) (endTags : List Str) : Str × Str :=
  match findEarliestTag buffer endTags with
  | some tag => (buffer.take (tag.position + tag.length), buffer.drop (tag.position + tag.length))
  | none => (buffer, [])

@[simp] theorem splitAtEnd_nil (buffer : Str) : splitAtEnd buffer [] = (buffer, []) := rfl

theorem splitAtEnd_single {buffer tag : Str} (ht : tag ≠ []) :
    splitAtEnd buffer [tag] =
      match Occurrence.indexOf? tag buffer with
      | some position =>
        (buffer.take (position + tag.length), buffer.drop (position + tag.length))
      | none => (buffer, []) := by
  rw [splitAtEnd, findEarliestTag_single ht]
  cases Occurrence.indexOf? tag buffer <;> rfl

/-- What follows an end tag is shorter than the text. -/
theorem splitAtEnd_remainder {buffer tag : Str} (ht : tag ≠ []) (hb : buffer ≠ []) :
    (splitAtEnd buffer [tag]).2.length < buffer.length := by
  have hpos := List.length_pos_iff.mpr hb
  have htag := List.length_pos_iff.mpr ht
  rw [splitAtEnd_single ht]
  cases Occurrence.indexOf? tag buffer with
  | none => exact hpos
  | some position =>
    simp only [List.length_drop]
    omega

def parseToolCallChunk (s : State τ ρ κ) (finishReason : FinishReason)
    (newPhase : ProcessingPhase := .toolCallsProcessingTool) : Option Delta × State τ ρ κ :=
  let (ownedChunk, remainder) := splitAtEnd s.buffer o.toolParser.parsingConfig.endTags
  let (result, toolState) := o.toolParser.parseChunk s.toolState ownedChunk finishReason
  (result, { s with toolState := toolState, buffer := remainder, processingPhase := newPhase })

/-- The end of the reasoning segment: bytes after the end tag stay in the buffer. -/
def closeReasoningChunk (s : State τ ρ κ) (finishReason : FinishReason)
    (newPhase : ProcessingPhase) : Option Delta × State τ ρ κ :=
  let endTags := o.reasoningParser.parsingConfig.endTags
  let (ownedChunk, remainder) := splitAtEnd s.buffer endTags
  let (result, reasoningState) :=
    o.reasoningParser.parseChunk s.reasoningState ownedChunk finishReason
  (result, { s with
    reasoningState := reasoningState
    buffer := remainder
    processingPhase := newPhase
    gemma4ReasoningClosed :=
      s.gemma4ReasoningClosed || (findEarliestTag s.buffer endTags).isSome })

/-- A tool start inside an open Gemma thought, before the thought's end. -/
def handoffPosition (s : State τ ρ κ) : Option Nat :=
  match findEarliestTag s.buffer o.toolParser.parsingConfig.startTags with
  | none => none
  | some toolStart =>
    match findEarliestTag s.buffer o.reasoningParser.parsingConfig.endTags with
    | none => some toolStart.position
    | some reasoningEnd =>
      if toolStart.position < reasoningEnd.position then some toolStart.position else none

def parseReasoningChunk (s : State τ ρ κ) (finishReason : FinishReason)
    (newPhase : ProcessingPhase := .reasoning) : Option Delta × State τ ρ κ :=
  if o.gemma4ToolHandoff && s.toolsEnabledForChunk then
    match o.handoffPosition s with
    | some position =>
      -- closes only this reasoning segment; generation continues
      let closed := s.buffer.take position ++ o.reasoningParser.parsingConfig.endTags.headD []
      let (delta, reasoningState) := o.reasoningParser.parseChunk s.reasoningState closed .none
      let s := { s with
        reasoningState := reasoningState
        buffer := s.buffer.drop position
        processingPhase := .unknown
        gemma4ReasoningClosed := true }
      match delta with
      | some delta => (some delta, { s with pendingGemma4ToolHandoff := true })
      | none => o.parseToolCallChunk { s with pendingGemma4ToolHandoff := false } finishReason
    | none =>
      if lookupTags s.buffer o.toolParser.parsingConfig.startTags = .foundIncomplete &&
          finishReason = .none then (none, s)
      else o.closeReasoningChunk s finishReason newPhase
  else o.closeReasoningChunk s finishReason newPhase

def resetStreamingState (s : State τ ρ κ) : State τ ρ κ :=
  let reasoningState := o.reasoningParser.resetState s.reasoningState
  { s with
    processingPhase := if s.implicitReasoningStart then .reasoning else .unknown
    buffer := []
    pendingGemma4ToolHandoff := false
    gemma4LogicalBoundary := true
    gemma4ReasoningClosed := false
    terminalContentFinish := .none
    toolState := o.toolParser.resetState s.toolState
    reasoningState := if s.implicitReasoningStart
      then o.reasoningParser.setImplicitStart reasoningState true else reasoningState
    contentState := o.contentParser.resetState s.contentState }

def setImplicitReasoningStart (s : State τ ρ κ) (value : Bool) : State τ ρ κ :=
  { s with
    implicitReasoningStart := value
    reasoningState := o.reasoningParser.setImplicitStart s.reasoningState value
    processingPhase :=
      if s.processingPhase = .unknown ∨ s.processingPhase = .reasoning then
        if value then .reasoning else .unknown
      else s.processingPhase }

def reasoningParserSupportsStreaming : Bool :=
  !o.reasoningParser.parsingConfig.startTags.isEmpty &&
    !o.reasoningParser.parsingConfig.endTags.isEmpty

def toolParserSupportsStreaming : Bool := !o.toolParser.parsingConfig.startTags.isEmpty

/-- A complete reasoning start: the segment is parsed unless its end is only partly there. -/
def enterReasoning (s : State τ ρ κ) (finishReason : FinishReason) : Option Delta × State τ ρ κ :=
  match lookupTags s.buffer o.reasoningParser.parsingConfig.endTags with
  | .foundComplete => o.parseReasoningChunk s finishReason .unknown
  | .foundIncomplete =>
    if finishReason = .none then (none, s) else o.parseReasoningChunk s finishReason
  | .notFound => o.parseReasoningChunk s finishReason

def reasoningStartStatus (s : State τ ρ κ) : TagLookupStatus :=
  if o.reasoningParserSupportsStreaming then
    match lookupTags s.buffer o.reasoningParser.parsingConfig.startTags with
    | .notFound => o.lookupReasoningPreamble s
    | status => status
  else .notFound

def toolStartStatus (s : State τ ρ κ) : TagLookupStatus :=
  match lookupTags s.buffer o.toolParser.parsingConfig.startTags with
  | .notFound => o.lookupToolPreamble s
  | status => status

def parseUnknown (s : State τ ρ κ) (finishReason : FinishReason) : Option Delta × State τ ρ κ :=
  let applyToolParser := o.toolParserSupportsStreaming && s.toolsEnabledForChunk
  if o.reasoningStartStatus s = .foundComplete then o.enterReasoning s finishReason
  else if applyToolParser && o.toolStartStatus s = .foundComplete then
    o.parseToolCallChunk s finishReason
  else
    let anyIncomplete := o.reasoningStartStatus s = .foundIncomplete ||
      (applyToolParser && o.toolStartStatus s = .foundIncomplete)
    if (!o.reasoningParserSupportsStreaming && !applyToolParser) ||
        s.terminalContentFinish ≠ .none || !anyIncomplete then
      o.parseContentChunk s finishReason
    else (none, s)

def parseContent (s : State τ ρ κ) (finishReason : FinishReason) : Option Delta × State τ ρ κ :=
  if o.toolParserSupportsStreaming && s.toolsEnabledForChunk then
    let status :=
      match lookupTags s.buffer o.toolParser.parsingConfig.startTags with
      | .notFound => if o.gemma4ToolHandoff then o.lookupToolPreamble s else .notFound
      | status => status
    if status = .foundComplete then o.parseToolCallChunk s finishReason
    else if status = .foundIncomplete ∧ finishReason = .none then (none, s)
    else o.parseContentChunk s finishReason
  else o.parseContentChunk s finishReason

def parseProcessingTool (s : State τ ρ κ) (finishReason : FinishReason) :
    Option Delta × State τ ρ κ :=
  let status := lookupTags s.buffer o.toolParser.parsingConfig.endTags
  if status = .foundIncomplete ∧ finishReason = .none then (none, s)
  else if status = .foundComplete then
    o.parseToolCallChunk s finishReason .toolCallsWaitingForTool
  else o.parseToolCallChunk s finishReason

/-- After an envelope: the next one, or what the content parser of the route takes. -/
def parseAfterTool (s : State τ ρ κ) (finishReason : FinishReason) : Option Delta × State τ ρ κ :=
  let status := lookupTags s.buffer o.toolParser.parsingConfig.startTags
  let contentTurnStartTags := o.contentParser.parsingConfig.startTags
  if status = .foundComplete then o.parseToolCallChunk s finishReason
  else if !contentTurnStartTags.isEmpty then
    if lookupTags s.buffer contentTurnStartTags = .foundComplete ∨ finishReason ≠ .none then
      o.parseContentChunk s finishReason
    else (none, s)
  else if status = .foundIncomplete ∧ finishReason = .none then (none, s)
  else o.parseToolCallChunk s finishReason .toolCallsWaitingForTool

def parseWaitingForTool (s : State τ ρ κ) (finishReason : FinishReason) :
    Option Delta × State τ ρ κ :=
  if o.gemma4ToolHandoff then
    -- a later channel is another reasoning span
    match lookupTags s.buffer o.reasoningParser.parsingConfig.startTags with
    | .foundComplete =>
      o.enterReasoning { s with
        gemma4ReasoningClosed := false
        reasoningState := o.reasoningParser.resetState s.reasoningState } finishReason
    | .foundIncomplete =>
      if finishReason = .none then (none, s) else o.parseAfterTool s finishReason
    | .notFound => o.parseAfterTool s finishReason
  else o.parseAfterTool s finishReason

/-- The step of the current phase on the buffer. -/
def dispatch (s : State τ ρ κ) (finishReason : FinishReason) : Option Delta × State τ ρ κ :=
  match s.processingPhase with
  | .unknown => o.parseUnknown s finishReason
  | .reasoning =>
    match lookupTags s.buffer o.reasoningParser.parsingConfig.endTags with
    | .foundComplete => o.parseReasoningChunk s finishReason .unknown
    | .foundIncomplete =>
      if finishReason = .none then (none, s) else o.parseReasoningChunk s finishReason
    | .notFound => o.parseReasoningChunk s finishReason
  | .content => o.parseContent s finishReason
  | .toolCallsProcessingTool => o.parseProcessingTool s finishReason
  | .toolCallsWaitingForTool => o.parseWaitingForTool s finishReason

/-- A chunk arrives. -/
def State.receive (s : State τ ρ κ) (chunkResponse : Str) (toolsAvailable : Bool)
    (finishReason : FinishReason) : State τ ρ κ :=
  { s with
    toolsEnabledForChunk := toolsAvailable
    pendingGemma4ToolHandoff := false
    terminalContentFinish :=
      if finishReason ≠ FinishReason.none then finishReason else s.terminalContentFinish
    buffer := s.buffer ++ chunkResponse }

def parseChunk (s : State τ ρ κ) (chunkResponse : Str) (toolsAvailable : Bool)
    (finishReason : FinishReason) : Option Delta × State τ ρ κ :=
  o.dispatch (s.receive chunkResponse toolsAvailable finishReason) finishReason

def drainCache (s : State τ ρ κ) : Option Delta × State τ ρ κ :=
  if s.buffer.isEmpty then (none, s) else o.parseChunk s [] s.toolsEnabledForChunk .none

def drainPendingDelta (s : State τ ρ κ) : Option Delta × State τ ρ κ :=
  if s.pendingGemma4ToolHandoff then
    o.parseToolCallChunk { s with pendingGemma4ToolHandoff := false } .none
  else if s.processingPhase = .toolCallsProcessingTool ∨
      s.processingPhase = .toolCallsWaitingForTool then
    let (delta, toolState) := o.toolParser.drainPendingDelta s.toolState
    match delta with
    | some delta => (some delta, { s with toolState := toolState })
    | none => o.drainCache { s with toolState := toolState }
  else o.drainCache s

/-- What a streamer hands over: a chunk of text and whether the generation ended with it. -/
abbrev Input := Str × FinishReason

def parseInput (toolsAvailable : Bool) (s : State τ ρ κ) (input : Input) :
    Option Delta × State τ ρ κ :=
  o.parseChunk s input.1 toolsAvailable input.2

/-- The chunks of a generation and the natural stop after them. -/
def generation (chunks : List Str) : List Input :=
  chunks.map (fun chunk => (chunk, FinishReason.none)) ++ [([], .stop)]

/-- With tools available, the route gives these deltas on these inputs, drained after each. -/
abbrev Runs (s : State τ ρ κ) (inputs : List Input) (ds : List Delta) (t : State τ ρ κ) : Prop :=
  Streaming.Feeds (o.parseInput true) o.drainPendingDelta s inputs ds t

variable {o} in
theorem Runs.single {s t : State τ ρ κ} {chunk : Str} {finishReason : FinishReason}
    {d : Option Delta} {u : State τ ρ κ} {ds : List Delta}
    (hp : o.dispatch (s.receive chunk true finishReason) finishReason = (d, u))
    (hd : Streaming.Drains o.drainPendingDelta u ds t) :
    o.Runs s [(chunk, finishReason)] (d.toList ++ ds) t :=
  Streaming.Feeds.single hp hd

end OutputParser

/-- `DefaultContentParser`: the text without the strings to erase, held while one may be incomplete. -/
def DefaultContentParser (stringsToErase : List Str) : BaseOutputParser Unit where
  parsingConfig := {}
  parseChunk _ buf finishReason :=
    let anyComplete := stringsToErase.any fun tag => (find buf tag 0).isSome
    if !anyComplete && finishReason = .none && stringsToErase.any (stringsOverlap buf) then (none, ())
    else
      let content :=
        if anyComplete then stringsToErase.foldl (fun content tag => eraseAll tag content) buf
        else buf
      (some (.content content), ())

end ModelServer
