import ModelServer.Loop
import ModelServer.OutputParser

namespace ModelServer

namespace GptOssContentParser

def MESSAGE_TAG : Str := bytes "<|message|>"
def MESSAGE_END_TAGS : List Str := [bytes "<|end|>", bytes "<|return|>", bytes "<|call|>"]
def START_TAG : Str := bytes "<|start|>"
def CHANNEL_TAG : Str := bytes "<|channel|>"

/-- The length of the longest part of a tag at the end of a text; the whole tag is no part of it. -/
def findPartialTagLength (text : Str) (tags : List Str) : Nat :=
  tags.foldl (fun partialLength tag =>
    if tag.isEmpty then partialLength
    else
      let maxLength := min text.length (tag.length - 1)
      ((List.range (maxLength + 1)).reverse.find? fun length =>
        partialLength < length && text.drop (text.length - length) == tag.take length).getD partialLength) 0

inductive StreamState
  | readingHeader
  | readingBody
deriving DecidableEq

structure State where
  streamState : StreamState := .readingHeader
  pendingInput : Str := []
  processedChunkSize : Nat := 0
  shouldEmitCurrentMessageBody : Bool := false

def shouldEmitBody (header : Str) : Bool :=
  if (find header (bytes "to=functions.") 0).isSome then false
  else
    let channelPos := rfind header CHANNEL_TAG
    let authorStart := ((find header START_TAG 0).map (· + START_TAG.length)).getD 0
    let authorEnd := channelPos.getD header.length
    if authorEnd < authorStart then false
    else
      let author := substr header authorStart (authorEnd - authorStart)
      if (bytes "functions.").isPrefixOf author then false
      else
        match channelPos with
        | none => (bytes "assistant").isPrefixOf author
        | some channelPos =>
          let channel := (header.drop (channelPos + CHANNEL_TAG.length)).takeWhile fun c => c ∉ bytes " \t\r\n<"
          channel = bytes "final" || channel = bytes "commentary"

namespace State

/-- A buffer that has been kept brings only what is new in it. -/
def appendNewChunk (s : State) (chunk : Str) : State :=
  { s with
    pendingInput := s.pendingInput ++ chunk.drop (min s.processedChunkSize chunk.length)
    processedChunkSize := chunk.length }

/-- Whether the parser has advanced, and the content there is then. -/
def consumeHeader (s : State) (content : Str) : Bool × Str × State :=
  match find s.pendingInput MESSAGE_TAG 0 with
  | none =>
    match find s.pendingInput (bytes "<|") 0 with
    | none => (false, content ++ s.pendingInput, { s with pendingInput := [] })
    | some structuralPos =>
      (false, content ++ s.pendingInput.take structuralPos, { s with pendingInput := s.pendingInput.drop structuralPos })
  | some messagePos =>
    (true, content, { s with
      shouldEmitCurrentMessageBody := shouldEmitBody (s.pendingInput.take messagePos)
      pendingInput := s.pendingInput.drop (messagePos + MESSAGE_TAG.length)
      streamState := .readingBody })

/-- A body that is not shown is skipped. -/
def emit (s : State) (body : Str) : Str := if s.shouldEmitCurrentMessageBody then body else []

/-- The body up to its end tag, or up to what may become one. -/
def consumeBody (s : State) (content : Str) : Bool × Str × State :=
  match findEarliestTag s.pendingInput MESSAGE_END_TAGS with
  | some endTag =>
    (true, content ++ s.emit (s.pendingInput.take endTag.position), { s with
      pendingInput := s.pendingInput.drop (endTag.position + endTag.length)
      streamState := .readingHeader
      shouldEmitCurrentMessageBody := false })
  | none =>
    let contentLength := s.pendingInput.length - findPartialTagLength s.pendingInput MESSAGE_END_TAGS
    (false, content ++ s.emit (s.pendingInput.take contentLength), { s with pendingInput := s.pendingInput.drop contentLength })

/-- The state with the content and `wasMessageConsumed`. -/
structure Pass where
  state : State
  content : Str := []
  wasMessageConsumed : Bool := false

/-- The body of the `while` loop. -/
def parseBody (pass : Pass) : Pass ⊕ Pass :=
  if pass.state.pendingInput.isEmpty then .inr pass
  else
    match pass.state.streamState with
    | .readingHeader =>
      let (advanced, content, state) := pass.state.consumeHeader pass.content
      if advanced then .inl { pass with state := state, content := content } else .inr { pass with state := state, content := content }
    | .readingBody =>
      let (advanced, content, state) := pass.state.consumeBody pass.content
      if advanced then .inl ⟨state, content, true⟩ else .inr { pass with state := state, content := content }

/-- Each pass that advances takes a tag out of the input. -/
def parseAll (s : State) : Pass := Loop.run parseBody (s.pendingInput.length + 1) ⟨s, [], false⟩ ⟨s, [], false⟩

def parseChunk (s : State) (chunk : Str) (_ : FinishReason) : Option Delta × State :=
  let pass := (s.appendNewChunk chunk).parseAll
  if !pass.content.isEmpty || pass.wasMessageConsumed then
    (some (.content pass.content), { pass.state with processedChunkSize := 0 })
  else (none, pass.state)

end State

end GptOssContentParser

def GptOssContentParser : BaseOutputParser GptOssContentParser.State where
  parsingConfig :=
    { startTags := [bytes "<|channel|>commentary<|message|>", bytes "<|start|>assistant<|channel|>commentary<|message|>",
        bytes "<|channel|>final<|message|>", bytes "<|start|>assistant<|channel|>final<|message|>"] }
  parseChunk := GptOssContentParser.State.parseChunk
  resetState _ := {}

namespace OnyxContentParser

def HOLD_TAGS : List Str := [bytes "<|eom|>", bytes "<|start|>assistant ", bytes "<|message|>", bytes "<|eot|>"]
def ROUTING_TAGS : List Str := [bytes " to=user", bytes "to=user"]

def eraseTags (content : Str) (tags : List Str) : Str := tags.foldl (fun content tag => eraseAll tag content) content

/-- Held while a tag may be incomplete, whatever the finish reason is. -/
def parseChunk (_ : Unit) (buffer : Str) (_ : FinishReason) : Option Delta × Unit :=
  if HOLD_TAGS.any fun tag => (find buffer tag 0).isNone && stringsOverlap buffer tag then (none, ())
  else
    let anyComplete := HOLD_TAGS.any fun tag => (find buffer tag 0).isSome
    let content := if anyComplete then eraseTags buffer HOLD_TAGS else buffer
    (some (.content (eraseTags content ROUTING_TAGS)), ())

end OnyxContentParser

def OnyxContentParser : BaseOutputParser Unit where
  parsingConfig := { startTags := [bytes "to=user<|message|>"] }
  parseChunk := OnyxContentParser.parseChunk

namespace GptOssContentParser.State

theorem parseBody_less {pass next : Pass} (h : parseBody pass = .inl next) :
    next.state.pendingInput.length < pass.state.pendingInput.length := by
  unfold parseBody at h
  split at h
  next => cases h
  next hinput =>
    have hpos : 0 < pass.state.pendingInput.length := List.length_pos_iff.mpr (by simpa using hinput)
    split at h
    next =>
      unfold consumeHeader at h
      dsimp only at h
      cases hmessage : find pass.state.pendingInput MESSAGE_TAG 0 with
      | none =>
        rw [hmessage] at h
        cases hstructural : find pass.state.pendingInput (bytes "<|") 0 <;> simp [hstructural] at h
      | some messagePos =>
        have htag : MESSAGE_TAG.length = 11 := rfl
        rw [hmessage] at h
        cases h
        simp only [List.length_drop]
        omega
    next =>
      unfold consumeBody at h
      dsimp only at h
      cases hend : findEarliestTag pass.state.pendingInput MESSAGE_END_TAGS with
      | none => simp [hend] at h
      | some endTag =>
        have hbounds := findEarliestTag_bounds hend
        rw [hend] at h
        cases h
        simp only [List.length_drop]
        omega

/-- The loop is left by itself. -/
theorem parseAll_exits (s : State) : Loop.Exits parseBody ⟨s, [], false⟩ s.parseAll :=
  Loop.run_exits (fun pass => pass.state.pendingInput.length) (fun _ _ => parseBody_less) _ (Nat.lt_succ_self _)

end GptOssContentParser.State

end ModelServer
