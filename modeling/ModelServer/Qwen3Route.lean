import ModelServer.OutputParser
import ModelServer.Qwen3CoderInvocations

namespace ModelServer

namespace Qwen3ReasoningParser

def startTag : Str := bytes "<think>"
def endTag : Str := bytes "</think>"

/-- The state is `phaseEntryTagConsumed_`. -/
def parseChunk (phaseEntryTagConsumed : Bool) (chunk : Str) (_ : FinishReason) :
    Option Delta × Bool :=
  if chunk.isEmpty then (none, phaseEntryTagConsumed)
  else
    let text :=
      match rfind chunk endTag with
      | some endTagPos => chunk.take endTagPos
      | none => chunk
    let text :=
      if phaseEntryTagConsumed then text
      else
        match find text startTag 0 with
        | some startTagPos => text.drop (startTagPos + startTag.length)
        | none => text
    (if text.isEmpty then none else some (.reasoning text), true)

end Qwen3ReasoningParser

def Qwen3ReasoningParser : BaseOutputParser Bool where
  parsingConfig :=
    { startTags := [Qwen3ReasoningParser.startTag], endTags := [Qwen3ReasoningParser.endTag] }
  parseChunk := Qwen3ReasoningParser.parseChunk
  resetState _ := false

open Qwen3CoderToolParser

def Qwen3CoderToolParser (env : Environment) : BaseOutputParser Parser where
  parsingConfig := { startTags := [TOOL_START_TAG, FUNCTION_NAME_TAG] }
  parseChunk p chunk finishReason := p.parseChunk env chunk finishReason
  drainPendingDelta := Parser.drainPendingDelta
  resetState := Parser.resetState

/-- `OutputParser("qwen3coder", "qwen3")`. -/
def qwen3Route (env : Environment) : OutputParser Parser Bool Unit where
  toolParser := Qwen3CoderToolParser env
  reasoningParser := Qwen3ReasoningParser
  contentParser := DefaultContentParser []

namespace Qwen3Route

open Qwen3ReasoningParser OutputParser

abbrev RouteState := OutputParser.State Parser Bool Unit

/-- A new route, `n` random ids having been drawn before. -/
def initial (n : Nat) : RouteState where
  toolState := { streamParser := Impl.fresh n }
  reasoningState := false
  contentState := ()

variable (env : Environment) {s : RouteState}

section Step

/-- The flags that stay as they are while chunks arrive with tools available. -/
structure Open (s : RouteState) : Prop where
  tools : s.toolsEnabledForChunk = true
  noHandoff : s.pendingGemma4ToolHandoff = false
  visible : s.contentSpecialTokensVisible = true

/-- Text that may still become a start tag: `<think>` counts until content was given out. -/
def held (phase : ProcessingPhase) (text : Str) : Bool :=
  stringsOverlap text TOOL_START_TAG || stringsOverlap text FUNCTION_NAME_TAG ||
    (phase = .unknown && stringsOverlap text startTag)

def HasToolTag (text : Str) : Prop := TOOL_START_TAG <:+: text ∨ FUNCTION_NAME_TAG <:+: text

instance (text : Str) : Decidable (HasToolTag text) :=
  inferInstanceAs (Decidable (TOOL_START_TAG <:+: text ∨ FUNCTION_NAME_TAG <:+: text))

theorem toolTags_complete {buffer : Str} :
    lookupTags buffer [TOOL_START_TAG, FUNCTION_NAME_TAG] = .foundComplete ↔ HasToolTag buffer := by
  rw [lookupTags_complete (by decide)]
  simp [HasToolTag]

theorem toolTags_of_none {buffer : Str} (hn : ¬ HasToolTag buffer) :
    lookupTags buffer [TOOL_START_TAG, FUNCTION_NAME_TAG] =
      if stringsOverlap buffer TOOL_START_TAG || stringsOverlap buffer FUNCTION_NAME_TAG
      then .foundIncomplete else .notFound := by
  rw [lookupTags_eq (by decide) (by simpa [HasToolTag] using hn)]
  simp

theorem reasoningStart_of_none {s : RouteState} (hn : ¬ startTag <:+: s.buffer) :
    (qwen3Route env).reasoningStartStatus s =
      if stringsOverlap s.buffer startTag then .foundIncomplete else .notFound := by
  have hstream : (qwen3Route env).reasoningParserSupportsStreaming = true := rfl
  have hcfg : (qwen3Route env).reasoningParser.parsingConfig.startTags = [startTag] := rfl
  have hpre : (qwen3Route env).lookupReasoningPreamble s = .notFound := rfl
  have hl : lookupTags s.buffer [startTag] =
      if [startTag].any (stringsOverlap s.buffer ·) then .foundIncomplete else .notFound :=
    lookupTags_eq (by decide) (by simpa using hn)
  rw [reasoningStartStatus, hstream, hcfg, hl]
  by_cases hov : stringsOverlap s.buffer startTag
  · simp [hov]
  · simp [hov, hpre]

theorem toolStart_status (s : RouteState) :
    (qwen3Route env).toolStartStatus s = lookupTags s.buffer [TOOL_START_TAG, FUNCTION_NAME_TAG] := by
  have hcfg : (qwen3Route env).toolParser.parsingConfig.startTags =
      [TOOL_START_TAG, FUNCTION_NAME_TAG] := rfl
  rw [toolStartStatus, hcfg]
  split
  next h =>
    rw [h]
    rfl
  next => rfl

/-- The buffer goes to the tool parser. -/
def toTool (s : RouteState) (finishReason : FinishReason) : Option Delta × RouteState :=
  let (delta, toolState) := s.toolState.parseChunk env s.buffer finishReason
  (delta, { s with
    toolState := toolState, buffer := [], processingPhase := .toolCallsProcessingTool })

/-- The buffer is content. -/
def toContent (s : RouteState) : Option Delta × RouteState :=
  (if s.buffer.isEmpty then none else some (.content s.buffer),
    { s with buffer := [], processingPhase := .content })

theorem parseToolCallChunk_eq (s : RouteState) (finishReason : FinishReason) :
    (qwen3Route env).parseToolCallChunk s finishReason = toTool env s finishReason := rfl

theorem parseContentChunk_eq (s : RouteState) (finishReason : FinishReason) :
    (qwen3Route env).parseContentChunk s finishReason = toContent s := by
  simp [parseContentChunk, filterContent, qwen3Route, DefaultContentParser, toContent]

theorem dispatch_tool (ho : Open s)
    (hp : s.processingPhase = .content ∨
      s.processingPhase = .unknown ∧ ¬ startTag <:+: s.buffer)
    (htag : HasToolTag s.buffer) (finishReason : FinishReason) :
    (qwen3Route env).dispatch s finishReason = toTool env s finishReason := by
  have hstream : (qwen3Route env).toolParserSupportsStreaming = true := rfl
  have hcfg : (qwen3Route env).toolParser.parsingConfig.startTags =
      [TOOL_START_TAG, FUNCTION_NAME_TAG] := rfl
  have hlook := toolTags_complete.mpr htag
  rcases hp with hp | ⟨hp, hthink⟩
  · simp [dispatch, hp, parseContent, hstream, ho.tools, hcfg, hlook, parseToolCallChunk_eq]
  · have hreason : (qwen3Route env).reasoningStartStatus s ≠ .foundComplete := by
      rw [reasoningStart_of_none env hthink]
      split <;> simp
    simp [dispatch, hp, parseUnknown, hstream, ho.tools, toolStart_status, hlook, hreason,
      parseToolCallChunk_eq]

/-- Without a start tag: held while the text may become one and more may come. -/
theorem dispatch_text (ho : Open s)
    (hp : s.processingPhase = .content ∨
      s.processingPhase = .unknown ∧ ¬ startTag <:+: s.buffer)
    (htag : ¬ HasToolTag s.buffer) {finishReason : FinishReason}
    (hterm : s.terminalContentFinish = .none ↔ finishReason = .none) :
    (qwen3Route env).dispatch s finishReason =
      if held s.processingPhase s.buffer ∧ finishReason = .none then (none, s) else toContent s := by
  have hstream : (qwen3Route env).toolParserSupportsStreaming = true := rfl
  have hcfg : (qwen3Route env).toolParser.parsingConfig.startTags =
      [TOOL_START_TAG, FUNCTION_NAME_TAG] := rfl
  have hgemma : (qwen3Route env).gemma4ToolHandoff = false := rfl
  have hlook := toolTags_of_none htag
  rcases hp with hp | ⟨hp, hthink⟩
  · by_cases hov : stringsOverlap s.buffer TOOL_START_TAG || stringsOverlap s.buffer FUNCTION_NAME_TAG
    · rw [if_pos hov] at hlook
      simp [dispatch, hp, parseContent, hstream, ho.tools, hcfg, hlook, held, hov,
        parseContentChunk_eq]
    · rw [if_neg hov] at hlook
      simp [dispatch, hp, parseContent, hstream, ho.tools, hcfg, hlook, held, hov, hgemma,
        parseContentChunk_eq]
  · have hreason := reasoningStart_of_none env hthink
    have hends : (qwen3Route env).reasoningParserSupportsStreaming = true := rfl
    by_cases hov : stringsOverlap s.buffer TOOL_START_TAG || stringsOverlap s.buffer FUNCTION_NAME_TAG
    · rw [if_pos hov] at hlook
      by_cases hr : stringsOverlap s.buffer startTag <;>
        simp [dispatch, hp, parseUnknown, hstream, hends, ho.tools, toolStart_status, hlook, hreason,
          hr, held, hov, hterm, parseContentChunk_eq]
    · rw [if_neg hov] at hlook
      by_cases hr : stringsOverlap s.buffer startTag <;>
        simp [dispatch, hp, parseUnknown, hstream, hends, ho.tools, toolStart_status, hlook, hreason,
          hr, held, hov, hterm, parseContentChunk_eq]

/-- All that a step can do: keep the buffer, give it out as content, hand it to the
tool parser or hand it to the reasoning parser up to the end tag. -/
theorem dispatch_cases (s : RouteState) (finishReason : FinishReason) :
    (qwen3Route env).dispatch s finishReason = (none, s) ∨
      (qwen3Route env).dispatch s finishReason = toContent s ∨
      (∃ phase, (qwen3Route env).dispatch s finishReason =
        (qwen3Route env).parseToolCallChunk s finishReason phase) ∨
      ∃ phase, (qwen3Route env).dispatch s finishReason =
        (qwen3Route env).closeReasoningChunk s finishReason phase := by
  have hreason (phase) : (qwen3Route env).parseReasoningChunk s finishReason phase =
      (qwen3Route env).closeReasoningChunk s finishReason phase := rfl
  have hafter : (qwen3Route env).parseWaitingForTool s finishReason =
      (qwen3Route env).parseAfterTool s finishReason := rfl
  have hturn : (qwen3Route env).contentParser.parsingConfig.startTags = [] := rfl
  unfold dispatch
  split
  · unfold parseUnknown enterReasoning
    simp only [hreason, parseContentChunk_eq]
    grind
  · simp only [hreason]
    grind
  · unfold parseContent
    simp only [parseContentChunk_eq]
    grind
  · unfold parseProcessingTool
    grind
  · rw [hafter]
    unfold parseAfterTool
    simp only [hturn, List.isEmpty_nil, Bool.not_true]
    grind

theorem dispatch_shrinks {s t : RouteState} {d : Delta} {finishReason : FinishReason}
    (h : (qwen3Route env).dispatch s finishReason = (some d, t)) (hb : s.buffer ≠ []) :
    t.pendingGemma4ToolHandoff = s.pendingGemma4ToolHandoff ∧ t.buffer.length < s.buffer.length := by
  have hpos := List.length_pos_iff.mpr hb
  rcases dispatch_cases env s finishReason with hc | hc | ⟨phase, hc⟩ | ⟨phase, hc⟩
  · rw [h] at hc
    cases hc
  · rw [h] at hc
    cases congrArg Prod.snd hc
    exact ⟨rfl, hpos⟩
  · rw [h] at hc
    cases congrArg Prod.snd hc
    exact ⟨rfl, hpos⟩
  · rw [h] at hc
    cases congrArg Prod.snd hc
    exact ⟨rfl, splitAtEnd_remainder (by decide) hb⟩

end Step

section Call

theorem receive_nil (ho : Open s) : s.receive [] true .none = s := by
  obtain ⟨toolState, reasoningState, contentState, phase, buffer, implicit, pending, tools⟩ := s
  obtain ⟨htools, hpending, _⟩ := ho
  simp only at htools hpending
  subst htools hpending
  simp [State.receive]

theorem receive_open (hv : s.contentSpecialTokensVisible = true) (chunk : Str)
    (finishReason : FinishReason) : Open (s.receive chunk true finishReason) :=
  ⟨rfl, rfl, hv⟩

/-- The queue of the tool parser has no say yet. -/
def BeforeTool (phase : ProcessingPhase) : Prop :=
  phase ≠ .toolCallsProcessingTool ∧ phase ≠ .toolCallsWaitingForTool

theorem drains_empty (ho : Open s) (hb : s.buffer = []) (hp : BeforeTool s.processingPhase) :
    Streaming.Drains (qwen3Route env).drainPendingDelta s [] s := by
  refine .done ?_
  simp [drainPendingDelta, drainCache, ho.noHandoff, hp.1, hp.2, hb]

theorem drain_eq_dispatch (ho : Open s) (hp : BeforeTool s.processingPhase) (hb : s.buffer ≠ []) :
    (qwen3Route env).drainPendingDelta s = (qwen3Route env).dispatch s .none := by
  have hrec := receive_nil ho
  simp [drainPendingDelta, drainCache, ho.noHandoff, ho.tools, hp.1, hp.2, hb,
    OutputParser.parseChunk, hrec]

/-- The buffer is dispatched and the route drained: as part of a call or within a drain. -/
def Settles (u : RouteState) (ds : List Delta) (t : RouteState) : Prop :=
  ∃ d v es, (qwen3Route env).dispatch u .none = (d, v) ∧
    Streaming.Drains (qwen3Route env).drainPendingDelta v es t ∧
    ds = d.toList ++ es ∧ (d = none → es = [] ∧ t = v)

variable {env} in
theorem Settles.runs {chunk : Str} {ds : List Delta} {t : RouteState}
    (h : Settles env (s.receive chunk true .none) ds t) :
    (qwen3Route env).Runs s [(chunk, .none)] ds t := by
  obtain ⟨d, v, es, hd, hdrain, rfl, _⟩ := h
  exact Runs.single hd hdrain

variable {env} in
theorem Settles.drains {u t : RouteState} {ds : List Delta} (h : Settles env u ds t) (ho : Open u)
    (hp : BeforeTool u.processingPhase) (hb : u.buffer ≠ []) :
    Streaming.Drains (qwen3Route env).drainPendingDelta u ds t := by
  obtain ⟨d, v, es, hd, hdrain, rfl, hnone⟩ := h
  rw [← drain_eq_dispatch env ho hp hb] at hd
  cases d with
  | none =>
    obtain ⟨rfl, rfl⟩ := hnone rfl
    exact .done hd
  | some d => exact .more hd hdrain

/-- A step that leaves everything as it is leaves the drain nothing to do. -/
theorem settles_quiet (ho : Open s) (hp : BeforeTool s.processingPhase)
    (hd : (qwen3Route env).dispatch s .none = (none, s)) : Settles env s [] s := by
  refine ⟨none, s, [], hd, ?_, rfl, fun _ => ⟨rfl, rfl⟩⟩
  by_cases hb : s.buffer = []
  · exact drains_empty env ho hb hp
  · exact .done ((drain_eq_dispatch env ho hp hb).trans hd)

/-- Held text stays held. -/
theorem settles_held (ho : Open s)
    (hp : s.processingPhase = .content ∨
      s.processingPhase = .unknown ∧ ¬ startTag <:+: s.buffer)
    (htag : ¬ HasToolTag s.buffer) (hh : held s.processingPhase s.buffer = true)
    (hrun : s.terminalContentFinish = .none) : Settles env s [] s := by
  have hphase : BeforeTool s.processingPhase := by
    rcases hp with hp | ⟨hp, _⟩ <;> simp [BeforeTool, hp]
  refine settles_quiet env ho hphase ?_
  rw [dispatch_text env ho hp htag (by simp [hrun]), if_pos ⟨hh, rfl⟩]

/-- Text that no start tag can begin in is given out. -/
theorem settles_content (ho : Open s)
    (hp : s.processingPhase = .content ∨
      s.processingPhase = .unknown ∧ ¬ startTag <:+: s.buffer)
    (htag : ¬ HasToolTag s.buffer) (hh : held s.processingPhase s.buffer = false)
    (hrun : s.terminalContentFinish = .none) :
    Settles env s (toContent s).1.toList (toContent s).2 := by
  have hd : (qwen3Route env).dispatch s .none = toContent s := by
    rw [dispatch_text env ho hp htag (by simp [hrun]), if_neg (by simp [hh])]
  refine ⟨_, _, [], hd, ?_, (List.append_nil _).symm, fun _ => ⟨rfl, rfl⟩⟩
  exact drains_empty env ⟨ho.tools, ho.noHandoff, ho.visible⟩ rfl ⟨by simp, by simp⟩

/-- In the tool phase the queue of the tool parser is given out. -/
theorem drains_tool (ho : s.pendingGemma4ToolHandoff = false) (hb : s.buffer = [])
    (hp : s.processingPhase = .toolCallsProcessingTool) :
    Streaming.Drains (qwen3Route env).drainPendingDelta s s.toolState.pendingDeltas
      { s with toolState := { s.toolState with pendingDeltas := [] } } := by
  induction hq : s.toolState.pendingDeltas generalizing s with
  | nil =>
    refine .done ?_
    simp [drainPendingDelta, ho, hp, qwen3Route, Qwen3CoderToolParser, Parser.drainPendingDelta,
      Parser.takeQueuedDelta, hq, drainCache, hb]
  | cons d ds ih =>
    have hstep : (qwen3Route env).drainPendingDelta s =
        (some d, { s with toolState := { s.toolState with pendingDeltas := ds } }) := by
      simp [drainPendingDelta, ho, hp, qwen3Route, Qwen3CoderToolParser, Parser.drainPendingDelta,
        Parser.takeQueuedDelta, hq]
    exact .more hstep (ih (s := { s with toolState := { s.toolState with pendingDeltas := ds } })
      ho hb hp rfl)

/-- The buffer is delivered to the tool parser, which is then drained. -/
theorem toTool_drained (ho : s.pendingGemma4ToolHandoff = false) (finishReason : FinishReason) :
    ∃ ds, Streaming.Drains (qwen3Route env).drainPendingDelta (toTool env s finishReason).2 ds
        { s with
          toolState := delivered env s.toolState s.buffer finishReason
          buffer := []
          processingPhase := .toolCallsProcessingTool } ∧
      (s.toolState.consume env s.buffer finishReason).pendingDeltas =
        (toTool env s finishReason).1.toList ++ ds ∧
      ((toTool env s finishReason).1 = none → ds = []) := by
  refine ⟨_, drains_tool env (s := (toTool env s finishReason).2) ho rfl rfl, ?_⟩
  simp only [toTool, Parser.parseChunk, Parser.takeQueuedDelta]
  cases (s.toolState.consume env s.buffer finishReason).pendingDeltas with
  | nil => exact ⟨rfl, fun _ => rfl⟩
  | cons d ds => exact ⟨rfl, by simp⟩

theorem settles_tool (ho : Open s)
    (hp : s.processingPhase = .content ∨
      s.processingPhase = .unknown ∧ ¬ startTag <:+: s.buffer)
    (htag : HasToolTag s.buffer) :
    Settles env s (s.toolState.consume env s.buffer .none).pendingDeltas
      { s with
        toolState := delivered env s.toolState s.buffer .none
        buffer := []
        processingPhase := .toolCallsProcessingTool } := by
  obtain ⟨ds, hdrain, hout, hnone⟩ := toTool_drained env ho.noHandoff .none
  refine ⟨(toTool env s .none).1, (toTool env s .none).2, ds, dispatch_tool env ho hp htag .none,
    hdrain, hout, ?_⟩
  intro hn
  refine ⟨hnone hn, ?_⟩
  have hempty : (s.toolState.consume env s.buffer .none).pendingDeltas = [] := by
    rw [hout, hn, hnone hn]
    rfl
  simp only [toTool, Parser.parseChunk, Parser.takeQueuedDelta, delivered, hempty, List.tail_nil]

end Call

section Total

/-- Every delta a drain gives shortens the buffer, or the queue of the tool parser. -/
theorem drain_shrinks {s t : RouteState} {d : Delta} (hs : s.pendingGemma4ToolHandoff = false)
    (h : (qwen3Route env).drainPendingDelta s = (some d, t)) :
    t.pendingGemma4ToolHandoff = false ∧
      Prod.Lex (· < ·) (· < ·) (t.buffer.length, t.toolState.pendingDeltas.length)
        (s.buffer.length, s.toolState.pendingDeltas.length) := by
  have hcache : ∀ u : RouteState, (qwen3Route env).drainCache u = (some d, t) →
      t.pendingGemma4ToolHandoff = false ∧ t.buffer.length < u.buffer.length := by
    intro u hu
    by_cases hb : u.buffer = []
    · simp [drainCache, hb] at hu
    · have hd : (qwen3Route env).dispatch (u.receive [] u.toolsEnabledForChunk .none) .none =
          (some d, t) := by
        simpa [drainCache, hb, OutputParser.parseChunk] using hu
      have hlen := dispatch_shrinks env hd (by simpa [State.receive] using hb)
      simpa [State.receive] using hlen
  rw [drainPendingDelta, hs, if_neg Bool.false_ne_true] at h
  split at h
  · simp only [qwen3Route, Qwen3CoderToolParser, Parser.drainPendingDelta, Parser.takeQueuedDelta] at h
    cases hq : s.toolState.pendingDeltas with
    | nil =>
      rw [hq] at h
      obtain ⟨hpending, hlen⟩ := hcache _ h
      exact ⟨hpending, Prod.Lex.left _ _ hlen⟩
    | cons e es =>
      rw [hq] at h
      cases congrArg Prod.snd h
      exact ⟨rfl, Prod.Lex.right _ (by simp)⟩
  · obtain ⟨hpending, hlen⟩ := hcache s h
    exact ⟨hpending, Prod.Lex.left _ _ hlen⟩

theorem dispatch_noHandoff (s : RouteState) (finishReason : FinishReason) :
    ((qwen3Route env).dispatch s finishReason).2.pendingGemma4ToolHandoff =
      s.pendingGemma4ToolHandoff := by
  rcases dispatch_cases env s finishReason with hc | hc | ⟨phase, hc⟩ | ⟨phase, hc⟩
  all_goals exact congrArg (fun r => r.2.pendingGemma4ToolHandoff) hc

/-- Every sequence of calls, drained after each, comes to an end. -/
theorem runs_total (s : RouteState) (inputs : List Input) :
    ∃ ds t, (qwen3Route env).Runs s inputs ds t := by
  refine Streaming.feeds_total ?_ s inputs
  intro s input
  refine Streaming.drains_of_measure (Prod.lex ⟨_, Nat.lt_wfRel.wf⟩ ⟨_, Nat.lt_wfRel.wf⟩).wf
    (fun t : RouteState => (t.buffer.length, t.toolState.pendingDeltas.length))
    (fun t => t.pendingGemma4ToolHandoff = false) (fun s d t hs h => drain_shrinks env hs h) _ ?_
  exact dispatch_noHandoff env _ _

end Total

/-- No tools are declared. -/
def bareEnvironment : Environment where
  rapidJson := ⟨fun _ => none, fun _ => none, fun _ => bytes "{}"⟩
  randomIds := .growing
  toolSchemas := []
  validateQwenXmlToolArguments _ _ := false

end Qwen3Route

end ModelServer
