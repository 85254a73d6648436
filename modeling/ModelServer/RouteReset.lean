import ModelServer.OutputParser

/-! Two routes whose tool parsers differ in the ids they draw give out the same
deltas, ids aside; so does a route that has been reset, next to a new one. -/

namespace ModelServer

/-- A delta without its random id. -/
def Delta.anonymous : Delta → Delta
  | .toolCall call => .toolCall { call with id := call.id.map fun _ => [] }
  | delta => delta

/-- Results that are alike, ids aside, with states that are related. -/
def Alike {σ : Type} (same : σ → σ → Prop) (r r' : Option Delta × σ) : Prop :=
  r.1.map Delta.anonymous = r'.1.map Delta.anonymous ∧ same r.2 r'.2

theorem Alike.quiet {σ : Type} {same : σ → σ → Prop} {s t : σ} (h : same s t) :
    Alike same (none, s) (none, t) := ⟨rfl, h⟩

theorem Alike.ite {σ : Type} {same : σ → σ → Prop} {c : Prop} [Decidable c]
    {a b a' b' : Option Delta × σ} (ha : c → Alike same a a') (hb : ¬ c → Alike same b b') :
    Alike same (if c then a else b) (if c then a' else b') := by
  by_cases h : c
  · rw [if_pos h, if_pos h]
    exact ha h
  · rw [if_neg h, if_neg h]
    exact hb h

namespace BaseOutputParser

/-- Related states of the two parsers answer alike. -/
structure Interchangeable {σ : Type} (P P' : BaseOutputParser σ) (same : σ → σ → Prop) : Prop where
  parsingConfig : P'.parsingConfig = P.parsingConfig
  parseChunk {s t : σ} (h : same s t) (chunk : Str) (finishReason : FinishReason) :
    Alike same (P.parseChunk s chunk finishReason) (P'.parseChunk t chunk finishReason)
  drainPendingDelta {s t : σ} (h : same s t) :
    Alike same (P.drainPendingDelta s) (P'.drainPendingDelta t)

/-- What chunks and resets keep. -/
structure Maintains {σ : Type} (P : BaseOutputParser σ) (inv : σ → Prop) : Prop where
  parseChunk {s : σ} (h : inv s) (chunk : Str) (finishReason : FinishReason) :
    inv (P.parseChunk s chunk finishReason).2
  resetState {s : σ} (h : inv s) : inv (P.resetState s)

end BaseOutputParser

namespace OutputParser

variable {τ ρ κ : Type}

/-- What is called on a route while a response is streamed. -/
inductive Call
  | parseChunk (chunkResponse : Str) (toolsAvailable : Bool) (finishReason : FinishReason)
  | drainPendingDelta

section Calls

variable (o : OutputParser τ ρ κ)

def perform (s : State τ ρ κ) : Call → Option Delta × State τ ρ κ
  | .parseChunk chunkResponse toolsAvailable finishReason =>
    o.parseChunk s chunkResponse toolsAvailable finishReason
  | .drainPendingDelta => o.drainPendingDelta s

/-- The state after these calls. -/
def after (s : State τ ρ κ) (calls : List Call) : State τ ρ κ :=
  calls.foldl (fun s call => (o.perform s call).2) s

/-- What each of these calls returns. -/
def returned (s : State τ ρ κ) : List Call → List (Option Delta)
  | [] => []
  | call :: calls => (o.perform s call).1 :: returned (o.perform s call).2 calls

/-- `setImplicitReasoningStart` and `setContentSpecialTokensVisible`. -/
def configure (s : State τ ρ κ) (implicitReasoningStart contentSpecialTokensVisible : Bool) :
    State τ ρ κ :=
  { o.setImplicitReasoningStart s implicitReasoningStart with
    contentSpecialTokensVisible := contentSpecialTokensVisible }

end Calls

section Related

/-- Routes over one reasoning and one content parser, with interchangeable tool parsers. -/
structure Similar (o o' : OutputParser τ ρ κ) (same : τ → τ → Prop) : Prop where
  toolParser : o.toolParser.Interchangeable o'.toolParser same
  reasoningParser : o'.reasoningParser = o.reasoningParser
  contentParser : o'.contentParser = o.contentParser
  gemma4ToolHandoff : o'.gemma4ToolHandoff = o.gemma4ToolHandoff
  contentTokensToHide : o'.contentTokensToHide = o.contentTokensToHide

/-- States that differ in the ids of the tool parser at most, under these settings. -/
structure Related (same : τ → τ → Prop) (inv : ρ → Prop) (implicit visible : Bool)
    (s t : State τ ρ κ) : Prop where
  toolState : same s.toolState t.toolState
  reasoningState : inv s.reasoningState
  settings : s.implicitReasoningStart = implicit ∧ s.contentSpecialTokensVisible = visible
  rest : t = { s with toolState := t.toolState }

variable {o o' : OutputParser τ ρ κ} {same : τ → τ → Prop} {inv : ρ → Prop} {implicit visible : Bool}
  {s t : State τ ρ κ} (finishReason : FinishReason)

theorem Related.tool (h : Related same inv implicit visible s t) :
    ∃ x, t = { s with toolState := x } ∧ same s.toolState x :=
  ⟨t.toolState, h.rest, h.toolState⟩

/-- A change that leaves the tool parser alone. -/
theorem Related.update (h : Related same inv implicit visible s t) {s' t' : State τ ρ κ}
    (htool : s'.toolState = s.toolState) (htool' : t'.toolState = t.toolState)
    (hreason : inv s'.reasoningState)
    (hsettings : s'.implicitReasoningStart = s.implicitReasoningStart ∧
      s'.contentSpecialTokensVisible = s.contentSpecialTokensVisible)
    (hrest : t' = { s' with toolState := t.toolState }) : Related same inv implicit visible s' t' where
  toolState := by
    rw [htool, htool']
    exact h.toolState
  reasoningState := hreason
  settings := by
    rw [hsettings.1, hsettings.2]
    exact h.settings
  rest := by
    rw [htool']
    exact hrest

section Steps

variable (ho : Similar o o' same) (hr : o.reasoningParser.Maintains inv)

theorem release_alike (h : Related same inv implicit visible s t) (gemma4ToolHandoff : Bool)
    (result : Option Delta × κ) :
    Alike (Related same inv implicit visible) (s.release gemma4ToolHandoff result)
      (t.release gemma4ToolHandoff result) := by
  obtain ⟨x, rfl, hx⟩ := h.tool
  unfold State.release
  split
  · exact .quiet (h.update rfl rfl h.reasoningState ⟨rfl, rfl⟩ rfl)
  · exact ⟨rfl, h.update rfl rfl h.reasoningState ⟨rfl, rfl⟩ rfl⟩
  · exact ⟨rfl, h.update rfl rfl h.reasoningState ⟨rfl, rfl⟩ rfl⟩

include ho

theorem parseContentChunk_alike (h : Related same inv implicit visible s t) :
    Alike (Related same inv implicit visible) (o.parseContentChunk s finishReason)
      (o'.parseContentChunk t finishReason) := by
  have hfilter (reason : FinishReason) : o'.filterContent t reason = o.filterContent s reason := by
    rw [filterContent, filterContent, ho.contentTokensToHide, h.rest]
  have hterm : t.terminalContentFinish = s.terminalContentFinish := by rw [h.rest]
  have hcontent : t.contentState = s.contentState := by rw [h.rest]
  rw [parseContentChunk_eq, parseContentChunk_eq, ho.contentParser, ho.gemma4ToolHandoff, hterm, hcontent]
  dsimp only
  rw [hfilter]
  split
  · exact .quiet h
  · exact release_alike h _ _

theorem parseToolCallChunk_alike (h : Related same inv implicit visible s t) (phase : ProcessingPhase) :
    Alike (Related same inv implicit visible) (o.parseToolCallChunk s finishReason phase)
      (o'.parseToolCallChunk t finishReason phase) := by
  obtain ⟨x, rfl, hx⟩ := h.tool
  obtain ⟨hdelta, hstate⟩ :=
    ho.toolParser.parseChunk hx (splitAtEnd s.buffer o.toolParser.parsingConfig.endTags).1 finishReason
  rw [parseToolCallChunk, parseToolCallChunk, ho.toolParser.parsingConfig]
  exact ⟨hdelta, hstate, h.reasoningState, h.settings, rfl⟩

include hr

theorem closeReasoningChunk_alike (h : Related same inv implicit visible s t) (phase : ProcessingPhase) :
    Alike (Related same inv implicit visible) (o.closeReasoningChunk s finishReason phase)
      (o'.closeReasoningChunk t finishReason phase) := by
  obtain ⟨x, rfl, hx⟩ := h.tool
  have hreason := hr.parseChunk h.reasoningState
    (splitAtEnd s.buffer o.reasoningParser.parsingConfig.endTags).1 finishReason
  rw [closeReasoningChunk, closeReasoningChunk, ho.reasoningParser]
  exact ⟨rfl, h.update rfl rfl hreason ⟨rfl, rfl⟩ rfl⟩

theorem parseReasoningChunk_alike (h : Related same inv implicit visible s t) (phase : ProcessingPhase) :
    Alike (Related same inv implicit visible) (o.parseReasoningChunk s finishReason phase)
      (o'.parseReasoningChunk t finishReason phase) := by
  have hposition : o'.handoffPosition t = o.handoffPosition s := by
    rw [handoffPosition, handoffPosition, ho.toolParser.parsingConfig, ho.reasoningParser, h.rest]
  have hclose := closeReasoningChunk_alike finishReason ho hr h phase
  obtain ⟨x, rfl, hx⟩ := h.tool
  rw [parseReasoningChunk, parseReasoningChunk, hposition, ho.gemma4ToolHandoff,
    ho.toolParser.parsingConfig, ho.reasoningParser]
  refine .ite (fun _ => ?_) fun _ => hclose
  split
  next position _ =>
    have hreason := hr.parseChunk h.reasoningState
      (s.buffer.take position ++ o.reasoningParser.parsingConfig.endTags.headD []) .none
    dsimp only
    split
    · exact ⟨rfl, h.update rfl rfl hreason ⟨rfl, rfl⟩ rfl⟩
    · apply parseToolCallChunk_alike finishReason ho
      exact h.update rfl rfl hreason ⟨rfl, rfl⟩ rfl
  · exact .ite (fun _ => .quiet h) fun _ => hclose

theorem enterReasoning_alike (h : Related same inv implicit visible s t) :
    Alike (Related same inv implicit visible) (o.enterReasoning s finishReason)
      (o'.enterReasoning t finishReason) := by
  have hparse := parseReasoningChunk_alike finishReason ho hr h
  have hbuffer : t.buffer = s.buffer := by rw [h.rest]
  rw [enterReasoning, enterReasoning, hbuffer, ho.reasoningParser]
  split
  · exact hparse _
  · exact .ite (fun _ => .quiet h) fun _ => hparse _
  · exact hparse _

omit hr in
/-- What the routes look for they find alike. -/
theorem lookups_alike (h : Related same inv implicit visible s t) :
    o'.reasoningStartStatus t = o.reasoningStartStatus s ∧ o'.toolStartStatus t = o.toolStartStatus s ∧
      o'.lookupToolPreamble t = o.lookupToolPreamble s := by
  have hpreamble : o'.lookupReasoningPreamble t = o.lookupReasoningPreamble s := by
    rw [lookupReasoningPreamble, lookupReasoningPreamble, ho.reasoningParser, ho.gemma4ToolHandoff, h.rest]
  have htool : o'.lookupToolPreamble t = o.lookupToolPreamble s := by
    rw [lookupToolPreamble, lookupToolPreamble, ho.toolParser.parsingConfig, ho.gemma4ToolHandoff, h.rest]
  have hbuffer : t.buffer = s.buffer := by rw [h.rest]
  refine ⟨?_, ?_, htool⟩
  · rw [reasoningStartStatus, reasoningStartStatus, reasoningParserSupportsStreaming,
      reasoningParserSupportsStreaming, hpreamble, hbuffer, ho.reasoningParser]
  · rw [toolStartStatus, toolStartStatus, htool, hbuffer, ho.toolParser.parsingConfig]

omit hr in
theorem supportsStreaming_alike :
    o'.reasoningParserSupportsStreaming = o.reasoningParserSupportsStreaming ∧
      o'.toolParserSupportsStreaming = o.toolParserSupportsStreaming := by
  constructor
  · rw [reasoningParserSupportsStreaming, reasoningParserSupportsStreaming, ho.reasoningParser]
  · rw [toolParserSupportsStreaming, toolParserSupportsStreaming, ho.toolParser.parsingConfig]

theorem parseUnknown_alike (h : Related same inv implicit visible s t) :
    Alike (Related same inv implicit visible) (o.parseUnknown s finishReason)
      (o'.parseUnknown t finishReason) := by
  obtain ⟨hreason, htool, _⟩ := lookups_alike ho h
  obtain ⟨hstream, happly⟩ := supportsStreaming_alike ho
  have henabled : t.toolsEnabledForChunk = s.toolsEnabledForChunk := by rw [h.rest]
  have hterm : t.terminalContentFinish = s.terminalContentFinish := by rw [h.rest]
  unfold parseUnknown
  rw [hreason, htool, hstream, happly, henabled, hterm]
  refine .ite (fun _ => enterReasoning_alike finishReason ho hr h) fun _ => ?_
  refine .ite (fun _ => parseToolCallChunk_alike finishReason ho h _) fun _ => ?_
  exact .ite (fun _ => parseContentChunk_alike finishReason ho h) fun _ => .quiet h

omit hr in
theorem parseContent_alike (h : Related same inv implicit visible s t) :
    Alike (Related same inv implicit visible) (o.parseContent s finishReason)
      (o'.parseContent t finishReason) := by
  obtain ⟨_, _, hpreamble⟩ := lookups_alike ho h
  obtain ⟨_, happly⟩ := supportsStreaming_alike ho
  have henabled : t.toolsEnabledForChunk = s.toolsEnabledForChunk := by rw [h.rest]
  have hbuffer : t.buffer = s.buffer := by rw [h.rest]
  have hcontent := parseContentChunk_alike finishReason ho h
  unfold parseContent
  rw [hpreamble, happly, henabled, hbuffer, ho.toolParser.parsingConfig, ho.gemma4ToolHandoff]
  refine .ite (fun _ => ?_) fun _ => hcontent
  refine .ite (fun _ => parseToolCallChunk_alike finishReason ho h _) fun _ => ?_
  exact .ite (fun _ => .quiet h) fun _ => hcontent

omit hr in
theorem parseProcessingTool_alike (h : Related same inv implicit visible s t) :
    Alike (Related same inv implicit visible) (o.parseProcessingTool s finishReason)
      (o'.parseProcessingTool t finishReason) := by
  have hbuffer : t.buffer = s.buffer := by rw [h.rest]
  unfold parseProcessingTool
  rw [hbuffer, ho.toolParser.parsingConfig]
  refine .ite (fun _ => .quiet h) fun _ => ?_
  exact .ite (fun _ => parseToolCallChunk_alike finishReason ho h _) fun _ => parseToolCallChunk_alike finishReason ho h _

omit hr in
theorem parseAfterTool_alike (h : Related same inv implicit visible s t) :
    Alike (Related same inv implicit visible) (o.parseAfterTool s finishReason)
      (o'.parseAfterTool t finishReason) := by
  have hbuffer : t.buffer = s.buffer := by rw [h.rest]
  unfold parseAfterTool
  rw [hbuffer, ho.toolParser.parsingConfig, ho.contentParser]
  refine .ite (fun _ => parseToolCallChunk_alike finishReason ho h _) fun _ => ?_
  refine .ite (fun _ => ?_) fun _ => ?_
  · exact .ite (fun _ => parseContentChunk_alike finishReason ho h) fun _ => .quiet h
  · exact .ite (fun _ => .quiet h) fun _ => parseToolCallChunk_alike finishReason ho h _

theorem parseWaitingForTool_alike (h : Related same inv implicit visible s t) :
    Alike (Related same inv implicit visible) (o.parseWaitingForTool s finishReason)
      (o'.parseWaitingForTool t finishReason) := by
  have hafter := parseAfterTool_alike finishReason ho h
  have hbuffer : t.buffer = s.buffer := by rw [h.rest]
  have hreason : t.reasoningState = s.reasoningState := by rw [h.rest]
  unfold parseWaitingForTool
  rw [hbuffer, hreason, ho.gemma4ToolHandoff, ho.reasoningParser]
  refine .ite (fun _ => ?_) fun _ => hafter
  split
  · apply enterReasoning_alike finishReason ho hr
    refine h.update rfl rfl (hr.resetState h.reasoningState) ⟨rfl, rfl⟩ ?_
    rw [h.rest]
  · exact .ite (fun _ => .quiet h) fun _ => hafter
  · exact hafter

/-- One step of two routes. -/
theorem dispatch_alike (h : Related same inv implicit visible s t) :
    Alike (Related same inv implicit visible) (o.dispatch s finishReason)
      (o'.dispatch t finishReason) := by
  have hbuffer : t.buffer = s.buffer := by rw [h.rest]
  have hphase : t.processingPhase = s.processingPhase := by rw [h.rest]
  have hparse := parseReasoningChunk_alike finishReason ho hr h
  unfold dispatch
  rw [hbuffer, hphase, ho.reasoningParser]
  split
  · exact parseUnknown_alike finishReason ho hr h
  · split
    · exact hparse _
    · exact .ite (fun _ => .quiet h) fun _ => hparse _
    · exact hparse _
  · exact parseContent_alike finishReason ho h
  · exact parseProcessingTool_alike finishReason ho h
  · exact parseWaitingForTool_alike finishReason ho hr h

theorem parseChunk_alike (h : Related same inv implicit visible s t) (chunk : Str)
    (toolsAvailable : Bool) :
    Alike (Related same inv implicit visible) (o.parseChunk s chunk toolsAvailable finishReason)
      (o'.parseChunk t chunk toolsAvailable finishReason) := by
  obtain ⟨x, rfl, hx⟩ := h.tool
  apply dispatch_alike finishReason ho hr
  exact h.update rfl rfl h.reasoningState ⟨rfl, rfl⟩ rfl

theorem drainCache_alike (h : Related same inv implicit visible s t) :
    Alike (Related same inv implicit visible) (o.drainCache s) (o'.drainCache t) := by
  have hbuffer : t.buffer = s.buffer := by rw [h.rest]
  have henabled : t.toolsEnabledForChunk = s.toolsEnabledForChunk := by rw [h.rest]
  unfold drainCache
  rw [hbuffer, henabled]
  exact .ite (fun _ => .quiet h) fun _ => parseChunk_alike .none ho hr h _ _

theorem drainPendingDelta_alike (h : Related same inv implicit visible s t) :
    Alike (Related same inv implicit visible) (o.drainPendingDelta s) (o'.drainPendingDelta t) := by
  have hpending : t.pendingGemma4ToolHandoff = s.pendingGemma4ToolHandoff := by rw [h.rest]
  have hphase : t.processingPhase = s.processingPhase := by rw [h.rest]
  have hcache := drainCache_alike ho hr h
  obtain ⟨x, rfl, hx⟩ := h.tool
  obtain ⟨hdelta, hstate⟩ := ho.toolParser.drainPendingDelta hx
  unfold drainPendingDelta
  rw [hpending, hphase]
  refine .ite (fun _ => ?_) fun _ => .ite (fun _ => ?_) fun _ => hcache
  · apply parseToolCallChunk_alike .none ho
    exact h.update rfl rfl h.reasoningState ⟨rfl, rfl⟩ rfl
  · cases hd : o.toolParser.drainPendingDelta s.toolState with
    | mk delta toolState =>
    cases hd' : o'.toolParser.drainPendingDelta x with
    | mk delta' toolState' =>
    rw [hd, hd'] at hdelta hstate
    have hnext : Related same inv implicit visible { s with toolState := toolState }
        { s with toolState := toolState' } :=
      ⟨hstate, h.reasoningState, h.settings, rfl⟩
    cases delta with
    | none =>
      cases delta' with
      | none => exact drainCache_alike ho hr hnext
      | some delta' => cases hdelta
    | some delta =>
      cases delta' with
      | none => cases hdelta
      | some delta' => exact ⟨hdelta, hnext⟩

end Steps

section Runs

variable (ho : Similar o o' same) (hr : o.reasoningParser.Maintains inv)

include ho hr in
theorem perform_alike (h : Related same inv implicit visible s t) (call : Call) :
    Alike (Related same inv implicit visible) (o.perform s call) (o'.perform t call) := by
  cases call with
  | parseChunk chunk toolsAvailable finishReason => exact parseChunk_alike finishReason ho hr h chunk toolsAvailable
  | drainPendingDelta => exact drainPendingDelta_alike ho hr h

include ho hr in
theorem returned_alike (calls : List Call) (h : Related same inv implicit visible s t) :
    (o.returned s calls).map (Option.map Delta.anonymous) =
      (o'.returned t calls).map (Option.map Delta.anonymous) := by
  induction calls generalizing s t with
  | nil => rfl
  | cons call calls ih =>
    obtain ⟨hdelta, hstate⟩ := perform_alike ho hr h call
    simp only [returned, List.map_cons, hdelta, ih hstate]

include hr in
theorem after_related (hself : Similar o o same) (calls : List Call)
    (h : Related same inv implicit visible s s) :
    Related same inv implicit visible (o.after s calls) (o.after s calls) := by
  induction calls generalizing s with
  | nil => exact h
  | cons call calls ih => exact ih (perform_alike hself hr h call).2

/-- Nothing is buffered, and no tool parser is asked. -/
structure Idle (s : State τ ρ κ) : Prop where
  buffer : s.buffer = []
  noHandoff : s.pendingGemma4ToolHandoff = false
  noTool : s.processingPhase ≠ .toolCallsProcessingTool ∧ s.processingPhase ≠ .toolCallsWaitingForTool

theorem Idle.drain (h : Idle s) (o : OutputParser τ ρ κ) : o.drainPendingDelta s = (none, s) := by
  simp [drainPendingDelta, drainCache, h.noHandoff, h.noTool.1, h.noTool.2, h.buffer]

include ho hr in
/-- Whether tools were available for the last chunk does not count before the next one. -/
theorem returned_idle (calls : List Call) (hs : Idle s) (ht : Idle t)
    (h : Related same inv implicit visible s { t with toolsEnabledForChunk := s.toolsEnabledForChunk }) :
    (o.returned s calls).map (Option.map Delta.anonymous) =
      (o'.returned t calls).map (Option.map Delta.anonymous) := by
  induction calls with
  | nil => rfl
  | cons call calls ih =>
    cases call with
    | parseChunk chunk toolsAvailable finishReason =>
      have hchunk : o'.parseChunk t chunk toolsAvailable finishReason =
          o'.parseChunk { t with toolsEnabledForChunk := s.toolsEnabledForChunk } chunk toolsAvailable
            finishReason := rfl
      obtain ⟨hdelta, hstate⟩ := parseChunk_alike finishReason ho hr h chunk toolsAvailable
      rw [← hchunk] at hdelta hstate
      simp only [returned, perform, List.map_cons, hdelta, returned_alike ho hr calls hstate]
    | drainPendingDelta =>
      simp only [returned, perform, hs.drain, ht.drain, List.map_cons, ih]

/-- A new route over these parsers. -/
abbrev State.new (toolState : τ) (reasoningState : ρ) (contentState : κ) : State τ ρ κ :=
  { toolState := toolState, reasoningState := reasoningState, contentState := contentState }

/-- The resets of the three parsers lead back to a new parser each. -/
structure Restores (o : OutputParser τ ρ κ) (same : τ → τ → Prop) (inv : ρ → Prop) (implicit : Bool)
    (toolState : τ) (reasoningState : ρ) (contentState : κ) : Prop where
  tool (x : τ) : same (o.toolParser.resetState x) toolState
  reasoning (r : ρ) (h : inv r) :
    (if implicit then o.reasoningParser.setImplicitStart (o.reasoningParser.resetState r) true
      else o.reasoningParser.resetState r) =
      o.reasoningParser.setImplicitStart reasoningState implicit
  content (c : κ) : o.contentParser.resetState c = contentState
  new : inv (o.reasoningParser.setImplicitStart reasoningState implicit)

theorem idle_resetStreamingState (s : State τ ρ κ) : Idle (o.resetStreamingState s) := by
  refine ⟨rfl, rfl, ?_⟩
  unfold resetStreamingState
  dsimp only
  split <;> simp

theorem idle_configure_new (x : τ) (r : ρ) (c : κ) : Idle (o.configure (.new x r c) implicit visible) := by
  refine ⟨rfl, rfl, ?_⟩
  cases implicit <;> simp [configure, setImplicitReasoningStart]

/-- A route that is reset is a new one, ids and the last chunk's tools aside. -/
theorem reset_related {x' : τ} {r : ρ} {c : κ} (hn : Restores o same inv implicit x' r c)
    (h : Related same inv implicit visible s s) :
    Related same inv implicit visible (o.resetStreamingState s)
      { o.configure (.new x' r c) implicit visible with
        toolsEnabledForChunk := s.toolsEnabledForChunk } := by
  obtain ⟨himplicit, hvisible⟩ := h.settings
  have hreason := hn.reasoning s.reasoningState h.reasoningState
  refine ⟨hn.tool _, ?_, h.settings, ?_⟩
  · simp only [resetStreamingState, himplicit, hreason]
    exact hn.new
  · simp only [resetStreamingState, configure, setImplicitReasoningStart, himplicit, hreason, hvisible,
      hn.content, true_or, if_true]

include ho hr in
/-- After any calls, a route that is reset answers as a new one does. -/
theorem returned_reset (hself : Similar o o same) (hrefl : ∀ x, same x x) {x x' : τ} {r : ρ} {c : κ}
    (hn : Restores o same inv implicit x' r c) (history calls : List Call) :
    (o.returned (o.resetStreamingState (o.after (o.configure (.new x r c) implicit visible) history))
        calls).map (Option.map Delta.anonymous) =
      (o'.returned (o'.configure (.new x' r c) implicit visible) calls).map
        (Option.map Delta.anonymous) := by
  have hstart : Related same inv implicit visible (o.configure (.new x r c) implicit visible)
      (o.configure (.new x r c) implicit visible) := ⟨hrefl _, hn.new, ⟨rfl, rfl⟩, rfl⟩
  have hreset := reset_related hn (after_related hr hself history hstart)
  have hconfigure : o'.configure (.new x' r c) implicit visible =
      o.configure (.new x' r c) implicit visible := by
    rw [configure, configure, setImplicitReasoningStart, setImplicitReasoningStart, ho.reasoningParser]
  rw [hconfigure]
  exact returned_idle ho hr calls (idle_resetStreamingState _) (idle_configure_new _ _ _) hreset

end Runs

end Related

/-- Under all settings and whatever is called before, a route that is reset returns what a
new one returns for the same calls, random ids aside. -/
def ResetAsNew (route newRoute : OutputParser τ ρ κ) (used new : State τ ρ κ) : Prop :=
  ∀ (implicitReasoningStart contentSpecialTokensVisible : Bool) (history calls : List Call),
    (route.returned
        (route.resetStreamingState
          (route.after (route.configure used implicitReasoningStart contentSpecialTokensVisible)
            history)) calls).map (Option.map Delta.anonymous) =
      (newRoute.returned (newRoute.configure new implicitReasoningStart contentSpecialTokensVisible)
        calls).map (Option.map Delta.anonymous)

end OutputParser

end ModelServer
